set_option autoImplicit false

namespace MachineLang

structure Enumeration.Element where
  name : String
  value : Int
  deriving DecidableEq

structure Enumeration where
  name : String
  elements : List Enumeration.Element
  deriving DecidableEq

namespace Enumeration

def numbered (name : String) (names : List String) : Enumeration :=
  ⟨name, names.zipIdx.map fun (element, i) => ⟨element, i⟩⟩

def element? (decl : Enumeration) (name : String) : Option Element :=
  decl.elements.find? (·.name == name)

theorem numbered_elements_length (name : String) (names : List String) :
    (numbered name names).elements.length = names.length := by
  simp [numbered]

theorem name_of_element? {decl : Enumeration} {name : String} {element : Element}
    (h : decl.element? name = some element) : element.name = name := by
  simpa using List.find?_some h

end Enumeration
end MachineLang
