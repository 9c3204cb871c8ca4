set_option autoImplicit false

namespace MachineLang

inductive Primitive where
  | any | bool | int | float | string | event | machine | data | null
  deriving DecidableEq

namespace Primitive

def all : List Primitive := [any, bool, int, float, string, event, machine, data, null]

def index (p : Primitive) : Nat := all.idxOf p

def ofIndex? (i : Nat) : Option Primitive := all[i]?

def isBuiltin (i : Nat) : Bool := i < all.length

def keyword : Primitive → String
  | any => "any"
  | bool => "bool"
  | int => "int"
  | float => "float"
  | string => "string"
  | event => "event"
  | machine => "machine"
  | data => "data"
  | null => "null"

def ofKeyword? (s : String) : Option Primitive := all.find? (·.keyword == s)

def isNullable : Primitive → Bool
  | any | event | machine | data | null => true
  | bool | int | float | string => false

/-- Whether values of the type hold no reference to a machine. -/
def isData : Primitive → Bool
  | any | machine => false
  | bool | int | float | string | event | data | null => true

/-- No number becomes another kind of number: `float` refuses `int`. -/
def accepts (target source : Primitive) : Bool :=
  target == source || match target with
    | any => true
    | data => source.isData
    | event | machine => source == null
    | bool | int | float | string | null => false

theorem mem_all (p : Primitive) : p ∈ all := by
  cases p <;> decide

theorem ofIndex?_index (p : Primitive) : ofIndex? p.index = some p := by
  cases p <;> rfl

theorem ofKeyword?_keyword (p : Primitive) : ofKeyword? p.keyword = some p := by
  cases p <;> decide

theorem keyword_of_ofKeyword? {s : String} {p : Primitive} (h : ofKeyword? s = some p) :
    p.keyword = s := by
  simpa using List.find?_some h

theorem accepts_iff {target source : Primitive} :
    target.accepts source ↔
      target = any ∨ target = data ∧ source.isData ∨ source = target ∨
        (target = event ∨ target = machine) ∧ source = null := by
  cases target <;> cases source <;> decide

theorem isNullable_eq_accepts (p : Primitive) : p.isNullable = p.accepts null := by
  cases p <;> rfl

end Primitive
end MachineLang
