import MachineLang.Ty.Basic

set_option autoImplicit false

/-!
# Texts of types

A type is spelled in two ways. As written, a typedef shows its name and a permission the interface
it was written as. In canonical spelling a typedef shows its target and a permission its events in
increasing order, so that types which differ only in their names for things share one text.
Enumerations and foreign types show their name in both.
-/
namespace MachineLang.Ty

inductive Spelling where
  | written | canonical
  deriving DecidableEq

/-- A single element keeps a comma, which tells `(int,)` from a type in brackets. -/
def tupleText : List String → String
  | [element] => "(" ++ element ++ ",)"
  | elements => "(" ++ ", ".intercalate elements ++ ")"

def fieldText (name text : String) : String := name ++ ": " ++ text

/-- The colon without fields tells the empty named tuple from the empty tuple. -/
def namedText : List String → String
  | [] => "(:)"
  | fields => "(" ++ ", ".intercalate fields ++ ")"

def eventsText (events : List String) : String := "any<" ++ ", ".intercalate events ++ ">"

def seqText (element : String) : String := "seq[" ++ element ++ "]"

def setText (element : String) : String := "set[" ++ element ++ "]"

def mapText (key value : String) : String := "map[" ++ key ++ ", " ++ value ++ "]"

def permissionText (p : Permission) : Spelling → String
  | .written => p.interface.getD (eventsText p.events)
  | .canonical => eventsText p.eventSet

mutual

def text (spelling : Spelling) : Ty → String
  | prim p => p.keyword
  | seq element => seqText (element.text spelling)
  | set element => setText (element.text spelling)
  | map key value => mapText (key.text spelling) (value.text spelling)
  | tuple elements => tupleText (texts spelling elements)
  | named fields => namedText (fieldTexts spelling fields)
  | enum decl => decl.name
  | foreign name => name
  | typedef name target =>
    match spelling with
    | .written => name
    | .canonical => target.text spelling
  | permission p => permissionText p spelling

def texts (spelling : Spelling) : List Ty → List String
  | [] => []
  | t :: ts => t.text spelling :: texts spelling ts

def fieldTexts (spelling : Spelling) : List (String × Ty) → List String
  | [] => []
  | (name, t) :: fields => fieldText name (t.text spelling) :: fieldTexts spelling fields

end

abbrev writtenText (t : Ty) : String := t.text .written

abbrev canonicalText (t : Ty) : String := t.text .canonical

/-- Types of one scope are the same type when their canonical texts are. -/
def sameType (s t : Ty) : Bool := s.canonicalText == t.canonicalText

theorem texts_eq_map (spelling : Spelling) (ts : List Ty) :
    texts spelling ts = ts.map (text spelling) := by
  induction ts with
  | nil => rfl
  | cons t ts ih => simp [texts, ih]

theorem fieldTexts_eq_map (spelling : Spelling) (fields : List (String × Ty)) :
    fieldTexts spelling fields =
      fields.map fun field => fieldText field.1 (field.2.text spelling) := by
  induction fields with
  | nil => rfl
  | cons field fields ih => simp [fieldTexts, ih]

end MachineLang.Ty
