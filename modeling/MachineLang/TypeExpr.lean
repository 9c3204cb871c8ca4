set_option autoImplicit false

namespace MachineLang

inductive TypeExpr where
  | name (name : String)
  | seq (element : TypeExpr)
  | set (element : TypeExpr)
  | map (key value : TypeExpr)
  | tuple (elements : List TypeExpr)
  | named (fields : List (String × TypeExpr))
  | anyOf (events : List String)

namespace TypeExpr

mutual

/-- The expression as it stands in a source text. A comma after a single element tells a tuple from
    brackets, and a colon without fields the empty named tuple from the empty tuple. -/
def text : TypeExpr → String
  | name n => n
  | seq element => "seq[" ++ element.text ++ "]"
  | set element => "set[" ++ element.text ++ "]"
  | map key value => "map[" ++ key.text ++ ", " ++ value.text ++ "]"
  | tuple [element] => "(" ++ element.text ++ ",)"
  | tuple elements => "(" ++ ", ".intercalate (texts elements) ++ ")"
  | named [] => "(:)"
  | named fields => "(" ++ ", ".intercalate (fieldTexts fields) ++ ")"
  | anyOf events => "any<" ++ ", ".intercalate events ++ ">"

def texts : List TypeExpr → List String
  | [] => []
  | e :: es => e.text :: texts es

def fieldTexts : List (String × TypeExpr) → List String
  | [] => []
  | (n, e) :: fields => (n ++ ": " ++ e.text) :: fieldTexts fields

end

theorem texts_eq_map (es : List TypeExpr) : texts es = es.map text := by
  induction es with
  | nil => rfl
  | cons e es ih => rw [texts, ih, List.map_cons]

theorem fieldTexts_eq_map (fields : List (String × TypeExpr)) :
    fieldTexts fields = fields.map fun field => field.1 ++ ": " ++ field.2.text := by
  induction fields with
  | nil => rfl
  | cons field fields ih => rw [fieldTexts, ih, List.map_cons]

end TypeExpr
end MachineLang
