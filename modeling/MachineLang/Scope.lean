import MachineLang.Enumeration
import MachineLang.Primitive
import MachineLang.TypeExpr

set_option autoImplicit false

namespace MachineLang

inductive Declaration where
  | typedef (target : TypeExpr)
  | enum (elements : List Enumeration.Element)
  | interface (receives : List String)
  | foreign

inductive DeclarationError where
  | reserved (name : String)
  | duplicate (name : String)
  deriving DecidableEq

def DeclarationError.message : DeclarationError → String
  | reserved name => "`" ++ name ++ "` is a reserved type name"
  | duplicate name => "`" ++ name ++ "` is declared more than once"

structure Scope where
  types : List (String × Declaration)
  events : List String
  names_nodup : (types.map Prod.fst).Nodup
  names_free : ∀ name ∈ types.map Prod.fst, Primitive.ofKeyword? name = none
  events_nodup : events.Nodup

namespace Scope

def empty : Scope := ⟨[], [], .nil, by simp, .nil⟩

def find? (scope : Scope) (name : String) : Option Declaration := scope.types.lookup name

def contains (scope : Scope) (name : String) : Bool := (scope.types.map Prod.fst).contains name

def hasEvent (scope : Scope) (event : String) : Bool := scope.events.contains event

private theorem nodup_concat {names : List String} {name : String} (h : names.Nodup)
    (hnew : ¬ names.contains name) : (names ++ [name]).Nodup := by
  rw [List.contains_iff_mem] at hnew
  rw [List.nodup_append]
  refine ⟨h, by simp, fun x hx y hy hxy => hnew ?_⟩
  rwa [← List.mem_singleton.1 hy, ← hxy]

/-- A keyword is refused as such, whatever else is wrong with it. -/
def declare (scope : Scope) (name : String) (declaration : Declaration) :
    Except DeclarationError Scope :=
  if hfree : Primitive.ofKeyword? name = none then
    if hnew : scope.contains name then .error (.duplicate name)
    else .ok { scope with
      types := scope.types ++ [(name, declaration)]
      names_nodup := by simpa using nodup_concat scope.names_nodup hnew
      names_free := by
        intro x hx
        rw [List.map_append, List.mem_append] at hx
        rcases hx with hx | hx
        · exact scope.names_free x hx
        · exact List.mem_singleton.1 hx ▸ hfree }
  else .error (.reserved name)

def declareEvent (scope : Scope) (event : String) : Except DeclarationError Scope :=
  if hnew : scope.hasEvent event then .error (.duplicate event)
  else .ok { scope with
    events := scope.events ++ [event]
    events_nodup := nodup_concat scope.events_nodup hnew }

def typedefs (scope : Scope) : List (String × TypeExpr) :=
  scope.types.filterMap fun
    | (name, .typedef target) => some (name, target)
    | _ => none

theorem contains_iff (scope : Scope) (name : String) :
    scope.contains name ↔ ∃ declaration, scope.find? name = some declaration := by
  simp only [contains, find?, List.contains_iff_mem]
  induction scope.types with
  | nil => simp
  | cons d types ih =>
    rw [List.map_cons, List.mem_cons, List.lookup_cons, ih]
    by_cases h : name = d.1
    · simp [h]
    · simp [h, beq_eq_false_iff_ne.2 h]

end Scope
end MachineLang
