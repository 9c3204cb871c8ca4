import MachineLang.Resolver.Setup
import MachineLang.Ty.Basic

set_option autoImplicit false

namespace MachineLang.Resolver

abbrev TargetExpander := Nat → String → TypeExpr → Except ResolveError Ty

namespace Setup

def expandPermission (s : Setup) (p : Permission) : Except ResolveError Ty :=
  match s.undeclared? p.events with
  | some event => .error (.unknownEvent event)
  | none => .ok (.permission p)

def expandName (s : Setup) (target : TargetExpander) (depth : Nat) (name : String) :
    Except ResolveError Ty :=
  match Primitive.ofKeyword? name with
  | some p => .ok (.prim p)
  | none =>
    match s.scope.find? name with
    | some (.typedef e) => (target depth name e).map (.typedef name)
    | some (.enum elements) => .ok (.enum ⟨name, elements⟩)
    | some (.interface receives) => s.expandPermission ⟨some name, receives⟩
    | some .foreign => .ok (.foreign name)
    | none => .error (.unknownType name)

mutual

def expandExpr (s : Setup) (target : TargetExpander) (depth : Nat) (e : TypeExpr) :
    Except ResolveError Ty :=
  if s.admits depth then
    match e with
    | .name name => s.expandName target depth name
    | .seq element => (s.expandExpr target (depth + 1) element).map .seq
    | .set element => (s.expandExpr target (depth + 1) element).map .set
    | .map key value => do
      let key ← s.expandExpr target (depth + 1) key
      let value ← s.expandExpr target (depth + 1) value
      pure (.map key value)
    | .tuple [] | .named [] => .error .emptyTuple
    | .tuple (e :: es) => (s.expandExprs target (depth + 1) (e :: es)).map .tuple
    | .named (field :: fields) =>
      (s.expandFields target (depth + 1) (field :: fields)).map .named
    | .anyOf events => s.expandPermission ⟨none, events⟩
  else .error .limitExceeded

def expandExprs (s : Setup) (target : TargetExpander) (depth : Nat) :
    List TypeExpr → Except ResolveError (List Ty)
  | [] => .ok []
  | e :: es => do
    let t ← s.expandExpr target depth e
    let ts ← s.expandExprs target depth es
    pure (t :: ts)

def expandFields (s : Setup) (target : TargetExpander) (depth : Nat) :
    List (String × TypeExpr) → Except ResolveError (List (String × Ty))
  | [] => .ok []
  | (name, e) :: fields => do
    let t ← s.expandExpr target depth e
    let ts ← s.expandFields target depth fields
    pure ((name, t) :: ts)

end

def expandTarget (s : Setup) : Nat → List String → TargetExpander
  | 0, opened, _, name, _ => .error (.cyclicTypedef (cycle opened name))
  | unopened + 1, opened, depth, name, e =>
    if opened.contains name then .error (.cyclicTypedef (cycle opened name))
    else s.expandExpr (s.expandTarget unopened (opened ++ [name])) (depth + 1) e

def expand (s : Setup) (e : TypeExpr) : Except ResolveError Ty :=
  s.expandExpr (s.expandTarget s.scope.typedefs.length []) 1 e

end Setup
end MachineLang.Resolver
