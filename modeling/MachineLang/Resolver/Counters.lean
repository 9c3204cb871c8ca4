import MachineLang.Resolver.Tracking

set_option autoImplicit false

namespace MachineLang.Resolver

structure Counters where
  /-- The greatest number that a counter holds. -/
  capacity : Nat
  /-- How many targets may be read inside each other. -/
  nesting : Nat

/-- What keeps a reading from ending with an answer. -/
inductive Counters.Stop where
  | overflow
  | underflow
  | nesting

abbrev Counting := ExceptT ResolveError (EStateM Counters.Stop Progress)

namespace Counters
variable {α : Type}

def add (c : Counters) (a b : Nat) : EStateM Stop Progress Nat :=
  if a + b ≤ c.capacity then pure (a + b) else throw .overflow

def subtract (a b : Nat) : EStateM Stop Progress Nat :=
  if b ≤ a then pure (a - b) else throw .underflow

def nested (c : Counters) (reading : Counting α) : Counting α := ExceptT.mk do
  let p ← get
  let depth ← c.add p.depth 1
  set { p with depth, deepest := max p.deepest depth }
  let answer ← reading.run
  let after ← get
  let depth ← subtract after.depth 1
  set { after with depth }
  pure answer

/-- Opens a typedef for a reading, and measures how far down from the present depth this goes. -/
def measuring (name : String) (reading : Counting α) : Counting (α × Nat) := ExceptT.mk do
  let start ← get
  set { start with deepest := start.depth, opened := start.opened ++ [name] }
  let answer ← reading.run
  let after ← get
  let expansion ← subtract after.deepest start.depth
  set { after.pop with deepest := max after.deepest start.deepest }
  pure (answer.map fun a => (a, expansion))

end Counters

namespace Setup

def countNode {α : Type} (s : Setup) (c : Counters) (reading : Counting α) : Counting α :=
  c.nested do
    let p ← get
    if s.admits p.depth then reading else throw .limitExceeded

def countPermission (s : Setup) (p : Permission) : Counting Ty :=
  match s.undeclared? p.events with
  | some event => throw (.unknownEvent event)
  | none => pure (.permission p)

def countName (s : Setup) (target : String → TypeExpr → Counting Typedef) (name : String) :
    Counting Ty :=
  match Primitive.ofKeyword? name with
  | some p => pure (.prim p)
  | none =>
    match s.scope.find? name with
    | some (.typedef e) => do
      let typedef ← target name e
      pure (.typedef typedef.name typedef.target)
    | some (.enum elements) => pure (.enum ⟨name, elements⟩)
    | some (.interface receives) => s.countPermission ⟨some name, receives⟩
    | some .foreign => pure (.foreign name)
    | none => throw (.unknownType name)

mutual

def countExpr (s : Setup) (c : Counters) (target : String → TypeExpr → Counting Typedef) :
    TypeExpr → Counting Ty
  | .name name => s.countNode c (s.countName target name)
  | .seq element => s.countNode c do
    let t ← s.countExpr c target element
    pure (.seq t)
  | .set element => s.countNode c do
    let t ← s.countExpr c target element
    pure (.set t)
  | .map key value => s.countNode c do
    let k ← s.countExpr c target key
    let v ← s.countExpr c target value
    pure (.map k v)
  | .tuple [] | .named [] => s.countNode c (throw .emptyTuple)
  | .tuple (e :: es) => s.countNode c do
    let types ← s.countExprs c target (e :: es)
    pure (.tuple types)
  | .named (field :: fields) => s.countNode c do
    let fields ← s.countFields c target (field :: fields)
    pure (.named fields)
  | .anyOf events => s.countNode c (s.countPermission ⟨none, events⟩)

def countExprs (s : Setup) (c : Counters) (target : String → TypeExpr → Counting Typedef) :
    List TypeExpr → Counting (List Ty)
  | [] => pure []
  | e :: es => do
    let t ← s.countExpr c target e
    let ts ← s.countExprs c target es
    pure (t :: ts)

def countFields (s : Setup) (c : Counters) (target : String → TypeExpr → Counting Typedef) :
    List (String × TypeExpr) → Counting (List (String × Ty))
  | [] => pure []
  | (name, e) :: fields => do
    let t ← s.countExpr c target e
    let ts ← s.countFields c target fields
    pure ((name, t) :: ts)

end

def countTypedef (s : Setup) (c : Counters) : Nat → String → TypeExpr → Counting Typedef
  | 0, _, _ => ExceptT.lift (throw .nesting)
  | nesting + 1, name, e => do
    let p ← get
    match p.cache.lookup name with
    | some kept =>
      let reached ← ExceptT.lift (c.add p.depth kept.expansion)
      if s.admits reached then
        modify (Progress.reach reached)
        pure kept.typedef
      else throw .limitExceeded
    | none =>
      if p.opened.contains name then throw (.cyclicTypedef (cycle p.opened name))
      else
        let (target, expansion) ←
          Counters.measuring name (s.countExpr c (s.countTypedef c nesting) e)
        let typedef : Typedef := ⟨name, target⟩
        modify (Progress.keep name ⟨typedef, expansion⟩)
        pure typedef

def countRoot (s : Setup) (c : Counters) (e : TypeExpr) : Counting Ty :=
  s.countExpr c (s.countTypedef c c.nesting) e

def countTypedefs (s : Setup) (c : Counters) :
    List (String × TypeExpr) → Counting (List Typedef)
  | [] => pure []
  | (name, e) :: typedefs => do
    let typedef ← s.countTypedef c c.nesting name e
    let rest ← s.countTypedefs c typedefs
    pure (typedef :: rest)

end Setup

namespace Counters

def resolve (c : Counters) (s : Setup) (e : TypeExpr) :
    EStateM Stop Progress (Except ResolveError Ty) :=
  (s.countRoot c e).run

def resolveTypedefs (c : Counters) (s : Setup) :
    EStateM Stop Progress (Except ResolveError (List Typedef)) :=
  (s.countTypedefs c s.scope.typedefs).run

end Counters
end MachineLang.Resolver
