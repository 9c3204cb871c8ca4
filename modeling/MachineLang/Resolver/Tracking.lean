import MachineLang.Resolver.Basic

set_option autoImplicit false

/-!
# Keeping track of a reading

The same readings over one state that all nodes share. On the way down the state counts the depth
up and opens typedefs, and on the way back it takes both back, whether the reading has succeeded or
failed. The height of a target is no part of the answer here: it is the greatest depth met while the
target was read, less the depth of the mention. Between the calls to a resolver only what is kept
remains, and a resolver is therefore built on the plain readings.
-/
namespace MachineLang.Resolver

structure Typedef where
  name : String
  target : Ty

/-- A typedef that was read, and how many levels its target goes down. -/
structure Typedef.Kept where
  typedef : Typedef
  expansion : Nat

structure Progress where
  cache : List (String × Typedef.Kept) := []
  /-- Counts the nodes from the root to the one that is being read. -/
  depth : Nat := 0
  /-- The typedefs that are being read, outermost first. -/
  opened : List String := []
  /-- The greatest depth since the innermost open typedef was mentioned. -/
  deepest : Nat := 0

namespace Progress

def enter (p : Progress) : Progress :=
  { p with depth := p.depth + 1, deepest := max p.deepest (p.depth + 1) }

def leave (p : Progress) : Progress := { p with depth := p.depth - 1 }

def push (name : String) (p : Progress) : Progress := { p with opened := p.opened ++ [name] }

def pop (p : Progress) : Progress := { p with opened := p.opened.dropLast }

def reach (depth : Nat) (p : Progress) : Progress := { p with deepest := max p.deepest depth }

def keep (name : String) (kept : Typedef.Kept) (p : Progress) : Progress :=
  { p with cache := (name, kept) :: p.cache }

end Progress

abbrev Tracking := EStateM ResolveError Progress

namespace Tracking
variable {α : Type}

/-- Takes back what was done to the state before a reading, however it ends. -/
def restoring (restore : Progress → Progress) (reading : Tracking α) : Tracking α := fun p =>
  match reading p with
  | .ok a after => .ok a (restore after)
  | .error e after => .error e (restore after)

def nested (reading : Tracking α) : Tracking α := do
  modify Progress.enter
  restoring Progress.leave reading

def opening (name : String) (reading : Tracking α) : Tracking α := do
  modify (Progress.push name)
  restoring Progress.pop reading

/-- Reads and measures how far down from the present depth this goes. The depths met before are
    put aside meanwhile. -/
def measuring (reading : Tracking α) : Tracking (α × Nat) := do
  let start ← get
  modify fun p => { p with deepest := start.depth }
  restoring (Progress.reach start.deepest) do
    let a ← reading
    let after ← get
    pure (a, after.deepest - start.depth)

end Tracking
open Tracking

namespace Setup

def trackNode {α : Type} (s : Setup) (reading : Tracking α) : Tracking α :=
  nested do
    let p ← get
    if s.admits p.depth then reading else throw .limitExceeded

def trackPermission (s : Setup) (p : Permission) : Tracking Ty :=
  match s.undeclared? p.events with
  | some event => throw (.unknownEvent event)
  | none => pure (.permission p)

def trackName (s : Setup) (target : String → TypeExpr → Tracking Typedef) (name : String) :
    Tracking Ty :=
  match Primitive.ofKeyword? name with
  | some p => pure (.prim p)
  | none =>
    match s.scope.find? name with
    | some (.typedef e) => do
      let typedef ← target name e
      pure (.typedef typedef.name typedef.target)
    | some (.enum elements) => pure (.enum ⟨name, elements⟩)
    | some (.interface receives) => s.trackPermission ⟨some name, receives⟩
    | some .foreign => pure (.foreign name)
    | none => throw (.unknownType name)

mutual

def trackExpr (s : Setup) (target : String → TypeExpr → Tracking Typedef) :
    TypeExpr → Tracking Ty
  | .name name => s.trackNode (s.trackName target name)
  | .seq element => s.trackNode do
    let t ← s.trackExpr target element
    pure (.seq t)
  | .set element => s.trackNode do
    let t ← s.trackExpr target element
    pure (.set t)
  | .map key value => s.trackNode do
    let k ← s.trackExpr target key
    let v ← s.trackExpr target value
    pure (.map k v)
  | .tuple [] | .named [] => s.trackNode (throw .emptyTuple)
  | .tuple (e :: es) => s.trackNode do
    let types ← s.trackExprs target (e :: es)
    pure (.tuple types)
  | .named (field :: fields) => s.trackNode do
    let fields ← s.trackFields target (field :: fields)
    pure (.named fields)
  | .anyOf events => s.trackNode (s.trackPermission ⟨none, events⟩)

def trackExprs (s : Setup) (target : String → TypeExpr → Tracking Typedef) :
    List TypeExpr → Tracking (List Ty)
  | [] => pure []
  | e :: es => do
    let t ← s.trackExpr target e
    let ts ← s.trackExprs target es
    pure (t :: ts)

def trackFields (s : Setup) (target : String → TypeExpr → Tracking Typedef) :
    List (String × TypeExpr) → Tracking (List (String × Ty))
  | [] => pure []
  | (name, e) :: fields => do
    let t ← s.trackExpr target e
    let ts ← s.trackFields target fields
    pure ((name, t) :: ts)

end

/-- The typedef with its target, kept or read now. The number bounds how many typedefs are not
    open, as it does for the plain reading. -/
def trackTypedef (s : Setup) : Nat → String → TypeExpr → Tracking Typedef
  | 0, name, _ => do
    let p ← get
    throw (.cyclicTypedef (cycle p.opened name))
  | unopened + 1, name, e => do
    let p ← get
    match p.cache.lookup name with
    | some kept =>
      let reached := p.depth + kept.expansion
      if s.admits reached then
        modify (Progress.reach reached)
        pure kept.typedef
      else throw .limitExceeded
    | none =>
      if p.opened.contains name then throw (.cyclicTypedef (cycle p.opened name))
      else
        let (target, expansion) ←
          measuring (opening name (s.trackExpr (s.trackTypedef unopened) e))
        let typedef : Typedef := ⟨name, target⟩
        modify (Progress.keep name ⟨typedef, expansion⟩)
        pure typedef

def trackRoot (s : Setup) (e : TypeExpr) : Tracking Ty :=
  s.trackExpr (s.trackTypedef s.scope.typedefs.length) e

def trackTypedefs (s : Setup) : List (String × TypeExpr) → Tracking (List Typedef)
  | [] => pure []
  | (name, e) :: typedefs => do
    let typedef ← s.trackTypedef s.scope.typedefs.length name e
    let rest ← s.trackTypedefs typedefs
    pure (typedef :: rest)

end Setup

namespace Progress

def run {α : Type} (p : Progress) (reading : Tracking α) : Except ResolveError α × Progress :=
  match reading p with
  | .ok a after => (.ok a, after)
  | .error e after => (.error e, after)

def resolve (p : Progress) (s : Setup) (e : TypeExpr) : Except ResolveError Ty × Progress :=
  p.run (s.trackRoot e)

def resolveTypedefs (p : Progress) (s : Setup) : Except ResolveError (List Typedef) × Progress :=
  p.run (s.trackTypedefs s.scope.typedefs)

end Progress
end MachineLang.Resolver
