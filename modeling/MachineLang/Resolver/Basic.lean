import MachineLang.Resolver.Setup
import MachineLang.Ty.Basic

set_option autoImplicit false

/-!
# Resolvers

A resolver turns type expressions into types. It keeps the target of every typedef that it has
read, so that all mentions of the typedef share one tree, which may be exponentially larger when
written out. A kept target is charged as if it were read anew: its height was measured when it was
read, and the depth of the mention plus that height has to be admitted. So no answer depends on
what was asked before.
-/
namespace MachineLang

/-- A type with the height of its tree: one for a leaf, and one more for a typedef than for its
    target. Walking a tree with shared parts to measure it would take exponential time. -/
structure Resolver.Measured where
  type : Ty
  height : Nat

abbrev Resolver.Memo := List (String × Resolver.Measured)

structure Resolver extends Resolver.Setup where
  memo : Resolver.Memo := []

namespace Resolver

/-- Reading ends with a result or an error, and what it has kept by then stays in both cases. -/
abbrev Reading := EStateM ResolveError Memo

abbrev TargetReader := Nat → String → TypeExpr → Reading Measured

namespace Setup

def descend {α : Type} (s : Setup) (depth : Nat) (next : Reading α) : Reading α :=
  if s.admits depth then next else throw .limitExceeded

def readPermission (s : Setup) (p : Permission) : Reading Measured :=
  match s.undeclared? p.events with
  | some event => throw (.unknownEvent event)
  | none => pure ⟨.permission p, 1⟩

def readName (s : Setup) (target : TargetReader) (depth : Nat) (name : String) :
    Reading Measured :=
  match Primitive.ofKeyword? name with
  | some p => pure ⟨.prim p, 1⟩
  | none =>
    match s.scope.find? name with
    | some (.typedef e) => do
      let read ← target depth name e
      pure ⟨.typedef name read.type, read.height + 1⟩
    | some (.enum elements) => pure ⟨.enum ⟨name, elements⟩, 1⟩
    | some (.interface receives) => s.readPermission ⟨some name, receives⟩
    | some .foreign => pure ⟨.foreign name, 1⟩
    | none => throw (.unknownType name)

mutual

/-- Reads the node at the given depth and then its parts from left to right. -/
def readExpr (s : Setup) (target : TargetReader) (depth : Nat) : TypeExpr → Reading Measured
  | .name name => s.descend depth (s.readName target depth name)
  | .seq element => s.descend depth do
    let read ← s.readExpr target (depth + 1) element
    pure ⟨.seq read.type, read.height + 1⟩
  | .set element => s.descend depth do
    let read ← s.readExpr target (depth + 1) element
    pure ⟨.set read.type, read.height + 1⟩
  | .map key value => s.descend depth do
    let readKey ← s.readExpr target (depth + 1) key
    let readValue ← s.readExpr target (depth + 1) value
    pure ⟨.map readKey.type readValue.type, max readKey.height readValue.height + 1⟩
  | .tuple [] | .named [] => s.descend depth (throw .emptyTuple)
  | .tuple (e :: es) => s.descend depth do
    let (types, height) ← s.readExprs target (depth + 1) (e :: es)
    pure ⟨.tuple types, height + 1⟩
  | .named (field :: fields) => s.descend depth do
    let (fields, height) ← s.readFields target (depth + 1) (field :: fields)
    pure ⟨.named fields, height + 1⟩
  | .anyOf events => s.descend depth (s.readPermission ⟨none, events⟩)

def readExprs (s : Setup) (target : TargetReader) (depth : Nat) :
    List TypeExpr → Reading (List Ty × Nat)
  | [] => pure ([], 0)
  | e :: es => do
    let read ← s.readExpr target depth e
    let (types, height) ← s.readExprs target depth es
    pure (read.type :: types, max read.height height)

def readFields (s : Setup) (target : TargetReader) (depth : Nat) :
    List (String × TypeExpr) → Reading (List (String × Ty) × Nat)
  | [] => pure ([], 0)
  | (name, e) :: fields => do
    let read ← s.readExpr target depth e
    let (fields, height) ← s.readFields target depth fields
    pure ((name, read.type) :: fields, max read.height height)

end

/-- Reads a target while the typedefs `opened`, outermost first, are being read. The number bounds
    how many typedefs are not open; at zero all are, so the name is one of them. -/
def readTarget (s : Setup) : Nat → List String → TargetReader
  | 0, opened, _, name, _ => throw (.cyclicTypedef (cycle opened name))
  | unopened + 1, opened, depth, name, e => do
    match (← get).lookup name with
    | some kept => s.descend (depth + kept.height) (pure kept)
    | none =>
      if opened.contains name then throw (.cyclicTypedef (cycle opened name))
      else
        let read ← s.readExpr (s.readTarget unopened (opened ++ [name])) (depth + 1) e
        modify ((name, read) :: ·)
        pure read

def readOutermost (s : Setup) : TargetReader := s.readTarget s.scope.typedefs.length []

def readRoot (s : Setup) (e : TypeExpr) : Reading Ty := do
  let read ← s.readExpr s.readOutermost 1 e
  pure read.type

/-- Reads typedefs as if each were mentioned one level above the root of an expression. -/
def readTypedefs (s : Setup) : List (String × TypeExpr) → Reading (List (String × Ty))
  | [] => pure []
  | (name, e) :: typedefs => do
    let read ← s.readOutermost 0 name e
    let rest ← s.readTypedefs typedefs
    pure ((name, read.type) :: rest)

end Setup

def run {α : Type} (r : Resolver) (reading : Reading α) : Except ResolveError α × Resolver :=
  match reading r.memo with
  | .ok a memo => (.ok a, { r with memo })
  | .error e memo => (.error e, { r with memo })

def resolve (r : Resolver) (e : TypeExpr) : Except ResolveError Ty × Resolver :=
  r.run (r.readRoot e)

/-- The declared typedefs in order with their targets, unless one of them fails. -/
def resolveTypedefs (r : Resolver) : Except ResolveError (List (String × Ty)) × Resolver :=
  r.run (r.readTypedefs r.scope.typedefs)

end Resolver
end MachineLang
