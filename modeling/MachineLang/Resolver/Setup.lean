import MachineLang.Scope

set_option autoImplicit false

/-!
# What resolution depends on

The answer to a type expression depends on a scope and on two settings: how deep syntax may nest,
and whether the events of permissions have to be declared. Depth counts the nodes from the root of
the expression to a node; a typedef's target lies one below the name that mentions it.
-/
namespace MachineLang

inductive ResolveError where
  | unknownType (name : String)
  | unknownEvent (name : String)
  /-- The typedefs on the way round, where the first and the last are the same. -/
  | cyclicTypedef (path : List String)
  | emptyTuple
  | limitExceeded
  deriving DecidableEq

def ResolveError.message : ResolveError → String
  | unknownType name => "unknown type `" ++ name ++ "`"
  | unknownEvent name => "unknown event `" ++ name ++ "`"
  | cyclicTypedef path => "cyclic typedef: " ++ " -> ".intercalate path
  | emptyTuple => "tuple type must have at least one element"
  | limitExceeded => "recursion limit exceeded"

namespace Resolver

/-- Without a `limit` any depth will do. -/
structure Settings where
  limit : Option Nat := some 256
  checkEvents : Bool := true

structure Setup where
  scope : Scope
  settings : Settings := {}

/-- The way from the first mention of the name among the open typedefs round to the name. -/
def cycle (opened : List String) (name : String) : List String :=
  opened.dropWhile (· != name) ++ [name]

namespace Setup

def admits (s : Setup) (depth : Nat) : Bool := s.settings.limit.all fun limit => depth ≤ limit

def undeclared? (s : Setup) (events : List String) : Option String :=
  events.find? fun event => s.settings.checkEvents && !s.scope.hasEvent event

end Setup
end Resolver
end MachineLang
