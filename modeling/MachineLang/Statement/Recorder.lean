import MachineLang.Statement.Visitor

set_option autoImplicit false

namespace MachineLang

namespace Visitor

def exprs : Visitor (List Expr) where
  expr e walk seen := walk (seen ++ [e])

/-- The expressions of leaves are not entered. -/
def leaves : Visitor (List Statement) where
  leaf s _ seen := seen ++ [s]

end Visitor

structure LoopDepth where
  current : Nat := 0
  deepest : Nat := 0
  count : Nat := 0

def Visitor.loopDepth : Visitor LoopDepth where
  loop _ _ walk d :=
    let inside := walk ⟨d.current + 1, max d.deepest (d.current + 1), d.count + 1⟩
    { inside with current := inside.current - 1 }

inductive Visit where
  | statement (s : Statement)
  | block (block : Block)
  | branch (condition : Expr) (thenBlock elseBlock : Block)
  | loop (condition : Expr) (body : Block)
  | leaf (s : Statement)
  | expr (e : Expr)

inductive Visit.Kind where
  | statement | block | branch | loop | leaf | expr
  deriving DecidableEq

def Visit.kind : Visit → Kind
  | statement _ => .statement
  | block _ => .block
  | branch .. => .branch
  | loop .. => .loop
  | leaf _ => .leaf
  | expr _ => .expr

/-- Writes a visit down and walks on unless its kind is pruned. -/
def Visitor.record (pruned : List Visit.Kind) (visit : Visit)
    (walk : List Visit → List Visit) (log : List Visit) : List Visit :=
  if pruned.contains visit.kind then log ++ [visit] else walk (log ++ [visit])

def Visitor.trace (pruned : List Visit.Kind) : Visitor (List Visit) where
  statement s := record pruned (.statement s)
  block b := record pruned (.block b)
  branch condition thenBlock elseBlock := record pruned (.branch condition thenBlock elseBlock)
  loop condition body := record pruned (.loop condition body)
  leaf s := record pruned (.leaf s)
  expr e := record pruned (.expr e)

end MachineLang
