import MachineLang.Statement.Block

set_option autoImplicit false

/-!
# Visitors

A visitor says what happens at the nodes of a statement tree. At each node it is handed the walk
over the parts of that node and may run it, put work around it or leave it out; a visitor that says
nothing about a kind of node walks on. State is threaded through in the order of the source.
-/
namespace MachineLang

structure Visitor (σ : Type) where
  statement : Statement → (σ → σ) → σ → σ := fun _ walk => walk
  block : Block → (σ → σ) → σ → σ := fun _ walk => walk
  branch : Expr → Block → Block → (σ → σ) → σ → σ := fun _ _ _ walk => walk
  loop : Expr → Block → (σ → σ) → σ → σ := fun _ _ walk => walk
  /-- Called for the statements that hold no statement. -/
  leaf : Statement → (σ → σ) → σ → σ := fun _ walk => walk
  expr : Expr → (σ → σ) → σ → σ := fun _ walk => walk

namespace Visitor
variable {σ : Type}

mutual

def visitExpr (v : Visitor σ) : Expr → σ → σ
  | .call loc function arguments =>
    v.expr (.call loc function arguments) (v.visitExprs arguments)
  | e => v.expr e id

def visitExprs (v : Visitor σ) : List Expr → σ → σ
  | [] => id
  | e :: es => v.visitExprs es ∘ v.visitExpr e

end

/-- A leaf visit never enters a block, even when asked of a statement that holds one. -/
def visitLeaf (v : Visitor σ) (s : Statement) : σ → σ := v.leaf s (v.visitExprs s.operands)

mutual

def visitStatement (v : Visitor σ) : Statement → σ → σ
  | .noOp loc => v.statement (.noOp loc) (v.visitLeaf (.noOp loc))
  | .action loc a => v.statement (.action loc a) (v.visitLeaf (.action loc a))
  | .compound block => v.statement (.compound block) (v.visitBlock block)
  | .branch loc condition thenBlock elseBlock =>
    v.statement (.branch loc condition thenBlock elseBlock) <|
      v.branch condition thenBlock elseBlock <|
        v.visitBlock elseBlock ∘ v.visitBlock thenBlock ∘ v.visitExpr condition
  | .loop loc condition body =>
    v.statement (.loop loc condition body) <|
      v.loop condition body (v.visitBlock body ∘ v.visitExpr condition)

def visitBlock (v : Visitor σ) : Block → σ → σ
  | ⟨loc, statements⟩ => v.block ⟨loc, statements⟩ (v.visitStatements statements)

def visitStatements (v : Visitor σ) : List Statement → σ → σ
  | [] => id
  | s :: ss => v.visitStatements ss ∘ v.visitStatement s

end

end Visitor
end MachineLang
