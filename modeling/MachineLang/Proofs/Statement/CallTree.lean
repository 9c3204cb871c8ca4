import MachineLang.Statement.Recorder
import MachineLang.Proofs.Statement.Tree

set_option autoImplicit false

/-!
# Call trees

A visit that walks on makes further visits, which depend on the node and not on the visitor; so the
visits from one start form a tree. What a visitor does is a matter of its hooks alone: each of them
stands around the visits below its node (`visit_eq`). Visitors whose hooks agree therefore give
results that agree, and without hooks at blocks, leaves and expressions only the statements count.
-/
namespace MachineLang

namespace Visit

def parts : Visit → List Visit
  | statement (.compound b) => [block b]
  | statement (.branch _ condition thenBlock elseBlock) => [branch condition thenBlock elseBlock]
  | statement (.loop _ condition body) => [loop condition body]
  | statement (.noOp loc) => [leaf (.noOp loc)]
  | statement (.action loc a) => [leaf (.action loc a)]
  | block b => b.statements.map statement
  | branch condition thenBlock elseBlock => [expr condition, block thenBlock, block elseBlock]
  | loop condition body => [expr condition, block body]
  | leaf s => s.operands.map expr
  | expr e => e.children.map expr

theorem partsInduction {motive : Visit → Prop}
    (step : ∀ x, (∀ y ∈ x.parts, motive y) → motive x) (x : Visit) : motive x := by
  have hexpr : ∀ e, motive (expr e) := by
    intro e
    induction e using Expr.treeInduction with
    | call loc function arguments ih => exact step _ (by simpa [parts, Expr.children] using ih)
    | var | int | bool | str | null | this | defaultOf =>
      exact step _ (by simp [parts, Expr.children])
  have hleaf : ∀ s, motive (leaf s) := fun s => step _ (by simpa [parts] using fun e _ => hexpr e)
  have hblock : ∀ b : Block, (∀ s ∈ b.statements, motive (statement s)) → motive (block b) :=
    fun b hb => step _ (by simpa [parts] using hb)
  have hbranch : ∀ c t e, motive (block t) → motive (block e) → motive (branch c t e) :=
    fun c t e ht he => step _ (by simpa [parts] using ⟨hexpr c, ht, he⟩)
  have hloop : ∀ c b, motive (block b) → motive (loop c b) :=
    fun c b hb => step _ (by simpa [parts] using ⟨hexpr c, hb⟩)
  have hstatement : ∀ s, motive (statement s) := by
    intro s
    induction s using Statement.treeInduction with
    | noOp | action => exact step _ (by simpa [parts] using hleaf _)
    | compound b ih => exact step _ (by simpa [parts] using hblock b ih)
    | branch loc c t e iht ihe =>
      exact step _ (by simpa [parts] using hbranch c t e (hblock t iht) (hblock e ihe))
    | loop loc c b ih => exact step _ (by simpa [parts] using hloop c b (hblock b ih))
  cases x with
  | statement s => exact hstatement s
  | block b => exact hblock b fun s _ => hstatement s
  | branch c t e =>
    exact hbranch c t e (hblock t fun s _ => hstatement s) (hblock e fun s _ => hstatement s)
  | loop c b => exact hloop c b (hblock b fun s _ => hstatement s)
  | leaf s => exact hleaf s
  | expr e => exact hexpr e

instance : WellFoundedRelation Visit where
  rel y x := y ∈ x.parts
  wf := ⟨partsInduction fun x h => .intro x h⟩

def expr? : Visit → Option Expr
  | expr e => some e
  | _ => none

end Visit

/-- A visit with the visits made inside it. -/
inductive CallTree where
  | node (visit : Visit) (calls : List CallTree)

namespace CallTree

mutual

/-- The visits of the tree in pre-order, each with the kinds of those above it, given the kinds
around the tree. -/
def entries (around : List Visit.Kind) : CallTree → List (List Visit.Kind × Visit)
  | node visit calls => (around, visit) :: entriesAll (visit.kind :: around) calls

def entriesAll (around : List Visit.Kind) : List CallTree → List (List Visit.Kind × Visit)
  | [] => []
  | t :: ts => t.entries around ++ entriesAll around ts

end

theorem entriesAll_eq_flatMap (around : List Visit.Kind) (ts : List CallTree) :
    entriesAll around ts = ts.flatMap (entries around) := by
  induction ts with
  | nil => rfl
  | cons t ts ih => rw [entriesAll, ih, List.flatMap_cons]

end CallTree

/-- All visits from a start when nothing is left out. -/
def Visit.tree (x : Visit) : CallTree := .node x (x.parts.attach.map fun y => y.1.tree)
termination_by x
decreasing_by exact y.2

theorem Visit.tree_eq (x : Visit) : x.tree = .node x (x.parts.map Visit.tree) := by
  rw [Visit.tree, List.attach_map_val (f := Visit.tree)]

namespace Visitor
variable {σ : Type}

def hook (v : Visitor σ) : Visit → (σ → σ) → σ → σ
  | .statement s => v.statement s
  | .block b => v.block b
  | .branch condition thenBlock elseBlock => v.branch condition thenBlock elseBlock
  | .loop condition body => v.loop condition body
  | .leaf s => v.leaf s
  | .expr e => v.expr e

def visit (v : Visitor σ) : Visit → σ → σ
  | .statement s => v.visitStatement s
  | .block b => v.visitBlock b
  | .branch condition thenBlock elseBlock =>
    v.branch condition thenBlock elseBlock
      (v.visitBlock elseBlock ∘ v.visitBlock thenBlock ∘ v.visitExpr condition)
  | .loop condition body => v.loop condition body (v.visitBlock body ∘ v.visitExpr condition)
  | .leaf s => v.visitLeaf s
  | .expr e => v.visitExpr e

def visitAll (v : Visitor σ) : List Visit → σ → σ
  | [] => id
  | x :: xs => v.visitAll xs ∘ v.visit x

theorem visitStatements_eq_visitAll (v : Visitor σ) (ss : List Statement) :
    v.visitStatements ss = v.visitAll (ss.map .statement) := by
  induction ss with
  | nil => rfl
  | cons s ss ih =>
    rw [visitStatements, ih]
    rfl

theorem visitExprs_eq_visitAll (v : Visitor σ) (es : List Expr) :
    v.visitExprs es = v.visitAll (es.map .expr) := by
  induction es with
  | nil => rfl
  | cons e es ih =>
    rw [visitExprs, ih]
    rfl

theorem visit_eq (v : Visitor σ) (x : Visit) : v.visit x = v.hook x (v.visitAll x.parts) := by
  cases x with
  | statement s => cases s <;> rfl
  | block b =>
    cases b with
    | mk loc ss => exact congrArg (v.block ⟨loc, ss⟩) (v.visitStatements_eq_visitAll ss)
  | branch | loop => rfl
  | leaf s => exact congrArg (v.leaf s) (v.visitExprs_eq_visitAll s.operands)
  | expr e =>
    cases e with
    | call loc function arguments =>
      exact congrArg (v.expr (.call loc function arguments)) (v.visitExprs_eq_visitAll arguments)
    | var | int | bool | str | null | this | defaultOf => rfl

theorem visitAll_adds {α : Type} {v : Visitor (List α)} {given : Visit → List α}
    {xs : List Visit} (h : ∀ x ∈ xs, ∀ seen, v.visit x seen = seen ++ given x) (seen : List α) :
    v.visitAll xs seen = seen ++ xs.flatMap given := by
  induction xs generalizing seen with
  | nil => simp [visitAll]
  | cons x xs ih =>
    rw [visitAll, Function.comp_apply, h x List.mem_cons_self,
      ih fun y hy => h y (List.mem_cons_of_mem x hy), List.flatMap_cons, List.append_assoc]

section View
variable {τ : Type} {v : Visitor σ} {w : Visitor τ} {f : σ → τ}

theorem visitAll_view {xs : List Visit}
    (h : ∀ x ∈ xs, ∀ a, f (v.visit x a) = w.visit x (f a)) (a : σ) :
    f (v.visitAll xs a) = w.visitAll xs (f a) := by
  induction xs generalizing a with
  | nil => rfl
  | cons x xs ih =>
    rw [visitAll, visitAll, Function.comp_apply, Function.comp_apply,
      ih fun y hy => h y (List.mem_cons_of_mem x hy), h x List.mem_cons_self]

/-- A view of the state that the hooks respect is respected by visits. -/
theorem visit_view (h : ∀ x walk walk', (∀ a, f (walk a) = walk' (f a)) →
      ∀ a, f (v.hook x walk a) = w.hook x walk' (f a)) (x : Visit) (a : σ) :
    f (v.visit x a) = w.visit x (f a) := by
  induction x using Visit.partsInduction generalizing a with
  | step x ih =>
    rw [visit_eq, visit_eq]
    exact h x _ _ (visitAll_view ih) a

end View

theorem visitStatements_append (v : Visitor σ) (ss ts : List Statement) :
    v.visitStatements (ss ++ ts) = v.visitStatements ts ∘ v.visitStatements ss := by
  induction ss with
  | nil => rfl
  | cons s ss ih =>
    rw [List.cons_append, visitStatements, visitStatements, ih]
    rfl

structure Quiet (v : Visitor σ) : Prop where
  block : ∀ b walk, v.block b walk = walk
  leaf : ∀ s walk, v.leaf s walk = walk
  expr : ∀ e walk, v.expr e walk = walk

def around (v : Visitor σ) (s : Statement) (walk : σ → σ) : σ → σ :=
  v.statement s <|
    match s with
    | .branch _ condition thenBlock elseBlock => v.branch condition thenBlock elseBlock walk
    | .loop _ condition body => v.loop condition body walk
    | .noOp _ | .action .. | .compound _ => walk

theorem visitExprs_eq_id {v : Visitor σ} {es : List Expr} (h : ∀ e ∈ es, v.visitExpr e = id) :
    v.visitExprs es = id := by
  induction es with
  | nil => rfl
  | cons e es ih =>
    rw [visitExprs, h e List.mem_cons_self, ih fun d hd => h d (List.mem_cons_of_mem e hd)]
    rfl

section Quiet
variable {v : Visitor σ} (hv : v.Quiet)
include hv

theorem Quiet.visitExpr (e : Expr) : v.visitExpr e = id := by
  induction e using Expr.treeInduction with
  | call loc function arguments ih => rw [Visitor.visitExpr, hv.expr, visitExprs_eq_id ih]
  | var | int | bool | str | null | this | defaultOf =>
    rw [Visitor.visitExpr, hv.expr]
    all_goals simp

theorem Quiet.visitLeaf (s : Statement) : v.visitLeaf s = id := by
  rw [Visitor.visitLeaf, hv.leaf, visitExprs_eq_id fun e _ => hv.visitExpr e]

theorem Quiet.visitBlock (b : Block) : v.visitBlock b = v.visitStatements b.statements := by
  cases b with
  | mk loc ss => rw [Visitor.visitBlock, hv.block]

theorem Quiet.visitStatement (s : Statement) :
    v.visitStatement s = v.around s (v.visitStatements s.inside) := by
  cases s with
  | noOp | action => rw [Visitor.visitStatement, hv.visitLeaf]; rfl
  | compound b =>
    rw [Visitor.visitStatement, hv.visitBlock, around, Statement.inside_compound]
  | branch loc c t e =>
    rw [Visitor.visitStatement, hv.visitExpr, hv.visitBlock, hv.visitBlock, around,
      Statement.inside_branch, visitStatements_append]
    rfl
  | loop loc c b =>
    rw [Visitor.visitStatement, hv.visitExpr, hv.visitBlock, around, Statement.inside_loop]
    rfl

end Quiet

end Visitor
end MachineLang
