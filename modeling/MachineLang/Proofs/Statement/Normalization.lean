import Mathlib.Data.List.Basic
import MachineLang.Proofs.Statement.CallTree
import MachineLang.Proofs.Statement.Visits

set_option autoImplicit false

namespace MachineLang

namespace Visitor
variable {σ : Type} {v : Visitor σ}

theorem Transparent.visitBlock_eq (hv : v.Transparent) (b : Block) :
    v.visitBlock b = v.visitStatements b.statements := by
  cases b with
  | mk loc ss => rw [visitBlock, hv.block]

def IgnoresNoOps (v : Visitor σ) : Prop := ∀ loc, v.visitLeaf (.noOp loc) = id

section Invisible
variable (hv : v.Transparent) (hnoOp : v.IgnoresNoOps)
include hv hnoOp

theorem Transparent.visitStatements_spliced (s : Statement) :
    v.visitStatements s.spliced = v.visitStatement s := by
  cases s with
  | noOp loc => rw [visitStatement, hv.statement, hnoOp loc, Statement.spliced, visitStatements]
  | compound b => rw [visitStatement, hv.statement, hv.visitBlock_eq, Statement.spliced]
  | action | branch | loop => rfl

theorem Transparent.visitBlock_ofStatements (loc : Location) (ss : List Statement) :
    v.visitBlock (.ofStatements loc ss) = v.visitStatements ss := by
  rw [hv.visitBlock_eq, Block.ofStatements]
  induction ss with
  | nil => rfl
  | cons s ss ih =>
    rw [List.flatMap_cons, visitStatements_append, ih, hv.visitStatements_spliced hnoOp]
    rfl

theorem Transparent.visitBlock_ofStatement (s : Statement) :
    v.visitBlock (.ofStatement s) = v.visitStatement s := by
  rw [hv.visitBlock_eq, Block.statements_ofStatement, hv.visitStatements_spliced hnoOp]

theorem Transparent.visitStatement_ifElse (loc : Location) (condition : Expr)
    (thenPart : Statement) (elsePart : Option Statement) :
    v.visitStatement (.ifElse loc condition thenPart elsePart) =
      v.visitStatements elsePart.toList ∘ v.visitStatement thenPart ∘ v.visitExpr condition := by
  rw [Statement.ifElse, visitStatement, hv.statement, hv.branch,
    hv.visitBlock_ofStatement hnoOp thenPart]
  congr 1
  cases elsePart with
  | none => exact hv.visitBlock_eq (.empty loc)
  | some s => exact hv.visitBlock_ofStatement hnoOp s

theorem Transparent.visitStatement_whileLoop (loc : Location) (condition : Expr)
    (body : Statement) :
    v.visitStatement (.whileLoop loc condition body) =
      v.visitStatement body ∘ v.visitExpr condition := by
  rw [Statement.whileLoop, visitStatement, hv.statement, hv.loop,
    hv.visitBlock_ofStatement hnoOp body]

end Invisible

theorem exprs_ignoresNoOps : exprs.IgnoresNoOps := fun _ => rfl

theorem exprs_visitStatement_append (s : Statement) (seen : List Expr) :
    exprs.visitStatement s seen = seen ++ exprs.visitStatement s [] := by
  rw [exprs_visitStatement, exprs_visitStatement, List.nil_append]

theorem exprs_visitStatements (ss : List Statement) (seen : List Expr) :
    exprs.visitStatements ss seen = seen ++ ss.flatMap fun s => exprs.visitStatement s [] :=
  visitStatements_adds (fun s _ => exprs_visitStatement_append s) seen

end Visitor

namespace Statement

theorem filter_isLeaf_spliced {s : Statement} (h : s.Flat) :
    (s.spliced.flatMap nodes).filter isLeaf = (s.nodes.filter isLeaf).filter (!·.isNoOp) := by
  have hkeep : s.isNoOp = false → (s.nodes.filter isLeaf).filter (!·.isNoOp) =
      s.nodes.filter isLeaf := by
    intro hs
    refine List.filter_eq_self.2 fun t ht => ?_
    rcases h.isNoOp_of_mem_nodes (List.mem_filter.1 ht).1 with rfl | hnoOp
    · rw [hs, Bool.not_false]
    · rw [hnoOp, Bool.not_false]
  cases s with
  | noOp loc => rfl
  | compound b =>
    rw [hkeep rfl, spliced, ← Block.nodes_eq, nodes, List.filter_cons_of_neg Bool.false_ne_true]
  | action | branch | loop =>
    rw [hkeep rfl]
    exact congrArg (List.filter isLeaf) (List.flatMap_singleton nodes _)

end Statement

theorem Block.leaves_ofStatements (loc : Location) {ss : List Statement}
    (h : ∀ s ∈ ss, s.Flat) :
    (ofStatements loc ss).nodes.filter Statement.isLeaf =
      ss.flatMap fun s => (s.nodes.filter Statement.isLeaf).filter (!·.isNoOp) := by
  rw [Block.nodes_eq, ofStatements, List.flatMap_assoc, List.filter_flatMap]
  exact List.flatMap_congr fun s hs => Statement.filter_isLeaf_spliced (h s hs)

namespace Visitor

/-- To a recorder of expressions a new block is the list of statements that it was built from, and
a statement made into a block, a branch or a body is the statement itself. A recorder of leaves
finds in a new block the leaves of the statements, except for the placeholders. -/
theorem records_normalized :
    (∀ (loc : Location) (ss : List Statement),
      exprs.visitBlock (.ofStatements loc ss) [] =
        ss.flatMap (fun s => exprs.visitStatement s [])) ∧
    (∀ (loc : Location) (ss : List Statement), (∀ s ∈ ss, s.Obtainable) →
      leaves.visitBlock (.ofStatements loc ss) [] =
        ss.flatMap fun s => (leaves.visitStatement s []).filter (!·.isNoOp)) ∧
    (∀ s : Statement, exprs.visitBlock (.ofStatement s) [] = exprs.visitStatement s []) ∧
    (∀ (loc : Location) (condition : Expr) (thenPart : Statement) (elsePart : Option Statement),
      exprs.visitStatement (.ifElse loc condition thenPart elsePart) [] =
        exprs.visitExpr condition [] ++ exprs.visitStatement thenPart [] ++
          elsePart.toList.flatMap fun s => exprs.visitStatement s []) ∧
    ∀ (loc : Location) (condition : Expr) (body : Statement),
      exprs.visitStatement (.whileLoop loc condition body) [] =
        exprs.visitExpr condition [] ++ exprs.visitStatement body [] := by
  have hv := transparent_exprs
  have hnoOp := exprs_ignoresNoOps
  refine ⟨fun loc ss => ?_, fun loc ss h => ?_, fun s => ?_, fun loc condition s t => ?_,
    fun loc condition s => ?_⟩
  · rw [hv.visitBlock_ofStatements hnoOp, exprs_visitStatements, List.nil_append]
  · rw [leaves_visitBlock, List.nil_append, Block.leaves_ofStatements loc fun s hs => (h s hs).flat]
    simp only [leaves_visitStatement, List.nil_append]
  · rw [hv.visitBlock_ofStatement hnoOp]
  · rw [hv.visitStatement_ifElse hnoOp, Function.comp_apply, Function.comp_apply,
      exprs_visitStatements, exprs_visitStatement_append]
  · rw [hv.visitStatement_whileLoop hnoOp, Function.comp_apply, exprs_visitStatement_append]

theorem records_normalized_poll :
    let l : Location := ⟨0, 0, 8, by decide⟩
    let x := Expr.var l "x"
    let sent := Statement.action l (.send x (.var l "ePing") none)
    let group := Statement.compound (.ofStatements l [.noOp l, sent])
    let ss := [.noOp l, group, .whileLoop l x (.noOp l), .ifElse l x sent none]
    (∀ s ∈ ss, s.Obtainable) ∧
    leaves.visitBlock (.ofStatements l ss) [] =
      ss.flatMap fun s => (leaves.visitStatement s []).filter (!·.isNoOp) := by
  intro l x sent group ss
  have hsent : sent.Obtainable := .action l _
  have hgroup : group.Obtainable := .compound (.ofStatements l (by simpa using ⟨.noOp l, hsent⟩))
  have hloop : (Statement.whileLoop l x (.noOp l)).Obtainable := .whileLoop l x (.noOp l)
  have hbranch : (Statement.ifElse l x sent none).Obtainable := .ifElse l x hsent (by simp)
  have hss : ∀ s ∈ ss, s.Obtainable := by
    simpa [ss] using ⟨Statement.Obtainable.noOp l, hgroup, hloop, hbranch⟩
  exact ⟨hss, records_normalized.2.1 l ss hss⟩

end Visitor
end MachineLang
