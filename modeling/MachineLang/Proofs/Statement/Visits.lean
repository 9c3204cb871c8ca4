import MachineLang.Statement.Recorder
import MachineLang.Proofs.Statement.Flat
import MachineLang.Proofs.Statement.Pieces

set_option autoImplicit false

namespace MachineLang

namespace Visitor
variable {σ : Type}

/-- Only leaves and expressions have hooks. -/
structure Transparent (v : Visitor σ) : Prop where
  statement : ∀ s walk, v.statement s walk = walk
  block : ∀ b walk, v.block b walk = walk
  branch : ∀ c t e walk, v.branch c t e walk = walk
  loop : ∀ c b walk, v.loop c b walk = walk

end Visitor

/-- What one node adds to a record, given what leaves and expressions add. -/
def Statement.adds {α : Type} (ofLeaf : Statement → List α) (ofExpr : Expr → List α)
    (s : Statement) : List α :=
  if s.isLeaf then ofLeaf s else s.heads.flatMap ofExpr

namespace Visitor

section Lists
variable {α : Type} {v : Visitor (List α)}

theorem visitStatements_adds {given : Statement → List α} {ss : List Statement}
    (h : ∀ s ∈ ss, ∀ seen, v.visitStatement s seen = seen ++ given s) (seen : List α) :
    v.visitStatements ss seen = seen ++ ss.flatMap given := by
  induction ss generalizing seen with
  | nil => simp [visitStatements]
  | cons s ss ih =>
    rw [visitStatements, Function.comp_apply, h s List.mem_cons_self,
      ih fun t ht => h t (List.mem_cons_of_mem s ht), List.flatMap_cons, List.append_assoc]

theorem visitExprs_adds {given : Expr → List α} {es : List Expr}
    (h : ∀ e ∈ es, ∀ seen, v.visitExpr e seen = seen ++ given e) (seen : List α) :
    v.visitExprs es seen = seen ++ es.flatMap given := by
  induction es generalizing seen with
  | nil => simp [visitExprs]
  | cons e es ih =>
    rw [visitExprs, Function.comp_apply, h e List.mem_cons_self,
      ih fun d hd => h d (List.mem_cons_of_mem e hd), List.flatMap_cons, List.append_assoc]

end Lists

section Record
variable {α : Type} {v : Visitor (List α)} {ofLeaf : Statement → List α}
  {ofExpr : Expr → List α}

theorem Transparent.visitBlock_adds (hv : v.Transparent) {b : Block}
    (h : ∀ s ∈ b.statements, ∀ seen, v.visitStatement s seen =
      seen ++ s.nodes.flatMap (Statement.adds ofLeaf ofExpr)) (seen : List α) :
    v.visitBlock b seen = seen ++ b.nodes.flatMap (Statement.adds ofLeaf ofExpr) := by
  cases b with
  | mk loc ss =>
    rw [visitBlock, hv.block, visitStatements_adds h, Block.nodes_eq, List.flatMap_assoc]

theorem Transparent.visitStatement_adds (hv : v.Transparent)
    (hleaf : ∀ s seen, v.visitLeaf s seen = seen ++ ofLeaf s)
    (hexpr : ∀ e seen, v.visitExpr e seen = seen ++ ofExpr e) (s : Statement) (seen : List α) :
    v.visitStatement s seen = seen ++ s.nodes.flatMap (Statement.adds ofLeaf ofExpr) := by
  induction s using Statement.treeInduction generalizing seen with
  | noOp loc =>
    rw [visitStatement, hv.statement, hleaf]
    simp [Statement.nodes, Statement.adds, Statement.isLeaf]
  | action loc a =>
    rw [visitStatement, hv.statement, hleaf]
    simp [Statement.nodes, Statement.adds, Statement.isLeaf]
  | compound b ih =>
    rw [visitStatement, hv.statement, hv.visitBlock_adds ih]
    simp [Statement.nodes, Statement.adds, Statement.isLeaf, Statement.heads, Statement.operands]
  | branch loc c t e iht ihe =>
    rw [visitStatement, hv.statement, hv.branch, Function.comp_apply, Function.comp_apply, hexpr,
      hv.visitBlock_adds iht, hv.visitBlock_adds ihe]
    simp [Statement.nodes, Statement.adds, Statement.isLeaf, Statement.heads]
  | loop loc c b ih =>
    rw [visitStatement, hv.statement, hv.loop, Function.comp_apply, hexpr,
      hv.visitBlock_adds ih]
    simp [Statement.nodes, Statement.adds, Statement.isLeaf, Statement.heads]

end Record

section Expressions
variable {α : Type} {v : Visitor (List α)} (here : Expr → List α)

theorem visitExpr_adds (h : ∀ e walk seen, v.expr e walk seen = walk (seen ++ here e)) (e : Expr)
    (seen : List α) : v.visitExpr e seen = seen ++ e.nodes.flatMap here := by
  induction e using Expr.treeInduction generalizing seen with
  | call loc function arguments ih =>
    rw [visitExpr, h, visitExprs_adds ih, Expr.nodes_eq, Expr.children, List.flatMap_cons,
      List.flatMap_assoc, List.append_assoc]
  | var | int | bool | str | null | this | defaultOf => simp [visitExpr, h, Expr.nodes]

end Expressions

theorem transparent_exprs : exprs.Transparent :=
  ⟨fun _ _ => rfl, fun _ _ => rfl, fun _ _ _ _ => rfl, fun _ _ _ => rfl⟩

theorem transparent_leaves : leaves.Transparent :=
  ⟨fun _ _ => rfl, fun _ _ => rfl, fun _ _ _ _ => rfl, fun _ _ _ => rfl⟩

theorem exprs_visitExpr (e : Expr) (seen : List Expr) :
    exprs.visitExpr e seen = seen ++ e.nodes := by
  rw [visitExpr_adds (fun e => [e]) fun _ _ _ => rfl, List.flatMap_singleton']

theorem exprs_visitLeaf (s : Statement) (seen : List Expr) :
    exprs.visitLeaf s seen = seen ++ s.operands.flatMap Expr.nodes := by
  change exprs.visitExprs s.operands seen = _
  exact visitExprs_adds (fun e _ => exprs_visitExpr e) seen

theorem leaves_visitExpr (e : Expr) (seen : List Statement) :
    leaves.visitExpr e seen = seen ++ [] := by
  have hnone : e.nodes.flatMap (fun _ => ([] : List Statement)) = [] := by simp
  rw [visitExpr_adds (fun _ => []) (fun _ _ seen => by rw [List.append_nil]; rfl), hnone]

end Visitor

namespace Statement

theorem adds_operands : adds (fun s => s.operands.flatMap Expr.nodes) Expr.nodes =
    fun s => s.heads.flatMap Expr.nodes := by
  funext s
  cases s <;> rfl

theorem flatMap_adds_leaf (ss : List Statement) :
    ss.flatMap (adds (fun t => [t]) fun _ => []) = ss.filter isLeaf := by
  induction ss with
  | nil => rfl
  | cons s ss ih =>
    rw [List.flatMap_cons, ih, List.filter_cons, adds]
    split <;> simp

end Statement

namespace Visitor

theorem exprs_visitStatement (s : Statement) (seen : List Expr) :
    exprs.visitStatement s seen = seen ++ s.expressions := by
  rw [transparent_exprs.visitStatement_adds exprs_visitLeaf exprs_visitExpr,
    Statement.adds_operands, Statement.expressions_eq]

theorem leaves_visitStatement (s : Statement) (seen : List Statement) :
    leaves.visitStatement s seen = seen ++ s.nodes.filter Statement.isLeaf := by
  rw [transparent_leaves.visitStatement_adds (fun _ _ => rfl) leaves_visitExpr,
    Statement.flatMap_adds_leaf]

theorem leaves_visitBlock (b : Block) (seen : List Statement) :
    leaves.visitBlock b seen = seen ++ b.nodes.filter Statement.isLeaf := by
  have hstatement := transparent_leaves.visitStatement_adds (fun _ _ => rfl) leaves_visitExpr
  rw [transparent_leaves.visitBlock_adds fun s _ => hstatement s, Statement.flatMap_adds_leaf]

/-- A recorder of expressions meets the expressions in the lines of a statement and a recorder of
leaves the leaves, once each and in the order of the source. Each line consists of its pieces, and
its words hold no expression. A placeholder is met only where it is all there is. -/
theorem records_in_order :
    (∀ s : Statement, exprs.visitStatement s [] = s.expressions ∧
      leaves.visitStatement s [] = s.nodes.filter Statement.isLeaf) ∧
    (∀ s : Statement, s.detail = String.join (s.pieces.map Piece.text) ∧
      ∀ f, (s.mapLine f).pieces = s.pieces.map (Piece.map f)) ∧
    (∀ s : Statement, s.Obtainable →
      ∀ t ∈ leaves.visitStatement s [], t.isNoOp → t = s) ∧
    ∀ b : Block, b.Obtainable → leaves.visitBlock b [] = b.nodes.filter Statement.isLeaf ∧
      ∀ t ∈ leaves.visitBlock b [], t.isNoOp = false := by
  refine ⟨fun s => ⟨exprs_visitStatement s [], leaves_visitStatement s []⟩,
    fun s => ⟨s.detail_eq_join, fun f => s.pieces_mapLine f⟩,
    fun s hs t ht hnoOp => ?_, fun b hb => ⟨leaves_visitBlock b [], fun t ht => ?_⟩⟩
  · rw [leaves_visitStatement, List.nil_append] at ht
    rcases Statement.mem_block_of_mem_nodes (List.mem_filter.1 ht).1 with h | ⟨b, hb, htb⟩
    · exact h
    · exact absurd hnoOp (by simp [(hs.flat b hb t htb).2])
  · rw [leaves_visitBlock, List.nil_append] at ht
    obtain ⟨c, hc, htc⟩ := Block.mem_block_of_mem_nodes (List.mem_filter.1 ht).1
    exact (hb.flat c hc t htc).2

/-- A loop over actions of every kind in a branch whose else part is a placeholder. -/
theorem records_in_order_poll :
    let l : Location := ⟨0, 0, 8, by decide⟩
    let x := Expr.var l "x"
    let ping := Expr.var l "ePing"
    let next := Expr.call l "next" [.int l 3]
    let ready := Expr.call l "ready" [x, next]
    let asked := [ready, x, next, .int l 3]
    let actions : List Action := [.assign x ready, .returnWith none, .returnWith (some x),
      .assert x "x", .print ready, .raise ping none, .raise ping (some x),
      .send x ping (some ready), .goto "Done" (some x), .call "log" [x, ready], .breakLoop,
      .continueLoop]
    let body := Block.ofStatements l (.noOp l :: actions.map (.action l))
    let s := Statement.ifElse l x (.whileLoop l ready (.compound body)) (some (.noOp l))
    leaves.visitStatement s [] = actions.map (.action l) ∧
    exprs.visitStatement s [] = [x] ++ asked ++ (x :: asked) ++ [x, x] ++ asked ++
      [ping, ping, x] ++ (x :: ping :: asked) ++ [x] ++ (x :: asked) ∧
    (∀ t ∈ leaves.visitStatement s [], t.isNoOp → t = s) ∧
    ∀ t ∈ leaves.visitBlock (.ofStatement s) [], t.isNoOp = false := by
  intro l x ping next ready asked actions body s
  have hbody : body.Obtainable := .ofStatements l <|
    List.forall_mem_cons.2 ⟨.noOp l, List.forall_mem_map.2 fun a _ => .action l a⟩
  have hs : s.Obtainable := .ifElse l x (.whileLoop l ready (.compound hbody))
    (by simpa using Statement.Obtainable.noOp l)
  exact ⟨(records_in_order.1 s).2, (records_in_order.1 s).1, records_in_order.2.2.1 s hs,
    (records_in_order.2.2.2 _ (.ofStatement hs)).2⟩

end Visitor
end MachineLang
