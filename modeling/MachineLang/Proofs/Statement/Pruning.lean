import Mathlib.Data.List.Basic
import MachineLang.Proofs.Statement.CallTree

set_option autoImplicit false

namespace MachineLang

namespace Visit

theorem entries_tree (around : List Kind) (x : Visit) :
    x.tree.entries around =
      (around, x) :: x.parts.flatMap fun y => y.tree.entries (x.kind :: around) := by
  rw [tree_eq, CallTree.entries, CallTree.entriesAll_eq_flatMap, List.flatMap_map]

theorem around_of_mem_entries {x : Visit} {around : List Kind} {entry : List Kind × Visit}
    (h : entry ∈ x.tree.entries around) : ∀ kind ∈ around, kind ∈ entry.1 := by
  intro kind hkind
  induction x using partsInduction generalizing around with
  | step x ih =>
    rw [entries_tree] at h
    rcases List.mem_cons.1 h with rfl | h
    · exact hkind
    · obtain ⟨y, hy, hentry⟩ := List.mem_flatMap.1 h
      exact ih y hy hentry (List.mem_cons_of_mem x.kind hkind)

def outside (pruned : List Kind) (entries : List (List Kind × Visit)) : List Visit :=
  (entries.filter fun entry => ∀ kind ∈ entry.1, kind ∉ pruned).map Prod.snd

section Outside
variable {pruned around : List Kind}

theorem outside_cons (h : ∀ kind ∈ around, kind ∉ pruned) (x : Visit)
    (entries : List (List Kind × Visit)) :
    outside pruned ((around, x) :: entries) = x :: outside pruned entries := by
  rw [outside, List.filter_cons_of_pos (by simpa using h), List.map_cons, outside]

theorem outside_flatMap (xs : List Visit) (f : Visit → List (List Kind × Visit)) :
    outside pruned (xs.flatMap f) = xs.flatMap fun x => outside pruned (f x) := by
  simp only [outside, List.filter_flatMap, List.map_flatMap]

theorem outside_of_pruned {kind : Kind} (haround : kind ∈ around) (hkind : kind ∈ pruned)
    (x : Visit) : outside pruned (x.tree.entries around) = [] := by
  rw [outside, List.filter_eq_nil_iff.2, List.map_nil]
  intro entry hentry hkept
  exact of_decide_eq_true hkept kind (around_of_mem_entries hentry kind haround) hkind

end Outside

end Visit

/-- The visits in pre-order, without those inside a visit of one of the given kinds. -/
def CallTree.outside (pruned : List Visit.Kind) (t : CallTree) : List Visit :=
  Visit.outside pruned (t.entries [])

namespace Visitor

/-- A hook that writes something down, and walks on at a node of no pruned kind, gives what the
visits outside the pruned ones give. -/
theorem visit_adds_outside {α : Type} {v : Visitor (List α)} {pruned : List Visit.Kind}
    {given : Visit → List α}
    (h : ∀ x walk seen, v.hook x walk seen =
      if pruned.contains x.kind then seen ++ given x else walk (seen ++ given x))
    (x : Visit) {around : List Visit.Kind} (haround : ∀ kind ∈ around, kind ∉ pruned)
    (seen : List α) :
    v.visit x seen =
      seen ++ (Visit.outside pruned (x.tree.entries around)).flatMap given := by
  induction x using Visit.partsInduction generalizing around seen with
  | step x ih =>
    rw [visit_eq, h, Visit.entries_tree, Visit.outside_cons haround, Visit.outside_flatMap,
      List.flatMap_cons]
    by_cases hx : x.kind ∈ pruned
    · have hnone : ∀ y ∈ x.parts, Visit.outside pruned (y.tree.entries (x.kind :: around)) = [] :=
        fun y _ => Visit.outside_of_pruned List.mem_cons_self hx y
      rw [if_pos (List.contains_iff_mem.2 hx), List.flatMap_eq_nil_iff.2 hnone, List.flatMap_nil,
        List.append_nil]
    · have hinside : ∀ kind ∈ x.kind :: around, kind ∉ pruned :=
        List.forall_mem_cons.2 ⟨hx, haround⟩
      rw [if_neg fun hmem => hx (List.contains_iff_mem.1 hmem),
        visitAll_adds fun y hy seen => ih y hy hinside seen, List.flatMap_assoc, List.append_assoc]

theorem trace_visit (pruned : List Visit.Kind) (x : Visit) :
    (trace pruned).visit x [] = x.tree.outside pruned := by
  have hhook : ∀ x walk seen, (trace pruned).hook x walk seen =
      if pruned.contains x.kind then seen ++ [x] else walk (seen ++ [x]) := by
    intro x walk seen
    cases x <;> rfl
  rw [visit_adds_outside hhook x (List.forall_mem_nil _), List.flatMap_singleton', List.nil_append]
  rfl

theorem exprs_visit (x : Visit) :
    exprs.visit x [] = (x.tree.outside []).filterMap Visit.expr? := by
  have hhook : ∀ x walk seen, exprs.hook x walk seen =
      if ([] : List Visit.Kind).contains x.kind then seen ++ x.expr?.toList
      else walk (seen ++ x.expr?.toList) := by
    intro x walk seen
    cases x with
    | expr e => rfl
    | statement | block | branch | loop | leaf =>
      simp [hook, exprs, Visit.expr?]
  rw [visit_adds_outside hhook x (List.forall_mem_nil _), List.nil_append,
    List.filterMap_eq_flatMap_toList]
  rfl

def nest (visit : Visit) (walk : List CallTree → List CallTree) (done : List CallTree) :
    List CallTree := done ++ [.node visit (walk [])]

/-- The visitor that finds out how its own calls are nested. -/
def nesting : Visitor (List CallTree) where
  statement s := nest (.statement s)
  block b := nest (.block b)
  branch condition thenBlock elseBlock := nest (.branch condition thenBlock elseBlock)
  loop condition body := nest (.loop condition body)
  leaf s := nest (.leaf s)
  expr e := nest (.expr e)

theorem nesting_visit (x : Visit) (done : List CallTree) :
    nesting.visit x done = done ++ [x.tree] := by
  have hhook : ∀ x, nesting.hook x = nest x := by
    intro x
    cases x <;> rfl
  induction x using Visit.partsInduction generalizing done with
  | step x ih =>
    have hparts := visitAll_adds ih []
    rw [visit_eq, hhook, nest, hparts, List.nil_append, Visit.tree_eq, List.map_eq_flatMap]

/-- From each start, a visitor with all hooks writes down, in pre-order, the calls of the unpruned
call tree that are not inside a call of a pruned kind. The tree is the nesting of the visitor's own
calls, and its expressions are those that a recorder of expressions finds. This holds of all
statements, built or not. -/
theorem trace_leaves_out_subtrees (s : Statement) :
    (∀ pruned, (trace pruned).visitStatement s [] = (Visit.statement s).tree.outside pruned ∧
      (trace pruned).visitBlock (.ofStatement s) [] =
        (Visit.block (.ofStatement s)).tree.outside pruned ∧
      (trace pruned).visitLeaf s [] = (Visit.leaf s).tree.outside pruned) ∧
    (nesting.visitStatement s [] = [(Visit.statement s).tree] ∧
      nesting.visitBlock (.ofStatement s) [] = [(Visit.block (.ofStatement s)).tree] ∧
      nesting.visitLeaf s [] = [(Visit.leaf s).tree]) ∧
    ((trace []).visitStatement s []).filterMap Visit.expr? = exprs.visitStatement s [] ∧
    ((trace []).visitBlock (.ofStatement s) []).filterMap Visit.expr? =
      exprs.visitBlock (.ofStatement s) [] ∧
    ((trace []).visitLeaf s []).filterMap Visit.expr? = exprs.visitLeaf s [] := by
  have hexprs : ∀ x, ((trace []).visit x []).filterMap Visit.expr? = exprs.visit x [] := by
    intro x
    rw [trace_visit, exprs_visit]
  refine ⟨fun pruned => ⟨trace_visit pruned (.statement s),
      trace_visit pruned (.block (.ofStatement s)), trace_visit pruned (.leaf s)⟩,
    ⟨nesting_visit (.statement s) [], nesting_visit (.block (.ofStatement s)) [],
      nesting_visit (.leaf s) []⟩, ?_⟩
  exact ⟨hexprs (.statement s), hexprs (.block (.ofStatement s)), hexprs (.leaf s)⟩

end Visitor
end MachineLang
