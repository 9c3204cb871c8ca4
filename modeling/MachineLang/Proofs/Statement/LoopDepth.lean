import Mathlib.Order.Bounds.Defs
import MachineLang.Proofs.Statement.CallTree

set_option autoImplicit false

namespace MachineLang

namespace Statement

def isLoop : Statement → Bool
  | loop .. => true
  | _ => false

def loop? : Statement → Option (Expr × Block)
  | loop _ condition body => some (condition, body)
  | _ => none

def loops (s : Statement) : List (Expr × Block) := s.nodes.filterMap loop?

/-- The statements on the way from one statement down to another, which may be the same. -/
inductive Path : Statement → List Statement → Prop
  | here (s : Statement) : Path s [s]
  | down {s t : Statement} {path : List Statement} : t ∈ s.inside → Path t path → Path s (s :: path)

end Statement

mutual

/-- The greatest number of loops one inside the other. -/
def Statement.loopHeight : Statement → Nat
  | .noOp _ | .action .. => 0
  | .compound block => block.loopHeight
  | .branch _ _ thenBlock elseBlock => max thenBlock.loopHeight elseBlock.loopHeight
  | .loop _ _ body => body.loopHeight + 1

def Block.loopHeight : Block → Nat
  | ⟨_, statements⟩ => Statement.loopHeightAll statements

def Statement.loopHeightAll : List Statement → Nat
  | [] => 0
  | s :: ss => max s.loopHeight (Statement.loopHeightAll ss)

end

namespace Statement

theorem loopHeightAll_append (ss ts : List Statement) :
    loopHeightAll (ss ++ ts) = max (loopHeightAll ss) (loopHeightAll ts) := by
  induction ss with
  | nil => simp [loopHeightAll]
  | cons s ss ih =>
    rw [List.cons_append, loopHeightAll, loopHeightAll, ih]
    omega

theorem loopHeight_eq (s : Statement) :
    s.loopHeight = s.isLoop.toNat + loopHeightAll s.inside := by
  have hblock : ∀ b : Block, b.loopHeight = loopHeightAll b.statements := by
    intro b
    cases b
    rfl
  cases s with
  | noOp | action => rfl
  | compound b => simp [loopHeight, hblock, isLoop]
  | branch loc c t e => simp [loopHeight, hblock, isLoop, loopHeightAll_append]
  | loop loc c b => simp [loopHeight, hblock, isLoop, Nat.add_comm]

theorem loopHeight_le_loopHeightAll {s : Statement} {ss : List Statement} (h : s ∈ ss) :
    s.loopHeight ≤ loopHeightAll ss := by
  induction ss with
  | nil => exact absurd h List.not_mem_nil
  | cons t ts ih =>
    rw [loopHeightAll]
    rcases List.mem_cons.1 h with rfl | hts
    · exact Nat.le_max_left _ _
    · exact Nat.le_trans (ih hts) (Nat.le_max_right _ _)

theorem loopHeightAll_cases (ss : List Statement) :
    loopHeightAll ss = 0 ∨ ∃ s ∈ ss, loopHeightAll ss = s.loopHeight := by
  induction ss with
  | nil => exact .inl rfl
  | cons s ss ih =>
    rw [loopHeightAll]
    by_cases hle : loopHeightAll ss ≤ s.loopHeight
    · exact .inr ⟨s, List.mem_cons_self, Nat.max_eq_left hle⟩
    · rw [Nat.max_eq_right (by omega)]
      obtain hzero | ⟨t, ht, heq⟩ := ih
      · exact .inl hzero
      · exact .inr ⟨t, List.mem_cons_of_mem s ht, heq⟩

theorem countP_isLoop_cons (s : Statement) (path : List Statement) :
    (s :: path).countP isLoop = s.isLoop.toNat + path.countP isLoop := by
  rw [List.countP_cons, Nat.add_comm]
  cases s.isLoop <;> rfl

theorem Path.loops_le {s : Statement} {path : List Statement} (h : s.Path path) :
    path.countP isLoop ≤ s.loopHeight := by
  induction h with
  | here s =>
    rw [countP_isLoop_cons, loopHeight_eq]
    exact Nat.add_le_add_left (Nat.zero_le _) _
  | down ht _ ih =>
    rw [countP_isLoop_cons, loopHeight_eq]
    exact Nat.add_le_add_left (Nat.le_trans ih (loopHeight_le_loopHeightAll ht)) _

theorem exists_path_loopHeight (s : Statement) :
    ∃ path, s.Path path ∧ path.countP isLoop = s.loopHeight := by
  induction s using insideInduction with
  | step s ih =>
    obtain hzero | ⟨t, ht, heq⟩ := loopHeightAll_cases s.inside
    · refine ⟨[s], .here s, ?_⟩
      rw [countP_isLoop_cons, loopHeight_eq, hzero]
      rfl
    · obtain ⟨path, hpath, hcount⟩ := ih t ht
      refine ⟨s :: path, .down ht hpath, ?_⟩
      rw [countP_isLoop_cons, loopHeight_eq, heq, hcount]

theorem isGreatest_loopHeight (s : Statement) :
    IsGreatest {n | ∃ path, s.Path path ∧ path.countP isLoop = n} s.loopHeight := by
  refine ⟨s.exists_path_loopHeight, ?_⟩
  rintro n ⟨path, hpath, rfl⟩
  exact hpath.loops_le

theorem loops_eq (s : Statement) : s.loops = s.loop?.toList ++ s.inside.flatMap loops := by
  rw [loops, nodes_eq_inside, List.filterMap_cons, List.filterMap_flatMap]
  cases s.loop? <;> rfl

theorem length_loops (s : Statement) : s.loops.length = s.nodes.countP isLoop := by
  rw [loops, List.length_filterMap_eq_countP]
  congr 1
  funext t
  cases t <;> rfl

end Statement

/-- The state of the counting visitor with the loops entered instead of their number. -/
structure LoopLog where
  current : Nat := 0
  deepest : Nat := 0
  entered : List (Expr × Block) := []

namespace LoopLog

def enter (d : LoopLog) (condition : Expr) (body : Block) : LoopLog :=
  ⟨d.current + 1, max d.deepest (d.current + 1), d.entered ++ [(condition, body)]⟩

def leave (d : LoopLog) : LoopLog := { d with current := d.current - 1 }

def summary (d : LoopLog) : LoopDepth := ⟨d.current, d.deepest, d.entered.length⟩

/-- The state after a visit that entered the given loops, of the given height. -/
def after (d : LoopLog) (height : Nat) (loops : List (Expr × Block)) : LoopLog :=
  ⟨d.current, max d.deepest (d.current + height), d.entered ++ loops⟩

theorem after_nothing {d : LoopLog} (h : d.current ≤ d.deepest) : d.after 0 [] = d := by
  rw [after, Nat.add_zero, Nat.max_eq_left h, List.append_nil]

theorem leave_after_enter (d : LoopLog) (condition : Expr) (body : Block) (n : Nat)
    (loops : List (Expr × Block)) :
    ((d.enter condition body).after n loops).leave =
      d.after (1 + n) ((condition, body) :: loops) := by
  have hdeepest : max (max d.deepest (d.current + 1)) (d.current + 1 + n) =
      max d.deepest (d.current + (1 + n)) := by omega
  simp [leave, after, enter, hdeepest]

theorem after_after (d : LoopLog) (m n : Nat) (loops loops' : List (Expr × Block)) :
    (d.after m loops).after n loops' = d.after (max m n) (loops ++ loops') := by
  have hdeepest : max (max d.deepest (d.current + m)) (d.current + n) =
      max d.deepest (d.current + max m n) := by omega
  simp only [after, hdeepest, List.append_assoc]

end LoopLog

namespace Visitor

def loopLog : Visitor LoopLog where
  loop condition body walk d := (walk (d.enter condition body)).leave

theorem quiet_loopLog : loopLog.Quiet := ⟨fun _ _ => rfl, fun _ _ => rfl, fun _ _ => rfl⟩

theorem loopLog_visitStatements {ss : List Statement}
    (h : ∀ s ∈ ss, ∀ d : LoopLog, d.current ≤ d.deepest →
      loopLog.visitStatement s d = d.after s.loopHeight s.loops) {d : LoopLog}
    (hd : d.current ≤ d.deepest) :
    loopLog.visitStatements ss d =
      d.after (Statement.loopHeightAll ss) (ss.flatMap Statement.loops) := by
  induction ss generalizing d with
  | nil => exact (LoopLog.after_nothing hd).symm
  | cons s ss ih =>
    have hnext : (d.after s.loopHeight s.loops).current ≤
        (d.after s.loopHeight s.loops).deepest := Nat.le_trans hd (Nat.le_max_left _ _)
    rw [visitStatements, Function.comp_apply, h s List.mem_cons_self d hd,
      ih (fun t ht => h t (List.mem_cons_of_mem s ht)) hnext, LoopLog.after_after]
    rfl

theorem loopLog_visitStatement (s : Statement) {d : LoopLog} (hd : d.current ≤ d.deepest) :
    loopLog.visitStatement s d = d.after s.loopHeight s.loops := by
  induction s using Statement.insideInduction generalizing d with
  | step s ih =>
    rw [quiet_loopLog.visitStatement, Statement.loopHeight_eq, Statement.loops_eq]
    have hinside : ∀ {d : LoopLog}, d.current ≤ d.deepest → loopLog.visitStatements s.inside d =
        d.after (Statement.loopHeightAll s.inside) (s.inside.flatMap Statement.loops) :=
      loopLog_visitStatements fun t ht d hd => ih t ht hd
    cases s with
    | noOp | action | compound | branch =>
      change loopLog.visitStatements _ d = _
      rw [hinside hd]
      simp [Statement.isLoop, Statement.loop?]
    | loop loc c b =>
      change (loopLog.visitStatements _ (d.enter c b)).leave = _
      rw [hinside (Nat.le_max_right _ _), LoopLog.leave_after_enter]
      rfl

theorem loopDepth_eq_summary (s : Statement) (d : LoopLog) :
    loopDepth.visitStatement s d.summary = (loopLog.visitStatement s d).summary := by
  refine (visit_view (f := LoopLog.summary) ?_ (.statement s) d).symm
  intro x walk walk' hwalk d
  cases x with
  | loop c b =>
    have henter : (d.enter c b).summary = ⟨d.summary.current + 1,
        max d.summary.deepest (d.summary.current + 1), d.summary.count + 1⟩ := by
      simp [LoopLog.summary, LoopLog.enter]
    have hhook : loopDepth.hook (.loop c b) walk' d.summary =
        { walk' (d.enter c b).summary with
          current := (walk' (d.enter c b).summary).current - 1 } := by
      rw [henter]
      rfl
    rw [hhook, ← hwalk]
    rfl
  | statement | block | branch | leaf | expr => exact hwalk d

/-- The counter ends where it started and the maximum is the greatest number of loops on a way from
the statement down to a statement inside it, or to itself. Each loop is entered once, wherever it
stands: the loops entered, in their order, are those among the nodes of the statement. -/
theorem loopDepth_exact (s : Statement) :
    (loopDepth.visitStatement s {}).current = 0 ∧
    IsGreatest {n | ∃ path, s.Path path ∧ path.countP Statement.isLoop = n}
      (loopDepth.visitStatement s {}).deepest ∧
    (loopDepth.visitStatement s {}).count = s.nodes.countP Statement.isLoop ∧
    loopDepth.visitStatement s {} = (loopLog.visitStatement s {}).summary ∧
    (loopLog.visitStatement s {}).entered = s.loops := by
  have hlog : loopLog.visitStatement s {} = LoopLog.after {} s.loopHeight s.loops :=
    loopLog_visitStatement s (Nat.le_refl 0)
  have hsummary : loopDepth.visitStatement s {} = (loopLog.visitStatement s {}).summary :=
    loopDepth_eq_summary s {}
  have hresult : loopDepth.visitStatement s {} = ⟨0, s.loopHeight, s.loops.length⟩ := by
    rw [hsummary, hlog]
    simp [LoopLog.after, LoopLog.summary]
  refine ⟨by rw [hresult], ?_, by rw [hresult, s.length_loops], hsummary, ?_⟩
  · rw [hresult]
    exact s.isGreatest_loopHeight
  · rw [hlog]
    exact List.nil_append _

end Visitor
end MachineLang
