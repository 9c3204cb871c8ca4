import MachineLang.Statement.Dump
import MachineLang.Proofs.Statement.Tree
import MachineLang.Proofs.Text.Quoted

set_option autoImplicit false

namespace MachineLang

abbrev Row := Nat × String

mutual

def Statement.rows (options : DumpOptions) (depth : Nat) : Statement → List Row
  | .noOp loc => [(depth, (Statement.noOp loc).header options)]
  | .action loc a => [(depth, (Statement.action loc a).header options)]
  | .compound block =>
    (depth, (Statement.compound block).header options) :: block.rows options (depth + 1)
  | .loop loc condition body =>
    (depth, (Statement.loop loc condition body).header options) :: body.rows options (depth + 1)
  | .branch loc condition thenBlock elseBlock =>
    (depth, (Statement.branch loc condition thenBlock elseBlock).header options) ::
      (depth + 1, "Then") :: (thenBlock.rows options (depth + 2) ++
        if elseBlock.isEmpty then []
        else (depth + 1, "Else") :: elseBlock.rows options (depth + 2))

def Block.rows (options : DumpOptions) (depth : Nat) : Block → List Row
  | ⟨_, statements⟩ => Statement.rowsOfAll options depth statements

def Statement.rowsOfAll (options : DumpOptions) (depth : Nat) : List Statement → List Row
  | [] => []
  | s :: ss => s.rows options depth ++ Statement.rowsOfAll options depth ss

end

namespace Row

abbrev line (row : Row) : String := Statement.line row.1 row.2

/-- The text can stand on a line of its own, behind blanks. -/
def Printable (text : String) : Prop := '\n' ∉ text.toList ∧ text.toList.head? ≠ some ' '

instance (text : String) : Decidable (Printable text) := inferInstanceAs (Decidable (_ ∧ _))

theorem indent_unique {m n : Nat} {text text' : List Char} (htext : text.head? ≠ some ' ')
    (htext' : text'.head? ≠ some ' ')
    (h : List.replicate m ' ' ++ text = List.replicate n ' ' ++ text') : m = n ∧ text = text' := by
  induction m generalizing n with
  | zero =>
    cases n with
    | zero => exact ⟨rfl, h⟩
    | succ n => exact absurd (congrArg List.head? h) htext
  | succ m ih =>
    cases n with
    | zero => exact absurd (congrArg List.head? h).symm htext'
    | succ n =>
      obtain ⟨hdepth, htail⟩ := ih (List.cons.inj h).2
      exact ⟨congrArg Nat.succ hdepth, htail⟩

theorem toList_line (row : Row) :
    row.line.toList = List.replicate (2 * row.1) ' ' ++ row.2.toList ++ ['\n'] := by
  simp [line, Statement.line, String.toList_append]

theorem toList_join_cons (row : Row) (rows : List Row) :
    (String.join ((row :: rows).map line)).toList =
      List.replicate (2 * row.1) ' ' ++ row.2.toList ++
        '\n' :: (String.join (rows.map line)).toList := by
  rw [List.map_cons, String.join_cons, String.toList_append, toList_line, List.append_assoc]
  rfl

theorem newline_not_mem_indented {row : Row} (h : '\n' ∉ row.2.toList) :
    '\n' ∉ List.replicate (2 * row.1) ' ' ++ row.2.toList := by
  intro hmem
  rcases List.mem_append.1 hmem with hblank | htext
  · exact absurd (List.eq_of_mem_replicate hblank) (by decide)
  · exact h htext

/-- Cut at its line breaks, a dump gives its rows, and nothing behind the last of them. -/
theorem splitOn_join {rows : List Row} (h : ∀ row ∈ rows, '\n' ∉ row.2.toList) :
    (String.join (rows.map line)).toList.splitOn '\n' =
      rows.map (fun row => List.replicate (2 * row.1) ' ' ++ row.2.toList) ++ [[]] := by
  induction rows with
  | nil => exact List.splitOn_nil _
  | cons row rows ih =>
    obtain ⟨hrow, hrows⟩ := List.forall_mem_cons.1 h
    rw [toList_join_cons,
      List.splitOn_append_cons_self_of_not_mem (newline_not_mem_indented hrow), ih hrows,
      List.map_cons, List.cons_append]

theorem join_unique {rows rows' : List Row} (hrows : ∀ row ∈ rows, Printable row.2)
    (hrows' : ∀ row ∈ rows', Printable row.2)
    (h : String.join (rows.map line) = String.join (rows'.map line)) : rows = rows' := by
  replace h := congrArg String.toList h
  induction rows generalizing rows' with
  | nil =>
    cases rows' with
    | nil => rfl
    | cons row' rows' =>
      rw [toList_join_cons] at h
      exact absurd h.symm (by simp [String.join])
  | cons row rows ih =>
    cases rows' with
    | nil =>
      rw [toList_join_cons] at h
      exact absurd h (by simp [String.join])
    | cons row' rows' =>
      rw [toList_join_cons, toList_join_cons] at h
      have hrow := hrows row List.mem_cons_self
      have hrow' := hrows' row' List.mem_cons_self
      obtain ⟨hline, hrest⟩ := Text.upTo_unique (newline_not_mem_indented hrow.1)
        (newline_not_mem_indented hrow'.1) h
      obtain ⟨hdepth, htext⟩ := indent_unique hrow.2 hrow'.2 hline
      have heq : row = row' := Prod.ext (by omega) (String.toList_inj.1 htext)
      rw [heq, ih (fun r hr => hrows r (List.mem_cons_of_mem row hr))
        (fun r hr => hrows' r (List.mem_cons_of_mem row' hr)) hrest]

end Row

theorem Statement.rowsOfAll_eq_flatMap (options : DumpOptions) (depth : Nat)
    (ss : List Statement) :
    Statement.rowsOfAll options depth ss = ss.flatMap (Statement.rows options depth) := by
  induction ss with
  | nil => rfl
  | cons s ss ih => rw [Statement.rowsOfAll, ih, List.flatMap_cons]

theorem Block.rows_eq (options : DumpOptions) (depth : Nat) (b : Block) :
    b.rows options depth = b.statements.flatMap (Statement.rows options depth) := by
  cases b
  rw [Block.rows, Statement.rowsOfAll_eq_flatMap]

mutual

theorem Statement.lines_eq (options : DumpOptions) : ∀ (depth : Nat) (s : Statement),
    s.lines options depth = (s.rows options depth).map Row.line
  | _, .noOp _ | _, .action _ _ => rfl
  | depth, .compound block => by
    rw [Statement.lines, Statement.rows, List.map_cons, Block.lines_eq options (depth + 1) block]
  | depth, .loop _ _ body => by
    rw [Statement.lines, Statement.rows, List.map_cons, Block.lines_eq options (depth + 1) body]
  | depth, .branch _ _ thenBlock elseBlock => by
    rw [Statement.lines, Statement.rows, List.map_cons, List.map_cons, List.map_append,
      Block.lines_eq options (depth + 2) thenBlock, Block.lines_eq options (depth + 2) elseBlock]
    cases elseBlock.isEmpty <;> rfl

theorem Block.lines_eq (options : DumpOptions) : ∀ (depth : Nat) (b : Block),
    b.lines options depth = (b.rows options depth).map Row.line
  | depth, ⟨_, statements⟩ => Statement.linesOfAll_eq options depth statements

theorem Statement.linesOfAll_eq (options : DumpOptions) : ∀ (depth : Nat) (ss : List Statement),
    Statement.linesOfAll options depth ss = (Statement.rowsOfAll options depth ss).map Row.line
  | _, [] => rfl
  | depth, s :: ss => by
    rw [Statement.linesOfAll, Statement.rowsOfAll, List.map_append,
      Statement.lines_eq options depth s, Statement.linesOfAll_eq options depth ss]

end

theorem Statement.dump_eq (options : DumpOptions) (s : Statement) :
    s.dump options = String.join ((s.rows options 0).map Row.line) := by
  rw [Statement.dump, Statement.lines_eq]

theorem Statement.text_of_mem_rows {options : DumpOptions} {s : Statement} {depth : Nat} {row : Row}
    (h : row ∈ s.rows options depth) :
    row.2 ∈ ["Then", "Else"] ∨ ∃ t ∈ s.nodes, row.2 = t.header options := by
  induction s using Statement.bodiesInduction generalizing depth with
  | step s ih =>
    have hself : row = (depth, s.header options) → ∃ t ∈ s.nodes, row.2 = t.header options := by
      rintro rfl
      exact ⟨s, s.self_mem_nodes, rfl⟩
    have hbody : ∀ b ∈ s.bodies, ∀ depth, row ∈ b.rows options depth →
        row.2 ∈ ["Then", "Else"] ∨ ∃ t ∈ s.nodes, row.2 = t.header options := by
      intro b hb depth hrow
      rw [Block.rows_eq] at hrow
      obtain ⟨u, hu, hrow⟩ := List.mem_flatMap.1 hrow
      rcases ih b hb u hu hrow with htitle | ⟨t, ht, htext⟩
      · exact .inl htitle
      · exact .inr ⟨t, mem_nodes_of_body hb hu ht, htext⟩
    cases s with
    | noOp | action => exact .inr (hself (List.mem_singleton.1 h))
    | compound block =>
      rcases List.mem_cons.1 h with h | h
      · exact .inr (hself h)
      · exact hbody block (List.mem_singleton_self _) _ h
    | loop loc condition body =>
      rcases List.mem_cons.1 h with h | h
      · exact .inr (hself h)
      · exact hbody body (List.mem_singleton_self _) _ h
    | branch loc condition thenBlock elseBlock =>
      rw [rows, List.mem_cons, List.mem_cons, List.mem_append] at h
      rcases h with h | rfl | h | h
      · exact .inr (hself h)
      · exact .inl (by simp)
      · exact hbody thenBlock (by simp [bodies]) _ h
      · split at h
        · exact absurd h List.not_mem_nil
        · rcases List.mem_cons.1 h with rfl | h
          · exact .inl (by simp)
          · exact hbody elseBlock (by simp [bodies]) _ h

theorem Statement.rows_eq_of_dump_eq {options : DumpOptions} {s t : Statement}
    (hs : ∀ u ∈ s.nodes, Row.Printable (u.header options))
    (ht : ∀ u ∈ t.nodes, Row.Printable (u.header options)) (h : s.dump options = t.dump options) :
    s.rows options 0 = t.rows options 0 := by
  have hrows : ∀ {r : Statement}, (∀ u ∈ r.nodes, Row.Printable (u.header options)) →
      ∀ row ∈ r.rows options 0, Row.Printable row.2 := by
    intro r hr row hrow
    rcases text_of_mem_rows hrow with htitle | ⟨u, hu, htext⟩
    · exact (by decide : ∀ text ∈ ["Then", "Else"], Row.Printable text) row.2 htitle
    · exact htext ▸ hr u hu
  rw [dump_eq, dump_eq] at h
  exact Row.join_unique (hrows hs) (hrows ht) h

end MachineLang
