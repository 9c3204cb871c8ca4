import MachineLang.Proofs.Statement.Layout

set_option autoImplicit false

namespace MachineLang

namespace Text

/-- Blanks go before every line; `starts` tells whether a line starts here. -/
def indentFrom (width : Nat) : (starts : Bool) → List Char → List Char
  | _, [] => []
  | starts, c :: cs =>
    (if starts then List.replicate width ' ' else []) ++ c :: indentFrom width (c == '\n') cs

def indented (width : Nat) (s : String) : String :=
  String.ofList (indentFrom width true s.toList)

theorem indentFrom_line (width : Nat) {line : List Char} (h : '\n' ∉ line) (starts : Bool)
    (rest : List Char) :
    indentFrom width starts (line ++ '\n' :: rest) =
      (if starts then List.replicate width ' ' else []) ++
        (line ++ '\n' :: indentFrom width true rest) := by
  induction line generalizing starts with
  | nil => rfl
  | cons c cs ih =>
    rw [List.mem_cons, not_or] at h
    have hstarts : (c == '\n') = false := beq_eq_false_iff_ne.2 (Ne.symm h.1)
    rw [List.cons_append, indentFrom, hstarts, ih h.2]
    rfl

end Text

namespace Row

theorem line_zero (text : String) : line (0, text) = text ++ "\n" := by
  rw [line, Statement.line, Nat.mul_zero, List.replicate_zero, String.ofList_nil,
    String.empty_append]

def deeper (levels : Nat) (row : Row) : Row := (row.1 + levels, row.2)

theorem toList_join_deeper (levels : Nat) {rows : List Row}
    (h : ∀ row ∈ rows, '\n' ∉ row.2.toList) :
    (String.join ((rows.map (deeper levels)).map line)).toList =
      Text.indentFrom (2 * levels) true (String.join (rows.map line)).toList := by
  induction rows with
  | nil => rfl
  | cons row rows ih =>
    obtain ⟨hrow, hrows⟩ := List.forall_mem_cons.1 h
    have hblanks : List.replicate (2 * (deeper levels row).1) ' ' =
        List.replicate (2 * levels) ' ' ++ List.replicate (2 * row.1) ' ' := by
      rw [List.replicate_append_replicate, deeper, Nat.mul_add, Nat.add_comm]
    rw [List.map_cons, toList_join_cons, toList_join_cons, ih hrows,
      Text.indentFrom_line _ (newline_not_mem_indented hrow), hblanks]
    simp only [List.append_assoc, if_true]
    rfl

theorem join_deeper (levels : Nat) {rows : List Row} (h : ∀ row ∈ rows, '\n' ∉ row.2.toList) :
    String.join ((rows.map (deeper levels)).map line) =
      Text.indented (2 * levels) (String.join (rows.map line)) := by
  rw [Text.indented, ← toList_join_deeper levels h, String.ofList_toList]

end Row

section Deeper
variable (options : DumpOptions) (levels : Nat)

theorem Block.rows_deeper {b : Block}
    (h : ∀ s ∈ b.statements, ∀ depth,
      s.rows options (depth + levels) = (s.rows options depth).map (Row.deeper levels))
    (depth : Nat) :
    b.rows options (depth + levels) = (b.rows options depth).map (Row.deeper levels) := by
  rw [Block.rows_eq, Block.rows_eq, List.map_flatMap]
  exact List.flatMap_congr fun s hs => h s hs depth

theorem Statement.rows_deeper (s : Statement) (depth : Nat) :
    s.rows options (depth + levels) = (s.rows options depth).map (Row.deeper levels) := by
  induction s using Statement.treeInduction generalizing depth with
  | noOp | action => rfl
  | compound b ih | loop _ _ b ih =>
    have hbody := Block.rows_deeper options levels ih (depth + 1)
    rw [rows, rows, List.map_cons, ← hbody, Nat.add_right_comm]
    rfl
  | branch _ _ t e iht ihe =>
    have hthen := Block.rows_deeper options levels iht (depth + 2)
    have helse := Block.rows_deeper options levels ihe (depth + 2)
    have htitle : ∀ text : String,
        (depth + levels + 1, text) = Row.deeper levels (depth + 1, text) :=
      fun text => congrArg (·, text) (Nat.add_right_comm depth levels 1)
    rw [rows, rows, List.map_cons, List.map_cons, List.map_append, apply_ite (List.map _),
      List.map_cons, ← hthen, ← helse, Nat.add_right_comm depth 2, htitle, htitle]
    rfl

end Deeper

theorem join_flatMap {α : Type} (f : α → List String) (as : List α) :
    String.join (as.flatMap f) = String.join (as.map fun a => String.join (f a)) := by
  rw [← String.toList_inj, String.toList_join, String.toList_join, List.flatMap_assoc,
    List.flatMap_map]
  simp only [String.toList_join]

namespace Block

def Unbroken (b : Block) : Prop := ∀ s ∈ b.statements, s.Unbroken

instance (b : Block) : Decidable b.Unbroken :=
  inferInstanceAs (Decidable (∀ s ∈ b.statements, s.Unbroken))

section Dumps
variable {options : DumpOptions} {b : Block}

theorem dump_eq_join :
    b.dump options = String.join (b.statements.map (Statement.dump options)) := by
  rw [dump, lines_eq, rows_eq, List.map_flatMap, join_flatMap]
  exact congrArg String.join (List.map_congr_left fun s _ => (s.dump_eq options).symm)

theorem Unbroken.newline_not_mem_row (h : b.Unbroken) {depth : Nat} {row : Row}
    (hrow : row ∈ b.rows options depth) : '\n' ∉ row.2.toList := by
  rw [rows_eq] at hrow
  obtain ⟨s, hs, hrow⟩ := List.mem_flatMap.1 hrow
  exact (h s hs).newline_not_mem_row hrow

theorem Unbroken.join_rows (h : b.Unbroken) (levels : Nat) :
    String.join ((b.rows options levels).map Row.line) =
      Text.indented (2 * levels) (b.dump options) := by
  have hrows : b.rows options levels = (b.rows options 0).map (Row.deeper levels) := by
    rw [← rows_deeper options levels fun s _ => s.rows_deeper options levels, Nat.zero_add]
  rw [hrows, Row.join_deeper levels fun _ hrow => h.newline_not_mem_row hrow, dump, lines_eq]

theorem Unbroken.join_cons_rows (h : b.Unbroken) (text : String) :
    String.join ((((0, text) : Row) :: b.rows options 1).map Row.line) =
      text ++ "\n" ++ Text.indented 2 (b.dump options) := by
  rw [List.map_cons, String.join_cons, Row.line_zero, h.join_rows]

end Dumps

end Block

namespace Statement

section Dumps
variable {options : DumpOptions}

theorem dump_compound {b : Block} (h : b.Unbroken) :
    (compound b).dump options =
      (compound b).header options ++ "\n" ++ Text.indented 2 (b.dump options) := by
  rw [dump_eq, rows, h.join_cons_rows]

theorem dump_loop (loc : Location) (condition : Expr) {body : Block} (h : body.Unbroken) :
    (loop loc condition body).dump options =
      (loop loc condition body).header options ++ "\n" ++
        Text.indented 2 (body.dump options) := by
  rw [dump_eq, rows, h.join_cons_rows]

theorem dump_branch (loc : Location) (condition : Expr) {thenBlock elseBlock : Block}
    (hthen : thenBlock.Unbroken) (helse : elseBlock.Unbroken) :
    (branch loc condition thenBlock elseBlock).dump options =
      (branch loc condition thenBlock elseBlock).header options ++ "\n" ++
        ("  Then\n" ++ Text.indented 4 (thenBlock.dump options)) ++
        if elseBlock.isEmpty then ""
        else "  Else\n" ++ Text.indented 4 (elseBlock.dump options) := by
  have htitles : Row.line (1, "Then") = "  Then\n" ∧ Row.line (1, "Else") = "  Else\n" := by
    decide
  have helseRows : String.join ((if elseBlock.isEmpty then []
      else (1, "Else") :: elseBlock.rows options 2).map Row.line) =
      if elseBlock.isEmpty then ""
      else "  Else\n" ++ Text.indented 4 (elseBlock.dump options) := by
    split
    · rfl
    · rw [List.map_cons, String.join_cons, htitles.2, helse.join_rows]
  rw [dump_eq, rows, List.map_cons, List.map_cons, List.map_append, String.join_cons,
    String.join_cons, String.join_append, Row.line_zero, htitles.1, hthen.join_rows, helseRows]
  simp only [String.append_assoc]

/-- What the statement adds to the dump of a block that it is put into. -/
def dumpInBlock (options : DumpOptions) : Statement → String
  | noOp _ => ""
  | compound b => b.dump options
  | s => s.dump options

theorem dumpInBlock_eq (s : Statement) :
    s.dumpInBlock options = String.join (s.spliced.map (dump options)) := by
  cases s with
  | noOp => rfl
  | compound b => exact Block.dump_eq_join
  | action | branch | loop => simp [dumpInBlock, spliced]

theorem dump_ofStatements (loc : Location) (ss : List Statement) :
    (Block.ofStatements loc ss).dump options = String.join (ss.map (dumpInBlock options)) := by
  rw [Block.dump_eq_join, Block.ofStatements, List.map_flatMap, join_flatMap]
  exact congrArg String.join (List.map_congr_left fun s _ => s.dumpInBlock_eq.symm)

end Dumps

/-- A block's dump puts the dumps of its statements below each other, and what a block, a loop or a
branch shows below its own line is the dump of what it holds, indented; so a block that is built
from statements shows the dumps of those that it keeps and of the blocks that it opens. -/
theorem dump_composed :
    (∀ b : Block, b.dump {} = String.join (b.statements.map (dump {}))) ∧
    (∀ b : Block, b.Unbroken →
      (compound b).dump {} = "Compound\n" ++ Text.indented 2 (b.dump {})) ∧
    (∀ loc condition (body : Block), body.Unbroken →
      (loop loc condition body).dump {} =
        (loop loc condition body).header {} ++ "\n" ++ Text.indented 2 (body.dump {})) ∧
    (∀ loc condition (thenBlock elseBlock : Block), thenBlock.Unbroken → elseBlock.Unbroken →
      (branch loc condition thenBlock elseBlock).dump {} =
        (branch loc condition thenBlock elseBlock).header {} ++ "\n" ++
          ("  Then\n" ++ Text.indented 4 (thenBlock.dump {})) ++
          if elseBlock.isEmpty then ""
          else "  Else\n" ++ Text.indented 4 (elseBlock.dump {})) ∧
    ∀ loc ss, (Block.ofStatements loc ss).dump {} = String.join (ss.map (dumpInBlock {})) := by
  refine ⟨fun b => Block.dump_eq_join, fun b h => dump_compound h, ?_, ?_, dump_ofStatements⟩
  · intro loc condition body h
    exact dump_loop loc condition h
  · intro loc condition thenBlock elseBlock hthen helse
    exact dump_branch loc condition hthen helse

theorem dump_composed_retry :
    let l : Location := ⟨0, 2, 7, by decide⟩
    let busy := Expr.var l "busy"
    let wait := whileLoop l busy (.action l .continueLoop)
    let stuck := action l (.assert busy "off\n")
    let b := Block.ofStatements l [wait, .noOp l, compound ⟨l, [stuck]⟩]
    b.Unbroken ∧ b.dump {} = "While busy\n  Continue\n" ++ "Assert busy, \"off\\n\"\n" ∧
    (compound b).dump {} =
      "Compound\n" ++ "  While busy\n    Continue\n  Assert busy, \"off\\n\"\n" ∧
    (loop l busy b).dump {} =
      "While busy\n" ++ "  While busy\n    Continue\n  Assert busy, \"off\\n\"\n" ∧
    (branch l busy b b).dump {} = "If busy\n" ++
      ("  Then\n" ++ "    While busy\n      Continue\n    Assert busy, \"off\\n\"\n") ++
      ("  Else\n" ++ "    While busy\n      Continue\n    Assert busy, \"off\\n\"\n") := by
  intro l busy wait stuck b
  obtain ⟨-, hcompound, hloop, hbranch, hbuilt⟩ := dump_composed
  have h : b.Unbroken := by decide
  have hdump : b.dump {} = "While busy\n  Continue\nAssert busy, \"off\\n\"\n" :=
    (hbuilt l _).trans (by decide +kernel)
  refine ⟨h, hdump, ?_, ?_, ?_⟩
  · rw [hcompound b h, hdump]
    decide
  · rw [hloop l busy b h, hdump]
    decide
  · rw [hbranch l busy b b h h, hdump]
    decide

end Statement
end MachineLang
