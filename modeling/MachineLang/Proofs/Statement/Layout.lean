import Mathlib.Data.List.Perm.Basic
import MachineLang.Proofs.Statement.CallTree
import MachineLang.Proofs.Statement.Header

set_option autoImplicit false

/-!
# The lines of a dump

A line belongs to a statement: it shows the statement itself or the title of one of its branches.
The lines of the statements themselves are what a visitor meets that counts levels as it walks; the
titles stand between them and are counted by the statements that have them. Which of these lines a
dump shows does not depend on whether it shows locations.
-/
namespace MachineLang

inductive DumpLine.Part where
  | own
  | thenTitle
  | elseTitle
  deriving DecidableEq

def DumpLine.Part.indent : Part → Nat
  | own => 0
  | thenTitle | elseTitle => 1

structure DumpLine where
  depth : Nat
  owner : Statement
  part : DumpLine.Part

mutual

def Statement.layout (depth : Nat) : Statement → List DumpLine
  | .noOp loc => [⟨depth, .noOp loc, .own⟩]
  | .action loc a => [⟨depth, .action loc a, .own⟩]
  | .compound block => ⟨depth, .compound block, .own⟩ :: block.layout (depth + 1)
  | .loop loc condition body => ⟨depth, .loop loc condition body, .own⟩ :: body.layout (depth + 1)
  | .branch loc condition thenBlock elseBlock =>
    ⟨depth, .branch loc condition thenBlock elseBlock, .own⟩ ::
      ⟨depth + 1, .branch loc condition thenBlock elseBlock, .thenTitle⟩ ::
        (thenBlock.layout (depth + 2) ++
          if elseBlock.isEmpty then []
          else ⟨depth + 1, .branch loc condition thenBlock elseBlock, .elseTitle⟩ ::
            elseBlock.layout (depth + 2))

def Block.layout (depth : Nat) : Block → List DumpLine
  | ⟨_, statements⟩ => Statement.layoutAll depth statements

def Statement.layoutAll (depth : Nat) : List Statement → List DumpLine
  | [] => []
  | s :: ss => s.layout depth ++ Statement.layoutAll depth ss

end

theorem Statement.layoutAll_eq_flatMap (depth : Nat) (ss : List Statement) :
    Statement.layoutAll depth ss = ss.flatMap (Statement.layout depth) := by
  induction ss with
  | nil => rfl
  | cons s ss ih => rw [Statement.layoutAll, ih, List.flatMap_cons]

theorem Block.layout_eq (depth : Nat) (b : Block) :
    b.layout depth = b.statements.flatMap (Statement.layout depth) := by
  cases b
  rw [Block.layout, Statement.layoutAll_eq_flatMap]

theorem Statement.layout_eq_cons (depth : Nat) (s : Statement) :
    ∃ inside, s.layout depth = ⟨depth, s, .own⟩ :: inside := by
  cases s <;> exact ⟨_, rfl⟩

namespace DumpLine

/-- The line without blanks before it and a location behind it. -/
def words (l : DumpLine) : String :=
  match l.part with
  | .own => l.owner.name ++ l.owner.detail
  | .thenTitle => "Then"
  | .elseTitle => "Else"

def span (l : DumpLine) : String :=
  match l.part with
  | .own => " " ++ l.owner.loc.text
  | .thenTitle | .elseTitle => ""

def chars (l : DumpLine) : List Char := List.replicate (2 * l.depth) ' ' ++ l.words.toList

def row (options : DumpOptions) (l : DumpLine) : Row :=
  (l.depth, l.words ++ if options.spans then l.span else "")

theorem row_title {options : DumpOptions} {depth : Nat} {s : Statement} :
    row options ⟨depth, s, .thenTitle⟩ = (depth, "Then") ∧
      row options ⟨depth, s, .elseTitle⟩ = (depth, "Else") := by
  simp [row, words, span]

end DumpLine

section Rows
variable (options : DumpOptions)

mutual

theorem Statement.rows_eq_layout : ∀ (depth : Nat) (s : Statement),
    s.rows options depth = (s.layout depth).map (DumpLine.row options)
  | _, .noOp _ | _, .action _ _ => rfl
  | depth, .compound block => by
    rw [Statement.rows, Statement.layout, List.map_cons, Block.rows_eq_layout (depth + 1) block]
    rfl
  | depth, .loop _ _ body => by
    rw [Statement.rows, Statement.layout, List.map_cons, Block.rows_eq_layout (depth + 1) body]
    rfl
  | depth, .branch _ _ thenBlock elseBlock => by
    rw [Statement.rows, Statement.layout, List.map_cons, List.map_cons, List.map_append,
      Block.rows_eq_layout (depth + 2) thenBlock, Block.rows_eq_layout (depth + 2) elseBlock,
      DumpLine.row_title.1, apply_ite (List.map _), List.map_cons, DumpLine.row_title.2]
    rfl

theorem Block.rows_eq_layout : ∀ (depth : Nat) (b : Block),
    b.rows options depth = (b.layout depth).map (DumpLine.row options)
  | depth, ⟨_, statements⟩ => Statement.rowsOfAll_eq_layoutAll depth statements

theorem Statement.rowsOfAll_eq_layoutAll : ∀ (depth : Nat) (ss : List Statement),
    Statement.rowsOfAll options depth ss =
      (Statement.layoutAll depth ss).map (DumpLine.row options)
  | _, [] => rfl
  | depth, s :: ss => by
    rw [Statement.rowsOfAll, Statement.layoutAll, List.map_append,
      Statement.rows_eq_layout depth s, Statement.rowsOfAll_eq_layoutAll depth ss]

end

end Rows

namespace Statement

def hasLine : DumpLine.Part → Statement → Bool
  | .own, _ | .thenTitle, .branch .. => true
  | .elseTitle, .branch _ _ _ elseBlock => !elseBlock.isEmpty
  | _, _ => false

def step : Statement → Nat
  | branch .. => 2
  | noOp _ | action .. | compound _ | loop .. => 1

end Statement

namespace DumpLine

/-- The depths and the statements of the lines of one kind. -/
def places (part : Part) (lines : List DumpLine) : List (Nat × Statement) :=
  (lines.filter (·.part = part)).map fun l => (l.depth, l.owner)

section Places
variable (part : Part)

@[simp] theorem places_append (lines lines' : List DumpLine) :
    places part (lines ++ lines') = places part lines ++ places part lines' := by
  simp only [places, List.filter_append, List.map_append]

@[simp] theorem places_cons (l : DumpLine) (lines : List DumpLine) :
    places part (l :: lines) =
      (if l.part = part then [(l.depth, l.owner)] else []) ++ places part lines := by
  by_cases h : l.part = part <;> simp [places, h]

@[simp] theorem places_block (depth : Nat) (b : Block) :
    places part (b.layout depth) =
      b.statements.flatMap fun t => places part (t.layout depth) := by
  simp only [places, Block.layout_eq, List.filter_flatMap, List.map_flatMap]

@[simp] theorem places_elsePart (depth : Nat) (s : Statement) (b : Block) :
    places part (if b.isEmpty then []
      else ⟨depth + 1, s, .elseTitle⟩ :: b.layout (depth + 2)) =
      (if part = .elseTitle ∧ b.isEmpty = false then [(depth + 1, s)] else []) ++
        b.statements.flatMap fun t => places part (t.layout (depth + 2)) := by
  cases hempty : b.isEmpty with
  | true =>
    have hnone : b.statements = [] := List.isEmpty_iff.1 hempty
    simp [hnone, places]
  | false => simp [eq_comm (a := part)]

end Places

theorem places_own_layout (depth : Nat) (s : Statement) :
    places .own (s.layout depth) =
      (depth, s) :: s.inside.flatMap fun t => places .own (t.layout (depth + s.step)) := by
  cases s with
  | noOp | action => rfl
  | compound | loop | branch => simp [Statement.layout, Statement.step]

theorem places_layout_perm (part : Part) (depth : Nat) (s : Statement) :
    (places part (s.layout depth)).Perm
      ((if s.hasLine part then [(depth + part.indent, s)] else []) ++
        s.inside.flatMap fun t => places part (t.layout (depth + s.step))) := by
  cases s with
  | noOp | action => cases part <;> rfl
  | compound | loop =>
    cases part <;> simp [Statement.layout, Statement.step, Statement.hasLine, Part.indent]
  | branch loc c t e =>
    cases part with
    | own | thenTitle => simp [Statement.layout, Statement.step, Statement.hasLine, Part.indent]
    | elseTitle =>
      simpa [Statement.layout, Statement.step, Statement.hasLine, Part.indent] using
        List.perm_append_comm_assoc _ _ _

/-- The places that the lines of a kind should have, given those of the statements' own lines. -/
def expected (part : Part) (places : List (Nat × Statement)) : List (Nat × Statement) :=
  (places.filter (·.2.hasLine part)).map fun p => (p.1 + part.indent, p.2)

theorem expected_cons (part : Part) (p : Nat × Statement) (ps : List (Nat × Statement)) :
    expected part (p :: ps) =
      (if p.2.hasLine part then [(p.1 + part.indent, p.2)] else []) ++ expected part ps := by
  by_cases h : p.2.hasLine part <;> simp [expected, h]

theorem places_perm_expected (part : Part) (depth : Nat) (s : Statement) :
    (places part (s.layout depth)).Perm (expected part (places .own (s.layout depth))) := by
  induction s using Statement.insideInduction generalizing depth with
  | step s ih =>
    have hinside : (s.inside.flatMap fun t => places part (t.layout (depth + s.step))).Perm
        (expected part (s.inside.flatMap fun t => places .own (t.layout (depth + s.step)))) := by
      simp only [expected, List.filter_flatMap, List.map_flatMap]
      exact .flatMap_left _ fun t ht => ih t ht (depth + s.step)
    rw [places_own_layout, expected_cons]
    exact (places_layout_perm part depth s).trans (hinside.append_left _)

def first? (depth : Nat) (b : Block) : Option DumpLine :=
  b.statements.head?.map fun t => ⟨depth, t, .own⟩

/-- The line that has to follow: a line `Then`, or that of the first statement in a block. -/
def next? (l : DumpLine) : Option DumpLine :=
  match l.part, l.owner with
  | .own, .compound b | .own, .loop _ _ b => first? (l.depth + 1) b
  | .own, .branch .. => some ⟨l.depth + 1, l.owner, .thenTitle⟩
  | .thenTitle, .branch _ _ b _ | .elseTitle, .branch _ _ _ b => first? (l.depth + 1) b
  | _, _ => none

def Joined (lines : List DumpLine) : Prop :=
  ∀ i l, lines[i]? = some l → ∀ m ∈ l.next?, lines[i + 1]? = some m

theorem joined_cons {l : DumpLine} {lines : List DumpLine} :
    Joined (l :: lines) ↔ (∀ m ∈ l.next?, lines.head? = some m) ∧ Joined lines := by
  unfold Joined
  rw [← Nat.and_forall_add_one]
  simp [List.head?_eq_getElem?]

section Joined
variable {depth : Nat} {rest : List DumpLine}

theorem joined_block {b : Block} {l : DumpLine} (hl : l.next? = first? depth b)
    (hb : ∀ t ∈ b.statements, ∀ {rest}, Joined rest → Joined (t.layout depth ++ rest))
    (hrest : Joined rest) : Joined (l :: (b.layout depth ++ rest)) := by
  rw [Block.layout_eq]
  refine joined_cons.2 ⟨fun m hm => ?_, ?_⟩
  · rw [hl, first?] at hm
    obtain ⟨t, ht, rfl⟩ := Option.map_eq_some_iff.1 hm
    obtain ⟨ts, hts⟩ := List.head?_eq_some_iff.1 ht
    obtain ⟨inside, hinside⟩ := t.layout_eq_cons depth
    rw [hts, List.flatMap_cons, hinside]
    rfl
  · generalize b.statements = ss at hb
    induction ss with
    | nil => exact hrest
    | cons t ts ih =>
      rw [List.flatMap_cons, List.append_assoc]
      exact hb t List.mem_cons_self (ih fun u hu => hb u (List.mem_cons_of_mem t hu))

theorem joined_layout (s : Statement) (hrest : Joined rest) : Joined (s.layout depth ++ rest) := by
  induction s using Statement.treeInduction generalizing depth rest with
  | noOp | action =>
    refine joined_cons.2 ⟨fun m hm => ?_, hrest⟩
    exact absurd hm (Option.not_mem_none m)
  | compound b ih => exact joined_block rfl (fun t ht _ => ih t ht) hrest
  | loop loc c b ih => exact joined_block rfl (fun t ht _ => ih t ht) hrest
  | branch loc c t e iht ihe =>
    rw [Statement.layout, List.cons_append, List.cons_append, List.append_assoc]
    refine joined_cons.2 ⟨fun m hm => hm, joined_block rfl (fun u hu _ => iht u hu) ?_⟩
    split
    · exact hrest
    · exact joined_block rfl (fun u hu _ => ihe u hu) hrest

end Joined

end DumpLine

structure Levels where
  level : Nat := 0
  seen : List (Nat × Statement) := []

namespace Visitor
open DumpLine (places)

/-- Writes down every statement with its level and walks on at the level of what is inside it. -/
def levels : Visitor Levels where
  statement s walk v :=
    { walk ⟨v.level + s.step, v.seen ++ [(v.level, s)]⟩ with level := v.level }

theorem quiet_levels : levels.Quiet := ⟨fun _ _ => rfl, fun _ _ => rfl, fun _ _ => rfl⟩

theorem levels_visitStatements {ss : List Statement}
    (h : ∀ s ∈ ss, ∀ v, levels.visitStatement s v =
      ⟨v.level, v.seen ++ places .own (s.layout v.level)⟩) (v : Levels) :
    levels.visitStatements ss v =
      ⟨v.level, v.seen ++ ss.flatMap fun s => places .own (s.layout v.level)⟩ := by
  induction ss generalizing v with
  | nil => rw [visitStatements, List.flatMap_nil, List.append_nil, id]
  | cons s ss ih =>
    rw [visitStatements, Function.comp_apply, h s List.mem_cons_self,
      ih fun t ht => h t (List.mem_cons_of_mem s ht), List.flatMap_cons, List.append_assoc]

theorem levels_visitStatement (s : Statement) (v : Levels) :
    levels.visitStatement s v = ⟨v.level, v.seen ++ places .own (s.layout v.level)⟩ := by
  induction s using Statement.insideInduction generalizing v with
  | step s ih =>
    have haround : ∀ walk, levels.around s walk v =
        { walk ⟨v.level + s.step, v.seen ++ [(v.level, s)]⟩ with level := v.level } := by
      intro walk
      cases s <;> rfl
    rw [quiet_levels.visitStatement, haround, levels_visitStatements ih,
      DumpLine.places_own_layout, List.append_assoc, List.singleton_append]

end Visitor

namespace Statement
open DumpLine

theorem map_snd_places_own (depth : Nat) (s : Statement) :
    (places .own (s.layout depth)).map Prod.snd = s.nodes := by
  induction s using insideInduction generalizing depth with
  | step s ih =>
    rw [places_own_layout, nodes_eq_inside, List.map_cons, List.map_flatMap]
    exact congrArg (s :: ·) (List.flatMap_congr fun t ht => ih t ht (depth + s.step))

/-- The lines are those of the statement in the right order and at the right depths. -/
structure LaidOut (s : Statement) (lines : List DumpLine) : Prop where
  /-- The statements have their own lines in the order of a visit, at the levels of the visit. -/
  own : places .own lines = (Visitor.levels.visitStatement s {}).seen
  nodes : (places .own lines).map Prod.snd = s.nodes
  /-- Every branch has one line `Then`, and one line `Else` unless its else block is empty; both
  are one level deeper than its own line. -/
  titles : ∀ part, (places part lines).Perm (expected part (places .own lines))
  /-- The line `Then` of a branch comes right after its own, and below a title or the line of a
  block or a loop comes the line of the first statement inside. -/
  joined : Joined lines

theorem laidOut_layout (s : Statement) : s.LaidOut (s.layout 0) where
  own := by rw [Visitor.levels_visitStatement, List.nil_append]
  nodes := s.map_snd_places_own 0
  titles part := places_perm_expected part 0 s
  joined := by
    have hend : Joined [] := fun i l hl => absurd hl (by simp)
    simpa using joined_layout s hend

def Unbroken (s : Statement) : Prop := ∀ t ∈ s.nodes, t.UnbrokenLine

instance (s : Statement) : Decidable s.Unbroken :=
  inferInstanceAs (Decidable (∀ t ∈ s.nodes, t.UnbrokenLine))

theorem Unbroken.newline_not_mem_row {options : DumpOptions} {s : Statement} (h : s.Unbroken)
    {depth : Nat} {row : Row} (hrow : row ∈ s.rows options depth) : '\n' ∉ row.2.toList := by
  rcases text_of_mem_rows hrow with htitle | ⟨t, ht, htext⟩
  · exact (by decide : ∀ text ∈ ["Then", "Else"], '\n' ∉ text.toList) row.2 htitle
  · exact htext ▸ newline_not_mem_header (h t ht)

theorem splitOn_dump (options : DumpOptions) {s : Statement} (h : s.Unbroken) :
    (s.dump options).toList.splitOn '\n' =
      (s.layout 0).map (fun l => l.chars ++ if options.spans then l.span.toList else []) ++
        [[]] := by
  have hline : ∀ l : DumpLine,
      List.replicate (2 * (l.row options).1) ' ' ++ (l.row options).2.toList =
        l.chars ++ if options.spans then l.span.toList else [] := by
    intro l
    rw [DumpLine.row, chars, String.toList_append, apply_ite String.toList, List.append_assoc]
    rfl
  rw [dump_eq, Row.splitOn_join fun _ hrow => h.newline_not_mem_row hrow, rows_eq_layout,
    List.map_map]
  simp only [Function.comp_def, hline]

/-- Cut at its line breaks, a dump gives the lines of the statement, and locations stand only
behind them: the same lines come in a dump with locations. -/
theorem dump_lines (s : Statement) (h : s.Unbroken) :
    s.LaidOut (s.layout 0) ∧
    (s.dump {}).toList.splitOn '\n' = (s.layout 0).map chars ++ [[]] ∧
    (s.dump ⟨true⟩).toList.splitOn '\n' =
      (s.layout 0).map (fun l => l.chars ++ l.span.toList) ++ [[]] := by
  refine ⟨s.laidOut_layout, ?_, ?_⟩
  · simpa using splitOn_dump {} h
  · simpa using splitOn_dump ⟨true⟩ h

theorem dump_lines_retry :
    let l : Location := ⟨0, 2, 7, by decide⟩
    let busy := Expr.var l "busy"
    let wait := Statement.whileLoop l busy (.action l .continueLoop)
    let stuck := Statement.action l (.assert busy "off\n")
    let s := Statement.ifElse l busy wait (some stuck)
    s.Unbroken ∧ s.LaidOut (s.layout 0) ∧
    (s.dump ⟨true⟩).toList.splitOn '\n' =
      ["If busy #0@2..7", "  Then", "    While busy #0@2..7", "      Continue #0@2..7", "  Else",
        "    Assert busy, \"off\\n\" #0@2..7", ""].map String.toList := by
  intro l busy wait stuck s
  have h : s.Unbroken := by decide
  obtain ⟨hlaid, -, hspans⟩ := dump_lines s h
  exact ⟨h, hlaid, hspans.trans (by decide +kernel)⟩

end Statement
end MachineLang
