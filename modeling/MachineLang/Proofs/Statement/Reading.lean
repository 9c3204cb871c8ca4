import MachineLang.Proofs.Statement.Flat
import MachineLang.Proofs.Statement.Header
import MachineLang.Proofs.Statement.Rows

set_option autoImplicit false

/-!
# Reading dumps back

The depths of the rows tell which of them belong to a block: all that come before the next row that
is not deeper than the statement which owns the block. A dump without locations therefore shows all
of a tree but its locations, and a dump with locations hides only those of expressions and of the
blocks of branches and loops. Of a type, a dump shows the text.
-/
namespace MachineLang
open Text Reading

mutual

/-- The statement without the locations that a dump hides, and with the given types in place of
those of its default values. -/
def Statement.erased (types : Ty → Ty) (options : DumpOptions) : Statement → Statement
  | .noOp loc => .noOp (options.shown loc)
  | .action loc a => .action (options.shown loc) (a.map (Expr.erased types))
  | .compound block => .compound (block.erased types options (options.shown block.loc))
  | .branch loc condition thenBlock elseBlock =>
    .branch (options.shown loc) (condition.erased types) (thenBlock.erased types options .origin)
      (elseBlock.erased types options .origin)
  | .loop loc condition body =>
    .loop (options.shown loc) (condition.erased types) (body.erased types options .origin)

def Block.erased (types : Ty → Ty) (options : DumpOptions) (loc : Location) : Block → Block
  | ⟨_, statements⟩ => ⟨loc, Statement.erasedAll types options statements⟩

def Statement.erasedAll (types : Ty → Ty) (options : DumpOptions) : List Statement → List Statement
  | [] => []
  | s :: ss => s.erased types options :: Statement.erasedAll types options ss

end

theorem Statement.erasedAll_eq_map (types : Ty → Ty) (options : DumpOptions)
    (ss : List Statement) :
    Statement.erasedAll types options ss = ss.map (Statement.erased types options) := by
  induction ss with
  | nil => rfl
  | cons s ss ih => rw [Statement.erasedAll, ih, List.map_cons]

theorem Block.erased_eq (types : Ty → Ty) (options : DumpOptions) (loc : Location) (b : Block) :
    b.erased types options loc = ⟨loc, b.statements.map (Statement.erased types options)⟩ := by
  cases b
  rw [Block.erased, Statement.erasedAll_eq_map]

namespace Statement

/-- The names in the statement are identifiers, and its expressions do not read as others. -/
def WellNamed (s : Statement) : Prop := ∀ t ∈ s.nodes, t.LegibleLine

instance (s : Statement) : Decidable s.WellNamed :=
  inferInstanceAs (Decidable (∀ t ∈ s.nodes, t.LegibleLine))

theorem WellNamed.self {s : Statement} (h : s.WellNamed) : s.LegibleLine := h s s.self_mem_nodes

theorem WellNamed.body {s t : Statement} {b : Block} (h : s.WellNamed) (hb : b ∈ s.bodies)
    (ht : t ∈ b.statements) : t.WellNamed :=
  fun u hu => h u (mem_nodes_of_body hb ht hu)

end Statement

namespace Reading

/-- No row that is at least as deep comes first. -/
def Shallow (depth : Nat) (rest : List Row) : Prop :=
  ∀ row, rest.head? = some row → row.1 < depth

theorem Shallow.mono {depth depth' : Nat} {rest : List Row} (h : Shallow depth rest)
    (hle : depth ≤ depth') : Shallow depth' rest :=
  fun row hrow => Nat.lt_of_lt_of_le (h row hrow) hle

theorem shallow_cons {depth : Nat} {row : Row} {rest : List Row} (h : row.1 < depth) :
    Shallow depth (row :: rest) := by
  intro row' hrow
  cases hrow
  exact h

theorem Shallow.ne_cons {depth : Nat} {rest rest' : List Row} (h : Shallow depth rest) {row : Row}
    (hrow : depth ≤ row.1) : rest ≠ row :: rest' := by
  rintro rfl
  exact absurd (h row rfl) (Nat.not_lt.2 hrow)

end Reading

def Block.elseRows (options : DumpOptions) (depth : Nat) (b : Block) : List Row :=
  if b.isEmpty then [] else (depth + 1, "Else") :: b.rows options (depth + 2)

theorem Statement.rows_eq_cons (options : DumpOptions) (depth : Nat) (s : Statement) :
    ∃ inside, s.rows options depth = (depth, s.header options) :: inside := by
  cases s <;> exact ⟨_, rfl⟩

/-- Whatever rows follow, the statement can be told from its own. -/
def Statement.Readable (options : DumpOptions) (s : Statement) : Prop :=
  ∀ ⦃t : Statement⦄ ⦃depth : Nat⦄ ⦃rest rest' : List Row⦄, t.WellNamed →
    Shallow (depth + 1) rest → Shallow (depth + 1) rest' →
    s.rows options depth ++ rest = t.rows options depth ++ rest' →
    s.erased Ty.shown options = t.erased Ty.shown options ∧ rest = rest'

section Unique
variable {options : DumpOptions} {depth : Nat} {rest rest' : List Row}

theorem shallow_statements (ss : List Statement) (hrest : Shallow depth rest) :
    Shallow (depth + 1) (ss.flatMap (Statement.rows options depth) ++ rest) := by
  cases ss with
  | nil => exact hrest.mono (Nat.le_succ depth)
  | cons s ss =>
    obtain ⟨inside, hrows⟩ := s.rows_eq_cons options depth
    rw [List.flatMap_cons, hrows]
    exact shallow_cons (Nat.lt_succ_self depth)

theorem Reading.Shallow.ne_statements (hrest : Shallow depth rest) {s : Statement}
    {rows : List Row} : rest ≠ s.rows options depth ++ rows := by
  obtain ⟨inside, hrows⟩ := s.rows_eq_cons options depth
  rw [hrows]
  exact hrest.ne_cons (Nat.le_refl depth)

theorem statements_unique {ss ts : List Statement} (hss : ∀ s ∈ ss, s.Readable options)
    (hts : ∀ t ∈ ts, t.WellNamed) (hrest : Shallow depth rest) (hrest' : Shallow depth rest')
    (h : ss.flatMap (Statement.rows options depth) ++ rest =
      ts.flatMap (Statement.rows options depth) ++ rest') :
    ss.map (Statement.erased Ty.shown options) = ts.map (Statement.erased Ty.shown options) ∧
      rest = rest' := by
  induction ss generalizing ts with
  | nil =>
    cases ts with
    | nil => exact ⟨rfl, h⟩
    | cons t ts =>
      rw [List.flatMap_cons, List.append_assoc] at h
      exact absurd h hrest.ne_statements
  | cons s ss ih =>
    cases ts with
    | nil =>
      rw [List.flatMap_cons, List.append_assoc] at h
      exact absurd h.symm hrest'.ne_statements
    | cons t ts =>
      rw [List.flatMap_cons, List.flatMap_cons, List.append_assoc, List.append_assoc] at h
      obtain ⟨hstatement, h⟩ := hss s List.mem_cons_self (hts t List.mem_cons_self)
        (shallow_statements ss hrest) (shallow_statements ts hrest') h
      obtain ⟨hstatements, hrest⟩ := ih (fun s' hs => hss s' (List.mem_cons_of_mem s hs))
        (fun t' ht => hts t' (List.mem_cons_of_mem t ht)) h
      exact ⟨by rw [List.map_cons, List.map_cons, hstatement, hstatements], hrest⟩

theorem block_unique {b c : Block} (hb : ∀ s ∈ b.statements, s.Readable options)
    (hc : ∀ s ∈ c.statements, s.WellNamed) (hrest : Shallow depth rest)
    (hrest' : Shallow depth rest')
    (h : b.rows options depth ++ rest = c.rows options depth ++ rest') :
    (∀ loc, b.erased Ty.shown options loc = c.erased Ty.shown options loc) ∧ rest = rest' := by
  rw [Block.rows_eq, Block.rows_eq] at h
  obtain ⟨hstatements, hrest⟩ := statements_unique hb hc hrest hrest' h
  refine ⟨fun loc => ?_, hrest⟩
  rw [Block.erased_eq, Block.erased_eq, hstatements]

theorem else_unique {b c : Block} (hb : ∀ s ∈ b.statements, s.Readable options)
    (hc : ∀ s ∈ c.statements, s.WellNamed) (hrest : Shallow (depth + 1) rest)
    (hrest' : Shallow (depth + 1) rest')
    (h : b.elseRows options depth ++ rest = c.elseRows options depth ++ rest') :
    (∀ loc, b.erased Ty.shown options loc = c.erased Ty.shown options loc) ∧ rest = rest' := by
  unfold Block.elseRows at h
  cases hbe : b.isEmpty <;> cases hce : c.isEmpty <;>
    simp only [hbe, hce, if_true, Bool.false_eq_true, if_false, List.nil_append] at h
  · exact block_unique hb hc (hrest.mono (Nat.le_succ _)) (hrest'.mono (Nat.le_succ _))
      (List.cons.inj h).2
  · exact absurd h.symm (hrest'.ne_cons (Nat.le_refl _))
  · exact absurd h (hrest.ne_cons (Nat.le_refl _))
  · refine ⟨fun loc => ?_, h⟩
    rw [Block.erased_eq, Block.erased_eq, List.isEmpty_iff.1 hbe, List.isEmpty_iff.1 hce]

theorem shallow_elseRows (b : Block) (hrest : Shallow (depth + 1) rest) :
    Shallow (depth + 2) (b.elseRows options depth ++ rest) := by
  unfold Block.elseRows
  split
  · exact hrest.mono (Nat.le_succ _)
  · exact shallow_cons (Nat.lt_succ_self _)

end Unique

namespace Statement

theorem WellNamed.front_unique {options : DumpOptions} {s t : Statement} (hs : s.WellNamed)
    (ht : t.WellNamed) {depth : Nat} {rest rest' : List Row}
    (h : s.rows options depth ++ rest = t.rows options depth ++ rest') :
    s.front options = t.front options := by
  obtain ⟨inside, hrows⟩ := s.rows_eq_cons options depth
  obtain ⟨inside', hrows'⟩ := t.rows_eq_cons options depth
  rw [hrows, hrows'] at h
  exact header_unique hs.self ht.self (Prod.ext_iff.1 (List.cons.inj h).1).2

theorem WellNamed.readable {options : DumpOptions} {s : Statement} (hs : s.WellNamed) :
    s.Readable options := by
  induction s using treeInduction with
  | noOp loc =>
    intro t depth rest rest' ht hrest hrest' h
    have hfront := hs.front_unique ht h
    cases t with
    | noOp loc' => exact ⟨hfront, (List.cons.inj h).2⟩
    | _ => simp [front] at hfront
  | action loc a =>
    intro t depth rest rest' ht hrest hrest' h
    have hfront := hs.front_unique ht h
    cases t with
    | action loc' b => exact ⟨hfront, (List.cons.inj h).2⟩
    | _ => simp [front] at hfront
  | compound block ih =>
    intro t depth rest rest' ht hrest hrest' h
    have hfront := hs.front_unique ht h
    cases t with
    | compound block' =>
      obtain ⟨hblock, hrest⟩ := block_unique
        (fun s hmem => ih s hmem (hs.body (List.mem_singleton_self block) hmem))
        (fun s hmem => ht.body (List.mem_singleton_self block') hmem) hrest hrest'
        (List.cons.inj h).2
      have hloc : options.shown block.loc = options.shown block'.loc := by
        simpa [front, Block.empty] using hfront
      exact ⟨by rw [erased, erased, hblock, hloc], hrest⟩
    | _ => simp [front] at hfront
  | branch loc condition thenBlock elseBlock iht ihe =>
    intro t depth rest rest' ht hrest hrest' h
    have hfront := hs.front_unique ht h
    cases t with
    | branch loc' condition' thenBlock' elseBlock' =>
      have hinside : thenBlock.rows options (depth + 2) ++
            (elseBlock.elseRows options depth ++ rest) =
          thenBlock'.rows options (depth + 2) ++
            (elseBlock'.elseRows options depth ++ rest') := by
        rw [← List.append_assoc, ← List.append_assoc]
        exact (List.cons.inj (List.cons.inj h).2).2
      obtain ⟨hthen, h⟩ := block_unique
        (fun s hmem => iht s hmem (hs.body (by simp [bodies]) hmem))
        (fun s hmem => ht.body (by simp [bodies]) hmem) (shallow_elseRows elseBlock hrest)
        (shallow_elseRows elseBlock' hrest') hinside
      obtain ⟨helse, hrest⟩ := else_unique
        (fun s hmem => ihe s hmem (hs.body (by simp [bodies]) hmem))
        (fun s hmem => ht.body (by simp [bodies]) hmem) hrest hrest' h
      simp only [front, branch.injEq, and_true] at hfront
      exact ⟨by rw [erased, erased, hfront.1, hfront.2, hthen, helse], hrest⟩
    | _ => simp [front] at hfront
  | loop loc condition body ih =>
    intro t depth rest rest' ht hrest hrest' h
    have hfront := hs.front_unique ht h
    cases t with
    | loop loc' condition' body' =>
      obtain ⟨hbody, hrest⟩ := block_unique
        (fun s hmem => ih s hmem (hs.body (List.mem_singleton_self body) hmem))
        (fun s hmem => ht.body (List.mem_singleton_self body') hmem) hrest hrest'
        (List.cons.inj h).2
      simp only [front, loop.injEq, and_true] at hfront
      exact ⟨by rw [erased, erased, hfront.1, hfront.2, hbody], hrest⟩
    | _ => simp [front] at hfront

theorem WellNamed.printable {options : DumpOptions} {s : Statement} (hs : s.WellNamed) :
    ∀ t ∈ s.nodes, Row.Printable (t.header options) :=
  fun t ht => printable_header (hs t ht)

theorem WellNamed.erased_eq_of_dump_eq {options : DumpOptions} {s t : Statement} (hs : s.WellNamed)
    (ht : t.WellNamed) (h : s.dump options = t.dump options) :
    s.erased Ty.shown options = t.erased Ty.shown options := by
  have hrows := rows_eq_of_dump_eq hs.printable ht.printable h
  have hnothing : Shallow 1 [] := fun row hrow => absurd hrow (by simp)
  have hread := hs.readable ht hnothing hnothing (congrArg (· ++ []) hrows)
  exact hread.1

end Statement

theorem DumpOptions.span_shown (options : DumpOptions) (loc : Location) :
    (if options.spans then " " ++ (options.shown loc).text else "") =
      if options.spans then " " ++ loc.text else "" := by
  unfold shown
  split <;> rfl

theorem Block.isEmpty_erased (types : Ty → Ty) (options : DumpOptions) (loc : Location)
    (b : Block) : (b.erased types options loc).isEmpty = b.isEmpty := by
  rw [Block.erased_eq]
  exact List.isEmpty_map

namespace Statement

theorem header_erased (options : DumpOptions) (s : Statement) :
    (s.erased Ty.shown options).header options = s.header options := by
  cases s with
  | noOp loc | action loc a | branch loc condition | loop loc condition =>
    simp only [header, erased, name, detail, Statement.loc, Action.name_map,
      Action.detail_map Expr.text_erased, Expr.text_erased, DumpOptions.span_shown]
  | compound block =>
    simp only [header, erased, name, detail, Statement.loc, Block.erased_eq,
      DumpOptions.span_shown]

end Statement

theorem Block.rows_erased {options : DumpOptions} {b : Block}
    (h : ∀ s ∈ b.statements, ∀ depth,
      (s.erased Ty.shown options).rows options depth = s.rows options depth)
    (loc : Location) (depth : Nat) :
    (b.erased Ty.shown options loc).rows options depth = b.rows options depth := by
  rw [Block.rows_eq, Block.rows_eq, Block.erased_eq, List.flatMap_map]
  exact List.flatMap_congr fun s hs => h s hs depth

namespace Statement

theorem rows_erased (options : DumpOptions) (depth : Nat) (s : Statement) :
    (s.erased Ty.shown options).rows options depth = s.rows options depth := by
  induction s using treeInduction generalizing depth with
  | noOp loc =>
    exact congrArg (fun text => [(depth, text)]) ((noOp loc).header_erased options)
  | action loc a =>
    exact congrArg (fun text => [(depth, text)]) ((action loc a).header_erased options)
  | compound block ih =>
    have hheader := (compound block).header_erased options
    have hblock := Block.rows_erased fun s hs d => ih s hs d
    rw [erased] at hheader ⊢
    rw [rows, rows, hheader, hblock]
  | branch loc condition thenBlock elseBlock iht ihe =>
    have hheader := (branch loc condition thenBlock elseBlock).header_erased options
    have hthen := Block.rows_erased fun s hs d => iht s hs d
    have helse := Block.rows_erased fun s hs d => ihe s hs d
    rw [erased] at hheader ⊢
    rw [rows, rows, hheader, hthen, helse, Block.isEmpty_erased]
  | loop loc condition body ih =>
    have hheader := (loop loc condition body).header_erased options
    have hbody := Block.rows_erased fun s hs d => ih s hs d
    rw [erased] at hheader ⊢
    rw [rows, rows, hheader, hbody]

theorem dump_erased (options : DumpOptions) (s : Statement) :
    (s.erased Ty.shown options).dump options = s.dump options := by
  rw [dump_eq, dump_eq, rows_erased]

/-- Two statements have the same dump if and only if they are equal but for what the dump hides:
without spans, all locations; with spans, only those of expressions and of the blocks of branches
and loops. With and without spans, the types of default values are compared as they are written. -/
theorem dump_faithful (options : DumpOptions) {a b : Statement} (ha : a.WellNamed)
    (hb : b.WellNamed) :
    a.dump options = b.dump options ↔ a.erased Ty.shown options = b.erased Ty.shown options := by
  constructor
  · exact ha.erased_eq_of_dump_eq hb
  · intro h
    rw [← dump_erased options a, ← dump_erased options b, h]

/-- A guarded reply. The first argument places the reply, and the second the condition. -/
def guardedReply (reply condition : Location) (type : Ty) : Statement :=
  let value := Expr.defaultOf reply type
  .branch ⟨0, 0, 50, by decide⟩ (.call condition "ready" [.this condition, .int condition (-1)])
    ⟨condition, [.action reply (.send (.var reply "m") (.var reply "e") (some value)),
      .action reply (.assert (.bool reply true) "a \"b\"\n")]⟩
    (.empty condition)

/-- The structure of a type and the places of expressions show in no dump, and the place of an
action shows with spans. -/
theorem dump_faithful_guardedReply :
    let a := guardedReply ⟨0, 14, 30, by decide⟩ ⟨0, 3, 9, by decide⟩ (.foreign "Id")
    let b := guardedReply ⟨0, 14, 30, by decide⟩ ⟨0, 4, 9, by decide⟩ (.enum ⟨"Id", []⟩)
    let c := guardedReply ⟨0, 15, 30, by decide⟩ ⟨0, 4, 9, by decide⟩ (.enum ⟨"Id", []⟩)
    (a.WellNamed ∧ b.WellNamed ∧ c.WellNamed) ∧ a.dump ⟨true⟩ = b.dump ⟨true⟩ ∧
      b.dump ⟨false⟩ = c.dump ⟨false⟩ ∧ b.dump ⟨true⟩ ≠ c.dump ⟨true⟩ := by
  intro a b c
  have ha : a.WellNamed := by decide
  have hb : b.WellNamed := by decide
  have hc : c.WellNamed := by decide
  refine ⟨⟨ha, hb, hc⟩, (dump_faithful ⟨true⟩ ha hb).2 (by decide),
    (dump_faithful ⟨false⟩ hb hc).2 (by decide), fun h => ?_⟩
  exact absurd ((dump_faithful ⟨true⟩ hb hc).1 h) (by decide)

/-- Even with spans the dump does not tell types of the same text apart, here an enum and a foreign
type, although all places agree. -/
theorem dump_hides_types :
    let l : Location := ⟨0, 14, 30, by decide⟩
    let a := action l (.print (.defaultOf l (.foreign "Id")))
    let b := action l (.print (.defaultOf l (.enum ⟨"Id", []⟩)))
    (a.Obtainable ∧ b.Obtainable) ∧ (a.WellNamed ∧ b.WellNamed) ∧
      a.dump ⟨true⟩ = b.dump ⟨true⟩ ∧ a.erased id ⟨true⟩ ≠ b.erased id ⟨true⟩ := by
  intro l a b
  have hdump : a.dump ⟨true⟩ = b.dump ⟨true⟩ := by
    rw [← dump_erased ⟨true⟩ a, ← dump_erased ⟨true⟩ b]
    rfl
  exact ⟨⟨.action l _, .action l _⟩, by decide, hdump, by decide⟩

end Statement

end MachineLang
