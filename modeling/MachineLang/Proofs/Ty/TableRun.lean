import Mathlib.Data.Finset.Card
import MachineLang.Proofs.Ty.Table

set_option autoImplicit false

namespace MachineLang.TypeTable

inductive Call where
  | intern (t : Ty)
  | lookup (t : Ty)

def Call.type : Call → Ty
  | intern t | lookup t => t

def call (table : TypeTable) : Call → Option TypeId × TypeTable
  | .intern t => (some (table.intern t).1, (table.intern t).2)
  | .lookup t => (table.lookup t, table)

def after (table : TypeTable) (calls : List Call) : TypeTable :=
  calls.foldl (fun table c => (table.call c).2) table

def answers (table : TypeTable) : List Call → List (Option TypeId)
  | [] => []
  | c :: calls => (table.call c).1 :: (table.call c).2.answers calls

/-- The types that the calls intern, in order. -/
def interned (calls : List Call) : List Ty :=
  calls.filterMap fun
    | .intern t => some t
    | .lookup _ => none

theorem after_eq_internAll (table : TypeTable) (calls : List Call) :
    table.after calls = table.internAll (interned calls) := by
  induction calls generalizing table with
  | nil => rfl
  | cons c calls ih =>
    cases c with
    | intern t => exact ih (table.intern t).2
    | lookup t => exact ih table

theorem after_grows (table : TypeTable) (calls : List Call) :
    table.entries <+: (table.after calls).entries := by
  rw [after_eq_internAll]
  exact table.internAll_grows _

theorem name?_call {table : TypeTable} {c : Call} {id : TypeId} (h : (table.call c).1 = some id) :
    (table.call c).2.name? id = some c.type.canonicalText := by
  cases c with
  | intern t =>
    cases h
    exact table.name?_intern t
  | lookup t => exact name?_of_lookup h

theorem name?_answers {table : TypeTable} {calls : List Call} {i : Nat} {c : Call} {id : TypeId}
    (hc : calls[i]? = some c) (h : (table.answers calls)[i]? = some (some id)) :
    (table.after calls).name? id = some c.type.canonicalText := by
  induction calls generalizing table i with
  | nil => cases hc
  | cons first calls ih =>
    cases i with
    | zero =>
      cases hc
      have hname := name?_call (Option.some.inj h)
      exact name?_mono ((table.call c).2.after_grows calls) hname
    | succ i => exact ih hc h

theorem answers_intern {table : TypeTable} {calls : List Call} {i : Nat} {t : Ty}
    (h : calls[i]? = some (.intern t)) : ∃ id, (table.answers calls)[i]? = some (some id) := by
  induction calls generalizing table i with
  | nil => cases h
  | cons first calls ih =>
    cases i with
    | zero =>
      cases h
      exact ⟨(table.intern t).1, rfl⟩
    | succ i => exact ih h

section Keys
variable {table : TypeTable} {key : String}

theorem lookup_isSome_iff {t : Ty} :
    (table.lookup t).isSome ↔ t.canonicalText ∈ table.entries.map Prod.fst := by
  constructor
  · intro h
    obtain ⟨id, hid⟩ := Option.isSome_iff_exists.1 h
    obtain ⟨entry, hentry, htext⟩ := Option.map_eq_some_iff.1 (name?_of_lookup hid)
    exact htext ▸ List.mem_map_of_mem (List.mem_of_getElem? hentry)
  · intro h
    rw [Option.isSome_iff_ne_none]
    exact fun hnone => lookup_eq_none hnone h

theorem mem_keys_intern {t : Ty} :
    key ∈ (table.intern t).2.entries.map Prod.fst ↔
      key ∈ table.entries.map Prod.fst ∨ key = t.canonicalText := by
  cases h : table.lookup t with
  | some id =>
    have hkey : t.canonicalText ∈ table.entries.map Prod.fst := by simp [← lookup_isSome_iff, h]
    rw [intern_of_lookup h]
    exact (or_iff_left_of_imp fun heq => heq ▸ hkey).symm
  | none =>
    rw [intern_of_not_lookup h, List.map_append, List.mem_append]
    simp

theorem mem_keys_internAll {ts : List Ty} :
    key ∈ (table.internAll ts).entries.map Prod.fst ↔
      key ∈ table.entries.map Prod.fst ∨ key ∈ ts.map Ty.canonicalText := by
  induction ts generalizing table with
  | nil => simp [internAll]
  | cons t ts ih =>
    rw [List.map_cons, List.mem_cons, ← or_assoc, ← mem_keys_intern]
    exact ih

end Keys

/-- The types that have entries after the calls. -/
def recorded (calls : List Call) : List Ty := Primitive.all.map .prim ++ interned calls

theorem mem_keys_after {calls : List Call} {key : String} :
    key ∈ (builtin.after calls).entries.map Prod.fst ↔
      key ∈ (recorded calls).map Ty.canonicalText := by
  rw [after_eq_internAll, mem_keys_internAll, builtin, mem_keys_internAll, recorded,
    List.map_append, List.mem_append]
  simp [empty]

theorem holds_after (calls : List Call) : (builtin.after calls).Holds (· ∈ recorded calls) := by
  have hkeyword : ∀ p : Primitive, .prim p ∈ recorded calls := fun p =>
    List.mem_append_left _ (List.mem_map_of_mem p.mem_all)
  rw [after_eq_internAll]
  exact (holds_builtin hkeyword).internAll fun t ht => List.mem_append_right _ ht

theorem answers_agree {calls : List Call} {i j : Nat} {a b : Ty}
    (ha : calls[i]? = some (.intern a)) (hb : calls[j]? = some (.intern b))
    (h : a.canonicalText = b.canonicalText) :
    ∃ id, (builtin.answers calls)[i]? = some (some id) ∧
      (builtin.answers calls)[j]? = some (some id) := by
  obtain ⟨id, hid⟩ : ∃ id, (builtin.answers calls)[i]? = some (some id) := answers_intern ha
  obtain ⟨id', hid'⟩ : ∃ id, (builtin.answers calls)[j]? = some (some id) := answers_intern hb
  obtain rfl : id = id' :=
    ((holds_after calls).id_eq_iff (name?_answers ha hid) (name?_answers hb hid')).2 h
  exact ⟨id, hid, hid'⟩

theorem size_after (calls : List Call) :
    (builtin.after calls).size = ((recorded calls).map Ty.canonicalText).toFinset.card := by
  have hkeys : ((builtin.after calls).entries.map Prod.fst).toFinset =
      ((recorded calls).map Ty.canonicalText).toFinset := by
    ext key
    rw [List.mem_toFinset, List.mem_toFinset, mem_keys_after]
  rw [← hkeys, List.toFinset_card_of_nodup (holds_after calls).nodup, List.length_map, size]

/-- What a table holds that has been through the calls since it held the keyword types only. -/
structure Records (calls : List Call) (table : TypeTable) : Prop where
  keywords : table.entries.take 9 = Primitive.all.map fun p => (p.keyword, .prim p)
  canonical : ∀ key t, (key, t) ∈ table.entries → key = t.canonicalText ∧ t.isCanonical
  nodup : (table.entries.map Prod.fst).Nodup
  size : table.size = ((recorded calls).map Ty.canonicalText).toFinset.card
  found : ∀ t, (table.lookup t).isSome ↔ ∃ u ∈ recorded calls, t.sameType u
  named : ∀ t id, table.lookup t = some id → table.name? id = some t.canonicalText

theorem records_after (calls : List Call) : Records calls (builtin.after calls) where
  keywords := by
    have h := List.prefix_iff_eq_take.1 (holds_after calls).builtin
    rw [entries_builtin] at h
    exact h.symm
  canonical := by
    intro key t hmem
    obtain ⟨u, -, rfl, rfl⟩ := (holds_after calls).shown key t hmem
    exact ⟨u.canonicalText_canonicalize.symm, u.isCanonical_canonicalize⟩
  nodup := (holds_after calls).nodup
  size := size_after calls
  found := by
    intro t
    rw [lookup_isSome_iff, mem_keys_after, List.mem_map]
    refine exists_congr fun u => and_congr_right fun _ => ?_
    rw [Ty.sameType, beq_iff_eq, eq_comm]
  named := fun _ _ h => name?_of_lookup h

/-- A table after any calls, and whatever is called later. Interning answers from the entry of the
    text or else appends one, an entry keeps its id, and calls that intern are answered with one id
    exactly if they intern types of one text. -/
theorem run_invariant (calls later : List Call) :
    let table := builtin.after calls
    Records calls table ∧
    (∀ t id, table.lookup t = some id → table.intern t = (id, table)) ∧
    (∀ t, table.lookup t = none →
      table.intern t =
        (⟨table.size⟩, ⟨table.entries ++ [(t.canonicalText, t.canonicalize)]⟩)) ∧
    table.entries <+: (table.after later).entries ∧
    (∀ (i : Nat) (c : Call) (id : TypeId),
      calls[i]? = some c → (builtin.answers calls)[i]? = some (some id) →
      (table.after later).name? id = some c.type.canonicalText ∧
      ∃ t, table.get? id = some t ∧ (table.after later).get? id = some t) ∧
    ∀ (i j : Nat) (a b : Ty), calls[i]? = some (.intern a) → calls[j]? = some (.intern b) →
      ∃ id id', (builtin.answers calls)[i]? = some (some id) ∧
        (builtin.answers calls)[j]? = some (some id') ∧ (id = id' ↔ a.sameType b) := by
  intro table
  have hgrown : table.entries <+: (table.after later).entries := table.after_grows later
  have hheld : table.Holds (· ∈ recorded calls) := holds_after calls
  refine ⟨records_after calls, fun t id => intern_of_lookup, fun t => intern_of_not_lookup, hgrown,
    ?_, ?_⟩
  · intro i c id hc hid
    have hname : table.name? id = some c.type.canonicalText := name?_answers hc hid
    obtain ⟨u, -, -, hget⟩ := hheld.get?_of_name? hname
    exact ⟨name?_mono hgrown hname, u.canonicalize, hget, get?_mono hgrown hget⟩
  · intro i j a b ha hb
    obtain ⟨id, hid⟩ : ∃ id, (builtin.answers calls)[i]? = some (some id) := answers_intern ha
    obtain ⟨id', hid'⟩ : ∃ id, (builtin.answers calls)[j]? = some (some id) := answers_intern hb
    refine ⟨id, id', hid, hid', ?_⟩
    rw [Ty.sameType, beq_iff_eq]
    exact hheld.id_eq_iff (name?_answers ha hid) (name?_answers hb hid')

theorem run_invariant_keyword_name :
    let unit : Ty := .enum ⟨"int", [⟨"ONE", 1⟩]⟩
    let row := "Row"
    let calls : List Call :=
      [.lookup (.seq unit), .intern unit, .intern (.typedef row (.seq unit)),
        .intern (.seq (.prim .int))]
    let later : List Call := [.intern (.set unit), .lookup unit]
    let table := builtin.after calls
    builtin.answers calls = [none, some Primitive.int.id, some ⟨9⟩, some ⟨9⟩] ∧
    (table.after later).name? ⟨9⟩ = some "seq[int]" ∧
    (table.after later).get? ⟨9⟩ = table.get? ⟨9⟩ ∧
    (Ty.seq unit).sameType (.seq (.prim .int)) ∧
    table.lookup (.seq (.prim .int)) ≠ none := by
  intro unit row calls later table
  have hanswers : builtin.answers calls = [none, some Primitive.int.id, some ⟨9⟩, some ⟨9⟩] := by
    decide
  obtain ⟨hrecords, -, -, -, hkept, hsame⟩ := run_invariant calls later
  obtain ⟨hname, t, hget, hlater⟩ := hkept 2 _ ⟨9⟩ rfl (by rw [hanswers]; rfl)
  obtain ⟨id, id', hid, hid', hiff⟩ := hsame 2 3 _ _ rfl rfl
  have hids : id = id' := by
    rw [hanswers] at hid hid'
    cases hid
    cases hid'
    rfl
  have hrecorded : .seq (.prim .int) ∈ recorded calls := by simp [recorded, interned, calls]
  have hfound := (hrecords.found (.seq (.prim .int))).2 ⟨_, hrecorded, by decide⟩
  exact ⟨hanswers, hname, hlater.trans hget.symm, hiff.1 hids, Option.isSome_iff_ne_none.1 hfound⟩

end MachineLang.TypeTable
