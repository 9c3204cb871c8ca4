import Mathlib.Data.List.Infix
import MachineLang.Ty.Table
import MachineLang.Proofs.Ty.Canonical

set_option autoImplicit false

namespace MachineLang.TypeTable

/-- The table holds the keyword types, and besides only types with the property. -/
structure Holds (P : Ty → Prop) (table : TypeTable) : Prop where
  shown : ∀ key t, (key, t) ∈ table.entries →
    ∃ u, P u ∧ key = u.canonicalText ∧ t = u.canonicalize
  nodup : (table.entries.map Prod.fst).Nodup
  builtin : builtin.entries <+: table.entries

theorem holds_builtin {P : Ty → Prop} (hprim : ∀ p, P (.prim p)) : builtin.Holds P where
  shown := by
    intro key t hmem
    rw [entries_builtin] at hmem
    obtain ⟨p, -, heq⟩ := List.mem_map.1 hmem
    cases heq
    exact ⟨.prim p, hprim p, rfl, rfl⟩
  nodup := by decide
  builtin := List.prefix_rfl

theorem lookup_eq_none {table : TypeTable} {t : Ty} (h : table.lookup t = none) :
    t.canonicalText ∉ table.entries.map Prod.fst := by
  rw [lookup, Option.map_eq_none_iff, List.findIdx?_eq_none_iff] at h
  intro hmem
  obtain ⟨entry, hentry, hkey⟩ := List.mem_map.1 hmem
  have hne := h entry hentry
  rw [beq_eq_false_iff_ne] at hne
  exact hne hkey

theorem name?_of_lookup {table : TypeTable} {t : Ty} {id : TypeId} (h : table.lookup t = some id) :
    table.name? id = some t.canonicalText := by
  obtain ⟨i, hi, rfl⟩ := Option.map_eq_some_iff.1 h
  obtain ⟨hlt, hkey, -⟩ := List.findIdx?_eq_some_iff_getElem.1 hi
  rw [name?, List.getElem?_eq_getElem hlt]
  exact congrArg some (beq_iff_eq.1 hkey)

theorem intern_grows (table : TypeTable) (t : Ty) :
    table.entries <+: (table.intern t).2.entries := by
  cases h : table.lookup t with
  | some id => rw [intern_of_lookup h]
  | none =>
    rw [intern_of_not_lookup h]
    exact List.prefix_append _ _

theorem name?_intern (table : TypeTable) (t : Ty) :
    (table.intern t).2.name? (table.intern t).1 = some t.canonicalText := by
  cases h : table.lookup t with
  | some id =>
    rw [intern_of_lookup h]
    exact name?_of_lookup h
  | none =>
    rw [intern_of_not_lookup h, name?, size]
    simp

theorem Holds.intern {P : Ty → Prop} {table : TypeTable} {t : Ty} (h : table.Holds P) (ht : P t) :
    (table.intern t).2.Holds P := by
  cases hlookup : table.lookup t with
  | some id =>
    rw [intern_of_lookup hlookup]
    exact h
  | none =>
    rw [intern_of_not_lookup hlookup]
    constructor
    case shown =>
      intro key u hmem
      rcases List.mem_append.1 hmem with hmem | hmem
      · exact h.shown key u hmem
      · cases List.mem_singleton.1 hmem
        exact ⟨t, ht, rfl, rfl⟩
    case nodup =>
      rw [List.map_append, List.nodup_append]
      refine ⟨h.nodup, by simp, fun key hkey other hother heq => ?_⟩
      rw [List.map_singleton, List.mem_singleton] at hother
      have hkey' : t.canonicalText ∈ table.entries.map Prod.fst := by rwa [heq, hother] at hkey
      exact lookup_eq_none hlookup hkey'
    case builtin => exact h.builtin.trans (List.prefix_append _ _)

theorem internAll_grows (table : TypeTable) (ts : List Ty) :
    table.entries <+: (table.internAll ts).entries := by
  induction ts generalizing table with
  | nil => exact List.prefix_rfl
  | cons t ts ih => exact (table.intern_grows t).trans (ih (table.intern t).2)

theorem Holds.internAll {P : Ty → Prop} {table : TypeTable} {ts : List Ty} (h : table.Holds P)
    (hts : ∀ t ∈ ts, P t) : (table.internAll ts).Holds P := by
  induction ts generalizing table with
  | nil => exact h
  | cons t ts ih =>
    obtain ⟨ht, hts⟩ := List.forall_mem_cons.1 hts
    exact ih (h.intern ht) hts

theorem getElem?_of_prefix {table later : TypeTable} (h : table.entries <+: later.entries)
    {i : Nat} {entry : String × Ty} (hi : table.entries[i]? = some entry) :
    later.entries[i]? = some entry := by
  obtain ⟨rest, hrest⟩ := h
  obtain ⟨hlt, -⟩ := List.getElem?_eq_some_iff.1 hi
  rw [← hrest, List.getElem?_append_left hlt, hi]

theorem name?_mono {table later : TypeTable} (h : table.entries <+: later.entries) {id : TypeId}
    {name : String} (hname : table.name? id = some name) : later.name? id = some name := by
  obtain ⟨entry, hentry, rfl⟩ := Option.map_eq_some_iff.1 hname
  exact Option.map_eq_some_iff.2 ⟨entry, getElem?_of_prefix h hentry, rfl⟩

theorem get?_mono {table later : TypeTable} (h : table.entries <+: later.entries) {id : TypeId}
    {t : Ty} (hget : table.get? id = some t) : later.get? id = some t := by
  obtain ⟨entry, hentry, rfl⟩ := Option.map_eq_some_iff.1 hget
  exact Option.map_eq_some_iff.2 ⟨entry, getElem?_of_prefix h hentry, rfl⟩

theorem Holds.id_eq_iff {P : Ty → Prop} {table : TypeTable} (h : table.Holds P) {id id' : TypeId}
    {name name' : String} (hid : table.name? id = some name) (hid' : table.name? id' = some name') :
    id = id' ↔ name = name' := by
  constructor
  · rintro rfl
    exact Option.some.inj (hid.symm.trans hid')
  · rintro rfl
    rw [name?, ← List.getElem?_map] at hid hid'
    obtain ⟨hlt, -⟩ := List.getElem?_eq_some_iff.1 hid
    have hindex := (List.getElem?_inj hlt h.nodup).1 (hid.trans hid'.symm)
    cases id
    cases id'
    exact congrArg TypeId.mk hindex

theorem Holds.get?_of_name? {P : Ty → Prop} {table : TypeTable} (h : table.Holds P) {id : TypeId}
    {name : String} (hname : table.name? id = some name) :
    ∃ u, P u ∧ u.canonicalText = name ∧ table.get? id = some u.canonicalize := by
  obtain ⟨⟨key, t⟩, hentry, rfl⟩ := Option.map_eq_some_iff.1 hname
  obtain ⟨u, hu, hkey, htree⟩ := h.shown key t (List.mem_of_getElem? hentry)
  refine ⟨u, hu, hkey.symm, ?_⟩
  rw [get?, hentry, ← htree]
  rfl

theorem Holds.name?_id {P : Ty → Prop} {table : TypeTable} (h : table.Holds P) (p : Primitive) :
    table.name? p.id = some p.keyword := by
  refine name?_mono h.builtin ?_
  cases p <;> rfl

theorem isBuiltin_iff (id : TypeId) : id.isBuiltin ↔ ∃ p : Primitive, id = p.id := by
  constructor
  · intro h
    have hlt : id.index < Primitive.all.length := of_decide_eq_true h
    have hindex : ∀ i < Primitive.all.length, ∃ p : Primitive, p.index = i := by
      intro i hi
      exact ⟨Primitive.all[i], by decide +revert⟩
    obtain ⟨p, hp⟩ := hindex id.index hlt
    exact ⟨p, by cases id; exact congrArg TypeId.mk hp.symm⟩
  · rintro ⟨p, rfl⟩
    cases p <;> rfl

/-- At any two points of a run, types get one id exactly if they have one text. -/
theorem Holds.intern_eq_iff {P : Ty → Prop} {table : TypeTable} (h : table.Holds P)
    {s t : Ty} (hs : P s) (ht : P t) {between : List Ty} (hbetween : ∀ u ∈ between, P u) :
    (table.intern s).1 = (((table.intern s).2.internAll between).intern t).1 ↔ s.sameType t := by
  have hlater := (h.intern hs).internAll hbetween
  have hname := name?_mono (intern_grows ((table.intern s).2.internAll between) t)
    (name?_mono (internAll_grows (table.intern s).2 between) (table.name?_intern s))
  have hname' := name?_intern ((table.intern s).2.internAll between) t
  rw [Ty.sameType, beq_iff_eq]
  exact (hlater.intern ht).id_eq_iff hname hname'

end MachineLang.TypeTable
