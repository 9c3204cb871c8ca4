import MachineLang.Proofs.Ty.Table
import MachineLang.Proofs.Ty.Reading
import MachineLang.Proofs.Ty.Assignable
import MachineLang.Proofs.Resolver.History

set_option autoImplicit false

namespace MachineLang.Resolver

/-- The type was given by some resolver over the scope, or is a part of such a type. -/
inductive Resolved (scope : Scope) : Ty → Prop
  | expr {settings : Settings} {calls : List Call} {e : TypeExpr} {t : Ty}
    (h : (((fresh ⟨scope, settings⟩).after calls).resolve e).1 = .ok t) : Resolved scope t
  | typedef {settings : Settings} {calls : List Call} {typedefs : List (String × Ty)}
    {name : String} {t : Ty}
    (h : ((fresh ⟨scope, settings⟩).after calls).resolveTypedefs.1 = .ok typedefs)
    (ht : (name, t) ∈ typedefs) : Resolved scope (.typedef name t)
  | part {s t : Ty} (h : Resolved scope t) (hs : s ∈ t.parts) : Resolved scope s

theorem Resolved.coherent {scope : Scope} {t : Ty} (h : Resolved scope t) : scope.Coherent t := by
  induction h with
  | expr h => exact (resolve_eq_ok_iff.1 h).stands.coherent
  | typedef h ht =>
    obtain ⟨hname, hanswer⟩ := resolveTypedefs_answers h ht
    exact (hanswer.stands.typedef hname).coherent
  | part _ hs ih => exact ih.part hs

/-- A resolved type in which all names that a canonical text shows are identifiers. -/
structure Named (scope : Scope) (t : Ty) : Prop where
  resolved : Resolved scope t
  plain : t.PlainNames

theorem Named.legible {scope : Scope} {t : Ty} (h : Named scope t) : t.Legible scope :=
  ⟨h.resolved.coherent, h.plain⟩

/-- Canonical texts tell the types of a scope apart exactly where canonical trees do. -/
theorem sameType_iff_canonicalize_eq {scope : Scope} {a b : Ty} (ha : Named scope a)
    (hb : Named scope b) : a.sameType b ↔ a.canonicalize = b.canonicalize :=
  Ty.sameType_iff_of_legible ha.legible hb.legible

def boardScope : Scope where
  types := [("Color", .enum [⟨"RED", 0⟩]), ("Cell", .typedef (.tuple [.name "int", .name "Color"]))]
  events := ["eStop"]
  names_nodup := by decide
  names_free := by decide
  events_nodup := by decide

def cell : Ty := .tuple [.prim .int, .enum ⟨"Color", [⟨"RED", 0⟩]⟩]

def cellRow : Ty :=
  let name := "Cell"
  .seq (.typedef name cell)

def pairRow : Ty := .seq cell

theorem named_cellRow : Named boardScope cellRow where
  resolved := @Resolved.expr boardScope {} [.resolveTypedefs] (.seq (.name "Cell")) _ (by rfl)
  plain := by
    simp [cellRow, cell, Ty.PlainNames, Ty.Everywhere, Ty.nodes, Ty.nodesAll, Ty.labels, Plain,
      marks]

theorem named_pairRow : Named boardScope pairRow where
  resolved := @Resolved.expr boardScope ⟨none, false⟩ []
    (.seq (.tuple [.name "int", .name "Color"])) _ (by rfl)
  plain := by
    simp [pairRow, cell, Ty.PlainNames, Ty.Everywhere, Ty.nodes, Ty.nodesAll, Ty.labels, Plain,
      marks]

theorem sameType_cellRow :
    Named boardScope cellRow ∧ Named boardScope pairRow ∧ cellRow.sameType pairRow ∧
      cellRow.canonicalize = pairRow.canonicalize :=
  have hsame : cellRow.sameType pairRow := by decide
  ⟨named_cellRow, named_pairRow, hsame,
    (sameType_iff_canonicalize_eq named_cellRow named_pairRow).1 hsame⟩

theorem legible_prim (scope : Scope) (p : Primitive) : (Ty.prim p).Legible scope := by
  constructor
  · intro u hu
    rw [List.mem_singleton.1 hu]
    trivial
  · intro u hu
    rw [List.mem_singleton.1 hu]
    simp [Ty.labels]

/-- In a table with types of one scope, an id is the identity of a type: it leads back to the
    canonical tree, now and later, it is shared by the types that accept each other, and it is that
    of a keyword type for this type alone. -/
theorem intern_identifies {scope : Scope} {before between : List Ty} {a b : Ty}
    (hbefore : ∀ t ∈ before, Named scope t) (ha : Named scope a)
    (hbetween : ∀ t ∈ between, Named scope t) (hb : Named scope b) :
    let first := (TypeTable.builtin.internAll before).intern a
    let second := (first.2.internAll between).intern b
    first.2.get? first.1 = some a.canonicalize ∧
    second.2.get? first.1 = some a.canonicalize ∧
    (first.1 = second.1 ↔ a.accepts b ∧ b.accepts a) ∧
    (∀ p : Primitive, first.1 = p.id ↔ a.unfold = .prim p) ∧
    (first.1.isBuiltin ↔ ∃ p, a.unfold = .prim p) := by
  intro first second
  have hstart : (TypeTable.builtin.internAll before).Holds (Ty.Legible scope) :=
    (TypeTable.holds_builtin (legible_prim scope)).internAll fun t ht => (hbefore t ht).legible
  have hfirst : first.2.Holds (Ty.Legible scope) := hstart.intern ha.legible
  have hname : first.2.name? first.1 = some a.canonicalText := TypeTable.name?_intern _ a
  have hget : first.2.get? first.1 = some a.canonicalize := by
    obtain ⟨u, hu, htext, hget⟩ := hfirst.get?_of_name? hname
    rwa [(Ty.sameType_iff_of_legible hu ha.legible).1 (beq_iff_eq.2 htext)] at hget
  have hgrown : first.2.entries <+: second.2.entries :=
    (first.2.internAll_grows between).trans ((first.2.internAll between).intern_grows b)
  have hkeyword : ∀ p : Primitive, first.1 = p.id ↔ a.unfold = .prim p := by
    intro p
    rw [hfirst.id_eq_iff hname (hfirst.name?_id p), ← Ty.canonicalize_eq_prim]
    have hsame := Ty.sameType_iff_of_legible ha.legible (legible_prim scope p)
    rw [Ty.sameType, beq_iff_eq] at hsame
    exact hsame
  refine ⟨hget, TypeTable.get?_mono hgrown hget, ?_, hkeyword, ?_⟩
  · rw [hstart.intern_eq_iff ha.legible hb.legible fun t ht => (hbetween t ht).legible,
      Ty.sameType_iff_of_legible ha.legible hb.legible]
    constructor
    · intro h
      exact ⟨Ty.accepts_of_canonicalize_eq h, Ty.accepts_of_canonicalize_eq h.symm⟩
    · rintro ⟨hab, hba⟩
      exact Ty.canonicalize_eq_of_accepts hab hba
  · rw [TypeTable.isBuiltin_iff]
    exact exists_congr hkeyword

theorem intern_cellRow :
    (∀ t ∈ [cell], Named boardScope t) ∧ Named boardScope cellRow ∧ Named boardScope pairRow ∧
      let first := (TypeTable.builtin.internAll [cell]).intern cellRow
      let second := (first.2.internAll [cell]).intern pairRow
      first.1 = second.1 ∧ first.2.get? first.1 = some pairRow ∧ ¬ first.1.isBuiltin := by
  have hcell : ∀ t ∈ [cell], Named boardScope t := by
    intro t ht
    have hpart : t ∈ pairRow.parts := ht
    exact ⟨named_pairRow.resolved.part hpart, named_pairRow.plain.part hpart⟩
  have h := intern_identifies hcell named_cellRow hcell named_pairRow
  refine ⟨hcell, named_cellRow, named_pairRow, h.2.2.1.2 (by decide), h.1, fun hbuiltin => ?_⟩
  obtain ⟨p, hp⟩ := h.2.2.2.2.1 hbuiltin
  cases hp

end MachineLang.Resolver
