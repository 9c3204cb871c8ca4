import Mathlib.Data.List.Sort
import MachineLang.Ty.Text
import MachineLang.Ty.Canonical
import MachineLang.Proofs.Ty.Tree

set_option autoImplicit false

namespace MachineLang

theorem Permission.eventSet_eq_iff {p q : Permission} :
    p.eventSet = q.eventSet ↔ ∀ event, event ∈ p.events ↔ event ∈ q.events := by
  constructor
  · intro h event
    rw [← mem_eventSet, h, mem_eventSet]
  · intro h
    refine p.eventSet_pairwise.eq_of_mem_iff q.eventSet_pairwise fun event => ?_
    rw [mem_eventSet, mem_eventSet, h event]

theorem Permission.eventSet_canonical (p : Permission) : p.canonical.eventSet = p.eventSet :=
  eventSet_eq_iff.2 p.mem_eventSet

theorem Permission.isCanonical_iff {p : Permission} :
    p.isCanonical ↔ p.interface = none ∧ p.events.Pairwise (· < ·) := by
  rw [isCanonical, Bool.and_eq_true, Option.isNone_iff_eq_none, increasing_iff]

theorem Permission.isCanonical_canonical (p : Permission) : p.canonical.isCanonical :=
  isCanonical_iff.2 ⟨rfl, p.eventSet_pairwise⟩

theorem Permission.canonical_of_isCanonical {p : Permission} (h : p.isCanonical) :
    p.canonical = p := by
  obtain ⟨hinterface, hevents⟩ := isCanonical_iff.1 h
  have hset : p.eventSet = p.events := p.eventSet_pairwise.eq_of_mem_iff hevents p.mem_eventSet
  rw [canonical, hset, ← hinterface]

theorem Permission.isCanonical_iff_length {p : Permission} :
    p.isCanonical ↔ p.interface = none ∧ p.events.Pairwise (· ≤ ·) ∧
      p.eventSet.length = p.events.length := by
  constructor
  · intro h
    obtain ⟨hinterface, hevents⟩ := isCanonical_iff.1 h
    have hset : p.eventSet = p.events := congrArg Permission.events (canonical_of_isCanonical h)
    exact ⟨hinterface, hevents.imp Std.le_of_lt, congrArg List.length hset⟩
  · rintro ⟨hinterface, hsorted, hlength⟩
    have hsub : p.eventSet ⊆ p.events := fun event => (p.mem_eventSet event).1
    have hnodup : p.eventSet.Nodup := p.eventSet_pairwise.nodup
    have hperm : p.eventSet.Perm p.events :=
      (List.subperm_of_subset hnodup hsub).perm_of_length_le (Nat.le_of_eq hlength.symm)
    refine isCanonical_iff.2 ⟨hinterface, ?_⟩
    exact hsorted.imp₂ (fun _ _ => Std.lt_of_le_of_ne) (hperm.nodup_iff.1 hnodup)

theorem Permission.accepts_iff {p q : Permission} : p.accepts q ↔ p.events ⊆ q.events := by
  rw [accepts, List.all_eq_true]
  exact forall₂_congr fun event _ => q.allows_iff event

namespace Ty

theorem unfold_ne_typedef (t : Ty) (name : String) (target : Ty) :
    t.unfold ≠ typedef name target := by
  fun_induction unfold t with
  | case1 _ _ ih => exact ih
  | case2 t h => exact h name target

section Shapes
variable {t c : Ty}

attribute [local simp] canonicalize

theorem canonicalize_eq_prim {p : Primitive} : t.canonicalize = prim p ↔ t.unfold = prim p := by
  rw [← canonicalize_unfold]
  have h := t.unfold_ne_typedef
  cases hu : t.unfold <;> simp_all

theorem canonicalize_eq_seq :
    t.canonicalize = seq c ↔ ∃ element, t.unfold = seq element ∧ element.canonicalize = c := by
  rw [← canonicalize_unfold]
  have h := t.unfold_ne_typedef
  cases hu : t.unfold <;> simp_all

theorem canonicalize_eq_set :
    t.canonicalize = set c ↔ ∃ element, t.unfold = set element ∧ element.canonicalize = c := by
  rw [← canonicalize_unfold]
  have h := t.unfold_ne_typedef
  cases hu : t.unfold <;> simp_all

theorem canonicalize_eq_map {d : Ty} :
    t.canonicalize = map c d ↔
      ∃ key value, t.unfold = map key value ∧ key.canonicalize = c ∧ value.canonicalize = d := by
  rw [← canonicalize_unfold]
  have h := t.unfold_ne_typedef
  cases hu : t.unfold <;> simp_all

theorem canonicalize_eq_tuple {cs : List Ty} :
    t.canonicalize = tuple cs ↔
      ∃ elements, t.unfold = tuple elements ∧ elements.map canonicalize = cs := by
  rw [← canonicalize_unfold]
  have h := t.unfold_ne_typedef
  cases hu : t.unfold <;> simp_all [canonicalizeAll_eq_map]

theorem canonicalize_eq_named {cs : List (String × Ty)} :
    t.canonicalize = named cs ↔
      ∃ fields, t.unfold = named fields ∧
        (fields.map fun field => (field.1, field.2.canonicalize)) = cs := by
  rw [← canonicalize_unfold]
  have h := t.unfold_ne_typedef
  cases hu : t.unfold <;> simp_all [canonicalizeFields_eq_map]

theorem canonicalize_eq_enum {decl : Enumeration} :
    t.canonicalize = enum decl ↔ t.unfold = enum decl := by
  rw [← canonicalize_unfold]
  have h := t.unfold_ne_typedef
  cases hu : t.unfold <;> simp_all

theorem canonicalize_eq_permission {p : Permission} :
    t.canonicalize = permission p ↔ ∃ q, t.unfold = permission q ∧ q.canonical = p := by
  rw [← canonicalize_unfold]
  have h := t.unfold_ne_typedef
  cases hu : t.unfold <;> simp_all

theorem canonicalize_eq_foreign {name : String} :
    t.canonicalize = foreign name ↔ t.unfold = foreign name := by
  rw [← canonicalize_unfold]
  have h := t.unfold_ne_typedef
  cases hu : t.unfold <;> simp_all

end Shapes

theorem text_canonicalize (spelling : Spelling) (t : Ty) :
    t.canonicalize.text spelling = t.canonicalText := by
  induction t using treeInduction with
  | prim | enum | foreign => rfl
  | typedef name target ih => exact ih
  | seq element ih => exact congrArg seqText ih
  | set element ih => exact congrArg setText ih
  | map key value ihk ihv => exact congrArg₂ mapText ihk ihv
  | tuple elements ih =>
    simp only [canonicalText, canonicalize, canonicalizeAll_eq_map, text, texts_eq_map,
      List.map_map]
    exact congrArg tupleText (List.map_congr_left ih)
  | named fields ih =>
    simp only [canonicalText, canonicalize, canonicalizeFields_eq_map, text, fieldTexts_eq_map,
      List.map_map]
    refine congrArg namedText (List.map_congr_left fun field hfield => ?_)
    exact congrArg (fieldText field.1) (ih field hfield)
  | permission p =>
    cases spelling with
    | written => rfl
    | canonical => exact congrArg eventsText p.eventSet_canonical

theorem canonicalText_canonicalize (t : Ty) : t.canonicalize.canonicalText = t.canonicalText :=
  text_canonicalize .canonical t

theorem isCanonical_canonicalize (t : Ty) : t.canonicalize.isCanonical := by
  induction t using treeInduction with
  | prim | enum | foreign => rfl
  | typedef name target ih => exact ih
  | seq element ih | set element ih => exact ih
  | map key value ihk ihv =>
    rw [canonicalize, isCanonical, Bool.and_eq_true]
    exact ⟨ihk, ihv⟩
  | tuple elements ih =>
    rw [canonicalize, canonicalizeAll_eq_map, isCanonical, allCanonical_eq_all, List.all_map,
      List.all_eq_true]
    exact ih
  | named fields ih =>
    rw [canonicalize, canonicalizeFields_eq_map, isCanonical, fieldsCanonical_eq_all, List.all_map,
      List.all_eq_true]
    exact ih
  | permission p => exact p.isCanonical_canonical

theorem canonicalize_of_isCanonical {t : Ty} (h : t.isCanonical) : t.canonicalize = t := by
  induction t using treeInduction with
  | prim | enum | foreign => rfl
  | typedef => cases h
  | seq element ih => exact congrArg seq (ih h)
  | set element ih => exact congrArg set (ih h)
  | map key value ihk ihv =>
    rw [isCanonical, Bool.and_eq_true] at h
    exact congrArg₂ map (ihk h.1) (ihv h.2)
  | tuple elements ih =>
    rw [isCanonical, allCanonical_eq_all, List.all_eq_true] at h
    rw [canonicalize, canonicalizeAll_eq_map, List.map_congr_left fun t ht => ih t ht (h t ht),
      List.map_id']
  | named fields ih =>
    rw [isCanonical, fieldsCanonical_eq_all, List.all_eq_true] at h
    have hfields : ∀ field ∈ fields, (field.1, field.2.canonicalize) = field :=
      fun field hfield => Prod.ext rfl (ih field hfield (h field hfield))
    rw [canonicalize, canonicalizeFields_eq_map, List.map_congr_left hfields, List.map_id']
  | permission p => exact congrArg permission (Permission.canonical_of_isCanonical h)

theorem canonicalize_canonicalize (t : Ty) : t.canonicalize.canonicalize = t.canonicalize :=
  canonicalize_of_isCanonical t.isCanonical_canonicalize

/-- The text in canonical spelling, which is made without the canonical tree, is the text of this
    tree in either spelling. -/
theorem canonicalText_of_tree (t : Ty) :
    t.canonicalText = t.canonicalize.writtenText ∧
    t.canonicalize.writtenText = t.canonicalize.canonicalText := by
  have hwritten := text_canonicalize .written t
  exact ⟨hwritten.symm, hwritten.trans (text_canonicalize .canonical t).symm⟩

/-- The test for being canonical, which looks at a permission for the order of its events and counts
    them, tells exactly those types that canonicalizing leaves alone; it does so with all its own
    results. -/
theorem isCanonical_iff_fixed (t : Ty) :
    t.canonicalize.isCanonical ∧ (t.isCanonical ↔ t.canonicalize = t) ∧
    t.canonicalize.canonicalize = t.canonicalize ∧
    ∀ p, (permission p).isCanonical ↔ p.interface = none ∧ p.events.Pairwise (· ≤ ·) ∧
      p.eventSet.length = p.events.length := by
  refine ⟨t.isCanonical_canonicalize, ⟨canonicalize_of_isCanonical, fun h => ?_⟩,
    t.canonicalize_canonicalize, fun p => Permission.isCanonical_iff_length⟩
  rw [← h]
  exact t.isCanonical_canonicalize

end Ty
end MachineLang
