import MachineLang.Proofs.Ty.Clash
import MachineLang.Proofs.Ty.Context

set_option autoImplicit false

namespace MachineLang.Ty

inductive Lenient : Ty → Prop
  | any : Lenient (prim .any)
  | data : Lenient (prim .data)
  | event : Lenient (prim .event)
  | machine : Lenient (prim .machine)
  | permission (p : Permission) : Lenient (permission p)

theorem Lenient.accepts_null {t : Ty} (h : t.Lenient) : t.accepts (prim .null) := by
  cases h <;> rfl

theorem Lenient.canonicalize_ne_null {t : Ty} (h : t.Lenient) : t.canonicalize ≠ prim .null := by
  cases h <;> simp [canonicalize]

/-- A type in which no lenient type occurs, typedef targets included. -/
def Rigid (t : Ty) : Prop := Everywhere (¬ Lenient ·) t

theorem shape_eq_and_parts_of_accepts {s t : Ty} (hs : ¬ s.unfold.Lenient) (h : s.accepts t) :
    s.shape = t.shape ∧
      List.Forall₂ (fun u v => u.accepts v) s.unfold.parts t.unfold.parts := by
  rw [← unfold_accepts] at h
  rw [← s.shape_unfold, ← t.shape_unfold]
  have hne := s.unfold_ne_typedef
  cases hu : s.unfold with
  | typedef name target => exact absurd hu (hne name target)
  | permission p => exact absurd (.permission p) (hu ▸ hs)
  | prim p =>
    rw [hu] at h hs
    cases prim_accepts.1 h with
    | anything => exact absurd .any hs
    | data => exact absurd .data hs
    | reference => exact absurd .machine hs
    | null hp =>
      rcases hp with rfl | rfl
      · exact absurd .event hs
      · exact absurd .machine hs
    | itself ht =>
      rw [ht]
      exact ⟨rfl, .nil⟩
  | enum decl =>
    rw [hu] at h
    rw [enum_accepts.1 h]
    exact ⟨rfl, .nil⟩
  | foreign name =>
    rw [hu] at h
    rw [foreign_accepts.1 h]
    exact ⟨rfl, .nil⟩
  | seq element =>
    obtain ⟨other, ht, hother⟩ := seq_accepts.1 (hu ▸ h)
    rw [ht]
    exact ⟨rfl, .cons hother .nil⟩
  | set element =>
    obtain ⟨other, ht, hother⟩ := set_accepts.1 (hu ▸ h)
    rw [ht]
    exact ⟨rfl, .cons hother .nil⟩
  | map key value =>
    obtain ⟨k, v, ht, hk, hv⟩ := map_accepts.1 (hu ▸ h)
    rw [ht]
    exact ⟨rfl, .cons hk (.cons hv .nil)⟩
  | tuple elements =>
    obtain ⟨others, ht, hothers⟩ := tuple_accepts.1 (hu ▸ h)
    rw [ht]
    exact ⟨congrArg Shape.tuple hothers.length_eq, hothers⟩
  | named fields =>
    obtain ⟨others, ht, hothers⟩ := named_accepts.1 (hu ▸ h)
    rw [ht]
    have hnames : List.Forall₂ (· = ·) (fields.map Prod.fst) (others.map Prod.fst) := by
      rw [List.forall₂_map_left_iff, List.forall₂_map_right_iff]
      exact hothers.imp fun _ _ => And.left
    refine ⟨congrArg Shape.named (List.forall₂_eq_eq_eq ▸ hnames), ?_⟩
    rw [parts, parts, List.forall₂_map_left_iff, List.forall₂_map_right_iff]
    exact hothers.imp fun _ _ => And.right

theorem Rigid.not_lenient_unfold {t : Ty} (h : t.Rigid) : ¬ t.unfold.Lenient :=
  h t.unfold t.unfold_mem_nodes

theorem Rigid.part_unfold {s t : Ty} (h : t.Rigid) (hs : s ∈ t.unfold.parts) : s.Rigid :=
  (Everywhere.node h t.unfold_mem_nodes).part hs

/-- Going down to where the types clash, all types on the way have to accept each other. -/
theorem Clash.refused {s t : Ty} (hclash : Clash s t) (hs : s.Rigid) : ¬ s.accepts t := by
  induction hclash with
  | shape hne =>
    intro h
    exact hne (shape_eq_and_parts_of_accepts hs.not_lenient_unfold h).1
  | part hu hv _ ih =>
    intro h
    obtain ⟨-, hparts⟩ := shape_eq_and_parts_of_accepts hs.not_lenient_unfold h
    obtain ⟨hi, rfl⟩ := List.getElem?_eq_some_iff.1 hu
    obtain ⟨hj, rfl⟩ := List.getElem?_eq_some_iff.1 hv
    exact ih (hs.part_unfold (List.getElem_mem hi)) (hparts.get hi hj)

theorem Rigid.canonicalize_eq {s t : Ty} (hs : s.Rigid) (h : s.accepts t) :
    s.canonicalize = t.canonicalize :=
  canonicalize_eq_of_not_clash fun hclash => hclash.refused hs h

theorem rigid_of_accepts_only {s : Ty}
    (h : ∀ t, s.accepts t → s.canonicalize = t.canonicalize) : s.Rigid := by
  intro u hu hlenient
  obtain ⟨c, rfl⟩ := Context.mem_nodes_iff_exists_fill.1 hu
  have hnull := h (c.fill (prim .null)) ((accepts_fill_iff c u _).2 hlenient.accepts_null)
  exact hlenient.canonicalize_ne_null ((canonicalize_fill_iff c u _).1 hnull)

/-- The types without `any`, `data`, `event`, `machine` and permissions are just those that accept
    nothing but other spellings of themselves, so that they refuse a type for every place at which
    it clashes with them and for nothing else. -/
theorem rigid_iff_accepts_itself_only (a : Ty) :
    (a.Rigid ↔ ∀ b, a.accepts b ↔ a.canonicalize = b.canonicalize) ∧
    (a.Rigid ↔ ∀ b, a.accepts b ↔ ¬ Clash a b) := by
  have hrigid : a.Rigid ↔ ∀ b, a.accepts b ↔ a.canonicalize = b.canonicalize := by
    constructor
    · intro ha b
      exact ⟨ha.canonicalize_eq, accepts_of_canonicalize_eq⟩
    · intro h
      exact rigid_of_accepts_only fun b => (h b).1
  refine ⟨hrigid, hrigid.trans (forall_congr' fun b => ?_)⟩
  rw [clash_iff, not_not]

end MachineLang.Ty
