import MachineLang.Proofs.Ty.Preorder

set_option autoImplicit false

namespace MachineLang.Ty

inductive Context where
  | hole
  | seq (element : Context)
  | set (element : Context)
  | mapKey (key : Context) (value : Ty)
  | mapValue (key : Ty) (value : Context)
  | tuple (before : List Ty) (element : Context) (after : List Ty)
  | named (before : List (String × Ty)) (name : String) (field : Context)
      (after : List (String × Ty))
  | typedef (name : String) (target : Context)

namespace Context

/-- The type that has `t` at the open position. -/
def fill : Context → Ty → Ty
  | hole, t => t
  | seq element, t => .seq (element.fill t)
  | set element, t => .set (element.fill t)
  | mapKey key value, t => .map (key.fill t) value
  | mapValue key value, t => .map key (value.fill t)
  | tuple before element after, t => .tuple (before ++ element.fill t :: after)
  | named before name field after, t => .named (before ++ (name, field.fill t) :: after)
  | typedef name target, t => .typedef name (target.fill t)

def comp : Context → Context → Context
  | hole, d => d
  | seq element, d => seq (element.comp d)
  | set element, d => set (element.comp d)
  | mapKey key value, d => mapKey (key.comp d) value
  | mapValue key value, d => mapValue key (value.comp d)
  | tuple before element after, d => tuple before (element.comp d) after
  | named before name field after, d => named before name (field.comp d) after
  | typedef name target, d => typedef name (target.comp d)

theorem fill_comp (c d : Context) (t : Ty) : (c.comp d).fill t = c.fill (d.fill t) := by
  induction c <;> simp_all [comp, fill]

theorem mem_nodes_fill (c : Context) (t : Ty) : t ∈ (c.fill t).nodes := by
  induction c with
  | hole => exact t.self_mem_nodes
  | seq _ ih | set _ ih | typedef _ _ ih => exact mem_nodes_of_part (List.mem_singleton_self _) ih
  | mapKey _ _ ih | mapValue _ _ ih => exact mem_nodes_of_part (by simp [fill, parts]) ih
  | tuple _ _ _ ih | named _ _ _ _ ih => exact mem_nodes_of_part (by simp [fill, parts]) ih

theorem exists_fill_of_part {s t : Ty} (h : s ∈ t.parts) : ∃ c : Context, c.fill s = t := by
  cases t with
  | prim | enum | permission | foreign => cases h
  | seq element => exact ⟨seq hole, congrArg Ty.seq (List.mem_singleton.1 h)⟩
  | set element => exact ⟨set hole, congrArg Ty.set (List.mem_singleton.1 h)⟩
  | typedef name target =>
    exact ⟨typedef name hole, congrArg (Ty.typedef name) (List.mem_singleton.1 h)⟩
  | map key value =>
    rcases List.mem_pair.1 h with rfl | rfl
    · exact ⟨mapKey hole value, rfl⟩
    · exact ⟨mapValue key hole, rfl⟩
  | tuple elements =>
    obtain ⟨before, after, rfl⟩ := List.append_of_mem h
    exact ⟨tuple before hole after, rfl⟩
  | named fields =>
    obtain ⟨⟨name, t⟩, hfield, rfl⟩ := List.mem_map.1 h
    obtain ⟨before, after, rfl⟩ := List.append_of_mem hfield
    exact ⟨named before name hole after, rfl⟩

theorem mem_nodes_iff_exists_fill {s t : Ty} : s ∈ t.nodes ↔ ∃ c : Context, c.fill s = t := by
  constructor
  · intro h
    induction t using partsInduction with
    | step t ih =>
      rcases mem_nodes_iff.1 h with rfl | ⟨u, hu, hs⟩
      · exact ⟨hole, rfl⟩
      · obtain ⟨outer, houter⟩ := exists_fill_of_part hu
        obtain ⟨inner, hinner⟩ := ih u hu hs
        exact ⟨outer.comp inner, by rw [fill_comp, hinner, houter]⟩
  · rintro ⟨c, rfl⟩
    exact c.mem_nodes_fill s

end Context

theorem forall₂_around_iff {α : Type} {R : α → α → Prop} (hrefl : ∀ a, R a a)
    (before after : List α) (a b : α) :
    List.Forall₂ R (before ++ a :: after) (before ++ b :: after) ↔ R a b := by
  induction before with
  | nil =>
    have hafter : List.Forall₂ R after after := List.forall₂_same.2 fun c _ => hrefl c
    rw [List.nil_append, List.nil_append, List.forall₂_cons, and_iff_left hafter]
  | cons c before ih =>
    rw [List.cons_append, List.cons_append, List.forall₂_cons, and_iff_right (hrefl c), ih]

theorem accepts_fill_iff (c : Context) (s t : Ty) :
    (c.fill s).accepts (c.fill t) ↔ s.accepts t := by
  induction c with
  | hole => rfl
  | seq element ih => simp [Context.fill, seq_accepts, unfold, ih]
  | set element ih => simp [Context.fill, set_accepts, unfold, ih]
  | mapKey key value ih => simp [Context.fill, map_accepts, unfold, accepts_refl, ih]
  | mapValue key value ih => simp [Context.fill, map_accepts, unfold, accepts_refl, ih]
  | tuple before element after ih =>
    have hmembers := forall₂_around_iff (R := fun t s : Ty => t.accepts s) accepts_refl before
      after (element.fill s) (element.fill t)
    simp [Context.fill, tuple_accepts, unfold, hmembers, ih]
  | named before name field after ih =>
    have hfields := forall₂_around_iff (R := fun t s : String × Ty => t.1 = s.1 ∧ t.2.accepts s.2)
      (fun other => ⟨rfl, accepts_refl other.2⟩) before after (name, field.fill s)
      (name, field.fill t)
    simp [Context.fill, named_accepts, unfold, hfields, ih]
  | typedef name target ih =>
    rw [Context.fill, Context.fill, accepts, ← accepts_unfold, unfold, accepts_unfold, ih]

theorem canonicalize_fill_iff (c : Context) (s t : Ty) :
    (c.fill s).canonicalize = (c.fill t).canonicalize ↔ s.canonicalize = t.canonicalize := by
  rw [← accepts_both_iff, ← accepts_both_iff, accepts_fill_iff, accepts_fill_iff]

/-- Whether one type accepts another does not change with the position they stand in, the same for
    both; and these positions are all there are in a type. -/
theorem covariant_at_every_position :
    (∀ (c : Context) (s t : Ty), (c.fill s).accepts (c.fill t) ↔ s.accepts t) ∧
    ∀ s t : Ty, s ∈ t.nodes ↔ ∃ c : Context, c.fill s = t :=
  ⟨accepts_fill_iff, fun _ _ => Context.mem_nodes_iff_exists_fill⟩

end MachineLang.Ty
