import MachineLang.Proofs.Ty.Assignable

set_option autoImplicit false

namespace MachineLang.Ty

inductive KeywordRule : Primitive → Ty → Prop
  | anything {t : Ty} : KeywordRule .any t
  | data {t : Ty} (ht : t.isData) : KeywordRule .data t
  | itself {p : Primitive} {t : Ty} (ht : t.unfold = prim p) : KeywordRule p t
  | null {p : Primitive} {t : Ty} (hp : p = .event ∨ p = .machine) (ht : t.unfold = prim .null) :
    KeywordRule p t
  | reference {t : Ty} {q : Permission} (ht : t.unfold = permission q) : KeywordRule .machine t

theorem keywordAccepts_any (t : Ty) : keywordAccepts .any t := by
  cases t <;> simp [keywordAccepts, Primitive.accepts]

theorem keywordAccepts_data {t : Ty} (h : t.isData) : keywordAccepts .data t := by
  cases t with
  | prim p =>
    rw [isData] at h
    simp [keywordAccepts, Primitive.accepts, h]
  | permission p => cases h
  | _ => simp [keywordAccepts, h]

theorem prim_accepts {p : Primitive} {t : Ty} : (prim p).accepts t ↔ KeywordRule p t := by
  rw [accepts]
  constructor
  · intro h
    have hdata := t.isData_unfold
    have hne := t.unfold_ne_typedef
    cases hu : t.unfold with
    | typedef name target => exact absurd hu (hne name target)
    | prim q =>
      rw [hu] at h hdata
      rcases Primitive.accepts_iff.1 h with rfl | ⟨rfl, hq⟩ | rfl | ⟨hp, rfl⟩
      · exact .anything
      · exact .data (hdata ▸ hq)
      · exact .itself hu
      · exact .null hp hu
    | permission q =>
      have hp : p = .any ∨ p = .machine := by simpa [hu, keywordAccepts] using h
      rcases hp with rfl | rfl
      · exact .anything
      · exact .reference hu
    | _ =>
      have hp : p = .any ∨ p = .data ∧ t.unfold.isData := by simpa [hu, keywordAccepts] using h
      rcases hp with rfl | ⟨rfl, ht⟩
      · exact .anything
      · exact .data (hdata ▸ ht)
  · intro h
    cases h with
    | anything => exact keywordAccepts_any _
    | data ht => exact keywordAccepts_data (t.isData_unfold.trans ht)
    | itself ht => simp [ht, keywordAccepts, Primitive.accepts]
    | null hp ht => rcases hp with rfl | rfl <;> simp [ht, keywordAccepts, Primitive.accepts]
    | reference ht => simp [ht, keywordAccepts]

theorem data_accepts {t : Ty} : (prim .data).accepts t ↔ t.isData := by
  rw [prim_accepts]
  constructor
  · intro h
    cases h with
    | data ht => exact ht
    | itself ht =>
      rw [← isData_unfold, ht]
      rfl
    | null hp => simp at hp
  · exact .data

theorem null_accepts {t : Ty} : (prim .null).accepts t ↔ t.unfold = prim .null := by
  rw [prim_accepts]
  constructor
  · intro h
    cases h with
    | itself ht => exact ht
    | null _ ht => exact ht
  · exact .itself

theorem exists_of_forall₂ {α β : Type} {R : α → β → Prop} {as : List α} {bs : List β}
    (h : List.Forall₂ R as bs) {b : β} (hb : b ∈ bs) : ∃ a ∈ as, R a b := by
  induction h with
  | nil => cases hb
  | cons hab _ ih =>
    rcases List.mem_cons.1 hb with rfl | hb
    · exact ⟨_, List.mem_cons_self, hab⟩
    · obtain ⟨a, ha, hrelated⟩ := ih hb
      exact ⟨a, List.mem_cons_of_mem _ ha, hrelated⟩

theorem isData_of_accepts {s t : Ty} (hdata : s.isData) (h : s.accepts t) : t.isData := by
  induction s using treeInduction generalizing t with
  | prim p =>
    cases prim_accepts.1 h with
    | anything => cases hdata
    | data ht => exact ht
    | itself ht => rwa [← isData_unfold, ht]
    | null _ ht =>
      rw [← isData_unfold, ht]
      rfl
    | reference => cases hdata
  | permission p => cases hdata
  | enum decl =>
    rw [← isData_unfold, enum_accepts.1 h]
    rfl
  | foreign name =>
    rw [← isData_unfold, foreign_accepts.1 h]
    rfl
  | typedef name target ih =>
    rw [accepts] at h
    exact ih hdata h
  | seq element ih =>
    obtain ⟨other, ht, hother⟩ := seq_accepts.1 h
    rw [← isData_unfold, ht, isData]
    exact ih hdata hother
  | set element ih =>
    obtain ⟨other, ht, hother⟩ := set_accepts.1 h
    rw [← isData_unfold, ht, isData]
    exact ih hdata hother
  | map key value ihk ihv =>
    obtain ⟨k, v, ht, hk, hv⟩ := map_accepts.1 h
    rw [isData, Bool.and_eq_true] at hdata
    rw [← isData_unfold, ht, isData, Bool.and_eq_true]
    exact ⟨ihk hdata.1 hk, ihv hdata.2 hv⟩
  | tuple elements ih =>
    obtain ⟨others, ht, hothers⟩ := tuple_accepts.1 h
    rw [isData, allData_eq_all, List.all_eq_true] at hdata
    rw [← isData_unfold, ht, isData, allData_eq_all, List.all_eq_true]
    intro other hother
    obtain ⟨element, helement, haccepts⟩ := exists_of_forall₂ hothers hother
    exact ih element helement (hdata element helement) haccepts
  | named fields ih =>
    obtain ⟨others, ht, hothers⟩ := named_accepts.1 h
    rw [isData, fieldsData_eq_all, List.all_eq_true] at hdata
    rw [← isData_unfold, ht, isData, fieldsData_eq_all, List.all_eq_true]
    intro other hother
    obtain ⟨field, hfield, -, haccepts⟩ := exists_of_forall₂ hothers hother
    exact ih field hfield (hdata field hfield) haccepts

theorem accepts_refl (t : Ty) : t.accepts t := accepts_of_canonicalize_eq rfl

theorem forall₂_comp {α : Type} {R : α → α → Prop} {as bs cs : List α}
    (hab : List.Forall₂ R as bs) (hbc : List.Forall₂ R bs cs)
    (hR : ∀ a ∈ as, ∀ b c, R a b → R b c → R a c) : List.Forall₂ R as cs := by
  induction hab generalizing cs with
  | nil =>
    cases hbc
    exact .nil
  | cons hhead _ ih =>
    obtain _ | ⟨hhead', htail'⟩ := hbc
    exact .cons (hR _ List.mem_cons_self _ _ hhead hhead')
      (ih htail' fun a ha => hR a (List.mem_cons_of_mem _ ha))

/-- The middle of a chain is read below its typedefs, where the rule that accepted it leaves one
    shape, or only the property of being data, for the next rule to start from. -/
theorem accepts_trans {a b c : Ty} (hab : a.accepts b) (hbc : b.accepts c) : a.accepts c := by
  induction a using treeInduction generalizing b c with
  | prim p =>
    cases prim_accepts.1 hab with
    | anything => exact prim_accepts.2 .anything
    | data hb => exact data_accepts.2 (isData_of_accepts hb hbc)
    | itself hb => rwa [← unfold_accepts, hb] at hbc
    | null hp hb =>
      rw [← unfold_accepts, hb, null_accepts] at hbc
      exact prim_accepts.2 (.null hp hbc)
    | reference hb =>
      rw [← unfold_accepts, hb] at hbc
      rcases permission_accepts.1 hbc with hc | ⟨r, hc, -⟩
      · exact prim_accepts.2 (.null (.inr rfl) hc)
      · exact prim_accepts.2 (.reference hc)
  | permission p =>
    rcases permission_accepts.1 hab with hb | ⟨q, hb, hpq⟩
    · rw [← unfold_accepts, hb, null_accepts] at hbc
      exact permission_accepts.2 (.inl hbc)
    · rw [← unfold_accepts, hb] at hbc
      rcases permission_accepts.1 hbc with hc | ⟨r, hc, hqr⟩
      · exact permission_accepts.2 (.inl hc)
      · rw [Permission.accepts_iff] at hpq hqr
        have hpr := Permission.accepts_iff.2 (List.Subset.trans hpq hqr)
        exact permission_accepts.2 (.inr ⟨r, hc, hpr⟩)
  | enum decl => rwa [← unfold_accepts, enum_accepts.1 hab] at hbc
  | foreign name => rwa [← unfold_accepts, foreign_accepts.1 hab] at hbc
  | typedef name target ih =>
    rw [accepts] at hab ⊢
    exact ih hab hbc
  | seq element ih =>
    obtain ⟨middle, hb, hmiddle⟩ := seq_accepts.1 hab
    rw [← unfold_accepts, hb] at hbc
    obtain ⟨last, hc, hlast⟩ := seq_accepts.1 hbc
    exact seq_accepts.2 ⟨last, hc, ih hmiddle hlast⟩
  | set element ih =>
    obtain ⟨middle, hb, hmiddle⟩ := set_accepts.1 hab
    rw [← unfold_accepts, hb] at hbc
    obtain ⟨last, hc, hlast⟩ := set_accepts.1 hbc
    exact set_accepts.2 ⟨last, hc, ih hmiddle hlast⟩
  | map key value ihk ihv =>
    obtain ⟨k, v, hb, hk, hv⟩ := map_accepts.1 hab
    rw [← unfold_accepts, hb] at hbc
    obtain ⟨k', v', hc, hk', hv'⟩ := map_accepts.1 hbc
    exact map_accepts.2 ⟨k', v', hc, ihk hk hk', ihv hv hv'⟩
  | tuple elements ih =>
    obtain ⟨middle, hb, hmiddle⟩ := tuple_accepts.1 hab
    rw [← unfold_accepts, hb] at hbc
    obtain ⟨last, hc, hlast⟩ := tuple_accepts.1 hbc
    have hcomp := forall₂_comp hmiddle hlast fun t ht u v htu huv => ih t ht htu huv
    exact tuple_accepts.2 ⟨last, hc, hcomp⟩
  | named fields ih =>
    obtain ⟨middle, hb, hmiddle⟩ := named_accepts.1 hab
    rw [← unfold_accepts, hb] at hbc
    obtain ⟨last, hc, hlast⟩ := named_accepts.1 hbc
    refine named_accepts.2 ⟨last, hc, forall₂_comp hmiddle hlast fun t ht u v htu huv => ?_⟩
    exact ⟨htu.1.trans huv.1, ih t ht htu.2 huv.2⟩

/-- What may be stored in a place may be stored there by way of any other place that takes it. -/
theorem accepts_preorder :
    (∀ t : Ty, t.accepts t) ∧
    ∀ a b c : Ty, a.accepts b → b.accepts c → a.accepts c :=
  ⟨accepts_refl, fun _ _ _ hab hbc => accepts_trans hab hbc⟩

theorem accepts_preorder_request :
    let loose := tuple [prim .machine, seq (prim .any), prim .event]
    let request := typedef "Request" (tuple
      [permission ⟨some "Server", ["eGet", "ePut"]⟩, seq (prim .data), typedef "Tag" (prim .event)])
    let sent := tuple
      [permission ⟨none, ["ePut", "eStop", "eGet"]⟩, seq (map (prim .int) (prim .string)),
        prim .null]
    request.accepts request ∧ loose.accepts request ∧ request.accepts sent ∧ loose.accepts sent := by
  intro loose request sent
  have hrequest : loose.accepts request := by decide
  have hsent : request.accepts sent := by decide
  exact ⟨accepts_preorder.1 request, hrequest, hsent,
    accepts_preorder.2 loose request sent hrequest hsent⟩

theorem accepts_congr {s s' t t' : Ty} (hs : s.canonicalize = s'.canonicalize)
    (ht : t.canonicalize = t'.canonicalize) : s.accepts t = s'.accepts t' := by
  rw [Bool.eq_iff_iff]
  constructor
  · intro h
    have hst' : s.accepts t' := accepts_trans h (accepts_of_canonicalize_eq ht)
    exact accepts_trans (accepts_of_canonicalize_eq hs.symm) hst'
  · intro h
    have hst : s'.accepts t := accepts_trans h (accepts_of_canonicalize_eq ht.symm)
    exact accepts_trans (accepts_of_canonicalize_eq hs) hst

theorem isData_congr {s t : Ty} (h : s.canonicalize = t.canonicalize) : s.isData = t.isData := by
  rw [Bool.eq_iff_iff, ← data_accepts, ← data_accepts, accepts_congr rfl h]

/-- Neither assignability nor being data sees the spelling of a type: each side may be replaced by
    its canonical tree, in which no typedef, interface name or disorder of events is left. -/
theorem accepts_canonicalize (s t : Ty) :
    s.accepts t = s.canonicalize.accepts t.canonicalize ∧
    s.accepts t = s.canonicalize.accepts t ∧
    s.accepts t = s.accepts t.canonicalize ∧
    s.isData = s.canonicalize.isData ∧
    s.canonicalize.isCanonical := by
  have hs := s.canonicalize_canonicalize.symm
  have ht := t.canonicalize_canonicalize.symm
  exact ⟨accepts_congr hs ht, accepts_congr hs rfl, accepts_congr rfl ht, isData_congr hs,
    s.isCanonical_canonicalize⟩

end MachineLang.Ty
