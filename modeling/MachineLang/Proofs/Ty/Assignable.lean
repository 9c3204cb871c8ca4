import Mathlib.Data.List.Forall2
import MachineLang.Ty.Assignable
import MachineLang.Proofs.Ty.Canonical

set_option autoImplicit false

namespace MachineLang.Ty

theorem unfold_accepts (target source : Ty) :
    target.unfold.accepts source = target.accepts source := by
  fun_induction unfold target with
  | case1 name target ih => rw [ih, accepts]
  | case2 => rfl

theorem allAccept_iff {ts ss : List Ty} :
    allAccept ts ss ↔ List.Forall₂ (fun t s => t.accepts s) ts ss := by
  induction ts generalizing ss with
  | nil => cases ss <;> simp [allAccept]
  | cons t ts ih => cases ss <;> simp [allAccept, ih]

theorem fieldsAccept_iff {ts ss : List (String × Ty)} :
    fieldsAccept ts ss ↔ List.Forall₂ (fun t s => t.1 = s.1 ∧ t.2.accepts s.2) ts ss := by
  induction ts generalizing ss with
  | nil => cases ss <;> simp [fieldsAccept]
  | cons t ts ih => cases ss <;> simp [fieldsAccept, ih]

section Rules
variable {source : Ty}

attribute [local simp] accepts

theorem seq_accepts {element : Ty} :
    (seq element).accepts source ↔ ∃ other, source.unfold = seq other ∧ element.accepts other := by
  rw [accepts]
  cases source.unfold <;> simp

theorem set_accepts {element : Ty} :
    (set element).accepts source ↔ ∃ other, source.unfold = set other ∧ element.accepts other := by
  rw [accepts]
  cases source.unfold <;> simp

theorem map_accepts {key value : Ty} :
    (map key value).accepts source ↔
      ∃ k v, source.unfold = map k v ∧ key.accepts k ∧ value.accepts v := by
  rw [accepts]
  cases source.unfold <;> simp

theorem tuple_accepts {elements : List Ty} :
    (tuple elements).accepts source ↔ ∃ others, source.unfold = tuple others ∧
      List.Forall₂ (fun t s => t.accepts s) elements others := by
  rw [accepts]
  cases source.unfold <;> simp [allAccept_iff]

theorem named_accepts {fields : List (String × Ty)} :
    (named fields).accepts source ↔ ∃ others, source.unfold = named others ∧
      List.Forall₂ (fun t s => t.1 = s.1 ∧ t.2.accepts s.2) fields others := by
  rw [accepts]
  cases source.unfold <;> simp [fieldsAccept_iff]

theorem enum_accepts {decl : Enumeration} :
    (enum decl).accepts source ↔ source.unfold = enum decl := by
  rw [accepts]
  cases source.unfold <;> grind

theorem foreign_accepts {name : String} :
    (foreign name).accepts source ↔ source.unfold = foreign name := by
  rw [accepts]
  cases source.unfold <;> grind

theorem permission_accepts {p : Permission} :
    (permission p).accepts source ↔
      source.unfold = prim .null ∨ ∃ q, source.unfold = permission q ∧ p.accepts q := by
  rw [accepts]
  cases source.unfold <;> simp [permissionAccepts]

end Rules

/-- Nothing that a keyword type accepts accepts it back, unless it is the keyword type itself. -/
theorem unfold_eq_prim_of_accepts {p : Primitive} {t : Ty} (h : (prim p).accepts t)
    (hback : t.accepts (prim p)) : t.unfold = prim p := by
  rw [← unfold_accepts] at hback
  rw [accepts] at h
  have hne := t.unfold_ne_typedef
  cases hu : t.unfold with
  | prim q =>
    rw [hu] at h hback
    rw [accepts] at hback
    revert h hback
    cases p <;> cases q <;> decide
  | permission q =>
    rw [hu] at h hback
    rw [permission_accepts] at hback
    rcases hback with hback | ⟨r, hback, -⟩
    · cases hback
      cases h
    · cases hback
  | typedef name target => exact absurd hu (hne name target)
  | _ =>
    rw [hu] at hback
    simp [accepts, unfold] at hback

theorem map_eq_of_forall₂ {α β : Type} {R : α → α → Prop} {f : α → β} {as bs : List α}
    (h : List.Forall₂ R as bs) (hback : List.Forall₂ R bs as)
    (hf : ∀ a ∈ as, ∀ b, R a b → R b a → f a = f b) : as.map f = bs.map f := by
  induction h with
  | nil => rfl
  | cons hab _ ih =>
    obtain _ | ⟨hba, hback⟩ := hback
    rw [List.map_cons, List.map_cons, hf _ List.mem_cons_self _ hab hba,
      ih hback fun a ha => hf a (List.mem_cons_of_mem _ ha)]

theorem canonicalize_eq_of_accepts {s t : Ty} (h : s.accepts t) (hback : t.accepts s) :
    s.canonicalize = t.canonicalize := by
  induction s using treeInduction generalizing t with
  | prim p => exact (canonicalize_eq_prim.2 (unfold_eq_prim_of_accepts h hback)).symm
  | enum decl => exact (canonicalize_eq_enum.2 (enum_accepts.1 h)).symm
  | foreign name => exact (canonicalize_eq_foreign.2 (foreign_accepts.1 h)).symm
  | typedef name target ih =>
    rw [accepts] at h
    rw [← accepts_unfold] at hback
    exact ih h (by rwa [← accepts_unfold])
  | permission p =>
    rw [← unfold_accepts] at hback
    rcases permission_accepts.1 h with ht | ⟨q, ht, hpq⟩
    · rw [ht, accepts] at hback
      cases hback
    · rw [ht] at hback
      rcases permission_accepts.1 hback with hs | ⟨r, hs, hqp⟩
      · cases hs
      · cases hs
        refine (canonicalize_eq_permission.2 ⟨q, ht, ?_⟩).symm
        rw [Permission.accepts_iff] at hpq hqp
        rw [Permission.canonical, Permission.canonical,
          Permission.eventSet_eq_iff.2 fun event => ⟨fun hq => hqp hq, fun hp => hpq hp⟩]
  | seq element ih =>
    obtain ⟨other, ht, hparts⟩ := seq_accepts.1 h
    rw [← unfold_accepts, ht] at hback
    obtain ⟨self, hs, hpartsBack⟩ := seq_accepts.1 hback
    cases hs
    exact (canonicalize_eq_seq.2 ⟨other, ht, (ih hparts hpartsBack).symm⟩).symm
  | set element ih =>
    obtain ⟨other, ht, hparts⟩ := set_accepts.1 h
    rw [← unfold_accepts, ht] at hback
    obtain ⟨self, hs, hpartsBack⟩ := set_accepts.1 hback
    cases hs
    exact (canonicalize_eq_set.2 ⟨other, ht, (ih hparts hpartsBack).symm⟩).symm
  | map key value ihk ihv =>
    obtain ⟨k, v, ht, hkey, hvalue⟩ := map_accepts.1 h
    rw [← unfold_accepts, ht] at hback
    obtain ⟨_, _, hs, hkeyBack, hvalueBack⟩ := map_accepts.1 hback
    cases hs
    exact (canonicalize_eq_map.2
      ⟨k, v, ht, (ihk hkey hkeyBack).symm, (ihv hvalue hvalueBack).symm⟩).symm
  | tuple elements ih =>
    obtain ⟨others, ht, hparts⟩ := tuple_accepts.1 h
    rw [← unfold_accepts, ht] at hback
    obtain ⟨self, hs, hpartsBack⟩ := tuple_accepts.1 hback
    cases hs
    have hall := map_eq_of_forall₂ hparts hpartsBack fun a ha b hab hba => ih a ha hab hba
    rw [canonicalize, canonicalizeAll_eq_map]
    exact (canonicalize_eq_tuple.2 ⟨others, ht, hall.symm⟩).symm
  | named fields ih =>
    obtain ⟨others, ht, hparts⟩ := named_accepts.1 h
    rw [← unfold_accepts, ht] at hback
    obtain ⟨self, hs, hpartsBack⟩ := named_accepts.1 hback
    cases hs
    have hall := map_eq_of_forall₂ (f := fun field => (field.1, field.2.canonicalize)) hparts
      hpartsBack fun a ha b hab hba => Prod.ext hab.1 (ih a ha hab.2 hba.2)
    rw [canonicalize, canonicalizeFields_eq_map]
    exact (canonicalize_eq_named.2 ⟨others, ht, hall.symm⟩).symm

theorem forall₂_of_map_eq {α β : Type} {R : α → α → Prop} {f : α → β} {as bs : List α}
    (h : as.map f = bs.map f) (hf : ∀ a ∈ as, ∀ b, f a = f b → R a b) : List.Forall₂ R as bs := by
  induction as generalizing bs with
  | nil =>
    rw [List.map_eq_nil_iff.1 h.symm]
    exact .nil
  | cons a as ih =>
    obtain ⟨b, rest, rfl, hb, hrest⟩ := List.map_eq_cons_iff.1 h.symm
    exact .cons (hf a List.mem_cons_self b hb.symm)
      (ih hrest.symm fun a' ha' => hf a' (List.mem_cons_of_mem a ha'))

theorem accepts_of_canonicalize_eq {s t : Ty} (h : s.canonicalize = t.canonicalize) :
    s.accepts t := by
  induction s using treeInduction generalizing t with
  | prim p =>
    rw [accepts, canonicalize_eq_prim.1 h.symm]
    cases p <;> rfl
  | enum decl => exact enum_accepts.2 (canonicalize_eq_enum.1 h.symm)
  | foreign name => exact foreign_accepts.2 (canonicalize_eq_foreign.1 h.symm)
  | typedef name target ih =>
    rw [accepts]
    exact ih h
  | permission p =>
    obtain ⟨q, ht, hq⟩ := canonicalize_eq_permission.1 h.symm
    have hsets : q.eventSet = p.eventSet := congrArg Permission.events hq
    refine permission_accepts.2 (.inr ⟨q, ht, Permission.accepts_iff.2 fun event hp => ?_⟩)
    exact (Permission.eventSet_eq_iff.1 hsets event).2 hp
  | seq element ih =>
    obtain ⟨other, ht, hother⟩ := canonicalize_eq_seq.1 h.symm
    exact seq_accepts.2 ⟨other, ht, ih hother.symm⟩
  | set element ih =>
    obtain ⟨other, ht, hother⟩ := canonicalize_eq_set.1 h.symm
    exact set_accepts.2 ⟨other, ht, ih hother.symm⟩
  | map key value ihk ihv =>
    obtain ⟨k, v, ht, hk, hv⟩ := canonicalize_eq_map.1 h.symm
    exact map_accepts.2 ⟨k, v, ht, ihk hk.symm, ihv hv.symm⟩
  | tuple elements ih =>
    rw [canonicalize, canonicalizeAll_eq_map] at h
    obtain ⟨others, ht, hothers⟩ := canonicalize_eq_tuple.1 h.symm
    exact tuple_accepts.2 ⟨others, ht, forall₂_of_map_eq hothers.symm fun a ha b hab => ih a ha hab⟩
  | named fields ih =>
    rw [canonicalize, canonicalizeFields_eq_map] at h
    obtain ⟨others, ht, hothers⟩ := canonicalize_eq_named.1 h.symm
    refine named_accepts.2 ⟨others, ht, forall₂_of_map_eq hothers.symm fun a ha b hab => ?_⟩
    obtain ⟨hname, htype⟩ := Prod.ext_iff.1 hab
    exact ⟨hname, ih a ha htype⟩

/-- The rules that accept one type for another work in one direction only: values may go both ways
    between two types exactly if the types differ in their spelling alone. -/
theorem accepts_both_iff (s t : Ty) :
    s.accepts t ∧ t.accepts s ↔ s.canonicalize = t.canonicalize := by
  constructor
  · rintro ⟨hst, hts⟩
    exact canonicalize_eq_of_accepts hst hts
  · intro h
    exact ⟨accepts_of_canonicalize_eq h, accepts_of_canonicalize_eq h.symm⟩

end MachineLang.Ty
