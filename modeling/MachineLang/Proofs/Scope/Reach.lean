import Mathlib.Logic.Relation
import MachineLang.Proofs.Scope.Coherent

set_option autoImplicit false

namespace MachineLang

namespace TypeExpr

@[elab_as_elim]
theorem treeInduction {motive : TypeExpr → Prop}
    (name : ∀ name, motive (.name name))
    (seq : ∀ element, motive element → motive (.seq element))
    (set : ∀ element, motive element → motive (.set element))
    (map : ∀ key value, motive key → motive value → motive (.map key value))
    (tuple : ∀ elements, (∀ e ∈ elements, motive e) → motive (.tuple elements))
    (named : ∀ fields, (∀ field ∈ fields, motive field.2) → motive (.named fields))
    (anyOf : ∀ events, motive (.anyOf events)) (e : TypeExpr) : motive e :=
  TypeExpr.rec (motive_1 := motive) (motive_2 := fun es => ∀ e ∈ es, motive e)
    (motive_3 := fun fields => ∀ field ∈ fields, motive field.2)
    (motive_4 := fun field => motive field.2)
    name seq set map tuple named anyOf
    (by simp) (fun _ _ hd tl => List.forall_mem_cons.2 ⟨hd, tl⟩)
    (by simp) (fun _ _ hd tl => List.forall_mem_cons.2 ⟨hd, tl⟩)
    (fun _ _ h => h) e

def parts : TypeExpr → List TypeExpr
  | seq element | set element => [element]
  | map key value => [key, value]
  | tuple elements => elements
  | named fields => fields.map Prod.snd
  | name _ | anyOf _ => []

/-- The other expression is written inside, at any depth. -/
abbrev Contains : TypeExpr → TypeExpr → Prop := Relation.ReflTransGen fun e f => f ∈ e.parts

end TypeExpr

namespace Scope

/-- One expression lies directly below the other. -/
inductive Exposes (scope : Scope) : TypeExpr → TypeExpr → Prop
  | part {e f : TypeExpr} (h : f ∈ e.parts) : Exposes scope e f
  | target {name : String} {e : TypeExpr} (h : scope.find? name = some (.typedef e)) :
    Exposes scope (.name name) e

/-- An expression reaches itself and whatever lies below at any depth. -/
abbrev Reaches (scope : Scope) : TypeExpr → TypeExpr → Prop := Relation.ReflTransGen scope.Exposes

/-- Depth is counted from the root, which lies at depth one. -/
inductive Lies (scope : Scope) (root : TypeExpr) : TypeExpr → Nat → Prop
  | root : Lies scope root root 1
  | step {e f : TypeExpr} {depth : Nat} (h : Lies scope root e depth) (hf : scope.Exposes e f) :
    Lies scope root f (depth + 1)

/-- The first name is that of a typedef in whose target the second is written. -/
def Refers (scope : Scope) (name other : String) : Prop :=
  ∃ target, scope.find? name = some (.typedef target) ∧ target.Contains (.name other)

/-- The events are those of a permission that the expression reaches. -/
def Permits (scope : Scope) (root : TypeExpr) (events : List String) : Prop :=
  scope.Reaches root (.anyOf events) ∨
    ∃ name, scope.Reaches root (.name name) ∧ scope.find? name = some (.interface events)

mutual

/-- The height of an expression, which counts the nodes of the longest way down. -/
inductive HasHeight (scope : Scope) : TypeExpr → Nat → Prop
  | leaf {name : String} (h : ∀ target, scope.find? name ≠ some (.typedef target)) :
    HasHeight scope (.name name) 1
  | typedef {name : String} {target : TypeExpr} {h : Nat}
    (hname : scope.find? name = some (.typedef target)) (htarget : HasHeight scope target h) :
    HasHeight scope (.name name) (h + 1)
  | anyOf {events : List String} : HasHeight scope (.anyOf events) 1
  | parts {e : TypeExpr} {h : Nat} (hne : e.parts ≠ []) (hparts : HaveHeight scope e.parts h) :
    HasHeight scope e (h + 1)

inductive HaveHeight (scope : Scope) : List TypeExpr → Nat → Prop
  | nil : HaveHeight scope [] 0
  | cons {e : TypeExpr} {es : List TypeExpr} {h k : Nat} (he : HasHeight scope e h)
    (hes : HaveHeight scope es k) : HaveHeight scope (e :: es) (max h k)

end

theorem Lies.reaches {scope : Scope} {root e : TypeExpr} {depth : Nat}
    (h : scope.Lies root e depth) : scope.Reaches root e := by
  induction h with
  | root => exact .refl
  | step _ hf ih => exact ih.tail hf

theorem Reaches.of_contains {scope : Scope} {e f : TypeExpr} (h : e.Contains f) :
    scope.Reaches e f := by
  induction h with
  | refl => exact .refl
  | tail _ hf ih => exact ih.tail (.part hf)

theorem HaveHeight.member {scope : Scope} {es : List TypeExpr} {e : TypeExpr} {k : Nat}
    (h : scope.HaveHeight es k) (he : e ∈ es) : ∃ j ≤ k, scope.HasHeight e j := by
  induction es generalizing k with
  | nil => simp at he
  | cons first es ih =>
    obtain _ | ⟨hfirst, hes⟩ := h
    rcases List.mem_cons.1 he with rfl | he
    · exact ⟨_, Nat.le_max_left _ _, hfirst⟩
    · obtain ⟨j, hj, hej⟩ := ih hes he
      exact ⟨j, Nat.le_trans hj (Nat.le_max_right _ _), hej⟩

theorem HasHeight.exposes {scope : Scope} {e f : TypeExpr} {h : Nat} (he : scope.HasHeight e h)
    (hf : scope.Exposes e f) : ∃ k < h, scope.HasHeight f k := by
  cases hf with
  | part hf =>
    cases he with
    | leaf | typedef | anyOf => simp [TypeExpr.parts] at hf
    | parts hne hparts =>
      obtain ⟨k, hk, hfk⟩ := hparts.member hf
      exact ⟨k, Nat.lt_succ_of_le hk, hfk⟩
  | target hname =>
    cases he with
    | leaf hleaf => exact absurd hname (hleaf _)
    | typedef hname' htarget =>
      rw [hname, Option.some.injEq, Declaration.typedef.injEq] at hname'
      exact ⟨_, Nat.lt_succ_self _, hname' ▸ htarget⟩
    | parts hne => simp [TypeExpr.parts] at hne

theorem HasHeight.lies_le {scope : Scope} {root e : TypeExpr} {h depth : Nat}
    (hroot : scope.HasHeight root h) (he : scope.Lies root e depth) : depth ≤ h := by
  have hbelow : ∃ k, scope.HasHeight e k ∧ 0 < k ∧ depth + k ≤ h + 1 := by
    induction he with
    | root => exact ⟨h, hroot, by cases hroot <;> omega, by omega⟩
    | step _ hf ih =>
      obtain ⟨k, hk, hpos, hle⟩ := ih
      obtain ⟨j, hj, hfj⟩ := hk.exposes hf
      exact ⟨j, hfj, by cases hfj <;> omega, by omega⟩
  obtain ⟨k, -, hpos, hle⟩ := hbelow
  omega

theorem HasHeight.unique {scope : Scope} {e : TypeExpr} {h k : Nat} (hh : scope.HasHeight e h)
    (hk : scope.HasHeight e k) : h = k := by
  induction h using Nat.strongRecOn generalizing e k with
  | ind h ih =>
    cases hh with
    | leaf hleaf =>
      cases hk with
      | leaf => rfl
      | typedef hname => exact absurd hname (hleaf _)
      | parts hne => simp [TypeExpr.parts] at hne
    | anyOf =>
      cases hk with
      | anyOf => rfl
      | parts hne => simp [TypeExpr.parts] at hne
    | typedef hname htarget =>
      cases hk with
      | leaf hleaf => exact absurd hname (hleaf _)
      | typedef hname' htarget' =>
        rw [hname, Option.some.injEq, Declaration.typedef.injEq] at hname'
        subst hname'
        rw [ih _ (Nat.lt_succ_self _) htarget htarget']
      | parts hne => simp [TypeExpr.parts] at hne
    | @parts _ h hne hparts =>
      cases hk with
      | leaf | typedef | anyOf => simp [TypeExpr.parts] at hne
      | @parts _ k _ hparts' =>
        have hall : ∀ es ⊆ e.parts, ∀ i j, i ≤ h → scope.HaveHeight es i → scope.HaveHeight es j →
            i = j := by
          intro es
          induction es with
          | nil =>
            intro _ i j _ hi hj
            cases hi
            cases hj
            rfl
          | cons f es ihes =>
            intro hsub i j hle hi hj
            obtain ⟨-, hes⟩ := List.cons_subset.1 hsub
            obtain _ | ⟨hf, hi⟩ := hi
            obtain _ | ⟨hf', hj⟩ := hj
            rw [ih _ (by omega) hf hf', ihes hes _ _ (by omega) hi hj]
        rw [hall _ (List.Subset.refl _) h k (Nat.le_refl h) hparts hparts']

theorem Coherent.exposes_iff {scope : Scope} {t : Ty} {f : TypeExpr} (ht : scope.Coherent t) :
    scope.Exposes t.expr f ↔ ∃ u ∈ t.parts, u.expr = f := by
  constructor
  · intro h
    generalize he : t.expr = e at h
    cases h with
    | part hf =>
      subst he
      cases t <;> grind [Ty.expr, Ty.parts, TypeExpr.parts, Ty.exprs_eq_map, Ty.fieldExprs_eq_map]
    | target hname =>
      obtain ⟨target, rfl, htarget⟩ := ht.declares.eq_typedef he hname
      exact ⟨target, List.mem_singleton_self target, htarget⟩
  · rintro ⟨u, hu, rfl⟩
    cases t <;> simp only [Ty.parts, List.not_mem_nil] at hu
    case typedef name target =>
      rw [List.mem_singleton.1 hu]
      exact .target ht.declares
    all_goals
      refine .part ?_
      grind [Ty.expr, TypeExpr.parts, Ty.exprs_eq_map, Ty.fieldExprs_eq_map]

theorem Coherent.node_of_reaches {scope : Scope} {t : Ty} {e : TypeExpr} (ht : scope.Coherent t)
    (h : scope.Reaches t.expr e) : ∃ u ∈ t.nodes, u.expr = e := by
  induction h with
  | refl => exact ⟨t, t.self_mem_nodes, rfl⟩
  | tail _ hf ih =>
    obtain ⟨u, hu, rfl⟩ := ih
    obtain ⟨v, hv, hexpr⟩ := (ht.node hu).exposes_iff.1 hf
    exact ⟨v, Ty.nodes_subset hu (Ty.mem_nodes_of_part hv v.self_mem_nodes), hexpr⟩

theorem Coherent.hasHeight {scope : Scope} {t : Ty} (h : scope.Coherent t) :
    scope.HasHeight t.expr t.height := by
  induction t using Ty.partsInduction with
  | step t ih =>
    have hall : ∀ us ⊆ t.parts, scope.HaveHeight (us.map Ty.expr) (Ty.heightAll us) := by
      intro us hus
      induction us with
      | nil => exact .nil
      | cons u us ihus =>
        obtain ⟨hu, hus⟩ := List.cons_subset.1 hus
        exact .cons (ih u hu (h.part hu)) (ihus hus)
    have hparts := hall t.parts (List.Subset.refl _)
    have hleaf : ∀ name, t.expr = .name name → t.parts = [] → ∀ e,
        scope.find? name ≠ some (.typedef e) := by
      intro name hname hempty e he
      have hexposes : scope.Exposes t.expr e := hname ▸ Exposes.target he
      obtain ⟨u, hu, -⟩ := h.exposes_iff.1 hexposes
      rw [hempty] at hu
      cases hu
    cases t with
    | prim p => exact .leaf (hleaf _ rfl rfl)
    | enum decl => exact .leaf (hleaf _ rfl rfl)
    | foreign name => exact .leaf (hleaf _ rfl rfl)
    | permission p =>
      obtain ⟨_ | name, events⟩ := p
      · exact .anyOf
      · exact .leaf (hleaf _ rfl rfl)
    | typedef name target =>
      have hmem := List.mem_singleton_self target
      exact .typedef h.declares (ih target hmem (h.part hmem))
    | seq element | set element | map key value =>
      rw [Ty.height_eq]
      exact .parts (by simp [Ty.expr, TypeExpr.parts]) hparts
    | tuple elements =>
      have hne : elements ≠ [] := h.declares
      rw [Ty.height_eq, Ty.expr, Ty.exprs_eq_map]
      exact .parts (by simpa [TypeExpr.parts] using hne) hparts
    | named fields =>
      have hne : fields ≠ [] := h.declares
      rw [Ty.height_eq, Ty.expr, Ty.fieldExprs_eq_map]
      refine .parts (by simpa [TypeExpr.parts] using hne) ?_
      rw [TypeExpr.parts, List.map_map]
      rw [Ty.parts, List.map_map] at hparts
      exact hparts

end Scope
end MachineLang
