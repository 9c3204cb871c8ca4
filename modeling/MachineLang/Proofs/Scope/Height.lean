import Mathlib.Algebra.GroupWithZero.Nat
import Mathlib.Data.List.Nodup
import MachineLang.Proofs.Scope.Reach

set_option autoImplicit false

namespace MachineLang

namespace TypeExpr

mutual

/-- The nodes on the longest way down, where names are leaves. -/
def height : TypeExpr → Nat
  | seq element | set element => element.height + 1
  | map key value => max key.height value.height + 1
  | tuple elements => heightAll elements + 1
  | named fields => heightFields fields + 1
  | name _ | anyOf _ => 1

def heightAll : List TypeExpr → Nat
  | [] => 0
  | e :: es => max e.height (heightAll es)

def heightFields : List (String × TypeExpr) → Nat
  | [] => 0
  | (_, e) :: fields => max e.height (heightFields fields)

end

theorem heightFields_eq (fields : List (String × TypeExpr)) :
    heightFields fields = heightAll (fields.map Prod.snd) := by
  induction fields with
  | nil => rfl
  | cons field fields ih => rw [heightFields, ih, List.map_cons, heightAll]

theorem height_eq (e : TypeExpr) : e.height = heightAll e.parts + 1 := by
  cases e <;> simp [height, parts, heightAll, heightFields_eq]

theorem height_le_heightAll {e : TypeExpr} {es : List TypeExpr} (h : e ∈ es) :
    e.height ≤ heightAll es := by
  induction es with
  | nil => simp at h
  | cons first es ih =>
    rw [heightAll]
    rcases List.mem_cons.1 h with rfl | h
    · exact Nat.le_max_left _ _
    · exact Nat.le_trans (ih h) (Nat.le_max_right _ _)

theorem height_part_lt {e f : TypeExpr} (h : f ∈ e.parts) : f.height < e.height := by
  rw [height_eq e]
  exact Nat.lt_succ_of_le (height_le_heightAll h)

theorem one_le_height (e : TypeExpr) : 1 ≤ e.height := by
  rw [height_eq]
  omega

end TypeExpr

namespace Scope

/-- The heights of all targets but those of the open typedefs, added up. -/
def unread (scope : Scope) (opened : List String) : Nat :=
  ((scope.typedefs.filter fun typedef => typedef.1 ∉ opened).map fun typedef =>
    typedef.2.height).sum

/-- The height of the expression and of all targets together. -/
def roomFor (scope : Scope) (e : TypeExpr) : Nat :=
  e.height + (scope.typedefs.map fun typedef => typedef.2.height).sum

theorem roomFor_eq (scope : Scope) (e : TypeExpr) :
    scope.roomFor e = e.height + scope.unread [] := by
  simp [roomFor, unread]

theorem typedefs_nodup (scope : Scope) : (scope.typedefs.map Prod.fst).Nodup := by
  have hsublist : (scope.typedefs.map Prod.fst).Sublist (scope.types.map Prod.fst) := by
    unfold typedefs
    induction scope.types with
    | nil => exact .slnil
    | cons entry types ih =>
      obtain ⟨name, d⟩ := entry
      cases d with
      | typedef e => exact ih.cons_cons name
      | enum | interface | foreign => exact ih.cons name
  exact scope.names_nodup.sublist hsublist

theorem height_add_unread {scope : Scope} {opened : List String} {name : String} {e : TypeExpr}
    (hname : scope.find? name = some (.typedef e)) (hnew : name ∉ opened) :
    e.height + scope.unread (opened ++ [name]) = scope.unread opened := by
  obtain ⟨before, after, heq⟩ := List.append_of_mem (mem_typedefs.2 hname)
  have hnodup := scope.typedefs_nodup
  rw [heq, List.map_append, List.map_cons, List.nodup_append, List.nodup_cons] at hnodup
  obtain ⟨-, ⟨hafter, -⟩, hbefore⟩ := hnodup
  have hother : ∀ entries : List (String × TypeExpr), name ∉ entries.map Prod.fst →
      (entries.filter fun typedef => typedef.1 ∉ opened ++ [name]) =
        entries.filter fun typedef => typedef.1 ∉ opened := by
    intro entries hnot
    refine List.filter_congr fun typedef hmem => ?_
    have hne : typedef.1 ≠ name := fun h => hnot (h ▸ List.mem_map_of_mem hmem)
    simp [hne]
  have hnot : name ∉ before.map Prod.fst := fun h => hbefore name h name List.mem_cons_self rfl
  unfold unread
  rw [heq, List.filter_append, List.filter_append, hother before hnot]
  simp only [List.filter_cons, hother after hafter]
  simp [hnew]
  omega

theorem Coherent.height_le {scope : Scope} {t : Ty} (ht : scope.Coherent t) {opened : List String}
    (hclosed : ∀ name ∈ opened, name ∉ t.typedefNames) :
    t.height ≤ t.expr.height + scope.unread opened := by
  induction t using Ty.partsInduction generalizing opened with
  | step t ih =>
    have hpart : ∀ u ∈ t.parts, u.height + 1 ≤ t.expr.height + scope.unread opened := by
      intro u hu
      have hinside : ∀ name, name ∈ u.typedefNames → name ∈ t.typedefNames :=
        fun name hname => Ty.mem_typedefNames_iff.2 (.inr ⟨u, hu, hname⟩)
      have hexposes := ht.exposes_iff.2 ⟨u, hu, rfl⟩
      generalize he : t.expr = e at hexposes
      cases hexposes with
      | part hf =>
        have hlt := TypeExpr.height_part_lt hf
        have hle := ih u hu (ht.part hu) fun name hname hin => hclosed name hname (hinside name hin)
        omega
      | @target name e hname =>
        obtain ⟨target, rfl, hexpr⟩ := ht.declares.eq_typedef he hname
        obtain rfl := List.mem_singleton.1 hu
        have hnew : name ∉ opened := fun hopen =>
          hclosed name hopen (Ty.self_mem_typedefNames name u)
        have hclosed' : ∀ m ∈ opened ++ [name], m ∉ u.typedefNames := fun m hm hin => by
          rcases List.mem_append.1 hm with hm | hm
          · exact hclosed m hm (hinside m hin)
          · exact ht.not_mem_typedefNames (List.mem_singleton.1 hm ▸ hin)
        have hle := ih u hu (ht.part hu) hclosed'
        rw [hexpr, height_add_unread hname hnew] at hle
        rw [TypeExpr.height]
        omega
    have hall : ∀ us ⊆ t.parts, Ty.heightAll us + 1 ≤ t.expr.height + scope.unread opened := by
      intro us hus
      induction us with
      | nil =>
        have hone := t.expr.one_le_height
        rw [Ty.heightAll]
        omega
      | cons u us ihus =>
        obtain ⟨hu, hus⟩ := List.cons_subset.1 hus
        have hfirst := hpart u hu
        have hrest := ihus hus
        rw [Ty.heightAll]
        omega
    rw [Ty.height_eq]
    exact hall t.parts (List.Subset.refl _)

end Scope
end MachineLang
