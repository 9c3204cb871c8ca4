import MachineLang.Ty.Basic

set_option autoImplicit false

namespace MachineLang.Ty

/-- Induction with a hypothesis for each member of a tuple and each field of a named tuple. -/
@[elab_as_elim]
theorem treeInduction {motive : Ty → Prop}
    (prim : ∀ p, motive (.prim p))
    (seq : ∀ element, motive element → motive (.seq element))
    (set : ∀ element, motive element → motive (.set element))
    (map : ∀ key value, motive key → motive value → motive (.map key value))
    (tuple : ∀ elements, (∀ t ∈ elements, motive t) → motive (.tuple elements))
    (named : ∀ fields, (∀ field ∈ fields, motive field.2) → motive (.named fields))
    (enum : ∀ decl, motive (.enum decl))
    (typedef : ∀ name target, motive target → motive (.typedef name target))
    (permission : ∀ p, motive (.permission p))
    (foreign : ∀ name, motive (.foreign name)) (t : Ty) : motive t :=
  Ty.rec (motive_1 := motive) (motive_2 := fun ts => ∀ t ∈ ts, motive t)
    (motive_3 := fun fields => ∀ field ∈ fields, motive field.2)
    (motive_4 := fun field => motive field.2)
    prim seq set map tuple named enum typedef permission foreign
    (by simp) (fun _ _ hd tl => List.forall_mem_cons.2 ⟨hd, tl⟩)
    (by simp) (fun _ _ hd tl => List.forall_mem_cons.2 ⟨hd, tl⟩)
    (fun _ _ h => h) t

def parts : Ty → List Ty
  | seq element | set element => [element]
  | map key value => [key, value]
  | tuple elements => elements
  | named fields => fields.map Prod.snd
  | typedef _ target => [target]
  | prim _ | enum _ | permission _ | foreign _ => []

theorem partsInduction {motive : Ty → Prop}
    (step : ∀ t, (∀ s ∈ t.parts, motive s) → motive t) (t : Ty) : motive t := by
  induction t using treeInduction with
  | prim | enum | permission | foreign => exact step _ (by simp [parts])
  | seq _ ih | set _ ih | typedef _ _ ih => exact step _ (by simpa [parts] using ih)
  | map _ _ ihk ihv => exact step _ (by simp [parts, ihk, ihv])
  | tuple _ ih => exact step _ ih
  | named fields ih =>
    refine step _ fun s hs => ?_
    obtain ⟨field, hfield, rfl⟩ := List.mem_map.1 hs
    exact ih field hfield

mutual

/-- The type and every type inside it, the targets of typedefs included. -/
def nodes : Ty → List Ty
  | seq element => seq element :: element.nodes
  | set element => set element :: element.nodes
  | map key value => map key value :: (key.nodes ++ value.nodes)
  | tuple elements => tuple elements :: nodesAll elements
  | named fields => named fields :: nodesFields fields
  | typedef name target => typedef name target :: target.nodes
  | prim p => [prim p]
  | enum decl => [enum decl]
  | permission p => [permission p]
  | foreign name => [foreign name]

def nodesAll : List Ty → List Ty
  | [] => []
  | t :: ts => t.nodes ++ nodesAll ts

def nodesFields : List (String × Ty) → List Ty
  | [] => []
  | (_, t) :: fields => t.nodes ++ nodesFields fields

end

theorem nodesAll_eq_flatMap (ts : List Ty) : nodesAll ts = ts.flatMap nodes := by
  induction ts with
  | nil => rfl
  | cons t ts ih => rw [nodesAll, ih, List.flatMap_cons]

theorem nodesFields_eq_flatMap (fields : List (String × Ty)) :
    nodesFields fields = (fields.map Prod.snd).flatMap nodes := by
  induction fields with
  | nil => rfl
  | cons field fields ih => rw [nodesFields, ih, List.map_cons, List.flatMap_cons]

theorem nodes_eq (t : Ty) : t.nodes = t :: t.parts.flatMap nodes := by
  cases t <;> simp [nodes, parts, nodesAll_eq_flatMap, nodesFields_eq_flatMap]

theorem self_mem_nodes (t : Ty) : t ∈ t.nodes := by
  rw [nodes_eq]
  exact List.mem_cons_self

theorem mem_nodes_iff {u t : Ty} : u ∈ t.nodes ↔ u = t ∨ ∃ s ∈ t.parts, u ∈ s.nodes := by
  rw [nodes_eq, List.mem_cons, List.mem_flatMap]

theorem mem_nodes_of_part {u s t : Ty} (hs : s ∈ t.parts) (hu : u ∈ s.nodes) : u ∈ t.nodes :=
  mem_nodes_iff.2 (.inr ⟨s, hs, hu⟩)

theorem nodes_subset {s t : Ty} (h : s ∈ t.nodes) : s.nodes ⊆ t.nodes := by
  induction t using partsInduction with
  | step t ih =>
    rcases mem_nodes_iff.1 h with rfl | ⟨r, hr, hs⟩
    · exact List.Subset.refl _
    · exact fun u hu => mem_nodes_of_part hr (ih r hr hs hu)

def Everywhere (P : Ty → Prop) (t : Ty) : Prop := ∀ u ∈ t.nodes, P u

theorem Everywhere.self {P : Ty → Prop} {t : Ty} (h : Everywhere P t) : P t :=
  h t (self_mem_nodes t)

theorem Everywhere.part {P : Ty → Prop} {s t : Ty} (h : Everywhere P t) (hs : s ∈ t.parts) :
    Everywhere P s :=
  fun u hu => h u (mem_nodes_of_part hs hu)

theorem Everywhere.node {P : Ty → Prop} {s t : Ty} (h : Everywhere P t) (hs : s ∈ t.nodes) :
    Everywhere P s :=
  fun u hu => h u (nodes_subset hs hu)

theorem everywhere_iff {P : Ty → Prop} {t : Ty} :
    Everywhere P t ↔ P t ∧ ∀ s ∈ t.parts, Everywhere P s := by
  constructor
  · intro h
    exact ⟨h.self, fun s hs => h.part hs⟩
  · rintro ⟨ht, hparts⟩ u hu
    rcases mem_nodes_iff.1 hu with rfl | ⟨s, hs, hus⟩
    · exact ht
    · exact hparts s hs u hus

theorem unfold_mem_nodes (t : Ty) : t.unfold ∈ t.nodes := by
  fun_induction unfold t with
  | case1 name target ih => exact mem_nodes_of_part (List.mem_singleton_self target) ih
  | case2 t => exact self_mem_nodes t

mutual

/-- One for a type without parts, else one more than the greatest height of the parts. -/
def height : Ty → Nat
  | seq element | set element => element.height + 1
  | map key value => max key.height value.height + 1
  | tuple elements => heightAll elements + 1
  | named fields => heightFields fields + 1
  | typedef _ target => target.height + 1
  | prim _ | enum _ | permission _ | foreign _ => 1

def heightAll : List Ty → Nat
  | [] => 0
  | t :: ts => max t.height (heightAll ts)

def heightFields : List (String × Ty) → Nat
  | [] => 0
  | (_, t) :: fields => max t.height (heightFields fields)

end

theorem heightFields_eq (fields : List (String × Ty)) :
    heightFields fields = heightAll (fields.map Prod.snd) := by
  induction fields with
  | nil => rfl
  | cons field fields ih => rw [heightFields, ih, List.map_cons, heightAll]

theorem height_eq (t : Ty) : t.height = heightAll t.parts + 1 := by
  cases t <;> simp [height, parts, heightAll, heightFields_eq]

theorem height_le_heightAll {t : Ty} {ts : List Ty} (h : t ∈ ts) : t.height ≤ heightAll ts := by
  induction ts with
  | nil => simp at h
  | cons s ts ih =>
    rw [heightAll]
    rcases List.mem_cons.1 h with rfl | h
    · exact Nat.le_max_left _ _
    · exact Nat.le_trans (ih h) (Nat.le_max_right _ _)

theorem height_part_lt {s t : Ty} (h : s ∈ t.parts) : s.height < t.height := by
  rw [height_eq t]
  exact Nat.lt_succ_of_le (height_le_heightAll h)

theorem height_node_le {s t : Ty} (h : s ∈ t.nodes) : s.height ≤ t.height := by
  induction t using partsInduction with
  | step t ih =>
    rcases mem_nodes_iff.1 h with rfl | ⟨r, hr, hs⟩
    · exact Nat.le_refl _
    · have hlt := height_part_lt hr
      have hle := ih r hr hs
      omega

theorem unfoldInduction {motive : Ty → Prop}
    (step : ∀ t, (∀ s ∈ t.unfold.parts, motive s) → motive t) (t : Ty) : motive t :=
  step t fun s hs =>
    have : s.height < t.height :=
      Nat.lt_of_lt_of_le (height_part_lt hs) (height_node_le t.unfold_mem_nodes)
    unfoldInduction step s
termination_by t.height

def typedefNames (t : Ty) : List String :=
  t.nodes.filterMap fun
    | typedef name _ => some name
    | _ => none

theorem mem_typedefNames {name : String} {t : Ty} :
    name ∈ t.typedefNames ↔ ∃ target, typedef name target ∈ t.nodes := by
  rw [typedefNames, List.mem_filterMap]
  constructor
  · rintro ⟨u, hu, h⟩
    cases u <;> simp at h
    case typedef target => exact ⟨target, h ▸ hu⟩
  · rintro ⟨target, h⟩
    exact ⟨_, h, rfl⟩

theorem self_mem_typedefNames (name : String) (target : Ty) :
    name ∈ (typedef name target).typedefNames :=
  mem_typedefNames.2 ⟨target, self_mem_nodes _⟩

theorem typedefNames_node {s t : Ty} (h : s ∈ t.nodes) : s.typedefNames ⊆ t.typedefNames := by
  intro name hname
  obtain ⟨target, htarget⟩ := mem_typedefNames.1 hname
  exact mem_typedefNames.2 ⟨target, nodes_subset h htarget⟩

theorem mem_nodes_part {s t : Ty} (h : s ∈ t.parts) : s ∈ t.nodes :=
  mem_nodes_of_part h s.self_mem_nodes

theorem mem_typedefNames_iff {name : String} {t : Ty} :
    name ∈ t.typedefNames ↔
      (∃ target, t = typedef name target) ∨ ∃ s ∈ t.parts, name ∈ s.typedefNames := by
  simp only [mem_typedefNames, mem_nodes_iff (t := t)]
  constructor
  · rintro ⟨target, h | ⟨s, hs, h⟩⟩
    · exact .inl ⟨target, h.symm⟩
    · exact .inr ⟨s, hs, target, h⟩
  · rintro (⟨target, h⟩ | ⟨s, hs, target, h⟩)
    · exact ⟨target, .inl h.symm⟩
    · exact ⟨target, .inr ⟨s, hs, h⟩⟩

end MachineLang.Ty
