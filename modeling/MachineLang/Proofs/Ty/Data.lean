import Mathlib.Logic.Relation
import MachineLang.Proofs.Ty.Preorder

set_option autoImplicit false

namespace MachineLang.Ty

/-- The types whose own values are references, and `any`, which may hold one. -/
def HoldsReference (t : Ty) : Prop :=
  t = prim .any ∨ t = prim .machine ∨ ∃ p, t = permission p

theorem isData_iff_parts {t : Ty} :
    t.isData ↔ ¬ t.HoldsReference ∧ ∀ s ∈ t.parts, s.isData := by
  cases t with
  | prim p => cases p <;> simp [isData, Primitive.isData, HoldsReference, parts]
  | tuple elements => simp [isData, allData_eq_all, HoldsReference, parts]
  | named fields =>
    rw [isData, fieldsData_eq_all, List.all_eq_true, parts, List.forall_mem_map]
    simp [HoldsReference]
  | seq | set | map | typedef | enum | permission | foreign =>
    simp [isData, HoldsReference, parts]

theorem isData_iff_everywhere {t : Ty} : t.isData ↔ Everywhere (¬ HoldsReference ·) t := by
  induction t using partsInduction with
  | step t ih =>
    rw [isData_iff_parts, everywhere_iff]
    exact and_congr_right fun _ => forall₂_congr ih

/-- Some sequence of assignments takes values from places of the first type to places of the
    second. -/
abbrev Flows : Ty → Ty → Prop := Relation.ReflTransGen fun source target => target.accepts source

theorem Flows.isData {s t : Ty} (h : Flows s t) (ht : t.isData) : s.isData := by
  induction h using Relation.ReflTransGen.head_induction_on with
  | refl => exact ht
  | head hstep _ ih => exact isData_of_accepts ih hstep

/-- `data` takes the types without references, wherever these might be, and no detour through other
    types brings a reference to data. -/
theorem no_reference_flows_to_data :
    (∀ t : Ty, (prim .data).accepts t ↔ t.isData) ∧
    (∀ t : Ty, t.isData ↔
      ∀ u ∈ t.nodes, u ≠ prim .any ∧ u ≠ prim .machine ∧ ∀ p, u ≠ permission p) ∧
    (∀ a b : Ty, a.isData → a.accepts b → b.isData) ∧
    ∀ s t : Ty, Flows s t → (∃ u ∈ s.nodes, u.HoldsReference) → ¬ t.isData := by
  refine ⟨fun t => data_accepts, fun t => ?_, fun a b => isData_of_accepts, ?_⟩
  · rw [isData_iff_everywhere]
    simp [Everywhere, HoldsReference]
  · rintro s t hflows ⟨u, hu, hreference⟩ ht
    exact isData_iff_everywhere.1 (hflows.isData ht) u hu hreference

theorem no_reference_flows_to_data_peers :
    let table := map (prim .int) (prim .data)
    let names := typedef "Names" (map (prim .int) (seq (prim .string)))
    let peers := typedef "Peers" (set (permission ⟨some "Server", ["eGet", "ePut"]⟩))
    let loose := set (prim .any)
    table.isData ∧ table.accepts names ∧ names.isData ∧ Flows peers loose ∧ ¬ loose.isData := by
  intro table names peers loose
  have htable : table.isData := by decide
  have hnames : table.accepts names := by decide
  have hmachines : (set (prim .machine)).accepts peers := by decide
  have hloose : loose.accepts (set (prim .machine)) := by decide
  have hflows : Flows peers loose := .tail (.single hmachines) hloose
  have hreference : ∃ u ∈ peers.nodes, u.HoldsReference :=
    ⟨permission ⟨some "Server", ["eGet", "ePut"]⟩, by simp [peers, nodes], .inr (.inr ⟨_, rfl⟩)⟩
  exact ⟨htable, hnames, no_reference_flows_to_data.2.2.1 table names htable hnames, hflows,
    no_reference_flows_to_data.2.2.2 peers loose hflows hreference⟩

end MachineLang.Ty
