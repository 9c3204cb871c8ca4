import Mathlib.Data.List.Destutter
import MachineLang.Proofs.Text.ByteOrder
import MachineLang.Proofs.Ty.Assignable

set_option autoImplicit false

namespace MachineLang

namespace Permission

theorem eventSet_pairwise_bytes (p : Permission) :
    p.eventSet.Pairwise fun a b => Text.bytes a < Text.bytes b :=
  p.eventSet_pairwise.imp Text.bytes_lt

theorem mem_eventSet_iff_allows {p : Permission} {event : String} :
    event ∈ p.eventSet ↔ p.allows event := by
  rw [mem_eventSet, allows_iff]

theorem destutter_eq_eventSet {p : Permission} {sorted : List String}
    (hperm : sorted.Perm p.events) (hsorted : sorted.Pairwise (· ≤ ·)) :
    sorted.destutter (· ≠ ·) = p.eventSet := by
  have hle : sorted.dedup.Pairwise (· ≤ ·) := hsorted.sublist sorted.dedup_sublist
  have hlt : sorted.dedup.Pairwise (· < ·) :=
    hle.imp₂ (fun _ _ => Std.lt_of_le_of_ne) sorted.nodup_dedup
  rw [hsorted.destutter_eq_dedup]
  refine hlt.eq_of_mem_iff p.eventSet_pairwise fun event => ?_
  rw [List.mem_dedup, hperm.mem_iff, p.mem_eventSet]

def sortedEvents (p : Permission) : List String :=
  p.events.mergeSort fun a b => decide (Text.bytes a ≤ Text.bytes b)

theorem sortedEvents_pairwise (p : Permission) : p.sortedEvents.Pairwise (· ≤ ·) := by
  simp only [sortedEvents, Text.bytes_le_iff]
  exact List.pairwise_mergeSort' (· ≤ ·) p.events

theorem accepts_iff_eventSet {p q : Permission} : p.accepts q ↔ p.eventSet ⊆ q.eventSet := by
  rw [accepts_iff]
  constructor
  · intro h event hp
    exact (q.mem_eventSet event).2 (h ((p.mem_eventSet event).1 hp))
  · intro h event hp
    exact (q.mem_eventSet event).1 (h ((p.mem_eventSet event).2 hp))

/-- Sorting the events of a permission by their bytes and dropping repeats gives a strictly
increasing list of the events that the permission allows. It represents the permission: equal lists
mean that the same events are allowed, and a permission takes another whose list holds its own,
whatever their interfaces are called. -/
theorem eventSet_represents (p q : Permission) :
    (p.eventSet.Pairwise fun a b => Text.bytes a < Text.bytes b) ∧
    (∀ event, event ∈ p.eventSet ↔ p.allows event) ∧
    p.sortedEvents.destutter (· ≠ ·) = p.eventSet ∧
    (p.eventSet = q.eventSet ↔ ∀ event, p.allows event ↔ q.allows event) ∧
    ((Ty.permission p).accepts (Ty.permission q) ↔ p.eventSet ⊆ q.eventSet) := by
  have hsorted : p.sortedEvents.Perm p.events := p.events.mergeSort_perm _
  have haccepts : (Ty.permission p).accepts (Ty.permission q) = p.accepts q := rfl
  refine ⟨p.eventSet_pairwise_bytes, fun _ => mem_eventSet_iff_allows,
    destutter_eq_eventSet hsorted p.sortedEvents_pairwise, ?_, ?_⟩
  · simp only [eventSet_eq_iff, allows_iff]
  · rw [haccepts, accepts_iff_eventSet]

example : (⟨some "Client", ["é", "b", "Z", "é"]⟩ : Permission).eventSet = ["Z", "b", "é"] := by
  decide

end Permission
end MachineLang
