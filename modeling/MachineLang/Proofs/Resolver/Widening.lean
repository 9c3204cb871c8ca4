import MachineLang.Proofs.Resolver.Outcome
import MachineLang.Proofs.Resolver.Parallel

set_option autoImplicit false

namespace MachineLang

namespace Scope

/-- What the scope declares is declared by the other as well, at whatever place. -/
structure Within (scope wider : Scope) : Prop where
  types : scope.types ⊆ wider.types
  events : scope.events ⊆ wider.events

theorem Within.find? {scope wider : Scope} (h : scope.Within wider) {name : String}
    {d : Declaration} (hfind : scope.find? name = some d) : wider.find? name = some d :=
  find?_of_mem (h.types (mem_of_find? hfind))

theorem hasEvent_iff {scope : Scope} {event : String} :
    scope.hasEvent event ↔ event ∈ scope.events := by
  rw [hasEvent, List.contains_iff_mem]

theorem Within.hasEvent {scope wider : Scope} (h : scope.Within wider) {event : String}
    (hevent : scope.hasEvent event) : wider.hasEvent event :=
  hasEvent_iff.2 (h.events (hasEvent_iff.1 hevent))

/-- The error is for want of something that only the wider scope declares. -/
def Supplies (scope wider : Scope) : ResolveError → Prop
  | .unknownType name => ¬ scope.contains name ∧ wider.contains name
  | .unknownEvent event => ¬ scope.hasEvent event ∧ wider.hasEvent event
  | _ => False

theorem not_supplies_of_perm {scope other : Scope} (htypes : scope.types.Perm other.types)
    (hevents : scope.events.Perm other.events) (e : ResolveError) : ¬ scope.Supplies other e := by
  intro h
  cases e with
  | unknownType name =>
    obtain ⟨hnone, hsome⟩ := h
    rw [contains, List.contains_iff_mem] at hnone hsome
    exact hnone ((htypes.map Prod.fst).mem_iff.2 hsome)
  | unknownEvent event =>
    obtain ⟨hnone, hsome⟩ := h
    rw [hasEvent_iff] at hnone hsome
    exact hnone (hevents.mem_iff.2 hsome)
  | cyclicTypedef | emptyTuple | limitExceeded => exact h

end Scope

namespace Resolver
open Setup

section Widening
variable {scope wider : Scope} {settings : Settings}

theorem find?_eq_none_widened (name : String) (hnone : scope.find? name = none) :
    wider.find? name = none ∨ scope.Supplies wider (.unknownType name) := by
  cases hfind : wider.find? name with
  | none => exact .inl rfl
  | some d =>
    refine .inr ⟨fun hcontains => ?_, (wider.contains_iff name).2 ⟨d, hfind⟩⟩
    obtain ⟨d', hd'⟩ := (scope.contains_iff name).1 hcontains
    rw [hnone] at hd'
    cases hd'

theorem undeclared?_widened (h : scope.Within wider) (events : List String) :
    (Setup.mk scope settings).undeclared? events = (Setup.mk wider settings).undeclared? events ∨
      ∃ event, (Setup.mk scope settings).undeclared? events = some event ∧
        scope.Supplies wider (.unknownEvent event) := by
  cases hevent : (Setup.mk scope settings).undeclared? events with
  | none =>
    have hall := undeclared?_eq_none.1 hevent
    refine .inl (undeclared?_eq_none.2 fun hcheck event hmem => ?_).symm
    exact h.hasEvent (hall hcheck event hmem)
  | some event =>
    obtain ⟨hcheck, hnone, -⟩ := undeclared?_eq_some hevent
    by_cases hwider : wider.hasEvent event
    · exact .inr ⟨event, rfl, hnone, hwider⟩
    · obtain ⟨-, before, after, rfl, hbefore⟩ := List.find?_eq_some_iff_append.1 hevent
      refine .inl (List.find?_eq_some_iff_append.2 ⟨?_, before, after, rfl, fun e he => ?_⟩).symm
      · rw [Bool.and_eq_true, Bool.not_eq_true', Bool.eq_false_iff]
        exact ⟨hcheck, hwider⟩
      · have hdeclared : scope.hasEvent e := by
          have hgood := hbefore e he
          rw [hcheck, Bool.true_and, Bool.not_not] at hgood
          exact hgood
        rw [h.hasEvent hdeclared, Bool.not_true, Bool.and_false, Bool.not_false]

theorem parallel_of_within (h : scope.Within wider) :
    Parallel (scope.Supplies wider) ⟨scope, settings⟩ ⟨wider, settings⟩ 0 where
  admitted := by
    intro depth hdepth
    rwa [Nat.zero_add]
  refused := by
    intro depth hdepth
    rw [Nat.zero_add] at hdepth
    exact .inl hdepth
  declared := fun _ _ hfind => h.find? hfind
  undeclared := find?_eq_none_widened
  events := undeclared?_widened h

end Widening

/-- An expression has the same answer, be it a type or an error, in every scope that declares more,
    unless the narrower scope has missed something that the wider one declares. In scopes that
    differ in the order of their declarations every answer is the same. -/
theorem resolve_widened {scope wider : Scope} (h : scope.Within wider) (settings : Settings)
    (calls calls' : List Call) (e : TypeExpr) :
    let answer := (((fresh ⟨scope, settings⟩).after calls).resolve e).1
    let answer' := (((fresh ⟨wider, settings⟩).after calls').resolve e).1
    (answer' = answer ∨
      (∃ name, answer = .error (.unknownType name) ∧ ¬ scope.contains name ∧
        wider.contains name) ∨
      ∃ event, answer = .error (.unknownEvent event) ∧ ¬ scope.hasEvent event ∧
        wider.hasEvent event) ∧
    (scope.types.Perm wider.types → scope.events.Perm wider.events → answer' = answer) := by
  intro answer answer'
  have hsame : answer' = answer ∨ ∃ err, answer = .error err ∧ scope.Supplies wider err := by
    simp only [answer, answer', resolve_after]
    exact ((parallel_of_within h).expand_same e).eq_or_error
  refine ⟨?_, fun htypes hevents => ?_⟩
  · rcases hsame with heq | ⟨err, herr, hsupplies⟩
    · exact .inl heq
    · cases err with
      | unknownType name => exact .inr (.inl ⟨name, herr, hsupplies⟩)
      | unknownEvent event => exact .inr (.inr ⟨event, herr, hsupplies⟩)
      | cyclicTypedef | emptyTuple | limitExceeded => exact hsupplies.elim
  · rcases hsame with heq | ⟨err, -, hsupplies⟩
    · exact heq
    · exact absurd hsupplies (Scope.not_supplies_of_perm htypes hevents err)

def turnedScope : Scope where
  types := ringScope.types.reverse
  events := []
  names_nodup := by decide
  names_free := by decide
  events_nodup := List.nodup_nil

def widerScope : Scope where
  types := ("Extra", .typedef (.seq (.name "Chain"))) :: ("Door", .interface ["eOpen"]) ::
    ringScope.types.reverse
  events := ["eOpen"]
  names_nodup := by decide
  names_free := by decide
  events_nodup := by decide

theorem resolve_widened_ring :
    let strict : Settings := { limit := some 10 }
    let answer (scope : Scope) (e : TypeExpr) := ((fresh ⟨scope, strict⟩).resolve e).1
    let ring := ["Cell", "Link", "Cell"]
    ringScope.Within turnedScope ∧ ringScope.Within widerScope ∧
    ringScope.types.Perm turnedScope.types ∧ ringScope.events.Perm turnedScope.events ∧
    answer ringScope (.name "Chain") = .error (.cyclicTypedef ring) ∧
    answer turnedScope (.name "Chain") = .error (.cyclicTypedef ring) ∧
    answer widerScope (.name "Chain") = .error (.cyclicTypedef ring) ∧
    answer ringScope (.name "Extra") = .error (.unknownType "Extra") ∧
    answer widerScope (.name "Extra") = .error (.cyclicTypedef ring) ∧
    widerScope.contains "Extra" := by
  intro strict answer ring
  have hperm : ringScope.types.Perm turnedScope.types := (List.reverse_perm _).symm
  have hturned : ringScope.Within turnedScope := ⟨hperm.subset, by simp [ringScope]⟩
  have hwider : ringScope.Within widerScope := by
    refine ⟨fun d hd => ?_, by simp [ringScope]⟩
    exact List.mem_cons_of_mem _ (List.mem_cons_of_mem _ (List.mem_reverse.2 hd))
  have hring : answer ringScope (.name "Chain") = .error (.cyclicTypedef ring) := rfl
  have hextra : answer ringScope (.name "Extra") = .error (.unknownType "Extra") := rfl
  have hturn := (resolve_widened hturned strict [] [] (.name "Chain")).2 hperm .nil
  refine ⟨hturned, hwider, hperm, .nil, hring, hturn.trans hring, ?_, hextra, rfl, ?_⟩
  · rcases (resolve_widened hwider strict [] [] (.name "Chain")).1 with
      heq | ⟨name, herr, -⟩ | ⟨event, herr, -⟩
    · exact heq.trans hring
    · cases hring.symm.trans herr
    · cases hring.symm.trans herr
  · rcases (resolve_widened hwider strict [] [] (.name "Extra")).1 with
      heq | ⟨name, herr, -, hcontains⟩ | ⟨event, herr, -⟩
    · cases heq.trans hextra
    · cases hextra.symm.trans herr
      exact hcontains
    · cases hextra.symm.trans herr

end Resolver
end MachineLang
