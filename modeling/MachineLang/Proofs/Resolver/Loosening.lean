import MachineLang.Proofs.Resolver.Outcome
import MachineLang.Proofs.Resolver.Parallel

set_option autoImplicit false

namespace MachineLang.Resolver

/-- The other settings have a limit that is no lower, if any, and check events only if these do. -/
structure Settings.Loosens (strict loose : Settings) : Prop where
  limit : ∀ high, loose.limit = some high → ∃ low, strict.limit = some low ∧ low ≤ high
  events : loose.checkEvents → strict.checkEvents

/-- There is a limit, and the one of the other settings is higher, if they have any. -/
def Settings.LimitBelow (strict loose : Settings) : Prop :=
  ∃ low, strict.limit = some low ∧ ∀ high, loose.limit = some high → low < high

/-- The errors with which only the stricter settings refuse. -/
def Settings.RefusesMore (strict loose : Settings) : ResolveError → Prop
  | .limitExceeded => strict.LimitBelow loose
  | .unknownEvent _ => strict.checkEvents ∧ ¬ loose.checkEvents
  | _ => False

inductive Lifts {α : Type} (strict loose : Settings) :
    Except ResolveError α → Except ResolveError α → Prop
  | same (answer : Except ResolveError α) : Lifts strict loose answer answer
  | limit (h : strict.LimitBelow loose) (answer : Except ResolveError α) :
    Lifts strict loose (.error .limitExceeded) answer
  | event (hstrict : strict.checkEvents) (hloose : ¬ loose.checkEvents) (event : String)
    (answer : Except ResolveError α) : Lifts strict loose (.error (.unknownEvent event)) answer

namespace Setup

section Simulation
variable {scope : Scope} {strict loose : Settings} {target target' : TargetExpander}

theorem admits_loosens (h : strict.Loosens loose) {depth : Nat}
    (hdepth : (Setup.mk scope strict).admits depth) : (Setup.mk scope loose).admits depth := by
  refine admits_iff.2 fun high hhigh => ?_
  obtain ⟨low, hlow, hle⟩ := h.limit high hhigh
  exact Nat.le_trans (admits_iff.1 hdepth low hlow) hle

theorem limitBelow_of_admits {depth : Nat} (hstrict : ¬ (Setup.mk scope strict).admits depth)
    (hloose : (Setup.mk scope loose).admits depth) : strict.LimitBelow loose := by
  rw [admits_iff, not_forall] at hstrict
  obtain ⟨low, hlow⟩ := hstrict
  rw [Classical.not_imp, Nat.not_le] at hlow
  refine ⟨low, hlow.1, fun high hhigh => ?_⟩
  exact Nat.lt_of_lt_of_le hlow.2 (admits_iff.1 hloose high hhigh)

theorem undeclared?_loosens (h : strict.Loosens loose) (events : List String) :
    (Setup.mk scope strict).undeclared? events = (Setup.mk scope loose).undeclared? events ∨
      ∃ event, (Setup.mk scope strict).undeclared? events = some event ∧
        strict.checkEvents ∧ ¬ loose.checkEvents := by
  by_cases hloose : loose.checkEvents
  · refine .inl ?_
    simp only [undeclared?, hloose, h.events hloose]
  · have hnone : (Setup.mk scope loose).undeclared? events = none :=
      undeclared?_eq_none.2 fun hcheck => absurd hcheck hloose
    rw [hnone]
    cases hevent : (Setup.mk scope strict).undeclared? events with
    | none => exact .inl rfl
    | some event => exact .inr ⟨event, rfl, (undeclared?_eq_some hevent).1, hloose⟩

theorem parallel_of_loosens (h : strict.Loosens loose) :
    Parallel (strict.RefusesMore loose) ⟨scope, strict⟩ ⟨scope, loose⟩ 0 where
  admitted := by
    intro depth hdepth
    rw [Nat.zero_add]
    exact admits_loosens h hdepth
  refused := by
    intro depth hloose
    rw [Nat.zero_add] at hloose
    by_cases hstrict : (Setup.mk scope strict).admits depth
    · exact .inl hstrict
    · exact .inr (limitBelow_of_admits hstrict hloose)
  declared := fun _ _ hfind => hfind
  undeclared := fun _ hnone => .inl hnone
  events := undeclared?_loosens h

theorem expandTarget_lifts (h : strict.Loosens loose) (unopened : Nat) (opened : List String) :
    Parallel.Targets (strict.RefusesMore loose) 0
      ((Setup.mk scope strict).expandTarget unopened opened)
      ((Setup.mk scope loose).expandTarget unopened opened) :=
  (parallel_of_loosens h).expandTarget_same unopened opened

theorem expandExpr_lifts (h : strict.Loosens loose)
    (htarget : Parallel.Targets (strict.RefusesMore loose) 0 target target') (depth : Nat)
    (e : TypeExpr) :
    Lifts strict loose ((Setup.mk scope strict).expandExpr target depth e)
      ((Setup.mk scope loose).expandExpr target' depth e) := by
  have hparallel : Parallel (strict.RefusesMore loose) ⟨scope, strict⟩ ⟨scope, loose⟩ 0 :=
    parallel_of_loosens h
  have hsame := hparallel.expandExpr_same htarget depth e
  rw [Nat.zero_add] at hsame
  generalize (Setup.mk scope strict).expandExpr target depth e = answer at hsame
  cases hsame with
  | same => exact .same _
  | @error err hrefused answer =>
    cases err with
    | limitExceeded => exact .limit hrefused _
    | unknownEvent event => exact .event hrefused.1 hrefused.2 event _
    | unknownType | cyclicTypedef | emptyTuple => exact hrefused.elim

end Simulation

end Setup

/-- Under looser settings an expression has the same answer, be it a type or an error, unless the
    stricter settings have refused it for their lower limit or for an event that only they look up.
    The calls made before may differ. Without a limit no expression lies too deep, and no event is
    missed that is not looked up. -/
theorem resolve_loosened (scope : Scope) (e : TypeExpr) :
    (∀ (strict loose : Settings) (calls calls' : List Call), strict.Loosens loose →
      let answer := (((fresh ⟨scope, strict⟩).after calls).resolve e).1
      let answer' := (((fresh ⟨scope, loose⟩).after calls').resolve e).1
      answer = answer' ∨
      answer = .error .limitExceeded ∧ strict.LimitBelow loose ∨
      ∃ event, answer = .error (.unknownEvent event) ∧ strict.checkEvents ∧ ¬ loose.checkEvents) ∧
    (∀ (settings : Settings) (calls : List Call), settings.limit = none →
      (((fresh ⟨scope, settings⟩).after calls).resolve e).1 ≠ .error .limitExceeded) ∧
    ∀ (settings : Settings) (calls : List Call) (event : String), ¬ settings.checkEvents →
      (((fresh ⟨scope, settings⟩).after calls).resolve e).1 ≠ .error (.unknownEvent event) := by
  refine ⟨fun strict loose calls calls' h => ?_, fun settings calls hnone herror => ?_,
    fun settings calls event hcheck herror => ?_⟩
  · have hexpand : Lifts strict loose ((Setup.mk scope strict).expand e)
        ((Setup.mk scope loose).expand e) :=
      Setup.expandExpr_lifts h (Setup.expandTarget_lifts h _ []) 1 e
    rw [resolve_after, resolve_after]
    generalize (Setup.mk scope strict).expand e = answer at hexpand
    cases hexpand with
    | same => exact .inl rfl
    | limit hbelow => exact .inr (.inl ⟨rfl, hbelow⟩)
    | event hstrict hloose event => exact .inr (.inr ⟨event, rfl, hstrict, hloose⟩)
  · rw [resolve_after] at herror
    obtain ⟨limit, -, -, hlimit, -⟩ := Setup.expand_genuine herror
    rw [hnone] at hlimit
    cases hlimit
  · rw [resolve_after] at herror
    exact hcheck (Setup.expand_genuine herror).1

theorem resolve_loosened_plain :
    let strict : Settings := { limit := some 4 }
    let loose : Settings := { limit := none, checkEvents := false }
    let calls : List Call := [.resolve (.name "Plain")]
    let e : TypeExpr := .tuple [.seq (.seq (.name "Plain")), .anyOf ["eLost"]]
    let answer := (((fresh ⟨ringScope, strict⟩).after calls).resolve e).1
    let answer' := ((fresh ⟨ringScope, loose⟩).resolve e).1
    strict.Loosens loose ∧ answer = .error .limitExceeded ∧ (∃ t, answer' = .ok t) ∧
    strict.LimitBelow loose ∧ loose.limit = none ∧ answer' ≠ .error .limitExceeded ∧
    ¬ loose.checkEvents ∧ answer' ≠ .error (.unknownEvent "eLost") := by
  intro strict loose calls e answer answer'
  have hloosens : strict.Loosens loose := ⟨by simp [loose], by simp [loose]⟩
  have hanswer : answer = .error .limitExceeded := rfl
  obtain ⟨t, hanswer'⟩ : ∃ t, answer' = .ok t := ⟨_, rfl⟩
  obtain ⟨hlifts, hdeep, hmissed⟩ := resolve_loosened ringScope e
  have hcheck : ¬ loose.checkEvents := by simp [loose]
  refine ⟨hloosens, hanswer, ⟨t, hanswer'⟩, ?_, rfl, hdeep loose [] rfl, hcheck,
    hmissed loose [] "eLost" hcheck⟩
  rcases hlifts strict loose calls [] hloosens with hsame | ⟨-, hbelow⟩ | ⟨event, hevent, -⟩
  · cases hanswer.symm.trans (hsame.trans hanswer')
  · exact hbelow
  · cases hanswer.symm.trans hevent

end MachineLang.Resolver
