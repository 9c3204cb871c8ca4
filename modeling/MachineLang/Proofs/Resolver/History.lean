import MachineLang.Proofs.Resolver.Memo

set_option autoImplicit false

namespace MachineLang.Resolver

inductive Call where
  | resolve (e : TypeExpr)
  | resolveTypedefs

def fresh (s : Setup) : Resolver := { toSetup := s }

/-- The resolver that a call leaves behind, be the answer a result or an error. -/
def call (r : Resolver) : Call → Resolver
  | .resolve e => (r.resolve e).2
  | .resolveTypedefs => r.resolveTypedefs.2

def after (r : Resolver) (calls : List Call) : Resolver := calls.foldl call r

namespace Setup

/-- Expands typedefs as if each were mentioned one level above the root of an expression. -/
def expandTypedefs (s : Setup) :
    List (String × TypeExpr) → Except ResolveError (List (String × Ty))
  | [] => .ok []
  | (name, e) :: typedefs => do
    let t ← s.expandTarget s.scope.typedefs.length [] 0 name e
    let rest ← s.expandTypedefs typedefs
    pure ((name, t) :: rest)

theorem readRoot_meets {s : Setup} {unopened : Nat} (h : s.scope.typedefs.length ≤ unopened)
    (e : TypeExpr) {memo : Memo} (hkept : s.Kept [] memo) :
    s.Meets [] memo (fun _ t u => t = u) (s.readRoot e memo)
      (s.expandExpr (s.expandTarget unopened []) 1 e) := by
  have hagree := readTarget_agrees (opens_nil (Nat.le_refl s.scope.typedefs.length)) (opens_nil h)
  have hread : s.Meets [] memo Measures (s.readExpr s.readOutermost 1 e memo)
      (s.expandExpr (s.expandTarget unopened []) 1 e) := readExpr_meets hagree hkept
  have hroot : s.Meets [] memo (fun _ t u => t = u) (s.readRoot e memo)
      ((s.expandExpr (s.expandTarget unopened []) 1 e).map id) := by
    refine hread.map fun read t after hmeasures => ?_
    rw [hmeasures.1]
    rfl
  have hid : ∀ answer : Except ResolveError Ty, answer.map id = answer := by
    intro answer
    cases answer <;> rfl
  rwa [hid] at hroot

theorem readTypedefs_meets {s : Setup} {typedefs : List (String × TypeExpr)}
    (hdeclared : typedefs ⊆ s.scope.typedefs) {memo : Memo} (hkept : s.Kept [] memo) :
    s.Meets [] memo (fun _ ts us => ts = us) (s.readTypedefs typedefs memo)
      (s.expandTypedefs typedefs) := by
  induction typedefs generalizing memo with
  | nil => exact meets_pure hkept rfl
  | cons typedef typedefs ih =>
    obtain ⟨hname, hdeclared⟩ := List.cons_subset.1 hdeclared
    have hopens := opens_nil (Nat.le_refl s.scope.typedefs.length)
    have hread := readTarget_agrees hopens hopens 0 _ _ memo (Scope.mem_typedefs.1 hname) hkept
    rw [readTypedefs, expandTypedefs]
    refine hread.bind fun read t after _ _ hkept hread => ?_
    refine (ih hdeclared hkept).bind fun rest us final _ _ hkept hrest => ?_
    rw [hread.1.1, hrest]
    exact meets_pure hkept rfl

theorem expandTypedefs_answers {s : Setup} {typedefs : List (String × TypeExpr)}
    (hdeclared : typedefs ⊆ s.scope.typedefs) {types : List (String × Ty)}
    (h : s.expandTypedefs typedefs = .ok types) {name : String} {t : Ty} (ht : (name, t) ∈ types) :
    s.scope.find? name = some (.typedef t.expr) ∧ s.Answers 0 t.expr t := by
  induction typedefs generalizing types with
  | nil =>
    cases h
    cases ht
  | cons typedef typedefs ih =>
    obtain ⟨hname, hdeclared⟩ := List.cons_subset.1 hdeclared
    have hfind := Scope.mem_typedefs.1 hname
    rw [expandTypedefs] at h
    obtain ⟨u, hu, h⟩ := bind_eq_ok.1 h
    obtain ⟨rest, hrest, h⟩ := bind_eq_ok.1 h
    cases h
    rcases List.mem_cons.1 ht with heq | ht
    · cases heq
      have hanswer := expandTarget_sound s _ _ 0 _ _ _ hfind hu
      rw [hanswer.expr]
      exact ⟨hfind, hanswer⟩
    · exact ih hdeclared hrest ht

end Setup

theorem run_meets {α : Type} {s : Setup} {memo : Memo} {reading : Reading α}
    {answer : Except ResolveError α}
    (h : s.Meets [] memo (fun _ a b => a = b) (reading memo) answer) :
    ∃ kept, Resolver.run ⟨s, memo⟩ reading = (answer, ⟨s, kept⟩) ∧ memo <:+ kept ∧
      s.Kept [] kept := by
  unfold run
  cases hresult : reading memo with
  | ok a kept =>
    rw [hresult] at h
    cases answer with
    | ok b =>
      obtain ⟨hgrown, hkept, rfl⟩ := h
      exact ⟨kept, rfl, hgrown, hkept⟩
    | error e => exact h.elim
  | error e kept =>
    rw [hresult] at h
    cases answer with
    | ok b => exact h.elim
    | error e' =>
      obtain ⟨hgrown, hkept, rfl⟩ := h
      exact ⟨kept, rfl, hgrown, hkept⟩

theorem resolve_kept {s : Setup} {memo : Memo} (hkept : s.Kept [] memo) (e : TypeExpr) :
    ∃ kept, (Resolver.mk s memo).resolve e = (s.expand e, ⟨s, kept⟩) ∧ memo <:+ kept ∧
      s.Kept [] kept :=
  run_meets (Setup.readRoot_meets (Nat.le_refl _) e hkept)

theorem resolveTypedefs_kept {s : Setup} {memo : Memo} (hkept : s.Kept [] memo) :
    ∃ kept, (Resolver.mk s memo).resolveTypedefs =
      (s.expandTypedefs s.scope.typedefs, ⟨s, kept⟩) ∧ memo <:+ kept ∧ s.Kept [] kept :=
  run_meets (Setup.readTypedefs_meets (List.Subset.refl _) hkept)

theorem call_kept {s : Setup} {memo : Memo} (hkept : s.Kept [] memo) (c : Call) :
    ∃ kept, (Resolver.mk s memo).call c = ⟨s, kept⟩ ∧ memo <:+ kept ∧ s.Kept [] kept := by
  cases c with
  | resolve e =>
    obtain ⟨kept, heq, h⟩ := resolve_kept hkept e
    exact ⟨kept, congrArg Prod.snd heq, h⟩
  | resolveTypedefs =>
    obtain ⟨kept, heq, h⟩ := resolveTypedefs_kept hkept
    exact ⟨kept, congrArg Prod.snd heq, h⟩

theorem after_kept {s : Setup} {memo : Memo} (hkept : s.Kept [] memo) (calls : List Call) :
    ∃ kept, (Resolver.mk s memo).after calls = ⟨s, kept⟩ ∧ memo <:+ kept ∧ s.Kept [] kept := by
  induction calls generalizing memo with
  | nil => exact ⟨memo, rfl, List.suffix_refl memo, hkept⟩
  | cons c calls ih =>
    obtain ⟨middle, hcall, hgrown, hkept⟩ := call_kept hkept c
    obtain ⟨kept, hafter, hgrown', hkept⟩ := ih hkept
    refine ⟨kept, ?_, hgrown.trans hgrown', hkept⟩
    rw [← hafter, ← hcall]
    rfl

theorem resolve_after (s : Setup) (calls : List Call) (e : TypeExpr) :
    (((fresh s).after calls).resolve e).1 = s.expand e := by
  obtain ⟨middle, hafter, -, hkept⟩ := after_kept (s.kept_nil []) calls
  obtain ⟨kept, hresolve, -⟩ := resolve_kept hkept e
  rw [fresh, hafter, hresolve]

theorem resolve_eq_ok_iff {s : Setup} {calls : List Call} {e : TypeExpr} {t : Ty} :
    (((fresh s).after calls).resolve e).1 = .ok t ↔ s.Answers 0 e t := by
  rw [resolve_after, Setup.expand_eq_ok_iff]

theorem resolveTypedefs_after (s : Setup) (calls : List Call) :
    ((fresh s).after calls).resolveTypedefs.1 = s.expandTypedefs s.scope.typedefs := by
  obtain ⟨middle, hafter, -, hkept⟩ := after_kept (s.kept_nil []) calls
  obtain ⟨kept, hresolve, -⟩ := resolveTypedefs_kept hkept
  rw [fresh, hafter, hresolve]

theorem resolveTypedefs_answers {s : Setup} {calls : List Call} {typedefs : List (String × Ty)}
    (h : ((fresh s).after calls).resolveTypedefs.1 = .ok typedefs) {name : String} {t : Ty}
    (ht : (name, t) ∈ typedefs) :
    s.scope.find? name = some (.typedef t.expr) ∧ s.Answers 0 t.expr t := by
  rw [resolveTypedefs_after] at h
  exact Setup.expandTypedefs_answers (List.Subset.refl _) h ht

theorem expand_eq (s : Setup) (e : TypeExpr) {unopened : Nat}
    (h : s.scope.typedefs.length ≤ unopened) :
    s.expandExpr (s.expandTarget unopened []) 1 e = s.expand e := by
  have hkept := s.kept_nil []
  obtain ⟨kept, hrun, -⟩ := run_meets (s.readRoot_meets h e hkept)
  obtain ⟨kept', hresolve, -⟩ := resolve_kept hkept e
  exact congrArg Prod.fst (hrun.symm.trans hresolve)

/-- The answer to an expression depends neither on the calls made before nor on what they kept. It
    is that of a new resolver and that of the expansion, however much room this has for typedefs. -/
theorem resolve_forgets_history (s : Setup) (calls : List Call) (e : TypeExpr) :
    (((fresh s).after calls).resolve e).1 = ((fresh s).resolve e).1 ∧
    ((fresh s).resolve e).1 = s.expand e ∧
    ∀ unopened, s.scope.typedefs.length ≤ unopened →
      s.expandExpr (s.expandTarget unopened []) 1 e = s.expand e := by
  have hfresh : ((fresh s).resolve e).1 = s.expand e := resolve_after s [] e
  refine ⟨?_, hfresh, fun unopened h => expand_eq s e h⟩
  rw [hfresh]
  exact resolve_after s calls e

end MachineLang.Resolver
