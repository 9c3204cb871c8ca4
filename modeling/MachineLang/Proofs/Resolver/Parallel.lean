import MachineLang.Proofs.Resolver.History

set_option autoImplicit false

namespace MachineLang.Resolver

/-- The answers are the same, unless the first one is an error that is excused. -/
inductive SameUnless (excused : ResolveError → Prop) {α : Type} :
    Except ResolveError α → Except ResolveError α → Prop
  | same (answer : Except ResolveError α) : SameUnless excused answer answer
  | error {e : ResolveError} (h : excused e) (answer : Except ResolveError α) :
    SameUnless excused (.error e) answer

namespace SameUnless
variable {excused : ResolveError → Prop} {α β : Type} {x y : Except ResolveError α}

theorem map (h : SameUnless excused x y) (f : α → β) : SameUnless excused (x.map f) (y.map f) := by
  cases h with
  | same => exact .same _
  | error h => exact .error h _

theorem bind {f g : α → Except ResolveError β} (h : SameUnless excused x y)
    (hnext : ∀ a, SameUnless excused (f a) (g a)) : SameUnless excused (x >>= f) (y >>= g) := by
  cases h with
  | same =>
    cases x with
    | error e => exact .same _
    | ok a => exact hnext a
  | error h => exact .error h _

theorem eq_or_error (h : SameUnless excused x y) : y = x ∨ ∃ e, x = .error e ∧ excused e := by
  cases h with
  | same => exact .inl rfl
  | error h => exact .inr ⟨_, rfl, h⟩

end SameUnless

/-- What the two setups have in common for expansions of which the second starts so many levels
    further down. -/
structure Parallel (excused : ResolveError → Prop) (s s' : Setup) (lower : Nat) : Prop where
  admitted : ∀ depth, s.admits depth → s'.admits (lower + depth)
  refused : ∀ depth, s'.admits (lower + depth) → s.admits depth ∨ excused .limitExceeded
  declared : ∀ name d, s.scope.find? name = some d → s'.scope.find? name = some d
  undeclared : ∀ name, s.scope.find? name = none →
    s'.scope.find? name = none ∨ excused (.unknownType name)
  events : ∀ events, s.undeclared? events = s'.undeclared? events ∨
    ∃ event, s.undeclared? events = some event ∧ excused (.unknownEvent event)

namespace Parallel
variable {excused : ResolveError → Prop} {s s' : Setup} {lower : Nat}
  {target target' : TargetExpander}

def Targets (excused : ResolveError → Prop) (lower : Nat) (target target' : TargetExpander) :
    Prop :=
  ∀ depth name e, SameUnless excused (target depth name e) (target' (lower + depth) name e)

theorem node (h : Parallel excused s s' lower) {α : Type} (depth : Nat)
    {x y : Except ResolveError α} (hxy : SameUnless excused x y) :
    SameUnless excused (if s.admits depth then x else .error .limitExceeded)
      (if s'.admits (lower + depth) then y else .error .limitExceeded) := by
  by_cases hdepth : s.admits depth
  · rw [if_pos hdepth, if_pos (h.admitted depth hdepth)]
    exact hxy
  · rw [if_neg hdepth]
    by_cases hdepth' : s'.admits (lower + depth)
    · rcases h.refused depth hdepth' with hadmitted | hexcused
      · exact absurd hadmitted hdepth
      · exact .error hexcused _
    · rw [if_neg hdepth']
      exact .same _

theorem expandPermission_same (h : Parallel excused s s' lower) (p : Permission) :
    SameUnless excused (s.expandPermission p) (s'.expandPermission p) := by
  unfold Setup.expandPermission
  rcases h.events p.events with heq | ⟨event, hevent, hexcused⟩
  · rw [heq]
    exact .same _
  · rw [hevent]
    exact .error hexcused _

theorem expandName_same (h : Parallel excused s s' lower)
    (htarget : Targets excused lower target target') (depth : Nat) (name : String) :
    SameUnless excused (s.expandName target depth name)
      (s'.expandName target' (lower + depth) name) := by
  unfold Setup.expandName
  cases Primitive.ofKeyword? name with
  | some p => exact .same _
  | none =>
    cases hfind : s.scope.find? name with
    | some d =>
      rw [h.declared name d hfind]
      cases d with
      | typedef e => exact (htarget depth name e).map _
      | interface receives => exact h.expandPermission_same _
      | enum | foreign => exact .same _
    | none =>
      rcases h.undeclared name hfind with hnone | hexcused
      · rw [hnone]
        exact .same _
      · exact .error hexcused _

theorem expandExprs_same {depth : Nat} {es : List TypeExpr}
    (he : ∀ e ∈ es, SameUnless excused (s.expandExpr target depth e)
      (s'.expandExpr target' (lower + depth) e)) :
    SameUnless excused (s.expandExprs target depth es)
      (s'.expandExprs target' (lower + depth) es) := by
  induction es with
  | nil => exact .same _
  | cons e es ih =>
    rw [Setup.expandExprs, Setup.expandExprs]
    refine (he e List.mem_cons_self).bind fun t => ?_
    exact (ih fun f hf => he f (List.mem_cons_of_mem e hf)).bind fun ts => .same _

theorem expandFields_same {depth : Nat} {fields : List (String × TypeExpr)}
    (he : ∀ field ∈ fields, SameUnless excused (s.expandExpr target depth field.2)
      (s'.expandExpr target' (lower + depth) field.2)) :
    SameUnless excused (s.expandFields target depth fields)
      (s'.expandFields target' (lower + depth) fields) := by
  induction fields with
  | nil => exact .same _
  | cons field fields ih =>
    rw [Setup.expandFields, Setup.expandFields]
    refine (he field List.mem_cons_self).bind fun t => ?_
    exact (ih fun f hf => he f (List.mem_cons_of_mem field hf)).bind fun ts => .same _

theorem expandExpr_same (h : Parallel excused s s' lower)
    (htarget : Targets excused lower target target') (depth : Nat) (e : TypeExpr) :
    SameUnless excused (s.expandExpr target depth e)
      (s'.expandExpr target' (lower + depth) e) := by
  induction e using TypeExpr.treeInduction generalizing depth with
  | name name =>
    rw [Setup.expandExpr, Setup.expandExpr]
    exact h.node depth (h.expandName_same htarget depth name)
  | seq element ih | set element ih =>
    rw [Setup.expandExpr, Setup.expandExpr]
    exact h.node depth ((ih (depth + 1)).map _)
  | map key value ihk ihv =>
    rw [Setup.expandExpr, Setup.expandExpr]
    refine h.node depth ((ihk (depth + 1)).bind fun k => ?_)
    exact (ihv (depth + 1)).bind fun v => .same _
  | tuple elements ih =>
    cases elements with
    | nil =>
      rw [Setup.expandExpr, Setup.expandExpr]
      exact h.node depth (.same _)
    | cons first rest =>
      rw [Setup.expandExpr, Setup.expandExpr]
      exact h.node depth ((expandExprs_same fun e he => ih e he (depth + 1)).map _)
  | named fields ih =>
    cases fields with
    | nil =>
      rw [Setup.expandExpr, Setup.expandExpr]
      exact h.node depth (.same _)
    | cons first rest =>
      rw [Setup.expandExpr, Setup.expandExpr]
      exact h.node depth ((expandFields_same fun field hf => ih field hf (depth + 1)).map _)
  | anyOf events =>
    rw [Setup.expandExpr, Setup.expandExpr]
    exact h.node depth (h.expandPermission_same _)

theorem expandTarget_same (h : Parallel excused s s' lower) (unopened : Nat)
    (opened : List String) :
    Targets excused lower (s.expandTarget unopened opened) (s'.expandTarget unopened opened) := by
  induction unopened generalizing opened with
  | zero => exact fun _ _ _ => .same _
  | succ unopened ih =>
    intro depth name e
    rw [Setup.expandTarget, Setup.expandTarget]
    split
    · exact .same _
    · exact h.expandExpr_same (ih _) (depth + 1) e

theorem expand_same (h : Parallel excused s s' 0) (e : TypeExpr) :
    SameUnless excused (s.expand e) (s'.expand e) := by
  have hroom := Nat.le_add_right s.scope.typedefs.length s'.scope.typedefs.length
  have hroom' := Nat.le_add_left s'.scope.typedefs.length s.scope.typedefs.length
  rw [← expand_eq s e hroom, ← expand_eq s' e hroom']
  exact h.expandExpr_same (h.expandTarget_same _ []) 1 e

end Parallel
end MachineLang.Resolver
