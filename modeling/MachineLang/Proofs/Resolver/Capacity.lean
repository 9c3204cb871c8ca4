import MachineLang.Proofs.Resolver.Counters

set_option autoImplicit false

namespace MachineLang.Resolver
open Setup

namespace Counters

/-- Makes a call, and goes on whatever the answer. -/
def call (c : Counters) (s : Setup) : Call → EStateM Stop Progress Unit
  | .resolve e => do
    let _ ← c.resolve s e
    pure ()
  | .resolveTypedefs => do
    let _ ← c.resolveTypedefs s
    pure ()

def calls (c : Counters) (s : Setup) : List Call → EStateM Stop Progress Unit
  | [] => pure ()
  | call :: calls => do
    c.call s call
    c.calls s calls

end Counters

section Calls
variable {s : Setup} {c : Counters} {memo : Memo}

theorem call_eq (hnesting : s.scope.typedefs.length < c.nesting)
    (hrest : s.scope.unread [] ≤ c.capacity) {call : Call}
    (hroom : ∀ e, call = .resolve e → s.scope.roomFor e ≤ c.capacity) (hkept : s.Kept [] memo)
    (deepest : Nat) :
    c.call s call ⟨cacheOf memo, 0, [], deepest⟩ =
      .ok () (Progress.call s ⟨cacheOf memo, 0, [], deepest⟩ call) := by
  cases call with
  | resolve e =>
    exact bind_of_ok (countRoot_matches hnesting (hroom e rfl) hkept deepest).run_eq
  | resolveTypedefs =>
    have hall := countTypedefs_matches hnesting hrest (List.Subset.refl _) hkept deepest
    exact bind_of_ok hall.run_eq

theorem calls_eq (hnesting : s.scope.typedefs.length < c.nesting)
    (hrest : s.scope.unread [] ≤ c.capacity) {calls : List Call}
    (hroom : ∀ e, .resolve e ∈ calls → s.scope.roomFor e ≤ c.capacity) (hkept : s.Kept [] memo)
    (deepest : Nat) :
    c.calls s calls ⟨cacheOf memo, 0, [], deepest⟩ =
      .ok () (Progress.after s ⟨cacheOf memo, 0, [], deepest⟩ calls) := by
  induction calls generalizing memo deepest with
  | nil => rfl
  | cons call calls ih =>
    obtain ⟨after, hcall, -, hkept'⟩ := call_kept hkept call
    obtain ⟨deep, htracked⟩ := call_follows s memo deepest call
    rw [hcall] at htracked
    have hfirst :=
      call_eq hnesting hrest (fun e he => hroom e (he ▸ List.mem_cons_self)) hkept deepest
    rw [Counters.calls, bind_of_ok hfirst, Progress.after, List.foldl_cons, htracked]
    exact ih (fun e he => hroom e (List.mem_cons_of_mem call he)) hkept' deep

theorem exists_kept_after (s : Setup) (calls : List Call) :
    ∃ memo deep, (fresh s).after calls = ⟨s, memo⟩ ∧
      Progress.after s {} calls = ⟨cacheOf memo, 0, [], deep⟩ ∧ s.Kept [] memo := by
  obtain ⟨memo, deep, hresolver, hprogress, -, hkept⟩ := after_follows (s.kept_nil []) 0 calls
  exact ⟨memo, deep, hresolver, hprogress, hkept⟩

theorem progress_resolve (s : Setup) (calls : List Call) (e : TypeExpr) :
    (Progress.after s {} calls).resolve s e =
      ((((fresh s).after calls).resolve e).1, Progress.after s {} (calls ++ [.resolve e])) := by
  have hrest : ((Progress.after s {} calls).resolve s e).2 =
      Progress.after s {} (calls ++ [.resolve e]) := by
    rw [Progress.after, Progress.after, List.foldl_append]
    rfl
  obtain ⟨kept, deep, hfresh, hstate, -⟩ := exists_kept_after s calls
  have hanswer : ((Progress.after s {} calls).resolve s e).1 =
      (((fresh s).after calls).resolve e).1 := by
    have hrun := (run_follows (s := s) (trackRoot_follows s e kept deep)).2 id fun a _ b h => h
    rw [Except.map_id] at hrun
    rw [hstate, hfresh]
    exact hrun
  exact Prod.ext hanswer hrest

theorem resolve_after_calls {e : TypeExpr} (hnesting : s.scope.typedefs.length < c.nesting)
    (hroom : s.scope.roomFor e ≤ c.capacity) (calls : List Call) :
    c.resolve s e (Progress.after s {} calls) =
      .ok (((fresh s).after calls).resolve e).1 (Progress.after s {} (calls ++ [.resolve e])) := by
  obtain ⟨kept, deep, -, hstate, hkept⟩ := exists_kept_after s calls
  have htracked : c.resolve s e (Progress.after s {} calls) =
      .ok ((Progress.after s {} calls).resolve s e).1
        ((Progress.after s {} calls).resolve s e).2 := by
    rw [hstate]
    exact (countRoot_matches hnesting hroom hkept deep).run_eq
  rw [htracked, progress_resolve]

end Calls

/-- Reading ends, also where typedefs go round and no limit is set, with the answer of the resolver.
    Whatever was asked before, no depth and no sum of a depth and the height of a kept target goes
    beyond the height of the expression and of all declared targets together. So on counters of 32
    bits nothing overflows, and no difference is negative, in a run of calls in which this is below
    `2 ^ 32` for every expression. -/
theorem resolve_within_counters (s : Setup) (calls : List Call) (e : TypeExpr) {nesting : Nat}
    (hnesting : s.scope.typedefs.length < nesting) :
    let answer := (((fresh s).after calls).resolve e).1
    let rest := Progress.after s {} (calls ++ [.resolve e])
    Counters.resolve ⟨s.scope.roomFor e, nesting⟩ s e (Progress.after s {} calls) =
      .ok answer rest ∧
    ((∀ f, .resolve f ∈ calls ++ [.resolve e] → s.scope.roomFor f < 2 ^ 32) →
      let c : Counters := ⟨2 ^ 32 - 1, nesting⟩
      (do
        c.calls s calls
        c.resolve s e) {} = .ok answer rest) := by
  intro answer rest
  refine ⟨resolve_after_calls hnesting (Nat.le_refl _) calls, ?_⟩
  intro hfits c
  have hroom : ∀ f, .resolve f ∈ calls ++ [.resolve e] → s.scope.roomFor f ≤ c.capacity :=
    fun f hf => Nat.le_pred_of_lt (hfits f hf)
  have hself : s.scope.roomFor e ≤ c.capacity := hroom e (by simp)
  have htargets : s.scope.unread [] ≤ c.capacity := by
    rw [Scope.roomFor_eq] at hself
    omega
  have hcalls : c.calls s calls {} = .ok () (Progress.after s {} calls) :=
    calls_eq hnesting htargets (fun f hf => hroom f (List.mem_append_left _ hf)) (s.kept_nil []) 0
  rw [bind_of_ok hcalls]
  exact resolve_after_calls hnesting hself calls

def towerScope : Scope where
  types := [("Top", .typedef (.seq (.name "Middle"))), ("Middle", .typedef (.set (.name "Base"))),
    ("Base", .typedef (.seq (.name "int")))]
  events := []
  names_nodup := by decide
  names_free := by decide
  events_nodup := List.nodup_nil

theorem resolve_within_counters_tower :
    let s : Setup := ⟨towerScope, { limit := none }⟩
    let calls : List Call := [.resolve (.name "Middle")]
    let e : TypeExpr := .set (.name "Top")
    let c : Counters := ⟨2 ^ 32 - 1, 4⟩
    s.scope.typedefs.length < 4 ∧ s.scope.roomFor e = 8 ∧
    (∀ f, .resolve f ∈ calls ++ [.resolve e] → s.scope.roomFor f < 2 ^ 32) ∧
    ∃ t rest, Counters.resolve ⟨8, 4⟩ s e (Progress.after s {} calls) = .ok (.ok t) rest ∧
      (do
        c.calls s calls
        c.resolve s e) {} = .ok (.ok t) rest ∧
      ∃ stopped, Counters.resolve ⟨7, 4⟩ s e (Progress.after s {} calls) =
        .error .overflow stopped := by
  intro s calls e c
  have hlength : s.scope.typedefs.length < 4 := by decide
  have hroom : s.scope.roomFor e = 8 := rfl
  have hfits : ∀ f, .resolve f ∈ calls ++ [.resolve e] → s.scope.roomFor f < 2 ^ 32 := by
    intro f hf
    rcases List.mem_pair.1 hf with heq | heq
    · cases heq
      decide
    · cases heq
      decide
  obtain ⟨t, ht⟩ : ∃ t, (((fresh s).after calls).resolve e).1 = .ok t := ⟨_, rfl⟩
  obtain ⟨hcounted, hwords⟩ := resolve_within_counters s calls e hlength
  rw [ht] at hcounted hwords
  exact ⟨hlength, hroom, hfits, t, _, hcounted, hwords hfits, _, rfl⟩

end MachineLang.Resolver
