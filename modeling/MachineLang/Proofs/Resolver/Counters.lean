import MachineLang.Resolver.Counters
import MachineLang.Proofs.Resolver.Rest
import MachineLang.Proofs.Scope.Height

set_option autoImplicit false

namespace MachineLang.Resolver
open Setup Tracking

/-- A reading with counters does not stop, and ends like the tracked one: with the same answer, in
    the same state, back at its depth with the same typedefs open. The greatest depth met has not
    fallen, also on the way back from an error. -/
inductive Matches {α : Type} (s : Setup) (opened : List String) (depth deepest : Nat) :
    EStateM.Result Counters.Stop Progress (Except ResolveError α) →
    EStateM.Result ResolveError Progress α → Prop
  | ok {a : α} {memo : Memo} {deep : Nat} (hkept : s.Kept opened memo) (hdeep : deepest ≤ deep) :
    Matches s opened depth deepest (.ok (.ok a) ⟨cacheOf memo, depth, opened, deep⟩)
      (.ok a ⟨cacheOf memo, depth, opened, deep⟩)
  | error {e : ResolveError} {memo : Memo} {deep : Nat} (hkept : s.Kept opened memo)
    (hdeep : deepest ≤ deep) :
    Matches s opened depth deepest (.ok (.error e) ⟨cacheOf memo, depth, opened, deep⟩)
      (.error e ⟨cacheOf memo, depth, opened, deep⟩)

section Matches
variable {α β : Type} {s : Setup} {opened : List String} {depth deepest : Nat} {memo : Memo}

theorem matches_pure (hkept : s.Kept opened memo) (a : α) :
    Matches s opened depth deepest
      ((pure a : Counting α) ⟨cacheOf memo, depth, opened, deepest⟩)
      ((pure a : Tracking α) ⟨cacheOf memo, depth, opened, deepest⟩) :=
  .ok hkept (Nat.le_refl deepest)

theorem matches_throw (hkept : s.Kept opened memo) (e : ResolveError) :
    Matches s opened depth deepest
      ((throw e : Counting α) ⟨cacheOf memo, depth, opened, deepest⟩)
      ((throw e : Tracking α) ⟨cacheOf memo, depth, opened, deepest⟩) :=
  .error hkept (Nat.le_refl deepest)

theorem Matches.of_deeper {deeper : Nat}
    {result : EStateM.Result Counters.Stop Progress (Except ResolveError α)}
    {tracked : EStateM.Result ResolveError Progress α}
    (h : Matches s opened depth deeper result tracked) (hdeep : deepest ≤ deeper) :
    Matches s opened depth deepest result tracked := by
  cases h with
  | ok hkept hdeeper => exact .ok hkept (Nat.le_trans hdeep hdeeper)
  | error hkept hdeeper => exact .error hkept (Nat.le_trans hdeep hdeeper)

theorem counting_bind_of_ok {x : Counting α} {f : α → Counting β} {p after : Progress} {a : α}
    (h : x p = .ok (.ok a) after) : (x >>= f) p = f a after :=
  bind_of_ok (f := ExceptT.bindCont f) h

theorem counting_bind_of_error {x : Counting α} {f : α → Counting β} {p after : Progress}
    {e : ResolveError} (h : x p = .ok (.error e) after) :
    (x >>= f) p = .ok (.error e) after :=
  bind_of_ok (f := ExceptT.bindCont f) h

theorem Matches.bind {x : Counting α} {f : α → Counting β} {y : Tracking α} {g : α → Tracking β}
    {p : Progress} (hx : Matches s opened depth deepest (x p) (y p))
    (hnext : ∀ a after deep, s.Kept opened after → deepest ≤ deep →
      Matches s opened depth deep (f a ⟨cacheOf after, depth, opened, deep⟩)
        (g a ⟨cacheOf after, depth, opened, deep⟩)) :
    Matches s opened depth deepest ((x >>= f) p) ((y >>= g) p) := by
  generalize hresult : x p = result, htracked : y p = tracked at hx
  cases hx with
  | ok hkept hdeep =>
    rw [counting_bind_of_ok hresult, bind_of_ok htracked]
    exact (hnext _ _ _ hkept hdeep).of_deeper hdeep
  | error hkept hdeep =>
    rw [counting_bind_of_error hresult, bind_of_error htracked]
    exact .error hkept hdeep

theorem counting_get_bind (f : Progress → Counting β) (p : Progress) :
    ((get : Counting Progress) >>= f) p = f p p :=
  rfl

theorem set_bind {ε σ γ : Type} (f : PUnit → EStateM ε σ γ) (before after : σ) :
    ((set after : EStateM ε σ PUnit) >>= f) before = f ⟨⟩ after :=
  rfl

theorem add_eq {c : Counters} {a b : Nat} (h : a + b ≤ c.capacity) (p : Progress) :
    c.add a b p = .ok (a + b) p := by
  rw [Counters.add, if_pos h]
  rfl

theorem subtract_eq {a b : Nat} (h : b ≤ a) (p : Progress) :
    Counters.subtract a b p = .ok (a - b) p := by
  rw [Counters.subtract, if_pos h]
  rfl

theorem lift_bind {x : EStateM Counters.Stop Progress α} {f : α → Counting β} {p after : Progress}
    {a : α} (h : x p = .ok a after) : (ExceptT.lift x >>= f) p = f a after := by
  have hlift : (ExceptT.lift x : Counting α) p = .ok (.ok a) after := by
    change (Functor.map Except.ok x : EStateM _ _ _) p = _
    simp only [Functor.map, EStateM.map, h]
  exact counting_bind_of_ok hlift

theorem nested_eq {c : Counters} {reading : Counting α} {p after : Progress}
    {answer : Except ResolveError α} (hroom : p.depth + 1 ≤ c.capacity)
    (h : reading.run p.enter = .ok answer after) (hdepth : after.depth = p.depth + 1) :
    c.nested reading p = .ok answer after.leave := by
  have hpositive : 1 ≤ after.depth := by omega
  change reading.run { p with depth := _, deepest := _ } = _ at h
  simp only [Counters.nested, ExceptT.mk, get_bind, bind_of_ok (add_eq hroom p), set_bind,
    bind_of_ok h, bind_of_ok (subtract_eq hpositive after)]
  rfl

theorem measuring_eq {name : String} {reading : Counting α} {p after : Progress}
    {answer : Except ResolveError α}
    (h : reading.run ({ p with deepest := p.depth }.push name) = .ok answer after)
    (hdepth : p.depth ≤ after.deepest) :
    Counters.measuring name reading p =
      .ok (answer.map fun a => (a, after.deepest - p.depth)) (after.pop.reach p.deepest) := by
  change reading.run { p with deepest := _, opened := _ } = _ at h
  simp only [Counters.measuring, ExceptT.mk, get_bind, set_bind, bind_of_ok h,
    bind_of_ok (subtract_eq hdepth after)]
  rfl

theorem nested_matches {c : Counters} {reading : Counting α} {plain : Tracking α}
    (hroom : depth + 1 ≤ c.capacity)
    (h : Matches s opened (depth + 1) (max deepest (depth + 1))
      (reading ⟨cacheOf memo, depth + 1, opened, max deepest (depth + 1)⟩)
      (plain ⟨cacheOf memo, depth + 1, opened, max deepest (depth + 1)⟩)) :
    Matches s opened depth deepest (c.nested reading ⟨cacheOf memo, depth, opened, deepest⟩)
      (Tracking.nested plain ⟨cacheOf memo, depth, opened, deepest⟩) := by
  generalize hcount : reading ⟨cacheOf memo, depth + 1, opened, max deepest (depth + 1)⟩ = result,
    htrack : plain ⟨cacheOf memo, depth + 1, opened, max deepest (depth + 1)⟩ = tracked at h
  change Matches s opened depth deepest _ (Tracking.restoring Progress.leave plain
    ⟨cacheOf memo, depth + 1, opened, max deepest (depth + 1)⟩)
  rw [Tracking.restoring, htrack]
  cases h with
  | ok hkept hdeep =>
    rw [nested_eq (p := ⟨cacheOf memo, depth, opened, deepest⟩) hroom hcount rfl]
    exact .ok hkept (Nat.le_trans (Nat.le_max_left _ _) hdeep)
  | error hkept hdeep =>
    rw [nested_eq (p := ⟨cacheOf memo, depth, opened, deepest⟩) hroom hcount rfl]
    exact .error hkept (Nat.le_trans (Nat.le_max_left _ _) hdeep)

theorem countNode_matches {c : Counters} {reading : Counting α} {plain : Tracking α}
    (hkept : s.Kept opened memo) (hroom : depth + 1 ≤ c.capacity)
    (h : Matches s opened (depth + 1) (max deepest (depth + 1))
      (reading ⟨cacheOf memo, depth + 1, opened, max deepest (depth + 1)⟩)
      (plain ⟨cacheOf memo, depth + 1, opened, max deepest (depth + 1)⟩)) :
    Matches s opened depth deepest
      (s.countNode c reading ⟨cacheOf memo, depth, opened, deepest⟩)
      (s.trackNode plain ⟨cacheOf memo, depth, opened, deepest⟩) := by
  refine nested_matches hroom ?_
  rw [counting_get_bind, get_bind]
  by_cases hdepth : s.admits (depth + 1)
  · simp only [hdepth, if_true]
    exact h
  · simp only [hdepth]
    exact matches_throw hkept _

theorem opening_of_ok {name : String} {plain : Tracking α} {p after : Progress} {a : α}
    (h : plain (p.push name) = .ok a after) : opening name plain p = .ok a after.pop := by
  change Tracking.restoring Progress.pop plain (p.push name) = _
  rw [Tracking.restoring, h]

theorem opening_of_error {name : String} {plain : Tracking α} {p after : Progress}
    {e : ResolveError} (h : plain (p.push name) = .error e after) :
    opening name plain p = .error e after.pop := by
  change Tracking.restoring Progress.pop plain (p.push name) = _
  rw [Tracking.restoring, h]

/-- Opening a typedef and measuring its target come to the same, whichever is done first. -/
theorem measuring_matches {name : String} {reading : Counting α} {plain : Tracking α}
    (h : Matches s (opened ++ [name]) depth depth
      (reading ⟨cacheOf memo, depth, opened ++ [name], depth⟩)
      (plain ⟨cacheOf memo, depth, opened ++ [name], depth⟩)) :
    Matches s opened depth deepest
      (Counters.measuring name reading ⟨cacheOf memo, depth, opened, deepest⟩)
      (Tracking.measuring (opening name plain) ⟨cacheOf memo, depth, opened, deepest⟩) := by
  generalize hcount : reading ⟨cacheOf memo, depth, opened ++ [name], depth⟩ = result,
    htrack : plain ⟨cacheOf memo, depth, opened ++ [name], depth⟩ = tracked at h
  change Matches s opened depth deepest _ (Tracking.restoring (Progress.reach deepest) (do
    let a ← opening name plain
    let after ← get
    pure (a, after.deepest - depth)) ⟨cacheOf memo, depth, opened, depth⟩)
  rw [Tracking.restoring]
  cases h with
  | ok hkept hdeep =>
    rw [measuring_eq (p := ⟨cacheOf memo, depth, opened, deepest⟩) hcount hdeep,
      bind_of_ok (opening_of_ok (p := ⟨cacheOf memo, depth, opened, depth⟩) htrack)]
    simp only [Progress.pop, List.dropLast_concat]
    exact .ok hkept.pop (Nat.le_max_right _ _)
  | error hkept hdeep =>
    rw [measuring_eq (p := ⟨cacheOf memo, depth, opened, deepest⟩) hcount hdeep,
      bind_of_error (opening_of_error (p := ⟨cacheOf memo, depth, opened, depth⟩) htrack)]
    simp only [Progress.pop, List.dropLast_concat]
    exact .error hkept.pop (Nat.le_max_right _ _)

end Matches

/-- Targets are read alike while the counters hold what the other targets can add to the depth. -/
def TargetMatches (s : Setup) (c : Counters) (opened : List String)
    (counted : String → TypeExpr → Counting Typedef)
    (tracked : String → TypeExpr → Tracking Typedef) : Prop :=
  ∀ (depth deepest : Nat) (name : String) (e : TypeExpr) (memo : Memo),
    s.scope.find? name = some (.typedef e) → s.Kept opened memo → depth ≤ deepest →
    depth + s.scope.unread opened ≤ c.capacity →
    Matches s opened depth deepest (counted name e ⟨cacheOf memo, depth, opened, deepest⟩)
      (tracked name e ⟨cacheOf memo, depth, opened, deepest⟩)

section Readings
variable {s : Setup} {c : Counters} {opened : List String}
  {counted : String → TypeExpr → Counting Typedef} {tracked : String → TypeExpr → Tracking Typedef}
  {depth deepest : Nat} {memo : Memo}

theorem countPermission_matches (hkept : s.Kept opened memo) (p : Permission) :
    Matches s opened depth deepest (s.countPermission p ⟨cacheOf memo, depth, opened, deepest⟩)
      (s.trackPermission p ⟨cacheOf memo, depth, opened, deepest⟩) := by
  unfold countPermission trackPermission
  cases s.undeclared? p.events with
  | some event => exact matches_throw hkept _
  | none => exact matches_pure hkept _

theorem countName_matches (htarget : TargetMatches s c opened counted tracked)
    (hkept : s.Kept opened memo) (hdeep : depth ≤ deepest)
    (hroom : depth + s.scope.unread opened ≤ c.capacity) (name : String) :
    Matches s opened depth deepest
      (s.countName counted name ⟨cacheOf memo, depth, opened, deepest⟩)
      (s.trackName tracked name ⟨cacheOf memo, depth, opened, deepest⟩) := by
  unfold countName trackName
  cases Primitive.ofKeyword? name with
  | some p => exact matches_pure hkept _
  | none =>
    cases hfind : s.scope.find? name with
    | none => exact matches_throw hkept _
    | some declaration =>
      cases declaration with
      | typedef e =>
        refine (htarget depth deepest name e memo hfind hkept hdeep hroom).bind ?_
        exact fun typedef after deep hkept _ => matches_pure hkept _
      | interface receives => exact countPermission_matches hkept _
      | enum | foreign => exact matches_pure hkept _

theorem countExprs_matches {es : List TypeExpr}
    (he : ∀ e ∈ es, ∀ deepest memo, s.Kept opened memo → depth ≤ deepest →
      Matches s opened depth deepest
        (s.countExpr c counted e ⟨cacheOf memo, depth, opened, deepest⟩)
        (s.trackExpr tracked e ⟨cacheOf memo, depth, opened, deepest⟩))
    (hkept : s.Kept opened memo) (hdeep : depth ≤ deepest) :
    Matches s opened depth deepest
      (s.countExprs c counted es ⟨cacheOf memo, depth, opened, deepest⟩)
      (s.trackExprs tracked es ⟨cacheOf memo, depth, opened, deepest⟩) := by
  induction es generalizing deepest memo with
  | nil =>
    rw [countExprs, trackExprs]
    exact matches_pure hkept _
  | cons e es ih =>
    rw [countExprs, trackExprs]
    refine (he e List.mem_cons_self deepest memo hkept hdeep).bind fun t after deep hkept hle => ?_
    refine (ih (fun f hf => he f (List.mem_cons_of_mem e hf)) hkept (by omega)).bind ?_
    exact fun ts after deep hkept _ => matches_pure hkept _

theorem countFields_matches {fields : List (String × TypeExpr)}
    (he : ∀ field ∈ fields, ∀ deepest memo, s.Kept opened memo → depth ≤ deepest →
      Matches s opened depth deepest
        (s.countExpr c counted field.2 ⟨cacheOf memo, depth, opened, deepest⟩)
        (s.trackExpr tracked field.2 ⟨cacheOf memo, depth, opened, deepest⟩))
    (hkept : s.Kept opened memo) (hdeep : depth ≤ deepest) :
    Matches s opened depth deepest
      (s.countFields c counted fields ⟨cacheOf memo, depth, opened, deepest⟩)
      (s.trackFields tracked fields ⟨cacheOf memo, depth, opened, deepest⟩) := by
  induction fields generalizing deepest memo with
  | nil =>
    rw [countFields, trackFields]
    exact matches_pure hkept _
  | cons field fields ih =>
    rw [countFields, trackFields]
    refine (he field List.mem_cons_self deepest memo hkept hdeep).bind
      fun t after deep hkept hle => ?_
    refine (ih (fun f hf => he f (List.mem_cons_of_mem field hf)) hkept (by omega)).bind ?_
    exact fun ts after deep hkept _ => matches_pure hkept _

theorem countExpr_matches (htarget : TargetMatches s c opened counted tracked) (e : TypeExpr)
    (hkept : s.Kept opened memo) (hdeep : depth ≤ deepest)
    (hroom : depth + e.height + s.scope.unread opened ≤ c.capacity) :
    Matches s opened depth deepest
      (s.countExpr c counted e ⟨cacheOf memo, depth, opened, deepest⟩)
      (s.trackExpr tracked e ⟨cacheOf memo, depth, opened, deepest⟩) := by
  have hnode : ∀ {depth deepest : Nat}, depth + 1 ≤ max deepest (depth + 1) :=
    Nat.le_max_right _ _
  have hlevel : ∀ {e : TypeExpr} {depth : Nat},
      depth + e.height + s.scope.unread opened ≤ c.capacity → depth + 1 ≤ c.capacity := by
    intro e depth hroom
    have hone := e.one_le_height
    omega
  have hpart : ∀ {e f : TypeExpr} {depth : Nat}, f ∈ e.parts →
      depth + e.height + s.scope.unread opened ≤ c.capacity →
      depth + 1 + f.height + s.scope.unread opened ≤ c.capacity := by
    intro e f depth hf hroom
    have hlt := TypeExpr.height_part_lt hf
    omega
  induction e using TypeExpr.treeInduction generalizing depth deepest memo with
  | name name =>
    rw [countExpr, trackExpr]
    exact countNode_matches hkept (hlevel hroom)
      (countName_matches htarget hkept hnode hroom name)
  | seq element ih | set element ih =>
    rw [countExpr, trackExpr]
    refine countNode_matches hkept (hlevel hroom) ?_
    refine (ih hkept hnode (hpart (by simp [TypeExpr.parts]) hroom)).bind ?_
    exact fun t after deep hkept _ => matches_pure hkept _
  | map key value ihk ihv =>
    rw [countExpr, trackExpr]
    refine countNode_matches hkept (hlevel hroom) ?_
    refine (ihk hkept hnode (hpart (by simp [TypeExpr.parts]) hroom)).bind
      fun k after deep hkept hle => ?_
    refine (ihv hkept (Nat.le_trans hnode hle) (hpart (by simp [TypeExpr.parts]) hroom)).bind ?_
    exact fun v after deep hkept _ => matches_pure hkept _
  | tuple elements ih =>
    cases elements with
    | nil =>
      rw [countExpr, trackExpr]
      exact countNode_matches hkept (hlevel hroom) (matches_throw hkept _)
    | cons first rest =>
      rw [countExpr, trackExpr]
      refine countNode_matches hkept (hlevel hroom) ?_
      refine (countExprs_matches (fun e he deepest memo hkept hdeep => ?_) hkept hnode).bind ?_
      · exact ih e he hkept hdeep (hpart (e := .tuple _) he hroom)
      · exact fun ts after deep hkept _ => matches_pure hkept _
  | named fields ih =>
    cases fields with
    | nil =>
      rw [countExpr, trackExpr]
      exact countNode_matches hkept (hlevel hroom) (matches_throw hkept _)
    | cons first rest =>
      rw [countExpr, trackExpr]
      refine countNode_matches hkept (hlevel hroom) ?_
      refine (countFields_matches (fun field hf deepest memo hkept hdeep => ?_) hkept hnode).bind ?_
      · exact ih field hf hkept hdeep (hpart (List.mem_map_of_mem hf) hroom)
      · exact fun ts after deep hkept _ => matches_pure hkept _
  | anyOf events =>
    rw [countExpr, trackExpr]
    exact countNode_matches hkept (hlevel hroom) (countPermission_matches hkept _)

end Readings

section Target
variable (s : Setup) (c : Counters) (nesting : Nat) {opened : List String} {depth deepest : Nat}
  {name : String} (e : TypeExpr) {memo : Memo}

theorem countTypedef_kept {kept : Measured} (h : memo.lookup name = some kept)
    (hroom : depth + kept.height ≤ c.capacity) :
    s.countTypedef c (nesting + 1) name e ⟨cacheOf memo, depth, opened, deepest⟩ =
      if s.admits (depth + kept.height) then
        .ok (.ok ⟨name, kept.type⟩)
          ⟨cacheOf memo, depth, opened, max deepest (depth + kept.height)⟩
      else .ok (.error .limitExceeded) ⟨cacheOf memo, depth, opened, deepest⟩ := by
  rw [countTypedef, counting_get_bind]
  simp only [lookup_cacheOf, h, Option.map_some]
  rw [lift_bind (add_eq hroom _)]
  split <;> rfl

theorem countTypedef_opened (hnone : memo.lookup name = none) (h : name ∈ opened) :
    s.countTypedef c (nesting + 1) name e ⟨cacheOf memo, depth, opened, deepest⟩ =
      .ok (.error (.cyclicTypedef (cycle opened name))) ⟨cacheOf memo, depth, opened, deepest⟩ := by
  have hopen : opened.contains name := by simpa using h
  rw [countTypedef, counting_get_bind]
  simp only [lookup_cacheOf, hnone, Option.map_none, hopen, if_true]
  rfl

theorem countTypedef_unopened (hnone : memo.lookup name = none) (h : name ∉ opened) :
    s.countTypedef c (nesting + 1) name e ⟨cacheOf memo, depth, opened, deepest⟩ =
      (do
        let read ← Counters.measuring name (s.countExpr c (s.countTypedef c nesting) e)
        modify (Progress.keep name ⟨⟨name, read.1⟩, read.2⟩)
        pure ⟨name, read.1⟩ : Counting Typedef) ⟨cacheOf memo, depth, opened, deepest⟩ := by
  have hopen : ¬ opened.contains name := by simpa using h
  rw [countTypedef, counting_get_bind]
  simp only [lookup_cacheOf, hnone, Option.map_none, hopen]
  rfl

end Target

theorem trackTypedef_kept_after {s : Setup} {unopened : Nat} {opened : List String}
    (hopens : s.Opens unopened opened) {depth deepest : Nat} {name : String} {e : TypeExpr}
    {memo : Memo} (hfind : s.scope.find? name = some (.typedef e)) (hkept : s.Kept opened memo)
    (hdeep : depth ≤ deepest) (typedef : Typedef) (after : Progress)
    (h : s.trackTypedef unopened name e ⟨cacheOf memo, depth, opened, deepest⟩ =
      .ok typedef after) :
    ∃ kept, after.cache = cacheOf kept ∧ s.Kept opened kept := by
  have hfollows := trackTypedef_follows s unopened opened depth deepest name e memo hdeep
  have hmeets := readTarget_agrees hopens hopens depth name e memo hfind hkept
  rw [h] at hfollows
  generalize s.readTarget unopened opened depth name e memo = plain at hfollows hmeets
  cases hfollows with
  | ok _ =>
    cases hanswer : s.expandTarget unopened opened depth name e with
    | error _ =>
      rw [hanswer] at hmeets
      exact hmeets.elim
    | ok t =>
      rw [hanswer] at hmeets
      exact ⟨_, rfl, hmeets.2.1⟩

theorem Matches.keep {s : Setup} {opened : List String} {depth deepest : Nat} {name : String}
    {counted : Counting (Ty × Nat)} {tracked : Tracking (Ty × Nat)} {p : Progress}
    (h : Matches s opened depth deepest (counted p) (tracked p))
    (hkept : ∀ typedef after,
      (do
        let read ← tracked
        modify (Progress.keep name ⟨⟨name, read.1⟩, read.2⟩)
        pure ⟨name, read.1⟩ : Tracking Typedef) p = .ok typedef after →
      ∃ memo, after.cache = cacheOf memo ∧ s.Kept opened memo) :
    Matches s opened depth deepest
      ((do
        let read ← counted
        modify (Progress.keep name ⟨⟨name, read.1⟩, read.2⟩)
        pure ⟨name, read.1⟩ : Counting Typedef) p)
      ((do
        let read ← tracked
        modify (Progress.keep name ⟨⟨name, read.1⟩, read.2⟩)
        pure ⟨name, read.1⟩ : Tracking Typedef) p) := by
  generalize hcount : counted p = result, htrack : tracked p = plain at h
  cases h with
  | error hkept hdeep =>
    rw [counting_bind_of_error hcount, bind_of_error htrack]
    exact .error hkept hdeep
  | @ok read memo deep _ hdeep =>
    let typedef : Typedef := ⟨name, read.1⟩
    obtain ⟨kept, hcache, hkept⟩ := hkept typedef
      (Progress.keep name ⟨typedef, read.2⟩ ⟨cacheOf memo, depth, opened, deep⟩) (bind_of_ok htrack)
    have hafter : Progress.keep name ⟨typedef, read.2⟩ ⟨cacheOf memo, depth, opened, deep⟩ =
        ⟨cacheOf kept, depth, opened, deep⟩ := by
      rw [← hcache]
      rfl
    rw [counting_bind_of_ok hcount, bind_of_ok htrack]
    change Matches s opened depth deepest (.ok (.ok typedef) (Progress.keep name _ _))
      (.ok typedef (Progress.keep name _ _))
    rw [hafter]
    exact .ok hkept hdeep

theorem Setup.Kept.height_le {s : Setup} {opened : List String} {memo : Memo} {name : String}
    {kept : Measured} (h : s.Kept opened memo) (hmem : (name, kept) ∈ memo) :
    kept.height ≤ s.scope.unread opened := by
  have htarget := h.targets name kept hmem
  have hle := htarget.stands.coherent.height_le (h.not_mem_typedefNames hmem)
  rw [Ty.height, Ty.expr, TypeExpr.height] at hle
  rw [htarget.measured]
  omega

/-- As many targets inside each other as there are typedefs are enough, and one more to find that no
    other is left. -/
theorem countTypedef_matches {s : Setup} {c : Counters} {nesting unopened : Nat}
    {opened : List String} (hnesting : s.scope.typedefs.length < opened.length + nesting)
    (hopens : s.Opens unopened opened) :
    TargetMatches s c opened (s.countTypedef c nesting) (s.trackTypedef unopened) := by
  induction nesting generalizing unopened opened with
  | zero =>
    have hle : opened.length ≤ (s.scope.typedefs.map Prod.fst).length :=
      (hopens.nodup.subperm hopens.declared).length_le
    rw [List.length_map] at hle
    omega
  | succ nesting ih =>
    intro depth deepest name e memo hfind hkept hdeep hroom
    cases unopened with
    | zero =>
      have hopen := hopens.mem_of_zero hfind
      have hnone : memo.lookup name = none := by
        rw [List.lookup_eq_none_iff]
        intro entry hentry
        exact bne_iff_ne.2 fun heq => hkept.apart name hopen (heq ▸ List.mem_map_of_mem hentry)
      rw [countTypedef_opened s c nesting e hnone hopen]
      exact .error hkept (Nat.le_refl deepest)
    | succ unopened =>
      cases hlookup : memo.lookup name with
      | some kept =>
        have hheight := hkept.height_le (mem_of_lookup hlookup)
        rw [countTypedef_kept s c nesting e hlookup (by omega),
          trackTypedef_kept s unopened depth deepest e hlookup]
        split
        · exact .ok hkept (Nat.le_max_left _ _)
        · exact .error hkept (Nat.le_refl deepest)
      | none =>
        by_cases hopen : name ∈ opened
        · rw [countTypedef_opened s c nesting e hlookup hopen,
            trackTypedef_opened s unopened depth deepest e hlookup hopen]
          exact .error hkept (Nat.le_refl deepest)
        · have hafter := trackTypedef_kept_after hopens hfind hkept hdeep
          rw [countTypedef_unopened s c nesting e hlookup hopen]
          rw [trackTypedef_unopened s unopened depth deepest e hlookup hopen] at hafter ⊢
          have htarget := ih (by simp; omega) (hopens.push hfind hopen)
          have hroom : depth + e.height + s.scope.unread (opened ++ [name]) ≤ c.capacity := by
            rwa [Nat.add_assoc, Scope.height_add_unread hfind hopen]
          have hread := countExpr_matches htarget e (hkept.push hlookup) (Nat.le_refl depth) hroom
          exact (measuring_matches hread).keep hafter

theorem countTypedef_matches_nil {s : Setup} {c : Counters}
    (hnesting : s.scope.typedefs.length < c.nesting) :
    TargetMatches s c [] (s.countTypedef c c.nesting)
      (s.trackTypedef s.scope.typedefs.length) :=
  countTypedef_matches (by simpa using hnesting) (opens_nil (Nat.le_refl _))

theorem countTypedefs_matches {s : Setup} {c : Counters}
    (hnesting : s.scope.typedefs.length < c.nesting) (hroom : s.scope.unread [] ≤ c.capacity)
    {typedefs : List (String × TypeExpr)} (hdeclared : typedefs ⊆ s.scope.typedefs) {memo : Memo}
    (hkept : s.Kept [] memo) (deepest : Nat) :
    Matches s [] 0 deepest (s.countTypedefs c typedefs ⟨cacheOf memo, 0, [], deepest⟩)
      (s.trackTypedefs typedefs ⟨cacheOf memo, 0, [], deepest⟩) := by
  induction typedefs generalizing memo deepest with
  | nil => exact matches_pure hkept _
  | cons typedef typedefs ih =>
    obtain ⟨name, e⟩ := typedef
    obtain ⟨hname, hdeclared⟩ := List.cons_subset.1 hdeclared
    have hread := countTypedef_matches_nil hnesting 0 deepest name e memo
      (Scope.mem_typedefs.1 hname) hkept (Nat.zero_le deepest) (by omega)
    rw [countTypedefs, trackTypedefs]
    refine hread.bind fun typedef after deep hkept _ => ?_
    refine (ih hdeclared hkept deep).bind fun rest final deeper hkept _ => matches_pure hkept _

theorem countRoot_matches {s : Setup} {c : Counters}
    (hnesting : s.scope.typedefs.length < c.nesting) {e : TypeExpr}
    (hroom : s.scope.roomFor e ≤ c.capacity) {memo : Memo} (hkept : s.Kept [] memo)
    (deepest : Nat) :
    Matches s [] 0 deepest (s.countRoot c e ⟨cacheOf memo, 0, [], deepest⟩)
      (s.trackRoot e ⟨cacheOf memo, 0, [], deepest⟩) := by
  rw [Scope.roomFor_eq] at hroom
  exact countExpr_matches (countTypedef_matches_nil hnesting) e hkept (Nat.zero_le deepest)
    (by omega)

theorem Matches.run_eq {α : Type} {s : Setup} {opened : List String} {depth deepest : Nat}
    {counted : Counting α} {tracked : Tracking α} {p : Progress}
    (h : Matches s opened depth deepest (counted p) (tracked p)) :
    counted p = .ok (p.run tracked).1 (p.run tracked).2 := by
  unfold Progress.run
  generalize counted p = result at h
  generalize tracked p = plain at h
  cases h <;> rfl

end MachineLang.Resolver
