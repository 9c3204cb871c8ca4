import MachineLang.Resolver.Tracking
import MachineLang.Proofs.Resolver.Memo

set_option autoImplicit false

namespace MachineLang.Resolver
open Tracking Setup

def cacheOf (memo : Memo) : List (String × Typedef.Kept) :=
  memo.map fun (name, kept) => (name, ⟨⟨name, kept.type⟩, kept.height⟩)

theorem lookup_cacheOf (memo : Memo) (name : String) :
    (cacheOf memo).lookup name =
      (memo.lookup name).map fun kept => ⟨⟨name, kept.type⟩, kept.height⟩ := by
  induction memo with
  | nil => rfl
  | cons entry memo ih =>
    obtain ⟨key, kept⟩ := entry
    rw [List.lookup_cons]
    by_cases h : name = key
    · subst h
      simp [cacheOf]
    · have hne : (name == key) = false := beq_eq_false_iff_ne.2 h
      rw [hne]
      simp only [cacheOf, List.map_cons, List.lookup_cons, hne]
      exact ih

/-- How a tracked reading that starts at the given depth ends beside a plain one: alike, with the
    same targets kept, back at its depth with the same typedefs open, and as many levels deeper on
    the way as the relation says. How deep a failed reading has been does not matter. -/
inductive Follows {α β : Type} (opened : List String) (depth deepest : Nat)
    (R : α → Nat → β → Prop) :
    EStateM.Result ResolveError Progress α → EStateM.Result ResolveError Memo β → Prop
  | ok {a : α} {levels : Nat} {b : β} {memo : Memo} (h : R a levels b) :
    Follows opened depth deepest R
      (.ok a ⟨cacheOf memo, depth, opened, max deepest (depth + levels)⟩) (.ok b memo)
  | error {e : ResolveError} {deep : Nat} {memo : Memo} :
    Follows opened depth deepest R (.error e ⟨cacheOf memo, depth, opened, deep⟩) (.error e memo)

section Follows
variable {α β γ δ : Type} {opened : List String} {depth deepest : Nat} {R : α → Nat → β → Prop}
  {R' : γ → Nat → δ → Prop} {memo : Memo}

theorem follows_pure {a : α} {b : β} (hdeep : depth ≤ deepest) (hR : R a 0 b) :
    Follows opened depth deepest R ((pure a : Tracking α) ⟨cacheOf memo, depth, opened, deepest⟩)
      ((pure b : Reading β) memo) := by
  have h : Follows opened depth deepest R
      (.ok a ⟨cacheOf memo, depth, opened, max deepest (depth + 0)⟩) (.ok b memo) := .ok hR
  rwa [Nat.add_zero, Nat.max_eq_left hdeep] at h

theorem follows_throw {e : ResolveError} :
    Follows opened depth deepest R ((throw e : Tracking α) ⟨cacheOf memo, depth, opened, deepest⟩)
      ((throw e : Reading β) memo) :=
  .error

theorem Follows.of_reached {levels : Nat} {result : EStateM.Result ResolveError Progress α}
    {plain : EStateM.Result ResolveError Memo β}
    (h : Follows opened depth (max deepest (depth + levels))
      (fun a more b => R a (max levels more) b) result plain) :
    Follows opened depth deepest R result plain := by
  cases h with
  | error => exact .error
  | @ok a more b memo hR =>
    have hmax : max (max deepest (depth + levels)) (depth + more) =
        max deepest (depth + max levels more) := by omega
    rw [hmax]
    exact .ok hR

/-- What is read next goes on from where the first reading came back, and reaches as deep as the
    deeper of the two. -/
theorem Follows.bind {x : Tracking α} {f : α → Tracking γ} {y : Reading β} {g : β → Reading δ}
    {p : Progress} (hx : Follows opened depth deepest R (x p) (y memo))
    (hf : ∀ a levels b after, R a levels b →
      Follows opened depth (max deepest (depth + levels))
        (fun c more d => R' c (max levels more) d)
        (f a ⟨cacheOf after, depth, opened, max deepest (depth + levels)⟩) (g b after)) :
    Follows opened depth deepest R' ((x >>= f) p) ((y >>= g) memo) := by
  generalize hresult : x p = result, hplain : y memo = plain at hx
  cases hx with
  | error =>
    rw [bind_of_error hresult, bind_of_error hplain]
    exact .error
  | ok hR =>
    rw [bind_of_ok hresult, bind_of_ok hplain]
    exact (hf _ _ _ _ hR).of_reached

theorem Follows.map {x : Tracking α} {f : α → γ} {y : Reading β} {g : β → δ} {p : Progress}
    (hx : Follows opened depth deepest R (x p) (y memo))
    (hf : ∀ a levels b, R a levels b → R' (f a) levels (g b)) :
    Follows opened depth deepest R' ((x >>= fun a => pure (f a)) p)
      ((y >>= fun b => pure (g b)) memo) := by
  refine hx.bind fun a levels b after hR => follows_pure (by omega) ?_
  rw [Nat.max_zero]
  exact hf a levels b hR

theorem Follows.restoring {opened' : List String} {depth' deepest' : Nat} {R' : α → Nat → β → Prop}
    {restore : Progress → Progress} {reading : Tracking α} {p : Progress}
    {plain : EStateM.Result ResolveError Memo β}
    (h : Follows opened' depth' deepest' R' (reading p) plain)
    (hok : ∀ a levels b after, R' a levels b → ∃ more, R a more b ∧
      restore ⟨cacheOf after, depth', opened', max deepest' (depth' + levels)⟩ =
        ⟨cacheOf after, depth, opened, max deepest (depth + more)⟩)
    (herror : ∀ after deep, ∃ deep', restore ⟨cacheOf after, depth', opened', deep⟩ =
      ⟨cacheOf after, depth, opened, deep'⟩) :
    Follows opened depth deepest R (Tracking.restoring restore reading p) plain := by
  unfold Tracking.restoring
  generalize reading p = result at h
  cases h with
  | @error e deep after =>
    obtain ⟨deep', heq⟩ := herror after deep
    simp only [heq]
    exact .error
  | @ok a levels b after hR =>
    obtain ⟨more, hR, heq⟩ := hok a levels b after hR
    simp only [heq]
    exact .ok hR

theorem follows_trackNode {s : Setup} {reading : Tracking α} {next : Reading β}
    (h : Follows opened (depth + 1) (max deepest (depth + 1)) (fun a levels b => R a (levels + 1) b)
      (reading ⟨cacheOf memo, depth + 1, opened, max deepest (depth + 1)⟩) (next memo)) :
    Follows opened depth deepest R (s.trackNode reading ⟨cacheOf memo, depth, opened, deepest⟩)
      (s.descend (depth + 1) next memo) := by
  have hguard : Follows opened (depth + 1) (max deepest (depth + 1))
      (fun a levels b => R a (levels + 1) b)
      ((do
        let p ← get
        if s.admits p.depth then reading else throw .limitExceeded : Tracking α)
        ⟨cacheOf memo, depth + 1, opened, max deepest (depth + 1)⟩)
      (s.descend (depth + 1) next memo) := by
    rw [get_bind, descend]
    by_cases hdepth : s.admits (depth + 1)
    · simp only [hdepth, if_true]
      exact h
    · simp only [hdepth]
      exact follows_throw
  refine hguard.restoring (fun a levels b after hR => ⟨levels + 1, hR, ?_⟩)
    fun after deep => ⟨deep, rfl⟩
  have hmax : max (max deepest (depth + 1)) (depth + 1 + levels) =
      max deepest (depth + (levels + 1)) := by omega
  rw [hmax]
  rfl

theorem follows_opening {name : String} {reading : Tracking α}
    {plain : EStateM.Result ResolveError Memo β}
    (h : Follows (opened ++ [name]) depth deepest R
      (reading ⟨cacheOf memo, depth, opened ++ [name], deepest⟩) plain) :
    Follows opened depth deepest R
      (opening name reading ⟨cacheOf memo, depth, opened, deepest⟩) plain := by
  have hpop : ∀ after deep,
      Progress.pop ⟨cacheOf after, depth, opened ++ [name], deep⟩ =
        ⟨cacheOf after, depth, opened, deep⟩ := by
    intro after deep
    simp only [Progress.pop, List.dropLast_concat]
  exact h.restoring (fun a levels b after hR => ⟨levels, hR, hpop _ _⟩)
    fun after deep => ⟨deep, hpop _ _⟩

theorem follows_measuring {reading : Tracking α} {plain : EStateM.Result ResolveError Memo β}
    (h : Follows opened depth depth R (reading ⟨cacheOf memo, depth, opened, depth⟩) plain) :
    Follows opened depth deepest (fun a levels b => R a.1 levels b ∧ a.2 = levels)
      (measuring reading ⟨cacheOf memo, depth, opened, deepest⟩) plain := by
  have hmeasured : Follows opened depth depth (fun a levels b => R a.1 levels b ∧ a.2 = levels)
      ((do
        let a ← reading
        let after ← get
        pure (a, after.deepest - depth) : Tracking (α × Nat))
        ⟨cacheOf memo, depth, opened, depth⟩) plain := by
    generalize hresult : reading ⟨cacheOf memo, depth, opened, depth⟩ = result at h
    cases h with
    | error =>
      rw [bind_of_error hresult]
      exact .error
    | @ok a levels b after hR =>
      rw [bind_of_ok hresult, get_bind]
      refine .ok ⟨hR, ?_⟩
      change max depth (depth + levels) - depth = levels
      omega
  refine hmeasured.restoring (fun a levels b after hR => ⟨levels, hR, ?_⟩)
    fun after deep => ⟨max deep deepest, rfl⟩
  have hmax : max (max depth (depth + levels)) deepest = max deepest (depth + levels) := by omega
  rw [← hmax]
  rfl

end Follows

def ReadsAs (t : Ty) (levels : Nat) (read : Measured) : Prop := read = ⟨t, levels⟩

/-- The tracked reading of targets goes along with the plain one. -/
def TargetFollows (opened : List String) (tracked : String → TypeExpr → Tracking Typedef)
    (target : TargetReader) : Prop :=
  ∀ (depth deepest : Nat) (name : String) (e : TypeExpr) (memo : Memo), depth ≤ deepest →
    Follows opened depth deepest
      (fun typedef levels read => typedef.name = name ∧ ReadsAs typedef.target levels read)
      (tracked name e ⟨cacheOf memo, depth, opened, deepest⟩) (target depth name e memo)

section Readings
variable {s : Setup} {opened : List String} {tracked : String → TypeExpr → Tracking Typedef}
  {target : TargetReader} {depth deepest : Nat}

theorem trackPermission_follows (p : Permission) (memo : Memo) (hdeep : depth ≤ deepest) :
    Follows opened depth deepest (fun t levels read => ReadsAs t (levels + 1) read)
      (s.trackPermission p ⟨cacheOf memo, depth, opened, deepest⟩) (s.readPermission p memo) := by
  unfold trackPermission readPermission
  cases s.undeclared? p.events with
  | some event => exact follows_throw
  | none => exact follows_pure hdeep rfl

theorem trackName_follows (htarget : TargetFollows opened tracked target) (name : String)
    (memo : Memo) (hdeep : depth ≤ deepest) :
    Follows opened depth deepest (fun t levels read => ReadsAs t (levels + 1) read)
      (s.trackName tracked name ⟨cacheOf memo, depth, opened, deepest⟩)
      (s.readName target depth name memo) := by
  unfold trackName readName
  cases Primitive.ofKeyword? name with
  | some p => exact follows_pure hdeep rfl
  | none =>
    cases s.scope.find? name with
    | none => exact follows_throw
    | some declaration =>
      cases declaration with
      | typedef e =>
        refine (htarget depth deepest name e memo hdeep).map fun typedef levels read hread => ?_
        obtain ⟨rfl, rfl⟩ := hread
        rfl
      | enum elements => exact follows_pure hdeep rfl
      | interface receives => exact trackPermission_follows _ memo hdeep
      | foreign => exact follows_pure hdeep rfl

theorem trackExprs_follows {es : List TypeExpr}
    (he : ∀ e ∈ es, ∀ deepest memo, depth ≤ deepest → Follows opened depth deepest ReadsAs
      (s.trackExpr tracked e ⟨cacheOf memo, depth, opened, deepest⟩)
      (s.readExpr target (depth + 1) e memo))
    (memo : Memo) (hdeep : depth ≤ deepest) :
    Follows opened depth deepest (fun ts levels read => read = (ts, levels))
      (s.trackExprs tracked es ⟨cacheOf memo, depth, opened, deepest⟩)
      (s.readExprs target (depth + 1) es memo) := by
  induction es generalizing deepest memo with
  | nil =>
    rw [trackExprs, readExprs]
    exact follows_pure hdeep rfl
  | cons e es ih =>
    rw [trackExprs, readExprs]
    refine (he e List.mem_cons_self deepest memo hdeep).bind fun t levels read after hread => ?_
    refine (ih (fun e' he' => he e' (List.mem_cons_of_mem e he')) after (by omega)).map
      fun ts more rest hrest => ?_
    obtain rfl := hread
    obtain rfl := hrest
    rfl

theorem trackFields_follows {es : List (String × TypeExpr)}
    (he : ∀ e ∈ es, ∀ deepest memo, depth ≤ deepest → Follows opened depth deepest ReadsAs
      (s.trackExpr tracked e.2 ⟨cacheOf memo, depth, opened, deepest⟩)
      (s.readExpr target (depth + 1) e.2 memo))
    (memo : Memo) (hdeep : depth ≤ deepest) :
    Follows opened depth deepest (fun fields levels read => read = (fields, levels))
      (s.trackFields tracked es ⟨cacheOf memo, depth, opened, deepest⟩)
      (s.readFields target (depth + 1) es memo) := by
  induction es generalizing deepest memo with
  | nil =>
    rw [trackFields, readFields]
    exact follows_pure hdeep rfl
  | cons e es ih =>
    rw [trackFields, readFields]
    refine (he e List.mem_cons_self deepest memo hdeep).bind fun t levels read after hread => ?_
    refine (ih (fun e' he' => he e' (List.mem_cons_of_mem e he')) after (by omega)).map
      fun ts more rest hrest => ?_
    obtain rfl := hread
    obtain rfl := hrest
    rfl

theorem trackExpr_follows (htarget : TargetFollows opened tracked target) (e : TypeExpr)
    (memo : Memo) (hdeep : depth ≤ deepest) :
    Follows opened depth deepest ReadsAs
      (s.trackExpr tracked e ⟨cacheOf memo, depth, opened, deepest⟩)
      (s.readExpr target (depth + 1) e memo) := by
  have hnode : ∀ {depth deepest : Nat}, depth + 1 ≤ max deepest (depth + 1) :=
    Nat.le_max_right _ _
  induction e using TypeExpr.treeInduction generalizing depth deepest memo with
  | name name =>
    rw [trackExpr, readExpr]
    exact follows_trackNode (trackName_follows htarget name memo hnode)
  | seq element ih | set element ih =>
    rw [trackExpr, readExpr]
    refine follows_trackNode ((ih memo hnode).map fun t levels read hread => ?_)
    obtain rfl := hread
    rfl
  | map key value ihk ihv =>
    rw [trackExpr, readExpr]
    refine follows_trackNode ((ihk memo hnode).bind fun k levels readKey after hk => ?_)
    refine (ihv after (by omega)).map fun v more readValue hv => ?_
    obtain rfl := hk
    obtain rfl := hv
    rfl
  | tuple elements ih =>
    cases elements with
    | nil =>
      rw [trackExpr, readExpr]
      exact follows_trackNode follows_throw
    | cons first rest =>
      rw [trackExpr, readExpr]
      have hparts : ∀ e ∈ first :: rest, ∀ deeper memo, depth + 1 ≤ deeper →
          Follows opened (depth + 1) deeper ReadsAs
            (s.trackExpr tracked e ⟨cacheOf memo, depth + 1, opened, deeper⟩)
            (s.readExpr target (depth + 1 + 1) e memo) :=
        fun e he deeper memo hdeeper => ih e he memo hdeeper
      refine follows_trackNode ?_
      refine (trackExprs_follows hparts memo hnode).map fun ts levels read hread => ?_
      obtain rfl := hread
      rfl
  | named fields ih =>
    cases fields with
    | nil =>
      rw [trackExpr, readExpr]
      exact follows_trackNode follows_throw
    | cons first rest =>
      rw [trackExpr, readExpr]
      have hparts : ∀ e ∈ first :: rest, ∀ deeper memo, depth + 1 ≤ deeper →
          Follows opened (depth + 1) deeper ReadsAs
            (s.trackExpr tracked e.2 ⟨cacheOf memo, depth + 1, opened, deeper⟩)
            (s.readExpr target (depth + 1 + 1) e.2 memo) :=
        fun e he deeper memo hdeeper => ih e he memo hdeeper
      refine follows_trackNode ?_
      refine (trackFields_follows hparts memo hnode).map fun ts levels read hread => ?_
      obtain rfl := hread
      rfl
  | anyOf events =>
    rw [trackExpr, readExpr]
    exact follows_trackNode (trackPermission_follows _ memo hnode)

end Readings

section Target
variable (s : Setup) (unopened : Nat) {opened : List String} (depth deepest : Nat) {name : String}
  (e : TypeExpr) {memo : Memo}

theorem trackTypedef_kept {kept : Measured} (h : memo.lookup name = some kept) :
    s.trackTypedef (unopened + 1) name e ⟨cacheOf memo, depth, opened, deepest⟩ =
      if s.admits (depth + kept.height) then
        .ok ⟨name, kept.type⟩ ⟨cacheOf memo, depth, opened, max deepest (depth + kept.height)⟩
      else .error .limitExceeded ⟨cacheOf memo, depth, opened, deepest⟩ := by
  rw [trackTypedef, get_bind]
  simp only [lookup_cacheOf, h, Option.map_some]
  split <;> rfl

theorem trackTypedef_opened (hnone : memo.lookup name = none) (h : name ∈ opened) :
    s.trackTypedef (unopened + 1) name e ⟨cacheOf memo, depth, opened, deepest⟩ =
      .error (.cyclicTypedef (cycle opened name)) ⟨cacheOf memo, depth, opened, deepest⟩ := by
  have hopen : opened.contains name := by simpa using h
  rw [trackTypedef, get_bind]
  simp only [lookup_cacheOf, hnone, Option.map_none, hopen, if_true]
  rfl

theorem trackTypedef_unopened (hnone : memo.lookup name = none) (h : name ∉ opened) :
    s.trackTypedef (unopened + 1) name e ⟨cacheOf memo, depth, opened, deepest⟩ =
      (do
        let read ← measuring (opening name (s.trackExpr (s.trackTypedef unopened) e))
        modify (Progress.keep name ⟨⟨name, read.1⟩, read.2⟩)
        pure ⟨name, read.1⟩ : Tracking Typedef) ⟨cacheOf memo, depth, opened, deepest⟩ := by
  have hopen : ¬ opened.contains name := by simpa using h
  rw [trackTypedef, get_bind]
  simp only [lookup_cacheOf, hnone, Option.map_none, hopen]
  rfl

end Target

theorem Follows.keep {opened : List String} {depth deepest : Nat} {name : String} {memo : Memo}
    {tracked : Tracking (Ty × Nat)} {plain : Reading Measured}
    (h : Follows opened depth deepest
      (fun read levels measured => ReadsAs read.1 levels measured ∧ read.2 = levels)
      (tracked ⟨cacheOf memo, depth, opened, deepest⟩) (plain memo)) :
    Follows opened depth deepest
      (fun typedef levels read => typedef.name = name ∧ ReadsAs typedef.target levels read)
      ((do
        let read ← tracked
        modify (Progress.keep name ⟨⟨name, read.1⟩, read.2⟩)
        pure ⟨name, read.1⟩ : Tracking Typedef) ⟨cacheOf memo, depth, opened, deepest⟩)
      ((do
        let read ← plain
        modify ((name, read) :: ·)
        pure read : Reading Measured) memo) := by
  refine h.bind fun read levels measured after hread => ?_
  obtain ⟨t, expansion⟩ := read
  obtain ⟨hreads, rfl⟩ := hread
  obtain rfl := hreads
  refine @follows_pure _ _ opened depth _ _ ((name, ⟨t, expansion⟩) :: after) _ _ (by omega) ?_
  rw [Nat.max_zero]
  exact ⟨rfl, rfl⟩

theorem trackTypedef_follows (s : Setup) (unopened : Nat) (opened : List String) :
    TargetFollows opened (s.trackTypedef unopened) (s.readTarget unopened opened) := by
  induction unopened generalizing opened with
  | zero =>
    intro depth deepest name e memo _
    exact follows_throw
  | succ unopened ih =>
    intro depth deepest name e memo hdeep
    cases hlookup : memo.lookup name with
    | some kept =>
      rw [trackTypedef_kept s _ _ _ e hlookup, readTarget_kept s _ _ e hlookup, descend]
      split
      · exact .ok ⟨rfl, rfl⟩
      · exact .error
    | none =>
      by_cases hopen : name ∈ opened
      · rw [trackTypedef_opened s _ _ _ e hlookup hopen, readTarget_opened s _ _ e hlookup hopen]
        exact .error
      · rw [trackTypedef_unopened s _ _ _ e hlookup hopen,
          readTarget_unopened s _ _ e hlookup hopen]
        have hread : Follows (opened ++ [name]) depth depth ReadsAs
            (s.trackExpr (s.trackTypedef unopened) e ⟨cacheOf memo, depth, opened ++ [name], depth⟩)
            (s.readExpr (s.readTarget unopened (opened ++ [name])) (depth + 1) e memo) :=
          trackExpr_follows (ih _) e memo (Nat.le_refl depth)
        exact Follows.keep (follows_measuring (follows_opening hread))

theorem Follows.map_plain {α β δ : Type} {opened : List String} {depth deepest : Nat}
    {R : α → Nat → β → Prop} {R' : α → Nat → δ → Prop} {memo : Memo}
    {result : EStateM.Result ResolveError Progress α} {y : Reading β} {g : β → δ}
    (hx : Follows opened depth deepest R result (y memo))
    (hf : ∀ a levels b, R a levels b → R' a levels (g b)) :
    Follows opened depth deepest R' result ((y >>= fun b => pure (g b)) memo) := by
  generalize hplain : y memo = plain at hx
  cases hx with
  | error =>
    rw [bind_of_error hplain]
    exact .error
  | ok hR =>
    rw [bind_of_ok hplain]
    exact .ok (hf _ _ _ hR)

theorem trackRoot_follows (s : Setup) (e : TypeExpr) (memo : Memo) (deepest : Nat) :
    Follows [] 0 deepest (fun t _ u => t = u) (s.trackRoot e ⟨cacheOf memo, 0, [], deepest⟩)
      (s.readRoot e memo) := by
  have hread : Follows [] 0 deepest ReadsAs (s.trackRoot e ⟨cacheOf memo, 0, [], deepest⟩)
      (s.readExpr s.readOutermost 1 e memo) :=
    trackExpr_follows (trackTypedef_follows s _ []) e memo (Nat.zero_le deepest)
  refine hread.map_plain fun t levels read hreads => ?_
  obtain rfl := hreads
  rfl

theorem trackTypedefs_follows (s : Setup) (typedefs : List (String × TypeExpr)) (memo : Memo)
    (deepest : Nat) :
    Follows [] 0 deepest
      (fun read _ plain => (read.map fun typedef => (typedef.name, typedef.target)) = plain)
      (s.trackTypedefs typedefs ⟨cacheOf memo, 0, [], deepest⟩) (s.readTypedefs typedefs memo) := by
  induction typedefs generalizing memo deepest with
  | nil => exact follows_pure (Nat.zero_le deepest) rfl
  | cons typedef typedefs ih =>
    obtain ⟨name, e⟩ := typedef
    rw [trackTypedefs, readTypedefs]
    have hread := trackTypedef_follows s s.scope.typedefs.length [] 0 deepest name e memo
      (Nat.zero_le deepest)
    refine hread.bind fun typedef levels read after hreads => ?_
    refine (ih after _).map fun rest _ plain hrest => ?_
    obtain ⟨rfl, hreads⟩ := hreads
    obtain rfl := hreads
    rw [List.map_cons, hrest]

end MachineLang.Resolver
