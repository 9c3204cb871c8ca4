import MachineLang.Resolver.Basic
import MachineLang.Proofs.Resolver.Expansion

set_option autoImplicit false

/-!
# Kept targets are as good as expanded ones

A reading and an expansion run side by side and end alike, whatever is kept when they start. What is
kept stays closed: with a typedef all those that its target refers to are kept. So none of them is
open, and the expansion that a kept target stands for can only fail for want of depth, which is the
one test that the reading makes.
-/
namespace MachineLang.Resolver.Setup

/-- A kept target is what the name stands for, measured, and refers to kept typedefs only. -/
structure KeptTarget (s : Setup) (memo : Memo) (name : String) (read : Measured) : Prop where
  stands : s.Stands (.typedef name read.type)
  measured : read.height = read.type.height
  admitted : s.admits read.height
  closed : read.type.typedefNames ⊆ memo.map Prod.fst

/-- The kept targets while the typedefs `opened` are being read. -/
structure Kept (s : Setup) (opened : List String) (memo : Memo) : Prop where
  targets : ∀ name read, (name, read) ∈ memo → s.KeptTarget memo name read
  nodup : (memo.map Prod.fst).Nodup
  apart : ∀ name ∈ opened, name ∉ memo.map Prod.fst

theorem kept_nil (s : Setup) (opened : List String) : s.Kept opened [] := by
  constructor <;> simp

theorem Kept.push {s : Setup} {opened : List String} {memo : Memo} {name : String}
    (h : s.Kept opened memo) (hname : memo.lookup name = none) :
    s.Kept (opened ++ [name]) memo := by
  refine { h with apart := fun m hm => ?_ }
  rcases List.mem_append.1 hm with hm | hm
  · exact h.apart m hm
  · rw [List.mem_singleton.1 hm]
    exact not_mem_of_lookup hname

theorem Kept.pop {s : Setup} {opened : List String} {memo : Memo} {name : String}
    (h : s.Kept (opened ++ [name]) memo) : s.Kept opened memo :=
  { h with apart := fun m hm => h.apart m (List.mem_append_left _ hm) }

theorem Kept.keep {s : Setup} {opened : List String} {memo : Memo} {name : String}
    {read : Measured} (h : s.Kept (opened ++ [name]) memo) (hname : name ∉ opened)
    (hread : s.KeptTarget memo name read) : s.Kept opened ((name, read) :: memo) where
  targets := by
    have hgrown : memo.map Prod.fst ⊆ name :: memo.map Prod.fst := List.subset_cons_self _ _
    have hold : ∀ m kept, s.KeptTarget memo m kept → s.KeptTarget ((name, read) :: memo) m kept :=
      fun m kept hkept => { hkept with closed := List.Subset.trans hkept.closed hgrown }
    intro m kept hmem
    rcases List.mem_cons.1 hmem with heq | hmem
    · cases heq
      exact hold name read hread
    · exact hold m kept (h.targets m kept hmem)
  nodup := List.nodup_cons.2 ⟨h.apart name (by simp), h.nodup⟩
  apart := by
    intro m hm hmem
    rcases List.mem_cons.1 hmem with rfl | hmem
    · exact hname hm
    · exact h.pop.apart m hm hmem

theorem Kept.not_mem_typedefNames {s : Setup} {opened : List String} {memo : Memo} {name : String}
    {read : Measured} (h : s.Kept opened memo) (hmem : (name, read) ∈ memo) :
    ∀ m ∈ opened, m ∉ (Ty.typedef name read.type).typedefNames := by
  intro m hm hin
  rcases Ty.mem_typedefNames_iff.1 hin with ⟨u, hu⟩ | ⟨u, hu, hin⟩
  · cases hu
    exact h.apart name hm (List.mem_map_of_mem hmem)
  · rw [List.mem_singleton.1 hu] at hin
    exact h.apart m hm ((h.targets name read hmem).closed hin)

section Bind
variable {ε σ α γ : Type} {x : EStateM ε σ α} {f : α → EStateM ε σ γ} {before after : σ}

theorem bind_of_ok {v : α} (h : x before = .ok v after) : (x >>= f) before = f v after := by
  simp only [bind, EStateM.bind, h]

theorem bind_of_error {e : ε} (h : x before = .error e after) :
    (x >>= f) before = .error e after := by
  simp only [bind, EStateM.bind, h]

theorem get_bind (f : σ → EStateM ε σ γ) (before : σ) :
    ((get : EStateM ε σ σ) >>= f) before = f before before :=
  rfl

end Bind

/-- A result that ends like an answer, where the memo has only grown. -/
def Meets {α β : Type} (s : Setup) (opened : List String) (before : Memo)
    (R : Memo → α → β → Prop) :
    EStateM.Result ResolveError Memo α → Except ResolveError β → Prop
  | .ok a after, .ok b => before <:+ after ∧ s.Kept opened after ∧ R after a b
  | .error e after, .error e' => before <:+ after ∧ s.Kept opened after ∧ e = e'
  | _, _ => False

section Meets
variable {s : Setup} {opened : List String} {α β γ δ : Type} {before : Memo}
  {R : Memo → α → β → Prop} {R' : Memo → γ → δ → Prop}

theorem Meets.of_grown {earlier : Memo} {result : EStateM.Result ResolveError Memo α}
    {answer : Except ResolveError β} (h : s.Meets opened before R result answer)
    (hgrown : earlier <:+ before) : s.Meets opened earlier R result answer := by
  cases result <;> cases answer <;> simp only [Meets] at h ⊢
  all_goals exact ⟨hgrown.trans h.1, h.2⟩

theorem Meets.bind {x : Reading α} {f : α → Reading γ} {a : Except ResolveError β}
    {g : β → Except ResolveError δ} (hx : s.Meets opened before R (x before) a)
    (hf : ∀ v w after, a = .ok w → before <:+ after → s.Kept opened after → R after v w →
      s.Meets opened after R' (f v after) (g w)) :
    s.Meets opened before R' ((x >>= f) before) (a >>= g) := by
  cases hxb : x before with
  | error e after =>
    rw [hxb] at hx
    cases a with
    | error e' =>
      rw [bind_of_error hxb]
      exact hx
    | ok w => exact hx.elim
  | ok v after =>
    rw [hxb] at hx
    cases a with
    | error e' => exact hx.elim
    | ok w =>
      obtain ⟨hgrown, hkept, hR⟩ := hx
      have hnext := hf v w after rfl hgrown hkept hR
      have hanswer : (Except.ok w >>= g : Except ResolveError δ) = g w := rfl
      rw [bind_of_ok hxb, hanswer]
      exact hnext.of_grown hgrown

theorem Meets.map {x : Reading α} {f : α → γ} {a : Except ResolveError β} {g : β → δ}
    (hx : s.Meets opened before R (x before) a)
    (hf : ∀ v w after, R after v w → R' after (f v) (g w)) :
    s.Meets opened before R' ((x >>= fun v => pure (f v)) before) (a.map g) := by
  have hmap : a.map g = a >>= fun w => pure (g w) := by cases a <;> rfl
  rw [hmap]
  exact hx.bind fun v w after _ _ hkept hR => ⟨List.suffix_refl after, hkept, hf v w after hR⟩

theorem meets_pure {a : α} {b : β} (hkept : s.Kept opened before) (hR : R before a b) :
    s.Meets opened before R ((pure a : Reading α) before) (.ok b) :=
  ⟨List.suffix_refl before, hkept, hR⟩

theorem meets_throw {e : ResolveError} (hkept : s.Kept opened before) :
    s.Meets opened before R ((throw e : Reading α) before) (.error e) :=
  ⟨List.suffix_refl before, hkept, rfl⟩

theorem meets_descend {depth : Nat} {next : Reading α} {answer : Except ResolveError β}
    (hkept : s.Kept opened before) (h : s.Meets opened before R (next before) answer) :
    s.Meets opened before R (s.descend depth next before)
      (if s.admits depth then answer else .error .limitExceeded) := by
  unfold descend
  split
  · exact h
  · exact meets_throw hkept

end Meets

def Measures (memo : Memo) (read : Measured) (t : Ty) : Prop :=
  read = ⟨t, t.height⟩ ∧ t.typedefNames ⊆ memo.map Prod.fst

theorem Measures.of_parts {memo : Memo} {t : Ty} {height : Nat} (hheight : height = t.height)
    (hself : ∀ name u, t = .typedef name u → name ∈ memo.map Prod.fst)
    (hparts : ∀ u ∈ t.parts, u.typedefNames ⊆ memo.map Prod.fst) :
    Measures memo ⟨t, height⟩ t := by
  refine ⟨by rw [hheight], fun name hname => ?_⟩
  rcases Ty.mem_typedefNames_iff.1 hname with ⟨u, hu⟩ | ⟨u, hu, hname⟩
  · exact hself name u hu
  · exact hparts u hu hname

theorem measures_leaf {memo : Memo} {t : Ty} {height : Nat} (hparts : t.parts = [])
    (hheight : height = t.height) (hself : ∀ name u, t ≠ .typedef name u) :
    Measures memo ⟨t, height⟩ t :=
  .of_parts hheight (fun name u hu => absurd hu (hself name u)) (by simp [hparts])

section Simulation
variable {s : Setup} {opened : List String} {target : TargetReader} {expander : TargetExpander}

theorem readPermission_meets {p : Permission} {memo : Memo} (hkept : s.Kept opened memo) :
    s.Meets opened memo Measures (s.readPermission p memo) (s.expandPermission p) := by
  cases hevents : s.undeclared? p.events with
  | some event =>
    simp only [readPermission, expandPermission, hevents]
    exact meets_throw hkept
  | none =>
    simp only [readPermission, expandPermission, hevents]
    exact meets_pure hkept (measures_leaf rfl rfl (by simp))

/-- The reader meets the expander on declared typedefs, and keeps them. -/
def Agree (s : Setup) (opened : List String) (target : TargetReader) (expander : TargetExpander) :
    Prop :=
  ∀ depth name e memo, s.scope.find? name = some (.typedef e) → s.Kept opened memo →
    s.Meets opened memo (fun memo read t => Measures memo read t ∧ name ∈ memo.map Prod.fst)
      (target depth name e memo) (expander depth name e)

theorem readName_meets (htarget : s.Agree opened target expander) {depth : Nat} {name : String}
    {memo : Memo} (hkept : s.Kept opened memo) :
    s.Meets opened memo Measures (s.readName target depth name memo)
      (s.expandName expander depth name) := by
  cases hp : Primitive.ofKeyword? name with
  | some p =>
    simp only [readName, expandName, hp]
    exact meets_pure hkept (measures_leaf rfl rfl (by simp))
  | none =>
    cases hfind : s.scope.find? name with
    | none =>
      simp only [readName, expandName, hp, hfind]
      exact meets_throw hkept
    | some declaration =>
      simp only [readName, expandName, hp, hfind]
      cases declaration with
      | typedef e =>
        refine (htarget depth name e memo hfind hkept).map fun read t after hread => ?_
        obtain ⟨⟨rfl, hnames⟩, hname⟩ := hread
        refine .of_parts rfl (fun m u hm => ?_) (fun u hu => ?_)
        · cases hm
          exact hname
        · rw [List.mem_singleton.1 hu]
          exact hnames
      | enum elements => exact meets_pure hkept (measures_leaf rfl rfl (by simp))
      | interface receives => exact readPermission_meets hkept
      | foreign => exact meets_pure hkept (measures_leaf rfl rfl (by simp))

def MeasuresAll (memo : Memo) (read : List Ty × Nat) (ts : List Ty) : Prop :=
  read = (ts, Ty.heightAll ts) ∧ ∀ t ∈ ts, t.typedefNames ⊆ memo.map Prod.fst

def MeasuresFields (memo : Memo) (read : List (String × Ty) × Nat) (fields : List (String × Ty)) :
    Prop :=
  read = (fields, Ty.heightFields fields) ∧
    ∀ field ∈ fields, field.2.typedefNames ⊆ memo.map Prod.fst

theorem keys_subset {before after : Memo} (h : before <:+ after) :
    before.map Prod.fst ⊆ after.map Prod.fst :=
  List.map_subset _ h.subset

theorem readExprs_meets {depth : Nat} {es : List TypeExpr}
    (he : ∀ e ∈ es, ∀ memo, s.Kept opened memo → s.Meets opened memo Measures
      (s.readExpr target depth e memo) (s.expandExpr expander depth e))
    {memo : Memo} (hkept : s.Kept opened memo) :
    s.Meets opened memo MeasuresAll (s.readExprs target depth es memo)
      (s.expandExprs expander depth es) := by
  induction es generalizing memo with
  | nil =>
    rw [readExprs, expandExprs]
    exact meets_pure hkept ⟨rfl, by simp⟩
  | cons e es ih =>
    rw [readExprs, expandExprs]
    refine (he e List.mem_cons_self memo hkept).bind fun read t after _ _ hkept hread => ?_
    refine (ih (fun e' he' => he e' (List.mem_cons_of_mem e he')) hkept).bind
      fun rest ts final _ hgrown hkept hrest => ?_
    obtain ⟨rfl, hnames⟩ := hread
    obtain ⟨rfl, hall⟩ := hrest
    refine meets_pure hkept ⟨rfl, List.forall_mem_cons.2 ⟨?_, hall⟩⟩
    exact List.Subset.trans hnames (keys_subset hgrown)

theorem readFields_meets {depth : Nat} {es : List (String × TypeExpr)}
    (he : ∀ e ∈ es, ∀ memo, s.Kept opened memo → s.Meets opened memo Measures
      (s.readExpr target depth e.2 memo) (s.expandExpr expander depth e.2))
    {memo : Memo} (hkept : s.Kept opened memo) :
    s.Meets opened memo MeasuresFields (s.readFields target depth es memo)
      (s.expandFields expander depth es) := by
  induction es generalizing memo with
  | nil =>
    rw [readFields, expandFields]
    exact meets_pure hkept ⟨rfl, by simp⟩
  | cons e es ih =>
    rw [readFields, expandFields]
    refine (he e List.mem_cons_self memo hkept).bind fun read t after _ _ hkept hread => ?_
    refine (ih (fun e' he' => he e' (List.mem_cons_of_mem e he')) hkept).bind
      fun rest ts final _ hgrown hkept hrest => ?_
    obtain ⟨rfl, hnames⟩ := hread
    obtain ⟨rfl, hall⟩ := hrest
    refine meets_pure hkept ⟨rfl, List.forall_mem_cons.2 ⟨?_, hall⟩⟩
    exact List.Subset.trans hnames (keys_subset hgrown)

theorem readExpr_meets (htarget : s.Agree opened target expander) {depth : Nat} {e : TypeExpr}
    {memo : Memo} (hkept : s.Kept opened memo) :
    s.Meets opened memo Measures (s.readExpr target depth e memo)
      (s.expandExpr expander depth e) := by
  induction e using TypeExpr.treeInduction generalizing depth memo with
  | name name =>
    rw [readExpr, expandExpr]
    exact meets_descend hkept (readName_meets htarget hkept)
  | seq element ih =>
    rw [readExpr, expandExpr]
    refine meets_descend hkept ((ih hkept).map fun read t after hread => ?_)
    obtain ⟨rfl, hnames⟩ := hread
    exact .of_parts rfl (by simp) (by simpa [Ty.parts] using hnames)
  | set element ih =>
    rw [readExpr, expandExpr]
    refine meets_descend hkept ((ih hkept).map fun read t after hread => ?_)
    obtain ⟨rfl, hnames⟩ := hread
    exact .of_parts rfl (by simp) (by simpa [Ty.parts] using hnames)
  | map key value ihk ihv =>
    rw [readExpr, expandExpr]
    refine meets_descend hkept ((ihk hkept).bind fun read t after _ _ hkept hread => ?_)
    refine (ihv hkept).bind fun other u final _ hgrown hkept hother => ?_
    obtain ⟨rfl, hnames⟩ := hread
    obtain ⟨rfl, hothers⟩ := hother
    refine meets_pure hkept (.of_parts rfl (by simp) ?_)
    simpa [Ty.parts] using ⟨List.Subset.trans hnames (keys_subset hgrown), hothers⟩
  | tuple elements ih =>
    cases elements with
    | nil =>
      rw [readExpr, expandExpr]
      exact meets_descend hkept (meets_throw hkept)
    | cons first rest =>
      rw [readExpr, expandExpr]
      refine meets_descend hkept ?_
      refine (readExprs_meets (fun e he memo => ih e he) hkept).map fun read ts after hread => ?_
      obtain ⟨rfl, hall⟩ := hread
      exact .of_parts rfl (by simp) hall
  | named fields ih =>
    cases fields with
    | nil =>
      rw [readExpr, expandExpr]
      exact meets_descend hkept (meets_throw hkept)
    | cons first rest =>
      rw [readExpr, expandExpr]
      refine meets_descend hkept ?_
      refine (readFields_meets (fun e he memo => ih e he) hkept).map fun read ts after hread => ?_
      obtain ⟨rfl, hall⟩ := hread
      exact .of_parts rfl (by simp) (List.forall_mem_map.2 hall)
  | anyOf events =>
    rw [readExpr, expandExpr]
    exact meets_descend hkept (readPermission_meets hkept)

end Simulation

theorem expandTarget_opened (s : Setup) {opened : List String} {name : String} (h : name ∈ opened)
    (unopened depth : Nat) (e : TypeExpr) : s.expandTarget unopened opened depth name e =
      .error (.cyclicTypedef (cycle opened name)) := by
  cases unopened with
  | zero => rfl
  | succ unopened => rw [expandTarget, if_pos (by simpa using h)]

theorem expandTarget_unopened (s : Setup) {opened : List String} {name : String}
    (h : name ∉ opened) (unopened depth : Nat) (e : TypeExpr) :
    s.expandTarget (unopened + 1) opened depth name e =
      s.expandExpr (s.expandTarget unopened (opened ++ [name])) (depth + 1) e := by
  rw [expandTarget, if_neg (by simpa using h)]

section Target
variable (s : Setup) (unopened : Nat) {opened : List String} (depth : Nat) {name : String}
  (e : TypeExpr) {memo : Memo}

theorem readTarget_kept {kept : Measured} (h : memo.lookup name = some kept) :
    s.readTarget (unopened + 1) opened depth name e memo =
      s.descend (depth + kept.height) (pure kept) memo := by
  rw [readTarget, get_bind, h]

theorem readTarget_opened (hnone : memo.lookup name = none) (h : name ∈ opened) :
    s.readTarget (unopened + 1) opened depth name e memo =
      .error (.cyclicTypedef (cycle opened name)) memo := by
  have hopen : opened.contains name := by simpa using h
  rw [readTarget, get_bind, hnone]
  exact congrFun (if_pos hopen) memo

theorem readTarget_unopened (hnone : memo.lookup name = none) (h : name ∉ opened) :
    s.readTarget (unopened + 1) opened depth name e memo =
      (do
        let read ← s.readExpr (s.readTarget unopened (opened ++ [name])) (depth + 1) e
        modify ((name, read) :: ·)
        pure read : Reading Measured) memo := by
  have hopen : ¬ opened.contains name := by simpa using h
  rw [readTarget, get_bind, hnone]
  exact congrFun (if_neg hopen) memo

end Target

theorem Meets.keep {s : Setup} {opened : List String} {depth : Nat} {name : String} {e : TypeExpr}
    {memo : Memo} {reading : Reading Measured} {answer : Except ResolveError Ty}
    (h : s.Meets (opened ++ [name]) memo Measures (reading memo) answer)
    (hfind : s.scope.find? name = some (.typedef e)) (hopen : name ∉ opened)
    (hanswers : ∀ t, answer = .ok t → s.Answers depth e t) :
    s.Meets opened memo (fun memo read t => Measures memo read t ∧ name ∈ memo.map Prod.fst)
      ((do
        let read ← reading
        modify ((name, read) :: ·)
        pure read : Reading Measured) memo) answer := by
  cases hresult : reading memo with
  | error err after =>
    rw [hresult] at h
    cases answer with
    | error err' =>
      rw [bind_of_error hresult]
      exact ⟨h.1, h.2.1.pop, h.2.2⟩
    | ok t => exact h.elim
  | ok read after =>
    rw [hresult] at h
    cases answer with
    | error err' => exact h.elim
    | ok t =>
      obtain ⟨hgrown, hkept, rfl, hnames⟩ := h
      have hanswer := hanswers t rfl
      obtain rfl := hanswer.expr
      have htarget : s.KeptTarget after name ⟨t, t.height⟩ :=
        ⟨hanswer.stands.typedef hfind, rfl, admits_mono (Nat.le_add_left _ _) hanswer.admitted,
          hnames⟩
      have hgrown' : after <:+ (name, ⟨t, t.height⟩) :: after := List.suffix_cons _ after
      rw [bind_of_ok hresult]
      exact ⟨hgrown.trans hgrown', hkept.keep hopen htarget,
        ⟨rfl, List.Subset.trans hnames (keys_subset hgrown')⟩, List.mem_cons_self⟩

theorem readTarget_agrees {s : Setup} {unopened unopened' : Nat} {opened : List String}
    (h : s.Opens unopened opened) (h' : s.Opens unopened' opened) :
    s.Agree opened (s.readTarget unopened opened) (s.expandTarget unopened' opened) := by
  induction unopened generalizing unopened' opened with
  | zero =>
    intro depth name e memo hfind hkept
    rw [expandTarget_opened s (h.mem_of_zero hfind)]
    exact meets_throw hkept
  | succ unopened ih =>
    intro depth name e memo hfind hkept
    cases hlookup : memo.lookup name with
    | some kept =>
      have hmem := mem_of_lookup hlookup
      have htarget := hkept.targets name kept hmem
      have hkey : name ∈ memo.map Prod.fst := List.mem_map_of_mem hmem
      have hexpr : kept.type.expr = e := by
        have hdeclared : s.scope.find? name = some (.typedef kept.type.expr) :=
          htarget.stands.coherent.declares
        rw [hfind, Option.some.injEq, Declaration.typedef.injEq] at hdeclared
        exact hdeclared.symm
      have hclosed := hkept.not_mem_typedefNames hmem
      rw [readTarget_kept s _ _ e hlookup, ← hexpr, expandTarget_expr h' htarget.stands hclosed,
        ← htarget.measured]
      refine meets_descend hkept (meets_pure hkept ⟨⟨?_, htarget.closed⟩, hkey⟩)
      rw [← htarget.measured]
    | none =>
      by_cases hopen : name ∈ opened
      · rw [readTarget_opened s _ _ e hlookup hopen, expandTarget_opened s hopen]
        exact meets_throw hkept
      · obtain _ | unopened' := unopened'
        · exact absurd (h'.mem_of_zero hfind) hopen
        · rw [readTarget_unopened s _ _ e hlookup hopen, expandTarget_unopened s hopen]
          have hnext := ih (h.push hfind hopen) (h'.push hfind hopen)
          have hread : s.Meets (opened ++ [name]) memo Measures
              (s.readExpr (s.readTarget unopened (opened ++ [name])) (depth + 1) e memo)
              (s.expandExpr (s.expandTarget unopened' (opened ++ [name])) (depth + 1) e) :=
            readExpr_meets hnext (hkept.push hlookup)
          exact hread.keep hfind hopen fun t ht => expandExpr_answers (expandTarget_sound _ _ _) ht

end MachineLang.Resolver.Setup
