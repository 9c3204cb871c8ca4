import MachineLang.Proofs.Resolver.Outcome
import MachineLang.Proofs.Resolver.Parallel

set_option autoImplicit false

namespace MachineLang.Resolver

def Settings.raised (settings : Settings) : Settings :=
  { settings with limit := settings.limit.map (· + 1) }

namespace Setup

def raised (s : Setup) : Setup := { s with settings := s.settings.raised }

section Raised
variable (s : Setup)

theorem admits_raised (depth : Nat) : s.raised.admits (1 + depth) = s.admits depth := by
  cases h : s.settings.limit with
  | none => simp [admits, raised, Settings.raised, h]
  | some limit => simp [admits, raised, Settings.raised, h, Nat.add_comm 1]

theorem parallel_raised : Parallel (fun _ => False) s s.raised 1 where
  admitted := by
    intro depth hdepth
    rwa [admits_raised]
  refused := by
    intro depth hdepth
    rw [admits_raised] at hdepth
    exact .inl hdepth
  declared := fun _ _ hfind => hfind
  undeclared := fun _ hnone => .inl hnone
  events := fun _ => .inl rfl

theorem expandTarget_raised (unopened : Nat) (opened : List String) (depth : Nat) (name : String)
    (e : TypeExpr) :
    s.raised.expandTarget unopened opened (1 + depth) name e =
      s.expandTarget unopened opened depth name e := by
  rcases (s.parallel_raised.expandTarget_same unopened opened depth name e).eq_or_error with
    heq | ⟨_, -, hfalse⟩
  · exact heq
  · exact hfalse.elim

theorem expand_name_raised {name : String} {e : TypeExpr}
    (hname : s.scope.find? name = some (.typedef e)) :
    s.raised.expand (.name name) =
      (s.expandTarget s.scope.typedefs.length [] 0 name e).map (.typedef name) := by
  have hroot : s.raised.admits 1 := by
    cases h : s.settings.limit <;> simp [admits, raised, Settings.raised, h]
  have hdeclared : s.raised.scope.find? name = some (.typedef e) := hname
  rw [expand, expandExpr, if_pos hroot, expandName, Scope.ofKeyword?_of_find? hname, hdeclared,
    ← s.expandTarget_raised]
  rfl

end Raised

section Listing
variable {s : Setup} {typedefs : List (String × TypeExpr)}

theorem expandTypedefs_eq_ok_iff (hdeclared : typedefs ⊆ s.scope.typedefs)
    {types : List (String × Ty)} :
    s.expandTypedefs typedefs = .ok types ↔
      types.map Prod.fst = typedefs.map Prod.fst ∧
        ∀ name t, (name, t) ∈ types → s.raised.expand (.name name) = .ok (.typedef name t) := by
  induction typedefs generalizing types with
  | nil =>
    rw [expandTypedefs, Except.ok.injEq]
    constructor
    · rintro rfl
      simp
    · rintro ⟨hnames, -⟩
      exact (List.map_eq_nil_iff.1 hnames).symm
  | cons typedef typedefs ih =>
    obtain ⟨hname, hdeclared⟩ := List.cons_subset.1 hdeclared
    have hmention := s.expand_name_raised (Scope.mem_typedefs.1 hname)
    rw [expandTypedefs]
    constructor
    · intro h
      obtain ⟨t, ht, h⟩ := bind_eq_ok.1 h
      obtain ⟨rest, hrest, h⟩ := bind_eq_ok.1 h
      cases h
      obtain ⟨hnames, hall⟩ := (ih hdeclared).1 hrest
      refine ⟨congrArg _ hnames, fun name u hu => ?_⟩
      rcases List.mem_cons.1 hu with heq | hu
      · cases heq
        rw [hmention, ht]
        rfl
      · exact hall name u hu
    · rintro ⟨hnames, hall⟩
      obtain ⟨⟨name, t⟩, rest, rfl, rfl, hrest⟩ := List.map_eq_cons_iff.1 hnames
      have ht := hall _ t List.mem_cons_self
      rw [hmention] at ht
      obtain ⟨u, hu, heq⟩ := map_eq_ok.1 ht
      cases heq
      refine bind_eq_ok.2 ⟨t, hu, bind_eq_ok.2 ⟨rest, ?_, rfl⟩⟩
      exact (ih hdeclared).2 ⟨hrest, fun name u hu => hall name u (List.mem_cons_of_mem _ hu)⟩

theorem expandTypedefs_eq_error_iff (hdeclared : typedefs ⊆ s.scope.typedefs)
    {err : ResolveError} :
    s.expandTypedefs typedefs = .error err ↔
      ∃ before name after, typedefs.map Prod.fst = before ++ name :: after ∧
        (∀ other ∈ before, ∃ t, s.raised.expand (.name other) = .ok t) ∧
        s.raised.expand (.name name) = .error err := by
  induction typedefs with
  | nil => simp [expandTypedefs]
  | cons typedef typedefs ih =>
    obtain ⟨hname, hdeclared⟩ := List.cons_subset.1 hdeclared
    have hmention := s.expand_name_raised (Scope.mem_typedefs.1 hname)
    rw [expandTypedefs]
    constructor
    · intro h
      rcases bind_eq_error.1 h with h | ⟨t, ht, h⟩
      · refine ⟨[], typedef.1, typedefs.map Prod.fst, rfl, by simp, ?_⟩
        exact hmention.trans (map_eq_error.2 h)
      · rcases bind_eq_error.1 h with h | ⟨rest, -, h⟩
        · obtain ⟨before, name, after, hnames, hbefore, herr⟩ := (ih hdeclared).1 h
          refine ⟨typedef.1 :: before, name, after, congrArg _ hnames, ?_, herr⟩
          exact List.forall_mem_cons.2 ⟨⟨_, hmention.trans (map_eq_ok.2 ⟨t, ht, rfl⟩)⟩, hbefore⟩
        · cases h
    · rintro ⟨before, name, after, hnames, hbefore, herr⟩
      cases before with
      | nil =>
        obtain ⟨rfl, -⟩ := List.cons.inj hnames
        exact bind_eq_error.2 (.inl (map_eq_error.1 (hmention.symm.trans herr)))
      | cons first before =>
        obtain ⟨rfl, hrest⟩ := List.cons.inj hnames
        obtain ⟨⟨t, ht⟩, hbefore⟩ := List.forall_mem_cons.1 hbefore
        obtain ⟨u, hu, -⟩ := map_eq_ok.1 (hmention.symm.trans ht)
        refine bind_eq_error.2 (.inr ⟨u, hu, bind_eq_error.2 (.inl ?_)⟩)
        exact (ih hdeclared).2 ⟨before, name, after, hrest, hbefore, herr⟩

end Listing
end Setup

/-- The declared typedefs are listed, whatever was asked before, exactly if a new resolver with one
    level more to go resolves the name of each. The listing has them in the order of their
    declarations, each with the target that its name resolves to; otherwise it ends with the error
    of the first name that does not resolve. -/
theorem resolveTypedefs_one_by_one (s : Setup) (calls : List Call) :
    let answer := ((fresh s).after calls).resolveTypedefs.1
    let byName (name : String) := ((fresh s.raised).resolve (.name name)).1
    let names := s.scope.typedefs.map Prod.fst
    ((∃ types, answer = .ok types) ↔ ∀ name ∈ names, ∃ t, byName name = .ok t) ∧
    (∀ types, answer = .ok types ↔ types.map Prod.fst = names ∧
      ∀ name t, (name, t) ∈ types → byName name = .ok (.typedef name t)) ∧
    ∀ err, answer = .error err ↔ ∃ before name after, names = before ++ name :: after ∧
      (∀ other ∈ before, ∃ t, byName other = .ok t) ∧ byName name = .error err := by
  intro answer byName names
  have hbyName : ∀ name, byName name = s.raised.expand (.name name) :=
    fun name => resolve_after s.raised [] (.name name)
  have hanswer : answer = s.expandTypedefs s.scope.typedefs := resolveTypedefs_after s calls
  have hall := List.Subset.refl s.scope.typedefs
  simp only [hanswer, hbyName]
  refine ⟨⟨?_, fun h => ?_⟩, fun types => Setup.expandTypedefs_eq_ok_iff hall,
    fun err => Setup.expandTypedefs_eq_error_iff hall⟩
  · rintro ⟨types, htypes⟩ name hname
    obtain ⟨hnames, hread⟩ := (Setup.expandTypedefs_eq_ok_iff hall).1 htypes
    have hlisted : name ∈ types.map Prod.fst := hnames ▸ hname
    obtain ⟨⟨name, t⟩, hmem, rfl⟩ := List.mem_map.1 hlisted
    exact ⟨_, hread name t hmem⟩
  · cases htypes : s.expandTypedefs s.scope.typedefs with
    | ok types => exact ⟨types, rfl⟩
    | error err =>
      obtain ⟨before, name, after, hnames, -, herr⟩ :=
        (Setup.expandTypedefs_eq_error_iff hall).1 htypes
      obtain ⟨t, ht⟩ := h name (by simp [names, hnames])
      cases herr.symm.trans ht

def stairScope : Scope where
  types := [("Stair", .typedef (.seq (.name "Step"))), ("Flag", .enum []),
    ("Step", .typedef (.set (.name "int")))]
  events := []
  names_nodup := by decide
  names_free := by decide
  events_nodup := List.nodup_nil

theorem resolveTypedefs_one_by_one_stair :
    let s : Setup := ⟨stairScope, { limit := some 4 }⟩
    let low : Setup := ⟨stairScope, { limit := some 3 }⟩
    let upper := "Stair"
    let lower := "Step"
    let step : Ty := .set (.prim .int)
    let stair : Ty := .seq (.typedef lower step)
    let calls : List Call := [.resolve (.name upper), .resolve (.name lower)]
    ((fresh s).resolve (.name upper)).1 = .error .limitExceeded ∧
    ((fresh s.raised).resolve (.name upper)).1 = .ok (.typedef upper stair) ∧
    ((fresh s).after calls).resolveTypedefs.1 = .ok [(upper, stair), (lower, step)] ∧
    ((fresh low).after calls).resolveTypedefs.1 = .error .limitExceeded := by
  intro s low upper lower step stair calls
  have hstair : ((fresh s.raised).resolve (.name upper)).1 = .ok (.typedef upper stair) := rfl
  obtain ⟨-, hok, -⟩ := resolveTypedefs_one_by_one s calls
  obtain ⟨-, -, herror⟩ := resolveTypedefs_one_by_one low calls
  refine ⟨rfl, hstair, (hok _).2 ⟨rfl, fun name t hmem => ?_⟩, (herror _).2 ?_⟩
  · rcases List.mem_pair.1 hmem with heq | heq
    · cases heq
      exact hstair
    · cases heq
      rfl
  · exact ⟨[], upper, [lower], rfl, by simp, rfl⟩

end MachineLang.Resolver
