import Mathlib.Data.List.Chain
import MachineLang.Proofs.Resolver.History

set_option autoImplicit false

/-!
# When resolution succeeds

Every error points at something that the expression reaches, and every reachable fault leads to an
error. On the way to an error the open typedefs form a chain in which each refers to the next, and
so a cycle that is reported is one of the declarations.
-/
namespace MachineLang.Resolver

namespace Setup

/-- The error names a fault that the expression reaches. -/
def Genuine (s : Setup) (root : TypeExpr) : ResolveError → Prop
  | .unknownType name =>
    s.scope.Reaches root (.name name) ∧ Primitive.ofKeyword? name = none ∧
      s.scope.find? name = none
  | .unknownEvent event =>
    s.settings.checkEvents ∧ ¬ s.scope.hasEvent event ∧
      ∃ events, s.scope.Permits root events ∧ event ∈ events
  | .cyclicTypedef path =>
    ∃ name between, path = name :: (between ++ [name]) ∧ (name :: between).Nodup ∧
      s.scope.Reaches root (.name name) ∧ path.IsChain s.scope.Refers
  | .emptyTuple => s.scope.Reaches root (.tuple []) ∨ s.scope.Reaches root (.named [])
  | .limitExceeded =>
    ∃ limit e depth, s.settings.limit = some limit ∧ s.scope.Lies root e depth ∧ limit < depth

theorem map_eq_error {ε α β : Type} {f : α → β} {x : Except ε α} {err : ε} :
    x.map f = .error err ↔ x = .error err := by
  cases x <;> simp [Except.map]

theorem bind_eq_error {ε α β : Type} {f : α → Except ε β} {x : Except ε α} {err : ε} :
    x >>= f = .error err ↔ x = .error err ∨ ∃ a, x = .ok a ∧ f a = .error err := by
  cases x <;> simp [bind, Except.bind]

theorem undeclared?_eq_some {s : Setup} {events : List String} {event : String}
    (h : s.undeclared? events = some event) :
    s.settings.checkEvents ∧ ¬ s.scope.hasEvent event ∧ event ∈ events := by
  have hbad := List.find?_some h
  rw [Bool.and_eq_true, Bool.not_eq_true'] at hbad
  exact ⟨hbad.1, by simp [hbad.2], List.mem_of_find?_eq_some h⟩

theorem undeclared?_eq_none {s : Setup} {events : List String} :
    s.undeclared? events = none ↔
      (s.settings.checkEvents → ∀ event ∈ events, s.scope.hasEvent event) := by
  rw [undeclared?, List.find?_eq_none]
  grind

/-- Whatever typedef is mentioned next extends the chain of the open ones. -/
def Trail (s : Setup) (opened : List String) (e : TypeExpr) : Prop :=
  ∀ name, e.Contains (.name name) → (opened ++ [name]).IsChain s.scope.Refers

theorem trail_nil (s : Setup) (e : TypeExpr) : s.Trail [] e :=
  fun name _ => List.isChain_singleton name

theorem Trail.part {s : Setup} {opened : List String} {e f : TypeExpr} (h : s.Trail opened e)
    (hf : f ∈ e.parts) : s.Trail opened f :=
  fun name hname => h name (hname.head hf)

theorem Trail.open {s : Setup} {opened : List String} {name : String} {e : TypeExpr}
    (h : (opened ++ [name]).IsChain s.scope.Refers)
    (hname : s.scope.find? name = some (.typedef e)) : s.Trail (opened ++ [name]) e := by
  intro other hother
  rw [List.append_assoc]
  exact List.isChain_split.2 ⟨h, List.isChain_pair.2 ⟨e, hname, hother⟩⟩

section Errors
variable {s : Setup} {root : TypeExpr} {opened : List String} {target : TargetExpander}
  {err : ResolveError}

/-- Errors in the targets of reachable typedefs are genuine. -/
def Faithful (s : Setup) (root : TypeExpr) (opened : List String) (target : TargetExpander) :
    Prop :=
  ∀ depth name e err, s.scope.find? name = some (.typedef e) →
    s.scope.Lies root (.name name) depth → (opened ++ [name]).IsChain s.scope.Refers →
    target depth name e = .error err → s.Genuine root err

theorem expandPermission_genuine {p : Permission} (hroot : s.scope.Permits root p.events)
    (h : s.expandPermission p = .error err) : s.Genuine root err := by
  unfold expandPermission at h
  split at h
  case h_1 event hevent =>
    cases h
    obtain ⟨hcheck, hnone, hmem⟩ := undeclared?_eq_some hevent
    exact ⟨hcheck, hnone, p.events, hroot, hmem⟩
  case h_2 => cases h

theorem expandName_genuine (htarget : s.Faithful root opened target) {depth : Nat} {name : String}
    (hlies : s.scope.Lies root (.name name) depth)
    (hchain : (opened ++ [name]).IsChain s.scope.Refers)
    (h : s.expandName target depth name = .error err) : s.Genuine root err := by
  unfold expandName at h
  split at h
  case h_1 => cases h
  case h_2 hkeyword =>
    split at h
    case h_1 e he => exact htarget depth name e err he hlies hchain (map_eq_error.1 h)
    case h_2 => cases h
    case h_3 receives he =>
      exact expandPermission_genuine (.inr ⟨name, hlies.reaches, he⟩) h
    case h_4 => cases h
    case h_5 hnone =>
      cases h
      exact ⟨hlies.reaches, hkeyword, hnone⟩

theorem expandExprs_eq_error {depth : Nat} {es : List TypeExpr}
    (h : s.expandExprs target depth es = .error err) :
    ∃ e ∈ es, s.expandExpr target depth e = .error err := by
  induction es with
  | nil => cases h
  | cons e es ih =>
    rw [expandExprs] at h
    rcases bind_eq_error.1 h with h | ⟨t, -, h⟩
    · exact ⟨e, List.mem_cons_self, h⟩
    · rcases bind_eq_error.1 h with h | ⟨ts, -, h⟩
      · obtain ⟨f, hf, herr⟩ := ih h
        exact ⟨f, List.mem_cons_of_mem e hf, herr⟩
      · cases h

theorem expandFields_eq_error {depth : Nat} {fields : List (String × TypeExpr)}
    (h : s.expandFields target depth fields = .error err) :
    ∃ field ∈ fields, s.expandExpr target depth field.2 = .error err := by
  induction fields with
  | nil => cases h
  | cons field fields ih =>
    rw [expandFields] at h
    rcases bind_eq_error.1 h with h | ⟨t, -, h⟩
    · exact ⟨field, List.mem_cons_self, h⟩
    · rcases bind_eq_error.1 h with h | ⟨ts, -, h⟩
      · obtain ⟨other, hother, herr⟩ := ih h
        exact ⟨other, List.mem_cons_of_mem field hother, herr⟩
      · cases h

theorem genuine_of_admits {depth : Nat} {e : TypeExpr} (hlies : s.scope.Lies root e depth)
    (h : s.expandExpr target depth e = .error err) (hnode : s.admits depth → s.Genuine root err) :
    s.Genuine root err := by
  by_cases hdepth : s.admits depth
  · exact hnode hdepth
  · unfold expandExpr at h
    rw [if_neg hdepth] at h
    cases h
    rw [admits_iff, not_forall] at hdepth
    obtain ⟨limit, hlimit⟩ := hdepth
    rw [Classical.not_imp, Nat.not_le] at hlimit
    exact ⟨limit, e, depth, hlimit.1, hlies, hlimit.2⟩

theorem expandExpr_genuine (htarget : s.Faithful root opened target) {depth : Nat} {e : TypeExpr}
    (hlies : s.scope.Lies root e depth) (htrail : s.Trail opened e)
    (h : s.expandExpr target depth e = .error err) : s.Genuine root err := by
  induction e using TypeExpr.treeInduction generalizing depth with
  | name name =>
    refine genuine_of_admits hlies h fun hdepth => ?_
    rw [expandExpr, if_pos hdepth] at h
    exact expandName_genuine htarget hlies (htrail name .refl) h
  | seq element ih | set element ih =>
    refine genuine_of_admits hlies h fun hdepth => ?_
    rw [expandExpr, if_pos hdepth] at h
    have hpart := List.mem_singleton_self element
    exact ih (hlies.step (.part hpart)) (htrail.part hpart) (map_eq_error.1 h)
  | map key value ihk ihv =>
    refine genuine_of_admits hlies h fun hdepth => ?_
    rw [expandExpr, if_pos hdepth] at h
    have hkey : key ∈ (TypeExpr.map key value).parts := by simp [TypeExpr.parts]
    have hvalue : value ∈ (TypeExpr.map key value).parts := by simp [TypeExpr.parts]
    rcases bind_eq_error.1 h with h | ⟨k, -, h⟩
    · exact ihk (hlies.step (.part hkey)) (htrail.part hkey) h
    · rcases bind_eq_error.1 h with h | ⟨v, -, h⟩
      · exact ihv (hlies.step (.part hvalue)) (htrail.part hvalue) h
      · cases h
  | tuple elements ih =>
    refine genuine_of_admits hlies h fun hdepth => ?_
    cases elements with
    | nil =>
      rw [expandExpr, if_pos hdepth] at h
      cases h
      exact .inl hlies.reaches
    | cons first rest =>
      rw [expandExpr, if_pos hdepth] at h
      obtain ⟨e, he, herr⟩ := expandExprs_eq_error (map_eq_error.1 h)
      exact ih e he (hlies.step (.part he)) (htrail.part he) herr
  | named fields ih =>
    refine genuine_of_admits hlies h fun hdepth => ?_
    cases fields with
    | nil =>
      rw [expandExpr, if_pos hdepth] at h
      cases h
      exact .inr hlies.reaches
    | cons first rest =>
      rw [expandExpr, if_pos hdepth] at h
      obtain ⟨field, hfield, herr⟩ := expandFields_eq_error (map_eq_error.1 h)
      have hpart : field.2 ∈ (TypeExpr.named (first :: rest)).parts := List.mem_map_of_mem hfield
      exact ih field hfield (hlies.step (.part hpart)) (htrail.part hpart) herr
  | anyOf events =>
    refine genuine_of_admits hlies h fun hdepth => ?_
    rw [expandExpr, if_pos hdepth] at h
    exact expandPermission_genuine (.inl hlies.reaches) h

end Errors

theorem cycle_genuine {s : Setup} {root : TypeExpr} {opened : List String} {name : String}
    (hopen : name ∈ opened) (hnodup : opened.Nodup) (hreaches : s.scope.Reaches root (.name name))
    (hchain : (opened ++ [name]).IsChain s.scope.Refers) :
    s.Genuine root (.cyclicTypedef (cycle opened name)) := by
  obtain ⟨before, between, rfl, hbefore⟩ := List.eq_append_cons_of_mem hopen
  have hskip : ∀ other ∈ before, other != name := by
    intro other hother
    exact bne_iff_ne.2 fun heq => hbefore (heq ▸ hother)
  have hpath : cycle (before ++ name :: between) name = name :: (between ++ [name]) := by
    rw [cycle, List.dropWhile_append_of_pos hskip, List.dropWhile_cons_of_neg (by simp)]
    rfl
  rw [hpath]
  refine ⟨name, between, rfl, (List.nodup_append.1 hnodup).2.1, hreaches, ?_⟩
  rw [List.append_assoc] at hchain
  exact hchain.right_of_append

theorem expandTarget_faithful {s : Setup} {root : TypeExpr} {unopened : Nat}
    {opened : List String} (hopens : s.Opens unopened opened) :
    s.Faithful root opened (s.expandTarget unopened opened) := by
  induction unopened generalizing opened with
  | zero =>
    intro depth name e err hname hlies hchain h
    cases h
    exact cycle_genuine (hopens.mem_of_zero hname) hopens.nodup hlies.reaches hchain
  | succ unopened ih =>
    intro depth name e err hname hlies hchain h
    by_cases hopen : name ∈ opened
    · rw [expandTarget_opened s hopen] at h
      cases h
      exact cycle_genuine hopen hopens.nodup hlies.reaches hchain
    · rw [expandTarget_unopened s hopen] at h
      exact expandExpr_genuine (ih (hopens.push hname hopen)) (hlies.step (.target hname))
        (.open hchain hname) h

theorem expand_genuine {s : Setup} {e : TypeExpr} {err : ResolveError}
    (h : s.expand e = .error err) : s.Genuine e err :=
  expandExpr_genuine (expandTarget_faithful (opens_nil (Nat.le_refl _))) .root (s.trail_nil e) h

/-- What an expression has to be for an answer. -/
structure Resolvable (s : Setup) (e : TypeExpr) : Prop where
  known : ∀ name, s.scope.Reaches e (.name name) →
    (∃ p, Primitive.ofKeyword? name = some p) ∨ s.scope.contains name
  nonempty : ¬ s.scope.Reaches e (.tuple []) ∧ ¬ s.scope.Reaches e (.named [])
  events : s.settings.checkEvents → ∀ events, s.scope.Permits e events →
    ∀ event ∈ events, s.scope.hasEvent event
  acyclic : ∀ name target, s.scope.Reaches e (.name name) →
    s.scope.find? name = some (.typedef target) → ¬ s.scope.Reaches target (.name name)
  height : ∀ limit, s.settings.limit = some limit →
    (∃ h, s.scope.HasHeight e h) ∧ ∀ h, s.scope.HasHeight e h → h ≤ limit

theorem reaches_of_chain {scope : Scope} {name last : String} {between : List String}
    (h : (name :: (between ++ [last])).IsChain scope.Refers) :
    ∃ target, scope.find? name = some (.typedef target) ∧ scope.Reaches target (.name last) := by
  induction between generalizing name with
  | nil =>
    obtain ⟨target, htarget, hlast⟩ := List.isChain_pair.1 h
    exact ⟨target, htarget, .of_contains hlast⟩
  | cons next between ih =>
    rw [List.cons_append, List.isChain_cons_cons] at h
    obtain ⟨⟨target, htarget, hnext⟩, hrest⟩ := h
    obtain ⟨inner, hinner, hlast⟩ := ih hrest
    have hstep : scope.Reaches target inner :=
      (Scope.Reaches.of_contains hnext).tail (.target hinner)
    exact ⟨target, htarget, hstep.trans hlast⟩

theorem Resolvable.not_genuine {s : Setup} {e : TypeExpr} {err : ResolveError}
    (h : s.Resolvable e) : ¬ s.Genuine e err := by
  intro hgenuine
  cases err with
  | unknownType name =>
    obtain ⟨hreaches, hkeyword, hnone⟩ := hgenuine
    rcases h.known name hreaches with ⟨p, hp⟩ | hcontains
    · rw [hkeyword] at hp
      cases hp
    · obtain ⟨d, hd⟩ := (s.scope.contains_iff name).1 hcontains
      rw [hnone] at hd
      cases hd
  | unknownEvent event =>
    obtain ⟨hcheck, hnone, events, hevents, hmem⟩ := hgenuine
    exact hnone (h.events hcheck events hevents event hmem)
  | cyclicTypedef path =>
    obtain ⟨name, between, rfl, -, hreaches, hchain⟩ := hgenuine
    obtain ⟨target, htarget, hback⟩ := reaches_of_chain hchain
    exact h.acyclic name target hreaches htarget hback
  | emptyTuple => exact hgenuine.elim h.nonempty.1 h.nonempty.2
  | limitExceeded =>
    obtain ⟨limit, f, depth, hlimit, hlies, hlt⟩ := hgenuine
    obtain ⟨⟨height, hheight⟩, hle⟩ := h.height limit hlimit
    have hlow := hle height hheight
    have hdepth := hheight.lies_le hlies
    omega

theorem Answers.resolvable {s : Setup} {e : TypeExpr} {t : Ty} (h : s.Answers 0 e t) :
    s.Resolvable e := by
  obtain ⟨rfl, hstands, hadmitted⟩ := h
  have hcoherent := hstands.coherent
  constructor
  case known =>
    intro name hname
    obtain ⟨u, hu, hexpr⟩ := hcoherent.node_of_reaches hname
    rw [Scope.contains_iff]
    rcases (hcoherent u hu).of_expr_eq_name hexpr with ⟨p, -, hp⟩ | ⟨_, -, hfind⟩ | ⟨_, -, hfind⟩ |
      ⟨_, -, hfind⟩ | ⟨-, hfind⟩
    · exact .inl ⟨p, hp ▸ Primitive.ofKeyword?_keyword p⟩
    all_goals exact .inr ⟨_, hfind⟩
  case nonempty =>
    constructor <;> intro hempty
    · obtain ⟨u, hu, hexpr⟩ := hcoherent.node_of_reaches hempty
      obtain ⟨elements, rfl, hnil⟩ := Ty.expr_eq_tuple hexpr
      exact hcoherent _ hu (List.map_eq_nil_iff.1 hnil)
    · obtain ⟨u, hu, hexpr⟩ := hcoherent.node_of_reaches hempty
      obtain ⟨fields, rfl, hnil⟩ := Ty.expr_eq_named hexpr
      exact hcoherent _ hu (List.map_eq_nil_iff.1 hnil)
  case events =>
    intro hcheck events hevents
    have hdeclared : ∀ p, .permission p ∈ t.nodes → ∀ event ∈ p.events, s.scope.hasEvent event :=
      fun p hp => undeclared?_eq_none.1 ((hstands _ hp).2 p rfl) hcheck
    rcases hevents with hany | ⟨name, hname, hfind⟩
    · obtain ⟨u, hu, hexpr⟩ := hcoherent.node_of_reaches hany
      obtain rfl := Ty.expr_eq_anyOf hexpr
      exact hdeclared _ hu
    · obtain ⟨u, hu, hexpr⟩ := hcoherent.node_of_reaches hname
      obtain rfl := (hcoherent u hu).eq_interface hexpr hfind
      exact hdeclared _ hu
  case acyclic =>
    intro name e hname hfind hback
    obtain ⟨u, hu, hexpr⟩ := hcoherent.node_of_reaches hname
    obtain ⟨target, rfl, rfl⟩ := (hcoherent u hu).eq_typedef hexpr hfind
    have htypedef : s.scope.Coherent (.typedef name target) := hcoherent.node hu
    obtain ⟨v, hv, hexpr⟩ :=
      (htypedef.part (List.mem_singleton_self target)).node_of_reaches hback
    have hnode : v ∈ t.nodes :=
      Ty.nodes_subset hu (Ty.mem_nodes_of_part (List.mem_singleton_self target) hv)
    obtain ⟨inner, rfl, -⟩ := (hcoherent v hnode).eq_typedef hexpr hfind
    exact htypedef.not_mem_typedefNames (Ty.mem_typedefNames.2 ⟨inner, hv⟩)
  case height =>
    intro limit hlimit
    have hle := admits_iff.1 hadmitted limit hlimit
    refine ⟨⟨t.height, hcoherent.hasHeight⟩, fun h hh => ?_⟩
    have heq := hh.unique hcoherent.hasHeight
    omega

end Setup

/-- An expression resolves exactly if it reaches no fault, whatever was asked before. -/
theorem resolve_ok_iff (s : Setup) (calls : List Call) (e : TypeExpr) :
    (∃ t, (((fresh s).after calls).resolve e).1 = .ok t) ↔ s.Resolvable e := by
  rw [resolve_after]
  constructor
  · rintro ⟨t, ht⟩
    exact (Setup.expandExpr_answers (s.expandTarget_sound _ _) ht).resolvable
  · intro h
    cases hexpand : s.expand e with
    | ok t => exact ⟨t, rfl⟩
    | error err => exact absurd (Setup.expand_genuine hexpand) h.not_genuine

/-- Whatever was asked before, an error points at a fault that the expression reaches. -/
theorem resolve_error_genuine {s : Setup} {calls : List Call} {e : TypeExpr} {err : ResolveError}
    (h : (((fresh s).after calls).resolve e).1 = .error err) : s.Genuine e err := by
  rw [resolve_after] at h
  exact Setup.expand_genuine h

def ringScope : Scope where
  types := [("Chain", .typedef (.seq (.name "Cell"))),
    ("Cell", .typedef (.map (.name "int") (.name "Link"))), ("Plain", .typedef (.name "int")),
    ("Link", .typedef (.tuple [.name "Plain", .name "Cell", .name "Chain"]))]
  events := []
  names_nodup := by decide
  names_free := by decide
  events_nodup := by decide

theorem resolve_error_genuine_ring :
    let s : Setup := ⟨ringScope, { limit := none }⟩
    let calls : List Call := [.resolve (.name "Link"), .resolveTypedefs]
    let e : TypeExpr := .set (.name "Chain")
    let ring := ["Cell", "Link", "Cell"]
    (((fresh s).after calls).resolve e).1 = .error (.cyclicTypedef ring) ∧
    s.scope.Reaches e (.name "Cell") ∧ s.scope.Refers "Cell" "Link" ∧
    s.scope.Refers "Link" "Cell" := by
  intro s calls e ring
  have herror : (((fresh s).after calls).resolve e).1 = .error (.cyclicTypedef ring) := by
    rw [resolve_after]
    rfl
  obtain ⟨name, between, hpath, -, hreaches, hchain⟩ := resolve_error_genuine herror
  obtain ⟨rfl, -⟩ := List.cons.inj hpath
  rw [List.isChain_cons_cons, List.isChain_pair] at hchain
  exact ⟨herror, hreaches, hchain.1, hchain.2⟩

end MachineLang.Resolver
