import MachineLang.Proofs.Resolver.Tracking
import MachineLang.Proofs.Resolver.History

set_option autoImplicit false

namespace MachineLang.Resolver
open Setup

def Progress.call (s : Setup) (p : Progress) : Call → Progress
  | .resolve e => (p.resolve s e).2
  | .resolveTypedefs => (p.resolveTypedefs s).2

def Progress.after (s : Setup) (p : Progress) (calls : List Call) : Progress :=
  calls.foldl (Progress.call s) p

theorem run_follows {α β : Type} {s : Setup} {memo : Memo} {deepest : Nat}
    {R : α → Nat → β → Prop} {reading : Tracking α} {plain : Reading β}
    (h : Follows [] 0 deepest R (reading ⟨cacheOf memo, 0, [], deepest⟩) (plain memo)) :
    (∃ deep, (Progress.run ⟨cacheOf memo, 0, [], deepest⟩ reading).2 =
      ⟨cacheOf (Resolver.run ⟨s, memo⟩ plain).2.memo, 0, [], deep⟩) ∧
    ∀ f : α → β, (∀ a levels b, R a levels b → f a = b) →
      (Progress.run ⟨cacheOf memo, 0, [], deepest⟩ reading).1.map f =
        (Resolver.run ⟨s, memo⟩ plain).1 := by
  unfold Progress.run Resolver.run
  generalize reading ⟨cacheOf memo, 0, [], deepest⟩ = result at h
  generalize plain memo = answer at h
  cases h with
  | @error e deep after => exact ⟨⟨deep, rfl⟩, fun f hf => rfl⟩
  | @ok a levels b after hR =>
    exact ⟨⟨_, rfl⟩, fun f hf => congrArg Except.ok (hf a levels b hR)⟩

theorem call_follows (s : Setup) (memo : Memo) (deepest : Nat) (c : Call) :
    ∃ deep, Progress.call s ⟨cacheOf memo, 0, [], deepest⟩ c =
      ⟨cacheOf ((Resolver.mk s memo).call c).memo, 0, [], deep⟩ := by
  cases c with
  | resolve e => exact (run_follows (trackRoot_follows s e memo deepest)).1
  | resolveTypedefs => exact (run_follows (trackTypedefs_follows s _ memo deepest)).1

theorem after_follows {s : Setup} {memo : Memo} (hkept : s.Kept [] memo) (deepest : Nat)
    (calls : List Call) :
    ∃ kept deep, (Resolver.mk s memo).after calls = ⟨s, kept⟩ ∧
      Progress.after s ⟨cacheOf memo, 0, [], deepest⟩ calls = ⟨cacheOf kept, 0, [], deep⟩ ∧
      memo <:+ kept ∧ s.Kept [] kept := by
  induction calls generalizing memo deepest with
  | nil => exact ⟨memo, deepest, rfl, rfl, List.suffix_refl memo, hkept⟩
  | cons c calls ih =>
    obtain ⟨middle, hcall, hgrown, hkept⟩ := call_kept hkept c
    obtain ⟨deep, htracked⟩ := call_follows s memo deepest c
    rw [hcall] at htracked
    obtain ⟨kept, deep', hafter, hprogress, hgrown', hkept⟩ := ih hkept deep
    refine ⟨kept, deep', ?_, ?_, hgrown.trans hgrown', hkept⟩
    · rw [← hafter, ← hcall]
      rfl
    · rw [← hprogress, ← htracked]
      rfl

/-- A kept typedef has its name and the type that its declared target expands to, with the height
    of this type, and whatever that type refers to is kept as well. -/
structure Progress.Exact (s : Setup) (p : Progress) (name : String) (kept : Typedef.Kept) :
    Prop where
  declared : ∃ e, s.scope.find? name = some (.typedef e) ∧ s.expand e = .ok kept.typedef.target
  named : kept.typedef.name = name
  measured : kept.expansion = kept.typedef.target.height
  admitted : ∀ limit, s.settings.limit = some limit → kept.expansion ≤ limit
  closed : ∀ other ∈ kept.typedef.target.typedefNames, ∃ inner, p.cache.lookup other = some inner

/-- No reading is under way, and what earlier ones have kept is exact. -/
structure Progress.Rests (s : Setup) (p : Progress) : Prop where
  depth : p.depth = 0
  opened : p.opened = []
  nodup : (p.cache.map Prod.fst).Nodup
  entries : ∀ name kept, (name, kept) ∈ p.cache → p.Exact s name kept

theorem keys_cacheOf (memo : Memo) : (cacheOf memo).map Prod.fst = memo.map Prod.fst := by
  rw [cacheOf, List.map_map]
  rfl

theorem rests_of_kept {s : Setup} {memo : Memo} (hkept : s.Kept [] memo) (deep : Nat) :
    Progress.Rests s ⟨cacheOf memo, 0, [], deep⟩ where
  depth := rfl
  opened := rfl
  nodup := by
    rw [keys_cacheOf]
    exact hkept.nodup
  entries := by
    intro name kept hmem
    obtain ⟨⟨key, read⟩, hread, heq⟩ := List.mem_map.1 hmem
    cases heq
    have htarget := hkept.targets name read hread
    have hanswers : s.Answers 0 read.type.expr read.type :=
      ⟨rfl, htarget.stands.part (List.mem_singleton_self _), by
        rw [Nat.zero_add, ← htarget.measured]
        exact htarget.admitted⟩
    refine ⟨⟨read.type.expr, htarget.stands.coherent.declares, expand_eq_ok_iff.2 hanswers⟩, rfl,
      htarget.measured, admits_iff.1 htarget.admitted, fun other hother => ?_⟩
    refine exists_lookup ?_
    rw [keys_cacheOf]
    exact htarget.closed hother

/-- After any calls, failed ones among them, the depth is zero and no typedef is open, and what is
    kept is exact and stays kept, whatever is called later. The tracked readings keep what the plain
    ones keep and answer alike. -/
theorem rests_after (s : Setup) (calls later : List Call) :
    let p := Progress.after s {} calls
    let r := (fresh s).after calls
    p.Rests s ∧
    (∀ name kept, p.cache.lookup name = some kept →
      (Progress.after s {} (calls ++ later)).cache.lookup name = some kept) ∧
    r.memo = (p.cache.map fun (name, kept) => (name, ⟨kept.typedef.target, kept.expansion⟩)) ∧
    (∀ e, (p.resolve s e).1 = (r.resolve e).1) ∧
    (p.resolveTypedefs s).1.map (List.map fun typedef => (typedef.name, typedef.target)) =
      r.resolveTypedefs.1 := by
  intro p r
  obtain ⟨kept, deep, hr, hp, -, hkept⟩ := after_follows (s.kept_nil []) 0 calls
  obtain ⟨final, deep', -, hlater, hgrown, hfinal⟩ := after_follows hkept deep later
  have hp' : p = ⟨cacheOf kept, 0, [], deep⟩ := hp
  have hr' : r = ⟨s, kept⟩ := hr
  have hrest : Progress.after s {} (calls ++ later) = ⟨cacheOf final, 0, [], deep'⟩ := by
    rw [Progress.after, List.foldl_append, ← hlater, ← hp]
    rfl
  rw [hp', hr', hrest]
  refine ⟨rests_of_kept hkept deep, fun name entry hentry => ?_, ?_, fun e => ?_, ?_⟩
  · have hmem : (name, entry) ∈ cacheOf final :=
      List.map_subset _ hgrown.subset (mem_of_lookup hentry)
    exact lookup_of_mem (rests_of_kept hfinal deep').nodup hmem
  · simp only [cacheOf, List.map_map]
    exact (List.map_id' kept).symm
  · have hanswer := (run_follows (s := s) (trackRoot_follows s e kept deep)).2 id fun a _ b h => h
    rwa [Except.map_id] at hanswer
  · exact (run_follows (trackTypedefs_follows s s.scope.typedefs kept deep)).2 _ fun a _ b h => h

def draftScope : Scope where
  types := [("Draft", .typedef (.tuple [.name "Pair", .name "Missing"])),
    ("Pair", .typedef (.tuple [.name "int", .name "Cell"])), ("Cell", .typedef (.seq (.name "int")))]
  events := []
  names_nodup := by decide
  names_free := by decide
  events_nodup := List.nodup_nil

theorem rests_after_draft :
    let s : Setup := ⟨draftScope, { limit := some 8 }⟩
    let p := Progress.after s {} [.resolve (.set (.name "Draft"))]
    let cell : Ty := .seq (.prim .int)
    let name := "Cell"
    let pair : Typedef.Kept := ⟨⟨"Pair", .tuple [.prim .int, .typedef name cell]⟩, 4⟩
    ((fresh s).resolve (.set (.name "Draft"))).1 = .error (.unknownType "Missing") ∧
    p.depth = 0 ∧ p.opened = [] ∧ p.cache = [("Pair", pair), (name, ⟨⟨name, cell⟩, 2⟩)] ∧
    pair.expansion = pair.typedef.target.height ∧
    (Progress.after s {} [.resolve (.set (.name "Draft")), .resolveTypedefs]).cache.lookup "Pair" =
      some pair := by
  intro s p cell name pair
  have hcache : p.cache = [("Pair", pair), (name, ⟨⟨name, cell⟩, 2⟩)] := rfl
  obtain ⟨hrests, hstays, -⟩ := rests_after s [.resolve (.set (.name "Draft"))] [.resolveTypedefs]
  have hpair : ("Pair", pair) ∈ p.cache := by rw [hcache]; exact List.mem_cons_self
  exact ⟨rfl, hrests.depth, hrests.opened, hcache, (hrests.entries "Pair" pair hpair).measured,
    hstays "Pair" pair rfl⟩

end MachineLang.Resolver
