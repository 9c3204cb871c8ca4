import MachineLang.Scope
import MachineLang.Proofs.Ty.Tree

set_option autoImplicit false

namespace MachineLang

namespace Ty

mutual

def expr : Ty → TypeExpr
  | prim p => .name p.keyword
  | seq element => .seq element.expr
  | set element => .set element.expr
  | map key value => .map key.expr value.expr
  | tuple elements => .tuple (exprs elements)
  | named fields => .named (fieldExprs fields)
  | enum decl => .name decl.name
  | typedef name _ => .name name
  | permission p =>
    match p.interface with
    | some name => .name name
    | none => .anyOf p.events
  | foreign name => .name name

def exprs : List Ty → List TypeExpr
  | [] => []
  | t :: ts => t.expr :: exprs ts

def fieldExprs : List (String × Ty) → List (String × TypeExpr)
  | [] => []
  | (name, t) :: fields => (name, t.expr) :: fieldExprs fields

end

theorem exprs_eq_map (ts : List Ty) : exprs ts = ts.map expr := by
  induction ts with
  | nil => rfl
  | cons t ts ih => rw [exprs, ih, List.map_cons]

theorem fieldExprs_eq_map (fields : List (String × Ty)) :
    fieldExprs fields = fields.map fun field => (field.1, field.2.expr) := by
  induction fields with
  | nil => rfl
  | cons field fields ih => rw [fieldExprs, ih, List.map_cons]

attribute [local grind =] expr exprs_eq_map fieldExprs_eq_map

theorem expr_eq_seq {t : Ty} {e : TypeExpr} (h : t.expr = .seq e) :
    ∃ element, t = .seq element ∧ element.expr = e := by
  cases t <;> grind

theorem expr_eq_set {t : Ty} {e : TypeExpr} (h : t.expr = .set e) :
    ∃ element, t = .set element ∧ element.expr = e := by
  cases t <;> grind

theorem expr_eq_map {t : Ty} {k v : TypeExpr} (h : t.expr = .map k v) :
    ∃ key value, t = .map key value ∧ key.expr = k ∧ value.expr = v := by
  cases t <;> grind

theorem expr_eq_tuple {t : Ty} {es : List TypeExpr} (h : t.expr = .tuple es) :
    ∃ elements, t = .tuple elements ∧ elements.map expr = es := by
  cases t <;> grind

theorem expr_eq_named {t : Ty} {es : List (String × TypeExpr)} (h : t.expr = .named es) :
    ∃ fields, t = .named fields ∧ (fields.map fun field => (field.1, field.2.expr)) = es := by
  cases t <;> grind

theorem expr_eq_anyOf {t : Ty} {events : List String} (h : t.expr = .anyOf events) :
    t = .permission ⟨none, events⟩ := by
  cases t
  case permission p =>
    obtain ⟨_ | name, written⟩ := p
    · cases h
      rfl
    · cases h
  all_goals cases h

end Ty

theorem mem_of_lookup {α : Type} {entries : List (String × α)} {name : String} {a : α}
    (h : entries.lookup name = some a) : (name, a) ∈ entries := by
  obtain ⟨before, after, heq, -⟩ := List.lookup_eq_some_iff.1 h
  rw [heq]
  exact List.mem_append_right _ List.mem_cons_self

theorem lookup_of_mem {α : Type} {entries : List (String × α)} {name : String} {a : α}
    (hnodup : (entries.map Prod.fst).Nodup) (h : (name, a) ∈ entries) :
    entries.lookup name = some a := by
  obtain ⟨before, after, heq⟩ := List.append_of_mem h
  rw [heq, List.map_append, List.nodup_append] at hnodup
  refine List.lookup_eq_some_iff.2 ⟨before, after, heq, fun p hp => ?_⟩
  have hne := hnodup.2.2 p.1 (List.mem_map_of_mem hp) name (by simp)
  exact bne_iff_ne.2 (Ne.symm hne)

theorem not_mem_of_lookup {α : Type} {entries : List (String × α)} {name : String}
    (h : entries.lookup name = none) : name ∉ entries.map Prod.fst := by
  intro hmem
  obtain ⟨entry, hentry, rfl⟩ := List.mem_map.1 hmem
  exact bne_iff_ne.1 (List.lookup_eq_none_iff.1 h entry hentry) rfl

theorem exists_lookup {α : Type} {entries : List (String × α)} {name : String}
    (h : name ∈ entries.map Prod.fst) : ∃ a, entries.lookup name = some a := by
  cases hlookup : entries.lookup name with
  | some a => exact ⟨a, rfl⟩
  | none => exact absurd h (not_mem_of_lookup hlookup)

namespace Scope

theorem mem_of_find? {scope : Scope} {name : String} {d : Declaration}
    (h : scope.find? name = some d) : (name, d) ∈ scope.types :=
  mem_of_lookup h

theorem find?_of_mem {scope : Scope} {name : String} {d : Declaration}
    (h : (name, d) ∈ scope.types) : scope.find? name = some d :=
  lookup_of_mem scope.names_nodup h

theorem ofKeyword?_of_find? {scope : Scope} {name : String} {d : Declaration}
    (h : scope.find? name = some d) : Primitive.ofKeyword? name = none :=
  scope.names_free name (List.mem_map_of_mem (mem_of_find? h))

theorem find?_keyword (scope : Scope) (p : Primitive) : scope.find? p.keyword = none := by
  cases h : scope.find? p.keyword with
  | none => rfl
  | some d =>
    have hnone := ofKeyword?_of_find? h
    rw [Primitive.ofKeyword?_keyword] at hnone
    cases hnone

theorem mem_typedefs {scope : Scope} {name : String} {target : TypeExpr} :
    (name, target) ∈ scope.typedefs ↔ scope.find? name = some (.typedef target) := by
  rw [typedefs, List.mem_filterMap]
  constructor
  · rintro ⟨⟨m, d⟩, hmem, h⟩
    cases d <;> simp at h
    case typedef e =>
      obtain ⟨rfl, rfl⟩ := h
      exact find?_of_mem hmem
  · intro h
    exact ⟨_, mem_of_find? h, rfl⟩

/-- What a node of a type has to be for the declarations of the scope. -/
def Declares (scope : Scope) : Ty → Prop
  | .enum decl => scope.find? decl.name = some (.enum decl.elements)
  | .typedef name target => scope.find? name = some (.typedef target.expr)
  | .permission p => ∀ name, p.interface = some name → scope.find? name = some (.interface p.events)
  | .foreign name => scope.find? name = some .foreign
  | .tuple elements => elements ≠ []
  | .named fields => fields ≠ []
  | .prim _ | .seq _ | .set _ | .map _ _ => True

def Coherent (scope : Scope) : Ty → Prop := Ty.Everywhere scope.Declares

theorem Coherent.declares {scope : Scope} {t : Ty} (h : scope.Coherent t) : scope.Declares t :=
  Ty.Everywhere.self h

theorem Coherent.part {scope : Scope} {s t : Ty} (h : scope.Coherent t) (hs : s ∈ t.parts) :
    scope.Coherent s :=
  Ty.Everywhere.part h hs

theorem Coherent.node {scope : Scope} {s t : Ty} (h : scope.Coherent t) (hs : s ∈ t.nodes) :
    scope.Coherent s :=
  Ty.Everywhere.node h hs

theorem map_inj_of_mem {α β : Type} {f : α → β} {as bs : List α}
    (hf : ∀ a ∈ as, ∀ b ∈ bs, f a = f b → a = b) (h : as.map f = bs.map f) : as = bs := by
  induction as generalizing bs with
  | nil => simpa using h.symm
  | cons a as ih =>
    cases bs with
    | nil => simp at h
    | cons b bs =>
      obtain ⟨hab, hrest⟩ := List.cons.inj h
      rw [hf a List.mem_cons_self b List.mem_cons_self hab,
        ih (fun x hx y hy => hf x (.tail a hx) y (.tail b hy)) hrest]

theorem Declares.of_expr_eq_name {scope : Scope} {t : Ty} {name : String} (h : scope.Declares t)
    (hname : t.expr = .name name) :
    (∃ p, t = .prim p ∧ p.keyword = name) ∨
    (∃ target, t = .typedef name target ∧ scope.find? name = some (.typedef target.expr)) ∨
    (∃ elements, t = .enum ⟨name, elements⟩ ∧ scope.find? name = some (.enum elements)) ∨
    (∃ events, t = .permission ⟨some name, events⟩ ∧ scope.find? name = some (.interface events)) ∨
    t = .foreign name ∧ scope.find? name = some .foreign := by
  cases t <;> simp only [Ty.expr, TypeExpr.name.injEq, reduceCtorEq] at hname
  case prim p => exact .inl ⟨p, rfl, hname⟩
  case typedef n target =>
    subst hname
    exact .inr (.inl ⟨target, rfl, h⟩)
  case enum decl =>
    subst hname
    exact .inr (.inr (.inl ⟨decl.elements, rfl, h⟩))
  case permission p =>
    obtain ⟨_ | n, events⟩ := p
    · cases hname
    · cases hname
      exact .inr (.inr (.inr (.inl ⟨events, rfl, h _ rfl⟩)))
  case foreign n =>
    subst hname
    exact .inr (.inr (.inr (.inr ⟨rfl, h⟩)))

theorem Declares.eq_typedef {scope : Scope} {t : Ty} {name : String} {e : TypeExpr}
    (h : scope.Declares t) (hname : t.expr = .name name)
    (hfind : scope.find? name = some (.typedef e)) : ∃ target, t = .typedef name target ∧
      target.expr = e := by
  have hkeyword := find?_keyword scope
  rcases h.of_expr_eq_name hname with ⟨p, rfl, rfl⟩ | ⟨target, rfl, hother⟩ | ⟨_, rfl, hother⟩ |
    ⟨_, rfl, hother⟩ | ⟨rfl, hother⟩ <;> grind

theorem Declares.eq_interface {scope : Scope} {t : Ty} {name : String} {events : List String}
    (h : scope.Declares t) (hname : t.expr = .name name)
    (hfind : scope.find? name = some (.interface events)) :
    t = .permission ⟨some name, events⟩ := by
  have hkeyword := find?_keyword scope
  rcases h.of_expr_eq_name hname with ⟨p, rfl, rfl⟩ | ⟨_, rfl, hother⟩ | ⟨_, rfl, hother⟩ |
    ⟨_, rfl, hother⟩ | ⟨rfl, hother⟩ <;> grind

theorem Declares.eq_of_name {scope : Scope} {s t : Ty} {name : String}
    (hs : scope.Declares s) (ht : scope.Declares t)
    (hns : s.expr = .name name) (hnt : t.expr = .name name)
    (htarget : ∀ u v, s = .typedef name u → t = .typedef name v → u.expr = v.expr → u = v) :
    s = t := by
  have hk := find?_keyword scope
  rcases hs.of_expr_eq_name hns with ⟨p, rfl, hp⟩ | ⟨u, rfl, hu⟩ | ⟨elements, rfl, he⟩ |
      ⟨events, rfl, hv⟩ | ⟨rfl, hf⟩ <;>
    rcases ht.of_expr_eq_name hnt with ⟨q, rfl, hq⟩ | ⟨v, rfl, hv'⟩ | ⟨elements', rfl, he'⟩ |
      ⟨events', rfl, hv'⟩ | ⟨rfl, hf'⟩ <;>
    grind [Primitive.ofKeyword?_keyword]

theorem Coherent.eq_of_expr_eq {scope : Scope} {s t : Ty} (hs : scope.Coherent s)
    (ht : scope.Coherent t) (h : s.expr = t.expr) : s = t := by
  induction s using Ty.treeInduction generalizing t with
  | prim p => exact hs.declares.eq_of_name ht.declares rfl h.symm (by simp)
  | enum decl => exact hs.declares.eq_of_name ht.declares rfl h.symm (by simp)
  | foreign name => exact hs.declares.eq_of_name ht.declares rfl h.symm (by simp)
  | typedef name target ih =>
    refine hs.declares.eq_of_name ht.declares rfl h.symm fun u v hu hv huv => ?_
    cases hu
    subst hv
    exact ih (hs.part (by simp [Ty.parts])) (ht.part (by simp [Ty.parts])) huv
  | permission p =>
    obtain ⟨_ | name, events⟩ := p
    · exact (Ty.expr_eq_anyOf h.symm).symm
    · exact hs.declares.eq_of_name ht.declares rfl h.symm (by simp)
  | seq element ih =>
    obtain ⟨other, rfl, hother⟩ := Ty.expr_eq_seq h.symm
    rw [ih (hs.part (by simp [Ty.parts])) (ht.part (by simp [Ty.parts])) hother.symm]
  | set element ih =>
    obtain ⟨other, rfl, hother⟩ := Ty.expr_eq_set h.symm
    rw [ih (hs.part (by simp [Ty.parts])) (ht.part (by simp [Ty.parts])) hother.symm]
  | map key value ihk ihv =>
    obtain ⟨k, v, rfl, hk, hv⟩ := Ty.expr_eq_map h.symm
    rw [ihk (hs.part (by simp [Ty.parts])) (ht.part (by simp [Ty.parts])) hk.symm,
      ihv (hs.part (by simp [Ty.parts])) (ht.part (by simp [Ty.parts])) hv.symm]
  | tuple elements ih =>
    obtain ⟨others, rfl, hothers⟩ := Ty.expr_eq_tuple h.symm
    have heq := hothers.trans (Ty.exprs_eq_map elements)
    have hsame : elements = others :=
      map_inj_of_mem (fun a ha b hb hab => ih a ha (hs.part ha) (ht.part hb) hab) heq.symm
    rw [hsame]
  | named fields ih =>
    obtain ⟨others, rfl, hothers⟩ := Ty.expr_eq_named h.symm
    have heq := hothers.trans (Ty.fieldExprs_eq_map fields)
    have hsame : fields = others := by
      refine map_inj_of_mem (fun a ha b hb hab => ?_) heq.symm
      obtain ⟨hname, hexpr⟩ := Prod.ext_iff.1 hab
      exact Prod.ext hname (ih a ha (hs.part (List.mem_map_of_mem ha))
        (ht.part (List.mem_map_of_mem hb)) hexpr)
    rw [hsame]

theorem Coherent.not_mem_typedefNames {scope : Scope} {name : String} {target : Ty}
    (h : scope.Coherent (.typedef name target)) : name ∉ target.typedefNames := by
  intro hmem
  obtain ⟨inner, hinner⟩ := Ty.mem_typedefNames.1 hmem
  have htarget : scope.Coherent target := h.part (List.mem_singleton_self target)
  have hnode : scope.Coherent (.typedef name inner) := htarget.node hinner
  have hout : scope.find? name = some (.typedef target.expr) := h.declares
  have hin : scope.find? name = some (.typedef inner.expr) := hnode.declares
  have hexpr : inner.expr = target.expr := by
    rw [hout, Option.some.injEq, Declaration.typedef.injEq] at hin
    exact hin.symm
  have heq := Coherent.eq_of_expr_eq (hnode.part (List.mem_singleton_self inner)) htarget hexpr
  have hlt : inner.height < (Ty.typedef name inner).height := Nat.lt_succ_self _
  have hle := Ty.height_node_le hinner
  rw [heq] at hlt hle
  omega

end Scope
end MachineLang
