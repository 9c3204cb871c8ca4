import MachineLang.Proofs.Resolver.History
import MachineLang.Proofs.Ty.Preorder
import MachineLang.Proofs.Ty.TableRun

set_option autoImplicit false

namespace MachineLang

namespace Scope

/-- One occurrence of the name of a typedef has given way to the declared target. -/
inductive Replaces (scope : Scope) : TypeExpr → TypeExpr → Prop
  | typedef {name : String} {e : TypeExpr} (h : scope.find? name = some (.typedef e)) :
    Replaces scope (.name name) e
  | seq {e e' : TypeExpr} (h : Replaces scope e e') : Replaces scope (.seq e) (.seq e')
  | set {e e' : TypeExpr} (h : Replaces scope e e') : Replaces scope (.set e) (.set e')
  | key {k k' : TypeExpr} (v : TypeExpr) (h : Replaces scope k k') :
    Replaces scope (.map k v) (.map k' v)
  | value (k : TypeExpr) {v v' : TypeExpr} (h : Replaces scope v v') :
    Replaces scope (.map k v) (.map k v')
  | member {e e' : TypeExpr} (before after : List TypeExpr) (h : Replaces scope e e') :
    Replaces scope (.tuple (before ++ e :: after)) (.tuple (before ++ e' :: after))
  | field {e e' : TypeExpr} (name : String) (before after : List (String × TypeExpr))
    (h : Replaces scope e e') :
    Replaces scope (.named (before ++ (name, e) :: after)) (.named (before ++ (name, e') :: after))

/-- Any number of occurrences have given way, among them some that came with a target. -/
abbrev Inlines (scope : Scope) : TypeExpr → TypeExpr → Prop := Relation.ReflTransGen scope.Replaces

end Scope

namespace Resolver.Setup
variable {s : Setup}

/-- The second type stands like the first one, is no higher and has the same canonical tree. -/
structure Flattens (s : Setup) (t t' : Ty) : Prop where
  stands : s.Stands t'
  height_le : t'.height ≤ t.height
  canonicalize_eq : t'.canonicalize = t.canonicalize

theorem heightAll_replace_le {us vs : List Ty} {u u' : Ty} (h : u'.height ≤ u.height) :
    Ty.heightAll (us ++ u' :: vs) ≤ Ty.heightAll (us ++ u :: vs) := by
  induction us with
  | nil => exact max_le_max_right (Ty.heightAll vs) h
  | cons v us ih => exact max_le_max_left v.height ih

theorem Flattens.of_part {t t' u u' : Ty} (us vs : List Ty) (hu : s.Flattens u u')
    (ht : s.Stands t) (hparts : t.parts = us ++ u :: vs) (hparts' : t'.parts = us ++ u' :: vs)
    (hfits : s.Fits t') (hcanonical : t'.canonicalize = t.canonicalize) : s.Flattens t t' where
  stands := by
    refine stands_iff.2 ⟨hfits, fun v hv => ?_⟩
    rw [hparts', List.mem_append, List.mem_cons] at hv
    rcases hv with hv | rfl | hv
    · exact ht.part (by simp [hparts, hv])
    · exact hu.stands
    · exact ht.part (by simp [hparts, hv])
  height_le := by
    rw [Ty.height_eq, Ty.height_eq, hparts, hparts']
    exact Nat.succ_le_succ (heightAll_replace_le hu.height_le)
  canonicalize_eq := hcanonical

theorem flattens_typedef {name : String} {t : Ty} (h : s.Stands (.typedef name t)) :
    s.Flattens (.typedef name t) t where
  stands := h.part (List.mem_singleton_self t)
  height_le := Nat.le_succ t.height
  canonicalize_eq := rfl

/-- One replacement in the expression of a type gives the expression of another, flatter one. -/
theorem Stands.replace {t : Ty} {e e' : TypeExpr} (ht : s.Stands t) (he : t.expr = e)
    (h : s.scope.Replaces e e') : ∃ t', t'.expr = e' ∧ s.Flattens t t' := by
  induction h generalizing t with
  | typedef hname =>
    obtain ⟨target, rfl, htarget⟩ := ht.coherent.declares.eq_typedef he hname
    exact ⟨target, htarget, flattens_typedef ht⟩
  | seq _ ih =>
    obtain ⟨u, rfl, hu⟩ := Ty.expr_eq_seq he
    obtain ⟨u', rfl, hflat⟩ := ih (ht.part (List.mem_singleton_self u)) hu
    refine ⟨.seq u', rfl, hflat.of_part [] [] ht rfl rfl ?_ ?_⟩
    · exact fits_of_declares trivial (by simp)
    · exact congrArg Ty.seq hflat.canonicalize_eq
  | set _ ih =>
    obtain ⟨u, rfl, hu⟩ := Ty.expr_eq_set he
    obtain ⟨u', rfl, hflat⟩ := ih (ht.part (List.mem_singleton_self u)) hu
    refine ⟨.set u', rfl, hflat.of_part [] [] ht rfl rfl ?_ ?_⟩
    · exact fits_of_declares trivial (by simp)
    · exact congrArg Ty.set hflat.canonicalize_eq
  | key v _ ih =>
    obtain ⟨k, w, rfl, hk, rfl⟩ := Ty.expr_eq_map he
    obtain ⟨k', rfl, hflat⟩ := ih (ht.part List.mem_cons_self) hk
    refine ⟨.map k' w, rfl, hflat.of_part [] [w] ht rfl rfl ?_ ?_⟩
    · exact fits_of_declares trivial (by simp)
    · rw [Ty.canonicalize, hflat.canonicalize_eq, Ty.canonicalize]
  | value k _ ih =>
    obtain ⟨l, v, rfl, rfl, hv⟩ := Ty.expr_eq_map he
    obtain ⟨v', rfl, hflat⟩ := ih (ht.part (List.mem_cons_of_mem l (List.mem_singleton_self v))) hv
    refine ⟨.map l v', rfl, hflat.of_part [l] [] ht rfl rfl ?_ ?_⟩
    · exact fits_of_declares trivial (by simp)
    · rw [Ty.canonicalize, hflat.canonicalize_eq, Ty.canonicalize]
  | member before after _ ih =>
    obtain ⟨elements, rfl, helements⟩ := Ty.expr_eq_tuple he
    obtain ⟨us, rest, rfl, rfl, hrest⟩ := List.map_eq_append_iff.1 helements
    obtain ⟨u, vs, rfl, hu, rfl⟩ := List.map_eq_cons_iff.1 hrest
    obtain ⟨u', rfl, hflat⟩ := ih (ht.part (by simp [Ty.parts])) hu
    refine ⟨.tuple (us ++ u' :: vs), ?_, hflat.of_part us vs ht rfl rfl ?_ ?_⟩
    · rw [Ty.expr, Ty.exprs_eq_map, List.map_append, List.map_cons]
    · exact fits_of_declares (List.append_ne_nil_of_right_ne_nil us (List.cons_ne_nil u' vs))
        (by simp)
    · simp [Ty.canonicalize, Ty.canonicalizeAll_eq_map, hflat.canonicalize_eq]
  | field name before after _ ih =>
    obtain ⟨fields, rfl, hfields⟩ := Ty.expr_eq_named he
    obtain ⟨us, rest, rfl, rfl, hrest⟩ := List.map_eq_append_iff.1 hfields
    obtain ⟨⟨n, u⟩, vs, rfl, hu, rfl⟩ := List.map_eq_cons_iff.1 hrest
    obtain ⟨rfl, hu⟩ := Prod.ext_iff.1 hu
    obtain ⟨u', rfl, hflat⟩ := ih (ht.part (by simp [Ty.parts])) hu
    refine ⟨.named (us ++ (n, u') :: vs), ?_,
      hflat.of_part (us.map Prod.snd) (vs.map Prod.snd) ht ?_ ?_ ?_ ?_⟩
    · rw [Ty.expr, Ty.fieldExprs_eq_map, List.map_append, List.map_cons]
    · simp [Ty.parts]
    · simp [Ty.parts]
    · exact fits_of_declares (List.append_ne_nil_of_right_ne_nil us (List.cons_ne_nil _ vs))
        (by simp)
    · simp [Ty.canonicalize, Ty.canonicalizeFields_eq_map, hflat.canonicalize_eq]

theorem Flattens.trans {t u v : Ty} (htu : s.Flattens t u) (huv : s.Flattens u v) :
    s.Flattens t v where
  stands := huv.stands
  height_le := Nat.le_trans huv.height_le htu.height_le
  canonicalize_eq := huv.canonicalize_eq.trans htu.canonicalize_eq

theorem Stands.inline {t : Ty} {e' : TypeExpr} (ht : s.Stands t)
    (h : s.scope.Inlines t.expr e') : ∃ t', t'.expr = e' ∧ s.Flattens t t' := by
  induction h with
  | refl => exact ⟨t, rfl, ht, Nat.le_refl _, rfl⟩
  | tail _ hstep ih =>
    obtain ⟨u, hu, hflat⟩ := ih
    obtain ⟨t', ht', hflat'⟩ := hflat.stands.replace hu hstep
    exact ⟨t', ht', hflat.trans hflat'⟩

theorem Answers.inline {above : Nat} {e e' : TypeExpr} {t : Ty} (h : s.Answers above e t)
    (hinlines : s.scope.Inlines e e') :
    ∃ t', s.Answers above e' t' ∧ t.canonicalize = t'.canonicalize := by
  obtain ⟨rfl, hstands, hadmitted⟩ := h
  obtain ⟨t', hexpr, hflat⟩ := hstands.inline hinlines
  have hle : above + t'.height ≤ above + t.height := Nat.add_le_add_left hflat.height_le above
  exact ⟨t', ⟨hexpr, hflat.stands, admits_mono hle hadmitted⟩, hflat.canonicalize_eq.symm⟩

end Resolver.Setup

namespace Resolver

/-- An expression in which targets stand in place of typedef names resolves if the expression with
    the names does, and to a type that nothing tells apart from the one before: each accepts the
    other, and a table has one id for both. -/
theorem resolve_inlined {s : Setup} {calls : List Call} {e e' : TypeExpr} {t : Ty}
    (h : (((fresh s).after calls).resolve e).1 = .ok t) (hinlines : s.scope.Inlines e e') :
    ∃ t', (∀ later, (((fresh s).after later).resolve e').1 = .ok t') ∧
      t.canonicalize = t'.canonicalize ∧ t.accepts t' ∧ t'.accepts t ∧
      ∀ (interned : List TypeTable.Call) (i j : Nat), interned[i]? = some (.intern t) →
        interned[j]? = some (.intern t') →
        ∃ id, (TypeTable.builtin.answers interned)[i]? = some (some id) ∧
          (TypeTable.builtin.answers interned)[j]? = some (some id) := by
  obtain ⟨t', hanswers, hcanonical⟩ := (resolve_eq_ok_iff.1 h).inline hinlines
  refine ⟨t', fun later => resolve_eq_ok_iff.2 hanswers, hcanonical,
    Ty.accepts_of_canonicalize_eq hcanonical, Ty.accepts_of_canonicalize_eq hcanonical.symm,
    fun interned i j hi hj => TypeTable.answers_agree hi hj ?_⟩
  rw [← t.canonicalText_canonicalize, hcanonical, t'.canonicalText_canonicalize]

def messageScope : Scope where
  types := [("Message", .typedef (.named [("body", .name "Row"), ("copy", .name "Rows")])),
    ("Rows", .typedef (.tuple [.name "Row", .name "Row"])), ("Row", .typedef (.seq (.name "Cell"))),
    ("Cell", .typedef (.anyOf ["eRead", "eDone"]))]
  events := ["eRead", "eDone"]
  names_nodup := by decide
  names_free := by decide
  events_nodup := by decide

theorem resolve_inlined_message :
    let s : Setup := ⟨messageScope, { limit := some 9 }⟩
    let e : TypeExpr := .set (.name "Message")
    let e' : TypeExpr := .set (.named [("body", .name "Row"),
      ("copy", .tuple [.seq (.name "Cell"), .name "Row"])])
    s.scope.Inlines e e' ∧
    ∃ t t', ((fresh s).resolve e).1 = .ok t ∧ ((fresh s).resolve e').1 = .ok t' ∧
      t.canonicalize = t'.canonicalize ∧ t.accepts t' ∧
      ∃ id, (TypeTable.builtin.answers [.intern t, .intern t'])[0]? = some (some id) ∧
        (TypeTable.builtin.answers [.intern t, .intern t'])[1]? = some (some id) := by
  intro s e e'
  have hmessage : s.scope.Replaces (.name "Message")
      (.named [("body", .name "Row"), ("copy", .name "Rows")]) := .typedef rfl
  have hrows : s.scope.Replaces (.name "Rows") (.tuple [.name "Row", .name "Row"]) := .typedef rfl
  have hrow : s.scope.Replaces (.name "Row") (.seq (.name "Cell")) := .typedef rfl
  have hinlines : s.scope.Inlines e e' :=
    .head (.set hmessage) (.head (.set (.field "copy" [_] [] hrows))
      (.single (.set (.field "copy" [_] [] (.member [] [_] hrow)))))
  obtain ⟨t, ht⟩ : ∃ t, ((fresh s).resolve e).1 = .ok t := ⟨_, rfl⟩
  obtain ⟨t', ht', hcanonical, haccepts, -, hids⟩ := @resolve_inlined s [] e e' t ht hinlines
  exact ⟨hinlines, t, t', ht, ht' [], hcanonical, haccepts, hids _ 0 1 rfl rfl⟩

end Resolver
end MachineLang
