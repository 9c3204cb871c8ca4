import MachineLang.Proofs.Resolver.History
import MachineLang.Proofs.Ty.Canonical

set_option autoImplicit false

namespace MachineLang

namespace TypeExpr

theorem text_tuple (es : List TypeExpr) : (tuple es).text = Ty.tupleText (es.map text) := by
  match es with
  | [] => rfl
  | [e] => rfl
  | e :: f :: rest =>
    rw [text, texts_eq_map, List.map_cons, List.map_cons, Ty.tupleText]
    · simp
    · simp

theorem text_named (fields : List (String × TypeExpr)) :
    (named fields).text =
      Ty.namedText (fields.map fun field => Ty.fieldText field.1 field.2.text) := by
  cases fields with
  | nil => rfl
  | cons field rest =>
    rw [text, fieldTexts_eq_map, List.map_cons, List.map_cons, Ty.namedText]
    · rfl
    · simp
    · simp

end TypeExpr

theorem Ty.text_expr (t : Ty) : t.expr.text = t.writtenText := by
  induction t using treeInduction with
  | prim | enum | foreign | typedef => rfl
  | seq element ih => exact congrArg seqText ih
  | set element ih => exact congrArg setText ih
  | map key value ihk ihv => exact congrArg₂ mapText ihk ihv
  | tuple elements ih =>
    rw [expr, exprs_eq_map, TypeExpr.text_tuple, List.map_map, writtenText, text, texts_eq_map]
    exact congrArg tupleText (List.map_congr_left ih)
  | named fields ih =>
    rw [expr, fieldExprs_eq_map, TypeExpr.text_named, List.map_map, writtenText, text,
      fieldTexts_eq_map]
    refine congrArg namedText (List.map_congr_left fun field hfield => ?_)
    exact congrArg (fieldText field.1) (ih field hfield)
  | permission p =>
    obtain ⟨_ | name, events⟩ := p
    · rfl
    · rfl

namespace Scope

/-- The first list has the events of the second in strictly increasing order. -/
def Orders (ordered events : List String) : Prop :=
  ordered.Pairwise (· < ·) ∧ ∀ event, event ∈ ordered ↔ event ∈ events

/-- The second expression is the first with every typedef replaced by its target, at any depth and
    in the targets too, and every permission by its events in order. -/
inductive Unfolds (scope : Scope) : TypeExpr → TypeExpr → Prop
  | typedef {name : String} {e e' : TypeExpr} (hname : scope.find? name = some (.typedef e))
    (he : Unfolds scope e e') : Unfolds scope (.name name) e'
  | interface {name : String} {receives events : List String}
    (hname : scope.find? name = some (.interface receives)) (h : Orders events receives) :
    Unfolds scope (.name name) (.anyOf events)
  | name {name : String} (htypedef : ∀ e, scope.find? name ≠ some (.typedef e))
    (hinterface : ∀ receives, scope.find? name ≠ some (.interface receives)) :
    Unfolds scope (.name name) (.name name)
  | anyOf {written events : List String} (h : Orders events written) :
    Unfolds scope (.anyOf written) (.anyOf events)
  | seq {e e' : TypeExpr} (he : Unfolds scope e e') : Unfolds scope (.seq e) (.seq e')
  | set {e e' : TypeExpr} (he : Unfolds scope e e') : Unfolds scope (.set e) (.set e')
  | map {k k' v v' : TypeExpr} (hk : Unfolds scope k k') (hv : Unfolds scope v v') :
    Unfolds scope (.map k v) (.map k' v')
  | tuple {es es' : List TypeExpr} (h : List.Forall₂ (Unfolds scope) es es') :
    Unfolds scope (.tuple es) (.tuple es')
  | named {fields fields' : List (String × TypeExpr)}
    (hnames : fields'.map Prod.fst = fields.map Prod.fst)
    (h : List.Forall₂ (Unfolds scope) (fields.map Prod.snd) (fields'.map Prod.snd)) :
    Unfolds scope (.named fields) (.named fields')

theorem orders_iff {p : Permission} {events : List String} :
    Orders events p.events ↔ events = p.eventSet := by
  constructor
  · rintro ⟨hsorted, hmem⟩
    refine hsorted.eq_of_mem_iff p.eventSet_pairwise fun event => ?_
    rw [hmem event, p.mem_eventSet]
  · rintro rfl
    exact ⟨p.eventSet_pairwise, p.mem_eventSet⟩

theorem forall₂_map_iff {α β γ : Type} {R : β → γ → Prop} {f : α → β} {g : α → γ} {as : List α}
    (h : ∀ a ∈ as, ∀ c, R (f a) c ↔ c = g a) {cs : List γ} :
    List.Forall₂ R (as.map f) cs ↔ cs = as.map g := by
  induction as generalizing cs with
  | nil => exact List.forall₂_nil_left_iff
  | cons a as ih =>
    obtain ⟨ha, has⟩ := List.forall_mem_cons.1 h
    rw [List.map_cons, List.forall₂_cons_left_iff, List.map_cons]
    constructor
    · rintro ⟨c, cs', hc, hcs, rfl⟩
      rw [(ha c).1 hc, (ih has).1 hcs]
    · rintro rfl
      exact ⟨_, _, (ha _).2 rfl, (ih has).2 rfl, rfl⟩

section Unfolds
variable {scope : Scope} {name : String} {e' : TypeExpr}

theorem unfolds_name_iff (htypedef : ∀ e, scope.find? name ≠ some (.typedef e))
    (hinterface : ∀ receives, scope.find? name ≠ some (.interface receives)) :
    scope.Unfolds (.name name) e' ↔ e' = .name name := by
  constructor
  · intro h
    cases h with
    | typedef hname => exact absurd hname (htypedef _)
    | interface hname => exact absurd hname (hinterface _)
    | name => rfl
  · rintro rfl
    exact .name htypedef hinterface

theorem unfolds_typedef_iff {e : TypeExpr} (hname : scope.find? name = some (.typedef e)) :
    scope.Unfolds (.name name) e' ↔ scope.Unfolds e e' := by
  constructor
  · intro h
    cases h with
    | typedef hname' he =>
      rw [hname, Option.some.injEq, Declaration.typedef.injEq] at hname'
      exact hname' ▸ he
    | interface hname' =>
      rw [hname] at hname'
      cases hname'
    | name htypedef => exact absurd hname (htypedef e)
  · exact .typedef hname

theorem unfolds_interface_iff {receives : List String}
    (hname : scope.find? name = some (.interface receives)) :
    scope.Unfolds (.name name) e' ↔ ∃ events, Orders events receives ∧ e' = .anyOf events := by
  constructor
  · intro h
    cases h with
    | typedef hname' =>
      rw [hname] at hname'
      cases hname'
    | interface hname' h =>
      rw [hname, Option.some.injEq, Declaration.interface.injEq] at hname'
      exact ⟨_, hname' ▸ h, rfl⟩
    | name _ hinterface => exact absurd hname (hinterface receives)
  · rintro ⟨events, h, rfl⟩
    exact .interface hname h

theorem unfolds_anyOf_iff {written : List String} :
    scope.Unfolds (.anyOf written) e' ↔ ∃ events, Orders events written ∧ e' = .anyOf events := by
  constructor
  · intro h
    cases h with
    | anyOf h => exact ⟨_, h, rfl⟩
  · rintro ⟨events, h, rfl⟩
    exact .anyOf h

theorem unfolds_seq_iff {e : TypeExpr} :
    scope.Unfolds (.seq e) e' ↔ ∃ f, scope.Unfolds e f ∧ e' = .seq f := by
  constructor
  · intro h
    cases h with
    | seq he => exact ⟨_, he, rfl⟩
  · rintro ⟨f, he, rfl⟩
    exact .seq he

theorem unfolds_set_iff {e : TypeExpr} :
    scope.Unfolds (.set e) e' ↔ ∃ f, scope.Unfolds e f ∧ e' = .set f := by
  constructor
  · intro h
    cases h with
    | set he => exact ⟨_, he, rfl⟩
  · rintro ⟨f, he, rfl⟩
    exact .set he

theorem unfolds_map_iff {k v : TypeExpr} :
    scope.Unfolds (.map k v) e' ↔
      ∃ l, scope.Unfolds k l ∧ ∃ w, scope.Unfolds v w ∧ e' = .map l w := by
  constructor
  · intro h
    cases h with
    | map hk hv => exact ⟨_, hk, _, hv, rfl⟩
  · rintro ⟨l, hk, w, hv, rfl⟩
    exact .map hk hv

theorem unfolds_tuple_iff {es : List TypeExpr} :
    scope.Unfolds (.tuple es) e' ↔ ∃ fs, List.Forall₂ scope.Unfolds es fs ∧ e' = .tuple fs := by
  constructor
  · intro h
    cases h with
    | tuple hes => exact ⟨_, hes, rfl⟩
  · rintro ⟨fs, hes, rfl⟩
    exact .tuple hes

theorem unfolds_named_iff {fields : List (String × TypeExpr)} :
    scope.Unfolds (.named fields) e' ↔
      ∃ fs, List.Forall₂ scope.Unfolds (fields.map Prod.snd) fs ∧
        e' = .named ((fields.map Prod.fst).zip fs) := by
  constructor
  · intro h
    cases h with
    | named hnames hes =>
      refine ⟨_, hes, congrArg TypeExpr.named ?_⟩
      rw [← hnames]
      exact List.zip_of_prod rfl rfl
  · rintro ⟨fs, hes, rfl⟩
    have hlength : fields.length = fs.length := by simpa using hes.length_eq
    refine .named (List.map_fst_zip (by simp [hlength])) ?_
    rwa [List.map_snd_zip (by simp [hlength])]

end Unfolds

/-- What the expression of a type unfolds to is the expression of its canonical tree. -/
theorem Coherent.unfolds_iff {scope : Scope} {t : Ty} (h : scope.Coherent t) (e' : TypeExpr) :
    scope.Unfolds t.expr e' ↔ e' = t.canonicalize.expr := by
  induction t using Ty.treeInduction generalizing e' with
  | prim p =>
    have hnone := scope.find?_keyword p
    exact unfolds_name_iff (by simp [hnone]) (by simp [hnone])
  | enum decl =>
    have hfind : scope.find? decl.name = some (.enum decl.elements) := h.declares
    exact unfolds_name_iff (by simp [hfind]) (by simp [hfind])
  | foreign name =>
    have hfind : scope.find? name = some .foreign := h.declares
    exact unfolds_name_iff (by simp [hfind]) (by simp [hfind])
  | typedef name target ih =>
    rw [Ty.expr, unfolds_typedef_iff h.declares]
    exact ih (h.part (List.mem_singleton_self target)) e'
  | permission p =>
    have hevents : scope.Unfolds (Ty.permission p).expr e' ↔
        ∃ events, Orders events p.events ∧ e' = .anyOf events := by
      obtain ⟨_ | name, events⟩ := p
      · exact unfolds_anyOf_iff
      · exact unfolds_interface_iff (h.declares name rfl)
    simp only [hevents, orders_iff, exists_eq_left]
    rfl
  | seq element ih =>
    have hpart := ih (h.part (List.mem_singleton_self element))
    simp only [Ty.expr, unfolds_seq_iff, hpart, exists_eq_left, Ty.canonicalize]
  | set element ih =>
    have hpart := ih (h.part (List.mem_singleton_self element))
    simp only [Ty.expr, unfolds_set_iff, hpart, exists_eq_left, Ty.canonicalize]
  | map key value ihk ihv =>
    have hkey := ihk (h.part (by simp [Ty.parts]))
    have hvalue := ihv (h.part (by simp [Ty.parts]))
    simp only [Ty.expr, unfolds_map_iff, hkey, hvalue, exists_eq_left, Ty.canonicalize]
  | tuple elements ih =>
    have hall : ∀ fs, List.Forall₂ scope.Unfolds (elements.map Ty.expr) fs ↔
        fs = elements.map fun u => u.canonicalize.expr :=
      fun fs => forall₂_map_iff fun u hu => ih u hu (h.part hu)
    rw [Ty.expr, Ty.exprs_eq_map, unfolds_tuple_iff]
    simp only [hall, exists_eq_left, Ty.canonicalize, Ty.canonicalizeAll_eq_map, Ty.expr,
      Ty.exprs_eq_map, List.map_map]
    rfl
  | named fields ih =>
    have hall : ∀ fs, List.Forall₂ scope.Unfolds (fields.map fun field => field.2.expr) fs ↔
        fs = fields.map fun field => field.2.canonicalize.expr :=
      fun fs => forall₂_map_iff fun field hfield =>
        ih field hfield (h.part (List.mem_map_of_mem hfield))
    rw [Ty.expr, Ty.fieldExprs_eq_map, unfolds_named_iff, List.map_map, List.map_map]
    refine (exists_congr fun fs => and_congr_left' (hall fs)).trans ?_
    rw [exists_eq_left]
    simp only [List.zip_map', Ty.canonicalize, Ty.canonicalizeFields_eq_map, Ty.expr,
      Ty.fieldExprs_eq_map, List.map_map]
    rfl

end Scope

namespace Resolver

/-- A resolved type is written as its expression, and its canonical text is that of the one
    expression which is left when the names of typedefs and interfaces have been unfolded. -/
theorem resolve_spelling {s : Setup} {calls : List Call} {e : TypeExpr} {t : Ty}
    (h : (((fresh s).after calls).resolve e).1 = .ok t) :
    t.writtenText = e.text ∧
    ∃ e', (∀ f, s.scope.Unfolds e f ↔ f = e') ∧ t.canonicalText = e'.text := by
  obtain ⟨rfl, hstands, -⟩ := resolve_eq_ok_iff.1 h
  refine ⟨t.text_expr.symm, t.canonicalize.expr, hstands.coherent.unfolds_iff, ?_⟩
  rw [Ty.text_expr]
  exact (Ty.text_canonicalize .written t).symm

def gameScope : Scope where
  types := [("Game", .typedef (.named [("rows", .seq (.name "Row")), ("player", .name "Player")])),
    ("Row", .typedef (.tuple [.name "Cell"])), ("Cell", .enum [⟨"FREE", 0⟩]), ("Clock", .foreign),
    ("Player", .interface ["eMove", "eDone", "eMove"])]
  events := ["eMove", "eDone", "eTick"]
  names_nodup := by decide
  names_free := by decide
  events_nodup := by decide

theorem resolve_spelling_game :
    let s : Setup := ⟨gameScope, { limit := some 8, checkEvents := true }⟩
    let e : TypeExpr :=
      .map (.name "Clock") (.tuple [.name "Game", .anyOf ["eTick", "eDone", "eTick"]])
    let calls : List Call := [.resolve (.set e), .resolveTypedefs]
    let row := "Row"
    let rows : Ty := .seq (.typedef row (.tuple [.enum ⟨"Cell", [⟨"FREE", 0⟩]⟩]))
    let player : Ty := .permission ⟨some "Player", ["eMove", "eDone", "eMove"]⟩
    let game := "Game"
    let t : Ty := .map (.foreign "Clock") (.tuple [
      .typedef game (.named [("rows", rows), ("player", player)]),
      .permission ⟨none, ["eTick", "eDone", "eTick"]⟩])
    ((fresh s).resolve (.set e)).1 = .error .limitExceeded ∧
    (((fresh s).after calls).resolve e).1 = .ok t ∧
    t.writtenText = e.text ∧ e.text = "map[Clock, (Game, any<eTick, eDone, eTick>)]" ∧
    ∃ e', s.scope.Unfolds e e' ∧ t.canonicalText = e'.text ∧ e'.text =
      "map[Clock, ((rows: seq[(Cell,)], player: any<eDone, eMove>), any<eDone, eTick>)]" := by
  intro s e calls row rows player game t
  have ht : (((fresh s).after calls).resolve e).1 = .ok t := by
    rw [resolve_after]
    rfl
  obtain ⟨hwritten, e', hunfolds, htext⟩ := resolve_spelling ht
  have hcanonical : t.canonicalText =
      "map[Clock, ((rows: seq[(Cell,)], player: any<eDone, eMove>), any<eDone, eTick>)]" := by decide
  exact ⟨by rfl, ht, hwritten, by decide, e', (hunfolds e').2 rfl, htext, htext ▸ hcanonical⟩

end Resolver
end MachineLang
