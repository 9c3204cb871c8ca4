import MachineLang.Proofs.Resolver.History
import MachineLang.Proofs.Resolver.Outcome

set_option autoImplicit false

namespace MachineLang

/-- The name that the scope declares for the node, if it has one. -/
def Ty.declaredName? : Ty → Option String
  | enum decl => some decl.name
  | typedef name _ => some name
  | permission p => p.interface
  | foreign name => some name
  | _ => none

theorem Ty.expr_of_declaredName? {t : Ty} {name : String} (h : t.declaredName? = some name) :
    t.expr = .name name := by
  cases t with
  | enum | typedef | foreign =>
    cases h
    rfl
  | permission p =>
    obtain ⟨_ | _, events⟩ := p
    · cases h
    · cases h
      rfl
  | prim | seq | set | map | tuple | named => cases h

theorem Scope.Declares.find?_isSome {scope : Scope} {t : Ty} {name : String}
    (h : scope.Declares t) (hname : t.declaredName? = some name) :
    ∃ d, scope.find? name = some d := by
  rcases h.of_expr_eq_name (Ty.expr_of_declaredName? hname) with
    ⟨p, rfl, -⟩ | ⟨_, -, hfind⟩ | ⟨_, -, hfind⟩ | ⟨_, -, hfind⟩ | ⟨-, hfind⟩
  · cases hname
  all_goals exact ⟨_, hfind⟩

namespace Resolver

/-- Some call has been answered with the type, or with a typedef of the scope for it. -/
inductive Gives (s : Setup) : Ty → Prop
  | expr {calls : List Call} {e : TypeExpr} {t : Ty}
    (h : (((fresh s).after calls).resolve e).1 = .ok t) : Gives s t
  | typedef {calls : List Call} {typedefs : List (String × Ty)} {name : String} {t : Ty}
    (h : ((fresh s).after calls).resolveTypedefs.1 = .ok typedefs) (ht : (name, t) ∈ typedefs) :
    Gives s (.typedef name t)

theorem Gives.stands {s : Setup} {t : Ty} (h : Gives s t) : s.Stands t := by
  cases h with
  | expr h => exact (resolve_eq_ok_iff.1 h).stands
  | typedef h ht =>
    obtain ⟨hname, hanswer⟩ := resolveTypedefs_answers h ht
    exact hanswer.stands.typedef hname

theorem Gives.admits_target {s : Setup} {t : Ty} (h : Gives s t) {name : String} {target : Ty}
    (hnode : .typedef name target ∈ t.nodes) : s.admits target.height := by
  cases h with
  | expr h =>
    have hle : target.height + 1 ≤ t.height := Ty.height_node_le hnode
    exact Setup.admits_mono (by omega) (resolve_eq_ok_iff.1 h).admitted
  | typedef h ht =>
    have hle : target.height + 1 ≤ _ + 1 := Ty.height_node_le hnode
    exact Setup.admits_mono (by omega) (resolveTypedefs_answers h ht).2.admitted

/-- What a node of a type has to be for the scope and the settings of the resolver. -/
structure WellScoped (s : Setup) (u : Ty) : Prop where
  tuple : u ≠ .tuple []
  named : u ≠ .named []
  enum : ∀ decl, u = .enum decl → s.scope.find? decl.name = some (.enum decl.elements)
  foreign : ∀ name, u = .foreign name → s.scope.find? name = some .foreign
  typedef : ∀ name target, u = .typedef name target →
    ∃ e, s.scope.find? name = some (.typedef e) ∧
      ∀ calls, (((fresh s).after calls).resolve e).1 = .ok target
  interface : ∀ p name, u = .permission p → p.interface = some name →
    s.scope.find? name = some (.interface p.events)
  events : ∀ p, u = .permission p → s.settings.checkEvents →
    ∀ event ∈ p.events, s.scope.hasEvent event
  unreserved : ∀ name, u.declaredName? = some name → Primitive.ofKeyword? name = none

theorem wellScoped_of_stands {s : Setup} {u : Ty} (h : s.Stands u)
    (hadmitted : ∀ name target, u = .typedef name target → s.admits target.height) :
    WellScoped s u := by
  obtain ⟨hdeclares, hevents⟩ := h.fits
  constructor
  case tuple =>
    rintro rfl
    exact hdeclares rfl
  case named =>
    rintro rfl
    exact hdeclares rfl
  case enum =>
    rintro decl rfl
    exact hdeclares
  case foreign =>
    rintro name rfl
    exact hdeclares
  case typedef =>
    rintro name target rfl
    have hanswers : s.Answers 0 target.expr target :=
      ⟨rfl, h.part (List.mem_singleton_self target), by simpa using hadmitted name target rfl⟩
    exact ⟨target.expr, hdeclares, fun calls => resolve_eq_ok_iff.2 hanswers⟩
  case interface =>
    rintro p name rfl hname
    exact hdeclares name hname
  case events =>
    rintro p rfl
    exact Setup.undeclared?_eq_none.1 (hevents p rfl)
  case unreserved =>
    intro name hname
    obtain ⟨d, hfind⟩ := hdeclares.find?_isSome hname
    exact Scope.ofKeyword?_of_find? hfind

/-- Wherever it lies, a node of a resolved type is what the scope declares, and nodes of one name
    are equal, be they found in types from resolvers with different settings. -/
theorem resolved_coherent {scope : Scope} {settings settings' : Settings} {a b : Ty}
    (ha : Gives ⟨scope, settings⟩ a) (hb : Gives ⟨scope, settings'⟩ b) :
    (∀ u ∈ a.nodes, WellScoped ⟨scope, settings⟩ u) ∧
    ∀ u ∈ a.nodes, ∀ v ∈ b.nodes, ∀ name,
      u.declaredName? = some name → v.declaredName? = some name → u = v := by
  constructor
  · intro u hu
    refine wellScoped_of_stands (ha.stands.node hu) fun name target heq => ?_
    exact ha.admits_target (heq ▸ hu)
  · intro u hu v hv name hname hname'
    have hcoherent : scope.Coherent u := ha.stands.coherent.node hu
    have hcoherent' : scope.Coherent v := hb.stands.coherent.node hv
    exact hcoherent.eq_of_expr_eq hcoherent'
      ((Ty.expr_of_declaredName? hname).trans (Ty.expr_of_declaredName? hname').symm)

def shopScope : Scope where
  types := [
    ("Order", .typedef (.named [("buyer", .name "Client"), ("items", .seq (.name "Item"))])),
    ("Item", .typedef (.tuple [.name "Kind", .name "Stamp"])), ("Kind", .enum [⟨"BOOK", 0⟩]),
    ("Stamp", .foreign), ("Client", .interface ["eShipped"])]
  events := ["eShipped"]
  names_nodup := by decide
  names_free := by decide
  events_nodup := by decide

theorem resolved_coherent_shop :
    let s : Setup := ⟨shopScope, { limit := some 4, checkEvents := true }⟩
    let item := "Item"
    let pair : Ty := .tuple [.enum ⟨"Kind", [⟨"BOOK", 0⟩]⟩, .foreign "Stamp"]
    let client : Ty := .permission ⟨some "Client", ["eShipped"]⟩
    let a : Ty := .map client (.typedef item pair)
    let order := "Order"
    let b : Ty := .typedef order (.named [("buyer", client), ("items", .seq (.typedef item pair))])
    Gives s a ∧ Gives ⟨shopScope, ⟨none, false⟩⟩ b ∧
    (∃ e, s.scope.find? item = some (.typedef e) ∧ ((fresh s).resolve e).1 = .ok pair) ∧
    s.scope.hasEvent "eShipped" ∧ Primitive.ofKeyword? item = none ∧
    ∀ target, .typedef item target ∈ b.nodes → target = pair := by
  intro s item pair client a order b
  have ha : Gives s a :=
    @Gives.expr s [.resolve (.name "Order")] (.map (.name "Client") (.name "Item")) a (by rfl)
  have hb : Gives ⟨shopScope, ⟨none, false⟩⟩ b :=
    @Gives.typedef ⟨shopScope, ⟨none, false⟩⟩ [] [(order, _), (item, pair)] order _ (by rfl)
      List.mem_cons_self
  have hitem : .typedef item pair ∈ a.nodes := by decide
  have hclient : client ∈ a.nodes := by decide
  obtain ⟨hscoped, hsame⟩ := resolved_coherent ha hb
  obtain ⟨e, hfind, hresolve⟩ := (hscoped _ hitem).typedef item pair rfl
  refine ⟨ha, hb, ⟨e, hfind, hresolve []⟩, ?_, ?_, fun target htarget => ?_⟩
  · exact (hscoped _ hclient).events _ rfl rfl "eShipped" List.mem_cons_self
  · exact (hscoped _ hitem).unreserved item rfl
  · have heq := hsame _ hitem _ htarget item rfl rfl
    injection heq with _ h
    exact h.symm

end Resolver
end MachineLang
