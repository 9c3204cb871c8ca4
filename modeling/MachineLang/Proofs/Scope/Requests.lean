import MachineLang.Proofs.Resolver.WellScoped

set_option autoImplicit false

namespace MachineLang

namespace Scope

/-- What a scope can be asked to declare: a type name, of any of the four kinds, or an event. -/
inductive Request where
  | type (name : String) (declaration : Declaration)
  | event (name : String)

def Request.type? : Request → Option (String × Declaration)
  | type name declaration => some (name, declaration)
  | event _ => none

def Request.event? : Request → Option String
  | type _ _ => none
  | event name => some name

def grant (scope : Scope) : Request → Except DeclarationError Scope
  | .type name declaration => scope.declare name declaration
  | .event name => scope.declareEvent name

def request (scope : Scope) (r : Request) : Except DeclarationError Unit × Scope :=
  match scope.grant r with
  | .ok next => (.ok (), next)
  | .error e => (.error e, scope)

def after (scope : Scope) (requests : List Request) : Scope :=
  requests.foldl (fun scope r => (scope.request r).2) scope

/-- The requests that succeed when all are made one after the other. -/
def accepted (scope : Scope) : List Request → List Request
  | [] => []
  | r :: requests =>
    match scope.request r with
    | (.ok _, next) => r :: next.accepted requests
    | (.error _, next) => next.accepted requests

theorem ofKeyword?_eq_none_iff {name : String} :
    Primitive.ofKeyword? name = none ↔ ∀ p : Primitive, p.keyword ≠ name := by
  constructor
  · rintro h p rfl
    rw [Primitive.ofKeyword?_keyword] at h
    cases h
  · intro h
    cases hp : Primitive.ofKeyword? name with
    | none => rfl
    | some p => exact absurd (Primitive.keyword_of_ofKeyword? hp) (h p)

section Step
variable {scope : Scope} {name : String} {declaration : Declaration}

theorem request_reserved {p : Primitive} (h : p.keyword = name) :
    scope.request (.type name declaration) = (.error (.reserved name), scope) := by
  subst h
  simp [request, grant, declare, Primitive.ofKeyword?_keyword]

theorem request_duplicate (hfree : Primitive.ofKeyword? name = none) (h : scope.contains name) :
    scope.request (.type name declaration) = (.error (.duplicate name), scope) := by
  simp [request, grant, declare, hfree, h]

theorem request_new (hfree : Primitive.ofKeyword? name = none) (h : ¬ scope.contains name)
    (declaration : Declaration) :
    (scope.request (.type name declaration)).1 = .ok () ∧
    (scope.request (.type name declaration)).2.types = scope.types ++ [(name, declaration)] ∧
    (scope.request (.type name declaration)).2.events = scope.events := by
  simp [request, grant, declare, hfree, h]

theorem request_event_duplicate (h : scope.hasEvent name) :
    scope.request (.event name) = (.error (.duplicate name), scope) := by
  simp [request, grant, declareEvent, h]

theorem request_event_new (h : ¬ scope.hasEvent name) :
    (scope.request (.event name)).1 = .ok () ∧
    (scope.request (.event name)).2.types = scope.types ∧
    (scope.request (.event name)).2.events = scope.events ++ [name] := by
  simp [request, grant, declareEvent, h]

theorem request_type_answers (scope : Scope) (name : String) (declaration : Declaration) :
    ((scope.request (.type name declaration)).1 = .error (.reserved name) ↔
      ∃ p : Primitive, p.keyword = name) ∧
    ((scope.request (.type name declaration)).1 = .error (.duplicate name) ↔
      (∀ p : Primitive, p.keyword ≠ name) ∧ scope.contains name) ∧
    ((scope.request (.type name declaration)).1 = .ok () ↔
      (∀ p : Primitive, p.keyword ≠ name) ∧ ¬ scope.contains name) := by
  by_cases hkeyword : ∃ p : Primitive, p.keyword = name
  · obtain ⟨p, hp⟩ := hkeyword
    rw [request_reserved hp]
    simp [← hp]
  · have hne := not_exists.1 hkeyword
    have hfree := ofKeyword?_eq_none_iff.2 hne
    by_cases hold : scope.contains name
    · rw [request_duplicate hfree hold]
      simp [hne, hold]
    · rw [(request_new hfree hold declaration).1]
      simp [hne, hold]

theorem request_event_answers (scope : Scope) (name : String) :
    ((scope.request (.event name)).1 = .error (.duplicate name) ↔ scope.hasEvent name) ∧
    ((scope.request (.event name)).1 = .ok () ↔ ¬ scope.hasEvent name) := by
  by_cases hold : scope.hasEvent name
  · rw [request_event_duplicate hold]
    simp [hold]
  · rw [(request_event_new hold).1]
    simp [hold]

/-- A request is refused without a trace, or what it declares comes last. -/
theorem request_cases (scope : Scope) (r : Request) :
    (∃ e, scope.request r = (.error e, scope)) ∨
    (scope.request r).1 = .ok () ∧
      (scope.request r).2.types = scope.types ++ r.type?.toList ∧
      (scope.request r).2.events = scope.events ++ r.event?.toList := by
  cases r with
  | type name declaration =>
    by_cases hfree : Primitive.ofKeyword? name = none
    · by_cases hold : scope.contains name
      · exact .inl ⟨_, request_duplicate hfree hold⟩
      · obtain ⟨hok, htypes, hevents⟩ := request_new hfree hold declaration
        exact .inr ⟨hok, htypes, by simpa [Request.event?] using hevents⟩
    · obtain ⟨p, hp⟩ := Option.ne_none_iff_exists'.1 hfree
      exact .inl ⟨_, request_reserved (Primitive.keyword_of_ofKeyword? hp)⟩
  | event name =>
    by_cases hold : scope.hasEvent name
    · exact .inl ⟨_, request_event_duplicate hold⟩
    · obtain ⟨hok, htypes, hevents⟩ := request_event_new hold
      exact .inr ⟨hok, by simpa [Request.type?] using htypes, hevents⟩

theorem find?_request (hfree : Primitive.ofKeyword? name = none) (r : Request) :
    (scope.request r).2.find? name =
      (scope.find? name).or (r.type?.toList.lookup name) := by
  rcases scope.request_cases r with ⟨e, hrefused⟩ | ⟨-, htypes, -⟩
  · rw [hrefused]
    cases r with
    | event other => simp [Request.type?]
    | type other declaration =>
      by_cases heq : name = other
      · subst heq
        have hold : scope.contains name := by
          by_contra hnew
          have hok := (request_new hfree hnew declaration).1
          rw [hrefused] at hok
          cases hok
        obtain ⟨d, hd⟩ := (scope.contains_iff name).1 hold
        rw [hd]
        rfl
      · simp [Request.type?, List.lookup_cons, List.lookup_nil, beq_eq_false_iff_ne.2 heq]
  · rw [find?, htypes, List.lookup_append]
    rfl

end Step

section Run
variable {scope : Scope} {r : Request}

theorem accepted_of_refused {e : DeclarationError} (h : scope.request r = (.error e, scope))
    (requests : List Request) : scope.accepted (r :: requests) = scope.accepted requests := by
  rw [accepted, h]

theorem accepted_of_ok (h : (scope.request r).1 = .ok ()) (requests : List Request) :
    scope.accepted (r :: requests) = r :: (scope.request r).2.accepted requests := by
  have hpair : scope.request r = (.ok (), (scope.request r).2) := by rw [← h]
  rw [accepted, hpair]

theorem after_accepted (scope : Scope) (requests : List Request) :
    (scope.after requests).types =
      scope.types ++ (scope.accepted requests).filterMap Request.type? ∧
    (scope.after requests).events =
      scope.events ++ (scope.accepted requests).filterMap Request.event? := by
  induction requests generalizing scope with
  | nil => simp [after, accepted]
  | cons r requests ih =>
    change ((scope.request r).2.after requests).types = _ ∧
      ((scope.request r).2.after requests).events = _
    rcases scope.request_cases r with ⟨e, hrefused⟩ | ⟨hok, htypes, hevents⟩
    · rw [accepted_of_refused hrefused, hrefused]
      exact ih scope
    · obtain ⟨ihtypes, ihevents⟩ := ih (scope.request r).2
      rw [ihtypes, ihevents, accepted_of_ok hok, htypes, hevents, List.append_assoc,
        List.append_assoc]
      cases r <;> exact ⟨rfl, rfl⟩

theorem find?_after {name : String} (hfree : Primitive.ofKeyword? name = none) (scope : Scope)
    (requests : List Request) :
    (scope.after requests).find? name =
      (scope.find? name).or ((requests.filterMap Request.type?).lookup name) := by
  induction requests generalizing scope with
  | nil => simp [after]
  | cons r requests ih =>
    change ((scope.request r).2.after requests).find? name = _
    rw [ih, find?_request hfree, Option.or_assoc, ← List.lookup_append]
    cases r <;> rfl

theorem hasEvent_after {name : String} (scope : Scope) (requests : List Request) :
    (scope.after requests).hasEvent name ↔ scope.hasEvent name ∨ .event name ∈ requests := by
  induction requests generalizing scope with
  | nil => simp [after]
  | cons r requests ih =>
    have hstep : (scope.request r).2.hasEvent name ↔ scope.hasEvent name ∨ .event name = r := by
      rcases scope.request_cases r with ⟨e, hrefused⟩ | ⟨-, -, hevents⟩
      · rw [hrefused]
        refine (or_iff_left_of_imp fun heq => ?_).symm
        by_contra hnew
        have hok := (request_event_new hnew).1
        rw [heq, hrefused] at hok
        cases hok
      · rw [hasEvent, hevents]
        cases r <;> simp [hasEvent, Request.event?]
    change ((scope.request r).2.after requests).hasEvent name ↔ _
    rw [ih, hstep, List.mem_cons, or_assoc]

theorem contains_after {name : String} (requests : List Request) :
    (empty.after requests).contains name ↔ ∃ d, .type name d ∈ empty.accepted requests := by
  have htypes : (empty.after requests).types =
      (empty.accepted requests).filterMap Request.type? := (empty.after_accepted requests).1
  rw [contains, htypes, List.contains_iff_mem]
  constructor
  · intro h
    obtain ⟨⟨_, d⟩, hmem, rfl⟩ := List.mem_map.1 h
    obtain ⟨r, hr, heq⟩ := List.mem_filterMap.1 hmem
    cases r <;> cases heq
    exact ⟨d, hr⟩
  · rintro ⟨d, h⟩
    exact List.mem_map.2 ⟨(name, d), List.mem_filterMap.2 ⟨_, h, rfl⟩, rfl⟩

end Run
end Scope

def Declaration.Describes : Declaration → Ty → Prop
  | typedef e, .typedef _ target => target.expr = e
  | enum elements, .enum decl => decl.elements = elements
  | interface receives, .permission p => p.events = receives
  | foreign, .foreign _ => True
  | _, _ => False

theorem Scope.Declares.described {scope : Scope} {u : Ty} {name : String} (h : scope.Declares u)
    (hname : u.declaredName? = some name) : ∃ d, scope.find? name = some d ∧ d.Describes u := by
  cases u with
  | enum decl | typedef _ target | foreign _ =>
    cases hname
    exact ⟨_, h, by trivial⟩
  | permission p => exact ⟨_, h name hname, rfl⟩
  | prim | seq | set | map | tuple | named => cases hname

open Resolver in
/-- After any requests, which may have failed, a further one fails exactly as its name demands and
    then changes nothing. The scope holds what was accepted, in order, and every type that is
    resolved against it goes by the first declaration of each name. -/
theorem Scope.built_from_accepted (requests : List Request) :
    let scope := empty.after requests
    let accepted := empty.accepted requests
    scope.types = accepted.filterMap Request.type? ∧
    scope.events = accepted.filterMap Request.event? ∧
    (∀ r e, (scope.request r).1 = .error e → (scope.request r).2 = scope) ∧
    (∀ name declaration,
      let answer := (scope.request (.type name declaration)).1
      (answer = .error (.reserved name) ↔ ∃ p : Primitive, p.keyword = name) ∧
      (answer = .error (.duplicate name) ↔
        (∀ p : Primitive, p.keyword ≠ name) ∧ ∃ d, .type name d ∈ accepted) ∧
      (answer = .ok () ↔ (∀ p : Primitive, p.keyword ≠ name) ∧ ∀ d, .type name d ∉ accepted)) ∧
    (∀ name,
      let answer := (scope.request (.event name)).1
      (answer = .error (.duplicate name) ↔ .event name ∈ requests) ∧
      (answer = .ok () ↔ .event name ∉ requests)) ∧
    (∀ name, scope.contains name ↔ ∃ d, .type name d ∈ accepted) ∧
    (∀ name, scope.hasEvent name ↔ .event name ∈ requests) ∧
    (∀ name, (∀ p : Primitive, p.keyword ≠ name) →
      scope.find? name = (requests.filterMap Request.type?).lookup name) ∧
    ∀ settings t u name, Gives ⟨scope, settings⟩ t → u ∈ t.nodes → u.declaredName? = some name →
      ∃ d, (requests.filterMap Request.type?).lookup name = some d ∧ d.Describes u := by
  intro scope accepted
  obtain ⟨htypes, hevents⟩ := empty.after_accepted requests
  have hcontains : ∀ name, scope.contains name ↔ ∃ d, .type name d ∈ accepted :=
    fun name => contains_after requests
  have hhasEvent : ∀ name, scope.hasEvent name ↔ .event name ∈ requests := by
    intro name
    have hnone : ¬ empty.hasEvent name := by simp [empty, hasEvent]
    rw [empty.hasEvent_after requests, or_iff_right hnone]
  have hfirst : ∀ name, (∀ p : Primitive, p.keyword ≠ name) →
      scope.find? name = (requests.filterMap Request.type?).lookup name := by
    intro name hne
    exact find?_after (ofKeyword?_eq_none_iff.2 hne) empty requests
  refine ⟨htypes, hevents, fun r e h => ?_, fun name declaration => ?_, fun name => ?_, hcontains,
    hhasEvent, hfirst, fun settings t u name ht hu hname => ?_⟩
  · rcases scope.request_cases r with ⟨_, hrefused⟩ | ⟨hok, -⟩
    · rw [hrefused]
    · rw [hok] at h
      cases h
  · have hanswers := scope.request_type_answers name declaration
    rwa [hcontains, not_exists] at hanswers
  · have hanswers := scope.request_event_answers name
    rwa [hhasEvent] at hanswers
  · obtain ⟨d, hfind, hd⟩ := (ht.stands.coherent u hu).described hname
    exact ⟨d, hfirst name (ofKeyword?_eq_none_iff.1 (ofKeyword?_of_find? hfind)) ▸ hfind, hd⟩

theorem Scope.built_from_accepted_inventory :
    let item : Declaration := .enum [⟨"BOX", 0⟩]
    let requests : List Request := [.type "Row" (.typedef (.seq (.name "Item"))),
      .type "Item" item, .type "int" .foreign, .event "Item", .type "Item" (.typedef (.name "Row")),
      .event "int", .event "Item"]
    let scope := empty.after requests
    let row := Ty.typedef "Row" (.seq (.enum ⟨"Item", [⟨"BOX", 0⟩]⟩))
    ((scope.request (.type "Item" .foreign)).1 = .error (.duplicate "Item") ∧
      (scope.request (.type "Item" .foreign)).2 = scope) ∧
    (scope.request (.event "Item")).1 = .error (.duplicate "Item") ∧
    scope.find? "Item" = some item ∧
    Resolver.Gives ⟨scope, {}⟩ row ∧
    ∃ d, (requests.filterMap Request.type?).lookup "Row" = some d ∧ d.Describes row := by
  intro item requests scope row
  have hrow : Resolver.Gives ⟨scope, {}⟩ row :=
    @Resolver.Gives.expr ⟨scope, {}⟩ [] (.name "Row") row (by rfl)
  have hfree : ∀ p : Primitive, p.keyword ≠ "Item" := ofKeyword?_eq_none_iff.1 rfl
  have haccepted : empty.accepted requests =
      [.type "Row" (.typedef (.seq (.name "Item"))), .type "Item" item, .event "Item",
        .event "int"] := rfl
  obtain ⟨-, -, hsame, htype, hevent, -, -, hfirst, hdescribed⟩ := built_from_accepted requests
  have hduplicate := (htype "Item" .foreign).2.1.2 ⟨hfree, item, by simp [haccepted]⟩
  refine ⟨⟨hduplicate, hsame _ _ hduplicate⟩, (hevent "Item").1.2 (by simp [requests]),
    hfirst "Item" hfree, hrow, ?_⟩
  exact hdescribed {} row row "Row" hrow row.self_mem_nodes rfl

end MachineLang
