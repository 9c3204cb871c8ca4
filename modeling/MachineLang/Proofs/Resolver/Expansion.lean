import Mathlib.Data.List.Perm.Subperm
import MachineLang.Resolver.Expansion
import MachineLang.Proofs.Scope.Reach

set_option autoImplicit false

namespace MachineLang.Resolver.Setup

theorem map_eq_ok {ε α β : Type} {f : α → β} {x : Except ε α} {b : β} :
    x.map f = .ok b ↔ ∃ a, x = .ok a ∧ f a = b := by
  cases x <;> simp [Except.map]

theorem bind_eq_ok {ε α β : Type} {f : α → Except ε β} {x : Except ε α} {b : β} :
    x >>= f = .ok b ↔ ∃ a, x = .ok a ∧ f a = .ok b := by
  cases x <;> simp [bind, Except.bind]

theorem admits_iff {s : Setup} {depth : Nat} :
    s.admits depth ↔ ∀ limit, s.settings.limit = some limit → depth ≤ limit := by
  cases h : s.settings.limit <;> simp [admits, h]

theorem admits_mono {s : Setup} {depth depth' : Nat} (hle : depth ≤ depth')
    (h : s.admits depth') : s.admits depth :=
  admits_iff.2 fun limit hlimit => Nat.le_trans hle (admits_iff.1 h limit hlimit)

theorem admits_max {s : Setup} {depth a b : Nat} :
    s.admits (depth + max a b) ↔ s.admits (depth + a) ∧ s.admits (depth + b) := by
  constructor
  · intro h
    exact ⟨admits_mono (by omega) h, admits_mono (by omega) h⟩
  · rintro ⟨ha, hb⟩
    rcases Nat.le_total a b with hab | hab
    · rwa [Nat.max_eq_right hab]
    · rwa [Nat.max_eq_left hab]

/-- What a node has to be for the declared types and, where it lists events, for the events. -/
def Fits (s : Setup) (t : Ty) : Prop :=
  s.scope.Declares t ∧ ∀ p, t = .permission p → s.undeclared? p.events = none

/-- The type is what its own expression stands for, if depth does not matter. -/
def Stands (s : Setup) : Ty → Prop := Ty.Everywhere s.Fits

theorem Stands.coherent {s : Setup} {t : Ty} (h : s.Stands t) : s.scope.Coherent t :=
  fun u hu => (h u hu).1

theorem Stands.fits {s : Setup} {t : Ty} (h : s.Stands t) : s.Fits t :=
  Ty.Everywhere.self h

theorem Stands.part {s : Setup} {t u : Ty} (h : s.Stands t) (hu : u ∈ t.parts) : s.Stands u :=
  Ty.Everywhere.part h hu

theorem Stands.node {s : Setup} {t u : Ty} (h : s.Stands t) (hu : u ∈ t.nodes) : s.Stands u :=
  Ty.Everywhere.node h hu

theorem stands_iff {s : Setup} {t : Ty} : s.Stands t ↔ s.Fits t ∧ ∀ u ∈ t.parts, s.Stands u :=
  Ty.everywhere_iff

theorem fits_of_declares {s : Setup} {t : Ty} (h : s.scope.Declares t)
    (hne : ∀ p, t ≠ .permission p) : s.Fits t :=
  ⟨h, fun p hp => absurd hp (hne p)⟩

theorem Stands.typedef {s : Setup} {name : String} {t : Ty} (h : s.Stands t)
    (hname : s.scope.find? name = some (.typedef t.expr)) : s.Stands (.typedef name t) := by
  refine stands_iff.2 ⟨fits_of_declares hname (by simp), fun u hu => ?_⟩
  rw [List.mem_singleton.1 hu]
  exact h

/-- A type for an expression that lies below so many nodes. -/
structure Answers (s : Setup) (above : Nat) (e : TypeExpr) (t : Ty) : Prop where
  expr : t.expr = e
  stands : s.Stands t
  admitted : s.admits (above + t.height)

theorem admits_heightAll {s : Setup} {depth : Nat} {ts : List Ty} (hdepth : s.admits depth)
    (h : ∀ t ∈ ts, s.admits (depth + t.height)) : s.admits (depth + Ty.heightAll ts) := by
  induction ts with
  | nil => exact hdepth
  | cons t ts ih =>
    rw [Ty.heightAll, admits_max]
    exact ⟨h t List.mem_cons_self, ih fun u hu => h u (List.mem_cons_of_mem t hu)⟩

theorem Answers.of_parts {s : Setup} {above : Nat} {e : TypeExpr} {t : Ty} (hexpr : t.expr = e)
    (hfits : s.Fits t) (hdepth : s.admits (above + 1))
    (hparts : ∀ u ∈ t.parts, s.Answers (above + 1) u.expr u) : s.Answers above e t where
  expr := hexpr
  stands := stands_iff.2 ⟨hfits, fun u hu => (hparts u hu).stands⟩
  admitted := by
    have hall := admits_heightAll hdepth fun u hu => (hparts u hu).admitted
    rw [Ty.height_eq, Nat.add_comm _ 1, ← Nat.add_assoc]
    exact hall

section Sound
variable {s : Setup} {target : TargetExpander}

/-- Whatever the expander gives for a declared typedef answers its target. -/
def Sound (s : Setup) (target : TargetExpander) : Prop :=
  ∀ depth name e t, s.scope.find? name = some (.typedef e) →
    target depth name e = .ok t → s.Answers depth e t

theorem expandPermission_eq_ok {p : Permission} {t : Ty} (h : s.expandPermission p = .ok t) :
    t = .permission p ∧ s.undeclared? p.events = none := by
  unfold expandPermission at h
  split at h
  · cases h
  · cases h
    exact ⟨rfl, ‹_›⟩

theorem expandName_answers (htarget : s.Sound target) {above : Nat} {name : String} {t : Ty}
    (hdepth : s.admits (above + 1)) (h : s.expandName target (above + 1) name = .ok t) :
    s.Answers above (.name name) t := by
  unfold expandName at h
  split at h
  case h_1 p hp =>
    cases h
    exact .of_parts (congrArg _ (Primitive.keyword_of_ofKeyword? hp))
      (fits_of_declares trivial (by simp)) hdepth (by simp [Ty.parts])
  case h_2 =>
    split at h
    case h_1 e he =>
      obtain ⟨u, hu, rfl⟩ := map_eq_ok.1 h
      have hanswer := htarget _ _ _ _ he hu
      obtain rfl := hanswer.expr
      refine .of_parts rfl (hanswer.stands.typedef he).fits hdepth fun v hv => ?_
      rw [List.mem_singleton.1 hv]
      exact hanswer
    case h_2 elements he =>
      cases h
      exact .of_parts rfl (fits_of_declares he (by simp)) hdepth (by simp [Ty.parts])
    case h_3 receives he =>
      obtain ⟨rfl, hevents⟩ := expandPermission_eq_ok h
      refine .of_parts rfl ⟨?_, ?_⟩ hdepth (by simp [Ty.parts])
      · intro n hn
        cases hn
        exact he
      · intro p hp
        cases hp
        exact hevents
    case h_4 he =>
      cases h
      exact .of_parts rfl (fits_of_declares he (by simp)) hdepth (by simp [Ty.parts])
    case h_5 => cases h

theorem expandExprs_answers {depth : Nat} {es : List TypeExpr} {ts : List Ty}
    (he : ∀ e ∈ es, ∀ t, s.expandExpr target (depth + 1) e = .ok t → s.Answers depth e t)
    (h : s.expandExprs target (depth + 1) es = .ok ts) :
    ts.map Ty.expr = es ∧ ∀ t ∈ ts, s.Answers depth t.expr t := by
  induction es generalizing ts with
  | nil =>
    cases h
    simp
  | cons e es ih =>
    rw [expandExprs] at h
    obtain ⟨t, ht, h⟩ := bind_eq_ok.1 h
    obtain ⟨us, hus, h⟩ := bind_eq_ok.1 h
    cases h
    have hanswer := he e List.mem_cons_self t ht
    obtain ⟨hexprs, hall⟩ := ih (fun e' he' => he e' (List.mem_cons_of_mem e he')) hus
    refine ⟨by rw [List.map_cons, hexprs, hanswer.expr], List.forall_mem_cons.2 ⟨?_, hall⟩⟩
    exact hanswer.expr ▸ hanswer

theorem expandFields_answers {depth : Nat} {es : List (String × TypeExpr)}
    {fields : List (String × Ty)}
    (he : ∀ e ∈ es, ∀ t, s.expandExpr target (depth + 1) e.2 = .ok t → s.Answers depth e.2 t)
    (h : s.expandFields target (depth + 1) es = .ok fields) :
    (fields.map fun field => (field.1, field.2.expr)) = es ∧
      ∀ field ∈ fields, s.Answers depth field.2.expr field.2 := by
  induction es generalizing fields with
  | nil =>
    cases h
    simp
  | cons e es ih =>
    rw [expandFields] at h
    obtain ⟨t, ht, h⟩ := bind_eq_ok.1 h
    obtain ⟨rest, hrest, h⟩ := bind_eq_ok.1 h
    cases h
    have hanswer := he e List.mem_cons_self t ht
    obtain ⟨hexprs, hall⟩ := ih (fun e' he' => he e' (List.mem_cons_of_mem e he')) hrest
    refine ⟨by rw [List.map_cons, hexprs, hanswer.expr], List.forall_mem_cons.2 ⟨?_, hall⟩⟩
    exact hanswer.expr ▸ hanswer

theorem admits_of_expandExpr {depth : Nat} {e : TypeExpr} {t : Ty}
    (h : s.expandExpr target depth e = .ok t) : s.admits depth := by
  unfold expandExpr at h
  split at h
  · assumption
  · cases h

theorem expandExpr_answers (htarget : s.Sound target) {above : Nat} {e : TypeExpr} {t : Ty}
    (h : s.expandExpr target (above + 1) e = .ok t) : s.Answers above e t := by
  have hdepth := admits_of_expandExpr h
  induction e using TypeExpr.treeInduction generalizing above t with
  | name name =>
    rw [expandExpr, if_pos hdepth] at h
    exact expandName_answers htarget hdepth h
  | seq element ih =>
    rw [expandExpr, if_pos hdepth] at h
    obtain ⟨u, hu, rfl⟩ := map_eq_ok.1 h
    have hanswer := ih hu (admits_of_expandExpr hu)
    obtain rfl := hanswer.expr
    exact .of_parts rfl (fits_of_declares trivial (by simp)) hdepth (by simpa [Ty.parts])
  | set element ih =>
    rw [expandExpr, if_pos hdepth] at h
    obtain ⟨u, hu, rfl⟩ := map_eq_ok.1 h
    have hanswer := ih hu (admits_of_expandExpr hu)
    obtain rfl := hanswer.expr
    exact .of_parts rfl (fits_of_declares trivial (by simp)) hdepth (by simpa [Ty.parts])
  | map key value ihk ihv =>
    rw [expandExpr, if_pos hdepth] at h
    obtain ⟨k, hk, h⟩ := bind_eq_ok.1 h
    obtain ⟨v, hv, h⟩ := bind_eq_ok.1 h
    cases h
    have hkey := ihk hk (admits_of_expandExpr hk)
    have hvalue := ihv hv (admits_of_expandExpr hv)
    obtain rfl := hkey.expr
    obtain rfl := hvalue.expr
    exact .of_parts rfl (fits_of_declares trivial (by simp)) hdepth
      (by simpa [Ty.parts] using ⟨hkey, hvalue⟩)
  | tuple elements ih =>
    cases elements with
    | nil =>
      rw [expandExpr, if_pos hdepth] at h
      cases h
    | cons first rest =>
      rw [expandExpr, if_pos hdepth] at h
      obtain ⟨ts, hts, rfl⟩ := map_eq_ok.1 h
      obtain ⟨hexprs, hall⟩ :=
        expandExprs_answers (fun e he t ht => ih e he ht (admits_of_expandExpr ht)) hts
      have hne : ts ≠ [] := fun hnil => by simp [hnil] at hexprs
      exact .of_parts (by rw [Ty.expr, Ty.exprs_eq_map, hexprs])
        (fits_of_declares hne (by simp)) hdepth hall
  | named fields ih =>
    cases fields with
    | nil =>
      rw [expandExpr, if_pos hdepth] at h
      cases h
    | cons first rest =>
      rw [expandExpr, if_pos hdepth] at h
      obtain ⟨fields, hfields, rfl⟩ := map_eq_ok.1 h
      obtain ⟨hexprs, hall⟩ :=
        expandFields_answers (fun e he t ht => ih e he ht (admits_of_expandExpr ht)) hfields
      have hne : fields ≠ [] := fun hnil => by simp [hnil] at hexprs
      exact .of_parts (by rw [Ty.expr, Ty.fieldExprs_eq_map, hexprs])
        (fits_of_declares hne (by simp)) hdepth (List.forall_mem_map.2 hall)
  | anyOf events =>
    rw [expandExpr, if_pos hdepth] at h
    obtain ⟨rfl, hevents⟩ := expandPermission_eq_ok h
    refine .of_parts rfl ⟨by simp [Scope.Declares], fun p hp => ?_⟩ hdepth (by simp [Ty.parts])
    cases hp
    exact hevents

end Sound

def within {α : Type} (s : Setup) (depth : Nat) (a : α) : Except ResolveError α :=
  if s.admits depth then .ok a else .error .limitExceeded

theorem within_of_admits {α : Type} (s : Setup) {depth : Nat} (h : s.admits depth) (a : α) :
    s.within depth a = .ok a :=
  if_pos h

theorem within_succ {α : Type} {s : Setup} {above height : Nat} {a : α}
    {below : Except ResolveError α}
    (h : s.admits (above + 1) → below = s.within (above + 1 + height) a) :
    (if s.admits (above + 1) then below else .error .limitExceeded) =
      s.within (above + (height + 1)) a := by
  have hadd : above + (height + 1) = above + 1 + height := by omega
  rw [hadd]
  by_cases hdepth : s.admits (above + 1)
  · rw [if_pos hdepth, h hdepth]
  · have hbelow : ¬ s.admits (above + 1 + height) := fun hle => hdepth (admits_mono (by omega) hle)
    rw [if_neg hdepth, within, if_neg hbelow]

theorem within_map {α β : Type} (s : Setup) (depth : Nat) (a : α) (f : α → β) :
    (s.within depth a).map f = s.within depth (f a) := by
  unfold within
  split <;> rfl

theorem within_max {α β γ : Type} (s : Setup) (depth h k : Nat) (a : α) (b : β) (f : α → β → γ) :
    (do
      let x ← s.within (depth + h) a
      let y ← s.within (depth + k) b
      pure (f x y)) = s.within (depth + max h k) (f a b) := by
  unfold within
  by_cases hh : s.admits (depth + h) <;> by_cases hk : s.admits (depth + k) <;>
    simp [hh, hk, admits_max, bind, Except.bind, pure, Except.pure]

section Complete
variable {s : Setup} {target : TargetExpander}

/-- The expander gives back the targets of the typedefs in the type, where they are admitted. -/
def Complete (s : Setup) (target : TargetExpander) (t : Ty) : Prop :=
  ∀ name u, .typedef name u ∈ t.nodes → ∀ depth,
    target depth name u.expr = s.within (depth + u.height) u

theorem Complete.part {t u : Ty} (h : s.Complete target t) (hu : u ∈ t.parts) :
    s.Complete target u :=
  fun name v hv => h name v (Ty.mem_nodes_of_part hu hv)

theorem expandPermission_eq {p : Permission} (h : s.undeclared? p.events = none) :
    s.expandPermission p = .ok (.permission p) := by
  rw [expandPermission, h]

theorem expandExprs_exprs {depth : Nat} {ts : List Ty} (hdepth : s.admits depth)
    (h : ∀ t ∈ ts, s.expandExpr target (depth + 1) t.expr = s.within (depth + t.height) t) :
    s.expandExprs target (depth + 1) (ts.map Ty.expr) =
      s.within (depth + Ty.heightAll ts) ts := by
  induction ts with
  | nil => exact (s.within_of_admits hdepth []).symm
  | cons t ts ih =>
    rw [List.map_cons, expandExprs, h t List.mem_cons_self,
      ih fun u hu => h u (List.mem_cons_of_mem t hu), Ty.heightAll]
    exact s.within_max depth t.height (Ty.heightAll ts) t ts List.cons

theorem expandFields_exprs {depth : Nat} {fields : List (String × Ty)} (hdepth : s.admits depth)
    (h : ∀ field ∈ fields,
      s.expandExpr target (depth + 1) field.2.expr = s.within (depth + field.2.height) field.2) :
    s.expandFields target (depth + 1) (fields.map fun field => (field.1, field.2.expr)) =
      s.within (depth + Ty.heightFields fields) fields := by
  induction fields with
  | nil => exact (s.within_of_admits hdepth []).symm
  | cons field fields ih =>
    rw [List.map_cons, expandFields, h field List.mem_cons_self,
      ih fun other hother => h other (List.mem_cons_of_mem field hother), Ty.heightFields]
    exact s.within_max depth _ _ field.2 fields fun t rest => (field.1, t) :: rest

theorem expandExpr_expr {t : Ty} (hstands : s.Stands t) (htarget : s.Complete target t)
    (above : Nat) : s.expandExpr target (above + 1) t.expr = s.within (above + t.height) t := by
  induction t using Ty.treeInduction generalizing above with
  | prim p =>
    rw [Ty.expr, expandExpr, expandName, Primitive.ofKeyword?_keyword]
    exact within_succ fun hdepth => (s.within_of_admits hdepth _).symm
  | enum decl =>
    have hfind : s.scope.find? decl.name = some (.enum decl.elements) := hstands.coherent.declares
    rw [Ty.expr, expandExpr, expandName, Scope.ofKeyword?_of_find? hfind, hfind]
    exact within_succ fun hdepth => (s.within_of_admits hdepth _).symm
  | foreign name =>
    have hfind : s.scope.find? name = some .foreign := hstands.coherent.declares
    rw [Ty.expr, expandExpr, expandName, Scope.ofKeyword?_of_find? hfind, hfind]
    exact within_succ fun hdepth => (s.within_of_admits hdepth _).symm
  | permission p =>
    have hevents := expandPermission_eq (hstands.fits.2 p rfl)
    obtain ⟨_ | name, events⟩ := p
    · rw [Ty.expr, expandExpr, hevents]
      exact within_succ fun hdepth => (s.within_of_admits hdepth _).symm
    · have hfind : s.scope.find? name = some (.interface events) :=
        hstands.coherent.declares name rfl
      rw [Ty.expr, expandExpr, expandName, Scope.ofKeyword?_of_find? hfind, hfind]
      exact within_succ fun hdepth => hevents.trans (s.within_of_admits hdepth _).symm
  | typedef name u ih =>
    have hfind : s.scope.find? name = some (.typedef u.expr) := hstands.coherent.declares
    rw [Ty.expr, expandExpr, expandName, Scope.ofKeyword?_of_find? hfind, hfind]
    refine within_succ fun _ => ?_
    change (target (above + 1) name u.expr).map (Ty.typedef name) = _
    rw [htarget name u (Ty.self_mem_nodes _), within_map]
  | seq element ih =>
    have hmem : element ∈ (Ty.seq element).parts := List.mem_singleton_self element
    rw [Ty.expr, expandExpr]
    refine within_succ fun _ => ?_
    rw [ih (hstands.part hmem) (htarget.part hmem), within_map]
  | set element ih =>
    have hmem : element ∈ (Ty.set element).parts := List.mem_singleton_self element
    rw [Ty.expr, expandExpr]
    refine within_succ fun _ => ?_
    rw [ih (hstands.part hmem) (htarget.part hmem), within_map]
  | map key value ihk ihv =>
    have hkey : key ∈ (Ty.map key value).parts := by simp [Ty.parts]
    have hvalue : value ∈ (Ty.map key value).parts := by simp [Ty.parts]
    rw [Ty.expr, expandExpr]
    refine within_succ fun _ => ?_
    rw [ihk (hstands.part hkey) (htarget.part hkey),
      ihv (hstands.part hvalue) (htarget.part hvalue)]
    exact s.within_max _ _ _ key value Ty.map
  | tuple elements ih =>
    have hall : s.admits (above + 1) →
        s.expandExprs target (above + 1 + 1) (elements.map Ty.expr) =
          s.within (above + 1 + Ty.heightAll elements) elements := fun hdepth =>
      expandExprs_exprs hdepth fun u hu => ih u hu (hstands.part hu) (htarget.part hu) (above + 1)
    cases elements with
    | nil => exact absurd rfl hstands.coherent.declares
    | cons first rest =>
      rw [Ty.expr, Ty.exprs_eq_map, List.map_cons, expandExpr, ← List.map_cons]
      refine within_succ fun hdepth => ?_
      rw [hall hdepth, within_map]
  | named fields ih =>
    have hall : s.admits (above + 1) →
        s.expandFields target (above + 1 + 1) (fields.map fun field => (field.1, field.2.expr)) =
          s.within (above + 1 + Ty.heightFields fields) fields := by
      refine fun hdepth => expandFields_exprs hdepth fun field hfield => ?_
      have hpart : field.2 ∈ (Ty.named fields).parts := List.mem_map_of_mem hfield
      exact ih field hfield (hstands.part hpart) (htarget.part hpart) (above + 1)
    cases fields with
    | nil => exact absurd rfl hstands.coherent.declares
    | cons first rest =>
      rw [Ty.expr, Ty.fieldExprs_eq_map, List.map_cons, expandExpr]
      refine within_succ fun hdepth => ?_
      rw [List.map_cons] at hall
      rw [hall hdepth, within_map]

end Complete

theorem expandTarget_sound (s : Setup) (unopened : Nat) (opened : List String) :
    s.Sound (s.expandTarget unopened opened) := by
  induction unopened generalizing opened with
  | zero =>
    intro depth name e t _ h
    cases h
  | succ unopened ih =>
    intro depth name e t _ h
    rw [expandTarget] at h
    split at h
    · cases h
    · exact expandExpr_answers (ih _) h

/-- The open typedefs, and a bound on the number of the others. -/
structure Opens (s : Setup) (unopened : Nat) (opened : List String) : Prop where
  nodup : opened.Nodup
  declared : opened ⊆ s.scope.typedefs.map Prod.fst
  room : s.scope.typedefs.length ≤ opened.length + unopened

theorem opens_nil {s : Setup} {unopened : Nat} (h : s.scope.typedefs.length ≤ unopened) :
    s.Opens unopened [] where
  nodup := .nil
  declared := by simp
  room := by simpa using h

theorem Opens.mem_of_zero {s : Setup} {opened : List String} (h : s.Opens 0 opened)
    {name : String} {e : TypeExpr} (hname : s.scope.find? name = some (.typedef e)) :
    name ∈ opened := by
  have hperm : opened.Perm (s.scope.typedefs.map Prod.fst) :=
    (h.nodup.subperm h.declared).perm_of_length_le (by simpa using h.room)
  exact hperm.mem_iff.2 (List.mem_map_of_mem (Scope.mem_typedefs.2 hname))

theorem Opens.push {s : Setup} {unopened : Nat} {opened : List String}
    (h : s.Opens (unopened + 1) opened) {name : String} {e : TypeExpr}
    (hname : s.scope.find? name = some (.typedef e)) (hnew : name ∉ opened) :
    s.Opens unopened (opened ++ [name]) where
  nodup := by
    rw [List.nodup_append]
    refine ⟨h.nodup, by simp, fun m hm n hn hmn => hnew ?_⟩
    rwa [← List.mem_singleton.1 hn, ← hmn]
  declared := by
    intro m hm
    rcases List.mem_append.1 hm with hm | hm
    · exact h.declared hm
    · rw [List.mem_singleton.1 hm]
      exact List.mem_map_of_mem (Scope.mem_typedefs.2 hname)
  room := by
    have hroom := h.room
    rw [List.length_append, List.length_singleton]
    omega

theorem expandTarget_expr {s : Setup} {unopened : Nat} {opened : List String}
    (hopens : s.Opens unopened opened) {name : String} {t : Ty}
    (hstands : s.Stands (.typedef name t))
    (hclosed : ∀ m ∈ opened, m ∉ (Ty.typedef name t).typedefNames) (depth : Nat) :
    s.expandTarget unopened opened depth name t.expr = s.within (depth + t.height) t := by
  induction unopened generalizing opened name t depth with
  | zero =>
    have hopen : name ∈ opened := hopens.mem_of_zero hstands.coherent.declares
    exact absurd (Ty.self_mem_typedefNames name t) (hclosed name hopen)
  | succ unopened ih =>
    have hfind : s.scope.find? name = some (.typedef t.expr) := hstands.coherent.declares
    have hpart : t ∈ (Ty.typedef name t).parts := List.mem_singleton_self t
    have hnew : name ∉ opened := fun hopen => hclosed name hopen (Ty.self_mem_typedefNames name t)
    rw [expandTarget, if_neg (by simpa using hnew)]
    refine expandExpr_expr (hstands.part hpart) (fun m u hu depth => ?_) depth
    refine ih (hopens.push hfind hnew) ((hstands.part hpart).node hu) (fun k hk hmem => ?_) depth
    have hin : k ∈ t.typedefNames := Ty.typedefNames_node hu hmem
    rcases List.mem_append.1 hk with hk | hk
    · exact hclosed k hk (Ty.typedefNames_node (Ty.mem_nodes_part hpart) hin)
    · rw [List.mem_singleton.1 hk] at hin
      exact hstands.coherent.not_mem_typedefNames hin

theorem expand_eq_ok_iff {s : Setup} {e : TypeExpr} {t : Ty} :
    s.expand e = .ok t ↔ s.Answers 0 e t := by
  constructor
  · intro h
    exact expandExpr_answers (s.expandTarget_sound _ _) h
  · rintro ⟨rfl, hstands, hadmitted⟩
    have hcomplete : s.Complete (s.expandTarget s.scope.typedefs.length []) t :=
      fun name u hu depth => expandTarget_expr (opens_nil (Nat.le_refl _)) (hstands.node hu)
        (by simp) depth
    have hexpand := expandExpr_expr hstands hcomplete 0
    rwa [s.within_of_admits hadmitted] at hexpand

end MachineLang.Resolver.Setup
