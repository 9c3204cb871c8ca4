import MachineLang.Ty.Text
import MachineLang.Proofs.Ty.Canonical
import MachineLang.Proofs.Scope.Coherent

set_option autoImplicit false

/-!
# Reading canonical texts back

A canonical text starts with a word, which is empty for tuples. Names hold no punctuation, so the
word ends where the punctuation begins, and the first mark after it tells whether parts follow and
between which brackets. Hence a text that is followed by a closing mark determines the canonical
tree, if names that look alike are declared alike.
-/
namespace MachineLang

def marks : List Char := ['[', ']', '(', ')', '<', '>', ',', ':', ' ']

/-- What the syntax of identifiers guarantees of a name. -/
def Plain (name : String) : Prop := name ≠ "" ∧ ∀ c ∈ name.toList, c ∉ marks

theorem Plain.append_ne {name : String} (h : Plain name) {c : Char} (hc : c ∈ marks)
    {rest rest' : List Char} : name.toList ++ rest ≠ c :: rest' := by
  intro heq
  cases hname : name.toList with
  | nil => exact h.1 (String.toList_eq_nil_iff.1 hname)
  | cons d chars =>
    rw [hname, List.cons_append] at heq
    have hplain := h.2 d (hname ▸ List.mem_cons_self)
    exact hplain ((List.cons.inj heq).1 ▸ hc)

namespace Ty

def labels : Ty → List String
  | enum decl => [decl.name]
  | foreign name => [name]
  | permission p => p.events
  | named fields => fields.map Prod.fst
  | prim _ | seq _ | set _ | map _ _ | tuple _ | typedef _ _ => []

def PlainNames : Ty → Prop := Everywhere fun t => ∀ name ∈ t.labels, Plain name

end Ty

namespace Reading

def Stops (rest : List Char) : Prop := ∀ c, rest.head? = some c → c ∈ marks

/-- What may follow a type. -/
def Ends (rest : List Char) : Prop := ∀ c, rest.head? = some c → c ∈ [']', ')', '>', ',']

theorem Ends.stops {rest : List Char} (h : Ends rest) : Stops rest := by
  intro c hc
  have hmark := h c hc
  revert hmark
  simp only [marks, List.mem_cons, List.not_mem_nil]
  tauto

theorem stops_colon (rest : List Char) : Stops (':' :: rest) := by
  intro c hc
  cases hc
  simp [marks]

theorem ends_cons {c : Char} {rest : List Char} (h : c ∈ [']', ')', '>', ',']) :
    Ends (c :: rest) := by
  intro d hd
  cases hd
  exact h

theorem not_ends_of_opening {c : Char} {rest : List Char} (h : c ∈ ['[', '<', '(']) :
    ¬ Ends (c :: rest) := by
  intro hends
  have hclose := hends c rfl
  revert h hclose
  simp only [List.mem_cons, List.not_mem_nil]
  rintro (rfl | rfl | rfl | h) <;> simp_all

theorem word_unique {word word' rest rest' : List Char} (hword : ∀ c ∈ word, c ∉ marks)
    (hword' : ∀ c ∈ word', c ∉ marks) (hrest : Stops rest) (hrest' : Stops rest')
    (h : word ++ rest = word' ++ rest') : word = word' ∧ rest = rest' := by
  induction word generalizing word' with
  | nil =>
    cases word' with
    | nil => exact ⟨rfl, h⟩
    | cons c word' =>
      rw [List.nil_append] at h
      exact absurd (hrest c (by rw [h]; rfl)) (hword' c List.mem_cons_self)
  | cons c word ih =>
    cases word' with
    | nil =>
      rw [List.nil_append] at h
      exact absurd (hrest' c (by rw [← h]; rfl)) (hword c List.mem_cons_self)
    | cons d word' =>
      rw [List.cons_append, List.cons_append] at h
      obtain ⟨rfl, htail⟩ := List.cons.inj h
      obtain ⟨rfl, hrest⟩ := ih (fun x hx => hword x (List.mem_cons_of_mem c hx))
        (fun x hx => hword' x (List.mem_cons_of_mem c hx)) htail
      exact ⟨rfl, hrest⟩

/-- Further items of a list, each after its comma, and what comes after the list. -/
def following : List (List Char) → List Char → List Char
  | [], rest => rest
  | item :: items, rest => ',' :: ' ' :: (item ++ following items rest)

theorem intercalate_append {α : Type} (write : α → String) (shown : α → List Char)
    (hshow : ∀ a, (write a).toList = shown a) (a : α) (as : List α) (rest : List Char) :
    (", ".intercalate ((a :: as).map write)).toList ++ rest =
      shown a ++ following (as.map shown) rest := by
  induction as generalizing a with
  | nil =>
    rw [List.map_cons, List.map_nil, String.intercalate_singleton, hshow]
    rfl
  | cons b as ih =>
    have hrest := ih b
    rw [List.map_cons] at hrest
    rw [List.map_cons, List.map_cons, String.intercalate_cons_cons, String.toList_append,
      String.toList_append, List.append_assoc, hrest, List.append_assoc, hshow, List.map_cons,
      following]
    rfl

theorem ends_following {close : Char} (hclose : close ∈ [']', ')', '>', ','])
    (items : List (List Char)) (rest : List Char) : Ends (following items (close :: rest)) := by
  cases items with
  | nil => exact ends_cons hclose
  | cons item items => exact ends_cons (by simp)

theorem following_unique {α β : Type} {shown : α → List Char} (value : α → β) {close : Char}
    (hclose : close ∈ [']', ')', '>']) {as bs : List α} {rest rest' : List Char}
    (hitem : ∀ a ∈ as, ∀ b ∈ bs, ∀ x y, Ends x → Ends y → shown a ++ x = shown b ++ y →
      value a = value b ∧ x = y)
    (h : following (as.map shown) (close :: rest) = following (bs.map shown) (close :: rest')) :
    as.map value = bs.map value ∧ rest = rest' := by
  have hends : close ∈ [']', ')', '>', ','] := by
    simp only [List.mem_cons] at hclose ⊢
    tauto
  have hcomma : close ≠ ',' := by
    rintro rfl
    revert hclose
    decide
  induction as generalizing bs with
  | nil =>
    cases bs with
    | nil => exact ⟨rfl, (List.cons.inj h).2⟩
    | cons b bs => exact absurd (List.cons.inj h).1 hcomma
  | cons a as ih =>
    cases bs with
    | nil => exact absurd (List.cons.inj h).1.symm hcomma
    | cons b bs =>
      have hitems := (List.cons.inj (List.cons.inj h).2).2
      obtain ⟨hvalue, hrest⟩ := hitem a List.mem_cons_self b List.mem_cons_self _ _
        (ends_following hends _ _) (ends_following hends _ _) hitems
      obtain ⟨hvalues, hrest⟩ := ih (fun a' ha b' hb => hitem a' (List.mem_cons_of_mem a ha) b'
        (List.mem_cons_of_mem b hb)) hrest
      exact ⟨by rw [List.map_cons, List.map_cons, hvalue, hvalues], hrest⟩

theorem items_unique {α β : Type} {shown : α → List Char} (value : α → β) {close : Char}
    (hclose : close ∈ [']', ')', '>']) {a b : α} {as bs : List α} {rest rest' : List Char}
    (hitem : ∀ x ∈ a :: as, ∀ y ∈ b :: bs, ∀ r r', Ends r → Ends r' →
      shown x ++ r = shown y ++ r' → value x = value y ∧ r = r')
    (h : shown a ++ following (as.map shown) (close :: rest) =
      shown b ++ following (bs.map shown) (close :: rest')) :
    (a :: as).map value = (b :: bs).map value ∧ rest = rest' := by
  refine following_unique value hclose hitem ?_
  rw [List.map_cons, List.map_cons, following, following, h]

end Reading

namespace Ty
open Reading

abbrev chars (t : Ty) : List Char := t.canonicalText.toList

def fieldChars (field : String × Ty) : List Char :=
  field.1.toList ++ ':' :: ' ' :: field.2.chars

theorem toList_fieldText (field : String × Ty) :
    (fieldText field.1 field.2.canonicalText).toList = fieldChars field := by
  simp [fieldText, fieldChars, String.toList_append]

def lead : Ty → List Char
  | prim p => p.keyword.toList
  | enum decl => decl.name.toList
  | foreign name => name.toList
  | seq _ => ['s', 'e', 'q']
  | set _ => ['s', 'e', 't']
  | map _ _ => ['m', 'a', 'p']
  | permission _ => ['a', 'n', 'y']
  | tuple _ | named _ => []
  | typedef _ target => target.lead

def eventsInside (rest : List Char) : List String → List Char
  | [] => '>' :: rest
  | event :: events => event.toList ++ following (events.map String.toList) ('>' :: rest)

def tupleInside (rest : List Char) : List Ty → List Char
  | [] => ')' :: rest
  | [element] => element.chars ++ ',' :: ')' :: rest
  | first :: second :: elements =>
    first.chars ++ following ((second :: elements).map chars) (')' :: rest)

def namedInside (rest : List Char) : List (String × Ty) → List Char
  | [] => ':' :: ')' :: rest
  | field :: fields => fieldChars field ++ following (fields.map fieldChars) (')' :: rest)

/-- The canonical text after its first word, and what comes after the text. -/
def body (rest : List Char) : Ty → List Char
  | prim _ | enum _ | foreign _ => rest
  | seq element | set element => '[' :: (element.chars ++ ']' :: rest)
  | map key value => '[' :: (key.chars ++ ',' :: ' ' :: (value.chars ++ ']' :: rest))
  | permission p => '<' :: eventsInside rest p.eventSet
  | tuple elements => '(' :: tupleInside rest elements
  | named fields => '(' :: namedInside rest fields
  | typedef _ target => target.body rest

theorem chars_append (t : Ty) (rest : List Char) : t.chars ++ rest = t.lead ++ t.body rest := by
  induction t using treeInduction with
  | typedef name target ih => exact ih
  | prim | enum | foreign => rfl
  | seq element | set element | map key value =>
    simp [chars, text, seqText, setText, mapText, lead, body, String.toList_append]
  | permission p =>
    simp only [chars, text, permissionText, eventsText, body, lead]
    cases p.eventSet with
    | nil => rfl
    | cons event events =>
      have h := intercalate_append id String.toList (fun _ => rfl) event events ('>' :: rest)
      simpa [eventsInside, String.toList_append] using h
  | tuple elements =>
    simp only [chars, text, texts_eq_map, lead]
    obtain _ | ⟨first, _ | ⟨second, elements⟩⟩ := elements
    · rfl
    · simp [tupleText, tupleInside, body, String.toList_append]
    · have h := intercalate_append canonicalText chars (fun _ => rfl) first (second :: elements)
        (')' :: rest)
      simpa [tupleText, tupleInside, body, String.toList_append] using h
  | named fields =>
    simp only [chars, text, fieldTexts_eq_map, lead]
    cases fields with
    | nil => rfl
    | cons field fields =>
      have h := intercalate_append _ fieldChars toList_fieldText field fields (')' :: rest)
      simpa [namedText, namedInside, body, String.toList_append] using h

theorem keyword_plain (p : Primitive) : ∀ c ∈ p.keyword.toList, c ∉ marks := by
  cases p <;> simp [Primitive.keyword, marks]

theorem PlainNames.part {s t : Ty} (h : t.PlainNames) (hs : s ∈ t.parts) : s.PlainNames :=
  Everywhere.part h hs

theorem lead_plain {t : Ty} (h : t.PlainNames) : ∀ c ∈ t.lead, c ∉ marks := by
  induction t using treeInduction with
  | typedef name target ih => exact ih (h.part (List.mem_singleton_self target))
  | prim p => exact keyword_plain p
  | enum decl => exact (h.self decl.name (List.mem_singleton_self _)).2
  | foreign name => exact (h.self name (List.mem_singleton_self _)).2
  | seq | set | map | permission | tuple | named => simp [lead, marks]

theorem body_starts (t : Ty) {rest : List Char} (hrest : Ends rest) {c : Char}
    (h : (t.body rest).head? = some c) : c ∈ ['[', '<', '('] ∨ c ∈ [']', ')', '>', ','] := by
  induction t using treeInduction with
  | typedef name target ih => exact ih h
  | prim | enum | foreign => exact .inr (hrest c h)
  | seq | set | map | permission | tuple | named =>
    simp only [body, List.head?_cons, Option.some.injEq] at h
    simp [← h]

theorem body_stops (t : Ty) {rest : List Char} (hrest : Ends rest) : Stops (t.body rest) := by
  intro c hc
  have hmark := t.body_starts hrest hc
  revert hmark
  simp only [marks, List.mem_cons, List.not_mem_nil]
  tauto

/-- The scope declares the names in the type, and all that are shown are plain. -/
structure Legible (scope : Scope) (t : Ty) : Prop where
  coherent : scope.Coherent t
  plain : t.PlainNames

theorem Legible.part {scope : Scope} {s t : Ty} (h : t.Legible scope) (hs : s ∈ t.parts) :
    s.Legible scope :=
  ⟨h.coherent.part hs, h.plain.part hs⟩

theorem Legible.unfold {scope : Scope} {t : Ty} (h : t.Legible scope) : t.unfold.Legible scope :=
  ⟨h.coherent.node t.unfold_mem_nodes, Everywhere.node h.plain t.unfold_mem_nodes⟩

theorem lead_unfold (t : Ty) : t.unfold.lead = t.lead := by
  fun_induction unfold t with
  | case1 _ _ ih => exact ih
  | case2 => rfl

theorem body_unfold (t : Ty) (rest : List Char) : t.unfold.body rest = t.body rest := by
  fun_induction unfold t with
  | case1 _ _ ih => exact ih
  | case2 => rfl

section Unique
variable {scope : Scope} {s t : Ty} {rest rest' : List Char}

theorem lead_body_unique (hs : s.Legible scope) (ht : t.Legible scope) (hrest : Ends rest)
    (hrest' : Ends rest') (h : s.chars ++ rest = t.chars ++ rest') :
    t.unfold.lead = s.lead ∧ t.unfold.body rest' = s.body rest := by
  rw [chars_append, chars_append] at h
  obtain ⟨hlead, hbody⟩ := word_unique (lead_plain hs.plain) (lead_plain ht.plain)
    (body_stops s hrest) (body_stops t hrest') h
  rw [lead_unfold, body_unfold]
  exact ⟨hlead.symm, hbody.symm⟩

theorem unfold_eq_of_name {name : String} (hs : scope.Coherent s) (ht : t.Legible scope)
    (hname : s.expr = .name name) (hrest : Ends rest)
    (hlead : t.unfold.lead = name.toList) (hbody : t.unfold.body rest' = rest) :
    t.unfold = s ∧ rest = rest' := by
  have hu := ht.unfold.coherent
  have hne := t.unfold_ne_typedef
  generalize t.unfold = u at *
  have hleaf : ∀ name', u.lead = name'.toList → u.expr = .name name' → u = s := by
    intro name' hlead' hname'
    have heq : name = name' := String.toList_inj.1 (hlead.symm.trans hlead')
    exact hu.eq_of_expr_eq hs (hname'.trans (hname.symm ▸ heq ▸ rfl))
  cases u with
  | prim p => exact ⟨hleaf _ rfl rfl, hbody.symm⟩
  | enum decl => exact ⟨hleaf _ rfl rfl, hbody.symm⟩
  | foreign n => exact ⟨hleaf _ rfl rfl, hbody.symm⟩
  | typedef n target => exact absurd rfl (hne n target)
  | seq | set | map | permission | tuple | named =>
    rw [← hbody, body] at hrest
    exact absurd hrest (not_ends_of_opening (by simp))

theorem unfold_eq_seq {inside : List Char} (hrest : Ends rest)
    (hlead : t.unfold.lead = ['s', 'e', 'q']) (h : t.unfold.body rest = '[' :: inside) :
    ∃ element, t.unfold = seq element ∧ element.chars ++ ']' :: rest = inside := by
  have hne := t.unfold_ne_typedef
  have hopen : ¬ Ends ('[' :: inside) := not_ends_of_opening (by simp)
  generalize t.unfold = u at *
  cases u <;> simp_all [body, lead]

theorem unfold_eq_set {inside : List Char} (hrest : Ends rest)
    (hlead : t.unfold.lead = ['s', 'e', 't']) (h : t.unfold.body rest = '[' :: inside) :
    ∃ element, t.unfold = set element ∧ element.chars ++ ']' :: rest = inside := by
  have hne := t.unfold_ne_typedef
  have hopen : ¬ Ends ('[' :: inside) := not_ends_of_opening (by simp)
  generalize t.unfold = u at *
  cases u <;> simp_all [body, lead]

theorem unfold_eq_map {inside : List Char} (hrest : Ends rest)
    (hlead : t.unfold.lead = ['m', 'a', 'p']) (h : t.unfold.body rest = '[' :: inside) :
    ∃ key value, t.unfold = map key value ∧
      key.chars ++ ',' :: ' ' :: (value.chars ++ ']' :: rest) = inside := by
  have hne := t.unfold_ne_typedef
  have hopen : ¬ Ends ('[' :: inside) := not_ends_of_opening (by simp)
  generalize t.unfold = u at *
  cases u <;> simp_all [body, lead]

theorem unfold_eq_permission {inside : List Char} (hrest : Ends rest)
    (h : t.unfold.body rest = '<' :: inside) :
    ∃ p, t.unfold = permission p ∧ eventsInside rest p.eventSet = inside := by
  have hne := t.unfold_ne_typedef
  have hopen : ¬ Ends ('<' :: inside) := not_ends_of_opening (by simp)
  generalize t.unfold = u at *
  cases u <;> simp_all [body]

theorem unfold_eq_tuple_or_named {inside : List Char} (hrest : Ends rest)
    (h : t.unfold.body rest = '(' :: inside) :
    (∃ elements, t.unfold = tuple elements ∧ tupleInside rest elements = inside) ∨
    ∃ fields, t.unfold = named fields ∧ namedInside rest fields = inside := by
  have hne := t.unfold_ne_typedef
  have hopen : ¬ Ends ('(' :: inside) := not_ends_of_opening (by simp)
  generalize t.unfold = u at *
  cases u <;> simp_all [body]

end Unique

theorem eventsInside_unique {events events' : List String} {rest rest' : List Char}
    (hplain : ∀ event ∈ events, Plain event) (hplain' : ∀ event ∈ events', Plain event)
    (h : eventsInside rest events = eventsInside rest' events') :
    events = events' ∧ rest = rest' := by
  cases events with
  | nil =>
    cases events' with
    | nil => exact ⟨rfl, (List.cons.inj h).2⟩
    | cons event' events' =>
      exact absurd h.symm ((hplain' event' List.mem_cons_self).append_ne (by simp [marks]))
  | cons event events =>
    cases events' with
    | nil => exact absurd h ((hplain event List.mem_cons_self).append_ne (by simp [marks]))
    | cons event' events' =>
      have hitem : ∀ x ∈ event :: events, ∀ y ∈ event' :: events', ∀ r r', Ends r → Ends r' →
          x.toList ++ r = y.toList ++ r' → x = y ∧ r = r' := by
        intro x hx y hy r r' hr hr' hxy
        obtain ⟨hword, hrest⟩ :=
          word_unique (hplain x hx).2 (hplain' y hy).2 hr.stops hr'.stops hxy
        exact ⟨String.toList_inj.1 hword, hrest⟩
      obtain ⟨hevents, hrest⟩ := items_unique id (by simp) hitem h
      rw [List.map_id, List.map_id] at hevents
      exact ⟨hevents, hrest⟩

/-- The texts of two types are told apart in front of whatever ends them. -/
def Apart (s t : Ty) : Prop :=
  ∀ rest rest', Ends rest → Ends rest' → s.chars ++ rest = t.chars ++ rest' →
    s.canonicalize = t.canonicalize ∧ rest = rest'

theorem tupleInside_unique {ss ts : List Ty} {rest rest' : List Char} (hs : ss ≠ []) (ht : ts ≠ [])
    (hitem : ∀ s ∈ ss, ∀ t ∈ ts, Apart s t)
    (h : tupleInside rest ss = tupleInside rest' ts) :
    ss.map canonicalize = ts.map canonicalize ∧ rest = rest' := by
  match ss, ts with
  | [s], [t] =>
    obtain ⟨hst, hrest⟩ := hitem s (by simp) t (by simp) _ _ (ends_cons (by simp))
      (ends_cons (by simp)) h
    exact ⟨by rw [List.map_singleton, List.map_singleton, hst], by simpa using hrest⟩
  | [s], t :: t' :: ts =>
    obtain ⟨-, hrest⟩ := hitem s (by simp) t (by simp) _ _ (ends_cons (by simp))
      (ends_following (by simp) _ _) h
    simp [following] at hrest
  | s :: s' :: ss, [t] =>
    obtain ⟨-, hrest⟩ := hitem s (by simp) t (by simp) _ _ (ends_following (by simp) _ _)
      (ends_cons (by simp)) h
    simp [following] at hrest
  | s :: s' :: ss, t :: t' :: ts =>
    exact items_unique canonicalize (by simp) (fun x hx y hy => hitem x hx y hy) h

theorem namedInside_unique {ss ts : List (String × Ty)} {rest rest' : List Char} (hs : ss ≠ [])
    (ht : ts ≠ []) (hplain : ∀ s ∈ ss, Plain s.1) (hplain' : ∀ t ∈ ts, Plain t.1)
    (hitem : ∀ s ∈ ss, ∀ t ∈ ts, Apart s.2 t.2)
    (h : namedInside rest ss = namedInside rest' ts) :
    (ss.map fun field => (field.1, field.2.canonicalize)) =
      (ts.map fun field => (field.1, field.2.canonicalize)) ∧ rest = rest' := by
  match ss, ts with
  | s :: ss, t :: ts =>
    refine items_unique _ (by simp) (fun x hx y hy r r' hr hr' hxy => ?_) h
    rw [fieldChars, fieldChars, List.append_assoc, List.append_assoc] at hxy
    obtain ⟨hname, htail⟩ :=
      word_unique (hplain x hx).2 (hplain' y hy).2 (stops_colon _) (stops_colon _) hxy
    have htype : x.2.chars ++ r = y.2.chars ++ r' := by simpa using htail
    obtain ⟨htree, hrest⟩ := hitem x hx y hy r r' hr hr' htype
    exact ⟨Prod.ext (String.toList_inj.1 hname) htree, hrest⟩

theorem tupleInside_ne_namedInside {ss : List Ty} {ts : List (String × Ty)}
    {rest rest' : List Char} (hs : ss ≠ []) (ht : ts ≠ []) (hplain : ∀ s ∈ ss, s.PlainNames)
    (hplain' : ∀ t ∈ ts, Plain t.1) : tupleInside rest ss ≠ namedInside rest' ts := by
  intro h
  have hfirst : ∃ s ∈ ss, ∃ r, Ends r ∧ tupleInside rest ss = s.chars ++ r := by
    match ss with
    | [s] => exact ⟨s, by simp, _, ends_cons (by simp), rfl⟩
    | s :: s' :: ss => exact ⟨s, by simp, _, ends_following (by simp) _ _, rfl⟩
  obtain ⟨s, hmem, r, hr, heq⟩ := hfirst
  match ts with
  | t :: ts =>
    rw [heq, namedInside, fieldChars, List.append_assoc, chars_append] at h
    obtain ⟨-, hbody⟩ := word_unique (lead_plain (hplain s hmem)) (hplain' t (by simp)).2
      (body_stops s hr) (stops_colon _) h
    have hstart := s.body_starts hr (hbody ▸ rfl : (s.body r).head? = some ':')
    simp at hstart

section Legible
variable {scope : Scope} {s t : Ty}

theorem apart_of_body (hs : s.Legible scope) (ht : t.Legible scope)
    (h : ∀ rest rest', Ends rest → Ends rest' → t.unfold.lead = s.lead →
      t.unfold.body rest' = s.body rest → s.canonicalize = t.canonicalize ∧ rest = rest') :
    Apart s t := by
  intro rest rest' hrest hrest' hchars
  obtain ⟨hlead, hbody⟩ := lead_body_unique hs ht hrest hrest' hchars
  exact h rest rest' hrest hrest' hlead hbody

theorem apart_name {name : String} (hs : s.Legible scope) (ht : t.Legible scope)
    (hname : s.expr = .name name) (hlead : s.lead = name.toList)
    (hbody : ∀ rest, s.body rest = rest) : Apart s t := by
  refine apart_of_body hs ht fun rest rest' hrest _ hlead' hbody' => ?_
  rw [hlead] at hlead'
  rw [hbody] at hbody'
  obtain ⟨rfl, heq⟩ := unfold_eq_of_name hs.coherent ht hname hrest hlead' hbody'
  exact ⟨t.canonicalize_unfold, heq⟩

theorem apart_permission {p : Permission} (hs : (permission p).Legible scope)
    (ht : t.Legible scope) : Apart (permission p) t := by
  refine apart_of_body hs ht fun rest rest' _ hrest' _ hbody => ?_
  obtain ⟨q, hu, hinside⟩ := unfold_eq_permission hrest' hbody
  have hu' : (permission q).Legible scope := hu ▸ ht.unfold
  have hplain : ∀ event ∈ p.eventSet, Plain event := fun event hevent =>
    hs.plain.self event ((p.mem_eventSet event).1 hevent)
  have hplain' : ∀ event ∈ q.eventSet, Plain event := fun event hevent =>
    hu'.plain.self event ((q.mem_eventSet event).1 hevent)
  obtain ⟨hevents, heq⟩ := eventsInside_unique hplain hplain' hinside.symm
  have hcanonical : q.canonical = p.canonical := by
    rw [Permission.canonical, Permission.canonical, hevents]
  exact ⟨(canonicalize_eq_permission.2 ⟨q, hu, hcanonical⟩).symm, heq⟩

theorem apart_seq {element : Ty} (hs : (seq element).Legible scope) (ht : t.Legible scope)
    (helement : ∀ other : Ty, other.Legible scope → Apart element other) :
    Apart (seq element) t := by
  refine apart_of_body hs ht fun rest rest' _ hrest' hlead hbody => ?_
  obtain ⟨other, hu, hinside⟩ := unfold_eq_seq hrest' hlead hbody
  have hu' : (seq other).Legible scope := hu ▸ ht.unfold
  obtain ⟨htree, heq⟩ := helement other (hu'.part (List.mem_singleton_self other)) _ _
    (ends_cons (by simp)) (ends_cons (by simp)) hinside.symm
  exact ⟨(canonicalize_eq_seq.2 ⟨other, hu, htree.symm⟩).symm, (List.cons.inj heq).2⟩

theorem apart_set {element : Ty} (hs : (set element).Legible scope) (ht : t.Legible scope)
    (helement : ∀ other : Ty, other.Legible scope → Apart element other) :
    Apart (set element) t := by
  refine apart_of_body hs ht fun rest rest' _ hrest' hlead hbody => ?_
  obtain ⟨other, hu, hinside⟩ := unfold_eq_set hrest' hlead hbody
  have hu' : (set other).Legible scope := hu ▸ ht.unfold
  obtain ⟨htree, heq⟩ := helement other (hu'.part (List.mem_singleton_self other)) _ _
    (ends_cons (by simp)) (ends_cons (by simp)) hinside.symm
  exact ⟨(canonicalize_eq_set.2 ⟨other, hu, htree.symm⟩).symm, (List.cons.inj heq).2⟩

theorem apart_map {key value : Ty} (hs : (map key value).Legible scope) (ht : t.Legible scope)
    (hkey : ∀ other : Ty, other.Legible scope → Apart key other)
    (hvalue : ∀ other : Ty, other.Legible scope → Apart value other) :
    Apart (map key value) t := by
  refine apart_of_body hs ht fun rest rest' _ hrest' hlead hbody => ?_
  obtain ⟨k, v, hu, hinside⟩ := unfold_eq_map hrest' hlead hbody
  have hu' : (map k v).Legible scope := hu ▸ ht.unfold
  obtain ⟨hk, hafter⟩ := hkey k (hu'.part (by simp [parts])) _ _
    (ends_cons (by simp)) (ends_cons (by simp)) hinside.symm
  obtain ⟨hv, heq⟩ := hvalue v (hu'.part (by simp [parts])) _ _
    (ends_cons (by simp)) (ends_cons (by simp)) (List.cons.inj (List.cons.inj hafter).2).2
  exact ⟨(canonicalize_eq_map.2 ⟨k, v, hu, hk.symm, hv.symm⟩).symm, (List.cons.inj heq).2⟩

theorem apart_tuple {elements : List Ty} (hs : (tuple elements).Legible scope)
    (ht : t.Legible scope)
    (helements : ∀ element ∈ elements, ∀ other : Ty, other.Legible scope → Apart element other) :
    Apart (tuple elements) t := by
  refine apart_of_body hs ht fun rest rest' _ hrest' _ hbody => ?_
  have hne : elements ≠ [] := hs.coherent.declares
  rcases unfold_eq_tuple_or_named hrest' hbody with ⟨others, hu, hinside⟩ | ⟨fields, hu, hinside⟩
  · have hu' : (tuple others).Legible scope := hu ▸ ht.unfold
    obtain ⟨htrees, heq⟩ := tupleInside_unique hne hu'.coherent.declares
      (fun s hmem t hmem' => helements s hmem t (hu'.part hmem')) hinside.symm
    rw [canonicalize, canonicalizeAll_eq_map]
    exact ⟨(canonicalize_eq_tuple.2 ⟨others, hu, htrees.symm⟩).symm, heq⟩
  · have hu' : (named fields).Legible scope := hu ▸ ht.unfold
    exact absurd hinside.symm (tupleInside_ne_namedInside hne hu'.coherent.declares
      (fun s hmem => hs.plain.part hmem) (List.forall_mem_map.1 hu'.plain.self))

theorem apart_named {fields : List (String × Ty)} (hs : (named fields).Legible scope)
    (ht : t.Legible scope)
    (hfields : ∀ field ∈ fields, ∀ other : Ty, other.Legible scope → Apart field.2 other) :
    Apart (named fields) t := by
  refine apart_of_body hs ht fun rest rest' _ hrest' _ hbody => ?_
  have hne : fields ≠ [] := hs.coherent.declares
  have hplain : ∀ field ∈ fields, Plain field.1 := List.forall_mem_map.1 hs.plain.self
  rcases unfold_eq_tuple_or_named hrest' hbody with ⟨elements, hu, hinside⟩ | ⟨others, hu, hinside⟩
  · have hu' : (tuple elements).Legible scope := hu ▸ ht.unfold
    exact absurd hinside (tupleInside_ne_namedInside hu'.coherent.declares hne
      (fun s hmem => hu'.plain.part hmem) hplain)
  · have hu' : (named others).Legible scope := hu ▸ ht.unfold
    have hitem : ∀ s ∈ fields, ∀ t ∈ others, Apart s.2 t.2 := fun s hmem t hmem' =>
      hfields s hmem t.2 (hu'.part (List.mem_map_of_mem hmem'))
    obtain ⟨htrees, heq⟩ := namedInside_unique hne hu'.coherent.declares hplain
      (List.forall_mem_map.1 hu'.plain.self) hitem hinside.symm
    rw [canonicalize, canonicalizeFields_eq_map]
    exact ⟨(canonicalize_eq_named.2 ⟨others, hu, htrees.symm⟩).symm, heq⟩

theorem apart_of_legible (hs : s.Legible scope) (ht : t.Legible scope) : Apart s t := by
  induction s using treeInduction generalizing t with
  | prim p => exact apart_name hs ht rfl rfl fun _ => rfl
  | enum decl => exact apart_name hs ht rfl rfl fun _ => rfl
  | foreign name => exact apart_name hs ht rfl rfl fun _ => rfl
  | typedef name target ih => exact ih (hs.part (List.mem_singleton_self target)) ht
  | permission p => exact apart_permission hs ht
  | seq element ih =>
    exact apart_seq hs ht fun _ => ih (hs.part (List.mem_singleton_self element))
  | set element ih =>
    exact apart_set hs ht fun _ => ih (hs.part (List.mem_singleton_self element))
  | map key value ihk ihv =>
    exact apart_map hs ht (fun _ => ihk (hs.part (by simp [parts])))
      fun _ => ihv (hs.part (by simp [parts]))
  | tuple elements ih => exact apart_tuple hs ht fun s hmem _ => ih s hmem (hs.part hmem)
  | named fields ih =>
    exact apart_named hs ht fun s hmem _ => ih s hmem (hs.part (List.mem_map_of_mem hmem))

theorem sameType_iff_of_legible (hs : s.Legible scope) (ht : t.Legible scope) :
    s.sameType t ↔ s.canonicalize = t.canonicalize := by
  rw [sameType, beq_iff_eq]
  constructor
  · intro h
    have hends : Ends [] := by simp [Ends]
    exact (apart_of_legible hs ht [] [] hends hends (by rw [chars, h])).1
  · intro h
    rw [← s.canonicalText_canonicalize, h, t.canonicalText_canonicalize]

end Legible

end Ty
end MachineLang
