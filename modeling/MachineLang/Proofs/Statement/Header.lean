import MachineLang.Proofs.Expr.Reading
import MachineLang.Proofs.Statement.Pieces
import MachineLang.Proofs.Statement.Rows

set_option autoImplicit false

namespace MachineLang
open Text Reading

/-- The location as far as the dump shows it. -/
def DumpOptions.shown (options : DumpOptions) (loc : Location) : Location :=
  if options.spans then loc else .origin

namespace Action

def labels : Action → List String
  | goto state _ => [state]
  | call function _ => [function]
  | _ => []

end Action

theorem Location.toList_text (l : Location) :
    l.text.toList = '#' :: ((toString l.source).toList ++ '@' :: ((toString l.start).toList ++
      '.' :: '.' :: (toString l.stop).toList)) := by
  simp only [text, String.toList_append, List.append_assoc]
  rfl

theorem Location.not_mem_digits {n : Nat} {c : Char} (hc : c.isDigit = false) :
    c ∉ (toString n).toList := by
  intro hmem
  exact Bool.false_ne_true (hc.symm.trans (isDigit_toString hmem))

theorem Location.text_unique {k l : Location} (h : k.text = l.text) : k = l := by
  replace h := congrArg String.toList h
  rw [toList_text, toList_text] at h
  obtain ⟨hsource, h⟩ := upTo_unique (not_mem_digits (by decide)) (not_mem_digits (by decide))
    (List.cons.inj h).2
  obtain ⟨hstart, h⟩ := upTo_unique (not_mem_digits (by decide)) (not_mem_digits (by decide)) h
  have hstop := toString_nat_unique (String.toList_inj.1 (List.cons.inj h).2)
  replace hsource := toString_nat_unique (String.toList_inj.1 hsource)
  replace hstart := toString_nat_unique (String.toList_inj.1 hstart)
  cases k
  cases l
  simp_all

theorem Location.newline_not_mem_text (l : Location) : '\n' ∉ l.text.toList := by
  have hdigits : ∀ n : Nat, '\n' ∉ (toString n).toList := fun n => not_mem_digits (by decide)
  rw [toList_text]
  simp only [List.mem_cons, List.mem_append, not_or]
  exact ⟨by decide, hdigits _, by decide, hdigits _, by decide, by decide, hdigits _⟩

namespace Reading

/-- What may follow the text of a statement in its line: nothing, or a location. -/
def Tail (rest : List Char) : Prop := rest = [] ∨ ∃ cs, rest = ' ' :: '#' :: cs

theorem Tail.delimits {rest : List Char} (h : Tail rest) : Delimits rest := by
  intro c hc
  obtain rfl | ⟨cs, rfl⟩ := h
  · exact absurd hc (by simp)
  · exact delimits_cons (by decide) c hc

end Reading

def payloadChars (rest : List Char) : Option Expr → List Char
  | none => rest
  | some payload => ',' :: ' ' :: (payload.chars ++ rest)

theorem toList_payloadText_append (payload : Option Expr) (rest : List Char) :
    (payloadText payload).toList ++ rest = payloadChars rest payload := by
  cases payload with
  | none => rfl
  | some payload =>
    simp only [payloadText, String.toList_append, List.append_assoc]
    rfl

theorem newline_not_mem_payloadText {payload : Option Expr}
    (h : ∀ e ∈ payload, '\n' ∉ e.text.toList) : '\n' ∉ (payloadText payload).toList := by
  cases payload with
  | none => simp [payloadText]
  | some payload => simpa [payloadText, String.toList_append] using h

theorem delimits_payloadChars (payload : Option Expr) {rest : List Char} (hrest : Tail rest) :
    Delimits (payloadChars rest payload) := by
  cases payload with
  | none => exact hrest.delimits
  | some payload => exact delimits_cons (by decide)

section Unique
variable {rest rest' : List Char}

theorem Reading.Tail.ne_comma (hrest : Tail rest) {cs : List Char} : rest ≠ ',' :: cs := by
  rintro rfl
  obtain h | ⟨cs, h⟩ := hrest
  · exact absurd h (List.cons_ne_nil _ _)
  · exact absurd (List.cons.inj h).1 (by decide)

theorem payload_unique {p q : Option Expr} (hp : ∀ e ∈ p, e.WellNamed) (hq : ∀ e ∈ q, e.WellNamed)
    (hrest : Tail rest) (hrest' : Tail rest') (h : payloadChars rest p = payloadChars rest' q) :
    p.map (Expr.erased Ty.shown) = q.map (Expr.erased Ty.shown) ∧ rest = rest' := by
  cases p with
  | none =>
    cases q with
    | none => exact ⟨rfl, h⟩
    | some e => exact absurd h hrest.ne_comma
  | some d =>
    cases q with
    | none => exact absurd h.symm hrest'.ne_comma
    | some e =>
      obtain ⟨herased, hrest⟩ := (hp d rfl).readable (hq e rfl) hrest.delimits hrest'.delimits
        (List.cons.inj (List.cons.inj h).2).2
      exact ⟨congrArg some herased, hrest⟩

theorem label_unique {m n : String} (hm : isIdentifier m) (hn : isIdentifier n)
    (hrest : Stops rest) (hrest' : Stops rest')
    (h : ' ' :: (m.toList ++ rest) = ' ' :: (n.toList ++ rest')) : m = n ∧ rest = rest' := by
  obtain ⟨hname, hrest⟩ := word_unique (word_of_isIdentifier hm).not_marks
    (word_of_isIdentifier hn).not_marks hrest hrest' (List.cons.inj h).2
  exact ⟨String.toList_inj.1 hname, hrest⟩

theorem Reading.Tail.ne_operand (hrest : Tail rest) {e : Expr} (he : e.WellNamed) :
    rest ≠ ' ' :: (e.chars ++ rest') := by
  rintro rfl
  obtain h | ⟨cs, h⟩ := hrest
  · exact absurd h (List.cons_ne_nil _ _)
  · exact Expr.chars_append_ne he (by decide) (fun _ => by decide) (List.cons.inj h).2

theorem operand_unique {d e : Expr} (hd : d.WellNamed) (he : e.WellNamed) (hrest : Delimits rest)
    (hrest' : Delimits rest') (h : ' ' :: (d.chars ++ rest) = ' ' :: (e.chars ++ rest')) :
    d.erased Ty.shown = e.erased Ty.shown ∧ rest = rest' :=
  hd.readable he hrest hrest' (List.cons.inj h).2

theorem event_unique {d e : Expr} {p q : Option Expr}
    (hd : d.WellNamed ∧ ∀ payload ∈ p, payload.WellNamed)
    (he : e.WellNamed ∧ ∀ payload ∈ q, payload.WellNamed) (hrest : Tail rest) (hrest' : Tail rest')
    (h : ' ' :: (d.chars ++ payloadChars rest p) = ' ' :: (e.chars ++ payloadChars rest' q)) :
    d.erased Ty.shown = e.erased Ty.shown ∧
      p.map (Expr.erased Ty.shown) = q.map (Expr.erased Ty.shown) ∧ rest = rest' := by
  obtain ⟨hevent, h⟩ := operand_unique hd.1 he.1 (delimits_payloadChars p hrest)
    (delimits_payloadChars q hrest') h
  exact ⟨hevent, payload_unique hd.2 he.2 hrest hrest' h⟩

end Unique

namespace Action

def Legible (a : Action) : Prop :=
  (∀ name ∈ a.labels, isIdentifier name) ∧ ∀ e ∈ a.operands, e.WellNamed

/-- The text of the action behind its name, and what comes after the text. -/
def detailChars (rest : List Char) : Action → List Char
  | assign target value => ' ' :: (target.chars ++ ' ' :: '=' :: ' ' :: (value.chars ++ rest))
  | returnWith none | breakLoop | continueLoop => rest
  | returnWith (some value) => ' ' :: (value.chars ++ rest)
  | assert condition message =>
    ' ' :: (condition.chars ++ ',' :: ' ' :: ((Text.quoted message).toList ++ rest))
  | print message => ' ' :: (message.chars ++ rest)
  | raise event payload => ' ' :: (event.chars ++ payloadChars rest payload)
  | send machine event payload =>
    ' ' :: (machine.chars ++ ',' :: ' ' :: (event.chars ++ payloadChars rest payload))
  | goto state payload => ' ' :: (state.toList ++ payloadChars rest payload)
  | call function arguments =>
    ' ' :: (function.toList ++ '(' :: Expr.argumentsInside rest arguments)

theorem toList_detail_append (a : Action) (rest : List Char) :
    a.detail.toList ++ rest = a.detailChars rest := by
  cases a with
  | returnWith value =>
    cases value with
    | none => rfl
    | some value =>
      simp only [detail, String.toList_append, List.append_assoc]
      rfl
  | breakLoop | continueLoop => rfl
  | assign | print =>
    simp only [detail, String.toList_append, List.append_assoc]
    rfl
  | assert condition message =>
    simp only [detail, detailChars, String.toList_append, List.append_assoc]
    generalize Text.quoted message = shown
    rfl
  | raise | send | goto =>
    simp only [detail, String.toList_append, List.append_assoc, toList_payloadText_append]
    rfl
  | call =>
    simp only [detail, String.toList_append, List.append_assoc, Expr.toList_callText_append]
    rfl

section Unique
variable {a b : Action} {rest rest' : List Char}

theorem return_unique {v w : Option Expr} (hv : ∀ e ∈ v, e.WellNamed) (hw : ∀ e ∈ w, e.WellNamed)
    (hrest : Tail rest) (hrest' : Tail rest')
    (h : (returnWith v).detailChars rest = (returnWith w).detailChars rest') :
    v.map (Expr.erased Ty.shown) = w.map (Expr.erased Ty.shown) ∧ rest = rest' := by
  cases v with
  | none =>
    cases w with
    | none => exact ⟨rfl, h⟩
    | some e => exact absurd h (hrest.ne_operand (hw e rfl))
  | some d =>
    cases w with
    | none => exact absurd h.symm (hrest'.ne_operand (hv d rfl))
    | some e =>
      obtain ⟨hvalue, hrest⟩ :=
        operand_unique (hv d rfl) (hw e rfl) hrest.delimits hrest'.delimits h
      exact ⟨congrArg some hvalue, hrest⟩

theorem detail_unique (ha : a.Legible) (hb : b.Legible) (hname : a.name = b.name)
    (hrest : Tail rest) (hrest' : Tail rest') (h : a.detailChars rest = b.detailChars rest') :
    a.map (Expr.erased Ty.shown) = b.map (Expr.erased Ty.shown) ∧ rest = rest' := by
  obtain ⟨halabels, haoperands⟩ := ha
  obtain ⟨hblabels, hboperands⟩ := hb
  cases a with
  | assign target value =>
    cases b with
    | assign target' value' =>
      simp only [operands, List.forall_mem_cons] at haoperands hboperands
      obtain ⟨htarget, h⟩ := operand_unique haoperands.1 hboperands.1 (delimits_cons (by decide))
        (delimits_cons (by decide)) h
      obtain ⟨hvalue, hrest⟩ := operand_unique haoperands.2.1 hboperands.2.1 hrest.delimits
        hrest'.delimits (List.cons.inj (List.cons.inj h).2).2
      exact ⟨by rw [map, map, htarget, hvalue], hrest⟩
    | _ => simp [name] at hname
  | returnWith value =>
    cases b with
    | returnWith value' =>
      obtain ⟨hvalue, hrest⟩ := return_unique (by simpa [operands] using haoperands)
        (by simpa [operands] using hboperands) hrest hrest' h
      exact ⟨by rw [map, map, hvalue], hrest⟩
    | _ => simp [name] at hname
  | breakLoop =>
    cases b with
    | breakLoop => exact ⟨rfl, h⟩
    | _ => simp [name] at hname
  | continueLoop =>
    cases b with
    | continueLoop => exact ⟨rfl, h⟩
    | _ => simp [name] at hname
  | assert condition message =>
    cases b with
    | assert condition' message' =>
      simp only [operands, List.forall_mem_cons] at haoperands hboperands
      obtain ⟨hcondition, h⟩ := operand_unique haoperands.1 hboperands.1
        (delimits_cons (by decide)) (delimits_cons (by decide)) h
      obtain ⟨rfl, hrest⟩ := quoted_unique (List.cons.inj (List.cons.inj h).2).2
      exact ⟨by rw [map, map, hcondition], hrest⟩
    | _ => simp [name] at hname
  | print message =>
    cases b with
    | print message' =>
      simp only [operands, List.forall_mem_cons] at haoperands hboperands
      obtain ⟨hmessage, hrest⟩ := operand_unique haoperands.1 hboperands.1 hrest.delimits
        hrest'.delimits h
      exact ⟨by rw [map, map, hmessage], hrest⟩
    | _ => simp [name] at hname
  | raise event payload =>
    cases b with
    | raise event' payload' =>
      simp only [operands, List.forall_mem_cons, Option.mem_toList] at haoperands hboperands
      obtain ⟨hevent, hpayload, hrest⟩ := event_unique haoperands hboperands hrest hrest' h
      exact ⟨by rw [map, map, hevent, hpayload], hrest⟩
    | _ => simp [name] at hname
  | send machine event payload =>
    cases b with
    | send machine' event' payload' =>
      simp only [operands, List.forall_mem_cons, Option.mem_toList] at haoperands hboperands
      obtain ⟨hmachine, h⟩ := operand_unique haoperands.1 hboperands.1
        (delimits_cons (by decide)) (delimits_cons (by decide)) h
      obtain ⟨hevent, hpayload, hrest⟩ :=
        event_unique haoperands.2 hboperands.2 hrest hrest' (List.cons.inj h).2
      exact ⟨by rw [map, map, hmachine, hevent, hpayload], hrest⟩
    | _ => simp [name] at hname
  | goto state payload =>
    cases b with
    | goto state' payload' =>
      simp only [operands, Option.mem_toList] at haoperands hboperands
      obtain ⟨hstate, h⟩ := label_unique (halabels state (List.mem_singleton_self _))
        (hblabels state' (List.mem_singleton_self _)) (delimits_payloadChars payload hrest).stops
        (delimits_payloadChars payload' hrest').stops h
      obtain ⟨hpayload, hrest⟩ := payload_unique haoperands hboperands hrest hrest' h
      exact ⟨by rw [map, map, hstate, hpayload], hrest⟩
    | _ => simp [name] at hname
  | call function arguments =>
    cases b with
    | call function' arguments' =>
      obtain ⟨hfunction, h⟩ := label_unique (halabels function (List.mem_singleton_self _))
        (hblabels function' (List.mem_singleton_self _)) stops_open stops_open h
      have hreadable : ∀ e ∈ arguments, e.WellNamed ∧ e.Readable := fun e he =>
        ⟨haoperands e he, (haoperands e he).readable⟩
      have hnamed : ∀ e ∈ arguments', e.WellNamed := hboperands
      obtain ⟨harguments, hrest⟩ := Expr.arguments_unique hreadable hnamed (List.cons.inj h).2
      exact ⟨by rw [map, map, hfunction, harguments], hrest⟩
    | _ => simp [name] at hname

theorem detailChars_stops (a : Action) (hrest : Stops rest) : Stops (a.detailChars rest) := by
  cases a with
  | returnWith value =>
    cases value with
    | none => exact hrest
    | some value => exact (delimits_cons (by decide)).stops
  | breakLoop | continueLoop => exact hrest
  | assign | assert | print | raise | send | goto | call =>
    exact (delimits_cons (by decide)).stops

end Unique

theorem newline_not_mem_detail {a : Action} (hlabels : ∀ name ∈ a.labels, '\n' ∉ name.toList)
    (hoperands : ∀ e ∈ a.operands, e.Unbroken) : '\n' ∉ a.detail.toList := by
  have hchars : ∀ e ∈ a.operands, '\n' ∉ e.text.toList := fun e he =>
    Expr.newline_not_mem_chars (hoperands e he)
  cases a with
  | breakLoop | continueLoop => simp [detail]
  | call function arguments =>
    have hfunction := hlabels function (List.mem_singleton_self _)
    have hcall := Expr.newline_not_mem_callText hfunction hchars
    simp only [detail, String.toList_append, List.mem_append, not_or]
    exact ⟨by decide, hcall⟩
  | goto state payload =>
    have hstate := hlabels state (List.mem_singleton_self _)
    have hpayload := newline_not_mem_payloadText fun e he => hchars e (by simpa [operands] using he)
    simp only [detail, String.toList_append, List.mem_append, not_or]
    exact ⟨⟨by decide, hstate⟩, hpayload⟩
  | returnWith value =>
    cases value with
    | none => simp [detail]
    | some value => simpa [detail, operands, String.toList_append] using hchars
  | assign | print =>
    simpa [detail, operands, String.toList_append] using hchars
  | assert condition message =>
    have hmessage := newline_not_mem_quoted message
    simpa [detail, operands, String.toList_append, hmessage] using hchars
  | raise event payload =>
    have hpayload : '\n' ∉ (payloadText payload).toList :=
      newline_not_mem_payloadText fun e he => hchars e (by simp [operands, Option.mem_def.1 he])
    simpa [detail, String.toList_append, hpayload] using hchars event (by simp [operands])
  | send machine event payload =>
    have hpayload : '\n' ∉ (payloadText payload).toList :=
      newline_not_mem_payloadText fun e he => hchars e (by simp [operands, Option.mem_def.1 he])
    have hmachine := hchars machine (by simp [operands])
    simpa [detail, String.toList_append, hpayload, hmachine] using
      hchars event (by simp [operands])

def names : List String :=
  ["Assign", "Return", "Break", "Continue", "Assert", "Print", "Raise", "Send", "Goto", "Call"]

theorem name_mem_names (a : Action) : a.name ∈ names := by
  cases a <;> simp [name, names]

end Action

def DumpOptions.spanChars (options : DumpOptions) (loc : Location) : List Char :=
  if options.spans then ' ' :: loc.text.toList else []

theorem DumpOptions.tail_spanChars (options : DumpOptions) (loc : Location) :
    Tail (options.spanChars loc) := by
  unfold spanChars
  split
  · exact .inr ⟨_, by rw [Location.toList_text]⟩
  · exact .inl rfl

theorem DumpOptions.shown_unique {options : DumpOptions} {k l : Location}
    (h : options.spanChars k = options.spanChars l) : options.shown k = options.shown l := by
  cases hspans : options.spans with
  | true =>
    simp only [spanChars, hspans, if_true] at h
    simp only [shown, hspans, if_true]
    exact Location.text_unique (String.toList_inj.1 (List.cons.inj h).2)
  | false => simp only [shown, hspans, Bool.false_eq_true, if_false]

namespace Statement

def labels : Statement → List String
  | action _ a => a.labels
  | _ => []

/-- The names and expressions of the statement's own line can be read back. -/
def LegibleLine (s : Statement) : Prop :=
  (∀ name ∈ s.labels, isIdentifier name) ∧ ∀ e ∈ s.heads, e.WellNamed

instance (s : Statement) : Decidable s.LegibleLine := inferInstanceAs (Decidable (_ ∧ _))

/-- No name in the statement's own line holds a line break. -/
def UnbrokenLine (s : Statement) : Prop :=
  (∀ name ∈ s.labels, '\n' ∉ name.toList) ∧ ∀ e ∈ s.heads, e.Unbroken

instance (s : Statement) : Decidable s.UnbrokenLine := inferInstanceAs (Decidable (_ ∧ _))

theorem LegibleLine.unbroken {s : Statement} (h : s.LegibleLine) : s.UnbrokenLine :=
  ⟨fun name hname => (word_of_isIdentifier (h.1 name hname)).not_mem (by decide),
    fun e he => (h.2 e he).unbroken⟩

/-- What the statement's own line shows: all but the blocks. -/
def front (options : DumpOptions) : Statement → Statement
  | noOp loc => noOp (options.shown loc)
  | action loc a => action (options.shown loc) (a.map (Expr.erased Ty.shown))
  | compound block => compound (.empty (options.shown block.loc))
  | branch loc condition _ _ =>
    branch (options.shown loc) (condition.erased Ty.shown) (.empty .origin) (.empty .origin)
  | loop loc condition _ =>
    loop (options.shown loc) (condition.erased Ty.shown) (.empty .origin)

def detailChars (rest : List Char) : Statement → List Char
  | noOp _ | compound _ => rest
  | action _ a => a.detailChars rest
  | branch _ condition _ _ | loop _ condition _ => ' ' :: (condition.chars ++ rest)

theorem toList_header (options : DumpOptions) (s : Statement) :
    (s.header options).toList = s.name.toList ++ s.detailChars (options.spanChars s.loc) := by
  have hspan : (if options.spans then " " ++ s.loc.text else "").toList =
      options.spanChars s.loc := by
    unfold DumpOptions.spanChars
    split
    · rw [String.toList_append]
      rfl
    · rfl
  have hdetail : ∀ rest, s.detail.toList ++ rest = s.detailChars rest := by
    intro rest
    cases s with
    | noOp | compound => rfl
    | action loc a => exact a.toList_detail_append rest
    | branch | loop =>
      simp only [detail, String.toList_append, List.append_assoc]
      rfl
  rw [header, String.toList_append, String.toList_append, hspan, List.append_assoc, hdetail]

def names : List String := ["NoOp", "Compound", "If", "While"]

theorem word_name (s : Statement) : Word s.name.toList := by
  have hwords : ∀ name ∈ names ++ Action.names, Word name.toList := by
    simp [names, Action.names, Word, isWordChar]
  refine hwords s.name ?_
  cases s with
  | action loc a => exact List.mem_append_right names a.name_mem_names
  | noOp | compound | branch | loop => simp [name, names]

theorem action_name_ne (a : Action) : a.name ∉ names := by
  intro hmem
  exact (by decide : ∀ name ∈ Action.names, name ∉ names) a.name a.name_mem_names hmem

theorem detailChars_stops (s : Statement) {rest : List Char} (hrest : Stops rest) :
    Stops (s.detailChars rest) := by
  cases s with
  | noOp | compound => exact hrest
  | action loc a => exact a.detailChars_stops hrest
  | branch | loop => exact (delimits_cons (by decide)).stops

section Unique
variable {options : DumpOptions} {s t : Statement}

theorem front_unique (hs : s.LegibleLine) (ht : t.LegibleLine) (hname : s.name = t.name)
    (h : s.detailChars (options.spanChars s.loc) = t.detailChars (options.spanChars t.loc)) :
    s.front options = t.front options := by
  have hstail := options.tail_spanChars s.loc
  have httail := options.tail_spanChars t.loc
  have hkind : s.name ∈ names ↔ t.name ∈ names := by rw [hname]
  cases s with
  | noOp loc =>
    cases t with
    | noOp loc' => exact congrArg noOp (DumpOptions.shown_unique h)
    | action loc' b => exact absurd (hkind.1 (by simp [name, names])) (action_name_ne b)
    | _ => simp [name] at hname
  | compound block =>
    cases t with
    | compound block' =>
      exact congrArg (fun l => compound (.empty l)) (DumpOptions.shown_unique h)
    | action loc' b => exact absurd (hkind.1 (by simp [name, names])) (action_name_ne b)
    | _ => simp [name] at hname
  | action loc a =>
    cases t with
    | action loc' b =>
      obtain ⟨haction, hspan⟩ := Action.detail_unique hs ht hname hstail httail h
      have hloc : options.shown loc = options.shown loc' := DumpOptions.shown_unique hspan
      rw [front, front, haction, hloc]
    | _ => exact absurd (hkind.2 (by simp [name, names])) (action_name_ne a)
  | branch loc condition thenBlock elseBlock =>
    cases t with
    | branch loc' condition' thenBlock' elseBlock' =>
      obtain ⟨hcondition, hspan⟩ := operand_unique (hs.2 condition (List.mem_singleton_self _))
        (ht.2 condition' (List.mem_singleton_self _)) hstail.delimits httail.delimits h
      have hloc : options.shown loc = options.shown loc' := DumpOptions.shown_unique hspan
      rw [front, front, hcondition, hloc]
    | action loc' b => exact absurd (hkind.1 (by simp [name, names])) (action_name_ne b)
    | _ => simp [name] at hname
  | loop loc condition body =>
    cases t with
    | loop loc' condition' body' =>
      obtain ⟨hcondition, hspan⟩ := operand_unique (hs.2 condition (List.mem_singleton_self _))
        (ht.2 condition' (List.mem_singleton_self _)) hstail.delimits httail.delimits h
      have hloc : options.shown loc = options.shown loc' := DumpOptions.shown_unique hspan
      rw [front, front, hcondition, hloc]
    | action loc' b => exact absurd (hkind.1 (by simp [name, names])) (action_name_ne b)
    | _ => simp [name] at hname

/-- Statements with equal lines differ at most in their blocks and in what a dump hides. -/
theorem header_unique (hs : s.LegibleLine) (ht : t.LegibleLine)
    (h : s.header options = t.header options) : s.front options = t.front options := by
  have hchars := congrArg String.toList h
  rw [toList_header, toList_header] at hchars
  obtain ⟨hname, hdetail⟩ := word_unique s.word_name.not_marks t.word_name.not_marks
    (s.detailChars_stops (options.tail_spanChars s.loc).delimits.stops)
    (t.detailChars_stops (options.tail_spanChars t.loc).delimits.stops) hchars
  exact front_unique hs ht (String.toList_inj.1 hname) hdetail

theorem newline_not_mem_detail (h : s.UnbrokenLine) : '\n' ∉ s.detail.toList := by
  cases s with
  | noOp | compound => simp [detail]
  | action loc a => exact Action.newline_not_mem_detail h.1 h.2
  | branch loc condition | loop loc condition =>
    have hcondition := Expr.newline_not_mem_chars (h.2 condition (List.mem_singleton_self _))
    simpa [detail, String.toList_append] using hcondition

theorem newline_not_mem_header (h : s.UnbrokenLine) : '\n' ∉ (s.header options).toList := by
  have hspan : '\n' ∉ (if options.spans then " " ++ s.loc.text else "").toList := by
    split
    · simpa [String.toList_append] using s.loc.newline_not_mem_text
    · simp
  simp only [header, String.toList_append, List.mem_append, not_or]
  exact ⟨⟨s.word_name.not_mem (by decide), newline_not_mem_detail h⟩, hspan⟩

theorem printable_header (h : s.LegibleLine) : Row.Printable (s.header options) := by
  refine ⟨newline_not_mem_header h.unbroken, fun hblank => ?_⟩
  obtain ⟨cs, hcs⟩ := List.head?_eq_some_iff.1 hblank
  rw [toList_header] at hcs
  exact s.word_name.append_ne (by decide) hcs

end Unique

end Statement

end MachineLang
