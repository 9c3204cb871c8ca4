import MachineLang.Proofs.Expr.Tree
import MachineLang.Proofs.Text.Quoted
import MachineLang.Proofs.Text.Word

set_option autoImplicit false

namespace MachineLang

def Location.origin : Location := ⟨0, 0, 0, by decide⟩

/-- A type as far as its text shows it. -/
def Ty.shown (t : Ty) : Ty := .foreign t.writtenText

namespace Expr
open Text Reading

def labels : Expr → List String
  | var _ name => [name]
  | call _ function _ => [function]
  | defaultOf _ type => type.names
  | int .. | bool .. | str .. | null _ | this _ => []

/-- Whether the node's name is that of another kind of expression. -/
def isMisnamed : Expr → Bool
  | var _ name => name ∈ ["true", "false", "null", "this"]
  | call _ function _ => function == "default"
  | _ => false

/-- The names in the expression are identifiers, and none of them is a word of another kind. -/
def WellNamed (e : Expr) : Prop :=
  ∀ d ∈ e.nodes, (∀ name ∈ d.labels, isIdentifier name) ∧ d.isMisnamed = false

instance (e : Expr) : Decidable e.WellNamed :=
  inferInstanceAs (Decidable (∀ d ∈ e.nodes, _ ∧ _))

theorem WellNamed.self {e : Expr} (h : e.WellNamed) :
    (∀ name ∈ e.labels, isIdentifier name) ∧ e.isMisnamed = false :=
  h e e.self_mem_nodes

theorem WellNamed.child {d e : Expr} (h : e.WellNamed) (hd : d ∈ e.children) : d.WellNamed :=
  fun c hc => h c (mem_nodes_of_child hd hc)

mutual

/-- The expression without its locations, and with the given types in place of its own. -/
def erased (types : Ty → Ty) : Expr → Expr
  | var _ name => var .origin name
  | int _ value => int .origin value
  | bool _ value => bool .origin value
  | str _ value => str .origin value
  | null _ => null .origin
  | this _ => this .origin
  | defaultOf _ type => defaultOf .origin (types type)
  | call _ function arguments => call .origin function (erasedAll types arguments)

def erasedAll (types : Ty → Ty) : List Expr → List Expr
  | [] => []
  | e :: es => e.erased types :: erasedAll types es

end

theorem erasedAll_eq_map (types : Ty → Ty) (es : List Expr) :
    erasedAll types es = es.map (erased types) := by
  induction es with
  | nil => rfl
  | cons e es ih => rw [erasedAll, ih, List.map_cons]

theorem text_erased (e : Expr) : (e.erased Ty.shown).text = e.text := by
  induction e using treeInduction with
  | call loc function arguments ih =>
    have harguments : arguments.map (text ∘ erased Ty.shown) = arguments.map text :=
      List.map_congr_left ih
    simp only [erased, text, texts_eq_map, erasedAll_eq_map, List.map_map, harguments]
  | var | int | bool | str | null | this | defaultOf => rfl

abbrev chars (e : Expr) : List Char := e.text.toList

def isStr : Expr → Bool
  | str .. => true
  | _ => false

def lead : Expr → List Char
  | defaultOf .. => "default".toList
  | call _ function _ => function.toList
  | e => e.chars

/-- What stands after the opening bracket of a call, and what comes after the call. -/
def argumentsInside (rest : List Char) : List Expr → List Char
  | [] => ')' :: rest
  | e :: es => e.chars ++ following (es.map chars) (')' :: rest)

def body (rest : List Char) : Expr → List Char
  | defaultOf _ type => '(' :: (type.writtenText.toList ++ ')' :: rest)
  | call _ _ arguments => '(' :: argumentsInside rest arguments
  | _ => rest

theorem toList_callText_append (function : String) (arguments : List Expr) (rest : List Char) :
    (callText function (texts arguments)).toList ++ rest =
      function.toList ++ '(' :: argumentsInside rest arguments := by
  rw [texts_eq_map]
  cases arguments with
  | nil => simp [callText, argumentsInside, String.toList_append]
  | cons e es =>
    have h := intercalate_append text chars (fun _ => rfl) e es (')' :: rest)
    simpa [callText, argumentsInside, String.toList_append] using h

theorem chars_append (e : Expr) (rest : List Char) : e.chars ++ rest = e.lead ++ e.body rest := by
  cases e with
  | defaultOf loc type =>
    simp only [chars, text, String.toList_append, List.append_assoc]
    rfl
  | call loc function arguments => exact toList_callText_append function arguments rest
  | var | int | bool | str | null | this => rfl

theorem word_keyword {word : String} (h : word ∈ ["true", "false", "null", "this", "default"]) :
    Word word.toList := by
  revert word
  simp [Word, isWordChar]

theorem word_lead {e : Expr} (h : e.WellNamed) (hstr : e.isStr = false) : Word e.lead := by
  cases e with
  | var loc name => exact word_of_isIdentifier (h.self.1 name (List.mem_singleton_self _))
  | call loc function arguments =>
    exact word_of_isIdentifier (h.self.1 function (List.mem_singleton_self _))
  | int loc value => exact word_toString value
  | bool loc value =>
    cases value <;> exact word_keyword (by simp [text])
  | null | this => exact word_keyword (by simp [text])
  | defaultOf => exact word_keyword (by simp)
  | str => exact absurd hstr (by simp [isStr])

theorem chars_append_ne {e : Expr} (h : e.WellNamed) {c : Char} (hc : c ∈ separators)
    (hquote : e.isStr → c ≠ '"') {rest rest' : List Char} : e.chars ++ rest ≠ c :: rest' := by
  cases e with
  | str loc value =>
    intro heq
    rw [chars, text, toList_quoted_append] at heq
    exact hquote rfl (List.cons.inj heq).1.symm
  | var | int | bool | null | this | defaultOf | call =>
    rw [chars_append]
    exact (word_lead h rfl).append_ne hc

end Expr

namespace Reading

/-- What may follow an expression. -/
def Delimits (rest : List Char) : Prop := ∀ c, rest.head? = some c → c ∈ marks ∧ c ≠ '('

theorem Ends.delimits {rest : List Char} (h : Ends rest) : Delimits rest := by
  intro c hc
  refine ⟨h.stops c hc, ?_⟩
  rintro rfl
  exact absurd (h _ hc) (by decide)

theorem Delimits.stops {rest : List Char} (h : Delimits rest) : Stops rest :=
  fun c hc => (h c hc).1

theorem delimits_cons {c : Char} {rest : List Char} (h : c ∈ marks ∧ c ≠ '(') :
    Delimits (c :: rest) := by
  intro d hd
  cases hd
  exact h

theorem stops_open {rest : List Char} : Stops ('(' :: rest) := by
  intro c hc
  cases hc
  decide

theorem not_delimits_open (rest : List Char) : ¬ Delimits ('(' :: rest) :=
  fun h => (h '(' rfl).2 rfl

end Reading

namespace Expr
open Text Reading

theorem body_stops (e : Expr) {rest : List Char} (hrest : Delimits rest) :
    Stops (e.body rest) := by
  intro c hc
  cases e with
  | defaultOf | call =>
    simp only [body, List.head?_cons, Option.some.injEq] at hc
    simp [← hc, marks]
  | var | int | bool | str | null | this => exact (hrest c hc).1

def isAtom : Expr → Bool
  | var .. | int .. | bool .. | null _ | this _ => true
  | str .. | defaultOf .. | call .. => false

def words : List (String × Expr) :=
  [("true", bool .origin true), ("false", bool .origin false), ("null", null .origin),
    ("this", this .origin)]

theorem words_unique : ∀ p ∈ words, ∀ q ∈ words, p.1 = q.1 → p.2 = q.2 := by decide

theorem isIdentifier_of_mem_words : ∀ p ∈ words, isIdentifier p.1 := by decide

theorem atom_forms {e : Expr} (h : e.WellNamed) (hatom : e.isAtom) :
    (isIdentifier e.text ∧ e.text ∉ words.map Prod.fst ∧ e.erased Ty.shown = var .origin e.text) ∨
      (∃ value, e.text = toString value ∧ e.erased Ty.shown = int .origin value) ∨
      (e.text, e.erased Ty.shown) ∈ words := by
  cases e with
  | var loc name =>
    obtain ⟨hname, hfree⟩ := h.self
    refine .inl ⟨hname name (List.mem_singleton_self _), ?_, rfl⟩
    exact of_decide_eq_false hfree
  | int loc value => exact .inr (.inl ⟨value, rfl, rfl⟩)
  | bool loc value => cases value <;> exact .inr (.inr (by simp [words, text, erased]))
  | null | this => exact .inr (.inr (by simp [words, text, erased]))
  | str | defaultOf | call => exact absurd hatom Bool.false_ne_true

theorem atom_unique {d e : Expr} (hd : d.WellNamed) (he : e.WellNamed) (hdatom : d.isAtom)
    (heatom : e.isAtom) (h : d.text = e.text) : d.erased Ty.shown = e.erased Ty.shown := by
  rcases atom_forms hd hdatom with ⟨hname, hfree, hdvar⟩ | ⟨m, hm, hdint⟩ | hdword <;>
    rcases atom_forms he heatom with ⟨hname', hfree', hevar⟩ | ⟨n, hn, heint⟩ | heword
  · rw [hdvar, hevar, h]
  · exact absurd (h.trans hn) (ne_toString_of_isIdentifier hname n)
  · exact absurd (List.mem_map_of_mem heword) (h ▸ hfree)
  · exact absurd (h.symm.trans hm) (ne_toString_of_isIdentifier hname' m)
  · have hvalue : m = n := toString_int_unique (hm.symm.trans (h.trans hn))
    rw [hdint, heint, hvalue]
  · have hword := isIdentifier_of_mem_words _ heword
    exact absurd (h.symm.trans hm) (ne_toString_of_isIdentifier hword m)
  · exact absurd (List.mem_map_of_mem hdword) (h ▸ hfree')
  · have hword := isIdentifier_of_mem_words _ hdword
    exact absurd (h.trans hn) (ne_toString_of_isIdentifier hword n)
  · exact words_unique _ hdword _ heword h

/-- Whatever follows it, the expression can be told from its text. -/
def Readable (d : Expr) : Prop :=
  ∀ ⦃e : Expr⦄ ⦃rest rest' : List Char⦄, e.WellNamed → Delimits rest → Delimits rest' →
    d.chars ++ rest = e.chars ++ rest' → d.erased Ty.shown = e.erased Ty.shown ∧ rest = rest'

theorem readable_str (loc : Location) (value : String) : (str loc value).Readable := by
  intro e rest rest' he _ _ h
  cases hstr : e.isStr with
  | true =>
    cases e with
    | str loc' value' =>
      obtain ⟨rfl, hrest⟩ := quoted_unique h
      exact ⟨rfl, hrest⟩
    | var | int | bool | null | this | defaultOf | call => exact absurd hstr Bool.false_ne_true
  | false =>
    rw [chars, text, toList_quoted_append] at h
    exact absurd h.symm (chars_append_ne he List.mem_cons_self fun he => by simp [he] at hstr)

section Unique
variable {d e : Expr} {rest rest' : List Char}

theorem isAtom_iff (hstr : e.isStr = false) (hrest : Delimits rest) :
    e.isAtom ↔ Delimits (e.body rest) := by
  cases e with
  | var | int | bool | null | this => exact iff_of_true rfl hrest
  | defaultOf | call => exact iff_of_false Bool.false_ne_true (not_delimits_open _)
  | str => exact absurd hstr.symm Bool.false_ne_true

theorem lead_body_unique (hd : d.WellNamed) (he : e.WellNamed) (hstr : d.isStr = false)
    (hrest : Delimits rest) (hrest' : Delimits rest') (h : d.chars ++ rest = e.chars ++ rest') :
    e.isStr = false ∧ d.isAtom = e.isAtom ∧ d.lead = e.lead ∧ d.body rest = e.body rest' := by
  have hestr : e.isStr = false := by
    cases e with
    | str loc value =>
      rw [chars, chars, text, toList_quoted_append] at h
      exact absurd h (chars_append_ne hd List.mem_cons_self fun hd => by simp [hd] at hstr)
    | var | int | bool | null | this | defaultOf | call => rfl
  rw [chars_append, chars_append] at h
  obtain ⟨hlead, hbody⟩ := word_unique (word_lead hd hstr).not_marks
    (word_lead he hestr).not_marks (body_stops d hrest) (body_stops e hrest') h
  have hatom : d.isAtom ↔ e.isAtom := by
    rw [isAtom_iff hstr hrest, isAtom_iff hestr hrest', hbody]
  exact ⟨hestr, Bool.eq_iff_iff.2 hatom, hlead, hbody⟩

theorem isStr_eq_false_of_isAtom (h : e.isAtom) : e.isStr = false := by
  cases e with
  | str => exact absurd h Bool.false_ne_true
  | var | int | bool | null | this | defaultOf | call => rfl

theorem lead_of_isAtom (h : e.isAtom) : e.lead = e.chars := by
  cases e with
  | var | int | bool | null | this => rfl
  | str | defaultOf | call => exact absurd h Bool.false_ne_true

theorem body_of_isAtom (h : e.isAtom) : e.body rest = rest := by
  cases e with
  | var | int | bool | null | this => rfl
  | str | defaultOf | call => exact absurd h Bool.false_ne_true

theorem readable_of_isAtom (hd : d.WellNamed) (hatom : d.isAtom) : d.Readable := by
  intro e rest rest' he hrest hrest' h
  obtain ⟨-, hsame, hlead, hbody⟩ :=
    lead_body_unique hd he (isStr_eq_false_of_isAtom hatom) hrest hrest' h
  have heatom : e.isAtom := hsame.symm.trans hatom
  rw [lead_of_isAtom hatom, lead_of_isAtom heatom] at hlead
  rw [body_of_isAtom hatom, body_of_isAtom heatom] at hbody
  exact ⟨atom_unique hd he hatom heatom (String.toList_inj.1 hlead), hbody⟩

theorem arguments_unique {ds es : List Expr} (hds : ∀ d ∈ ds, d.WellNamed ∧ d.Readable)
    (hes : ∀ e ∈ es, e.WellNamed) (h : argumentsInside rest ds = argumentsInside rest' es) :
    ds.map (erased Ty.shown) = es.map (erased Ty.shown) ∧ rest = rest' := by
  have hclose : ')' ∈ separators := by decide
  cases ds with
  | nil =>
    cases es with
    | nil => exact ⟨rfl, (List.cons.inj h).2⟩
    | cons e es =>
      exact absurd h.symm (chars_append_ne (hes e List.mem_cons_self) hclose fun _ => by decide)
  | cons d ds =>
    cases es with
    | nil =>
      exact absurd h (chars_append_ne (hds d List.mem_cons_self).1 hclose fun _ => by decide)
    | cons e es =>
      exact items_unique (erased Ty.shown) (by decide) (fun x hx y hy r r' hr hr' heq =>
        (hds x hx).2 (hes y hy) hr.delimits hr'.delimits heq) h

theorem balanced_writtenText {loc : Location} {type : Ty} (h : (defaultOf loc type).WellNamed) :
    Balanced type.writtenText.toList := by
  refine Ty.woven_writtenText woven_balanced fun name hname => ?_
  exact woven_balanced.ofWord (word_of_isIdentifier (h.self.1 name hname))

theorem readable_defaultOf {loc : Location} {type : Ty} (hd : (defaultOf loc type).WellNamed) :
    (defaultOf loc type).Readable := by
  intro e rest rest' he hrest hrest' h
  obtain ⟨hstr, hatom, hlead, hbody⟩ := lead_body_unique hd he rfl hrest hrest' h
  cases e with
  | defaultOf loc' type' =>
    obtain ⟨htype, hrest⟩ := (balanced_writtenText hd).unique (balanced_writtenText he)
      (List.cons.inj hbody).2
    refine ⟨?_, hrest⟩
    rw [erased, erased, Ty.shown, Ty.shown, String.toList_inj.1 htype]
  | call loc' function arguments =>
    have hname : "default" = function := String.toList_inj.1 hlead
    exact absurd he.self.2 (by simp [isMisnamed, hname])
  | var | int | bool | null | this => exact absurd hatom Bool.false_ne_true
  | str => exact absurd hstr.symm Bool.false_ne_true

theorem readable_call {loc : Location} {function : String} {arguments : List Expr}
    (hd : (call loc function arguments).WellNamed) (ih : ∀ e ∈ arguments, e.Readable) :
    (call loc function arguments).Readable := by
  intro e rest rest' he hrest hrest' h
  obtain ⟨hstr, hatom, hlead, hbody⟩ := lead_body_unique hd he rfl hrest hrest' h
  cases e with
  | call loc' function' arguments' =>
    have hds : ∀ d ∈ arguments, d.WellNamed ∧ d.Readable :=
      fun d hmem => ⟨hd.child hmem, ih d hmem⟩
    have hes : ∀ e ∈ arguments', e.WellNamed := fun e hmem => he.child hmem
    obtain ⟨harguments, hrest⟩ := arguments_unique hds hes (List.cons.inj hbody).2
    refine ⟨?_, hrest⟩
    rw [erased, erased, erasedAll_eq_map, erasedAll_eq_map, String.toList_inj.1 hlead, harguments]
  | defaultOf loc' type' =>
    have hname : function = "default" := String.toList_inj.1 hlead
    exact absurd hd.self.2 (by simp [isMisnamed, hname])
  | var | int | bool | null | this => exact absurd hatom Bool.false_ne_true
  | str => exact absurd hstr.symm Bool.false_ne_true

end Unique

theorem WellNamed.readable {d : Expr} (h : d.WellNamed) : d.Readable := by
  induction d using treeInduction with
  | str loc value => exact readable_str loc value
  | defaultOf loc type => exact readable_defaultOf h
  | call loc function arguments ih => exact readable_call h fun e he => ih e he (h.child he)
  | var | int | bool | null | this => exact readable_of_isAtom h rfl

def Unbroken (e : Expr) : Prop := ∀ d ∈ e.nodes, ∀ name ∈ d.labels, '\n' ∉ name.toList

instance (e : Expr) : Decidable e.Unbroken :=
  inferInstanceAs (Decidable (∀ d ∈ e.nodes, ∀ name ∈ d.labels, _))

theorem Unbroken.self {e : Expr} (h : e.Unbroken) : ∀ name ∈ e.labels, '\n' ∉ name.toList :=
  h e e.self_mem_nodes

theorem Unbroken.child {d e : Expr} (h : e.Unbroken) (hd : d ∈ e.children) : d.Unbroken :=
  fun c hc => h c (mem_nodes_of_child hd hc)

theorem WellNamed.unbroken {e : Expr} (h : e.WellNamed) : e.Unbroken :=
  fun d hd name hname => (word_of_isIdentifier ((h d hd).1 name hname)).not_mem (by decide)

theorem newline_not_mem_callText {function : String} {arguments : List Expr}
    (hfunction : '\n' ∉ function.toList) (harguments : ∀ e ∈ arguments, '\n' ∉ e.chars) :
    '\n' ∉ (callText function (texts arguments)).toList := by
  have hinside : '\n' ∉ (", ".intercalate (texts arguments)).toList := by
    rw [texts_eq_map]
    exact woven_newline.intercalate (List.forall_mem_map.2 harguments)
  simp only [callText, String.toList_append, List.mem_append, not_or]
  exact ⟨⟨⟨hfunction, by decide⟩, hinside⟩, by decide⟩

theorem newline_not_mem_chars {e : Expr} (h : e.Unbroken) : '\n' ∉ e.chars := by
  induction e using treeInduction with
  | var loc name => exact h.self name (List.mem_singleton_self _)
  | int loc value => exact (word_toString value).not_mem (by decide)
  | bool loc value => cases value <;> simp [chars, text]
  | null | this => simp [chars, text]
  | str loc value => exact newline_not_mem_quoted value
  | defaultOf loc type =>
    have htype : '\n' ∉ type.writtenText.toList := Ty.woven_writtenText woven_newline h.self
    simpa [chars, text, String.toList_append] using htype
  | call loc function arguments ih =>
    have hfunction := h.self function (List.mem_singleton_self _)
    exact newline_not_mem_callText hfunction fun e he => ih e he (h.child he)

end Expr
end MachineLang
