import MachineLang.Ty.Text
import MachineLang.Proofs.Ty.Tree

set_option autoImplicit false

namespace MachineLang

namespace Text

/-- What comes after the bracket that closes the last of the open ones. -/
def afterClose : Nat → List Char → List Char
  | _, [] => []
  | opened, '(' :: cs => afterClose (opened + 1) cs
  | 0, ')' :: cs => cs
  | opened + 1, ')' :: cs => afterClose opened cs
  | opened, _ :: cs => afterClose opened cs

def Balanced (text : List Char) : Prop :=
  ∀ opened rest, afterClose opened (text ++ rest) = afterClose opened rest

theorem Balanced.append {text text' : List Char} (h : Balanced text) (h' : Balanced text') :
    Balanced (text ++ text') := by
  intro opened rest
  rw [List.append_assoc, h, h']

theorem Balanced.enclose {text : List Char} (h : Balanced text) :
    Balanced ('(' :: (text ++ [')'])) := by
  intro opened rest
  change afterClose (opened + 1) (text ++ [')'] ++ rest) = _
  rw [List.append_assoc, h]
  rfl

theorem balanced_of_not_mem {text : List Char} (h : '(' ∉ text ∧ ')' ∉ text) : Balanced text := by
  intro opened rest
  induction text with
  | nil => rfl
  | cons c text ih =>
    simp only [List.mem_cons, not_or] at h
    have hstep : afterClose opened (c :: (text ++ rest)) = afterClose opened (text ++ rest) := by
      simp [afterClose, Ne.symm h.1.1, Ne.symm h.2.1]
    rw [List.cons_append, hstep]
    exact ih ⟨h.1.2, h.2.2⟩

theorem Balanced.unique {text text' rest rest' : List Char} (h : Balanced text)
    (h' : Balanced text') (heq : text ++ ')' :: rest = text' ++ ')' :: rest') :
    text = text' ∧ rest = rest' := by
  have hrest : rest = rest' := by
    have hafter := congrArg (afterClose 0) heq
    rw [h, h'] at hafter
    exact hafter
  subst hrest
  exact ⟨List.append_cancel_right heq, rfl⟩

/-- A property of texts that goes from words to what is put together from them. -/
structure Woven (P : String → Prop) : Prop where
  word : ∀ text : String, (∀ c ∈ text.toList, c ∉ ['(', ')', '\n']) → P text
  append : ∀ text text', P text → P text' → P (text ++ text')
  enclose : ∀ text, P text → P ("(" ++ text ++ ")")

theorem woven_balanced : Woven fun text => Balanced text.toList where
  word _ h :=
    balanced_of_not_mem ⟨fun hmem => h _ hmem (by simp), fun hmem => h _ hmem (by simp)⟩
  append text text' h h' := by
    rw [String.toList_append]
    exact h.append h'
  enclose text h := by simpa [String.toList_append] using h.enclose

theorem woven_newline : Woven fun text => '\n' ∉ text.toList where
  word _ h hmem := h _ hmem (by simp)
  append _ _ h h' := by simp [String.toList_append, h, h']
  enclose _ h := by simpa [String.toList_append] using h

section Woven
variable {P : String → Prop} (h : Woven P)
include h

theorem Woven.around {text : String} (htext : P text) (first last : String)
    (hwords : ∀ c ∈ (first ++ last).toList, c ∉ ['(', ')', '\n']) : P (first ++ text ++ last) := by
  rw [String.toList_append] at hwords
  have hfirst : P first := h.word _ fun c hc => hwords c (List.mem_append_left _ hc)
  have hlast : P last := h.word _ fun c hc => hwords c (List.mem_append_right _ hc)
  exact h.append _ _ (h.append _ _ hfirst htext) hlast

theorem Woven.intercalate {texts : List String} (htexts : ∀ text ∈ texts, P text) :
    P (", ".intercalate texts) := by
  match texts with
  | [] => exact h.word _ (by simp)
  | [text] => simpa using htexts text
  | text :: next :: texts =>
    have hrest := Woven.intercalate (List.forall_mem_cons.1 htexts).2
    have hcomma : P ", " := h.word _ (by simp)
    rw [String.intercalate_cons_cons]
    exact h.append _ _ (h.append _ _ (htexts text List.mem_cons_self) hcomma) hrest

end Woven

end Text

namespace Ty
open Text

/-- The names that stand at the node itself. -/
def ownNames : Ty → List String
  | enum decl => [decl.name]
  | typedef name _ | foreign name => [name]
  | permission p => p.interface.toList ++ p.events
  | named fields => fields.map Prod.fst
  | prim _ | seq _ | set _ | map _ _ | tuple _ => []

def names (t : Ty) : List String := t.nodes.flatMap ownNames

theorem mem_names_self {name : String} {t : Ty} (h : name ∈ t.ownNames) : name ∈ t.names :=
  List.mem_flatMap.2 ⟨t, t.self_mem_nodes, h⟩

theorem mem_names_part {name : String} {s t : Ty} (hs : s ∈ t.parts) (h : name ∈ s.names) :
    name ∈ t.names := by
  obtain ⟨u, hu, hname⟩ := List.mem_flatMap.1 h
  exact List.mem_flatMap.2 ⟨u, mem_nodes_of_part hs hu, hname⟩

section Written
variable {P : String → Prop} (h : Woven P)
include h

theorem woven_tupleText {texts : List String} (htexts : ∀ text ∈ texts, P text) :
    P (tupleText texts) := by
  match texts with
  | [text] =>
    have hinside := h.append _ _ (htexts text List.mem_cons_self) (h.word "," (by simp))
    simpa [tupleText, String.append_assoc] using h.enclose _ hinside
  | [] | _ :: _ :: _ => exact h.enclose _ (h.intercalate htexts)

theorem woven_namedText {texts : List String} (htexts : ∀ text ∈ texts, P text) :
    P (namedText texts) := by
  cases texts with
  | nil => exact h.enclose ":" (h.word _ (by simp))
  | cons text texts => exact h.enclose _ (h.intercalate htexts)

theorem woven_writtenText {t : Ty} (hnames : ∀ name ∈ t.names, P name) : P t.writtenText := by
  induction t using partsInduction with
  | step t ih =>
    have hparts : ∀ s ∈ t.parts, P s.writtenText := fun s hs =>
      ih s hs fun name hname => hnames name (mem_names_part hs hname)
    have hown : ∀ name ∈ t.ownNames, P name := fun name hname =>
      hnames name (mem_names_self hname)
    cases t with
    | prim p => exact h.word _ (by cases p <;> simp [text, Primitive.keyword])
    | enum decl => exact hown decl.name (List.mem_singleton_self _)
    | typedef name target => exact hown name (List.mem_singleton_self _)
    | foreign name => exact hown name (List.mem_singleton_self _)
    | seq element => exact h.around (hparts element (by simp [parts])) "seq[" "]" (by simp)
    | set element => exact h.around (hparts element (by simp [parts])) "set[" "]" (by simp)
    | map key value =>
      have hkey := h.around (hparts key (by simp [parts])) "map[" ", " (by simp)
      have hvalue := h.around (hparts value (by simp [parts])) "" "]" (by simp)
      simpa [text, mapText, String.append_assoc] using h.append _ _ hkey hvalue
    | tuple elements =>
      rw [writtenText, text, texts_eq_map]
      exact woven_tupleText h (List.forall_mem_map.2 hparts)
    | named fields =>
      rw [writtenText, text, fieldTexts_eq_map]
      refine woven_namedText h (List.forall_mem_map.2 fun field hfield => ?_)
      have hname := hown field.1 (List.mem_map_of_mem hfield)
      have htype := hparts field.2 (List.mem_map_of_mem hfield)
      have hcolon : P ": " := h.word _ (by simp)
      exact h.append _ _ (h.append _ _ hname hcolon) htype
    | permission p =>
      obtain ⟨interface, events⟩ := p
      cases interface with
      | some name => exact hown name (List.mem_append_left _ (by simp))
      | none => exact h.around (h.intercalate hown) "any<" ">" (by simp)

end Written

end Ty
end MachineLang
