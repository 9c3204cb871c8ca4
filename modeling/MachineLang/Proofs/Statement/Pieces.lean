import MachineLang.Statement.Dump
import MachineLang.Proofs.Statement.Tree

set_option autoImplicit false

/-!
# The pieces of a line

A statement's own line consists of words and of expressions. Written out kind by kind, the pieces
show which expressions stand in the line and in which order, without the list of operands that a
visit goes through. No expression is hidden in a word: exchanging the expressions of a statement
exchanges those among its pieces and leaves the words as they are.
-/
namespace MachineLang

inductive Piece where
  | word (text : String)
  | operand (e : Expr)

namespace Piece

def text : Piece → String
  | word text => text
  | operand e => e.text

def operand? : Piece → Option Expr
  | word _ => none
  | operand e => some e

def map (f : Expr → Expr) : Piece → Piece
  | word text => word text
  | operand e => operand (f e)

def ofPayload : Option Expr → List Piece
  | none => []
  | some payload => [word ", ", operand payload]

def ofArguments : List Expr → List Piece
  | [] => []
  | [e] => [operand e]
  | d :: e :: es => operand d :: word ", " :: ofArguments (e :: es)

theorem text_map {f : Expr → Expr} (h : ∀ e, (f e).text = e.text) (p : Piece) :
    (p.map f).text = p.text := by
  cases p with
  | word => rfl
  | operand e => exact h e

theorem ofPayload_map (f : Expr → Expr) (payload : Option Expr) :
    ofPayload (payload.map f) = (ofPayload payload).map (map f) := by
  cases payload <;> rfl

theorem ofArguments_map (f : Expr → Expr) (es : List Expr) :
    ofArguments (es.map f) = (ofArguments es).map (map f) := by
  induction es using ofArguments.induct with
  | case1 | case2 => rfl
  | case3 d e es ih =>
    rw [List.map_cons] at ih
    simp only [List.map_cons, ofArguments, ih, map]

theorem join_ofPayload (payload : Option Expr) :
    String.join ((ofPayload payload).map text) = payloadText payload := by
  cases payload with
  | none => rfl
  | some payload => simp [ofPayload, text, payloadText]

theorem join_ofArguments (es : List Expr) :
    String.join ((ofArguments es).map text) = ", ".intercalate (es.map Expr.text) := by
  induction es using ofArguments.induct with
  | case1 => rfl
  | case2 e => simp [ofArguments, text]
  | case3 d e es ih =>
    simp only [ofArguments, List.map_cons, String.join_cons, text, String.intercalate_cons_cons,
      String.append_assoc] at ih ⊢
    rw [ih]

theorem operands_ofPayload (payload : Option Expr) :
    (ofPayload payload).filterMap operand? = payload.toList := by
  cases payload <;> rfl

theorem operands_ofArguments (es : List Expr) : (ofArguments es).filterMap operand? = es := by
  induction es using ofArguments.induct with
  | case1 | case2 => rfl
  | case3 d e es ih => simp only [ofArguments, List.filterMap_cons, operand?, ih]

end Piece

namespace Action

def map (f : Expr → Expr) : Action → Action
  | assign target value => assign (f target) (f value)
  | returnWith value => returnWith (value.map f)
  | breakLoop => breakLoop
  | continueLoop => continueLoop
  | assert condition message => assert (f condition) message
  | print message => print (f message)
  | raise event payload => raise (f event) (payload.map f)
  | send machine event payload => send (f machine) (f event) (payload.map f)
  | goto state payload => goto state (payload.map f)
  | call function arguments => call function (arguments.map f)

/-- What stands after the name of the action, from left to right. -/
def pieces : Action → List Piece
  | assign target value => [.word " ", .operand target, .word " = ", .operand value]
  | returnWith none | breakLoop | continueLoop => []
  | returnWith (some value) => [.word " ", .operand value]
  | assert condition message =>
    [.word " ", .operand condition, .word ", ", .word (Text.quoted message)]
  | print message => [.word " ", .operand message]
  | raise event payload => .word " " :: .operand event :: Piece.ofPayload payload
  | send machine event payload =>
    .word " " :: .operand machine :: .word ", " :: .operand event :: Piece.ofPayload payload
  | goto state payload => .word " " :: .word state :: Piece.ofPayload payload
  | call function arguments =>
    .word " " :: .word function :: .word "(" :: (Piece.ofArguments arguments ++ [.word ")"])

theorem name_map (f : Expr → Expr) (a : Action) : (a.map f).name = a.name := by
  cases a <;> rfl

theorem pieces_map (f : Expr → Expr) (a : Action) :
    (a.map f).pieces = a.pieces.map (Piece.map f) := by
  cases a with
  | returnWith value => cases value <;> rfl
  | breakLoop | continueLoop | assign | assert | print => rfl
  | raise | send | goto => simp [map, pieces, Piece.map, Piece.ofPayload_map]
  | call => simp [map, pieces, Piece.map, Piece.ofArguments_map]

theorem detail_eq_join (a : Action) : a.detail = String.join (a.pieces.map Piece.text) := by
  cases a with
  | returnWith value => cases value <;> simp [detail, pieces, Piece.text]
  | breakLoop | continueLoop => rfl
  | assign | assert | print => simp [detail, pieces, Piece.text, String.append_assoc]
  | raise | send | goto =>
    simp [detail, pieces, Piece.text, Piece.join_ofPayload, String.append_assoc]
  | call =>
    simp [detail, pieces, Piece.text, Piece.join_ofArguments, Expr.callText, Expr.texts_eq_map,
      String.append_assoc]

theorem detail_map {f : Expr → Expr} (h : ∀ e, (f e).text = e.text) (a : Action) :
    (a.map f).detail = a.detail := by
  have htexts : Piece.text ∘ Piece.map f = Piece.text := funext (Piece.text_map h)
  rw [detail_eq_join, detail_eq_join, pieces_map, List.map_map, htexts]

theorem operands_eq (a : Action) : a.operands = a.pieces.filterMap Piece.operand? := by
  cases a with
  | returnWith value => cases value <;> rfl
  | breakLoop | continueLoop | assign | assert | print => rfl
  | raise | send | goto =>
    simp only [operands, pieces, List.filterMap_cons, Piece.operand?, Piece.operands_ofPayload]
  | call =>
    simp [operands, pieces, List.filterMap_cons, Piece.operand?, Piece.operands_ofArguments]

end Action

namespace Statement

/-- The statement with other expressions in its own line. -/
def mapLine (f : Expr → Expr) : Statement → Statement
  | action loc a => action loc (a.map f)
  | branch loc condition thenBlock elseBlock => branch loc (f condition) thenBlock elseBlock
  | loop loc condition body => loop loc (f condition) body
  | s => s

def pieces : Statement → List Piece
  | noOp _ | compound _ => []
  | action _ a => a.pieces
  | branch _ condition _ _ | loop _ condition _ => [.word " ", .operand condition]

theorem pieces_mapLine (f : Expr → Expr) (s : Statement) :
    (s.mapLine f).pieces = s.pieces.map (Piece.map f) := by
  cases s with
  | action loc a => exact a.pieces_map f
  | noOp | compound | branch | loop => rfl

theorem detail_eq_join (s : Statement) : s.detail = String.join (s.pieces.map Piece.text) := by
  cases s with
  | action loc a => exact a.detail_eq_join
  | noOp | compound => rfl
  | branch | loop => simp [detail, pieces, Piece.text]

theorem heads_eq (s : Statement) : s.heads = s.pieces.filterMap Piece.operand? := by
  cases s with
  | action loc a => exact a.operands_eq
  | noOp | compound | branch | loop => rfl

/-- All expressions in the statement: line by line, and each before its own parts. -/
def expressions (s : Statement) : List Expr :=
  s.nodes.flatMap fun t => (t.pieces.filterMap Piece.operand?).flatMap Expr.nodes

theorem expressions_eq (s : Statement) :
    s.expressions = s.nodes.flatMap fun t => t.heads.flatMap Expr.nodes := by
  simp only [expressions, heads_eq]

end Statement
end MachineLang
