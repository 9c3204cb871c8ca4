import MachineLang.Expr

set_option autoImplicit false

namespace MachineLang

inductive Action where
  | assign (target value : Expr)
  | returnWith (value : Option Expr)
  | breakLoop
  | continueLoop
  | assert (condition : Expr) (message : String)
  | print (message : Expr)
  /-- Gives an event to the executing machine itself. -/
  | raise (event : Expr) (payload : Option Expr)
  | send (machine event : Expr) (payload : Option Expr)
  | goto (state : String) (payload : Option Expr)
  | call (function : String) (arguments : List Expr)
  deriving DecidableEq

namespace Action

def name : Action → String
  | assign .. => "Assign"
  | returnWith _ => "Return"
  | breakLoop => "Break"
  | continueLoop => "Continue"
  | assert .. => "Assert"
  | print _ => "Print"
  | raise .. => "Raise"
  | send .. => "Send"
  | goto .. => "Goto"
  | call .. => "Call"

/-- The expressions of the action in the order of its text. -/
def operands : Action → List Expr
  | assign target value => [target, value]
  | returnWith value => value.toList
  | breakLoop | continueLoop => []
  | assert condition _ => [condition]
  | print message => [message]
  | raise event payload => event :: payload.toList
  | send machine event payload => machine :: event :: payload.toList
  | goto _ payload => payload.toList
  | call _ arguments => arguments

end Action

mutual

inductive Statement where
  | noOp (loc : Location)
  | action (loc : Location) (a : Action)
  | compound (block : Block)
  | branch (loc : Location) (condition : Expr) (thenBlock elseBlock : Block)
  | loop (loc : Location) (condition : Expr) (body : Block)

structure Block where
  loc : Location
  statements : List Statement

end

namespace Statement

def loc : Statement → Location
  | noOp l | action l _ | branch l _ _ _ | loop l _ _ => l
  | compound block => block.loc

def name : Statement → String
  | noOp _ => "NoOp"
  | action _ a => a.name
  | compound _ => "Compound"
  | branch .. => "If"
  | loop .. => "While"

def isNoOp : Statement → Bool
  | noOp _ => true
  | _ => false

def isCompound : Statement → Bool
  | compound _ => true
  | _ => false

/-- The expressions of an action; conditions belong to no action. -/
def operands : Statement → List Expr
  | action _ a => a.operands
  | _ => []

end Statement

mutual

def Statement.same : Statement → Statement → Bool
  | .noOp k, .noOp l => k == l
  | .action k a, .action l b => k == l && a == b
  | .compound a, .compound b => a.same b
  | .branch k c t e, .branch l d u f => k == l && c == d && t.same u && e.same f
  | .loop k c a, .loop l d b => k == l && c == d && a.same b
  | _, _ => false

def Block.same : Block → Block → Bool
  | ⟨k, ss⟩, ⟨l, ts⟩ => k == l && Statement.sameAll ss ts

def Statement.sameAll : List Statement → List Statement → Bool
  | [], [] => true
  | s :: ss, t :: ts => s.same t && Statement.sameAll ss ts
  | _, _ => false

end

mutual

theorem Statement.same_self : ∀ s : Statement, s.same s
  | .noOp _ | .action .. => by simp [Statement.same]
  | .compound b => by simp [Statement.same, Block.same_self b]
  | .branch _ _ t e => by simp [Statement.same, Block.same_self t, Block.same_self e]
  | .loop _ _ b => by simp [Statement.same, Block.same_self b]

theorem Block.same_self : ∀ b : Block, b.same b
  | ⟨_, ss⟩ => by simp [Block.same, Statement.sameAll_self ss]

theorem Statement.sameAll_self : ∀ ss : List Statement, Statement.sameAll ss ss
  | [] => rfl
  | s :: ss => by simp [Statement.sameAll, Statement.same_self s, Statement.sameAll_self ss]

end

mutual

theorem Statement.eq_of_same : ∀ {s t : Statement}, s.same t → s = t := by
  intro s t h
  cases s <;> cases t <;>
    simp only [Statement.same, Bool.and_eq_true, beq_iff_eq, Bool.false_eq_true] at h
  case noOp => rw [h]
  case action => rw [h.1, h.2]
  case compound => rw [Block.eq_of_same h]
  case branch => rw [h.1.1.1, h.1.1.2, Block.eq_of_same h.1.2, Block.eq_of_same h.2]
  case loop => rw [h.1.1, h.1.2, Block.eq_of_same h.2]

theorem Block.eq_of_same : ∀ {b c : Block}, b.same c → b = c
  | ⟨_, _⟩, ⟨_, _⟩, h => by
    simp only [Block.same, Bool.and_eq_true, beq_iff_eq] at h
    rw [h.1, Statement.eq_of_sameAll h.2]

theorem Statement.eq_of_sameAll : ∀ {ss ts : List Statement}, Statement.sameAll ss ts → ss = ts
  | [], [], _ => rfl
  | [], _ :: _, h | _ :: _, [], h => by simp [Statement.sameAll] at h
  | s :: ss, t :: ts, h => by
    rw [Statement.sameAll, Bool.and_eq_true] at h
    rw [Statement.eq_of_same h.1, Statement.eq_of_sameAll h.2]

end

instance : DecidableEq Statement := fun s t =>
  if h : s.same t then isTrue (Statement.eq_of_same h)
  else isFalse fun he => h (he ▸ Statement.same_self s)

instance : DecidableEq Block := fun b c =>
  if h : b.same c then isTrue (Block.eq_of_same h)
  else isFalse fun he => h (he ▸ Block.same_self b)

end MachineLang
