import MachineLang.Statement.Basic

set_option autoImplicit false

/-!
# Building blocks

A block is built from any statements: placeholders leave it, and a block among them gives way to
its own statements. Since that block was built in the same way, one level is enough, and no block
ever holds a block or a placeholder.
-/
namespace MachineLang

/-- What a statement contributes to the block that it is put into. -/
def Statement.spliced : Statement → List Statement
  | .noOp _ => []
  | .compound block => block.statements
  | s => [s]

namespace Block

def ofStatements (loc : Location) (statements : List Statement) : Block :=
  ⟨loc, statements.flatMap Statement.spliced⟩

def empty (loc : Location) : Block := ⟨loc, []⟩

/-- A block stays as it is; any other statement becomes a block at its own location. -/
def ofStatement : Statement → Block
  | .compound block => block
  | s => ofStatements s.loc [s]

def length (block : Block) : Nat := block.statements.length

def isEmpty (block : Block) : Bool := block.statements.isEmpty

theorem loc_ofStatements (loc : Location) (statements : List Statement) :
    (ofStatements loc statements).loc = loc := rfl

theorem statements_ofStatement (s : Statement) : (ofStatement s).statements = s.spliced := by
  cases s <;> simp [ofStatement, ofStatements, Statement.spliced]

theorem loc_ofStatement (s : Statement) : (ofStatement s).loc = s.loc := by
  cases s <;> rfl

end Block

namespace Statement

/-- Without an else part the else block is empty and lies where the whole statement does. -/
def ifElse (loc : Location) (condition : Expr) (thenPart : Statement)
    (elsePart : Option Statement) : Statement :=
  branch loc condition (.ofStatement thenPart) ((elsePart.map .ofStatement).getD (.empty loc))

def whileLoop (loc : Location) (condition : Expr) (body : Statement) : Statement :=
  loop loc condition (.ofStatement body)

end Statement
end MachineLang
