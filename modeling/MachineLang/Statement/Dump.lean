import MachineLang.Statement.Block

set_option autoImplicit false

/-!
# Dumps

A dump shows a statement as indented lines. Each statement has one line, followed by the lines of
what it holds: one level deeper in a block or a loop, two levels deeper in a branch, where a line
`Then` or `Else` stands between. An empty else block has neither line nor level.
-/
namespace MachineLang

structure DumpOptions where
  spans : Bool := false

def payloadText : Option Expr → String
  | none => ""
  | some payload => ", " ++ payload.text

def Action.detail : Action → String
  | assign target value => " " ++ target.text ++ " = " ++ value.text
  | returnWith none | breakLoop | continueLoop => ""
  | returnWith (some value) => " " ++ value.text
  | assert condition message => " " ++ condition.text ++ ", " ++ Text.quoted message
  | print message => " " ++ message.text
  | raise event payload => " " ++ event.text ++ payloadText payload
  | send machine event payload =>
    " " ++ machine.text ++ ", " ++ event.text ++ payloadText payload
  | goto state payload => " " ++ state ++ payloadText payload
  | call function arguments => " " ++ Expr.callText function (Expr.texts arguments)

namespace Statement

def detail : Statement → String
  | noOp _ | compound _ => ""
  | action _ a => a.detail
  | branch _ condition _ _ | loop _ condition _ => " " ++ condition.text

def header (options : DumpOptions) (s : Statement) : String :=
  s.name ++ s.detail ++ if options.spans then " " ++ s.loc.text else ""

def line (depth : Nat) (text : String) : String :=
  String.ofList (List.replicate (2 * depth) ' ') ++ text ++ "\n"

end Statement

open Statement (line)

mutual

def Statement.lines (options : DumpOptions) (depth : Nat) : Statement → List String
  | .compound block =>
    line depth ((Statement.compound block).header options) :: block.lines options (depth + 1)
  | .loop loc condition body =>
    line depth ((Statement.loop loc condition body).header options) ::
      body.lines options (depth + 1)
  | .branch loc condition thenBlock elseBlock =>
    line depth ((Statement.branch loc condition thenBlock elseBlock).header options) ::
      line (depth + 1) "Then" :: thenBlock.lines options (depth + 2) ++
      if elseBlock.isEmpty then []
      else line (depth + 1) "Else" :: elseBlock.lines options (depth + 2)
  | s => [line depth (s.header options)]

def Block.lines (options : DumpOptions) (depth : Nat) : Block → List String
  | ⟨_, statements⟩ => Statement.linesOfAll options depth statements

def Statement.linesOfAll (options : DumpOptions) (depth : Nat) : List Statement → List String
  | [] => []
  | s :: ss => s.lines options depth ++ Statement.linesOfAll options depth ss

end

def Statement.dump (options : DumpOptions) (s : Statement) : String :=
  String.join (s.lines options 0)

/-- The dumps of the block's statements; the block itself has no line. -/
def Block.dump (options : DumpOptions) (block : Block) : String :=
  String.join (block.lines options 0)

end MachineLang
