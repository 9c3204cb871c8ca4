import MachineLang.Statement.Block

set_option autoImplicit false

namespace MachineLang

namespace Block

theorem ofStatement_eq (s : Statement) : ofStatement s = ⟨s.loc, s.spliced⟩ := by
  rw [← loc_ofStatement, ← statements_ofStatement]
  cases ofStatement s
  rfl

theorem ofStatements_singleton (s : Statement) : ofStatements s.loc [s] = ofStatement s := by
  rw [ofStatement_eq, ofStatements, List.flatMap_singleton]

theorem ofStatement_compound_ofStatement (s : Statement) :
    ofStatement (.compound (ofStatement s)) = ofStatement s := rfl

theorem ofStatements_eq (loc : Location) (ss : List Statement) :
    ofStatements loc ss = ⟨loc, (ss.map ofStatement).flatMap statements⟩ := by
  rw [ofStatements, List.flatMap_map]
  simp only [statements_ofStatement]

theorem ofStatements_congr (loc : Location) {ss ts : List Statement}
    (h : ss.map ofStatement = ts.map ofStatement) : ofStatements loc ss = ofStatements loc ts := by
  rw [ofStatements_eq, ofStatements_eq, h]

end Block

namespace Statement
variable (loc : Location) (condition : Expr)

theorem ifElse_congr {thenPart thenPart' : Statement} {elsePart elsePart' : Option Statement}
    (hthen : Block.ofStatement thenPart = Block.ofStatement thenPart')
    (helse : elsePart.map Block.ofStatement = elsePart'.map Block.ofStatement) :
    ifElse loc condition thenPart elsePart = ifElse loc condition thenPart' elsePart' := by
  rw [ifElse, ifElse, hthen, helse]

theorem whileLoop_congr {body body' : Statement}
    (h : Block.ofStatement body = Block.ofStatement body') :
    whileLoop loc condition body = whileLoop loc condition body' := by
  rw [whileLoop, whileLoop, h]

/-- A statement becomes the block that holds it alone, at its own location, and becomes it once and
    for all; putting this block in its place makes no difference to a list of statements, to a part
    of a branch or to a body. -/
theorem wrapping_changes_nothing (s : Statement) :
    Block.ofStatement s = Block.ofStatements s.loc [s] ∧
    (Block.ofStatement s).loc = s.loc ∧
    Block.ofStatement (compound (.ofStatement s)) = Block.ofStatement s ∧
    (∀ loc before after,
      Block.ofStatements loc (before ++ compound (.ofStatement s) :: after) =
        Block.ofStatements loc (before ++ s :: after)) ∧
    (∀ loc condition elsePart,
      ifElse loc condition (compound (.ofStatement s)) elsePart =
        ifElse loc condition s elsePart) ∧
    (∀ loc condition thenPart,
      ifElse loc condition thenPart (some (compound (.ofStatement s))) =
        ifElse loc condition thenPart (some s)) ∧
    ∀ loc condition,
      whileLoop loc condition (compound (.ofStatement s)) = whileLoop loc condition s := by
  have hsame := Block.ofStatement_compound_ofStatement s
  refine ⟨(Block.ofStatements_singleton s).symm, Block.loc_ofStatement s, hsame, ?_, ?_, ?_, ?_⟩
  · intro loc before after
    apply Block.ofStatements_congr
    rw [List.map_append, List.map_append, List.map_cons, List.map_cons, hsame]
  · intro loc condition elsePart
    exact ifElse_congr loc condition hsame rfl
  · intro loc condition thenPart
    exact ifElse_congr loc condition rfl (congrArg some hsame)
  · intro loc condition
    exact whileLoop_congr loc condition hsame

end Statement
end MachineLang
