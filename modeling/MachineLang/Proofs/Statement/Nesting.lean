import MachineLang.Proofs.Statement.Flat

set_option autoImplicit false

namespace MachineLang

/-- The leaves are statements of any kind but blocks. -/
inductive Nesting where
  | leaf (s : Statement) (single : s.isCompound = false)
  | group (loc : Location) (parts : List Nesting)

namespace Nesting

mutual

def build : Nesting → Statement
  | leaf s _ => s
  | group loc parts => .compound (.ofStatements loc (buildAll parts))

def buildAll : List Nesting → List Statement
  | [] => []
  | n :: ns => n.build :: buildAll ns

end

mutual

def leaves : Nesting → List Statement
  | leaf s _ => [s]
  | group _ parts => leavesAll parts

def leavesAll : List Nesting → List Statement
  | [] => []
  | n :: ns => n.leaves ++ leavesAll ns

end

def block (loc : Location) (parts : List Nesting) : Block := .ofStatements loc (buildAll parts)

mutual

theorem spliced_build : ∀ n : Nesting, n.build.spliced = n.leaves.filter (!·.isNoOp)
  | leaf s single => by
    have h : [s].flatMap Statement.spliced = [s].filter (!·.isNoOp) :=
      Statement.flatMap_spliced (by simpa using single)
    rwa [List.flatMap_singleton] at h
  | group loc parts => flatMap_spliced_buildAll parts

theorem flatMap_spliced_buildAll : ∀ ns : List Nesting,
    (buildAll ns).flatMap Statement.spliced = (leavesAll ns).filter (!·.isNoOp)
  | [] => rfl
  | n :: ns => by
    rw [buildAll, leavesAll, List.flatMap_cons, List.filter_append, spliced_build n,
      flatMap_spliced_buildAll ns]

end

/-- Only the leaves that are no placeholders count, not how they were grouped; and a block that is
taken apart and built again is the same block. -/
theorem block_statements :
    (∀ loc parts, (block loc parts).loc = loc ∧
      (block loc parts).statements = (leavesAll parts).filter (!·.isNoOp)) ∧
    (∀ loc loc' parts parts',
      (block loc parts).statements = (block loc' parts').statements ↔
        (leavesAll parts).filter (!·.isNoOp) = (leavesAll parts').filter (!·.isNoOp)) ∧
    ∀ c : Block, c.Obtainable → Block.ofStatements c.loc c.statements = c := by
  refine ⟨fun loc parts => ⟨rfl, flatMap_spliced_buildAll parts⟩, ?_, fun c hc => ?_⟩
  · intro loc loc' parts parts'
    rw [← flatMap_spliced_buildAll, ← flatMap_spliced_buildAll]
    rfl
  · exact (Block.flat_iff.1 hc.flat).1.ofStatements_self

theorem block_statements_steps :
    let l : Location := ⟨0, 3, 9, by decide⟩
    let wait := Statement.loop l (.bool l true) (.ofStatement (.action l .continueLoop))
    let stop := Statement.action l .breakLoop
    let parts := [group l [leaf (.noOp l) rfl, group l [leaf wait rfl, group l []]], leaf stop rfl]
    let c := block l parts
    c.statements = [wait, stop] ∧ Block.ofStatements c.loc c.statements = c := by
  intro l wait stop parts c
  have hwait : wait.Obtainable := .loop l _ (.ofStatement (.action l _))
  have hc : c = .ofStatements l [wait, stop] := rfl
  have hobtain : c.Obtainable := hc ▸ .ofStatements l (by simpa using ⟨hwait, .action l _⟩)
  exact ⟨(block_statements.1 l parts).2, block_statements.2.2 c hobtain⟩

end Nesting
end MachineLang
