import MachineLang.Statement.Block
import MachineLang.Proofs.Expr.Tree

set_option autoImplicit false

namespace MachineLang

namespace Statement

@[elab_as_elim]
theorem treeInduction {motive : Statement → Prop}
    (noOp : ∀ loc, motive (.noOp loc))
    (action : ∀ loc a, motive (.action loc a))
    (compound : ∀ block : Block, (∀ s ∈ block.statements, motive s) → motive (.compound block))
    (branch : ∀ loc condition (thenBlock elseBlock : Block),
      (∀ s ∈ thenBlock.statements, motive s) → (∀ s ∈ elseBlock.statements, motive s) →
      motive (.branch loc condition thenBlock elseBlock))
    (loop : ∀ loc condition (body : Block), (∀ s ∈ body.statements, motive s) →
      motive (.loop loc condition body)) (s : Statement) : motive s :=
  Statement.rec (motive_1 := motive) (motive_2 := fun block => ∀ s ∈ block.statements, motive s)
    (motive_3 := fun ss => ∀ s ∈ ss, motive s)
    noOp action compound branch loop (fun _ _ h => h)
    (by simp) (fun _ _ hd tl => List.forall_mem_cons.2 ⟨hd, tl⟩) s

def bodies : Statement → List Block
  | noOp _ | action .. => []
  | compound block => [block]
  | branch _ _ thenBlock elseBlock => [thenBlock, elseBlock]
  | loop _ _ body => [body]

theorem bodiesInduction {motive : Statement → Prop}
    (step : ∀ s, (∀ b ∈ s.bodies, ∀ t ∈ b.statements, motive t) → motive s) (s : Statement) :
    motive s := by
  induction s using treeInduction with
  | noOp | action => exact step _ (by simp [bodies])
  | compound _ ih | loop _ _ _ ih => exact step _ (by simpa [bodies] using ih)
  | branch _ _ _ _ iht ihe => exact step _ (by simpa [bodies] using ⟨iht, ihe⟩)

def inside (s : Statement) : List Statement := s.bodies.flatMap Block.statements

section Inside
variable (loc : Location) (condition : Expr)

@[simp] theorem inside_noOp : (noOp loc).inside = [] := rfl

@[simp] theorem inside_action (a : Action) : (action loc a).inside = [] := rfl

@[simp] theorem inside_compound (block : Block) : (compound block).inside = block.statements :=
  List.flatMap_singleton _ block

@[simp] theorem inside_branch (thenBlock elseBlock : Block) :
    (branch loc condition thenBlock elseBlock).inside =
      thenBlock.statements ++ elseBlock.statements := by
  simp [inside, bodies]

@[simp] theorem inside_loop (body : Block) : (loop loc condition body).inside = body.statements :=
  List.flatMap_singleton _ body

end Inside

theorem insideInduction {motive : Statement → Prop}
    (step : ∀ s, (∀ t ∈ s.inside, motive t) → motive s) (s : Statement) : motive s := by
  induction s using bodiesInduction with
  | step s ih =>
    refine step s fun t ht => ?_
    obtain ⟨b, hb, htb⟩ := List.mem_flatMap.1 ht
    exact ih b hb t htb

/-- The expressions in the statement's own line. -/
def heads : Statement → List Expr
  | branch _ condition _ _ | loop _ condition _ => [condition]
  | s => s.operands

def isLeaf : Statement → Bool
  | noOp _ | action .. => true
  | compound _ | branch .. | loop .. => false

end Statement

mutual

def Statement.nodes : Statement → List Statement
  | .noOp loc => [.noOp loc]
  | .action loc a => [.action loc a]
  | .compound block => .compound block :: block.nodes
  | .branch loc condition thenBlock elseBlock =>
    .branch loc condition thenBlock elseBlock :: (thenBlock.nodes ++ elseBlock.nodes)
  | .loop loc condition body => .loop loc condition body :: body.nodes

def Block.nodes : Block → List Statement
  | ⟨_, statements⟩ => Statement.nodesAll statements

def Statement.nodesAll : List Statement → List Statement
  | [] => []
  | s :: ss => s.nodes ++ Statement.nodesAll ss

end

theorem Statement.nodesAll_eq_flatMap (ss : List Statement) :
    Statement.nodesAll ss = ss.flatMap Statement.nodes := by
  induction ss with
  | nil => rfl
  | cons s ss ih => rw [Statement.nodesAll, ih, List.flatMap_cons]

theorem Block.nodes_eq (b : Block) : b.nodes = b.statements.flatMap Statement.nodes := by
  cases b
  rw [Block.nodes, Statement.nodesAll_eq_flatMap]

namespace Statement

theorem nodes_eq (s : Statement) : s.nodes = s :: s.bodies.flatMap Block.nodes := by
  cases s <;> simp [nodes, bodies]

theorem nodes_eq_inside (s : Statement) : s.nodes = s :: s.inside.flatMap nodes := by
  rw [nodes_eq, inside, List.flatMap_assoc, funext Block.nodes_eq]

theorem self_mem_nodes (s : Statement) : s ∈ s.nodes := by
  rw [nodes_eq]
  exact List.mem_cons_self

theorem mem_nodes_iff {t s : Statement} :
    t ∈ s.nodes ↔ t = s ∨ ∃ b ∈ s.bodies, ∃ u ∈ b.statements, t ∈ u.nodes := by
  simp only [nodes_eq s, List.mem_cons, List.mem_flatMap, Block.nodes_eq]

theorem mem_nodes_of_body {t u s : Statement} {b : Block} (hb : b ∈ s.bodies)
    (hu : u ∈ b.statements) (ht : t ∈ u.nodes) : t ∈ s.nodes :=
  mem_nodes_iff.2 (.inr ⟨b, hb, u, hu, ht⟩)

def blocks (s : Statement) : List Block := s.nodes.flatMap bodies

end Statement

def Block.blocks (b : Block) : List Block := b :: b.nodes.flatMap Statement.bodies

theorem Block.mem_blocks_iff {c b : Block} :
    c ∈ b.blocks ↔ c = b ∨ ∃ s ∈ b.statements, c ∈ s.blocks := by
  simp only [Block.blocks, Block.nodes_eq, Statement.blocks, List.mem_cons, List.mem_flatMap]
  constructor
  · rintro (h | ⟨t, ⟨s, hs, ht⟩, hc⟩)
    · exact .inl h
    · exact .inr ⟨s, hs, t, ht, hc⟩
  · rintro (h | ⟨s, hs, t, ht, hc⟩)
    · exact .inl h
    · exact .inr ⟨t, ⟨s, hs, ht⟩, hc⟩

theorem Statement.mem_blocks_iff {c : Block} {s : Statement} :
    c ∈ s.blocks ↔ ∃ b ∈ s.bodies, c ∈ b.blocks := by
  simp only [Block.blocks, Statement.blocks, Statement.nodes_eq s, List.flatMap_cons,
    List.mem_append, List.mem_cons, List.mem_flatMap]
  constructor
  · rintro (h | ⟨t, ⟨b, hb, ht⟩, hc⟩)
    · exact ⟨c, h, .inl rfl⟩
    · exact ⟨b, hb, .inr ⟨t, ht, hc⟩⟩
  · rintro ⟨b, hb, rfl | ⟨t, ht, hc⟩⟩
    · exact .inl hb
    · exact .inr ⟨t, ⟨b, hb, ht⟩, hc⟩

theorem Statement.mem_block_of_mem_nodes {t s : Statement} (h : t ∈ s.nodes) :
    t = s ∨ ∃ b ∈ s.blocks, t ∈ b.statements := by
  induction s using Statement.bodiesInduction with
  | step s ih =>
    rcases Statement.mem_nodes_iff.1 h with rfl | ⟨b, hb, u, hu, ht⟩
    · exact .inl rfl
    · rcases ih b hb u hu ht with rfl | ⟨c, hc, htc⟩
      · exact .inr ⟨b, Statement.mem_blocks_iff.2 ⟨b, hb, Block.mem_blocks_iff.2 (.inl rfl)⟩, hu⟩
      · have hcb : c ∈ b.blocks := Block.mem_blocks_iff.2 (.inr ⟨u, hu, hc⟩)
        exact .inr ⟨c, Statement.mem_blocks_iff.2 ⟨b, hb, hcb⟩, htc⟩

theorem Block.mem_block_of_mem_nodes {t : Statement} {b : Block} (h : t ∈ b.nodes) :
    ∃ c ∈ b.blocks, t ∈ c.statements := by
  rw [Block.nodes_eq, List.mem_flatMap] at h
  obtain ⟨s, hs, ht⟩ := h
  rcases Statement.mem_block_of_mem_nodes ht with rfl | ⟨c, hc, htc⟩
  · exact ⟨b, Block.mem_blocks_iff.2 (.inl rfl), hs⟩
  · exact ⟨c, Block.mem_blocks_iff.2 (.inr ⟨s, hs, hc⟩), htc⟩

end MachineLang
