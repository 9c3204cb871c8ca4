import MachineLang.Proofs.Statement.Tree

set_option autoImplicit false

namespace MachineLang

/-- No statement of the block is a block or a placeholder. -/
def Block.Tidy (b : Block) : Prop :=
  ∀ s ∈ b.statements, s.isCompound = false ∧ s.isNoOp = false

def Statement.Flat (s : Statement) : Prop := ∀ b ∈ s.blocks, b.Tidy

def Block.Flat (b : Block) : Prop := ∀ c ∈ b.blocks, c.Tidy

theorem Statement.flat_iff {s : Statement} : s.Flat ↔ ∀ b ∈ s.bodies, b.Flat := by
  constructor
  · intro h b hb c hc
    exact h c (Statement.mem_blocks_iff.2 ⟨b, hb, hc⟩)
  · intro h c hc
    obtain ⟨b, hb, hcb⟩ := Statement.mem_blocks_iff.1 hc
    exact h b hb c hcb

theorem Block.flat_iff {b : Block} : b.Flat ↔ b.Tidy ∧ ∀ s ∈ b.statements, s.Flat := by
  constructor
  · intro h
    refine ⟨h b (Block.mem_blocks_iff.2 (.inl rfl)), fun s hs c hc => ?_⟩
    exact h c (Block.mem_blocks_iff.2 (.inr ⟨s, hs, hc⟩))
  · rintro ⟨htidy, hstatements⟩ c hc
    rcases Block.mem_blocks_iff.1 hc with rfl | ⟨s, hs, hcs⟩
    · exact htidy
    · exact hstatements s hs c hcs

theorem Statement.flat_of_isLeaf {s : Statement} (h : s.isLeaf) : s.Flat := by
  rw [Statement.flat_iff]
  cases s <;> simp_all [Statement.isLeaf, Statement.bodies]

theorem Statement.flat_compound {b : Block} : (Statement.compound b).Flat ↔ b.Flat := by
  simp [Statement.flat_iff, Statement.bodies]

theorem Statement.flat_branch {loc : Location} {condition : Expr} {thenBlock elseBlock : Block} :
    (Statement.branch loc condition thenBlock elseBlock).Flat ↔
      thenBlock.Flat ∧ elseBlock.Flat := by
  simp [Statement.flat_iff, Statement.bodies]

theorem Statement.flat_loop {loc : Location} {condition : Expr} {body : Block} :
    (Statement.loop loc condition body).Flat ↔ body.Flat := by
  simp [Statement.flat_iff, Statement.bodies]

theorem Statement.Flat.isNoOp_of_mem_nodes {s t : Statement} (h : s.Flat) (ht : t ∈ s.nodes) :
    t = s ∨ t.isNoOp = false := by
  rcases Statement.mem_block_of_mem_nodes ht with hself | ⟨b, hb, htb⟩
  · exact .inl hself
  · exact .inr (h b hb t htb).2

theorem Statement.Flat.spliced {s : Statement} (h : s.Flat) :
    ∀ t ∈ s.spliced, (t.isCompound = false ∧ t.isNoOp = false) ∧ t.Flat := by
  cases s with
  | noOp loc => simp [Statement.spliced]
  | action loc a => simpa [Statement.spliced, Statement.isCompound, Statement.isNoOp] using h
  | branch | loop => simpa [Statement.spliced, Statement.isCompound, Statement.isNoOp] using h
  | compound b =>
    obtain ⟨htidy, hstatements⟩ := Block.flat_iff.1 (Statement.flat_compound.1 h)
    exact fun t ht => ⟨htidy t ht, hstatements t ht⟩

theorem Statement.flatMap_spliced {ss : List Statement} (h : ∀ s ∈ ss, s.isCompound = false) :
    ss.flatMap Statement.spliced = ss.filter (!·.isNoOp) := by
  induction ss with
  | nil => rfl
  | cons s ss ih =>
    rw [List.flatMap_cons, ih fun t ht => h t (List.mem_cons_of_mem s ht), List.filter_cons]
    have hs := h s List.mem_cons_self
    cases s <;> simp_all [Statement.spliced, Statement.isCompound, Statement.isNoOp]

namespace Block

theorem flat_ofStatements (loc : Location) {ss : List Statement} (h : ∀ s ∈ ss, s.Flat) :
    (ofStatements loc ss).Flat := by
  refine flat_iff.2 ⟨fun t ht => ?_, fun t ht => ?_⟩ <;>
    obtain ⟨s, hs, hts⟩ := List.mem_flatMap.1 ht
  · exact ((h s hs).spliced t hts).1
  · exact ((h s hs).spliced t hts).2

theorem flat_empty (loc : Location) : (empty loc).Flat :=
  flat_ofStatements loc (List.forall_mem_nil Statement.Flat)

theorem flat_ofStatement {s : Statement} (h : s.Flat) : (ofStatement s).Flat := by
  cases s with
  | compound b => exact Statement.flat_compound.1 h
  | noOp | action | branch | loop =>
    exact flat_ofStatements _ fun t ht => List.mem_singleton.1 ht ▸ h

theorem Tidy.ofStatements_self {b : Block} (h : b.Tidy) : ofStatements b.loc b.statements = b := by
  have hsplice := Statement.flatMap_spliced fun s hs => (h s hs).1
  have hkeep : b.statements.filter (!·.isNoOp) = b.statements :=
    List.filter_eq_self.2 fun s hs => by rw [(h s hs).2, Bool.not_false]
  rw [ofStatements, hsplice, hkeep]
  cases b
  rfl

end Block

theorem Statement.flat_ifElse (loc : Location) (condition : Expr) {thenPart : Statement}
    {elsePart : Option Statement} (hthen : thenPart.Flat) (helse : ∀ s ∈ elsePart, s.Flat) :
    (Statement.ifElse loc condition thenPart elsePart).Flat := by
  refine Statement.flat_branch.2 ⟨Block.flat_ofStatement hthen, ?_⟩
  cases elsePart with
  | none => exact Block.flat_empty loc
  | some s => exact Block.flat_ofStatement (helse s rfl)

mutual

/-- The statements that can be had. A value may be used again, so copies need no constructor. -/
inductive Statement.Obtainable : Statement → Prop
  | noOp (loc : Location) : Statement.Obtainable (.noOp loc)
  | action (loc : Location) (a : Action) : Statement.Obtainable (.action loc a)
  | compound {b : Block} : Block.Obtainable b → Statement.Obtainable (.compound b)
  | branch (loc : Location) (condition : Expr) {thenBlock elseBlock : Block} :
      Block.Obtainable thenBlock → Block.Obtainable elseBlock →
      Statement.Obtainable (.branch loc condition thenBlock elseBlock)
  | loop (loc : Location) (condition : Expr) {body : Block} :
      Block.Obtainable body → Statement.Obtainable (.loop loc condition body)
  | ifElse (loc : Location) (condition : Expr) {thenPart : Statement}
      {elsePart : Option Statement} :
      Statement.Obtainable thenPart → (∀ s ∈ elsePart, Statement.Obtainable s) →
      Statement.Obtainable (.ifElse loc condition thenPart elsePart)
  | whileLoop (loc : Location) (condition : Expr) {body : Statement} :
      Statement.Obtainable body → Statement.Obtainable (.whileLoop loc condition body)
  /-- A block gives its statements away. -/
  | member {b : Block} {s : Statement} : Block.Obtainable b → s ∈ b.statements →
      Statement.Obtainable s

inductive Block.Obtainable : Block → Prop
  | ofStatements (loc : Location) {ss : List Statement} :
      (∀ s ∈ ss, Statement.Obtainable s) → Block.Obtainable (.ofStatements loc ss)
  | empty (loc : Location) : Block.Obtainable (.empty loc)
  | ofStatement {s : Statement} : Statement.Obtainable s → Block.Obtainable (.ofStatement s)
  /-- A statement that holds blocks can be taken apart. -/
  | body {s : Statement} {b : Block} : Statement.Obtainable s → b ∈ s.bodies → Block.Obtainable b

end

mutual

theorem Statement.Obtainable.flat : ∀ {s : Statement}, s.Obtainable → s.Flat
  | _, .noOp _ => Statement.flat_of_isLeaf rfl
  | _, .action _ _ => Statement.flat_of_isLeaf rfl
  | _, .compound hb => Statement.flat_compound.2 hb.flat
  | _, .branch _ _ ht he => Statement.flat_branch.2 ⟨ht.flat, he.flat⟩
  | _, .loop _ _ hb => Statement.flat_loop.2 hb.flat
  | _, .ifElse loc condition ht he =>
    Statement.flat_ifElse loc condition ht.flat fun s hs => (he s hs).flat
  | _, .whileLoop _ _ hb => Statement.flat_loop.2 (Block.flat_ofStatement hb.flat)
  | _, .member hb hs => (Block.flat_iff.1 hb.flat).2 _ hs

theorem Block.Obtainable.flat : ∀ {b : Block}, b.Obtainable → b.Flat
  | _, .ofStatements loc hs => Block.flat_ofStatements loc fun s hmem => (hs s hmem).flat
  | _, .empty loc => Block.flat_empty loc
  | _, .ofStatement hs => Block.flat_ofStatement hs.flat
  | _, .body hs hb => Statement.flat_iff.1 hs.flat _ hb

end

theorem Block.Flat.obtainable {b : Block} (h : b.Flat)
    (hs : ∀ s ∈ b.statements, s.Flat → s.Obtainable) : b.Obtainable := by
  obtain ⟨htidy, hstatements⟩ := Block.flat_iff.1 h
  rw [← htidy.ofStatements_self]
  exact .ofStatements b.loc fun s hmem => hs s hmem (hstatements s hmem)

theorem Statement.Flat.obtainable {s : Statement} (h : s.Flat) : s.Obtainable := by
  induction s using Statement.treeInduction with
  | noOp loc => exact .noOp loc
  | action loc a => exact .action loc a
  | compound b ih => exact .compound ((Statement.flat_compound.1 h).obtainable ih)
  | branch loc condition t e iht ihe =>
    obtain ⟨ht, he⟩ := Statement.flat_branch.1 h
    exact .branch loc condition (ht.obtainable iht) (he.obtainable ihe)
  | loop loc condition b ih =>
    exact .loop loc condition ((Statement.flat_loop.1 h).obtainable ih)

/-- No block that can be had, nor any block inside a value that can be had, holds a block or a
placeholder; and every tree without such blocks can be had. -/
theorem obtainable_iff_flat :
    (∀ s : Statement, s.Obtainable ↔
      ∀ b ∈ s.blocks, ∀ t ∈ b.statements, t.isCompound = false ∧ t.isNoOp = false) ∧
    ∀ b : Block, b.Obtainable ↔
      ∀ c ∈ b.blocks, ∀ t ∈ c.statements, t.isCompound = false ∧ t.isNoOp = false := by
  refine ⟨fun s => ⟨fun h => h.flat, fun h => Statement.Flat.obtainable h⟩, fun b => ?_⟩
  exact ⟨fun h => h.flat, fun h => Block.Flat.obtainable h fun s _ hs => hs.obtainable⟩

end MachineLang
