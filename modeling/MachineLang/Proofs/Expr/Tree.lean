import MachineLang.Expr

set_option autoImplicit false

namespace MachineLang.Expr

@[elab_as_elim]
theorem treeInduction {motive : Expr → Prop}
    (var : ∀ loc name, motive (.var loc name))
    (int : ∀ loc value, motive (.int loc value))
    (bool : ∀ loc value, motive (.bool loc value))
    (str : ∀ loc value, motive (.str loc value))
    (null : ∀ loc, motive (.null loc))
    (this : ∀ loc, motive (.this loc))
    (defaultOf : ∀ loc type, motive (.defaultOf loc type))
    (call : ∀ loc function arguments, (∀ e ∈ arguments, motive e) →
      motive (.call loc function arguments)) (e : Expr) : motive e :=
  Expr.rec (motive_1 := motive) (motive_2 := fun es => ∀ e ∈ es, motive e)
    var int bool str null this defaultOf call
    (by simp) (fun _ _ hd tl => List.forall_mem_cons.2 ⟨hd, tl⟩) e

mutual

def nodes : Expr → List Expr
  | call loc function arguments => call loc function arguments :: nodesAll arguments
  | e => [e]

def nodesAll : List Expr → List Expr
  | [] => []
  | e :: es => e.nodes ++ nodesAll es

end

theorem nodesAll_eq_flatMap (es : List Expr) : nodesAll es = es.flatMap nodes := by
  induction es with
  | nil => rfl
  | cons e es ih => rw [nodesAll, ih, List.flatMap_cons]

theorem nodes_eq (e : Expr) : e.nodes = e :: e.children.flatMap nodes := by
  cases e <;> simp [nodes, children, nodesAll_eq_flatMap]

theorem self_mem_nodes (e : Expr) : e ∈ e.nodes := by
  rw [nodes_eq]
  exact List.mem_cons_self

theorem mem_nodes_of_child {c d e : Expr} (hd : d ∈ e.children) (hc : c ∈ d.nodes) :
    c ∈ e.nodes := by
  rw [nodes_eq]
  exact List.mem_cons_of_mem e (List.mem_flatMap.2 ⟨d, hd, hc⟩)

end MachineLang.Expr
