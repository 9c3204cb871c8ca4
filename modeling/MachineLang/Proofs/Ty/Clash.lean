import MachineLang.Proofs.Ty.Canonical

set_option autoImplicit false

namespace MachineLang.Ty

/-- What a type is apart from its parts. -/
inductive Shape where
  | prim (p : Primitive)
  | seq
  | set
  | map
  | tuple (arity : Nat)
  | named (names : List String)
  | enum (decl : Enumeration)
  | permission (eventSet : List String)
  | foreign (name : String)

namespace Shape

def arity : Shape → Nat
  | seq | set => 1
  | map => 2
  | tuple arity => arity
  | named names => names.length
  | prim _ | enum _ | permission _ | foreign _ => 0

end Shape

def shape : Ty → Shape
  | prim p => .prim p
  | seq _ => .seq
  | set _ => .set
  | map _ _ => .map
  | tuple elements => .tuple elements.length
  | named fields => .named (fields.map Prod.fst)
  | enum decl => .enum decl
  | typedef _ target => target.shape
  | permission p => .permission p.eventSet
  | foreign name => .foreign name

theorem shape_unfold (t : Ty) : t.unfold.shape = t.shape := by
  fun_induction unfold t with
  | case1 _ _ ih => exact ih
  | case2 => rfl

theorem length_parts_unfold (t : Ty) : t.unfold.parts.length = t.shape.arity := by
  fun_induction unfold t with
  | case1 _ _ ih => exact ih
  | case2 t h => cases t <;> simp_all [shape, Shape.arity, parts]

theorem shape_canonicalize (t : Ty) : t.canonicalize.shape = t.shape := by
  induction t using treeInduction with
  | typedef name target ih => exact ih
  | permission p => exact congrArg Shape.permission p.eventSet_canonical
  | tuple elements => simp [canonicalize, canonicalizeAll_eq_map, shape]
  | named fields => simp [canonicalize, canonicalizeFields_eq_map, shape]
  | prim | seq | set | map | enum | foreign => rfl

theorem parts_canonicalize (t : Ty) :
    t.canonicalize.parts = t.unfold.parts.map canonicalize := by
  induction t using treeInduction with
  | typedef name target ih => exact ih
  | tuple elements => exact canonicalizeAll_eq_map elements
  | named fields => simp [canonicalize, canonicalizeFields_eq_map, unfold, parts]
  | prim | seq | set | map | enum | permission | foreign => rfl

theorem eq_of_shape_of_parts {s t : Ty} (hs : s.isCanonical) (ht : t.isCanonical)
    (hshape : s.shape = t.shape) (hparts : s.parts = t.parts) : s = t := by
  cases s <;> cases t <;>
    simp only [shape, parts, isCanonical, Shape.prim.injEq, Shape.enum.injEq,
      Shape.permission.injEq, Shape.named.injEq, Shape.foreign.injEq, List.cons.injEq, and_true,
      reduceCtorEq, Bool.false_eq_true] at hs ht hshape hparts
  case prim => rw [hshape]
  case seq => rw [hparts]
  case set => rw [hparts]
  case map => rw [hparts.1, hparts.2]
  case tuple => rw [hparts]
  case named =>
    exact congrArg named ((List.zip_of_prod hshape hparts).trans (List.zip_of_prod rfl rfl).symm)
  case enum => rw [hshape]
  case permission p q =>
    rw [← Permission.canonical_of_isCanonical hs, ← Permission.canonical_of_isCanonical ht]
    rw [Permission.canonical, Permission.canonical, hshape]
  case foreign => rw [hshape]

/-- At the same place below both types the shapes are different. -/
inductive Clash : Ty → Ty → Prop
  | shape {s t : Ty} (h : s.shape ≠ t.shape) : Clash s t
  | part {s t u v : Ty} {i : Nat} (hs : s.unfold.parts[i]? = some u)
      (ht : t.unfold.parts[i]? = some v) (h : Clash u v) : Clash s t

theorem Clash.canonicalize_ne {s t : Ty} (h : Clash s t) : s.canonicalize ≠ t.canonicalize := by
  induction h with
  | @shape s t h =>
    intro heq
    rw [← shape_canonicalize s, heq, shape_canonicalize t] at h
    exact h rfl
  | @part s t u v i hs ht _ ih =>
    intro heq
    have hparts := congrArg (fun r => r.parts[i]?) heq
    simp only [parts_canonicalize, List.getElem?_map, hs, ht] at hparts
    exact ih (Option.some.inj hparts)

theorem canonicalize_eq_of_not_clash {s t : Ty} (h : ¬ Clash s t) :
    s.canonicalize = t.canonicalize := by
  induction s using unfoldInduction generalizing t with
  | step s ih =>
    have hshape : s.shape = t.shape := not_not.1 fun hne => h (.shape hne)
    have hlength : s.unfold.parts.length = t.unfold.parts.length := by
      rw [length_parts_unfold, length_parts_unfold, hshape]
    refine eq_of_shape_of_parts s.isCanonical_canonicalize t.isCanonical_canonicalize ?_ ?_
    · rw [shape_canonicalize, shape_canonicalize, hshape]
    · rw [parts_canonicalize, parts_canonicalize]
      refine List.ext_getElem (by simpa using hlength) fun i hi hi' => ?_
      rw [List.length_map] at hi hi'
      rw [List.getElem_map, List.getElem_map]
      refine ih _ (List.getElem_mem hi) fun hclash => h ?_
      exact .part (List.getElem?_eq_getElem hi) (List.getElem?_eq_getElem hi') hclash

theorem clash_iff {s t : Ty} : Clash s t ↔ s.canonicalize ≠ t.canonicalize :=
  ⟨Clash.canonicalize_ne, fun hne => not_not.1 fun h => hne (canonicalize_eq_of_not_clash h)⟩

end MachineLang.Ty
