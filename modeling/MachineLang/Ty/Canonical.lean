import MachineLang.Ty.Basic

set_option autoImplicit false

namespace MachineLang.Ty

mutual

def canonicalize : Ty → Ty
  | prim p => prim p
  | seq element => seq element.canonicalize
  | set element => set element.canonicalize
  | map key value => map key.canonicalize value.canonicalize
  | tuple elements => tuple (canonicalizeAll elements)
  | named fields => named (canonicalizeFields fields)
  | enum decl => enum decl
  | typedef _ target => target.canonicalize
  | permission p => permission p.canonical
  | foreign name => foreign name

def canonicalizeAll : List Ty → List Ty
  | [] => []
  | t :: ts => t.canonicalize :: canonicalizeAll ts

def canonicalizeFields : List (String × Ty) → List (String × Ty)
  | [] => []
  | (name, t) :: fields => (name, t.canonicalize) :: canonicalizeFields fields

end

mutual

def isCanonical : Ty → Bool
  | prim _ | enum _ | foreign _ => true
  | seq element | set element => element.isCanonical
  | map key value => key.isCanonical && value.isCanonical
  | tuple elements => allCanonical elements
  | named fields => fieldsCanonical fields
  | typedef _ _ => false
  | permission p => p.isCanonical

def allCanonical : List Ty → Bool
  | [] => true
  | t :: ts => t.isCanonical && allCanonical ts

def fieldsCanonical : List (String × Ty) → Bool
  | [] => true
  | (_, t) :: fields => t.isCanonical && fieldsCanonical fields

end

theorem canonicalizeAll_eq_map (ts : List Ty) : canonicalizeAll ts = ts.map canonicalize := by
  induction ts with
  | nil => rfl
  | cons t ts ih => simp [canonicalizeAll, ih]

theorem canonicalizeFields_eq_map (fields : List (String × Ty)) :
    canonicalizeFields fields = fields.map fun field => (field.1, field.2.canonicalize) := by
  induction fields with
  | nil => rfl
  | cons field fields ih => simp [canonicalizeFields, ih]

theorem allCanonical_eq_all (ts : List Ty) : allCanonical ts = ts.all isCanonical := by
  induction ts with
  | nil => rfl
  | cons t ts ih => simp [allCanonical, ih]

theorem fieldsCanonical_eq_all (fields : List (String × Ty)) :
    fieldsCanonical fields = fields.all fun field => field.2.isCanonical := by
  induction fields with
  | nil => rfl
  | cons field fields ih => simp [fieldsCanonical, ih]

theorem canonicalize_unfold (t : Ty) : t.unfold.canonicalize = t.canonicalize := by
  fun_induction unfold t with
  | case1 _ _ ih => exact ih
  | case2 => rfl

end MachineLang.Ty
