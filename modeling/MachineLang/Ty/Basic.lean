import MachineLang.Primitive
import MachineLang.Enumeration
import MachineLang.Permission

set_option autoImplicit false

namespace MachineLang

inductive Ty where
  | prim (p : Primitive)
  | seq (element : Ty)
  | set (element : Ty)
  | map (key value : Ty)
  | tuple (elements : List Ty)
  | named (fields : List (String × Ty))
  | enum (decl : Enumeration)
  | typedef (name : String) (target : Ty)
  | permission (p : Permission)
  /-- A type whose values come from outside the language. -/
  | foreign (name : String)

namespace Ty

inductive Kind where
  | primitive | sequence | set | map | tuple | namedTuple | enum | typedef | permission | foreign
  deriving DecidableEq

namespace Kind

def name : Kind → String
  | primitive => "primitive"
  | sequence => "sequence"
  | set => "set"
  | map => "map"
  | tuple => "tuple"
  | namedTuple => "named tuple"
  | enum => "enum"
  | typedef => "typedef"
  | permission => "permission"
  | foreign => "foreign"

def isPrimitive (k : Kind) : Bool := k == primitive

def isCollection (k : Kind) : Bool := k == sequence || k == set || k == map

def isTuple (k : Kind) : Bool := k == tuple || k == namedTuple

def isNominal (k : Kind) : Bool := k == enum || k == typedef || k == foreign

end Kind

def kind : Ty → Kind
  | prim _ => .primitive
  | seq _ => .sequence
  | set _ => .set
  | map _ _ => .map
  | tuple _ => .tuple
  | named _ => .namedTuple
  | enum _ => .enum
  | typedef _ _ => .typedef
  | permission _ => .permission
  | foreign _ => .foreign

/-- The element type of a sequence or a set; a typedef of one has none. -/
def element? : Ty → Option Ty
  | seq element | set element => some element
  | _ => none

def unfold : Ty → Ty
  | typedef _ target => target.unfold
  | t => t

theorem unfold_unfold (t : Ty) : t.unfold.unfold = t.unfold := by
  fun_induction unfold t with
  | case1 _ _ ih => exact ih
  | case2 t h => cases t <;> simp_all [unfold]

mutual

/-- Whether values of the type hold no reference to a machine at any depth. -/
def isData : Ty → Bool
  | prim p => p.isData
  | seq element | set element => element.isData
  | map key value => key.isData && value.isData
  | tuple elements => allData elements
  | named fields => fieldsData fields
  | enum _ | foreign _ => true
  | typedef _ target => target.isData
  | permission _ => false

def allData : List Ty → Bool
  | [] => true
  | t :: ts => t.isData && allData ts

def fieldsData : List (String × Ty) → Bool
  | [] => true
  | (_, t) :: fields => t.isData && fieldsData fields

end

theorem isData_unfold (t : Ty) : t.unfold.isData = t.isData := by
  fun_induction unfold t with
  | case1 _ _ ih => exact ih
  | case2 => rfl

theorem allData_eq_all (ts : List Ty) : allData ts = ts.all isData := by
  induction ts with
  | nil => rfl
  | cons t ts ih => simp [allData, ih]

theorem fieldsData_eq_all (fields : List (String × Ty)) :
    fieldsData fields = fields.all fun field => field.2.isData := by
  induction fields with
  | nil => rfl
  | cons field fields ih => simp [fieldsData, ih]

mutual

/-- Equality of trees: typedef names, written events and enumeration values all count. -/
def same : Ty → Ty → Bool
  | prim p, prim q => p == q
  | seq s, seq t | set s, set t => s.same t
  | map k v, map l w => k.same l && v.same w
  | tuple ss, tuple ts => sameAll ss ts
  | named ss, named ts => sameFields ss ts
  | enum d, enum e => d == e
  | typedef m s, typedef n t => m == n && s.same t
  | permission p, permission q => p == q
  | foreign m, foreign n => m == n
  | _, _ => false

def sameAll : List Ty → List Ty → Bool
  | [], [] => true
  | s :: ss, t :: ts => s.same t && sameAll ss ts
  | _, _ => false

def sameFields : List (String × Ty) → List (String × Ty) → Bool
  | [], [] => true
  | (m, s) :: ss, (n, t) :: ts => m == n && s.same t && sameFields ss ts
  | _, _ => false

end

mutual

theorem same_self : ∀ t : Ty, t.same t
  | prim _ | enum _ | permission _ | foreign _ => by simp [same]
  | seq s | set s => by simp [same, same_self s]
  | map k v => by simp [same, same_self k, same_self v]
  | tuple ts => by simp [same, sameAll_self ts]
  | named fields => by simp [same, sameFields_self fields]
  | typedef _ t => by simp [same, same_self t]

theorem sameAll_self : ∀ ts : List Ty, sameAll ts ts
  | [] => rfl
  | t :: ts => by simp [sameAll, same_self t, sameAll_self ts]

theorem sameFields_self : ∀ fields : List (String × Ty), sameFields fields fields
  | [] => rfl
  | (_, t) :: fields => by simp [sameFields, same_self t, sameFields_self fields]

end

mutual

theorem eq_of_same : ∀ {s t : Ty}, s.same t → s = t := by
  intro s t h
  cases s <;> cases t <;> simp only [same, Bool.false_eq_true] at h
  case prim => simpa using h
  case seq => exact congrArg seq (eq_of_same h)
  case set => exact congrArg set (eq_of_same h)
  case map =>
    rw [Bool.and_eq_true] at h
    rw [eq_of_same h.1, eq_of_same h.2]
  case tuple => exact congrArg tuple (eq_of_sameAll h)
  case named => exact congrArg named (eq_of_sameFields h)
  case enum => simpa using h
  case typedef =>
    rw [Bool.and_eq_true, beq_iff_eq] at h
    rw [h.1, eq_of_same h.2]
  case permission => simpa using h
  case foreign => simpa using h

theorem eq_of_sameAll : ∀ {ss ts : List Ty}, sameAll ss ts → ss = ts
  | [], [], _ => rfl
  | [], _ :: _, h | _ :: _, [], h => by simp [sameAll] at h
  | s :: ss, t :: ts, h => by
    rw [sameAll, Bool.and_eq_true] at h
    rw [eq_of_same h.1, eq_of_sameAll h.2]

theorem eq_of_sameFields : ∀ {ss ts : List (String × Ty)}, sameFields ss ts → ss = ts
  | [], [], _ => rfl
  | [], _ :: _, h | _ :: _, [], h => by simp [sameFields] at h
  | (m, s) :: ss, (n, t) :: ts, h => by
    simp only [sameFields, Bool.and_eq_true, beq_iff_eq] at h
    rw [h.1.1, eq_of_same h.1.2, eq_of_sameFields h.2]

end

instance : DecidableEq Ty := fun s t =>
  if h : s.same t then isTrue (eq_of_same h)
  else isFalse fun he => h (he ▸ same_self s)

end Ty
end MachineLang
