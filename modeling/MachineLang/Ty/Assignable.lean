import MachineLang.Ty.Text

set_option autoImplicit false

/-!
# Assignability

`target.accepts source` says that a value of type `source` may be stored where `target` is
declared. Typedefs do not matter on either side. Storing copies the value, so collections and tuples
accept whatever their parts accept. Besides, `any` takes every value, `data` every value without a
machine reference, `machine` every permission, and a permission every permission that allows its
events.
-/
namespace MachineLang.Ty

def keywordAccepts (target : Primitive) : Ty → Bool
  | prim p => target.accepts p
  | permission _ => target == .any || target == .machine
  | source => target == .any || target == .data && source.isData

def permissionAccepts (target : Permission) : Ty → Bool
  | prim p => p == .null
  | permission p => target.accepts p
  | _ => false

mutual

def accepts : Ty → Ty → Bool
  | prim p, source => keywordAccepts p source.unfold
  | seq element, source =>
    match source.unfold with
    | seq other => element.accepts other
    | _ => false
  | set element, source =>
    match source.unfold with
    | set other => element.accepts other
    | _ => false
  | map key value, source =>
    match source.unfold with
    | map otherKey otherValue => key.accepts otherKey && value.accepts otherValue
    | _ => false
  | tuple elements, source =>
    match source.unfold with
    | tuple others => allAccept elements others
    | _ => false
  | named fields, source =>
    match source.unfold with
    | named others => fieldsAccept fields others
    | _ => false
  | enum decl, source =>
    match source.unfold with
    | enum other => decl == other
    | _ => false
  | typedef _ target, source => target.accepts source
  | permission p, source => permissionAccepts p source.unfold
  | foreign name, source =>
    match source.unfold with
    | foreign other => name == other
    | _ => false

def allAccept : List Ty → List Ty → Bool
  | [], [] => true
  | t :: ts, s :: ss => t.accepts s && allAccept ts ss
  | _, _ => false

def fieldsAccept : List (String × Ty) → List (String × Ty) → Bool
  | [], [] => true
  | (m, t) :: ts, (n, s) :: ss => m == n && t.accepts s && fieldsAccept ts ss
  | _, _ => false

end

structure Mismatch where
  expected : String
  found : String
  deriving DecidableEq

def Mismatch.message (m : Mismatch) : String :=
  "value of type `" ++ m.found ++ "` cannot be assigned to `" ++ m.expected ++ "`"

def check (target source : Ty) : Except Mismatch Unit :=
  if target.accepts source then .ok () else .error ⟨target.writtenText, source.writtenText⟩

theorem accepts_unfold : ∀ target source : Ty,
    target.accepts source.unfold = target.accepts source
  | typedef _ target, source => by simp only [accepts, accepts_unfold target source]
  | prim _, _ | seq _, _ | set _, _ | map _ _, _ | tuple _, _ | named _, _ | enum _, _
  | permission _, _ | foreign _, _ => by simp only [accepts, unfold_unfold]

theorem check_eq_ok_iff (target source : Ty) :
    check target source = .ok () ↔ target.accepts source := by
  unfold check
  split <;> simp_all

end MachineLang.Ty
