import MachineLang.Location
import MachineLang.Text.Quoted
import MachineLang.Ty.Text

set_option autoImplicit false

namespace MachineLang

inductive Expr where
  /-- The name of a variable, a state or an event. -/
  | var (loc : Location) (name : String)
  | int (loc : Location) (value : Int)
  | bool (loc : Location) (value : Bool)
  | str (loc : Location) (value : String)
  | null (loc : Location)
  /-- The machine that executes the statement. -/
  | this (loc : Location)
  | defaultOf (loc : Location) (type : Ty)
  | call (loc : Location) (function : String) (arguments : List Expr)

namespace Expr

def loc : Expr → Location
  | var l _ | int l _ | bool l _ | str l _ | null l | this l | defaultOf l _ | call l _ _ => l

def children : Expr → List Expr
  | call _ _ arguments => arguments
  | _ => []

def callText (function : String) (arguments : List String) : String :=
  function ++ "(" ++ ", ".intercalate arguments ++ ")"

mutual

def text : Expr → String
  | var _ name => name
  | int _ value => toString value
  | bool _ value => if value then "true" else "false"
  | str _ value => Text.quoted value
  | null _ => "null"
  | this _ => "this"
  | defaultOf _ type => "default(" ++ type.writtenText ++ ")"
  | call _ function arguments => callText function (texts arguments)

def texts : List Expr → List String
  | [] => []
  | e :: es => e.text :: texts es

end

theorem texts_eq_map (es : List Expr) : texts es = es.map text := by
  induction es with
  | nil => rfl
  | cons e es ih => simp [texts, ih]

mutual

def same : Expr → Expr → Bool
  | var k m, var l n => k == l && m == n
  | int k m, int l n => k == l && m == n
  | bool k m, bool l n => k == l && m == n
  | str k m, str l n => k == l && m == n
  | null k, null l => k == l
  | this k, this l => k == l
  | defaultOf k s, defaultOf l t => k == l && s == t
  | call k f as, call l g bs => k == l && f == g && sameAll as bs
  | _, _ => false

def sameAll : List Expr → List Expr → Bool
  | [], [] => true
  | d :: ds, e :: es => d.same e && sameAll ds es
  | _, _ => false

end

mutual

theorem same_self : ∀ e : Expr, e.same e
  | var .. | int .. | bool .. | str .. | null .. | this .. | defaultOf .. => by simp [same]
  | call _ _ arguments => by simp [same, sameAll_self arguments]

theorem sameAll_self : ∀ es : List Expr, sameAll es es
  | [] => rfl
  | e :: es => by simp [sameAll, same_self e, sameAll_self es]

end

mutual

theorem eq_of_same : ∀ {d e : Expr}, d.same e → d = e := by
  intro d e h
  cases d <;> cases e <;>
    simp only [same, Bool.and_eq_true, beq_iff_eq, Bool.false_eq_true] at h
  case call => rw [h.1.1, h.1.2, eq_of_sameAll h.2]
  all_goals simp [h]

theorem eq_of_sameAll : ∀ {ds es : List Expr}, sameAll ds es → ds = es
  | [], [], _ => rfl
  | [], _ :: _, h | _ :: _, [], h => by simp [sameAll] at h
  | d :: ds, e :: es, h => by
    rw [sameAll, Bool.and_eq_true] at h
    rw [eq_of_same h.1, eq_of_sameAll h.2]

end

instance : DecidableEq Expr := fun d e =>
  if h : d.same e then isTrue (eq_of_same h)
  else isFalse fun he => h (he ▸ same_self d)

end Expr
end MachineLang
