import Mathlib.Algebra.Group.Nat.Defs
import Mathlib.Tactic.SplitIfs

set_option autoImplicit false

/-!
# The order of texts by their bytes

A character takes a first byte, which says how many bytes follow, and in these the digits of the
code point to base 64. A greater character has a greater first byte or differs from a smaller one
in these digits, so its bytes come later whatever follows them, and texts are ordered alike by
their code points and by their bytes.
-/
namespace MachineLang.Text

def bytes (s : String) : List UInt8 := s.toByteArray.data.toList

theorem bytes_eq_flatMap (s : String) : bytes s = s.toList.flatMap String.utf8EncodeChar := by
  rw [bytes, ← String.utf8Encode_toList, List.utf8Encode, List.toList_data_toByteArray]

theorem ofNat_cons_lt_iff {m n : Nat} {bs bs' : List UInt8} (hm : m < 256) (hn : n < 256) :
    UInt8.ofNat m :: bs < UInt8.ofNat n :: bs' ↔ m < n ∨ m = n ∧ bs < bs' := by
  rw [List.cons_lt_cons_iff, UInt8.lt_iff_toNat_lt, ← UInt8.toNat_inj,
    UInt8.toNat_ofNat_of_lt' hm, UInt8.toNat_ofNat_of_lt' hn]

/-- The last digits of a code point as bytes, before the bytes of what follows. -/
def digitBytes : (digits : Nat) → Nat → List UInt8 → List UInt8
  | 0, _, rest => rest
  | k + 1, n, rest => UInt8.ofNat (n / 64 ^ k % 64 + 128) :: digitBytes k n rest

theorem digitBytes_lt {m n : Nat} (h : m < n) {k : Nat} (hfirst : m / 64 ^ k = n / 64 ^ k)
    (rest rest' : List UInt8) : digitBytes k m rest < digitBytes k n rest' := by
  induction k with
  | zero =>
    rw [Nat.pow_zero, Nat.div_one, Nat.div_one] at hfirst
    exact absurd hfirst (Nat.ne_of_lt h)
  | succ k ih =>
    rw [Nat.pow_succ, ← Nat.div_div_eq_div_mul, ← Nat.div_div_eq_div_mul] at hfirst
    rw [digitBytes, digitBytes, ofNat_cons_lt_iff (by omega) (by omega)]
    rcases Nat.lt_or_eq_of_le (Nat.div_le_div_right (c := 64 ^ k) (Nat.le_of_lt h)) with hlt | heq
    · generalize m / 64 ^ k = a at *
      generalize n / 64 ^ k = b at *
      exact .inl (by omega)
    · exact .inr ⟨by rw [heq], ih heq⟩

/-- How many bytes come after the first byte of a code point. -/
def trailing (n : Nat) : Nat :=
  if n ≤ 127 then 0 else if n ≤ 2047 then 1 else if n ≤ 65535 then 2 else 3

/-- What is added to a first byte to tell the number of bytes. -/
def mark (n : Nat) : Nat :=
  if n ≤ 127 then 0 else if n ≤ 2047 then 192 else if n ≤ 65535 then 224 else 240

def firstByte (n : Nat) : Nat := n / 64 ^ trailing n + mark n

theorem codePoint_lt (c : Char) : c.val.toNat < 1114112 := by
  have hvalid := c.valid
  unfold UInt32.isValidChar Nat.isValidChar at hvalid
  omega

theorem utf8EncodeChar_append (c : Char) (rest : List UInt8) :
    String.utf8EncodeChar c ++ rest =
      UInt8.ofNat (firstByte c.val.toNat) ::
        digitBytes (trailing c.val.toNat) c.val.toNat rest := by
  have hc := codePoint_lt c
  simp only [String.utf8EncodeChar, firstByte, trailing, mark]
  generalize c.val.toNat = n at hc
  split_ifs with h1 h2 h3
  · simp [digitBytes]
  · rw [Nat.mod_eq_of_lt (show n / 64 < 32 by omega)]
    simp [digitBytes]
  · rw [Nat.mod_eq_of_lt (show n / 4096 < 16 by omega)]
    simp [digitBytes]
  · rw [Nat.mod_eq_of_lt (show n / 262144 < 8 by omega)]
    simp [digitBytes]

theorem firstByte_lt {n : Nat} (h : n < 1114112) : firstByte n < 256 := by
  unfold firstByte trailing mark
  split_ifs <;> omega

theorem firstByte_lt_or {m n : Nat} (h : m < n) : firstByte m < firstByte n ∨
    firstByte m = firstByte n ∧ trailing m = trailing n ∧
      m / 64 ^ trailing m = n / 64 ^ trailing n := by
  unfold firstByte trailing mark
  split_ifs <;> omega

/-- No character's bytes are the beginning of another's, so the rests do not matter. -/
theorem utf8EncodeChar_append_lt {c d : Char} (h : c < d) (rest rest' : List UInt8) :
    String.utf8EncodeChar c ++ rest < String.utf8EncodeChar d ++ rest' := by
  have hlt : c.val.toNat < d.val.toNat := h
  rw [utf8EncodeChar_append, utf8EncodeChar_append,
    ofNat_cons_lt_iff (firstByte_lt (codePoint_lt c)) (firstByte_lt (codePoint_lt d))]
  rcases firstByte_lt_or hlt with hfirst | ⟨hfirst, htrailing, hdigits⟩
  · exact .inl hfirst
  · rw [htrailing] at hdigits ⊢
    exact .inr ⟨hfirst, digitBytes_lt hlt hdigits rest rest'⟩

theorem flatMap_utf8EncodeChar_lt {cs ds : List Char} (h : cs < ds) :
    cs.flatMap String.utf8EncodeChar < ds.flatMap String.utf8EncodeChar := by
  induction cs generalizing ds with
  | nil =>
    cases ds with
    | nil => exact absurd h (List.lt_irrefl [])
    | cons d ds =>
      rw [List.flatMap_nil, List.flatMap_cons, utf8EncodeChar_append]
      exact List.nil_lt_cons _ _
  | cons c cs ih =>
    cases ds with
    | nil => exact absurd h (List.not_lt_nil _)
    | cons d ds =>
      rw [List.flatMap_cons, List.flatMap_cons]
      rcases List.cons_lt_cons_iff.1 h with hcd | ⟨rfl, hrest⟩
      · exact utf8EncodeChar_append_lt hcd _ _
      · exact List.append_left_lt (ih hrest)

theorem bytes_lt {s t : String} (h : s < t) : bytes s < bytes t := by
  have hchars : s.toList < t.toList := h
  rw [bytes_eq_flatMap, bytes_eq_flatMap]
  exact flatMap_utf8EncodeChar_lt hchars

theorem bytes_lt_iff {s t : String} : bytes s < bytes t ↔ s < t := by
  refine ⟨fun h => ?_, bytes_lt⟩
  rcases Std.lt_trichotomy s t with hlt | rfl | hgt
  · exact hlt
  · exact absurd h (List.lt_irrefl _)
  · exact absurd (bytes_lt hgt) (List.lt_asymm h)

theorem bytes_le_iff {s t : String} : bytes s ≤ bytes t ↔ s ≤ t := not_congr bytes_lt_iff

end MachineLang.Text
