import MachineLang.Proofs.Ty.Brackets
import MachineLang.Proofs.Ty.Reading

set_option autoImplicit false

namespace MachineLang.Text

/-- A letter or an underscore, followed by letters, digits and underscores; all of them in ASCII. -/
def isIdentifier (name : String) : Bool :=
  match name.toList with
  | [] => false
  | c :: cs => (c.isAlpha || c == '_') && cs.all fun d => d.isAlphanum || d == '_'

def isWordChar (c : Char) : Bool := c.isAlphanum || c == '_' || c == '-'

def Word (text : List Char) : Prop := text ≠ [] ∧ ∀ c ∈ text, isWordChar c

def separators : List Char := '"' :: '#' :: '\n' :: marks

theorem not_isWordChar : ∀ c ∈ separators, isWordChar c = false := by
  simp [separators, marks, isWordChar]

theorem Word.not_mem {text : List Char} (h : Word text) {c : Char} (hc : c ∈ separators) :
    c ∉ text := by
  intro hmem
  exact Bool.false_ne_true ((not_isWordChar c hc).symm.trans (h.2 c hmem))

theorem Word.not_marks {text : List Char} (h : Word text) : ∀ c ∈ text, c ∉ marks := by
  intro c hc hmark
  exact h.not_mem (by simp [separators, hmark]) hc

theorem Word.append_ne {text : List Char} (h : Word text) {c : Char} (hc : c ∈ separators)
    {rest rest' : List Char} : text ++ rest ≠ c :: rest' := by
  intro heq
  cases text with
  | nil => exact h.1 rfl
  | cons d text => exact h.not_mem hc ((List.cons.inj heq).1 ▸ List.mem_cons_self)

theorem not_isAlpha_of_isDigit {c : Char} (h : c.isDigit) : (c.isAlpha || c == '_') = false := by
  have hdigit : 48 ≤ c.toNat ∧ c.toNat ≤ 57 := by
    simpa [Char.isDigit, UInt32.le_iff_toNat_le] using h
  have hunderscore : c ≠ '_' := by
    rintro rfl
    revert hdigit
    decide
  have halpha : c.isAlpha = (decide (65 ≤ c.val ∧ c.val ≤ 90) ||
      decide (97 ≤ c.val) && decide (c.val ≤ 122)) := rfl
  have hval : c.val.toNat = c.toNat := rfl
  simp [halpha, UInt32.le_iff_toNat_le, hunderscore]
  omega

theorem exists_head_of_isIdentifier {name : String} (h : isIdentifier name) :
    ∃ c cs, name.toList = c :: cs ∧ (c.isAlpha || c == '_') := by
  unfold isIdentifier at h
  split at h
  · exact absurd h Bool.false_ne_true
  · next c cs hname => exact ⟨c, cs, hname, (Bool.and_eq_true_iff.1 h).1⟩

theorem word_of_isIdentifier {name : String} (h : isIdentifier name) : Word name.toList := by
  unfold isIdentifier at h
  split at h
  · exact absurd h Bool.false_ne_true
  · next c cs hname =>
    obtain ⟨hhead, htail⟩ := Bool.and_eq_true_iff.1 h
    rw [hname]
    refine ⟨List.cons_ne_nil c cs, List.forall_mem_cons.2 ⟨?_, fun d hd => ?_⟩⟩
    · simp only [isWordChar, Char.isAlphanum, Bool.or_eq_true] at hhead ⊢
      tauto
    · have hd := List.all_eq_true.1 htail d hd
      simp only [isWordChar, hd, Bool.true_or]

theorem isDigit_toString {n : Nat} {c : Char} (h : c ∈ (toString n).toList) : c.isDigit :=
  Nat.isDigit_of_mem_toDigits (b := 10) (by omega) (by omega) (by simpa using h)

theorem toString_nat_unique {m n : Nat} (h : toString m = toString n) : m = n := by
  have hdigits : Nat.toDigits 10 m = Nat.toDigits 10 n := by
    simpa using congrArg String.toList h
  rw [← Nat.ofDigitChars_ten_toDigits (n := m), hdigits, Nat.ofDigitChars_ten_toDigits]

theorem toString_int (value : Int) :
    ∃ n : Nat, toString value = toString n ∨ toString value = "-" ++ toString n := by
  cases value with
  | ofNat n => exact ⟨n, .inl rfl⟩
  | negSucc n => exact ⟨n + 1, .inr rfl⟩

theorem word_toString (value : Int) : Word (toString value).toList := by
  have hnat : ∀ n : Nat, Word (toString n).toList := fun n =>
    ⟨by simp, fun c hc => by simp [isWordChar, Char.isAlphanum, isDigit_toString hc]⟩
  obtain ⟨n, hvalue | hvalue⟩ := toString_int value
  · exact hvalue ▸ hnat n
  · rw [hvalue, String.toList_append]
    exact ⟨List.cons_ne_nil _ _, List.forall_mem_cons.2 ⟨rfl, (hnat n).2⟩⟩

theorem Woven.ofWord {P : String → Prop} (h : Woven P) {text : String} (hword : Word text.toList) :
    P text := by
  refine h.word text fun c hc hmem => hword.not_mem ?_ hc
  revert hmem
  simp only [separators, List.mem_cons, marks]
  tauto

theorem ne_toString_of_isIdentifier {name : String} (h : isIdentifier name) (value : Int) :
    name ≠ toString value := by
  rintro rfl
  obtain ⟨c, cs, hname, hhead⟩ := exists_head_of_isIdentifier h
  obtain ⟨n, hvalue | hvalue⟩ := toString_int value
  · rw [hvalue] at hname
    have hdigit : c.isDigit := isDigit_toString (hname ▸ List.mem_cons_self)
    rw [not_isAlpha_of_isDigit hdigit] at hhead
    exact Bool.false_ne_true hhead
  · rw [hvalue, String.toList_append] at hname
    obtain ⟨rfl, -⟩ := List.cons.inj hname
    exact absurd hhead (by decide)

theorem minus_ne_toString (m n : Nat) : "-" ++ toString m ≠ toString n := by
  intro h
  have hminus : '-' ∈ (toString n).toList := by
    rw [← h, String.toList_append]
    exact List.mem_cons_self
  exact absurd (isDigit_toString hminus) (by decide)

theorem toString_int_unique {m n : Int} (h : toString m = toString n) : m = n := by
  cases m with
  | ofNat m =>
    cases n with
    | ofNat n => rw [toString_nat_unique h]
    | negSucc n => exact absurd h.symm (minus_ne_toString (n + 1) m)
  | negSucc m =>
    cases n with
    | ofNat n => exact absurd h (minus_ne_toString (m + 1) n)
    | negSucc n => rw [Nat.succ.inj (toString_nat_unique (String.append_right_inj "-" |>.1 h))]

end MachineLang.Text
