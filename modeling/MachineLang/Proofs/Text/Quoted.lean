import MachineLang.Text.Quoted

set_option autoImplicit false

namespace MachineLang.Text

theorem upTo_unique {stop : Char} {word word' rest rest' : List Char} (hword : stop ∉ word)
    (hword' : stop ∉ word') (h : word ++ stop :: rest = word' ++ stop :: rest') :
    word = word' ∧ rest = rest' := by
  induction word generalizing word' with
  | nil =>
    cases word' with
    | nil => exact ⟨rfl, (List.cons.inj h).2⟩
    | cons c word' => exact absurd ((List.cons.inj h).1 ▸ List.mem_cons_self) hword'
  | cons c word ih =>
    cases word' with
    | nil => exact absurd ((List.cons.inj h).1 ▸ List.mem_cons_self) hword
    | cons d word' =>
      obtain ⟨rfl, htail⟩ := List.cons.inj h
      obtain ⟨rfl, hrest⟩ := ih (fun hmem => hword (List.mem_cons_of_mem c hmem))
        (fun hmem => hword' (List.mem_cons_of_mem c hmem)) htail
      exact ⟨rfl, hrest⟩

theorem digitChar_unique : ∀ m < 16, ∀ n < 16, Nat.digitChar m = Nat.digitChar n → m = n := by
  decide

theorem digitChar_ne : ∀ n < 16, Nat.digitChar n ≠ '}' ∧ Nat.digitChar n ≠ '\n' := by decide

theorem toDigits_unique {m n : Nat} (h : Nat.toDigits 16 m = Nat.toDigits 16 n) : m = n := by
  induction m using Nat.strongRecOn generalizing n with
  | ind m ih =>
    rw [Nat.toDigits_eq_if (n := m) (by omega), Nat.toDigits_eq_if (n := n) (by omega)] at h
    split at h <;> split at h
    · exact digitChar_unique m (by omega) n (by omega) (List.singleton_inj.1 h)
    · rw [← List.nil_append [Nat.digitChar m]] at h
      exact absurd (List.append_inj_left' h rfl).symm Nat.toDigits_ne_nil
    · rw [← List.nil_append [Nat.digitChar n]] at h
      exact absurd (List.append_inj_left' h rfl) Nat.toDigits_ne_nil
    · obtain ⟨hfront, hlast⟩ := List.append_inj' h rfl
      have hdiv := ih (m / 16) (by omega) hfront
      have hmod := digitChar_unique (m % 16) (Nat.mod_lt m (by omega)) (n % 16)
        (Nat.mod_lt n (by omega)) (List.singleton_inj.1 hlast)
      omega

theorem ne_of_mem_toDigits {n : Nat} {c : Char} (h : c ∈ Nat.toDigits 16 n) :
    c ≠ '}' ∧ c ≠ '\n' := by
  induction n using Nat.strongRecOn with
  | ind n ih =>
    rw [Nat.toDigits_eq_if (by omega)] at h
    split at h
    · rw [List.mem_singleton.1 h]
      exact digitChar_ne n (by omega)
    · rcases List.mem_append.1 h with h | h
      · exact ih (n / 16) (by omega) h
      · rw [List.mem_singleton.1 h]
        exact digitChar_ne (n % 16) (Nat.mod_lt n (by omega))

def lettered : List (Char × Char) :=
  [('\x00', '0'), ('\t', 't'), ('\n', 'n'), ('\r', 'r'), ('"', '"'), ('\\', '\\')]

theorem letter_unique : ∀ p ∈ lettered, ∀ q ∈ lettered, p.2 = q.2 → p.1 = q.1 := by decide

theorem letter_ne : ∀ p ∈ lettered, p.2 ≠ 'u' ∧ p.2 ≠ '\n' := by decide

theorem escape_forms (c : Char) :
    (c ∉ lettered.map Prod.fst ∧ escape c = [c]) ∨
      (∃ letter, (c, letter) ∈ lettered ∧ escape c = ['\\', letter]) ∨
      escape c = '\\' :: 'u' :: '{' :: (Nat.toDigits 16 c.toNat ++ ['}']) := by
  unfold escape
  split
  case h_7 =>
    split
    · exact .inr (.inr rfl)
    · refine .inl ⟨?_, rfl⟩
      simp_all [lettered]
  all_goals exact .inr (.inl ⟨_, by decide, rfl⟩)

theorem escape_unique {c d : Char} {rest rest' : List Char}
    (h : escape c ++ rest = escape d ++ rest') : c = d ∧ rest = rest' := by
  have hplain : ∀ {e : Char}, e ∉ lettered.map Prod.fst → e ≠ '\\' := by
    rintro e he rfl
    exact he (by decide)
  rcases escape_forms c with ⟨hc, hce⟩ | ⟨k, hk, hce⟩ | hce <;>
    rcases escape_forms d with ⟨hd, hde⟩ | ⟨l, hl, hde⟩ | hde <;> rw [hce, hde] at h
  · exact List.cons.inj h
  · exact absurd (List.cons.inj h).1 (hplain hc)
  · exact absurd (List.cons.inj h).1 (hplain hc)
  · exact absurd (List.cons.inj h).1.symm (hplain hd)
  · obtain ⟨hletter, hrest⟩ := List.cons.inj (List.cons.inj h).2
    exact ⟨letter_unique _ hk _ hl hletter, hrest⟩
  · exact absurd (List.cons.inj (List.cons.inj h).2).1 (letter_ne _ hk).1
  · exact absurd (List.cons.inj h).1.symm (hplain hd)
  · exact absurd (List.cons.inj (List.cons.inj h).2).1.symm (letter_ne _ hl).1
  · have hdigits : Nat.toDigits 16 c.toNat ++ '}' :: rest =
        Nat.toDigits 16 d.toNat ++ '}' :: rest' := by simpa using h
    obtain ⟨hcode, hrest⟩ := upTo_unique (fun hmem => (ne_of_mem_toDigits hmem).1 rfl)
      (fun hmem => (ne_of_mem_toDigits hmem).1 rfl) hdigits
    exact ⟨Char.toNat_inj.1 (toDigits_unique hcode), hrest⟩

theorem escape_ne_quote (c : Char) (rest rest' : List Char) :
    escape c ++ rest ≠ '"' :: rest' := by
  intro h
  rcases escape_forms c with ⟨hc, hce⟩ | ⟨k, -, hce⟩ | hce <;> rw [hce] at h
  · exact hc ((List.cons.inj h).1 ▸ by decide)
  · exact absurd (List.cons.inj h).1 (by decide)
  · exact absurd (List.cons.inj h).1 (by decide)

theorem newline_not_mem_escape (c : Char) : '\n' ∉ escape c := by
  intro h
  rcases escape_forms c with ⟨hc, hce⟩ | ⟨k, hk, hce⟩ | hce <;> rw [hce] at h
  · exact hc (List.mem_singleton.1 h ▸ by decide)
  · rcases List.mem_cons.1 h with h | h
    · exact absurd h (by decide)
    · exact (letter_ne _ hk).2 (List.mem_singleton.1 h).symm
  · have hdigits : '\n' ∈ Nat.toDigits 16 c.toNat := by simpa using h
    exact (ne_of_mem_toDigits hdigits).2 rfl

/-- The part of a quoted text after its opening quote tells where the text ends. -/
theorem escaped_unique {cs ds rest rest' : List Char}
    (h : cs.flatMap escape ++ '"' :: rest = ds.flatMap escape ++ '"' :: rest') :
    cs = ds ∧ rest = rest' := by
  induction cs generalizing ds with
  | nil =>
    cases ds with
    | nil => exact ⟨rfl, (List.cons.inj h).2⟩
    | cons d ds =>
      rw [List.flatMap_cons, List.append_assoc] at h
      exact absurd h.symm (escape_ne_quote d _ _)
  | cons c cs ih =>
    cases ds with
    | nil =>
      rw [List.flatMap_cons, List.append_assoc] at h
      exact absurd h (escape_ne_quote c _ _)
    | cons d ds =>
      rw [List.flatMap_cons, List.flatMap_cons, List.append_assoc, List.append_assoc] at h
      obtain ⟨rfl, htail⟩ := escape_unique h
      obtain ⟨rfl, hrest⟩ := ih htail
      exact ⟨rfl, hrest⟩

theorem toList_quoted_append (s : String) (rest : List Char) :
    (quoted s).toList ++ rest = '"' :: (s.toList.flatMap escape ++ '"' :: rest) := by
  simp [quoted]

theorem quoted_unique {s t : String} {rest rest' : List Char}
    (h : (quoted s).toList ++ rest = (quoted t).toList ++ rest') : s = t ∧ rest = rest' := by
  rw [toList_quoted_append, toList_quoted_append] at h
  obtain ⟨hchars, hrest⟩ := escaped_unique (List.cons.inj h).2
  exact ⟨String.toList_inj.1 hchars, hrest⟩

theorem newline_not_mem_quoted (s : String) : '\n' ∉ (quoted s).toList := by
  have hescaped : '\n' ∉ s.toList.flatMap escape := by
    rw [List.mem_flatMap]
    rintro ⟨c, -, hc⟩
    exact newline_not_mem_escape c hc
  simp [quoted, hescaped]

end MachineLang.Text
