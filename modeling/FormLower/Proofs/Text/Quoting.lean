import FormLower.Text.Quoted
import Mathlib.Data.List.Basic
import Mathlib.Tactic.SplitIfs

/-! # Quoted texts can be told apart

What is written for a character tells the character and where it ends, so a quoted text tells the
text and where the closing quote is (`quote_unique`). -/

namespace FormLower

/-- The characters before the first delimiter are determined, and those behind it. -/
theorem append_delimiter_inj {α : Type} {a : α} {xs ys xs' ys' : List α} (hxs : a ∉ xs)
    (hys : a ∉ ys) (h : xs ++ a :: xs' = ys ++ a :: ys') : xs = ys ∧ xs' = ys' := by
  induction xs generalizing ys with
  | nil =>
      cases ys with
      | nil => exact ⟨rfl, (List.cons.inj h).2⟩
      | cons y ys => exact absurd ((List.cons.inj h).1 ▸ List.mem_cons_self) hys
  | cons x xs ih =>
      cases ys with
      | nil => exact absurd ((List.cons.inj h).1 ▸ List.mem_cons_self) hxs
      | cons y ys =>
          obtain ⟨rfl, htail⟩ := List.cons.inj h
          obtain ⟨rfl, rest⟩ := ih (List.not_mem_of_not_mem_cons hxs)
            (List.not_mem_of_not_mem_cons hys) htail
          exact ⟨rfl, rest⟩

/-! ### Hexadecimal digits -/

theorem digitChar_inj {m n : Nat} (hm : m < 16) (hn : n < 16)
    (h : Nat.digitChar m = Nat.digitChar n) : m = n := by
  have hall : ∀ m < 16, ∀ n < 16, Nat.digitChar m = Nat.digitChar n → m = n := by decide
  exact hall m hm n hn h

/-- A number of one digit has no digits before it. -/
theorem toDigits_append_ne (n : Nat) (c d : Char) : Nat.toDigits 16 n ++ [c] ≠ [d] := by
  intro h
  have hlength := congrArg List.length h
  rw [List.length_append, List.length_singleton, List.length_singleton] at hlength
  have hpos := @Nat.length_toDigits_pos 16 n
  omega

theorem toDigits_inj {m n : Nat} (h : Nat.toDigits 16 m = Nat.toDigits 16 n) : m = n := by
  induction m using Nat.strongRecOn generalizing n with
  | ind m ih =>
      rw [Nat.toDigits_eq_if (by omega), @Nat.toDigits_eq_if 16 n (by omega)] at h
      split_ifs at h with hm hn hn
      · exact digitChar_inj hm hn (List.cons.inj h).1
      · exact absurd h.symm (toDigits_append_ne _ _ _)
      · exact absurd h (toDigits_append_ne _ _ _)
      · obtain ⟨hhigh, hlow⟩ := List.append_inj' h rfl
        have hdiv := ih (m / 16) (by omega) hhigh
        have hmod := digitChar_inj (Nat.mod_lt m (by omega)) (Nat.mod_lt n (by omega))
          (List.cons.inj hlow).1
        omega

theorem exists_digit_of_mem_toDigits {n : Nat} {c : Char} (h : c ∈ Nat.toDigits 16 n) :
    ∃ d < 16, c = Nat.digitChar d := by
  induction n using Nat.strongRecOn with
  | ind n ih =>
      rw [Nat.toDigits_eq_if (by omega)] at h
      split_ifs at h with hn
      · exact ⟨n, hn, List.mem_singleton.mp h⟩
      · rcases List.mem_append.mp h with hhigh | hlow
        · exact ih (n / 16) (by omega) hhigh
        · exact ⟨n % 16, Nat.mod_lt n (by omega), List.mem_singleton.mp hlow⟩

theorem brace_not_mem_toDigits (n : Nat) : '\x7d' ∉ Nat.toDigits 16 n := by
  have hall : ∀ d < 16, '\x7d' ≠ Nat.digitChar d := by decide
  intro h
  obtain ⟨d, hd, hbrace⟩ := exists_digit_of_mem_toDigits h
  exact hall d hd hbrace

/-! ### Characters -/

/-- The letters of the escapes of one letter, with the characters that they stand for. -/
def escapeLetters : List (Char × Char) :=
  [('0', '\x00'), ('t', '\t'), ('r', '\r'), ('n', '\n'), ('"', '"'), ('\\', '\\')]

theorem escapeLetters_inj {e c d : Char} (hc : (e, c) ∈ escapeLetters)
    (hd : (e, d) ∈ escapeLetters) : c = d := by
  have hall : ∀ p ∈ escapeLetters, ∀ q ∈ escapeLetters, p.1 = q.1 → p.2 = q.2 := by decide
  exact hall _ hc _ hd rfl

/-- What is written for a character: itself, an escape of one letter, or its code. -/
theorem quoteChar_forms (c : Char) :
    (c ≠ '"' ∧ c ≠ '\\' ∧ quoteChar c = [c]) ∨
      (∃ e, (e, c) ∈ escapeLetters ∧ quoteChar c = ['\\', e]) ∨
        quoteChar c = codePointEscape c := by
  unfold quoteChar
  split_ifs with hzero htab hreturn hline hquote hslash hvisible
  · exact .inr (.inl ⟨'0', by simp [escapeLetters, hzero], rfl⟩)
  · exact .inr (.inl ⟨'t', by simp [escapeLetters, htab], rfl⟩)
  · exact .inr (.inl ⟨'r', by simp [escapeLetters, hreturn], rfl⟩)
  · exact .inr (.inl ⟨'n', by simp [escapeLetters, hline], rfl⟩)
  · exact .inr (.inl ⟨'"', by simp [escapeLetters, hquote], rfl⟩)
  · exact .inr (.inl ⟨'\\', by simp [escapeLetters, hslash], rfl⟩)
  · exact .inl ⟨hquote, hslash, rfl⟩
  · exact .inr (.inr rfl)

/-- What is written for a character never starts with the quote that closes a text. -/
theorem quoteChar_append_ne (c : Char) (xs ys : List Char) : quoteChar c ++ xs ≠ '"' :: ys := by
  rcases quoteChar_forms c with ⟨hquote, -, hself⟩ | ⟨e, -, hletter⟩ | hcode
  · rw [hself]
    exact fun h => hquote (List.cons.inj h).1
  · rw [hletter]
    simp
  · rw [hcode, codePointEscape]
    simp

/-- Codes of characters are told apart by their digits, which end at the brace. -/
theorem codePointEscape_unique {c d : Char} {xs ys : List Char}
    (h : codePointEscape c ++ xs = codePointEscape d ++ ys) : c = d ∧ xs = ys := by
  simp only [codePointEscape, List.append_assoc, List.append_cancel_left_eq,
    List.singleton_append] at h
  obtain ⟨hdigits, hrest⟩ :=
    append_delimiter_inj (brace_not_mem_toDigits _) (brace_not_mem_toDigits _) h
  exact ⟨Char.toNat_inj.mp (toDigits_inj hdigits), hrest⟩

theorem letter_append_ne_code {e c d : Char} (h : (e, c) ∈ escapeLetters) (xs ys : List Char) :
    ['\\', e] ++ xs ≠ codePointEscape d ++ ys := by
  intro heq
  have he : e = 'u' := by
    simpa [codePointEscape] using congrArg (fun cs => cs.tail.head?) heq
  subst he
  simp [escapeLetters] at h

/-- **A character is told by what is written for it**, whatever follows. -/
theorem quoteChar_unique {c d : Char} {xs ys : List Char}
    (h : quoteChar c ++ xs = quoteChar d ++ ys) : c = d ∧ xs = ys := by
  have hcode : ∀ a, ∃ cs, codePointEscape a = '\\' :: cs := fun a => ⟨_, rfl⟩
  rcases quoteChar_forms c with ⟨-, hslash, hself⟩ | ⟨e, he, hletter⟩ | hcoded
  · rw [hself] at h
    rcases quoteChar_forms d with ⟨-, -, hself'⟩ | ⟨e', -, hletter'⟩ | hcoded'
    · rw [hself'] at h
      exact List.cons.inj h
    · rw [hletter'] at h
      exact absurd (List.cons.inj h).1 hslash
    · rw [hcoded'] at h
      exact absurd (List.cons.inj h).1 hslash
  · rw [hletter] at h
    rcases quoteChar_forms d with ⟨-, hslash', hself'⟩ | ⟨e', he', hletter'⟩ | hcoded'
    · rw [hself'] at h
      exact absurd (List.cons.inj h).1.symm hslash'
    · rw [hletter'] at h
      obtain ⟨rfl, hrest⟩ := List.cons.inj (List.cons.inj h).2
      exact ⟨escapeLetters_inj he he', hrest⟩
    · rw [hcoded'] at h
      exact absurd h (letter_append_ne_code he xs ys)
  · rw [hcoded] at h
    rcases quoteChar_forms d with ⟨-, hslash', hself'⟩ | ⟨e', he', hletter'⟩ | hcoded'
    · rw [hself'] at h
      exact absurd (List.cons.inj h).1.symm hslash'
    · rw [hletter'] at h
      exact absurd h.symm (letter_append_ne_code he' ys xs)
    · rw [hcoded'] at h
      exact codePointEscape_unique h

/-! ### Texts -/

theorem flatMap_quoteChar_unique {v w xs ys : List Char}
    (h : v.flatMap quoteChar ++ '"' :: xs = w.flatMap quoteChar ++ '"' :: ys) :
    v = w ∧ xs = ys := by
  induction v generalizing w with
  | nil =>
      cases w with
      | nil => exact ⟨rfl, (List.cons.inj h).2⟩
      | cons d w =>
          rw [List.flatMap_cons, List.append_assoc] at h
          exact absurd h.symm (quoteChar_append_ne d _ _)
  | cons c v ih =>
      rw [List.flatMap_cons, List.append_assoc] at h
      cases w with
      | nil => exact absurd h (quoteChar_append_ne c _ _)
      | cons d w =>
          rw [List.flatMap_cons, List.append_assoc] at h
          obtain ⟨rfl, htail⟩ := quoteChar_unique h
          obtain ⟨rfl, hrest⟩ := ih htail
          exact ⟨rfl, hrest⟩

/-- **A text is told by what is written for it between quotes**, whatever follows. -/
theorem quote_unique {v w : String} {xs ys : List Char}
    (h : (quote v).toList ++ xs = (quote w).toList ++ ys) : v = w ∧ xs = ys := by
  simp only [quote, String.toList_ofList, List.cons_append, List.append_assoc, List.nil_append,
    List.cons.injEq, true_and] at h
  obtain ⟨hchars, hrest⟩ := flatMap_quoteChar_unique h
  exact ⟨String.toList_inj.mp hchars, hrest⟩

end FormLower
