import FormLower.Proofs.Target.Expressions

/-! # Texts of trees on lines

What is written for a tree fits a line: there is no line end in it, however deep strings with line
ends may be, and it starts with something that is no blank, so that the blanks before it can be
counted (`Target.fitsLine_text`). -/

namespace FormLower

open Grammar

/-- Whether a text can stand on a line of its own, whose indentation ends where it starts. -/
structure FitsLine (s : String) : Prop where
  ne_empty : s ≠ ""
  no_newline : '\n' ∉ s.toList
  no_blank : s.toList.head? ≠ some ' '

namespace FitsLine

/-- A text that starts on a line is continued on the line. -/
theorem append {s t : String} (hs : FitsLine s) (ht : '\n' ∉ t.toList) : FitsLine (s ++ t) := by
  obtain ⟨c, cs, hcs⟩ := List.exists_cons_of_ne_nil (mt String.toList_eq_nil_iff.mp hs.ne_empty)
  have hblank := hs.no_blank
  rw [hcs] at hblank
  refine ⟨?_, ?_, ?_⟩
  · rw [Ne, ← String.toList_eq_nil_iff, String.toList_append, hcs]
    simp
  · rw [String.toList_append, List.mem_append]
    exact not_or.mpr ⟨hs.no_newline, ht⟩
  · rw [String.toList_append, hcs]
    exact hblank

theorem of_isWord {s : String} (h : IsWord s.toList) : FitsLine s := by
  have hnewline : ¬ IsWordChar '\n' := by decide
  have hblank : ¬ IsWordChar ' ' := by decide
  refine ⟨mt String.toList_eq_nil_iff.mpr h.1, fun hmem => hnewline (h.2 _ hmem), fun hhead => ?_⟩
  exact hblank (h.2 _ (List.mem_of_mem_head? hhead))

/-- What a statement or an enclosed operand begins with. -/
theorem of_opening {s : String} (h : s ∈ ["if ", "def ", "return ", "print ", "("]) :
    FitsLine s := by
  simp only [List.mem_cons, List.not_mem_nil, or_false] at h
  rcases h with rfl | rfl | rfl | rfl | rfl <;> exact ⟨by decide, by decide, by decide⟩

end FitsLine

/-! ### Quoted texts -/

theorem newline_not_mem_quoteChar (c : Char) : '\n' ∉ quoteChar c := by
  by_cases hc : c = '\n'
  · subst hc
    decide
  · rcases quoteChar_forms c with ⟨-, -, hself⟩ | ⟨e, he, hletter⟩ | hcode
    · rw [hself, List.mem_singleton]
      exact fun h => hc h.symm
    · rw [hletter]
      have hall : ∀ p ∈ escapeLetters, '\n' ∉ ['\\', p.1] := by decide
      exact hall _ he
    · have hdigits : '\n' ∉ Nat.toDigits 16 c.toNat := by
        have hall : ∀ d < 16, '\n' ≠ Nat.digitChar d := by decide
        intro h
        obtain ⟨d, hd, heq⟩ := exists_digit_of_mem_toDigits h
        exact hall d hd heq
      rw [hcode, codePointEscape]
      simp [hdigits]

theorem fitsLine_quote (s : String) : FitsLine (quote s) := by
  refine ⟨?_, ?_, ?_⟩
  · simp [quote, ← String.toList_eq_nil_iff]
  · simp [quote, newline_not_mem_quoteChar]
  · simp [quote]

/-! ### Trees -/

namespace Target

/-- Whether the name that a tree itself is made of, if it is, fits a line. -/
def NameFitsLine : Target → Prop
  | .name id _ _ => FitsLine id
  | .function id _ _ _ => FitsLine id
  | _ => True

theorem newline_not_mem_commaText {ts : List Target} (h : ∀ t ∈ ts, '\n' ∉ t.text.toList) :
    '\n' ∉ (commaText (texts ts)).toList := by
  cases ts with
  | nil => decide
  | cons t ts =>
      rw [toList_commaText, List.mem_append, List.mem_flatMap]
      rintro (ht | ⟨a, ha, hmem⟩)
      · exact h t List.mem_cons_self ht
      · refine h a (List.mem_cons_of_mem _ ha) ?_
        simpa [furtherArgument] using hmem

theorem fitsLine_enclose (parens : Bool) {s : String} (h : FitsLine s) :
    FitsLine (enclose parens s) := by
  cases parens with
  | false => exact h
  | true =>
      have hopen : FitsLine "(" := .of_opening (by decide)
      exact (hopen.append h.no_newline).append (by decide)

theorem fitsLine_chainText {first : String} (hfirst : FitsLine first) (ops : List Comparison)
    {operands : List String} (h : ∀ s ∈ operands, '\n' ∉ s.toList) :
    FitsLine (chainText first ops operands) := by
  have hop : ∀ op : Comparison, '\n' ∉ op.text.toList := by rintro (_ | _) <;> decide
  unfold chainText
  induction ops generalizing first operands with
  | nil => exact hfirst
  | cons op ops ih =>
      cases operands with
      | nil => exact hfirst
      | cons s operands =>
          obtain ⟨hs, hoperands⟩ := List.forall_mem_cons.mp h
          rw [List.zip_cons_cons, List.foldl_cons]
          refine ih ?_ hoperands
          exact (((hfirst.append (by decide)).append (hop op)).append (by decide)).append hs

/-- **The text of a tree fits a line** when the names in the tree do. -/
theorem fitsLine_text {t : Target} (h : ∀ k ∈ t.nodes, k.NameFitsLine) : FitsLine t.text := by
  induction t using Target.induction with
  | step t ih =>
      have hself := h t t.self_mem_nodes
      have hchild : ∀ c ∈ t.children, FitsLine c.text := by
        intro c hc
        exact ih c hc fun k hk => h k (mem_nodes_of_child hc hk)
      have hcomma : ∀ ts : List Target, (∀ c ∈ ts, c ∈ t.children) →
          '\n' ∉ (commaText (texts ts)).toList := by
        intro ts hts
        exact newline_not_mem_commaText fun c hc => (hchild c (hts c hc)).no_newline
      cases t with
      | name id => exact hself
      | string value => exact fitsLine_quote value
      | number value => exact .of_isWord value.isWord_text
      | call func args =>
          have hargs := hcomma args fun c hc => List.mem_cons_of_mem _ hc
          have hfunc := hchild func List.mem_cons_self
          rw [text]
          exact ((hfunc.append (by decide)).append hargs).append (by decide)
      | binary left op right =>
          have hsymbol : '\n' ∉ op.symbol.toList := by cases op <;> decide
          have hleft := fitsLine_enclose left.isOperation (hchild left List.mem_cons_self)
          have hright := fitsLine_enclose right.isOperation (hchild right (by simp [children]))
          rw [text]
          exact (((hleft.append (by decide)).append hsymbol).append (by decide)).append
            hright.no_newline
      | compare left ops comparators =>
          have hleft := fitsLine_enclose left.isOperation (hchild left List.mem_cons_self)
          rw [text, operandTexts_eq_map]
          refine fitsLine_chainText hleft ops (List.forall_mem_map.mpr fun c hc => ?_)
          exact (fitsLine_enclose _ (hchild c (List.mem_cons_of_mem _ hc))).no_newline
      | branch test body orelse =>
          have hif : FitsLine "if " := .of_opening (by decide)
          have htest := hchild test List.mem_cons_self
          rw [text]
          exact (hif.append htest.no_newline).append (by decide)
      | ret value =>
          have hreturn : FitsLine "return " := .of_opening (by decide)
          rw [text]
          exact hreturn.append (hchild value List.mem_cons_self).no_newline
      | assign target value =>
          have htarget := hchild target List.mem_cons_self
          rw [text]
          exact (htarget.append (by decide)).append (hchild value (by simp [children])).no_newline
      | function id params body =>
          have hdef : FitsLine "def " := .of_opening (by decide)
          have hparams := hcomma params fun c hc => List.mem_append_left _ hc
          rw [text]
          exact (((hdef.append hself.no_newline).append (by decide)).append hparams).append
            (by decide)
      | print values newline =>
          have hprint : FitsLine "print " := .of_opening (by decide)
          rw [text]
          exact hprint.append (hcomma values fun c hc => hc)
      | statement value => exact hchild value List.mem_cons_self

end Target

end FormLower
