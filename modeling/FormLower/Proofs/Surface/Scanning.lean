import FormLower.Proofs.Surface.Grammar

/-! # Scanning

The scanner goes through a text character by character and keeps in its mode what it is in the
middle of.  It finds the tokens of the grammar: reading the front of a text takes a scan that is
between tokens to one that is between tokens again, with the tokens of the grammar added
(`finish_run_of_scans`), and what the grammar cannot read starts at a quote without a complete
string (`exists_scans`, `finish_run_string`).  Hence `splits_iff`. -/

namespace FormLower

open Grammar

/-! ### Characters -/

theorem isBlank_iff {c : Char} : isBlank c = true ↔ c ∈ blanks := by
  simp [isBlank, blanks, or_assoc]

theorem bracketLexeme?_eq_some_iff {c : Char} {l : Lexeme} :
    bracketLexeme? c = some l ↔ (c, l) ∈ brackets := by
  unfold bracketLexeme?
  split <;> simp_all [brackets, eq_comm]

theorem unescape?_eq_some_iff {c d : Char} : unescape? c = some d ↔ (c, d) ∈ escapes := by
  unfold unescape?
  split <;> simp_all [escapes, eq_comm]

theorem isAtomChar_iff {c : Char} : isAtomChar c = true ↔ IsWordChar c := by
  unfold isAtomChar bracketLexeme?
  split <;> simp_all [IsWordChar, isBlank, blanks, and_assoc]

/-- Every character is blank, a bracket, the start of a comment or of a string, or part of a
word. -/
theorem char_cases (c : Char) :
    c ∈ blanks ∨ (∃ l, (c, l) ∈ brackets) ∨ c = ';' ∨ c = '"' ∨ IsWordChar c := by
  by_cases hblank : c ∈ blanks
  · exact .inl hblank
  · simp only [brackets, IsWordChar, hblank, List.mem_cons, Prod.mk.injEq, List.not_mem_nil]
    grind

namespace Scan

/-! ### One character -/

section
variable (p : Position) (acc : List Token) {c : Char}

theorem step_blank (h : c ∈ blanks) : step ⟨p, .between, acc⟩ c = ⟨p.after c, .between, acc⟩ := by
  have hnone : bracketLexeme? c = none := by
    rw [← isBlank_iff] at h
    unfold bracketLexeme?
    split <;> simp_all [isBlank]
  simp [step, begin, hnone, isBlank_iff.mpr h]

theorem step_bracket {l : Lexeme} (h : (c, l) ∈ brackets) :
    step ⟨p, .between, acc⟩ c = ⟨p.after c, .between, ⟨l, ⟨p, p.after c⟩⟩ :: acc⟩ := by
  simp [step, begin, bracketLexeme?_eq_some_iff.mpr h, emit]

theorem step_word (h : IsWordChar c) :
    step ⟨p, .between, acc⟩ c = ⟨p.after c, .atom p [c], acc⟩ := by
  have hchar := isAtomChar_iff.mpr h
  simp only [isAtomChar, Bool.and_eq_true, Bool.not_eq_true', Option.isNone_iff_eq_none,
    decide_eq_true_eq] at hchar
  obtain ⟨⟨⟨hblank, hbracket⟩, hquote⟩, hsemi⟩ := hchar
  simp [step, begin, hblank, hbracket, hquote, hsemi]

end

/-! ### Runs -/

theorem run_nil (s : Scan) : s.run [] = s := rfl

theorem run_cons (s : Scan) (c : Char) (cs : List Char) : s.run (c :: cs) = (s.step c).run cs := rfl

theorem run_append (s : Scan) (cs ds : List Char) : s.run (cs ++ ds) = (s.run cs).run ds :=
  List.foldl_append

theorem run_comment (acc : List Token) : ∀ (p : Position) {body : List Char}, '\n' ∉ body →
    run ⟨p, .comment, acc⟩ body = ⟨p.afterAll body, .comment, acc⟩
  | _, [], _ => rfl
  | p, c :: body, h => by
      have hc : c ≠ '\n' := fun hc => h (hc ▸ List.mem_cons_self)
      have hbody : '\n' ∉ body := fun hmem => h (List.mem_cons_of_mem _ hmem)
      rw [run_cons]
      simp only [step, if_neg hc]
      exact run_comment acc (p.after c) hbody

theorem run_atom (start : Position) (acc : List Token) :
    ∀ (p : Position) (chars : List Char) {word : List Char}, (∀ c ∈ word, IsWordChar c) →
    run ⟨p, .atom start chars, acc⟩ word =
      ⟨p.afterAll word, .atom start (word.reverse ++ chars), acc⟩
  | _, _, [], _ => rfl
  | p, chars, c :: word, h => by
      have hc := isAtomChar_iff.mpr (h c List.mem_cons_self)
      rw [run_cons]
      simp only [step, hc, if_true]
      rw [run_atom start acc (p.after c) (c :: chars) fun d hd => h d (List.mem_cons_of_mem _ hd)]
      simp [Position.afterAll]

theorem run_string (start : Position) (acc : List Token) {raw value : List Char}
    (h : Quoted raw value) : ∀ (p : Position) (chars : List Char),
    run ⟨p, .string start chars, acc⟩ raw =
      ⟨p.afterAll raw, .string start (value.reverse ++ chars), acc⟩ := by
  induction h with
  | nil => exact fun _ _ => rfl
  | @plain c raw value hquote hslash _ ih =>
      intro p chars
      rw [run_cons]
      simp only [step, if_neg hquote, if_neg hslash]
      rw [ih]
      simp [Position.afterAll]
  | @escape c d raw value hesc _ ih =>
      intro p chars
      rw [run_cons, run_cons]
      simp only [step, unescape?_eq_some_iff.mpr hesc, if_false, if_true,
        show ('\\' : Char) ≠ '"' by decide]
      rw [ih]
      simp [Position.afterAll]

/-! ### Ends of comments and atoms -/

/-- At the end of its line a comment leaves nothing behind. -/
theorem finish_run_comment {cs : List Char} (h : ∀ c, cs.head? = some c → c = '\n') (p : Position)
    (acc : List Token) :
    (run ⟨p, .comment, acc⟩ cs).finish = (run ⟨p, .between, acc⟩ cs).finish := by
  cases cs with
  | nil => rfl
  | cons c cs =>
      obtain rfl := h c rfl
      rfl

/-- Before a character that cannot continue it an atom is complete. -/
theorem finish_run_atom {cs : List Char} (h : ∀ c, cs.head? = some c → ¬ IsWordChar c)
    (p start : Position) (chars : List Char) (acc : List Token) :
    (run ⟨p, .atom start chars, acc⟩ cs).finish =
      (run ⟨p, .between, emitAtom start chars p acc⟩ cs).finish := by
  cases cs with
  | nil => rfl
  | cons c cs =>
      have hc : isAtomChar c = false := by
        rw [← Bool.not_eq_true, isAtomChar_iff]
        exact h c rfl
      simp [run_cons, step, hc]

/-! ### The tokens of the grammar -/

/-- A scan between tokens finds the tokens that the grammar reads. -/
theorem finish_run_of_scans {p q : Position} {cs rest : List Char} {ts : List Token}
    (h : Scans p cs ts q rest) : ∀ acc : List Token,
    (run ⟨p, .between, acc⟩ cs).finish = (run ⟨q, .between, ts.reverse ++ acc⟩ rest).finish := by
  induction h with
  | done => exact fun _ => rfl
  | blank hc _ ih =>
      intro acc
      rw [run_cons, step_blank _ _ hc, ih]
  | @comment p q body cs rest ts hbody hend _ ih =>
      intro acc
      have hstep : step ⟨p, .between, acc⟩ ';' = ⟨p.after ';', .comment, acc⟩ := rfl
      rw [List.cons_append, run_cons, run_append, hstep, run_comment acc _ hbody,
        finish_run_comment hend]
      exact ih acc
  | bracket hc _ ih =>
      intro acc
      rw [run_cons, step_bracket _ _ hc, ih, List.reverse_cons, List.append_assoc]
      rfl
  | @string p q raw value cs rest ts hraw _ ih =>
      intro acc
      have hopen : step ⟨p, .between, acc⟩ '"' = ⟨p.after '"', .string p [], acc⟩ := rfl
      have hclose : step ⟨(p.after '"').afterAll raw, .string p (value.reverse ++ []), acc⟩ '"' =
          ⟨p.afterAll ('"' :: raw ++ ['"']), .between,
            ⟨.string (String.ofList value), ⟨p, p.afterAll ('"' :: raw ++ ['"'])⟩⟩ :: acc⟩ := by
        simp [step, emit, Position.afterAll]
      rw [List.cons_append, run_cons, run_append, hopen, run_string p acc hraw, run_cons, hclose,
        ih, List.reverse_cons, List.append_assoc]
      rfl
  | @atom p q word cs rest ts hne hword hend _ ih =>
      intro acc
      cases word with
      | nil => exact absurd rfl hne
      | cons c word =>
          have hc := step_word p acc (hword c List.mem_cons_self)
          have hrun := @run_atom p acc (p.after c) [c] word
            fun d hd => hword d (List.mem_cons_of_mem _ hd)
          have hword' : (word.reverse ++ [c]).reverse = c :: word := by simp
          rw [List.cons_append, run_cons, run_append, hc, hrun, finish_run_atom hend, emitAtom,
            emit, hword']
          refine (ih _).trans ?_
          rw [List.reverse_cons, List.append_assoc]
          rfl

/-! ### Texts that are not made of tokens -/

theorem finish_run_spoilt (p start : Position) (acc : List Token) : ∀ cs : List Char,
    (run ⟨p, .spoilt start, acc⟩ cs).finish = emitStray start acc := by
  intro cs
  induction cs generalizing p with
  | nil => rfl
  | cons c cs ih => exact ih (p.after c)

/-- Where no string is completed, a quote is all that is found from there on.  A backslash splits
the scan of a string in two modes, so the induction carries both. -/
theorem finish_run_string (start : Position) (acc : List Token) : ∀ cs : List Char,
    (∀ p chars, ¬ CompletesString cs →
      (run ⟨p, .string start chars, acc⟩ cs).finish = emitStray start acc) ∧
    (∀ p chars, ¬ CompletesString ('\\' :: cs) →
      (run ⟨p, .escape start chars, acc⟩ cs).finish = emitStray start acc)
  | [] => ⟨fun _ _ _ => rfl, fun _ _ _ => rfl⟩
  | c :: cs => by
      obtain ⟨hstring, hescape⟩ := finish_run_string start acc cs
      constructor
      · intro p chars h
        rw [run_cons]
        by_cases hquote : c = '"'
        · exact absurd ⟨[], [], cs, .nil, by simp [hquote]⟩ h
        by_cases hslash : c = '\\'
        · subst hslash
          exact hescape _ chars h
        · simp only [step, if_neg hquote, if_neg hslash]
          refine hstring _ _ ?_
          rintro ⟨raw, value, rest, hraw, rfl⟩
          exact h ⟨c :: raw, c :: value, rest, .plain hquote hslash hraw, rfl⟩
      · intro p chars h
        rw [run_cons]
        cases hesc : unescape? c with
        | none =>
            simp only [step, hesc]
            exact finish_run_spoilt _ start acc cs
        | some d =>
            simp only [step, hesc]
            refine hstring _ _ ?_
            rintro ⟨raw, value, rest, hraw, rfl⟩
            exact h ⟨'\\' :: c :: raw, d :: value, rest,
              .escape (unescape?_eq_some_iff.mp hesc) hraw, rfl⟩

/-- The longest front of a text whose characters all have a property. -/
theorem exists_longest (P : Char → Prop) [DecidablePred P] (cs : List Char) :
    ∃ front rest, cs = front ++ rest ∧ (∀ c ∈ front, P c) ∧
      ∀ c, rest.head? = some c → ¬ P c := by
  induction cs with
  | nil => exact ⟨[], [], rfl, by simp, by simp⟩
  | cons c cs ih =>
      by_cases hc : P c
      · obtain ⟨front, rest, rfl, hall, hend⟩ := ih
        exact ⟨c :: front, rest, rfl, List.forall_mem_cons.mpr ⟨hc, hall⟩, hend⟩
      · exact ⟨[], c :: cs, rfl, by simp, by simpa using hc⟩

/-- Every text is made of tokens up to its end or up to a quote that completes no string. -/
theorem exists_scans (p : Position) (cs : List Char) : ∃ ts q rest, Scans p cs ts q rest ∧
    (rest = [] ∨ ∃ tail, rest = '"' :: tail ∧ ¬ CompletesString tail) := by
  induction hlen : cs.length using Nat.strong_induction_on generalizing p cs with
  | _ n ih =>
      have shorter : ∀ (p : Position) (ds : List Char), ds.length < n → ∃ ts q rest,
          Scans p ds ts q rest ∧
            (rest = [] ∨ ∃ tail, rest = '"' :: tail ∧ ¬ CompletesString tail) :=
        fun p ds hds => ih ds.length hds p ds rfl
      match cs with
      | [] => exact ⟨[], p, [], .done, .inl rfl⟩
      | c :: cs =>
          simp only [List.length_cons] at hlen
          rcases char_cases c with hc | ⟨l, hl⟩ | rfl | rfl | hc
          · obtain ⟨ts, q, rest, hscan, hend⟩ := shorter (p.after c) cs (by omega)
            exact ⟨ts, q, rest, .blank hc hscan, hend⟩
          · obtain ⟨ts, q, rest, hscan, hend⟩ := shorter (p.after c) cs (by omega)
            exact ⟨_, q, rest, .bracket hl hscan, hend⟩
          · obtain ⟨body, ds, rfl, hbody, hds⟩ := exists_longest (· ≠ '\n') cs
            rw [List.length_append] at hlen
            obtain ⟨ts, q, rest, hscan, hend⟩ :=
              shorter (p.afterAll (';' :: body)) ds (by omega)
            refine ⟨ts, q, rest, .comment (fun h => hbody _ h rfl) ?_ hscan, hend⟩
            exact fun d hd => not_not.mp (hds d hd)
          · by_cases hstring : CompletesString cs
            · obtain ⟨raw, value, ds, hraw, rfl⟩ := hstring
              simp only [List.length_append, List.length_cons] at hlen
              obtain ⟨ts, q, rest, hscan, hend⟩ :=
                shorter (p.afterAll ('"' :: raw ++ ['"'])) ds (by omega)
              exact ⟨_, q, rest, .string hraw hscan, hend⟩
            · exact ⟨[], p, '"' :: cs, .done, .inr ⟨cs, rfl, hstring⟩⟩
          · obtain ⟨word, ds, rfl, hword, hds⟩ := exists_longest IsWordChar cs
            rw [List.length_append] at hlen
            obtain ⟨ts, q, rest, hscan, hend⟩ := shorter (p.afterAll (c :: word)) ds (by omega)
            refine ⟨_, q, rest, .atom (List.cons_ne_nil c word) ?_ hds hscan, hend⟩
            exact List.forall_mem_cons.mpr ⟨hc, hword⟩

end Scan

/-! ### The tokens of a text -/

theorem tokens_of_splits {text : List Char} {ts : List Token} (h : Splits text ts) :
    tokens text = ts := by
  obtain ⟨q, hq⟩ := h
  have hrun := Scan.finish_run_of_scans hq []
  rw [List.append_nil, Scan.run_nil] at hrun
  rw [tokens, Scan.start, hrun]
  exact List.reverse_reverse ts

/-- A text that stops being made of tokens ends in a stray quote. -/
theorem tokens_of_stray {text tail : List Char} {ts : List Token} {q : Position}
    (h : Scans .first text ts q ('"' :: tail)) (htail : ¬ CompletesString tail) :
    tokens text = ts ++ [⟨.strayQuote, ⟨q, q.after '"'⟩⟩] := by
  have hrun := Scan.finish_run_of_scans h []
  have hstray : (Scan.run ⟨q, .between, ts.reverse ++ []⟩ ('"' :: tail)).finish =
      Scan.emitStray q (ts.reverse ++ []) :=
    (Scan.finish_run_string q _ tail).1 (q.after '"') [] htail
  rw [tokens, Scan.start, hrun, hstray, List.append_nil, Scan.emitStray, Scan.emit,
    List.reverse_cons, List.reverse_reverse]

namespace Grammar

theorem Scans.ne_strayQuote {p q : Position} {cs rest : List Char} {ts : List Token}
    (h : Scans p cs ts q rest) : ∀ t ∈ ts, t.lexeme ≠ .strayQuote := by
  induction h with
  | done => simp
  | blank _ _ ih => exact ih
  | comment _ _ _ ih => exact ih
  | bracket hl _ ih =>
      refine List.forall_mem_cons.mpr ⟨?_, ih⟩
      rintro rfl
      simp [brackets] at hl
  | string _ _ ih => exact List.forall_mem_cons.mpr ⟨by simp, ih⟩
  | atom _ _ _ _ ih => exact List.forall_mem_cons.mpr ⟨by simp, ih⟩

end Grammar

/-- **The scanner finds the tokens of the grammar**, and a stray quote where there are none. -/
theorem splits_iff {text : List Char} {ts : List Token} :
    Splits text ts ↔ tokens text = ts ∧ ∀ t ∈ ts, t.lexeme ≠ .strayQuote := by
  constructor
  · intro h
    obtain ⟨q, hq⟩ := h
    exact ⟨tokens_of_splits ⟨q, hq⟩, hq.ne_strayQuote⟩
  · rintro ⟨rfl, hstray⟩
    obtain ⟨ts, q, rest, hscan, rfl | ⟨tail, rfl, htail⟩⟩ := Scan.exists_scans .first text
    · rw [tokens_of_splits ⟨q, hscan⟩]
      exact ⟨q, hscan⟩
    · rw [tokens_of_stray hscan htail] at hstray
      exact absurd rfl (hstray _ (List.mem_append_right _ List.mem_cons_self))

end FormLower
