import FormLower.Proofs.Surface.Atoms
import FormLower.Proofs.Surface.Peg
import FormLower.Proofs.Surface.Scanning

/-! # Parsing tokens

What the rules below a form match: blanks and comments between tokens, strings and atoms.  Each rule
is compared with the notion of the surface grammar that it spells out as an expression.  Outcomes
are unique, so it is enough to give the match where there is one. -/

namespace FormLower

open Grammar

namespace Peg

variable {a : Expr} {P : Char → Prop} {p q : Position} {cs rest w : List Char} {ps : List Pair}
variable {n : ℕ}

/-! ### Runs of characters -/

theorem IsClass.many_ok (h : IsClass a P) (hrest : ∀ c, rest.head? = some c → ¬ P c) :
    ∀ (w : List Char) (p : Position), (∀ c ∈ w, P c) →
      Derives (.many a) p (w ++ rest) (.ok [] w rest)
  | [], _, _ => .many_done (h.fail hrest)
  | c :: w, p, hw => by
      obtain ⟨hc, hw⟩ := List.forall_mem_cons.mp hw
      exact .many (h.ok hc) (h.many_ok hrest w (p.after c) hw)

/-- Repeating a class takes the longest run of its characters. -/
theorem IsClass.many_iff (h : IsClass a P) :
    Derives (.many a) p cs (.ok ps w rest) ↔
      ps = [] ∧ cs = w ++ rest ∧ (∀ c ∈ w, P c) ∧ ∀ c, rest.head? = some c → ¬ P c := by
  classical
  constructor
  · intro hd
    obtain ⟨front, tail, rfl, hfront, htail⟩ := Scan.exists_longest P cs
    cases hd.unique (h.many_ok htail front p hfront)
    exact ⟨rfl, rfl, hfront, htail⟩
  · rintro ⟨rfl, rfl, hw, hrest⟩
    exact h.many_ok hrest w p hw

theorem IsClass.ok_iff (h : IsClass a P) :
    Derives a p cs (.ok ps w rest) ↔ ps = [] ∧ ∃ c, P c ∧ w = [c] ∧ cs = c :: rest := by
  classical
  constructor
  · intro hd
    cases cs with
    | nil => cases hd.unique (h.fail (by simp))
    | cons c cs =>
        by_cases hc : P c
        · cases hd.unique (h.ok hc)
          exact ⟨rfl, c, hc, rfl, rfl⟩
        · cases hd.unique (h.fail (by simpa using hc))
  · rintro ⟨rfl, c, hc, rfl, rfl⟩
    exact h.ok hc

theorem IsClass.totalBelow_many (h : IsClass a P) : TotalBelow n (.many a) := by
  refine h.totalBelow.many fun hd => ?_
  obtain ⟨-, c, -, rfl, -⟩ := h.ok_iff.mp hd
  simp

/-- Nothing is matched where no character of the class follows. -/
theorem IsClass.without_iff (h : IsClass a P) :
    Derives (.without a) p cs (.ok ps w rest) ↔
      ps = [] ∧ w = [] ∧ rest = cs ∧ ∀ c, cs.head? = some c → ¬ P c := by
  rw [derives_without_iff]
  constructor
  · rintro ⟨hfail, rfl, rfl, rfl⟩
    refine ⟨rfl, rfl, rfl, fun c hc hP => ?_⟩
    obtain ⟨tail, rfl⟩ := List.head?_eq_some_iff.mp hc
    cases hfail.unique (h.ok hP)
  · rintro ⟨rfl, rfl, rfl, hno⟩
    exact ⟨h.fail hno, rfl, rfl, rfl⟩

/-- Repeating a class at least once takes the longest run, if there is one. -/
theorem IsClass.some_iff (h : IsClass a P) :
    Derives (.some a) p cs (.ok ps w rest) ↔
      ps = [] ∧ w ≠ [] ∧ cs = w ++ rest ∧ (∀ c ∈ w, P c) ∧
        ∀ c, rest.head? = some c → ¬ P c := by
  simp only [Expr.some, derives_seq_iff, h.ok_iff, h.many_iff]
  constructor
  · rintro ⟨_, _, mid, _, u, ⟨rfl, c, hc, rfl, rfl⟩, ⟨rfl, rfl, hu, hrest⟩, rfl, rfl⟩
    exact ⟨rfl, by simp, rfl, List.forall_mem_cons.mpr ⟨hc, hu⟩, hrest⟩
  · rintro ⟨rfl, hne, rfl, hw, hrest⟩
    cases w with
    | nil => exact absurd rfl hne
    | cons c u =>
        obtain ⟨hc, hu⟩ := List.forall_mem_cons.mp hw
        exact ⟨[], [c], u ++ rest, [], u, ⟨rfl, c, hc, rfl, rfl⟩, ⟨rfl, rfl, hu, hrest⟩, rfl, rfl⟩

theorem isClass_whitespace : IsClass (.rule .whitespace) (· ∈ blanks) :=
  (isClass_oneOf blanks).rule rfl

theorem isClass_symbolChar : IsClass (.rule .symbolChar) IsWordChar := by
  have h := (isClass_oneOf
    [' ', '\t', '\r', '\n', ',', '(', ')', '[', ']', '"', ';']).except
  have hiff : ∀ c, c ∉ [' ', '\t', '\r', '\n', ',', '(', ')', '[', ']', '"', ';'] ↔
      IsWordChar c := by
    intro c
    simp [IsWordChar, blanks, and_assoc]
  simp only [hiff] at h
  exact h.rule rfl

theorem isClass_commentChar : IsClass (.seq (.without (.text ['\n'])) .any) (· ≠ '\n') :=
  (isClass_text '\n').except

/-! ### Blanks and comments -/

/-- A comment goes on to the end of its line. -/
theorem derives_comment_iff :
    Derives (.rule .comment) p cs (.ok ps w rest) ↔
      ps = [] ∧ ∃ body, w = ';' :: body ∧ cs = ';' :: body ++ rest ∧ '\n' ∉ body ∧
        ∀ c, rest.head? = some c → c = '\n' := by
  rw [derives_silent_iff rfl, Rule.body, derives_seq_iff]
  simp only [derives_text_iff, isClass_commentChar.many_iff]
  have hbody : ∀ body : List Char, (∀ c ∈ body, c ≠ '\n') ↔ '\n' ∉ body := by
    intro body
    exact ⟨fun h hmem => h _ hmem rfl, fun h c hc heq => h (heq ▸ hc)⟩
  simp only [hbody, Decidable.not_not]
  constructor
  · rintro ⟨_, _, mid, _, body, ⟨rfl, rfl, rfl⟩, ⟨rfl, rfl, hn, hrest⟩, rfl, rfl⟩
    exact ⟨rfl, body, rfl, rfl, hn, hrest⟩
  · rintro ⟨rfl, body, rfl, rfl, hn, hrest⟩
    exact ⟨[], [';'], body ++ rest, [], body, ⟨rfl, rfl, rfl⟩, ⟨rfl, rfl, hn, hrest⟩, rfl, rfl⟩

theorem totalBelow_comment : TotalBelow n (.rule .comment) :=
  .rule (.seq (totalBelow_text _) isClass_commentChar.totalBelow_many)

theorem totalBelow_skip : TotalBelow n .skip := by
  have hblanks : TotalBelow n (.many (.rule .whitespace)) := isClass_whitespace.totalBelow_many
  refine .seq hblanks (.many (.seq totalBelow_comment hblanks) fun hd => ?_)
  obtain ⟨_, _, _, _, _, hcomment, -, -, rfl⟩ := derives_seq_iff.mp hd
  obtain ⟨-, body, rfl, -⟩ := derives_comment_iff.mp hcomment
  simp

theorem scans_blanks {ts : List Token} : ∀ (w : List Char) {p : Position}, (∀ c ∈ w, c ∈ blanks) →
    Scans (p.afterAll w) cs ts q rest → Scans p (w ++ cs) ts q rest
  | [], _, _, h => h
  | c :: w, p, hw, h => by
      obtain ⟨hc, hw⟩ := List.forall_mem_cons.mp hw
      exact .blank hc (scans_blanks w hw h)

/-- What holds of a repetition that ends, and of one more match in front of a repetition, holds of
every repetition. -/
theorem Derives.many_induction {motive : Position → List Char → List Pair → List Char →
      List Char → Prop}
    (done : ∀ p cs, Derives a p cs .fail → motive p cs [] [] cs)
    (step : ∀ p cs ps w mid qs v rest, Derives a p cs (.ok ps w mid) →
      motive (p.afterAll w) mid qs v rest → motive p cs (ps ++ qs) (w ++ v) rest)
    (h : Derives (.many a) p cs (.ok ps w rest)) : motive p cs ps w rest := by
  generalize he : Expr.many a = e at h
  generalize ho : Outcome.ok ps w rest = o at h
  induction h generalizing ps w rest with
  | many ha _ _ ih =>
      cases he
      cases ho
      exact step _ _ _ _ _ _ _ _ ha (ih rfl rfl)
  | many_done ha =>
      cases he
      cases ho
      exact done _ _ ha
  | _ => cases he

theorem scans_of_skip (h : Derives .skip p cs (.ok ps w rest)) :
    ps = [] ∧ Scans p cs [] (p.afterAll w) rest := by
  obtain ⟨_, v, mid, _, u, hblanks, hcomments, rfl, rfl⟩ := derives_seq_iff.mp h
  obtain ⟨rfl, rfl, hv, -⟩ := isClass_whitespace.many_iff.mp hblanks
  rw [Position.afterAll_append]
  suffices hmany : _ = [] ∧ Scans (p.afterAll v) mid [] ((p.afterAll v).afterAll u) rest from
    ⟨hmany.1, scans_blanks v hv hmany.2⟩
  refine hcomments.many_induction (motive := fun p cs ps w rest =>
    ps = [] ∧ Scans p cs [] (p.afterAll w) rest) ?_ ?_
  · exact fun p cs _ => ⟨rfl, .done⟩
  · rintro p cs ps w mid qs x rest hstep ⟨rfl, hscan⟩
    obtain ⟨_, y, _, _, z, hcomment, hblanks, rfl, rfl⟩ := derives_seq_iff.mp hstep
    obtain ⟨rfl, body, rfl, rfl, hbody, hend⟩ := derives_comment_iff.mp hcomment
    obtain ⟨rfl, rfl, hz, -⟩ := isClass_whitespace.many_iff.mp hblanks
    refine ⟨rfl, .comment hbody hend ?_⟩
    simp only [Position.afterAll_append] at hscan ⊢
    exact scans_blanks z hz hscan

theorem skip_blank {c : Char} (hc : c ∈ blanks)
    (h : Derives .skip (p.after c) cs (.ok [] w rest)) :
    Derives .skip p (c :: cs) (.ok [] (c :: w) rest) := by
  obtain ⟨qs, v, mid, rs, u, hblanks, hcomments, hps, rfl⟩ := derives_seq_iff.mp h
  obtain ⟨rfl, rfl⟩ := List.append_eq_nil_iff.mp hps.symm
  exact .seq (.many (isClass_whitespace.ok hc) hblanks) hcomments

theorem skip_comment {body : List Char} (hbody : '\n' ∉ body)
    (hend : ∀ c, cs.head? = some c → c = '\n')
    (h : Derives .skip (p.afterAll (';' :: body)) cs (.ok [] w rest)) :
    Derives .skip p (';' :: body ++ cs) (.ok [] (';' :: body ++ w) rest) := by
  obtain ⟨qs, v, mid, rs, u, hblanks, hcomments, hps, rfl⟩ := derives_seq_iff.mp h
  obtain ⟨rfl, rfl⟩ := List.append_eq_nil_iff.mp hps.symm
  have hcomment : Derives (.rule .comment) p (';' :: body ++ cs) (.ok [] (';' :: body) cs) :=
    derives_comment_iff.mpr ⟨rfl, body, rfl, rfl, hbody, hend⟩
  have hnone : Derives (.many (.rule .whitespace)) p (';' :: body ++ cs)
      (.ok [] [] (';' :: body ++ cs)) := by
    refine .many_done (isClass_whitespace.fail ?_)
    rintro c hc
    obtain rfl := Option.some.inj hc
    decide
  have hfirst := Derives.seq hcomment hblanks
  rw [← Position.afterAll_append] at hcomments
  rw [← List.append_assoc]
  exact .seq hnone (.many hfirst hcomments)

theorem skip_nothing (h : ∀ c, cs.head? = some c → c ∉ blanks ∧ c ≠ ';') :
    Derives .skip p cs (.ok [] [] cs) := by
  refine .seq (.many_done (isClass_whitespace.fail fun c hc => (h c hc).1)) (.many_done ?_)
  refine .seq_fail_left (.silent rfl (.seq_fail_left ((isClass_text ';').fail ?_)))
  exact fun c hc => (h c hc).2

/-- Where no token is scanned everything is skipped, up to something that is not. -/
theorem skip_of_scans (h : Scans p cs [] q rest)
    (hrest : ∀ c, rest.head? = some c → c ∉ blanks ∧ c ≠ ';') :
    ∃ w, cs = w ++ rest ∧ q = p.afterAll w ∧ Derives .skip p cs (.ok [] w rest) := by
  generalize hts : ([] : List Token) = ts at h
  induction h with
  | done => exact ⟨[], rfl, rfl, skip_nothing hrest⟩
  | blank hc _ ih =>
      obtain ⟨w, rfl, rfl, hskip⟩ := ih hrest hts
      exact ⟨_ :: w, rfl, rfl, skip_blank hc hskip⟩
  | @comment p q body cs rest ts hbody hend _ ih =>
      obtain ⟨w, rfl, rfl, hskip⟩ := ih hrest hts
      refine ⟨';' :: body ++ w, by rw [List.append_assoc], ?_, skip_comment hbody hend hskip⟩
      rw [Position.afterAll_append]
  | bracket => cases hts
  | string => cases hts
  | atom => cases hts

/-! ### Strings -/

theorem isClass_strPlain :
    IsClass (.seq (.without (.oneOf ['"', '\\'])) .any) fun c => c ≠ '"' ∧ c ≠ '\\' := by
  have h := (isClass_oneOf ['"', '\\']).except
  simpa [not_or] using h

theorem exists_escape_iff (c : Char) :
    (∃ d, (c, d) ∈ escapes) ↔ c ∈ ['"', '\\', 'n', 't', 'r'] := by
  have hmap : escapes.map Prod.fst = ['"', '\\', 'n', 't', 'r'] := rfl
  rw [← hmap, List.mem_map]
  constructor
  · rintro ⟨d, hd⟩
    exact ⟨(c, d), hd, rfl⟩
  · rintro ⟨⟨c', d⟩, hd, rfl⟩
    exact ⟨d, hd⟩

theorem strChar_plain {c : Char} (hquote : c ≠ '"') (hslash : c ≠ '\\') :
    Derives (.rule .strChar) p (c :: cs) (.ok [.mk .strChar ⟨p, p.after c⟩ [c] []] [c] cs) :=
  .rule (r := .strChar) rfl (.choice_left (isClass_strPlain.ok ⟨hquote, hslash⟩))

theorem strChar_escape {c d : Char} (h : (c, d) ∈ escapes) :
    Derives (.rule .strChar) p ('\\' :: c :: cs)
      (.ok [.mk .strChar ⟨p, (p.after '\\').after c⟩ ['\\', c] []] ['\\', c] cs) := by
  have hc := (exists_escape_iff c).mp ⟨d, h⟩
  have hplain : Derives (.seq (.without (.oneOf ['"', '\\'])) .any) p ('\\' :: c :: cs) .fail := by
    refine isClass_strPlain.fail ?_
    rintro d hd ⟨-, hslash⟩
    exact hslash (Option.some.inj hd).symm
  have hescape : Derives (.seq (.text ['\\']) (.oneOf ['"', '\\', 'n', 't', 'r'])) p
      ('\\' :: c :: cs) (.ok [] ['\\', c] cs) :=
    .seq (.text rfl) ((isClass_oneOf _).ok hc)
  exact .rule (r := .strChar) rfl (.choice_right hplain hescape)

theorem strChar_quote : Derives (.rule .strChar) p ('"' :: cs) .fail := by
  refine .rule_fail rfl (.choice_right (isClass_strPlain.fail ?_) (.seq_fail_left ?_))
  · rintro d hd ⟨hquote, -⟩
    exact hquote (Option.some.inj hd).symm
  · refine (isClass_text '\\').fail ?_
    rintro d hd rfl
    exact absurd (Option.some.inj hd) (by decide)

/-- A character of a string is plain or an escape. -/
theorem Quoted.of_strChar {v value : List Char}
    (h : Derives (.rule .strChar) p cs (.ok ps w rest)) (hv : Quoted v value) :
    ∃ value', Quoted (w ++ v) value' := by
  obtain ⟨inner, hbody, -⟩ := (derives_rule_iff rfl).mp h
  rcases derives_choice_iff.mp hbody with hplain | ⟨-, hescape⟩
  · obtain ⟨-, c, ⟨hquote, hslash⟩, rfl, -⟩ := isClass_strPlain.ok_iff.mp hplain
    exact ⟨c :: value, .plain hquote hslash hv⟩
  · obtain ⟨_, _, mid, _, _, hbackslash, hone, -, rfl⟩ := derives_seq_iff.mp hescape
    obtain ⟨-, rfl, -⟩ := derives_text_iff.mp hbackslash
    obtain ⟨-, c, hc, rfl, -⟩ := (isClass_oneOf _).ok_iff.mp hone
    obtain ⟨d, hd⟩ := (exists_escape_iff c).mpr hc
    exact ⟨d :: value, .escape hd hv⟩

theorem totalBelow_string : TotalBelow n (.rule .string) := by
  have hescape : TotalBelow n (.seq (.text ['\\']) (.oneOf ['"', '\\', 'n', 't', 'r'])) :=
    .seq (totalBelow_text _) (isClass_oneOf _).totalBelow
  have hchar : TotalBelow n (.rule .strChar) := .rule (.choice isClass_strPlain.totalBelow hescape)
  have hmany : TotalBelow n (.many (.rule .strChar)) := by
    refine hchar.many fun hd => ?_
    obtain ⟨inner, hbody, -⟩ := (derives_rule_iff rfl).mp hd
    rcases derives_choice_iff.mp hbody with hplain | ⟨-, hescape⟩
    · obtain ⟨-, c, -, rfl, -⟩ := isClass_strPlain.ok_iff.mp hplain
      simp
    · obtain ⟨_, _, _, _, _, hbackslash, -, -, rfl⟩ := derives_seq_iff.mp hescape
      obtain ⟨-, rfl, -⟩ := derives_text_iff.mp hbackslash
      simp
  have hinner : TotalBelow n (.rule .strInner) := .rule hmany
  exact .rule (.seq (totalBelow_text _) (.seq hinner (totalBelow_text _)))

/-- What stands for a string between its quotes is read to the quote at its end. -/
theorem many_strChar_of_quoted {raw value : List Char} (h : Quoted raw value) (p : Position)
    (rest : List Char) :
    ∃ ps, Derives (.many (.rule .strChar)) p (raw ++ '"' :: rest) (.ok ps raw ('"' :: rest)) := by
  induction h generalizing p with
  | nil => exact ⟨[], .many_done strChar_quote⟩
  | @plain c raw value hquote hslash _ ih =>
      obtain ⟨ps, hps⟩ := ih (p.after c)
      exact ⟨_, .many (strChar_plain hquote hslash) hps⟩
  | @escape c d raw value hd _ ih =>
      obtain ⟨ps, hps⟩ := ih ((p.after '\\').after c)
      exact ⟨_, .many (strChar_escape hd) hps⟩

/-- The pair of a string. -/
def stringPair (p : Position) (raw : List Char) : Pair :=
  .mk .string ⟨p, p.afterAll ('"' :: raw ++ ['"'])⟩ ('"' :: raw ++ ['"'])
    [.mk .strInner ⟨p.after '"', (p.after '"').afterAll raw⟩ raw []]

/-- A string is what is complete between two quotes. -/
theorem derives_string_iff :
    Derives (.rule .string) p cs (.ok ps w rest) ↔
      ∃ raw value, Quoted raw value ∧ w = '"' :: raw ++ ['"'] ∧
        cs = '"' :: raw ++ '"' :: rest ∧ ps = [stringPair p raw] := by
  constructor
  · intro h
    obtain ⟨inner, hbody, rfl⟩ := (derives_rule_iff rfl).mp h
    obtain ⟨_, _, mid, _, _, hopen, hafter, rfl, rfl⟩ := derives_seq_iff.mp hbody
    obtain ⟨rfl, rfl, rfl⟩ := derives_text_iff.mp hopen
    obtain ⟨_, raw, mid', _, _, hinner, hclose, rfl, rfl⟩ := derives_seq_iff.mp hafter
    obtain ⟨rfl, rfl, rfl⟩ := derives_text_iff.mp hclose
    obtain ⟨_, hmany, rfl⟩ := (derives_rule_iff rfl).mp hinner
    have hraw : ∃ value, Quoted raw value := by
      refine hmany.many_induction (motive := fun _ _ _ w _ => ∃ value, Quoted w value)
        (fun _ _ _ => ⟨[], .nil⟩) ?_
      rintro _ _ _ w _ _ v _ hchar ⟨value, hv⟩
      exact Quoted.of_strChar hchar hv
    obtain ⟨value, hvalue⟩ := hraw
    refine ⟨raw, value, hvalue, rfl, ?_, rfl⟩
    rw [hmany.eq_append]
    rfl
  · rintro ⟨raw, value, hvalue, rfl, rfl, rfl⟩
    obtain ⟨qs, hmany⟩ := many_strChar_of_quoted hvalue (p.after '"') rest
    have hinner := Derives.rule (r := .strInner) rfl hmany
    exact .rule (r := .string) rfl (.seq (.text rfl) (.seq hinner (.text rfl)))

/-! ### Atoms -/

/-- The pair of an atom that a rule matched. -/
def atomPair (r : Rule) (p : Position) (w : List Char) : Pair := .mk r ⟨p, p.afterAll w⟩ w []

theorem isWordChar_of_isDigit {c : Char} (h : c.isDigit) : IsWordChar c := by
  constructor
  · intro hc
    simp only [blanks, List.mem_cons, List.not_mem_nil, or_false] at hc
    rcases hc with rfl | rfl | rfl | rfl | rfl <;> exact absurd h (by decide)
  · intro hc
    simp only [List.mem_cons, List.not_mem_nil, or_false] at hc
    rcases hc with rfl | rfl | rfl | rfl | rfl | rfl <;> exact absurd h (by decide)

theorem derives_boolean_iff :
    Derives (.rule .boolean) p cs (.ok ps w rest) ↔
      (w = ['t', 'r', 'u', 'e'] ∨ w = ['f', 'a', 'l', 's', 'e']) ∧ cs = w ++ rest ∧
        (∀ c, rest.head? = some c → ¬ IsWordChar c) ∧ ps = [atomPair .boolean p w] := by
  constructor
  · intro h
    obtain ⟨inner, hbody, rfl⟩ := (derives_rule_iff rfl).mp h
    obtain ⟨_, v, mid, _, _, hword, hend, -, rfl⟩ := derives_seq_iff.mp hbody
    obtain ⟨rfl, rfl, rfl, hrest⟩ := isClass_symbolChar.without_iff.mp hend
    rw [List.append_nil]
    refine ⟨?_, hword.eq_append, hrest, rfl⟩
    rcases derives_choice_iff.mp hword with htrue | ⟨-, hfalse⟩
    · exact .inl (derives_text_iff.mp htrue).2.1
    · exact .inr (derives_text_iff.mp hfalse).2.1
  · rintro ⟨hw, rfl, hrest, rfl⟩
    have hend := isClass_symbolChar.without_iff (p := p.afterAll w).mpr ⟨rfl, rfl, rfl, hrest⟩
    have hword : Derives (.choice (.text ['t', 'r', 'u', 'e']) (.text ['f', 'a', 'l', 's', 'e'])) p
        (w ++ rest) (.ok [] w rest) := by
      rcases hw with rfl | rfl
      · exact .choice_left (.text rfl)
      · refine .choice_right (.text_fail ?_) (.text rfl)
        rintro ⟨tail, htail⟩
        cases htail
    have hall := Derives.rule (r := .boolean) rfl (.seq hword hend)
    rwa [List.append_nil] at hall

/-- What has the shape of a number is a sign, digits and decimal places, of which only the digits
are always there. -/
theorem numberShaped_iff_parts :
    NumberShaped w ↔ ∃ sign ds places, (sign = [] ∨ sign = ['-']) ∧ IsDigits ds ∧
      (places = [] ∨ ∃ ds', IsDigits ds' ∧ places = '.' :: ds') ∧ w = sign ++ (ds ++ places) := by
  have hinteger : ∀ whole : List Char, (∃ i, IntegerText whole i) ↔
      ∃ sign ds, (sign = [] ∨ sign = ['-']) ∧ IsDigits ds ∧ whole = sign ++ ds := by
    intro whole
    constructor
    · rintro ⟨i, hplain | hminus⟩
      · exact ⟨[], whole, .inl rfl, hplain, rfl⟩
      · exact ⟨['-'], _, .inr rfl, hminus, rfl⟩
    · rintro ⟨sign, ds, rfl | rfl, hds, rfl⟩
      · exact ⟨_, .plain hds⟩
      · exact ⟨_, .minus hds⟩
  constructor
  · rintro (hint | ⟨hwhole, hplaces⟩)
    · obtain ⟨sign, ds, hsign, hds, rfl⟩ := (hinteger w).mp hint
      exact ⟨sign, ds, [], hsign, hds, .inl rfl, by simp⟩
    · obtain ⟨sign, ds, hsign, hds, rfl⟩ := (hinteger _).mp ⟨_, hwhole⟩
      exact ⟨sign, ds, _, hsign, hds, .inr ⟨_, hplaces, rfl⟩, by simp⟩
  · rintro ⟨sign, ds, places, hsign, hds, rfl | ⟨ds', hds', rfl⟩, rfl⟩
    · exact .inl ((hinteger _).mpr ⟨sign, ds, hsign, hds, by simp⟩)
    · obtain ⟨i, hi⟩ := (hinteger (sign ++ ds)).mpr ⟨sign, ds, hsign, hds, rfl⟩
      rw [← List.append_assoc]
      exact .inr (.mk hi hds')

/-- What has the shape of a number is matched as a number, if no word goes on behind it. -/
theorem derives_number (hw : NumberShaped w) (hrest : ∀ c, rest.head? = some c → ¬ IsWordChar c)
    (p : Position) :
    Derives (.rule .number) p (w ++ rest) (.ok [atomPair .number p w] w rest) := by
  have hdigit := isClass_one Char.isDigit
  obtain ⟨sign, ds, places, hsign, ⟨hne, hall⟩, hplaces, rfl⟩ := numberShaped_iff_parts.mp hw
  have hnodigit : ∀ c, rest.head? = some c → ¬ c.isDigit :=
    fun c hc hd => hrest c hc (isWordChar_of_isDigit hd)
  have hminus : Derives (.optional (.text ['-'])) p (sign ++ (ds ++ (places ++ rest)))
      (.ok [] sign (ds ++ (places ++ rest))) := by
    rcases hsign with rfl | rfl
    · refine .optional_none ((isClass_text '-').fail ?_)
      obtain ⟨d, ds, rfl⟩ := List.exists_cons_of_ne_nil hne
      rintro c hc rfl
      obtain rfl := Option.some.inj hc
      exact absurd (hall _ List.mem_cons_self) (by decide)
    · exact .optional (.text rfl)
  have hwhole : Derives (.some (.one Char.isDigit)) (p.afterAll sign) (ds ++ (places ++ rest))
      (.ok [] ds (places ++ rest)) := by
    refine hdigit.some_iff.mpr ⟨rfl, hne, rfl, hall, ?_⟩
    rcases hplaces with rfl | ⟨ds', -, rfl⟩
    · exact hnodigit
    · rintro c hc
      obtain rfl := Option.some.inj hc
      decide
  have hpoint : Derives (.optional (.seq (.text ['.']) (.some (.one Char.isDigit))))
      ((p.afterAll sign).afterAll ds) (places ++ rest) (.ok [] places rest) := by
    rcases hplaces with rfl | ⟨ds', ⟨hne', hall'⟩, rfl⟩
    · refine .optional_none (.seq_fail_left ((isClass_text '.').fail ?_))
      rintro c hc rfl
      exact hrest _ hc (by decide)
    · exact .optional (.seq (.text rfl) (hdigit.some_iff.mpr ⟨rfl, hne', rfl, hall', hnodigit⟩))
  have hend : Derives (.without (.rule .symbolChar))
      (((p.afterAll sign).afterAll ds).afterAll places) rest (.ok [] [] rest) :=
    isClass_symbolChar.without_iff.mpr ⟨rfl, rfl, rfl, hrest⟩
  have hnumber := Derives.rule (r := .number) rfl (.seq hminus (.seq hwhole (.seq hpoint hend)))
  simpa only [atomPair, List.append_nil, List.append_assoc, ite_self] using hnumber

theorem derives_number_iff :
    Derives (.rule .number) p cs (.ok ps w rest) ↔
      NumberShaped w ∧ cs = w ++ rest ∧ (∀ c, rest.head? = some c → ¬ IsWordChar c) ∧
        ps = [atomPair .number p w] := by
  have hdigit := isClass_one Char.isDigit
  constructor
  · intro h
    obtain ⟨inner, hbody, rfl⟩ := (derives_rule_iff rfl).mp h
    have hcs := hbody.eq_append
    obtain ⟨_, sign, mid, _, _, hsign, hunsigned, -, rfl⟩ := derives_seq_iff.mp hbody
    obtain ⟨_, ds, mid', _, _, hds, hafter, -, rfl⟩ := derives_seq_iff.mp hunsigned
    obtain ⟨_, places, mid'', _, _, hplaces, hend, -, rfl⟩ := derives_seq_iff.mp hafter
    obtain ⟨rfl, rfl, rfl, hrest⟩ := isClass_symbolChar.without_iff.mp hend
    rw [List.append_nil] at hcs ⊢
    refine ⟨numberShaped_iff_parts.mpr ⟨sign, ds, places, ?_, ?_, ?_, rfl⟩, hcs, hrest, rfl⟩
    · rcases derives_optional_iff.mp hsign with hminus | ⟨-, -, rfl, -⟩
      · exact .inr (derives_text_iff.mp hminus).2.1
      · exact .inl rfl
    · obtain ⟨-, hne, -, hall, -⟩ := hdigit.some_iff.mp hds
      exact ⟨hne, hall⟩
    · rcases derives_optional_iff.mp hplaces with hpoint | ⟨-, -, rfl, -⟩
      · obtain ⟨_, _, _, _, ds', hdot, hds', -, rfl⟩ := derives_seq_iff.mp hpoint
        obtain ⟨-, rfl, -⟩ := derives_text_iff.mp hdot
        obtain ⟨-, hne, -, hall, -⟩ := hdigit.some_iff.mp hds'
        exact .inr ⟨ds', ⟨hne, hall⟩, rfl⟩
      · exact .inl rfl
  · rintro ⟨hw, rfl, hrest, rfl⟩
    exact derives_number hw hrest p

theorem derives_symbol_iff :
    Derives (.rule .symbol) p cs (.ok ps w rest) ↔
      w ≠ [] ∧ cs = w ++ rest ∧ (∀ c ∈ w, IsWordChar c) ∧
        (∀ c, rest.head? = some c → ¬ IsWordChar c) ∧ ps = [atomPair .symbol p w] := by
  rw [derives_rule_iff rfl]
  simp only [Rule.body, isClass_symbolChar.some_iff]
  constructor
  · rintro ⟨inner, ⟨rfl, hne, hcs, hw, hrest⟩, rfl⟩
    exact ⟨hne, hcs, hw, hrest, rfl⟩
  · rintro ⟨hne, hcs, hw, hrest, rfl⟩
    exact ⟨[], ⟨rfl, hne, hcs, hw, hrest⟩, rfl⟩

/-- The rule that matches a word. -/
inductive AtomRule : Rule → List Char → Prop
  | boolean {w : List Char} :
      w = ['t', 'r', 'u', 'e'] ∨ w = ['f', 'a', 'l', 's', 'e'] → AtomRule .boolean w
  | number {w : List Char} : NumberShaped w → AtomRule .number w
  | symbol {w : List Char} : IsSymbol (String.ofList w) → AtomRule .symbol w

theorem isSymbol_ofList_iff :
    IsSymbol (String.ofList w) ↔
      ¬ (w = ['t', 'r', 'u', 'e'] ∨ w = ['f', 'a', 'l', 's', 'e']) ∧ ¬ NumberShaped w := by
  have htrue : "true" = String.ofList ['t', 'r', 'u', 'e'] := rfl
  have hfalse : "false" = String.ofList ['f', 'a', 'l', 's', 'e'] := rfl
  constructor
  · rintro ⟨ht, hf, hn⟩
    rw [String.toList_ofList] at hn
    refine ⟨?_, hn⟩
    rintro (rfl | rfl)
    · exact ht rfl
    · exact hf rfl
  · rintro ⟨hw, hn⟩
    refine ⟨?_, ?_, by rwa [String.toList_ofList]⟩
    · intro h
      exact hw (.inl (String.ofList_injective (h.trans htrue)))
    · intro h
      exact hw (.inr (String.ofList_injective (h.trans hfalse)))

theorem exists_atomRule (w : List Char) : ∃ r, AtomRule r w := by
  classical
  by_cases hbool : w = ['t', 'r', 'u', 'e'] ∨ w = ['f', 'a', 'l', 's', 'e']
  · exact ⟨_, .boolean hbool⟩
  · by_cases hnumber : NumberShaped w
    · exact ⟨_, .number hnumber⟩
    · exact ⟨_, .symbol (isSymbol_ofList_iff.mpr ⟨hbool, hnumber⟩)⟩

theorem totalBelow_wordEnd : TotalBelow n (.without (.rule .symbolChar)) :=
  isClass_symbolChar.totalBelow.without

theorem totalBelow_boolean : TotalBelow n (.rule .boolean) :=
  .rule (.seq (.choice (totalBelow_text _) (totalBelow_text _)) totalBelow_wordEnd)

theorem totalBelow_number : TotalBelow n (.rule .number) := by
  have hdigit := isClass_one Char.isDigit
  have hdigits : TotalBelow n (.some (.one Char.isDigit)) :=
    .seq hdigit.totalBelow hdigit.totalBelow_many
  have hpoint : TotalBelow n (.seq (.text ['.']) (.some (.one Char.isDigit))) :=
    .seq (totalBelow_text _) hdigits
  exact .rule (.seq (.optional (totalBelow_text _))
    (.seq hdigits (.seq hpoint.optional totalBelow_wordEnd)))

theorem totalBelow_symbol : TotalBelow n (.rule .symbol) :=
  .rule (.seq isClass_symbolChar.totalBelow isClass_symbolChar.totalBelow_many)

/-- A truth value, a number or a symbol. -/
def atomExpr : Expr := .choice (.rule .boolean) (.choice (.rule .number) (.rule .symbol))

theorem AtomRule.isWord {r : Rule} (hr : AtomRule r w) (hsymbol : r ≠ .symbol) :
    w ≠ [] ∧ ∀ c ∈ w, IsWordChar c := by
  cases hr with
  | boolean hw => rcases hw with rfl | rfl <;> simp [IsWordChar, blanks]
  | number hw =>
      obtain ⟨sign, ds, places, hsign, ⟨hne, hall⟩, hplaces, rfl⟩ := numberShaped_iff_parts.mp hw
      refine ⟨by simp [hne], ?_⟩
      simp only [List.forall_mem_append]
      refine ⟨?_, fun c hc => isWordChar_of_isDigit (hall c hc), ?_⟩
      · rcases hsign with rfl | rfl <;> simp [IsWordChar, blanks]
      · rcases hplaces with rfl | ⟨ds', ⟨-, hall'⟩, rfl⟩
        · simp
        · refine List.forall_mem_cons.mpr ⟨by decide, fun c hc => ?_⟩
          exact isWordChar_of_isDigit (hall' c hc)
  | symbol _ => exact absurd rfl hsymbol

theorem not_boolWord_of_numberShaped (h : NumberShaped w) :
    ¬ (w = ['t', 'r', 'u', 'e'] ∨ w = ['f', 'a', 'l', 's', 'e']) := by
  have htrue : Numeral.ofChars? ['t', 'r', 'u', 'e'] = none := by decide
  have hfalse : Numeral.ofChars? ['f', 'a', 'l', 's', 'e'] = none := by decide
  obtain ⟨n, hn⟩ := numberShaped_iff.mp h
  rintro (rfl | rfl)
  · rw [htrue] at hn
    cases hn
  · rw [hfalse] at hn
    cases hn

/-- The word at the front of a text is as long as it can be. -/
theorem word_unique {v tail : List Char} (h : w ++ rest = v ++ tail) (hw : ∀ c ∈ w, IsWordChar c)
    (hrest : ∀ c, rest.head? = some c → ¬ IsWordChar c) (hv : ∀ c ∈ v, IsWordChar c)
    (htail : ∀ c, tail.head? = some c → ¬ IsWordChar c) : v = w := by
  have hfirst := isClass_symbolChar.many_ok hrest w .first hw
  have hsecond := isClass_symbolChar.many_ok htail v .first hv
  rw [h] at hfirst
  cases hfirst.unique hsecond
  rfl

/-- **A word is matched by its rule**, and each of the three rules matches nothing but words. -/
theorem derives_atom_iff :
    Derives atomExpr p cs (.ok ps w rest) ↔
      w ≠ [] ∧ cs = w ++ rest ∧ (∀ c ∈ w, IsWordChar c) ∧
        (∀ c, rest.head? = some c → ¬ IsWordChar c) ∧
          ∃ r, AtomRule r w ∧ ps = [atomPair r p w] := by
  constructor
  · intro h
    rcases derives_choice_iff.mp h with hboolean | ⟨hnoboolean, h⟩
    · obtain ⟨hw, hcs, hrest, hps⟩ := derives_boolean_iff.mp hboolean
      obtain ⟨hne, hchars⟩ := (AtomRule.boolean hw).isWord (by decide)
      exact ⟨hne, hcs, hchars, hrest, _, .boolean hw, hps⟩
    rcases derives_choice_iff.mp h with hnumber | ⟨hnonumber, hsymbol⟩
    · obtain ⟨hw, hcs, hrest, hps⟩ := derives_number_iff.mp hnumber
      obtain ⟨hne, hchars⟩ := (AtomRule.number hw).isWord (by decide)
      exact ⟨hne, hcs, hchars, hrest, _, .number hw, hps⟩
    · obtain ⟨hne, hcs, hchars, hrest, hps⟩ := derives_symbol_iff.mp hsymbol
      refine ⟨hne, hcs, hchars, hrest, _, .symbol (isSymbol_ofList_iff.mpr ⟨?_, ?_⟩), hps⟩
      · intro hw
        cases hnoboolean.unique (derives_boolean_iff.mpr ⟨hw, hcs, hrest, rfl⟩)
      · intro hw
        cases hnonumber.unique (derives_number_iff.mpr ⟨hw, hcs, hrest, rfl⟩)
  · rintro ⟨hne, rfl, hchars, hrest, r, hr, rfl⟩
    -- the rules before the one that matches this word could only match it too
    have hnoboolean (hw : ¬ (w = ['t', 'r', 'u', 'e'] ∨ w = ['f', 'a', 'l', 's', 'e'])) :
        Derives (.rule .boolean) p (w ++ rest) .fail := by
      refine totalBelow_boolean.fail fun ps v tail hboolean => ?_
      obtain ⟨hv, hcs, htail, -⟩ := derives_boolean_iff.mp hboolean
      obtain ⟨-, hvchars⟩ := (AtomRule.boolean hv).isWord (by decide)
      obtain rfl := word_unique hcs hchars hrest hvchars htail
      exact hw hv
    have hnonumber (hw : ¬ NumberShaped w) : Derives (.rule .number) p (w ++ rest) .fail := by
      refine totalBelow_number.fail fun ps v tail hnumber => ?_
      obtain ⟨hv, hcs, htail, -⟩ := derives_number_iff.mp hnumber
      obtain ⟨-, hvchars⟩ := (AtomRule.number hv).isWord (by decide)
      obtain rfl := word_unique hcs hchars hrest hvchars htail
      exact hw hv
    cases hr with
    | boolean hw => exact .choice_left (derives_boolean_iff.mpr ⟨hw, rfl, hrest, rfl⟩)
    | number hw =>
        refine .choice_right (hnoboolean (not_boolWord_of_numberShaped hw)) (.choice_left ?_)
        exact derives_number_iff.mpr ⟨hw, rfl, hrest, rfl⟩
    | symbol hw =>
        obtain ⟨hnobool, hnonum⟩ := isSymbol_ofList_iff.mp hw
        refine .choice_right (hnoboolean hnobool) (.choice_right (hnonumber hnonum) ?_)
        exact derives_symbol_iff.mpr ⟨hne, rfl, hchars, hrest, rfl⟩

theorem totalBelow_atom : TotalBelow n atomExpr :=
  .choice totalBelow_boolean (.choice totalBelow_number totalBelow_symbol)

end Peg
end FormLower
