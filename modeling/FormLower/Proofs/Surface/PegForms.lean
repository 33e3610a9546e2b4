import FormLower.Proofs.Surface.PegTokens
import FormLower.Proofs.Surface.Reading

/-! # Parsing forms

A form is matched by the parsing expressions of the surface grammar exactly where its tokens are
grouped to data by their brackets, and the pairs that the match leaves stand for those data
(`Peg.parsed_of_form`, `Peg.forms_of_groups`).  Elsewhere it is refused (`Peg.totalBelow_form`).

A group contains forms again, in a text that is shorter.  From a match to the tokens the induction
is on the length of the text; from the tokens to a match it is on how they are grouped. -/

namespace FormLower

open Grammar

/-! ### Parts of a text -/

theorem Grammar.Scans.append {p q r : Position} {cs mid rest : List Char} {ts us : List Token}
    (h : Scans p cs ts q mid) (h' : Scans q mid us r rest) : Scans p cs (ts ++ us) r rest := by
  induction h with
  | done => exact h'
  | blank hc _ ih => exact .blank hc (ih h')
  | comment hbody hend _ ih => exact .comment hbody hend (ih h')
  | bracket hc _ ih => exact .bracket hc (ih h')
  | string hq _ ih => exact .string hq (ih h')
  | atom hne hw hend _ ih => exact .atom hne hw hend (ih h')

theorem Grammar.Scans.exists_of_append {p r : Position} {cs rest : List Char} {ts us : List Token}
    (h : Scans p cs (ts ++ us) r rest) :
    ∃ q mid, Scans p cs ts q mid ∧ Scans q mid us r rest := by
  generalize hall : ts ++ us = all at h
  induction h generalizing ts with
  | done =>
      obtain ⟨rfl, rfl⟩ := List.append_eq_nil_iff.mp hall
      exact ⟨_, _, .done, .done⟩
  | blank hc _ ih =>
      obtain ⟨q, mid, hts, hus⟩ := ih hall
      exact ⟨q, mid, .blank hc hts, hus⟩
  | comment hbody hend _ ih =>
      obtain ⟨q, mid, hts, hus⟩ := ih hall
      exact ⟨q, mid, .comment hbody hend hts, hus⟩
  | bracket hc h ih =>
      rcases List.append_eq_cons_iff.mp hall with ⟨rfl, rfl⟩ | ⟨ts, rfl, rfl⟩
      · exact ⟨_, _, .done, .bracket hc h⟩
      · obtain ⟨q, mid, hts, hus⟩ := ih rfl
        exact ⟨q, mid, .bracket hc hts, hus⟩
  | string hq h ih =>
      rcases List.append_eq_cons_iff.mp hall with ⟨rfl, rfl⟩ | ⟨ts, rfl, rfl⟩
      · exact ⟨_, _, .done, .string hq h⟩
      · obtain ⟨q, mid, hts, hus⟩ := ih rfl
        exact ⟨q, mid, .string hq hts, hus⟩
  | atom hne hw hend h ih =>
      rcases List.append_eq_cons_iff.mp hall with ⟨rfl, rfl⟩ | ⟨ts, rfl, rfl⟩
      · exact ⟨_, _, .done, .atom hne hw hend h⟩
      · obtain ⟨q, mid, hts, hus⟩ := ih rfl
        exact ⟨q, mid, .atom hne hw hend hts, hus⟩

theorem Groups.append {ts us : List Token} {ds es : List Datum} (h : Groups ts ds)
    (h' : Groups us es) : Groups (ts ++ us) (ds ++ es) := by
  induction h with
  | nil => exact h'
  | string _ ih => exact .string ih
  | atom _ ih => exact .atom ih
  | group hinner _ _ ih => simpa using Groups.group hinner ih

namespace Peg

variable {e : Expr} {p q : Position} {cs mid rest tail w v : List Char} {ps qs : List Pair}
variable {ts : List Token} {ds : List Datum} {b : Bracket}

/-! ### Brackets -/

def opener : Bracket → Char
  | .round => '('
  | .square => '['

def closer : Bracket → Char
  | .round => ')'
  | .square => ']'

/-- The rule that matches a group. -/
def groupRule : Bracket → Rule
  | .round => .expression
  | .square => .list

theorem groupRule_body (b : Bracket) :
    (groupRule b).body =
      .spaced (.text [opener b]) (.spaced (.spacedMany (.rule .form)) (.text [closer b])) := by
  cases b <;> rfl

theorem mem_brackets_opening {c : Char} : (c, .opening b) ∈ brackets ↔ c = opener b := by
  cases b <;> simp [brackets, opener]

theorem mem_brackets_closing {c : Char} : (c, .closing b) ∈ brackets ↔ c = closer b := by
  cases b <;> simp [brackets, closer]

/-- Where forms end: at a closing bracket or at the end of the text. -/
def Stops (rest : List Char) : Prop := ∀ c, rest.head? = some c → ∃ b, c = closer b

theorem stops_nil : Stops [] := by simp [Stops]

theorem stops_closer (b : Bracket) (cs : List Char) : Stops (closer b :: cs) := by
  intro c hc
  exact ⟨b, (Option.some.inj hc).symm⟩

/-- Where forms end no form is matched, and nothing is skipped in front of it. -/
structure Ends (p : Position) (rest : List Char) : Prop where
  not_skipped : ∀ c, rest.head? = some c → c ∉ blanks ∧ c ≠ ';'
  no_form : Derives (.rule .form) p rest .fail

theorem Stops.not_skipped (h : Stops rest) :
    ∀ c, rest.head? = some c → c ∉ blanks ∧ c ≠ ';' := by
  intro c hc
  obtain ⟨b, rfl⟩ := h c hc
  cases b <;> decide

/-! ### Pairs and data -/

/-- The data that pairs of forms stand for. -/
inductive Stands : List Pair → List Datum → Prop
  | nil : Stands [] []
  | string {p : Position} {raw value : List Char} {ps : List Pair} {ds : List Datum} :
      Quoted raw value → Stands ps ds →
      Stands (stringPair p raw :: ps)
        (.string (String.ofList value) ⟨p, p.afterAll ('"' :: raw ++ ['"'])⟩ :: ds)
  | atom {r : Rule} {p : Position} {w : List Char} {ps : List Pair} {ds : List Datum} :
      AtomRule r w → Stands ps ds →
      Stands (atomPair r p w :: ps) (.atom (String.ofList w) ⟨p, p.afterAll w⟩ :: ds)
  | group {b : Bracket} {e : Extent} {w : List Char} {inner ps : List Pair}
      {items ds : List Datum} :
      Stands inner items → Stands ps ds →
      Stands (.mk (groupRule b) e w inner :: ps) (.group b items e :: ds)

theorem Stands.append {es : List Datum} (h : Stands ps ds) (h' : Stands qs es) :
    Stands (ps ++ qs) (ds ++ es) := by
  induction h with
  | nil => exact h'
  | string hq _ ih => exact .string hq ih
  | atom hr _ ih => exact .atom hr ih
  | group hinner _ _ ih => exact .group hinner ih

/-! ### From a match to the tokens -/

/-- What was matched splits into tokens whose data the pairs stand for. -/
def Parsed (p : Position) (cs : List Char) (ps : List Pair) (w rest : List Char) : Prop :=
  ∃ ts ds, Scans p cs ts (p.afterAll w) rest ∧ Groups ts ds ∧ Stands ps ds

theorem Parsed.append (h : Parsed p cs ps w mid) (h' : Parsed (p.afterAll w) mid qs v rest) :
    Parsed p cs (ps ++ qs) (w ++ v) rest := by
  obtain ⟨ts, ds, hscans, hgroups, hstands⟩ := h
  obtain ⟨us, es, hscans', hgroups', hstands'⟩ := h'
  refine ⟨ts ++ us, ds ++ es, ?_, hgroups.append hgroups', hstands.append hstands'⟩
  rw [Position.afterAll_append]
  exact hscans.append hscans'

theorem parsed_of_skip (h : Derives .skip p cs (.ok ps w rest)) : Parsed p cs ps w rest := by
  obtain ⟨rfl, hscans⟩ := scans_of_skip h
  exact ⟨[], [], hscans, .nil, .nil⟩

theorem parsed_of_string (h : Derives (.rule .string) p cs (.ok ps w rest)) :
    Parsed p cs ps w rest := by
  obtain ⟨raw, value, hquoted, rfl, rfl, rfl⟩ := derives_string_iff.mp h
  exact ⟨_, _, .string hquoted .done, .string .nil, .string hquoted .nil⟩

theorem parsed_of_atom (h : Derives atomExpr p cs (.ok ps w rest)) : Parsed p cs ps w rest := by
  obtain ⟨hne, rfl, hw, hrest, r, hr, rfl⟩ := derives_atom_iff.mp h
  exact ⟨_, _, .atom hne hw hrest .done, .atom .nil, .atom hr .nil⟩

section
variable {n : ℕ}
  (hform : ∀ {p cs ps w rest}, cs.length < n → Derives (.rule .form) p cs (.ok ps w rest) →
    Parsed p cs ps w rest)
include hform

theorem parsed_of_many (hlen : cs.length < n)
    (h : Derives (.many (.seq .skip (.rule .form))) p cs (.ok ps w rest)) :
    Parsed p cs ps w rest := by
  refine h.many_induction (motive := fun p cs ps w rest =>
    cs.length < n → Parsed p cs ps w rest) ?_ ?_ hlen
  · exact fun p cs _ _ => ⟨[], [], .done, .nil, .nil⟩
  · intro p cs ps w mid qs v rest hstep ih hlen
    have hmid := hstep.eq_append
    obtain ⟨_, u, mid', _, x, hskip, hone, rfl, rfl⟩ := derives_seq_iff.mp hstep
    have hmid' := hskip.eq_append
    have hlen' : mid'.length < n := by
      rw [hmid', List.length_append] at hlen
      omega
    have hlast : mid.length < n := by
      rw [hmid, List.length_append] at hlen
      omega
    exact ((parsed_of_skip hskip).append (hform hlen' hone)).append (ih hlast)

/-- Forms with blanks and comments around them, up to what the rule goes on with. -/
theorem parsed_of_forms (hlen : cs.length < n)
    (h : Derives (.seq .skip (.spaced (.spacedMany (.rule .form)) e)) p cs (.ok ps w rest)) :
    ∃ qs v mid rs u, Parsed p cs qs v mid ∧ Derives e (p.afterAll v) mid (.ok rs u rest) ∧
      ps = qs ++ rs ∧ w = v ++ u := by
  obtain ⟨_, u, mid, _, _, hskip, hafter, rfl, rfl⟩ := derives_seq_iff.mp h
  obtain ⟨qs, v, mid', _, _, hforms, hlast, rfl, rfl⟩ := derives_seq_iff.mp hafter
  obtain ⟨_, x, mid'', rs, y, hskip', he, rfl, rfl⟩ := derives_seq_iff.mp hlast
  have hmid : mid.length < n := by
    rw [hskip.eq_append, List.length_append] at hlen
    omega
  have hparsed : Parsed (p.afterAll u) mid qs v mid' := by
    rcases derives_optional_iff.mp hforms with hsome | ⟨-, rfl, rfl, rfl⟩
    · obtain ⟨_, y, m, _, z, hfirst, hmany, rfl, rfl⟩ := derives_seq_iff.mp hsome
      have hm : m.length < n := by
        rw [hfirst.eq_append, List.length_append] at hmid
        omega
      exact (hform hmid hfirst).append (parsed_of_many hform hm hmany)
    · exact ⟨[], [], .done, .nil, .nil⟩
  refine ⟨_, u ++ (v ++ x), mid'', rs, y,
    (parsed_of_skip hskip).append (hparsed.append (parsed_of_skip hskip')), ?_, ?_, ?_⟩
  · simpa only [Position.afterAll_append] using he
  · simp only [List.append_assoc]
  · simp only [List.append_assoc]

theorem parsed_of_group (hlen : cs.length < n + 1)
    (h : Derives (.rule (groupRule b)) p cs (.ok ps w rest)) : Parsed p cs ps w rest := by
  obtain ⟨inner, hbody, rfl⟩ := (derives_rule_iff (by cases b <;> rfl)).mp h
  rw [groupRule_body] at hbody
  obtain ⟨_, _, mid, _, _, hopen, hforms, rfl, rfl⟩ := derives_seq_iff.mp hbody
  obtain ⟨rfl, rfl, rfl⟩ := derives_text_iff.mp hopen
  have hmid : mid.length < n := by simpa using hlen
  obtain ⟨qs, v, mid', _, _, ⟨ts, ds, hscans, hgroups, hstands⟩, hclose, rfl, rfl⟩ :=
    parsed_of_forms hform hmid hforms
  obtain ⟨rfl, rfl, rfl⟩ := derives_text_iff.mp hclose
  have hclosing := Scans.bracket (p := (p.afterAll [opener b]).afterAll v)
    (mem_brackets_closing (b := b).mpr rfl) (@Scans.done _ rest)
  have hopening := Scans.bracket (p := p) (mem_brackets_opening (b := b).mpr rfl)
    (hscans.append hclosing)
  have hatomic : (groupRule b).isAtomic = false := by cases b <;> rfl
  have hstop : p.afterAll ([opener b] ++ (v ++ [closer b])) =
      ((p.afterAll [opener b]).afterAll v).after (closer b) := by
    rw [Position.afterAll_append, Position.afterAll_append]
    rfl
  rw [Parsed, hstop, hatomic]
  refine ⟨_, _, hopening, .group hgroups .nil, ?_⟩
  simpa using Stands.group hstands .nil

end

/-- **A form is matched on the tokens of data that its pairs stand for.** -/
theorem parsed_of_form : ∀ {n : ℕ} {p cs ps w rest}, cs.length < n →
    Derives (.rule .form) p cs (.ok ps w rest) → Parsed p cs ps w rest := by
  intro n
  induction n with
  | zero => exact fun hlen => absurd hlen (Nat.not_lt_zero _)
  | succ n ih =>
      intro p cs ps w rest hlen h
      have hbody := (derives_silent_iff rfl).mp h
      rcases derives_choice_iff.mp hbody with hround | ⟨-, hbody⟩
      · exact parsed_of_group (b := .round) ih hlen hround
      rcases derives_choice_iff.mp hbody with hsquare | ⟨-, hbody⟩
      · exact parsed_of_group (b := .square) ih hlen hsquare
      rcases derives_choice_iff.mp hbody with hstring | ⟨-, hatom⟩
      · exact parsed_of_string hstring
      · exact parsed_of_atom hatom

/-! ### From the tokens to a match -/

theorem group_fail (h : ∀ c, cs.head? = some c → c ≠ opener b) :
    Derives (.rule (groupRule b)) p cs .fail := by
  refine .rule_fail (by cases b <;> rfl) ?_
  rw [groupRule_body]
  exact .seq_fail_left ((isClass_text (opener b)).fail h)

theorem string_fail (h : ∀ c, cs.head? = some c → c ≠ '"') :
    Derives (.rule .string) p cs .fail :=
  .rule_fail rfl (.seq_fail_left ((isClass_text '"').fail h))

theorem atom_fail (h : ∀ c, cs.head? = some c → ¬ IsWordChar c) : Derives atomExpr p cs .fail := by
  refine totalBelow_atom.fail fun ps w rest hatom => ?_
  obtain ⟨hne, rfl, hw, -, -⟩ := derives_atom_iff.mp hatom
  obtain ⟨c, w, rfl⟩ := List.exists_cons_of_ne_nil hne
  exact h c rfl (hw c List.mem_cons_self)

theorem form_fail_of_fails (hgroup : ∀ b, Derives (.rule (groupRule b)) p cs .fail)
    (hstring : Derives (.rule .string) p cs .fail) (hatom : Derives atomExpr p cs .fail) :
    Derives (.rule .form) p cs .fail :=
  .silent rfl (.choice_right (hgroup .round) (.choice_right (hgroup .square)
    (.choice_right hstring hatom)))

theorem form_fail (h : Stops cs) : Derives (.rule .form) p cs .fail := by
  have hchar : ∀ c, cs.head? = some c →
      (∀ b, c ≠ opener b) ∧ c ≠ '"' ∧ ¬ IsWordChar c := by
    intro c hc
    obtain ⟨b, rfl⟩ := h c hc
    refine ⟨fun b' => ?_, ?_, ?_⟩
    · cases b <;> cases b' <;> decide
    · cases b <;> decide
    · cases b <;> decide
  apply form_fail_of_fails
  · exact fun b => group_fail fun c hc => (hchar c hc).1 b
  · exact string_fail fun c hc => (hchar c hc).2.1
  · exact atom_fail fun c hc => (hchar c hc).2.2

theorem Stops.ends (h : Stops cs) (p : Position) : Ends p cs := ⟨h.not_skipped, form_fail h⟩

theorem form_of_group (h : Derives (.rule (groupRule b)) p cs (.ok ps w rest)) :
    Derives (.rule .form) p cs (.ok ps w rest) := by
  cases b with
  | round => exact .silent rfl (.choice_left h)
  | square =>
      have hhead : ∀ c, cs.head? = some c → c ≠ opener .round := by
        obtain ⟨inner, hbody, -⟩ := (derives_rule_iff rfl).mp h
        obtain ⟨_, _, mid, _, _, hopen, -, -, -⟩ := derives_seq_iff.mp hbody
        obtain ⟨-, -, rfl⟩ := derives_text_iff.mp hopen
        rintro c hc
        obtain rfl := Option.some.inj hc
        decide
      exact .silent rfl (.choice_right (group_fail (b := .round) hhead) (.choice_left h))

theorem form_of_string {raw value : List Char} (h : Quoted raw value) :
    Derives (.rule .form) p ('"' :: raw ++ '"' :: rest)
      (.ok [stringPair p raw] ('"' :: raw ++ ['"']) rest) := by
  have hhead : ∀ b c, ('"' :: raw ++ '"' :: rest).head? = some c → c ≠ opener b := by
    rintro b c hc
    obtain rfl := Option.some.inj hc
    cases b <;> decide
  have hstring : Derives (.rule .string) p ('"' :: raw ++ '"' :: rest)
      (.ok [stringPair p raw] ('"' :: raw ++ ['"']) rest) :=
    derives_string_iff.mpr ⟨raw, value, h, rfl, rfl, rfl⟩
  exact .silent rfl (.choice_right (group_fail (b := .round) (hhead _))
    (.choice_right (group_fail (b := .square) (hhead _)) (.choice_left hstring)))

theorem form_of_atom {r : Rule} (hr : AtomRule r w) (hne : w ≠ []) (hw : ∀ c ∈ w, IsWordChar c)
    (hrest : ∀ c, rest.head? = some c → ¬ IsWordChar c) :
    Derives (.rule .form) p (w ++ rest) (.ok [atomPair r p w] w rest) := by
  have hhead : ∀ c, (w ++ rest).head? = some c → IsWordChar c := by
    obtain ⟨c, w, rfl⟩ := List.exists_cons_of_ne_nil hne
    rintro c hc
    obtain rfl := Option.some.inj hc
    exact hw _ List.mem_cons_self
  have hopener : ∀ b c, (w ++ rest).head? = some c → c ≠ opener b := by
    rintro b c hc rfl
    refine absurd (hhead _ hc) ?_
    cases b <;> decide
  have hquote : ∀ c, (w ++ rest).head? = some c → c ≠ '"' := by
    rintro c hc rfl
    exact absurd (hhead _ hc) (by decide)
  have hatom := derives_atom_iff (p := p).mpr ⟨hne, rfl, hw, hrest, r, hr, rfl⟩
  exact .silent rfl (.choice_right (group_fail (b := .round) (hopener _))
    (.choice_right (group_fail (b := .square) (hopener _))
      (.choice_right (string_fail hquote) hatom)))

/-- What a text begins with where nothing is skipped, and what the first token leaves. -/
inductive FirstToken : Position → List Char → Token → Position → List Char → Prop
  | bracket {p : Position} {c : Char} {l : Lexeme} {cs : List Char} :
      (c, l) ∈ brackets → FirstToken p (c :: cs) ⟨l, ⟨p, p.after c⟩⟩ (p.after c) cs
  | string {p : Position} {raw value cs : List Char} :
      Quoted raw value →
      FirstToken p ('"' :: raw ++ '"' :: cs)
        ⟨.string (String.ofList value), ⟨p, p.afterAll ('"' :: raw ++ ['"'])⟩⟩
        (p.afterAll ('"' :: raw ++ ['"'])) cs
  | atom {p : Position} {word cs : List Char} :
      word ≠ [] → (∀ c ∈ word, IsWordChar c) → (∀ c, cs.head? = some c → ¬ IsWordChar c) →
      FirstToken p (word ++ cs) ⟨.atom (String.ofList word), ⟨p, p.afterAll word⟩⟩
        (p.afterAll word) cs

theorem FirstToken.not_skipped {t : Token} (h : FirstToken p cs t q rest) :
    ∀ c, cs.head? = some c → c ∉ blanks ∧ c ≠ ';' := by
  intro c hc
  cases h with
  | bracket hmem =>
      obtain rfl := Option.some.inj hc
      simp only [brackets, List.mem_cons, Prod.mk.injEq, List.not_mem_nil, or_false] at hmem
      rcases hmem with ⟨rfl, -⟩ | ⟨rfl, -⟩ | ⟨rfl, -⟩ | ⟨rfl, -⟩ <;> decide
  | string _ =>
      obtain rfl := Option.some.inj hc
      decide
  | atom hne hw _ =>
      obtain ⟨d, word, rfl⟩ := List.exists_cons_of_ne_nil hne
      obtain rfl := Option.some.inj hc
      obtain ⟨hblank, hother⟩ := hw _ List.mem_cons_self
      exact ⟨hblank, fun heq => hother (by simp [heq])⟩

theorem FirstToken.exists_skip {q' : Position} {t : Token} (h : FirstToken p cs t q' tail)
    (hscans : Scans q' tail ts q rest) :
    ∃ w mid q' tail, Derives .skip p cs (.ok [] w mid) ∧ FirstToken (p.afterAll w) mid t q' tail ∧
      Scans q' tail ts q rest :=
  ⟨[], cs, q', tail, skip_nothing h.not_skipped, h, hscans⟩

/-- Up to its first token everything is skipped. -/
theorem exists_firstToken {t : Token} (h : Scans p cs (t :: ts) q rest) :
    ∃ w mid q' tail, Derives .skip p cs (.ok [] w mid) ∧ FirstToken (p.afterAll w) mid t q' tail ∧
      Scans q' tail ts q rest := by
  generalize hus : t :: ts = us at h
  induction h with
  | done => cases hus
  | blank hc _ ih =>
      obtain ⟨w, mid, q', tail, hskip, hfirst, hscans⟩ := ih hus
      exact ⟨_ :: w, mid, q', tail, skip_blank hc hskip, hfirst, hscans⟩
  | @comment p q body cs rest ts hbody hend _ ih =>
      obtain ⟨w, mid, q', tail, hskip, hfirst, hscans⟩ := ih hus
      refine ⟨';' :: body ++ w, mid, q', tail, skip_comment hbody hend hskip, ?_, hscans⟩
      rwa [Position.afterAll_append]
  | bracket hc hscans _ =>
      cases hus
      exact FirstToken.exists_skip (.bracket hc) hscans
  | string hq hscans _ =>
      cases hus
      exact FirstToken.exists_skip (.string hq) hscans
  | atom hne hw hend hscans _ =>
      cases hus
      exact FirstToken.exists_skip (.atom hne hw hend) hscans

/-- Forms with blanks and comments in front of each of them and behind the last one. -/
def Forms (p : Position) (cs : List Char) (ps : List Pair) (w rest : List Char) : Prop :=
  ∃ u mid v, Derives (.many (.seq .skip (.rule .form))) p cs (.ok ps u mid) ∧
    Derives .skip (p.afterAll u) mid (.ok [] v rest) ∧ w = u ++ v

theorem Forms.cons {u : List Char} (hskip : Derives .skip p cs (.ok [] u mid))
    (hform : Derives (.rule .form) (p.afterAll u) mid (.ok ps w tail))
    (hforms : Forms ((p.afterAll u).afterAll w) tail qs v rest) :
    Forms p cs (ps ++ qs) (u ++ w ++ v) rest := by
  obtain ⟨x, mid', y, hmany, hlast, rfl⟩ := hforms
  rw [← Position.afterAll_append p u w] at hmany hlast
  refine ⟨u ++ w ++ x, mid', y, .many (.seq hskip hform) hmany, ?_, by simp⟩
  rwa [Position.afterAll_append p (u ++ w) x]

/-- Where a rule asks for forms they stand between blanks and comments. -/
theorem Forms.exists_parts (h : Forms p cs ps w rest) (hends : Ends (p.afterAll w) rest) :
    ∃ u mid x mid' y, Derives .skip p cs (.ok [] u mid) ∧
      Derives (.spacedMany (.rule .form)) (p.afterAll u) mid (.ok ps x mid') ∧
      Derives .skip ((p.afterAll u).afterAll x) mid' (.ok [] y rest) ∧ w = u ++ (x ++ y) := by
  obtain ⟨u, mid, v, hmany, hskip, rfl⟩ := h
  cases hmany with
  | many_done _ =>
      have hnone := Derives.optional_none (.seq_fail_left (b := .many (.seq .skip (.rule .form)))
        hends.no_form)
      exact ⟨v, rest, [], rest, [], hskip, hnone, skip_nothing hends.not_skipped, by simp⟩
  | @many _ _ _ next _ _ z _ _ hstep hmany =>
      obtain ⟨_, y, mid', _, x, hfirst, hform, rfl, rfl⟩ := derives_seq_iff.mp hstep
      obtain ⟨rfl, -⟩ := scans_of_skip hfirst
      rw [Position.afterAll_append] at hmany
      have hforms := Derives.optional (.seq hform hmany)
      refine ⟨y, mid', x ++ z, mid, v, hfirst, hforms, ?_, by simp⟩
      rw [List.append_assoc, Position.afterAll_append] at hskip
      exact hskip

theorem Forms.derives (h : Forms p cs ps w mid) (hends : Ends (p.afterAll w) mid)
    (he : Derives e (p.afterAll w) mid (.ok qs v rest)) :
    Derives (.seq .skip (.spaced (.spacedMany (.rule .form)) e)) p cs
      (.ok (ps ++ qs) (w ++ v) rest) := by
  obtain ⟨u, m, x, m', y, hfirst, hforms, hlast, rfl⟩ := h.exists_parts hends
  rw [Position.afterAll_append, Position.afterAll_append] at he
  have hall := Derives.seq hfirst (.seq hforms (.seq hlast he))
  simp only [List.append_assoc, List.nil_append] at hall ⊢
  exact hall

theorem afterAll_group : p.afterAll (opener b :: (w ++ [closer b])) =
    ((p.after (opener b)).afterAll w).after (closer b) :=
  Position.afterAll_append (p.after (opener b)) w [closer b]

theorem group_of_forms (h : Forms (p.after (opener b)) cs ps w (closer b :: rest)) :
    Derives (.rule (groupRule b)) p (opener b :: cs)
      (.ok [.mk (groupRule b) ⟨p, ((p.after (opener b)).afterAll w).after (closer b)⟩
        (opener b :: (w ++ [closer b])) ps] (opener b :: (w ++ [closer b])) rest) := by
  have hopen : Derives (.text [opener b]) p (opener b :: cs) (.ok [] [opener b] cs) := .text rfl
  have hclose : Derives (.text [closer b]) ((p.after (opener b)).afterAll w) (closer b :: rest)
      (.ok [] [closer b] rest) := .text rfl
  refine (derives_rule_iff (by cases b <;> rfl)).mpr ⟨ps, ?_, ?_⟩
  · rw [groupRule_body]
    have hbody := Derives.seq hopen (h.derives ((stops_closer b rest).ends _) hclose)
    rw [List.append_nil] at hbody
    exact hbody
  · have hatomic : (groupRule b).isAtomic = false := by cases b <;> rfl
    rw [hatomic, afterAll_group]
    rfl

/-- **The tokens of data are matched as forms**, whose pairs stand for the data. -/
theorem forms_of_groups (h : Groups ts ds) : ∀ {p cs q rest}, Scans p cs ts q rest → Ends q rest →
    ∃ ps w, Forms p cs ps w rest ∧ q = p.afterAll w ∧ Stands ps ds := by
  induction h with
  | nil =>
      intro p cs q rest hscans hends
      obtain ⟨w, rfl, rfl, hskip⟩ := skip_of_scans hscans hends.not_skipped
      exact ⟨[], w, ⟨[], _, w, .many_done (.seq_fail_right hskip hends.no_form), hskip, rfl⟩, rfl,
        .nil⟩
  | string _ ih =>
      intro p cs q rest hscans hends
      obtain ⟨u, mid, q', tail, hskip, hfirst, hscans'⟩ := exists_firstToken hscans
      cases hfirst with
      | bracket hmem => simp [brackets] at hmem
      | string hquoted =>
          obtain ⟨ps, w, hforms, rfl, hstands⟩ := ih hscans' hends
          refine ⟨_, _, Forms.cons hskip (form_of_string hquoted) hforms, ?_,
            .string hquoted hstands⟩
          simp only [Position.afterAll_append]
  | atom _ ih =>
      intro p cs q rest hscans hends
      obtain ⟨u, mid, q', tail, hskip, hfirst, hscans'⟩ := exists_firstToken hscans
      cases hfirst with
      | bracket hmem => simp [brackets] at hmem
      | @atom word _ hne hw hend =>
          obtain ⟨r, hr⟩ := exists_atomRule word
          obtain ⟨ps, w, hforms, rfl, hstands⟩ := ih hscans' hends
          refine ⟨_, _, Forms.cons hskip (form_of_atom hr hne hw hend) hforms, ?_,
            .atom hr hstands⟩
          simp only [Position.afterAll_append]
  | @group b e e' us ts items ds _ _ ihinner ih =>
      intro p cs q rest hscans hends
      obtain ⟨u, mid, q', tail, hskip, hfirst, hscans⟩ := exists_firstToken hscans
      cases hfirst with
      | bracket hopen =>
          obtain rfl := mem_brackets_opening.mp hopen
          obtain ⟨q', mid, hus, hrest⟩ := hscans.exists_of_append
          obtain ⟨v, mid', q'', tail', hskip', hfirst', hts⟩ := exists_firstToken hrest
          cases hfirst' with
          | bracket hclose =>
              obtain rfl := mem_brackets_closing.mp hclose
              -- blanks and comments before the closing bracket belong to what is inside
              have hinside := hus.append (scans_of_skip hskip').2
              rw [List.append_nil] at hinside
              have hclosed := (stops_closer b tail').ends
              obtain ⟨inner, x, hinner, hpos, hstands⟩ := ihinner hinside (hclosed _)
              obtain ⟨ps, w, hforms, rfl, hstands'⟩ := ih hts hends
              rw [hpos, ← afterAll_group] at hforms ⊢
              have hgroup := form_of_group (group_of_forms hinner)
              rw [← afterAll_group] at hgroup
              refine ⟨_, _, Forms.cons hskip hgroup hforms, ?_, .group hstands hstands'⟩
              simp only [Position.afterAll_append]

/-! ### Outcomes of forms -/

theorem form_ne_nil (h : Derives (.rule .form) p cs (.ok ps w rest)) : w ≠ [] := by
  have hgroup : ∀ {b}, Derives (.rule (groupRule b)) p cs (.ok ps w rest) → w ≠ [] := by
    intro b h
    obtain ⟨inner, hbody, -⟩ := (derives_rule_iff (by cases b <;> rfl)).mp h
    rw [groupRule_body] at hbody
    obtain ⟨_, _, _, _, _, hopen, -, -, rfl⟩ := derives_seq_iff.mp hbody
    obtain ⟨-, rfl, -⟩ := derives_text_iff.mp hopen
    simp
  have hbody := (derives_silent_iff rfl).mp h
  rcases derives_choice_iff.mp hbody with hround | ⟨-, hbody⟩
  · exact hgroup (b := .round) hround
  rcases derives_choice_iff.mp hbody with hsquare | ⟨-, hbody⟩
  · exact hgroup (b := .square) hsquare
  rcases derives_choice_iff.mp hbody with hstring | ⟨-, hatom⟩
  · obtain ⟨raw, value, -, rfl, -⟩ := derives_string_iff.mp hstring
    simp
  · exact (derives_atom_iff.mp hatom).1

theorem TotalBelow.forms {n : ℕ} (hform : TotalBelow n (.rule .form)) (he : TotalBelow n e) :
    TotalBelow n (.seq .skip (.spaced (.spacedMany (.rule .form)) e)) := by
  have hmany : TotalBelow n (.many (.seq .skip (.rule .form))) := by
    refine .many (.seq totalBelow_skip hform) fun hd => ?_
    obtain ⟨_, _, _, _, _, -, hone, -, rfl⟩ := derives_seq_iff.mp hd
    simp [form_ne_nil hone]
  have hforms : TotalBelow n (.spacedMany (.rule .form)) := .optional (.seq hform hmany)
  exact .seq totalBelow_skip (.seq hforms (.seq totalBelow_skip he))

theorem TotalBelow.group {n : ℕ} (hform : TotalBelow n (.rule .form)) :
    TotalBelow (n + 1) (.rule (groupRule b)) := by
  apply TotalBelow.rule
  rw [groupRule_body]
  exact .text_seq (hform.forms (totalBelow_text _))

/-- **On every text a form is matched or refused.** -/
theorem totalBelow_form {n : ℕ} : TotalBelow n (.rule .form) := by
  induction n with
  | zero => exact fun _ _ hlen => absurd hlen (Nat.not_lt_zero _)
  | succ n ih =>
      have hround : TotalBelow (n + 1) (.rule .expression) := ih.group (b := .round)
      have hsquare : TotalBelow (n + 1) (.rule .list) := ih.group (b := .square)
      exact .rule (.choice hround (.choice hsquare (.choice totalBelow_string totalBelow_atom)))

end Peg
end FormLower
