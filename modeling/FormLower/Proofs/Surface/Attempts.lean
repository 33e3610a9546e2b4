import FormLower.Proofs.Surface.Nesting
import FormLower.Proofs.Surface.PegReading

/-! # Syntax errors

Where a text is refused, what was wanted is told by the rules that were tried and failed the
furthest (`Peg.Tried`).  Blanks, comments and what is inside a word count for nothing, and a rule
that fails stands for everything that failed where it began.

Inside data that are complete nothing is tried as far as their end.  Where they end without a
bracket to close them, every form is tried; and the end of the text is, if no bracket is open.  So
the furthest position is the one of the first token that cannot go on (`Script.read_blocked`). -/

namespace FormLower

open Grammar

namespace Peg

/-- While an expression is tried, a rule is tried at a position and fails.  What an expression asks
not to be there is made of characters alone. -/
inductive Tried : Expr → Position → List Char → Rule → Position → Prop
  | seq_left {a b : Expr} {p q : Position} {cs : List Char} {r : Rule} :
      Tried a p cs r q → Tried (.seq a b) p cs r q
  | seq_right {a b : Expr} {p q : Position} {cs mid w : List Char} {ps : List Pair} {r : Rule} :
      Derives a p cs (.ok ps w mid) → Tried b (p.afterAll w) mid r q → Tried (.seq a b) p cs r q
  | choice_left {a b : Expr} {p q : Position} {cs : List Char} {r : Rule} :
      Tried a p cs r q → Tried (.choice a b) p cs r q
  | choice_right {a b : Expr} {p q : Position} {cs : List Char} {r : Rule} :
      Derives a p cs .fail → Tried b p cs r q → Tried (.choice a b) p cs r q
  | optional {a : Expr} {p q : Position} {cs : List Char} {r : Rule} :
      Tried a p cs r q → Tried (.optional a) p cs r q
  | many {a : Expr} {p q : Position} {cs : List Char} {r : Rule} :
      Tried a p cs r q → Tried (.many a) p cs r q
  | many_later {a : Expr} {p q : Position} {cs mid w : List Char} {ps : List Pair} {r : Rule} :
      Derives a p cs (.ok ps w mid) → Tried (.many a) (p.afterAll w) mid r q →
      Tried (.many a) p cs r q
  | silent {r r' : Rule} {p q : Position} {cs : List Char} :
      r.isSilent = true → Tried r.body p cs r' q → Tried (.rule r) p cs r' q
  | failed {r : Rule} {p : Position} {cs : List Char} :
      r.isSilent = false → Derives (.rule r) p cs .fail → Tried (.rule r) p cs r p
  | inside {r r' : Rule} {p q : Position} {cs : List Char} :
      r.isSilent = false → r.isAtomic = false → (q = p → ¬ Derives (.rule r) p cs .fail) →
      Tried r.body p cs r' q → Tried (.rule r) p cs r' q

variable {e a b : Expr} {p q q' : Position} {cs mid rest w : List Char} {ps qs : List Pair}
variable {r r' : Rule} {ts : List Token} {ds : List Datum}

theorem Tried.le (h : Tried e p cs r q) : p ≤ q := by
  induction h with
  | failed _ _ => exact Position.le_refl _
  | seq_right _ _ ih => exact Position.le_trans (Position.le_afterAll _ _) ih
  | many_later _ _ ih => exact Position.le_trans (Position.le_afterAll _ _) ih
  | _ => assumption

/-! ### Compound expressions -/

theorem not_tried_text {s : List Char} : ¬ Tried (.text s) p cs r q := by
  intro h
  cases h

theorem not_tried_one {P : Char → Bool} : ¬ Tried (.one P) p cs r q := by
  intro h
  cases h

theorem tried_seq_iff : Tried (.seq a b) p cs r q ↔ Tried a p cs r q ∨
    ∃ ps w mid, Derives a p cs (.ok ps w mid) ∧ Tried b (p.afterAll w) mid r q := by
  constructor
  · intro h
    cases h with
    | seq_left ha => exact .inl ha
    | seq_right ha hb => exact .inr ⟨_, _, _, ha, hb⟩
  · intro h
    rcases h with ha | ⟨_, _, _, ha, hb⟩
    · exact .seq_left ha
    · exact .seq_right ha hb

/-- Behind a match that tries nothing, what follows is tried. -/
theorem tried_seq_of_ok (ha : Derives a p cs (.ok ps w mid)) (hquiet : ¬ Tried a p cs r q) :
    Tried (.seq a b) p cs r q ↔ Tried b (p.afterAll w) mid r q := by
  rw [tried_seq_iff]
  constructor
  · intro h
    rcases h with htried | ⟨_, _, _, ha', hb⟩
    · exact absurd htried hquiet
    · cases ha.unique ha'
      exact hb
  · exact fun hb => .inr ⟨_, _, _, ha, hb⟩

theorem tried_choice_iff : Tried (.choice a b) p cs r q ↔
    Tried a p cs r q ∨ Derives a p cs .fail ∧ Tried b p cs r q := by
  constructor
  · intro h
    cases h with
    | choice_left ha => exact .inl ha
    | choice_right ha hb => exact .inr ⟨ha, hb⟩
  · intro h
    rcases h with ha | ⟨ha, hb⟩
    · exact .choice_left ha
    · exact .choice_right ha hb

theorem tried_silent_iff (hr : r.isSilent = true) :
    Tried (.rule r) p cs r' q ↔ Tried r.body p cs r' q := by
  constructor
  · intro h
    cases h with
    | silent _ h => exact h
    | failed hr' _ => rw [hr] at hr'; cases hr'
    | inside hr' _ _ _ => rw [hr] at hr'; cases hr'
  · exact .silent hr

theorem not_tried_many (h : ∀ p cs, ¬ Tried a p cs r q) : ¬ Tried (.many a) p cs r q := by
  intro hmany
  generalize he : Expr.many a = e at hmany
  induction hmany with
  | many ha _ =>
      cases he
      exact h _ _ ha
  | many_later _ _ ih => exact ih h he
  | _ => cases he

theorem not_tried_skip : ¬ Tried .skip p cs r q := by
  have hblank : ∀ p cs, ¬ Tried (.rule .whitespace) p cs r q := by
    intro p cs
    rw [tried_silent_iff rfl]
    exact not_tried_one
  have hcomment : ∀ p cs, ¬ Tried (.rule .comment) p cs r q := by
    intro p cs
    have hchar : ∀ p cs, ¬ Tried (.seq (.without (.text ['\n'])) .any) p cs r q := by
      intro p cs h
      rcases tried_seq_iff.mp h with hnone | ⟨_, _, _, _, hany⟩
      · cases hnone
      · exact not_tried_one hany
    rw [tried_silent_iff rfl]
    intro h
    rcases tried_seq_iff.mp h with htext | ⟨_, _, _, _, hbody⟩
    · exact not_tried_text htext
    · exact not_tried_many hchar hbody
  have hblanks : ∀ p cs, ¬ Tried (.many (.rule .whitespace)) p cs r q :=
    fun p cs => not_tried_many hblank
  intro h
  rcases tried_seq_iff.mp h with hfirst | ⟨_, _, _, _, hlater⟩
  · exact hblanks _ _ hfirst
  · refine not_tried_many (fun p cs hstep => ?_) hlater
    rcases tried_seq_iff.mp hstep with hbody | ⟨_, _, _, _, hafter⟩
    · exact hcomment _ _ hbody
    · exact hblanks _ _ hafter

/-! ### Forms -/

/-- The rules of forms. -/
def formRules : List Rule := [.expression, .list, .string, .boolean, .number, .symbol]

/-- Nothing inside a string is told apart from it. -/
theorem not_tried_string_body : ¬ Tried Rule.string.body p cs r q := by
  intro h
  rcases tried_seq_iff.mp h with htext | ⟨_, _, _, _, hafter⟩
  · exact not_tried_text htext
  rcases tried_seq_iff.mp hafter with hinner | ⟨_, _, _, _, hquote⟩
  · cases hinner with
    | silent hr _ => cases hr
    | failed _ hfail =>
        cases hfail with
        | silent hr _ => cases hr
        | rule_fail _ hbody => cases hbody
    | inside _ hatomic _ _ => cases hatomic
  · exact not_tried_text hquote

/-- Inside a group only what stands behind the opening bracket is tried. -/
theorem tried_group_body {b : Bracket} (h : Tried (groupRule b).body p cs r q) :
    ∃ tail, cs = opener b :: tail ∧
      Tried (.seq .skip (.spaced (.spacedMany (.rule .form)) (.text [closer b])))
        (p.after (opener b)) tail r q := by
  rw [groupRule_body] at h
  rcases tried_seq_iff.mp h with htext | ⟨_, _, tail, hopen, hforms⟩
  · exact absurd htext not_tried_text
  · obtain ⟨-, rfl, rfl⟩ := derives_text_iff.mp hopen
    exact ⟨tail, rfl, hforms⟩

/-- A rule is tried where it begins, if it fails, or inside it. -/
theorem tried_rule_cases (hr : r.isSilent = false) (h : Tried (.rule r) p cs r' q) :
    q = p ∧ r' = r ∧ Derives (.rule r) p cs .fail ∨
      r.isAtomic = false ∧ Tried r.body p cs r' q ∧
        (q = p → ¬ Derives (.rule r) p cs .fail) := by
  cases h with
  | silent hr' _ => rw [hr] at hr'; cases hr'
  | failed _ hfail => exact .inl ⟨rfl, rfl, hfail⟩
  | inside _ hatomic hhidden h => exact .inr ⟨hatomic, h, hhidden⟩

/-- While a form is tried, the rules of forms fail where it begins, or something is tried inside a
group. -/
theorem tried_form_cases (h : Tried (.rule .form) p cs r q) :
    q = p ∧ r ∈ formRules ∨ ∃ b, Tried (groupRule b).body p cs r q := by
  rw [tried_silent_iff rfl] at h
  have hatomic : ∀ {r'}, r' ∈ formRules → r'.isSilent = false → r'.isAtomic = true →
      Tried (.rule r') p cs r q → q = p ∧ r ∈ formRules := by
    intro r' hmem hsilent hatomic h
    rcases tried_rule_cases hsilent h with ⟨rfl, rfl, -⟩ | ⟨hno, -, -⟩
    · exact ⟨rfl, hmem⟩
    · rw [hatomic] at hno
      cases hno
  have hgroup : ∀ {b}, Tried (.rule (groupRule b)) p cs r q →
      q = p ∧ r ∈ formRules ∨ ∃ b, Tried (groupRule b).body p cs r q := by
    intro b h
    rcases tried_rule_cases (by cases b <;> rfl) h with ⟨rfl, rfl, -⟩ | ⟨-, hbody, -⟩
    · refine .inl ⟨rfl, ?_⟩
      cases b <;> decide
    · exact .inr ⟨b, hbody⟩
  rcases tried_choice_iff.mp h with hround | ⟨-, h⟩
  · exact hgroup (b := .round) hround
  rcases tried_choice_iff.mp h with hsquare | ⟨-, h⟩
  · exact hgroup (b := .square) hsquare
  rcases tried_choice_iff.mp h with hstring | ⟨-, h⟩
  · rcases tried_rule_cases rfl hstring with ⟨rfl, rfl, -⟩ | ⟨-, hbody, -⟩
    · exact .inl ⟨rfl, by decide⟩
    · exact absurd hbody not_tried_string_body
  rcases tried_choice_iff.mp h with hboolean | ⟨-, h⟩
  · exact .inl (hatomic (by decide) rfl rfl hboolean)
  rcases tried_choice_iff.mp h with hnumber | ⟨-, hsymbol⟩
  · exact .inl (hatomic (by decide) rfl rfl hnumber)
  · exact .inl (hatomic (by decide) rfl rfl hsymbol)

theorem choice_fail (h : Derives (.choice a b) p cs .fail) :
    Derives a p cs .fail ∧ Derives b p cs .fail := by
  cases h with
  | choice_right ha hb => exact ⟨ha, hb⟩

/-- Where a form is refused every rule of forms has failed. -/
theorem tried_form_of_fail (h : Derives (.rule .form) p cs .fail) (hr : r ∈ formRules) :
    Tried (.rule .form) p cs r p := by
  obtain ⟨hround, h⟩ := choice_fail ((derives_silent_iff rfl).mp h)
  obtain ⟨hsquare, h⟩ := choice_fail h
  obtain ⟨hstring, h⟩ := choice_fail h
  obtain ⟨hboolean, h⟩ := choice_fail h
  obtain ⟨hnumber, hsymbol⟩ := choice_fail h
  apply Tried.silent rfl
  simp only [formRules, List.mem_cons, List.not_mem_nil, or_false] at hr
  rcases hr with rfl | rfl | rfl | rfl | rfl | rfl
  · exact .choice_left (.failed rfl hround)
  · exact .choice_right hround (.choice_left (.failed rfl hsquare))
  · exact .choice_right hround (.choice_right hsquare (.choice_left (.failed rfl hstring)))
  · exact .choice_right hround (.choice_right hsquare (.choice_right hstring
      (.choice_left (.failed rfl hboolean))))
  · exact .choice_right hround (.choice_right hsquare (.choice_right hstring
      (.choice_right hboolean (.choice_left (.failed rfl hnumber)))))
  · exact .choice_right hround (.choice_right hsquare (.choice_right hstring
      (.choice_right hboolean (.choice_right hnumber (.failed rfl hsymbol)))))

/-- What is tried inside a group behind its opening bracket counts while a form is tried. -/
theorem tried_form_of_inside {b : Bracket} {tail : List Char} (hq : p < q)
    (h : Tried (.seq .skip (.spaced (.spacedMany (.rule .form)) (.text [closer b])))
      (p.after (opener b)) tail r q) :
    Tried (.rule .form) p (opener b :: tail) r q := by
  have hopen : Derives (.text [opener b]) p (opener b :: tail) (.ok [] [opener b] tail) := .text rfl
  have hbody : Tried (groupRule b).body p (opener b :: tail) r q := by
    rw [groupRule_body]
    exact .seq_right hopen h
  have hrule : Tried (.rule (groupRule b)) p (opener b :: tail) r q := by
    refine .inside (by cases b <;> rfl) (by cases b <;> rfl) ?_ hbody
    intro heq
    rw [heq] at hq
    exact absurd hq (Position.lt_irrefl p)
  apply Tried.silent rfl
  cases b with
  | round => exact .choice_left hrule
  | square =>
      refine .choice_right (group_fail (b := .round) ?_) (.choice_left hrule)
      intro c hc
      obtain rfl := Option.some.inj hc
      decide

/-- Behind blanks and comments, forms are tried as they are where a rule asks for them. -/
theorem tried_spacedMany_iff {u : List Char} (hskip : Derives .skip p cs (.ok [] u mid)) :
    Tried (.spacedMany (.rule .form)) (p.afterAll u) mid r q ↔
      Tried (.many (.seq .skip (.rule .form))) p cs r q := by
  constructor
  · intro h
    cases h with
    | optional h =>
        rcases tried_seq_iff.mp h with hform | ⟨_, w, _, hform, hlater⟩
        · exact .many (.seq_right hskip hform)
        · rw [← Position.afterAll_append] at hlater
          exact .many_later (.seq hskip hform) hlater
  · intro h
    cases h with
    | many h =>
        exact .optional (.seq_left ((tried_seq_of_ok hskip not_tried_skip).mp h))
    | many_later hstep hlater =>
        obtain ⟨_, _, _, _, w, hskip', hform, -, rfl⟩ := derives_seq_iff.mp hstep
        cases hskip.unique hskip'
        rw [Position.afterAll_append] at hlater
        exact .optional (.seq_right hform hlater)

/-- Where a rule asks for forms, they are tried and then what the rule goes on with. -/
theorem Forms.tried_iff (h : Forms p cs ps w rest) (hends : Ends (p.afterAll w) rest) :
    Tried (.seq .skip (.spaced (.spacedMany (.rule .form)) e)) p cs r q ↔
      Tried (.many (.seq .skip (.rule .form))) p cs r q ∨ Tried e (p.afterAll w) rest r q := by
  obtain ⟨u, mid, x, mid', y, hfirst, hforms, hlast, rfl⟩ := h.exists_parts hends
  rw [tried_seq_of_ok hfirst not_tried_skip, ← tried_spacedMany_iff hfirst, Expr.spaced,
    tried_seq_iff]
  have hafter : Tried (.seq .skip e) ((p.afterAll u).afterAll x) mid' r q ↔
      Tried e (p.afterAll (u ++ (x ++ y))) rest r q := by
    rw [tried_seq_of_ok hlast not_tried_skip, Position.afterAll_append, Position.afterAll_append]
  rw [← hafter]
  constructor
  · intro h
    rcases h with h | ⟨_, _, _, hforms', h⟩
    · exact .inl h
    · cases hforms.unique hforms'
      exact .inr h
  · intro h
    rcases h with h | h
    · exact .inl h
    · exact .inr ⟨_, _, _, hforms, h⟩

theorem Forms.fails (h : Forms p cs ps w rest) (hends : Ends (p.afterAll w) rest)
    (he : Derives e (p.afterAll w) rest .fail) :
    Derives (.seq .skip (.spaced (.spacedMany (.rule .form)) e)) p cs .fail := by
  obtain ⟨u, mid, x, mid', y, hfirst, hforms, hlast, rfl⟩ := h.exists_parts hends
  rw [Position.afterAll_append, Position.afterAll_append] at he
  exact .seq_fail_right hfirst (.seq_fail_right hforms (.seq_fail_right hlast he))

/-! ### Data that are complete -/

theorem not_opener_of_word (hne : w ≠ []) (hw : ∀ c ∈ w, IsWordChar c) (b : Bracket)
    (tail : List Char) : w ++ rest ≠ opener b :: tail := by
  obtain ⟨c, w, rfl⟩ := List.exists_cons_of_ne_nil hne
  intro heq
  obtain ⟨rfl, -⟩ := List.cons.inj heq
  refine absurd (hw _ List.mem_cons_self) ?_
  cases b <;> decide

/-- Where no bracket opens a group, the rules of forms fail where they begin. -/
theorem tried_form_here (hopen : ∀ b tail, cs ≠ opener b :: tail)
    (h : Tried (.rule .form) p cs r q) : q = p ∧ r ∈ formRules := by
  rcases tried_form_cases h with hhere | ⟨b, hbody⟩
  · exact hhere
  · obtain ⟨tail, hcs, -⟩ := tried_group_body hbody
    exact absurd hcs (hopen b tail)

theorem tried_many_cons {u tail : List Char} (hskip : Derives .skip p cs (.ok [] u mid))
    (hform : Derives (.rule .form) (p.afterAll u) mid (.ok ps w tail))
    (h : Tried (.many (.seq .skip (.rule .form))) p cs r q) :
    Tried (.rule .form) (p.afterAll u) mid r q ∨
      Tried (.many (.seq .skip (.rule .form))) ((p.afterAll u).afterAll w) tail r q := by
  cases h with
  | many h => exact .inl ((tried_seq_of_ok hskip not_tried_skip).mp h)
  | many_later hstep hlater =>
      cases hstep.unique (.seq hskip hform)
      rw [Position.afterAll_append] at hlater
      exact .inr hlater

/-- Where forms end, a form is tried in vain. -/
theorem Forms.tried_end (h : Forms p cs ps w rest)
    (hform : Tried (.rule .form) (p.afterAll w) rest r q) :
    Tried (.many (.seq .skip (.rule .form))) p cs r q := by
  obtain ⟨u, mid, v, hmany, hskip, rfl⟩ := h
  rw [Position.afterAll_append] at hform
  refine hmany.many_induction (motive := fun p cs _ u mid =>
    Derives .skip (p.afterAll u) mid (.ok [] v rest) →
      Tried (.rule .form) ((p.afterAll u).afterAll v) rest r q →
      Tried (.many (.seq .skip (.rule .form))) p cs r q) ?_ ?_ hskip hform
  · intro p cs _ hskip hform
    exact .many (.seq_right hskip hform)
  · intro p cs ps x mid qs y rest hstep ih hskip hform
    rw [Position.afterAll_append] at hskip hform
    exact .many_later hstep (ih hskip hform)

theorem opener_injective {b b' : Bracket} (h : opener b = opener b') : b = b' := by
  cases b <;> cases b' <;> first | rfl | exact absurd h (by decide)

theorem closer_ne_opener (b b' : Bracket) : closer b ≠ opener b' := by
  cases b <;> cases b' <;> decide

/-- While a group is matched nothing is tried behind the position of its closing bracket, if that is
so for the forms inside. -/
theorem Forms.tried_group {b : Bracket}
    (h : Forms (p.after (opener b)) cs ps w (closer b :: rest))
    (hinside : Tried (.many (.seq .skip (.rule .form))) (p.after (opener b)) cs r q →
      q < (p.after (opener b)).afterAll w ∨
        Tried (.rule .form) ((p.after (opener b)).afterAll w) (closer b :: rest) r q)
    (htried : Tried (.rule .form) p (opener b :: cs) r q) :
    q ≤ (p.after (opener b)).afterAll w := by
  rcases tried_form_cases htried with ⟨rfl, -⟩ | ⟨b', hbody⟩
  · exact Position.le_trans (Position.le_of_lt (Position.lt_after _ _)) (Position.le_afterAll _ _)
  · obtain ⟨_, hcs, hbehind⟩ := tried_group_body hbody
    obtain ⟨hb, rfl⟩ := List.cons.inj hcs
    obtain rfl := opener_injective hb
    rcases (h.tried_iff ((stops_closer b rest).ends _)).mp hbehind with hmany | htext
    · rcases hinside hmany with hlt | hend
      · exact Position.le_of_lt hlt
      · have hno : ∀ b' tail, closer b :: rest ≠ opener b' :: tail :=
          fun b' _ heq => closer_ne_opener b b' (List.cons.inj heq).1
        obtain ⟨rfl, -⟩ := tried_form_here hno hend
        exact Position.le_refl _
    · exact absurd htext not_tried_text

/-- **While the forms of data are tried** nothing is tried as far as their end, but the form that is
not there. -/
theorem tried_of_groups (h : Groups ts ds) : ∀ {p cs q rest}, Scans p cs ts q rest → Ends q rest →
    ∀ {r q'}, Tried (.many (.seq .skip (.rule .form))) p cs r q' →
      q' < q ∨ Tried (.rule .form) q rest r q' := by
  induction h with
  | nil =>
      intro p cs q rest hscans hends r q' htried
      obtain ⟨w, rfl, rfl, hskip⟩ := skip_of_scans hscans hends.not_skipped
      cases htried with
      | many h => exact .inr ((tried_seq_of_ok hskip not_tried_skip).mp h)
      | many_later hstep _ => cases hstep.unique (.seq_fail_right hskip hends.no_form)
  | string _ ih =>
      intro p cs q rest hscans hends r q' htried
      obtain ⟨u, mid, _, tail, hskip, hfirst, hscans'⟩ := exists_firstToken hscans
      cases hfirst with
      | bracket hmem => simp [brackets] at hmem
      | @string raw _ _ hquoted =>
          rcases tried_many_cons hskip (form_of_string hquoted) htried with hform | hlater
          · obtain ⟨rfl, -⟩ := tried_form_here (fun b _ heq => by cases b <;> cases heq) hform
            have hne : '"' :: raw ++ ['"'] ≠ [] := List.cons_ne_nil _ _
            exact .inl (Position.lt_of_lt_of_le (Position.lt_afterAll _ hne) hscans'.le)
          · exact ih hscans' hends hlater
  | atom _ ih =>
      intro p cs q rest hscans hends r q' htried
      obtain ⟨u, mid, _, tail, hskip, hfirst, hscans'⟩ := exists_firstToken hscans
      cases hfirst with
      | bracket hmem => simp [brackets] at hmem
      | @atom word _ hne hw hend =>
          obtain ⟨r', hr'⟩ := exists_atomRule word
          rcases tried_many_cons hskip (form_of_atom hr' hne hw hend) htried with hform | hlater
          · obtain ⟨rfl, -⟩ := tried_form_here (not_opener_of_word hne hw) hform
            exact .inl (Position.lt_of_lt_of_le (Position.lt_afterAll _ hne) hscans'.le)
          · exact ih hscans' hends hlater
  | @group b e e' us ts items ds hinner _ ihinner ih =>
      intro p cs q rest hscans hends r q' htried
      obtain ⟨u, mid, _, tail, hskip, hfirst, hscans⟩ := exists_firstToken hscans
      cases hfirst with
      | bracket hopen =>
          obtain rfl := mem_brackets_opening.mp hopen
          obtain ⟨_, mid, hus, hrest⟩ := hscans.exists_of_append
          obtain ⟨v, mid', _, tail', hskip', hfirst', hts⟩ := exists_firstToken hrest
          cases hfirst' with
          | bracket hclose =>
              obtain rfl := mem_brackets_closing.mp hclose
              have hinside := hus.append (scans_of_skip hskip').2
              rw [List.append_nil] at hinside
              have hstop := (stops_closer b tail').ends
              obtain ⟨inner, x, hforms, hpos, -⟩ := forms_of_groups hinner hinside (hstop _)
              rw [hpos] at hts hinside
              have hgroup := form_of_group (group_of_forms hforms)
              rcases tried_many_cons hskip hgroup htried with hform | hlater
              · have hle := hforms.tried_group (ihinner hinside (hstop _)) hform
                have hlt := Position.lt_of_le_of_lt hle (Position.lt_after _ (closer b))
                exact .inl (Position.lt_of_lt_of_le hlt hts.le)
              · rw [afterAll_group] at hlater
                exact ih hts hends hlater

/-! ### Brackets that stay open -/

/-- An expression fails, and of the rules that are tried and fail the furthest ones stand at one
position. -/
structure FailsAt (e : Expr) (p : Position) (cs : List Char) (q : Position) (rs : Rule → Prop) :
    Prop where
  fails : Derives e p cs .fail
  le : ∀ {r q'}, Tried e p cs r q' → q' ≤ q
  here : ∀ {r}, Tried e p cs r q ↔ rs r

/-- An expression that may follow forms: no bracket opens there, and it is tried where it begins. -/
structure Follows (e : Expr) : Prop where
  opener : ∀ b p cs, Derives e p (opener b :: cs) .fail
  here : ∀ {p cs r q}, Tried e p cs r q → q = p

theorem follows_closer (b : Bracket) : Follows (.text [closer b]) where
  opener b' p cs := by
    refine (isClass_text (closer b)).fail fun c hc => ?_
    rw [← Option.some.inj hc]
    exact (closer_ne_opener b b').symm
  here h := absurd h not_tried_text

theorem follows_endOfInput : Follows (.rule .endOfInput) where
  opener _ _ _ := .rule_fail rfl .finish_fail
  here h := by
    rcases tried_rule_cases rfl h with ⟨hq, -, -⟩ | ⟨-, hbody, -⟩
    · exact hq
    · cases hbody

/-- Where a bracket opens a group that fails, no form is matched. -/
theorem ends_of_group {c : Bracket} {tail : List Char}
    (h : Derives (.seq .skip (.spaced (.spacedMany (.rule .form)) (.text [closer c])))
      (p.after (opener c)) tail .fail) : Ends p (opener c :: tail) := by
  have hhead : ∀ {P : Char → Prop}, P (opener c) →
      ∀ d, (opener c :: tail).head? = some d → P d := by
    intro P hP d hd
    rwa [← Option.some.inj hd]
  refine ⟨hhead (by cases c <;> decide), form_fail_of_fails ?_ ?_ ?_⟩
  · intro b
    by_cases hb : b = c
    · subst hb
      refine .rule_fail (by cases b <;> rfl) ?_
      rw [groupRule_body]
      exact .seq_fail_right (.text rfl) h
    · exact group_fail (hhead (P := (· ≠ opener b)) fun heq => hb (opener_injective heq).symm)
  · exact string_fail (hhead (P := (· ≠ '"')) (by cases c <;> decide))
  · exact atom_fail (hhead (P := fun d => ¬ IsWordChar d) (by cases c <;> decide))

section
variable {bs : List Bracket} (hfollows : Follows e)
include hfollows

/-- Behind data where forms end and the expression fails, it has been tried, and so has every rule
of forms. -/
theorem failsAt_of_groups (hends : Ends q rest) (hopen : ∀ b tail, rest ≠ opener b :: tail)
    (hgroups : Groups ts ds) (hscans : Scans p cs ts q rest) (he : Derives e q rest .fail) :
    FailsAt (.seq .skip (.spaced (.spacedMany (.rule .form)) e)) p cs q
      (fun r => r ∈ formRules ∨ Tried e q rest r q) := by
  obtain ⟨_, w, hforms, rfl, -⟩ := forms_of_groups hgroups hscans hends
  refine ⟨hforms.fails hends he, ?_, ?_⟩
  · intro r q' htried
    rcases (hforms.tried_iff hends).mp htried with hmany | hnext
    · rcases tried_of_groups hgroups hscans hends hmany with hlt | hform
      · exact Position.le_of_lt hlt
      · rw [(tried_form_here hopen hform).1]
        exact Position.le_refl _
    · rw [hfollows.here hnext]
      exact Position.le_refl _
  · intro r
    rw [hforms.tried_iff hends]
    constructor
    · intro htried
      rcases htried with hmany | hnext
      · rcases tried_of_groups hgroups hscans hends hmany with hlt | hform
        · exact absurd hlt (Position.lt_irrefl _)
        · exact .inl (tried_form_here hopen hform).2
      · exact .inr hnext
    · intro hr
      rcases hr with hr | hnext
      · exact .inl (hforms.tried_end (tried_form_of_fail hends.no_form hr))
      · exact .inr hnext

/-- Behind data where a bracket opens a group that fails, what is tried the furthest is tried inside
the group. -/
theorem failsAt_of_group {b : Bracket} {start : Position} {tail : List Char} {rs : Rule → Prop}
    (hgroups : Groups ts ds) (hscans : Scans p cs ts start (opener b :: tail)) (hlt : start < q)
    (hgroup : FailsAt (.seq .skip (.spaced (.spacedMany (.rule .form)) (.text [closer b])))
      (start.after (opener b)) tail q rs) :
    FailsAt (.seq .skip (.spaced (.spacedMany (.rule .form)) e)) p cs q rs := by
  have hends := ends_of_group hgroup.fails
  obtain ⟨_, w, hforms, rfl, -⟩ := forms_of_groups hgroups hscans hends
  have hcases : ∀ {r q'}, Tried (.seq .skip (.spaced (.spacedMany (.rule .form)) e)) p cs r q' →
      q' < q ∨ Tried (.seq .skip (.spaced (.spacedMany (.rule .form)) (.text [closer b])))
        ((p.afterAll w).after (opener b)) tail r q' := by
    intro r q' htried
    rcases (hforms.tried_iff hends).mp htried with hmany | hnext
    · rcases tried_of_groups hgroups hscans hends hmany with hearly | hform
      · exact .inl (Position.lt_of_lt_of_le hearly (Position.le_of_lt hlt))
      · rcases tried_form_cases hform with ⟨rfl, -⟩ | ⟨b', hbody⟩
        · exact .inl hlt
        · obtain ⟨_, hcs, hbehind⟩ := tried_group_body hbody
          obtain ⟨hb, rfl⟩ := List.cons.inj hcs
          obtain rfl := opener_injective hb
          exact .inr hbehind
    · rw [hfollows.here hnext]
      exact .inl hlt
  refine ⟨hforms.fails hends (hfollows.opener _ _ _), ?_, ?_⟩
  · intro r q' htried
    rcases hcases htried with hearly | hbehind
    · exact Position.le_of_lt hearly
    · exact hgroup.le hbehind
  · intro r
    constructor
    · intro htried
      rcases hcases htried with hearly | hbehind
      · exact absurd hearly (Position.lt_irrefl q)
      · exact hgroup.here.mp hbehind
    · intro hr
      refine (hforms.tried_iff hends).mpr (.inl (hforms.tried_end ?_))
      exact tried_form_of_inside hlt (hgroup.here.mpr hr)

end

/-- **Forms that break off** where some brackets are open fail there, where every rule of forms has
been tried; and the expression behind them has, if no bracket is open. -/
theorem failsAt_of_unclosed {bs : List Bracket} (hends : Ends q rest)
    (hopen : ∀ b tail, rest ≠ opener b :: tail) (h : Unclosed ts bs) :
    ∀ {e p cs}, Scans p cs ts q rest → Follows e →
      (∀ b tail, bs.head? = some b → rest ≠ closer b :: tail) →
      (bs = [] → Derives e q rest .fail) →
      FailsAt (.seq .skip (.spaced (.spacedMany (.rule .form)) e)) p cs q
        (fun r => r ∈ formRules ∨ bs = [] ∧ Tried e q rest r q) := by
  induction h with
  | data hgroups =>
      intro e p cs hscans hfollows _ he
      simpa using failsAt_of_groups hfollows hends hopen hgroups hscans (he rfl)
  | @opening ts us ds b o bs hgroups _ ih =>
      intro e p cs hscans hfollows hclose _
      obtain ⟨_, _, hfront, hback⟩ := hscans.exists_of_append
      obtain ⟨mid, _, tail, hskipped, hfirst, hinside⟩ := hback.exists_firstToken
      have hbefore := hfront.append hskipped
      rw [List.append_nil] at hbefore
      generalize o.start = start at hfirst hbefore
      cases hfirst with
      | bracket hmem =>
          obtain rfl := mem_brackets_opening.mp hmem
          have hhead : ∀ b' tail, bs.head? = some b' → rest ≠ closer b' :: tail := by
            intro b' tail hb'
            refine hclose b' tail ?_
            rw [List.head?_append, hb', Option.some_or]
          have hnoclose : bs = [] → Derives (.text [closer b]) q rest .fail := by
            intro hbs
            subst hbs
            refine (isClass_text (closer b)).fail fun c hc heq => ?_
            obtain ⟨tail, rfl⟩ := List.head?_eq_some_iff.mp hc
            exact hclose b tail rfl (heq ▸ rfl)
          have hgroup := ih hinside (follows_closer b) hhead hnoclose
          have hlt : start < q := Position.lt_of_lt_of_le (Position.lt_after _ _) hinside.le
          simp only [not_tried_text, and_false, or_false] at hgroup
          simpa using failsAt_of_group hfollows hgroups hbefore hlt hgroup

/-! ### Programs -/

section
variable {bs : List Bracket} (h : Offends bs rest)
include h

theorem ends_of_offends (p : Position) : Ends p rest := by
  refine ⟨h.not_skipped, ?_⟩
  cases h with
  | @closing c b _ cs hmem _ =>
      rw [mem_brackets_closing.mp hmem]
      exact form_fail (stops_closer b cs)
  | @quote _ cs hstring =>
      have hhead : ∀ {P : Char → Prop}, P '"' → ∀ c, ('"' :: cs).head? = some c → P c := by
        intro P hP c hc
        rwa [← Option.some.inj hc]
      apply form_fail_of_fails
      · exact fun b => group_fail (hhead (P := (· ≠ opener b)) (by cases b <;> decide))
      · refine totalBelow_string.fail fun ps w rest h => hstring ?_
        obtain ⟨raw, value, hquoted, -, hcs, -⟩ := derives_string_iff.mp h
        exact ⟨raw, value, rest, hquoted, (List.cons.inj hcs).2⟩
      · exact atom_fail (hhead (P := fun c => ¬ IsWordChar c) (by decide))
  | finish => exact form_fail stops_nil

theorem not_opener_of_offends (b : Bracket) (tail : List Char) : rest ≠ opener b :: tail := by
  intro heq
  cases h with
  | @closing c b' _ cs hmem _ =>
      rw [mem_brackets_closing.mp hmem] at heq
      exact closer_ne_opener b' b (List.cons.inj heq).1
  | quote _ => cases b <;> cases heq
  | finish => cases heq

theorem not_closer_of_offends (b : Bracket) (tail : List Char) (hb : bs.head? = some b) :
    rest ≠ closer b :: tail := by
  intro heq
  cases h with
  | @closing c b' _ cs hmem hne =>
      have hc : closer b' = closer b := by
        rw [← mem_brackets_closing.mp hmem]
        exact (List.cons.inj heq).1
      have hbb : b' = b := by
        cases b <;> cases b' <;> first | rfl | exact absurd hc (by decide)
      exact hne (hbb ▸ hb)
  | quote _ => cases b <;> cases heq
  | finish => cases heq

end

theorem endOfInput_fail_of_offends (h : Offends [] rest) :
    Derives (.rule .endOfInput) p rest .fail := by
  cases h with
  | closing _ _ => exact .rule_fail rfl .finish_fail
  | quote _ => exact .rule_fail rfl .finish_fail

theorem tried_endOfInput_iff (h : Derives (.rule .endOfInput) p rest .fail) :
    Tried (.rule .endOfInput) p rest r q ↔ r = .endOfInput ∧ q = p := by
  constructor
  · intro htried
    rcases tried_rule_cases rfl htried with ⟨hq, hr, -⟩ | ⟨-, hbody, -⟩
    · exact ⟨hr, hq⟩
    · cases hbody
  · intro heq
    obtain ⟨rfl, rfl⟩ := heq
    exact .failed rfl h

/-- While a program is refused, it has failed where it begins, and behind that what fails is tried
among its forms. -/
theorem tried_program_iff (h : Derives (.rule .program) .first cs .fail) :
    Tried (.rule .program) .first cs r q ↔
      q = .first ∧ r = .program ∨
        q ≠ .first ∧ Tried (.seq .skip (.spaced (.spacedMany (.rule .form)) (.rule .endOfInput)))
          .first cs r q := by
  have hstart : ∀ {r q}, ¬ Tried .start .first cs r q := by
    intro r q htried
    cases htried
  constructor
  · intro htried
    rcases tried_rule_cases rfl htried with ⟨hq, hr, -⟩ | ⟨-, hbody, hhidden⟩
    · exact .inl ⟨hq, hr⟩
    · exact .inr ⟨fun hq => hhidden hq h, (tried_seq_of_ok .start hstart).mp hbody⟩
  · intro htried
    rcases htried with ⟨rfl, rfl⟩ | ⟨hq, hforms⟩
    · exact .failed rfl h
    · refine .inside rfl rfl (fun heq => absurd heq hq) ?_
      exact (tried_seq_of_ok .start hstart).mpr hforms

/-- The rules that are wanted together. -/
def wantedRules : Wanted → List Rule
  | .program => [.program]
  | .form => formRules
  | .formOrEnd => .endOfInput :: formRules

end Peg

/-- What is wanted where a text is blocked. -/
def Grammar.wantedAt (p : Position) (bs : List Bracket) : Wanted :=
  if p = .first then .program else if bs.isEmpty then .formOrEnd else .form

namespace Peg

/-- **While a text is refused** the rules that are tried the furthest fail where it is blocked, and
are the ones that are wanted there. -/
theorem failsAt_of_blocked {text : List Char} {bs : List Bracket} (h : Blocked text p bs) :
    FailsAt (.rule .program) .first text p (· ∈ wantedRules (wantedAt p bs)) := by
  obtain ⟨ts, rest, hscans, hopens, hoffends⟩ := h
  have hend : bs = [] → Derives (.rule .endOfInput) p rest .fail := by
    intro hbs
    subst hbs
    exact endOfInput_fail_of_offends hoffends
  have hforms := failsAt_of_unclosed (ends_of_offends hoffends p) (not_opener_of_offends hoffends)
    (unclosed_of_opens hopens) hscans follows_endOfInput (not_closer_of_offends hoffends) hend
  have hfail : Derives (.rule .program) .first text .fail :=
    .rule_fail rfl (.seq_fail_right .start hforms.fails)
  refine ⟨hfail, ?_, ?_⟩
  · intro r q htried
    rcases (tried_program_iff hfail).mp htried with ⟨rfl, -⟩ | ⟨-, hinside⟩
    · exact hscans.le
    · exact hforms.le hinside
  · intro r
    rw [tried_program_iff hfail, hforms.here, wantedAt]
    by_cases hp : p = .first
    · simp [hp, wantedRules]
    · cases bs with
      | nil => simp [hp, wantedRules, tried_endOfInput_iff (hend rfl), or_comm]
      | cons b bs => simp [hp, wantedRules]

end Peg

namespace Script

open Peg

/-- **Syntax errors stand at the first token that cannot go on**: a closing bracket that does not
fit, a quote that starts no complete string, or the end of the text where a bracket is open.  No
rule is tried further than there, and the rules that are tried there are the ones that the message
names. -/
theorem read_blocked (s : Script) :
    (Derives (.rule .program) .first s.content.toList .fail ↔
      ∃ p bs, Blocked s.content.toList p bs) ∧
    ∀ p bs, Blocked s.content.toList p bs →
      ∃ e what, s.read = .error e ∧ e.place = ⟨some (p.inFile s.name), none⟩ ∧
        e.fault = .expected what ∧
        e.fault.message =
          (if p = .first then "Syntax error: expected program"
          else if bs ≠ [] then
            "Syntax error: expected expression, list, string, boolean, number, or symbol"
          else
            "Syntax error: expected EOI, expression, list, string, boolean, number, or symbol") ∧
        (∀ r q, Tried (.rule .program) .first s.content.toList r q → q ≤ p) ∧
        ∀ r, Tried (.rule .program) .first s.content.toList r p ↔ r ∈ wantedRules what := by
  constructor
  · rw [program_fail_iff]
    constructor
    · intro h
      obtain ⟨f, hf⟩ := h
      obtain ⟨bs, hblocked, -⟩ := ofText_eq_error_iff.mp hf
      exact ⟨_, bs, hblocked⟩
    · intro h
      obtain ⟨p, bs, hblocked⟩ := h
      exact ⟨_, ofText_of_blocked hblocked⟩
  · intro p bs hblocked
    have hfails := failsAt_of_blocked hblocked
    have hread : s.read = .error ⟨.expected (wantedAt p bs), ⟨some (p.inFile s.name), none⟩⟩ := by
      rw [read, ofText_of_blocked hblocked, wantedAt]
      cases bs <;> rfl
    refine ⟨_, _, hread, rfl, rfl, ?_, fun r q => hfails.le, fun r => hfails.here⟩
    unfold wantedAt
    by_cases hp : p = .first
    · rw [if_pos hp, if_pos hp]
      rfl
    · rw [if_neg hp, if_neg hp]
      cases bs <;> rfl

/-- Of `([a)` the round bracket at its end is refused, inside the square one. -/
theorem read_blocked_bracket :
    ∃ e, (Script.mk "t.hy" (String.ofList ['(', '[', 'a', ')'])).read = .error e ∧
      e.place = ⟨some ⟨"t.hy", 1, 4⟩, none⟩ ∧ e.fault.message =
        "Syntax error: expected expression, list, string, boolean, number, or symbol" := by
  have hround : ('(', .opening .round) ∈ brackets := by decide
  have hsquare : ('[', .opening .square) ∈ brackets := by decide
  have hclose : (')', .closing .round) ∈ brackets := by decide
  have hword : ∀ c ∈ ['a'], IsWordChar c := List.forall_mem_singleton.mpr (by decide)
  have hend : ∀ c, [')'].head? = some c → ¬ IsWordChar c := by
    intro c hc
    rw [← Option.some.inj hc]
    decide
  have hscans : Scans .first ['(', '[', 'a', ')'] _ ⟨1, 4⟩ [')'] :=
    .bracket hround (.bracket hsquare (@Scans.atom _ _ ['a'] _ _ _ (by decide) hword hend .done))
  have hblocked : Blocked ['(', '[', 'a', ')'] ⟨1, 4⟩ [.square, .round] :=
    ⟨_, _, hscans, .opening (.opening (.atom .nil)), .closing hclose (by decide)⟩
  obtain ⟨e, what, hread, hplace, -, hmessage, -, -⟩ :=
    (read_blocked ⟨"t.hy", String.ofList ['(', '[', 'a', ')']⟩).2 ⟨1, 4⟩ [.square, .round]
      (by rwa [String.toList_ofList])
  exact ⟨e, hread, hplace, hmessage⟩

end Script
end FormLower
