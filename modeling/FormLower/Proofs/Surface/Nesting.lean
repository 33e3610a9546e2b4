import FormLower.Proofs.Surface.Spans

/-! # Where nesting fails

The tokens of a text are read from the left, and the brackets that are open are kept, the innermost
first (`Opens`).  A text whose tokens are not grouped to data has a first token that cannot go on: a
closing bracket that does not fit, a quote that starts no complete string, or the end of the text
where a bracket is open (`Offends`, `Blocked`).  Grouping fails there and nowhere else
(`ofText_eq_error_iff`).

The brackets that are open in the end stand between complete data (`Unclosed`). -/

namespace FormLower

open Grammar

namespace Grammar

/-! ### Open brackets -/

/-- Lexemes that are read where some brackets are open, and the brackets that are open after them.
A closing bracket closes the innermost one, which has to be of its kind. -/
inductive Opens : List Bracket → List Lexeme → List Bracket → Prop
  | nil {bs : List Bracket} : Opens bs [] bs
  | string {v : String} {ls : List Lexeme} {bs bs' : List Bracket} :
      Opens bs ls bs' → Opens bs (.string v :: ls) bs'
  | atom {w : String} {ls : List Lexeme} {bs bs' : List Bracket} :
      Opens bs ls bs' → Opens bs (.atom w :: ls) bs'
  | opening {b : Bracket} {ls : List Lexeme} {bs bs' : List Bracket} :
      Opens (b :: bs) ls bs' → Opens bs (.opening b :: ls) bs'
  | closing {b : Bracket} {ls : List Lexeme} {bs bs' : List Bracket} :
      Opens bs ls bs' → Opens (b :: bs) (.closing b :: ls) bs'

/-- What cannot be read where some brackets are open. -/
inductive Offends : List Bracket → List Char → Prop
  | closing {c : Char} {b : Bracket} {bs : List Bracket} {cs : List Char} :
      (c, .closing b) ∈ brackets → bs.head? ≠ some b → Offends bs (c :: cs)
  | quote {bs : List Bracket} {cs : List Char} : ¬ CompletesString cs → Offends bs ('"' :: cs)
  | finish {b : Bracket} {bs : List Bracket} : Offends (b :: bs) []

/-- The first token of a text that cannot go on stands at a position, where some brackets are open.
Before it the text is made of tokens, blanks and comments. -/
def Blocked (text : List Char) (p : Position) (bs : List Bracket) : Prop :=
  ∃ ts rest, Scans .first text ts p rest ∧ Opens [] (lexemes ts) bs ∧ Offends bs rest

variable {bs bs' bs'' : List Bracket} {ls ms : List Lexeme} {p q : Position}
variable {text cs rest : List Char} {ts us : List Token}

theorem Opens.append (h : Opens bs ls bs') (h' : Opens bs' ms bs'') : Opens bs (ls ++ ms) bs'' := by
  induction h with
  | nil => exact h'
  | string _ ih => exact .string (ih h')
  | atom _ ih => exact .atom (ih h')
  | opening _ ih => exact .opening (ih h')
  | closing _ ih => exact .closing (ih h')

theorem Opens.exists_of_append (h : Opens bs (ls ++ ms) bs'') :
    ∃ bs', Opens bs ls bs' ∧ Opens bs' ms bs'' := by
  induction ls generalizing bs with
  | nil => exact ⟨bs, .nil, h⟩
  | cons l ls ih =>
      cases h with
      | string h =>
          obtain ⟨bs', hls, hms⟩ := ih h
          exact ⟨bs', .string hls, hms⟩
      | atom h =>
          obtain ⟨bs', hls, hms⟩ := ih h
          exact ⟨bs', .atom hls, hms⟩
      | opening h =>
          obtain ⟨bs', hls, hms⟩ := ih h
          exact ⟨bs', .opening hls, hms⟩
      | closing h =>
          obtain ⟨bs', hls, hms⟩ := ih h
          exact ⟨bs', .closing hls, hms⟩

/-- Tokens go on to the end, or up to a closing bracket that does not fit. -/
theorem opens_or_closing (h : ∀ t ∈ ts, t.lexeme ≠ .strayQuote) (bs : List Bracket) :
    (∃ bs', Opens bs (lexemes ts) bs') ∨
      ∃ front b e us bs', ts = front ++ ⟨.closing b, e⟩ :: us ∧ Opens bs (lexemes front) bs' ∧
        bs'.head? ≠ some b := by
  induction ts generalizing bs with
  | nil => exact .inl ⟨bs, .nil⟩
  | cons t ts ih =>
      obtain ⟨ht, hts⟩ := List.forall_mem_cons.mp h
      -- What the token leaves open decides about the tokens after it.
      have next : ∀ bs₁, (∀ ls bs', Opens bs₁ ls bs' → Opens bs (t.lexeme :: ls) bs') →
          (∃ bs', Opens bs (lexemes (t :: ts)) bs') ∨
            ∃ front b e us bs', t :: ts = front ++ ⟨.closing b, e⟩ :: us ∧
              Opens bs (lexemes front) bs' ∧ bs'.head? ≠ some b := by
        intro bs₁ hopens
        rcases ih hts bs₁ with ⟨bs', hbs'⟩ | ⟨front, b, e, us, bs', heq, hfront, hb⟩
        · exact .inl ⟨bs', hopens _ _ hbs'⟩
        · refine .inr ⟨t :: front, b, e, us, bs', ?_, hopens _ _ hfront, hb⟩
          rw [heq, List.cons_append]
      obtain ⟨l, e⟩ := t
      cases l with
      | opening b => exact next (b :: bs) fun _ _ => .opening
      | string v => exact next bs fun _ _ => .string
      | atom w => exact next bs fun _ _ => .atom
      | strayQuote => exact absurd rfl ht
      | closing b =>
          by_cases hb : bs.head? = some b
          · obtain ⟨bs, rfl⟩ := List.head?_eq_some_iff.mp hb
            exact next bs fun _ _ => .closing
          · exact .inr ⟨[], b, e, ts, bs, rfl, .nil, hb⟩

theorem Offends.not_skipped (h : Offends bs rest) :
    ∀ c, rest.head? = some c → c ∉ blanks ∧ c ≠ ';' := by
  intro c hc
  cases h with
  | @closing _ b _ _ hmem _ =>
      obtain rfl := Option.some.inj hc
      rw [Peg.mem_brackets_closing.mp hmem]
      cases b <;> decide
  | quote _ =>
      obtain rfl := Option.some.inj hc
      decide
  | finish => cases hc

/-- The tokens of a text go on behind those of its front. -/
theorem Scans.exists_tokens (h : Scans .first text ts p rest) : ∃ us, tokens text = ts ++ us := by
  obtain ⟨us, q, rest, hscans, rfl | ⟨tail, rfl, htail⟩⟩ := Scan.exists_scans p rest
  · exact ⟨us, tokens_of_splits ⟨q, h.append hscans⟩⟩
  · refine ⟨us ++ [⟨.strayQuote, ⟨q, q.after '"'⟩⟩], ?_⟩
    rw [tokens_of_stray (h.append hscans) htail, List.append_assoc]

/-- A token is scanned where it stands, after blanks and comments. -/
theorem Scans.exists_firstToken {t : Token} (h : Scans p cs (t :: ts) q rest) :
    ∃ mid q' tail, Scans p cs [] t.extent.start mid ∧
      Peg.FirstToken t.extent.start mid t q' tail ∧ Scans q' tail ts q rest := by
  obtain ⟨w, mid, q', tail, hskip, hfirst, hscans⟩ := Peg.exists_firstToken h
  have hstart : t.extent.start = p.afterAll w := by
    cases hfirst <;> rfl
  rw [hstart]
  exact ⟨mid, q', tail, (Peg.scans_of_skip hskip).2, hfirst, hscans⟩

theorem exists_closing_of_firstToken {b : Bracket} {e : Extent}
    (h : Peg.FirstToken p cs ⟨.closing b, e⟩ q rest) :
    ∃ c, cs = c :: rest ∧ (c, .closing b) ∈ brackets := by
  cases h with
  | bracket hmem => exact ⟨_, rfl, hmem⟩

end Grammar

/-! ### Data between open brackets -/

/-- Tokens that are complete data but for some brackets that stay open, the innermost first. -/
inductive Unclosed : List Token → List Bracket → Prop
  | data {ts : List Token} {ds : List Datum} : Groups ts ds → Unclosed ts []
  | opening {ts us : List Token} {ds : List Datum} {b : Bracket} {e : Extent}
      {bs : List Bracket} :
      Groups ts ds → Unclosed us bs → Unclosed (ts ++ ⟨.opening b, e⟩ :: us) (bs ++ [b])

/-- Data are grouped at the end of tokens. -/
theorem Unclosed.append {ts us : List Token} {bs : List Bracket} {es : List Datum}
    (h : Unclosed ts bs) (h' : Groups us es) : Unclosed (ts ++ us) bs := by
  induction h with
  | data hgroups => exact .data (hgroups.append h')
  | opening hgroups _ ih =>
      rw [List.append_assoc, List.cons_append]
      exact .opening hgroups ih

theorem Unclosed.concat_opening {ts : List Token} {bs : List Bracket} (h : Unclosed ts bs)
    (b : Bracket) (e : Extent) : Unclosed (ts ++ [⟨.opening b, e⟩]) (b :: bs) := by
  induction h with
  | data hgroups => exact @Unclosed.opening _ _ _ _ _ [] hgroups (.data .nil)
  | opening hgroups _ ih =>
      rw [List.append_assoc, List.cons_append]
      exact .opening hgroups ih

theorem Unclosed.exists_groups {ts : List Token} (h : Unclosed ts []) : ∃ ds, Groups ts ds := by
  generalize hbs : ([] : List Bracket) = bs at h
  cases h with
  | data hgroups => exact ⟨_, hgroups⟩
  | opening _ _ => simp at hbs

theorem Unclosed.concat_closing {ts : List Token} {b : Bracket} {bs : List Bracket}
    (h : Unclosed ts (b :: bs)) (e : Extent) : Unclosed (ts ++ [⟨.closing b, e⟩]) bs := by
  generalize hall : b :: bs = all at h
  induction h generalizing bs with
  | data _ => cases hall
  | @opening ts us ds b' e' inner hgroups hunclosed ih =>
      rw [List.append_assoc, List.cons_append]
      cases inner with
      | nil =>
          -- The innermost bracket is the outermost one too, and is closed.
          obtain ⟨rfl, rfl⟩ := List.cons.inj hall
          obtain ⟨items, hinner⟩ := hunclosed.exists_groups
          exact .data (hgroups.append (.group hinner .nil))
      | cons b'' inner =>
          obtain ⟨rfl, rfl⟩ := List.cons.inj hall
          exact .opening hgroups (ih rfl)

theorem unclosed_of_opens {ts : List Token} {bs : List Bracket} (h : Opens [] (lexemes ts) bs) :
    Unclosed ts bs := by
  induction ts using List.reverseRecOn generalizing bs with
  | nil =>
      cases h
      exact .data .nil
  | append_singleton ts t ih =>
      obtain ⟨l, e⟩ := t
      rw [lexemes, List.map_append] at h
      obtain ⟨bs', hts, hlast⟩ := h.exists_of_append
      have hunclosed := ih hts
      cases hlast with
      | string hnil =>
          cases hnil
          exact hunclosed.append (.string .nil)
      | atom hnil =>
          cases hnil
          exact hunclosed.append (.atom .nil)
      | opening hnil =>
          cases hnil
          exact hunclosed.concat_opening _ e
      | closing hnil =>
          cases hnil
          exact hunclosed.concat_closing e

/-- After complete data the same brackets are open as before them. -/
theorem Groups.opens {ts : List Token} {ds : List Datum} (h : Groups ts ds) :
    ∀ bs : List Bracket, Opens bs (lexemes ts) bs := by
  induction h with
  | nil => exact fun _ => .nil
  | string _ ih => exact fun bs => .string (ih bs)
  | atom _ ih => exact fun bs => .atom (ih bs)
  | @group b e e' inner ts items ds _ _ ihinner ih =>
      intro bs
      have hlexemes : lexemes (⟨.opening b, e⟩ :: inner ++ ⟨.closing b, e'⟩ :: ts) =
          .opening b :: (lexemes inner ++ .closing b :: lexemes ts) := by
        simp [lexemes]
      rw [hlexemes]
      exact .opening ((ihinner (b :: bs)).append (.closing (ih bs)))

/-! ### Grouping -/

/-- Grouping goes on with the brackets that the tokens so far have left open. -/
theorem nest_of_opens {bs bs' : List Bracket} {ls : List Lexeme} (h : Opens bs ls bs') :
    ∀ (stack : List OpenBracket) (items : List Datum) {ts : List Token}, lexemes ts = ls →
      stack.map OpenBracket.bracket = bs →
      ∃ stack' items', stack'.map OpenBracket.bracket = bs' ∧ ∀ stop rest,
        Datum.nest stop stack items (ts ++ rest) = Datum.nest stop stack' items' rest := by
  induction h with
  | nil =>
      intro stack items ts hts hstack
      obtain rfl : ts = [] := List.map_eq_nil_iff.mp hts
      exact ⟨stack, items, hstack, fun _ _ => rfl⟩
  | @string v ls bs bs' _ ih =>
      intro stack items ts hts hstack
      obtain ⟨⟨l, e⟩, ts, rfl, rfl, rfl⟩ := List.map_eq_cons_iff.mp hts
      obtain ⟨stack', items', hstack', hnest⟩ := ih stack (.string v e :: items) rfl hstack
      refine ⟨stack', items', hstack', fun stop rest => ?_⟩
      rw [List.cons_append, Datum.nest, hnest]
  | @atom w ls bs bs' _ ih =>
      intro stack items ts hts hstack
      obtain ⟨⟨l, e⟩, ts, rfl, rfl, rfl⟩ := List.map_eq_cons_iff.mp hts
      obtain ⟨stack', items', hstack', hnest⟩ := ih stack (.atom w e :: items) rfl hstack
      refine ⟨stack', items', hstack', fun stop rest => ?_⟩
      rw [List.cons_append, Datum.nest, hnest]
  | @opening b ls bs bs' _ ih =>
      intro stack items ts hts hstack
      obtain ⟨⟨l, e⟩, ts, rfl, rfl, rfl⟩ := List.map_eq_cons_iff.mp hts
      have hpush : (⟨b, e.start, items⟩ :: stack : List OpenBracket).map OpenBracket.bracket =
          b :: bs := by rw [List.map_cons, hstack]
      obtain ⟨stack', items', hstack', hnest⟩ := ih (⟨b, e.start, items⟩ :: stack) [] rfl hpush
      refine ⟨stack', items', hstack', fun stop rest => ?_⟩
      rw [List.cons_append, Datum.nest, hnest]
  | @closing b ls bs bs' _ ih =>
      intro stack items ts hts hstack
      obtain ⟨⟨l, e⟩, ts, rfl, rfl, rfl⟩ := List.map_eq_cons_iff.mp hts
      obtain ⟨frame, outer, rfl, rfl, houter⟩ := List.map_eq_cons_iff.mp hstack
      obtain ⟨stack', items', hstack', hnest⟩ := ih outer
        (.group frame.bracket items.reverse ⟨frame.start, e.stop⟩ :: frame.before) rfl houter
      refine ⟨stack', items', hstack', fun stop rest => ?_⟩
      rw [List.cons_append, Datum.nest, if_pos rfl, hnest]

/-- A closing bracket that does not fit is refused. -/
theorem nest_closing {stack : List OpenBracket} {b : Bracket}
    (h : (stack.map OpenBracket.bracket).head? ≠ some b) (stop : Position) (items : List Datum)
    (e : Extent) (ts : List Token) :
    Datum.nest stop stack items (⟨.closing b, e⟩ :: ts) = .error ⟨e.start, !stack.isEmpty⟩ := by
  cases stack with
  | nil => rfl
  | cons frame stack =>
      have hne : frame.bracket ≠ b := fun heq => h (congrArg some heq)
      rw [Datum.nest, if_neg hne]
      rfl

theorem ofText_of_blocked {text : List Char} {p : Position} {bs : List Bracket}
    (h : Blocked text p bs) : Datum.ofText text = .error ⟨p, !bs.isEmpty⟩ := by
  obtain ⟨ts, rest, hscans, hopens, hoffends⟩ := h
  obtain ⟨stack, items, rfl, hnest⟩ := nest_of_opens hopens [] [] rfl rfl
  have hempty : (stack.map OpenBracket.bracket).isEmpty = stack.isEmpty := by
    cases stack <;> rfl
  rw [Datum.ofText, hempty]
  generalize hbs : stack.map OpenBracket.bracket = bs at hoffends
  cases hoffends with
  | @closing c b bs cs hmem hb =>
      obtain ⟨us, hus⟩ := (hscans.append (.bracket hmem .done)).exists_tokens
      rw [hus, List.append_assoc, hnest]
      subst hbs
      exact nest_closing hb _ items _ us
  | quote hstring =>
      rw [tokens_of_stray hscans hstring, hnest]
      cases stack <;> rfl
  | finish =>
      obtain ⟨w, hw, hp⟩ := hscans.exists_front
      rw [List.append_nil] at hw
      have hnil := hnest (Position.first.afterAll text) []
      rw [List.append_nil] at hnil
      rw [tokens_of_splits ⟨_, hscans⟩, hnil, hp, hw]
      cases stack with
      | nil => cases hbs
      | cons frame stack => rfl

/-- A text whose tokens are not grouped is blocked somewhere. -/
theorem exists_blocked {text : List Char} {f : NestingFault} (h : Datum.ofText text = .error f) :
    ∃ p bs, Blocked text p bs := by
  obtain ⟨ts, q, rest, hscans, hend⟩ := Scan.exists_scans .first text
  rcases opens_or_closing hscans.ne_strayQuote [] with
    ⟨bs, hopens⟩ | ⟨front, b, e, us, bs, rfl, hopens, hb⟩
  · rcases hend with rfl | ⟨tail, rfl, htail⟩
    · cases bs with
      | nil =>
          obtain ⟨ds, hgroups⟩ := (unclosed_of_opens hopens).exists_groups
          rw [ofText_eq_ok_iff.mpr ⟨ts, ⟨q, hscans⟩, hgroups⟩] at h
          cases h
      | cons b bs => exact ⟨q, b :: bs, ts, [], hscans, hopens, .finish⟩
    · exact ⟨q, bs, ts, _, hscans, hopens, .quote htail⟩
  · obtain ⟨q', mid, hfront, hclosing⟩ := hscans.exists_of_append
    obtain ⟨mid', q'', tail, hskipped, hfirst, -⟩ := hclosing.exists_firstToken
    have hbefore := hfront.append hskipped
    rw [List.append_nil] at hbefore
    obtain ⟨c, rfl, hmem⟩ := exists_closing_of_firstToken hfirst
    exact ⟨_, bs, front, _, hbefore, hopens, .closing hmem hb⟩

/-- **Grouping fails** at the first token of a text that cannot go on. -/
theorem ofText_eq_error_iff {text : List Char} {f : NestingFault} :
    Datum.ofText text = .error f ↔ ∃ bs, Blocked text f.position bs ∧ f.isNested = !bs.isEmpty := by
  constructor
  · intro h
    obtain ⟨p, bs, hblocked⟩ := exists_blocked h
    rw [ofText_of_blocked hblocked] at h
    cases h
    exact ⟨bs, hblocked, rfl⟩
  · intro h
    obtain ⟨bs, hblocked, hnested⟩ := h
    rw [ofText_of_blocked hblocked, ← hnested]

end FormLower
