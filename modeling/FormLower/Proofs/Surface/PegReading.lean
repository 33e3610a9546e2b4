import FormLower.Proofs.Surface.PegForms

/-! # Reading what was matched

The pairs that the program rule leaves are read to trees: a pair of a rule for words to a leaf, a
list to a list and an expression, whose first pair must be a symbol, to a call.  Those trees are the
ones that are read from the text (`Script.read_iff_parses`), and the program rule refuses the texts
whose brackets do not group them (`Peg.program_fail_iff`). -/

namespace FormLower

open Grammar

namespace Peg

variable {p q : Position} {cs rest w : List Char} {ps : List Pair} {ts : List Token}
variable {ds : List Datum} {r : Rule} {v : Leaf}

/-! ### Programs -/

/-- The program rule matches a text and leaves these pairs of forms. -/
def Parses (text : List Char) (ps : List Pair) : Prop :=
  ∃ e w rest e', Derives (.rule .program) .first text
    (.ok [.mk .program e w (ps ++ [.mk .endOfInput e' [] []])] w rest)

/-- A program is matched on the whole text, whose tokens are grouped to data. -/
theorem parsed_of_program {text : List Char}
    (h : Derives (.rule .program) .first text (.ok ps w rest)) :
    ∃ e qs e', ps = [.mk .program e w (qs ++ [.mk .endOfInput e' [] []])] ∧
      ∃ ts ds, Splits text ts ∧ Groups ts ds ∧ Stands qs ds := by
  obtain ⟨inner, hbody, rfl⟩ := (derives_rule_iff rfl).mp h
  obtain ⟨_, _, mid, _, _, hstart, hforms, rfl, rfl⟩ := derives_seq_iff.mp hbody
  cases hstart
  obtain ⟨qs, v, mid', _, _, ⟨ts, ds, hscans, hgroups, hstands⟩, hend, rfl, rfl⟩ :=
    parsed_of_forms parsed_of_form (Nat.lt_succ_self _) hforms
  obtain ⟨_, hfinish, rfl⟩ := (derives_rule_iff rfl).mp hend
  cases hfinish
  exact ⟨_, qs, _, rfl, ts, ds, ⟨_, hscans⟩, hgroups, hstands⟩

theorem parsed_of_parses {text : List Char} (h : Parses text ps) :
    ∃ ts ds, Splits text ts ∧ Groups ts ds ∧ Stands ps ds := by
  obtain ⟨_, _, _, _, hprogram⟩ := h
  obtain ⟨_, qs, _, hpair, hparsed⟩ := parsed_of_program hprogram
  obtain ⟨-, -, -, hinner⟩ := Pair.mk.inj (List.cons.inj hpair).1
  obtain ⟨rfl, -⟩ := List.append_inj' hinner rfl
  exact hparsed

theorem exists_parses {text : List Char} (h : Splits text ts) (hgroups : Groups ts ds) :
    ∃ ps, Parses text ps ∧ Stands ps ds := by
  obtain ⟨q, hscans⟩ := h
  obtain ⟨ps, w, hforms, rfl, hstands⟩ := forms_of_groups hgroups hscans (stops_nil.ends q)
  have hend := Derives.rule (r := .endOfInput) rfl (.finish (p := Position.first.afterAll w))
  have hbody := Derives.seq .start (hforms.derives (stops_nil.ends _) hend)
  exact ⟨ps, ⟨_, _, _, _, .rule (r := .program) rfl hbody⟩, hstands⟩

/-- **A text is matched as a program** exactly when its brackets group it to data. -/
theorem exists_parses_iff {text : List Char} :
    (∃ ps, Parses text ps) ↔ ∃ ds, Datum.ofText text = .ok ds := by
  constructor
  · rintro ⟨ps, hparses⟩
    obtain ⟨ts, ds, hsplits, hgroups, -⟩ := parsed_of_parses hparses
    exact ⟨ds, ofText_eq_ok_iff.mpr ⟨ts, hsplits, hgroups⟩⟩
  · rintro ⟨ds, hdata⟩
    obtain ⟨ts, hsplits, hgroups⟩ := ofText_eq_ok_iff.mp hdata
    obtain ⟨ps, hparses, -⟩ := exists_parses hsplits hgroups
    exact ⟨ps, hparses⟩

theorem totalBelow_program {n : ℕ} : TotalBelow n (.rule .program) := by
  have hstart : TotalBelow n .start := by
    intro p cs _
    by_cases h : p = .first
    · subst h
      exact ⟨_, .start⟩
    · exact ⟨_, .start_fail h⟩
  have hend : TotalBelow n (.rule .endOfInput) := by
    refine TotalBelow.rule fun p cs _ => ?_
    cases cs with
    | nil => exact ⟨_, .finish⟩
    | cons c cs => exact ⟨_, .finish_fail⟩
  exact .rule (.seq hstart (totalBelow_form.forms hend))

/-- **A text is refused by the program rule** exactly when its brackets do not group it. -/
theorem program_fail_iff {text : List Char} :
    Derives (.rule .program) .first text .fail ↔ ∃ f, Datum.ofText text = .error f := by
  constructor
  · intro hfail
    cases hdata : Datum.ofText text with
    | error f => exact ⟨f, rfl⟩
    | ok ds =>
        obtain ⟨ps, _, _, _, _, hprogram⟩ := exists_parses_iff.mpr ⟨ds, hdata⟩
        cases hfail.unique hprogram
  · rintro ⟨f, hdata⟩
    refine totalBelow_program.fail fun ps w rest hprogram => ?_
    obtain ⟨_, _, _, -, ts, ds, hsplits, hgroups, -⟩ := parsed_of_program hprogram
    rw [ofText_eq_ok_iff.mpr ⟨ts, hsplits, hgroups⟩] at hdata
    cases hdata

/-! ### Words -/

/-- The leaf that a word is read to by the rule that matched it. -/
inductive WordLeaf : Rule → List Char → Leaf → Prop
  | boolean {w : List Char} : WordLeaf .boolean w (.bool (w = ['t', 'r', 'u', 'e']))
  | int {w : List Char} {v : Int64} :
      '.' ∉ w → IntegerText w v.toInt → WordLeaf .number w (.number (.int v))
  | float {w : List Char} {x : Binary64} :
      '.' ∈ w → Binary64.read? w = some x → WordLeaf .number w (.number (.float x))
  | symbol {w : List Char} : WordLeaf .symbol w (.symbol (String.ofList w))

theorem not_mem_of_isDigits (h : IsDigits w) : '.' ∉ w := by
  intro hmem
  exact absurd (h.2 _ hmem) (by decide)

theorem not_mem_of_integerText {i : Int} (h : IntegerText w i) : '.' ∉ w := by
  cases h with
  | plain hds => exact not_mem_of_isDigits hds
  | minus hds =>
      rw [List.mem_cons, not_or]
      exact ⟨by decide, not_mem_of_isDigits hds⟩

theorem mem_of_fractionText (h : FractionText w) : '.' ∈ w := by
  obtain ⟨_, _⟩ := h
  simp

theorem atomLeaf_iff_wordLeaf (hr : AtomRule r w) :
    AtomLeaf (String.ofList w) v ↔ WordLeaf r w v := by
  constructor
  · intro h
    generalize hs : String.ofList w = s at h
    cases h with
    | yes =>
        obtain rfl : w = ['t', 'r', 'u', 'e'] := String.ofList_injective hs
        cases hr with
        | boolean _ => exact .boolean
        | number hw => exact absurd (.inl rfl) (not_boolWord_of_numberShaped hw)
        | symbol hw => exact absurd rfl hw.ne_true
    | no =>
        obtain rfl : w = ['f', 'a', 'l', 's', 'e'] := String.ofList_injective hs
        cases hr with
        | boolean _ => exact .boolean
        | number hw => exact absurd (.inr rfl) (not_boolWord_of_numberShaped hw)
        | symbol hw => exact absurd rfl hw.ne_false
    | int hw =>
        rw [← hs, String.toList_ofList] at hw
        have hshape : NumberShaped w := .inl ⟨_, hw⟩
        cases hr with
        | boolean hbool => exact absurd hbool (not_boolWord_of_numberShaped hshape)
        | number _ => exact .int (not_mem_of_integerText hw) hw
        | symbol hsymbol => exact absurd hshape (isSymbol_ofList_iff.mp hsymbol).2
    | float hw hx =>
        rw [← hs, String.toList_ofList] at hw hx
        have hshape : NumberShaped w := .inr hw
        cases hr with
        | boolean hbool => exact absurd hbool (not_boolWord_of_numberShaped hshape)
        | number _ => exact .float (mem_of_fractionText hw) hx
        | symbol hsymbol => exact absurd hshape (isSymbol_ofList_iff.mp hsymbol).2
    | symbol hw =>
        subst hs
        obtain ⟨hnobool, hnonumber⟩ := isSymbol_ofList_iff.mp hw
        cases hr with
        | boolean hbool => exact absurd hbool hnobool
        | number hshape => exact absurd hshape hnonumber
        | symbol _ => exact .symbol
  · intro h
    cases h with
    | boolean =>
        cases hr with
        | boolean hw =>
            rcases hw with rfl | rfl
            · exact .yes
            · exact .no
    | int _ hw => exact .int (by rwa [String.toList_ofList])
    | float hmem hx =>
        cases hr with
        | number hw =>
            rcases hw with ⟨i, hi⟩ | hfraction
            · exact absurd hmem (not_mem_of_integerText hi)
            · exact .float (by rwa [String.toList_ofList]) (by rwa [String.toList_ofList])
    | symbol =>
        cases hr with
        | symbol hw => exact .symbol hw

/-! ### Trees -/

/-- The trees that pairs of forms are read to, with their places in a file. -/
inductive Reads (file : String) : List Pair → List Source → Prop
  | nil : Reads file [] []
  | word {r : Rule} {e : Extent} {w : List Char} {v : Leaf} {ps : List Pair} {ss : List Source} :
      WordLeaf r w v → Reads file ps ss →
      Reads file (.mk r e w [] :: ps) (.leaf v (e.inFile file) :: ss)
  | string {e e' : Extent} {w raw value : List Char} {ps : List Pair} {ss : List Source} :
      Quoted raw value → Reads file ps ss →
      Reads file (.mk .string e w [.mk .strInner e' raw []] :: ps)
        (.leaf (.string (String.ofList value)) (e.inFile file) :: ss)
  | list {e : Extent} {w : List Char} {inner ps : List Pair} {es ss : List Source} :
      Reads file inner es → Reads file ps ss →
      Reads file (.mk .list e w inner :: ps) (.list es (e.inFile file) :: ss)
  | call {e e' : Extent} {w h : List Char} {inner ps : List Pair} {as ss : List Source} :
      Reads file inner as → Reads file ps ss →
      Reads file (.mk .expression e w (.mk .symbol e' h [] :: inner) :: ps)
        (.call (String.ofList h) as (e.inFile file) :: ss)

/-- What stands between quotes stands for one value. -/
theorem quoted_unique {raw value value' : List Char} (h : Quoted raw value)
    (h' : Quoted raw value') : value = value' := by
  induction h generalizing value' with
  | nil =>
      cases h'
      rfl
  | plain hquote hslash _ ih =>
      cases h' with
      | plain _ _ h' => rw [ih h']
      | escape _ _ => exact absurd rfl hslash
  | escape hmem _ ih =>
      cases h' with
      | plain _ hslash _ => exact absurd rfl hslash
      | escape hmem' h' =>
          have hsome := unescape?_eq_some_iff.mpr hmem
          rw [unescape?_eq_some_iff.mpr hmem'] at hsome
          rw [ih h', Option.some.inj hsome]

/-- The pair of a symbol stands for an atom. -/
theorem Stands.symbol_cons {e : Extent}
    (h : Stands (.mk .symbol e w [] :: ps) ds) :
    ∃ more, IsSymbol (String.ofList w) ∧ ds = .atom (String.ofList w) e :: more := by
  generalize hpairs : Pair.mk .symbol e w [] :: ps = qs at h
  cases h with
  | nil => cases hpairs
  | string _ _ => cases hpairs
  | atom hr _ =>
      cases hpairs
      cases hr with
      | symbol hw => exact ⟨_, hw, rfl⟩
  | @group b _ _ _ _ _ _ _ _ => cases b <;> cases hpairs

variable {s : Script}

/-- A group in round brackets is read as a call if its first pair is that of a symbol. -/
theorem tree_round_eq_ok_iff {inner : List Pair} {items : List Datum} {e : Extent} {t : Source}
    (hinner : Stands inner items)
    (htrees : ∀ {ss}, s.trees items = .ok ss ↔ Reads s.name inner ss) :
    s.tree (.group .round items e) = .ok t ↔
      ∃ e' h args as, inner = .mk .symbol e' h [] :: args ∧ Reads s.name args as ∧
        t = .call (String.ofList h) as (e.inFile s.name) := by
  rw [Script.tree_call_eq_ok_iff]
  constructor
  · rintro ⟨h, e', items, as, rfl, hsymbol, has, rfl⟩
    have hhead : s.tree (.atom h e') = .ok (.leaf (.symbol h) (e'.inFile s.name)) :=
      Script.tree_atom_eq_ok_iff.mpr ⟨_, .symbol hsymbol, rfl⟩
    have hreads := htrees.mp (Script.trees_cons_eq_ok_iff.mpr ⟨_, as, hhead, has, rfl⟩)
    cases hinner with
    | atom hr _ =>
        cases hreads with
        | word hv hargs =>
            cases (atomLeaf_iff_wordLeaf hr).mp (.symbol hsymbol)
            exact ⟨_, _, _, as, rfl, hargs, rfl⟩
  · rintro ⟨e', h, args, as, rfl, has, rfl⟩
    obtain ⟨more, hsymbol, rfl⟩ := hinner.symbol_cons
    obtain ⟨_, _, _, hargs, heq⟩ :=
      Script.trees_cons_eq_ok_iff.mp (htrees.mpr (.word .symbol has))
    cases heq
    exact ⟨_, _, _, _, rfl, hsymbol, hargs, rfl⟩

/-- **The trees of data are read off the pairs that stand for them.** -/
theorem trees_eq_ok_iff_reads (h : Stands ps ds) :
    ∀ {ss}, s.trees ds = .ok ss ↔ Reads s.name ps ss := by
  induction h with
  | nil =>
      intro ss
      rw [Script.trees]
      constructor
      · intro hss
        cases hss
        exact .nil
      · intro hreads
        cases hreads
        rfl
  | string hq _ ih =>
      intro ss
      rw [Script.trees_cons_eq_ok_iff]
      constructor
      · rintro ⟨t, rest, ht, hrest, rfl⟩
        rw [Script.tree] at ht
        cases ht
        exact .string hq (ih.mp hrest)
      · intro hreads
        cases hreads with
        | string hq' hrest =>
            obtain rfl := quoted_unique hq hq'
            exact ⟨_, _, by rw [Script.tree], ih.mpr hrest, rfl⟩
  | atom hr _ ih =>
      intro ss
      rw [Script.trees_cons_eq_ok_iff]
      constructor
      · rintro ⟨t, rest, ht, hrest, rfl⟩
        obtain ⟨v, hv, rfl⟩ := Script.tree_atom_eq_ok_iff.mp ht
        exact .word ((atomLeaf_iff_wordLeaf hr).mp hv) (ih.mp hrest)
      · intro hreads
        cases hreads with
        | word hv hrest =>
            have hleaf := (atomLeaf_iff_wordLeaf hr).mpr hv
            exact ⟨_, _, Script.tree_atom_eq_ok_iff.mpr ⟨_, hleaf, rfl⟩, ih.mpr hrest, rfl⟩
        | list _ _ => cases hr
  | @group b e w inner ps items ds hinner _ ihinner ih =>
      intro ss
      rw [Script.trees_cons_eq_ok_iff]
      constructor
      · rintro ⟨t, rest, ht, hrest, rfl⟩
        cases b with
        | square =>
            obtain ⟨es, hes, rfl⟩ := Script.tree_list_eq_ok_iff.mp ht
            exact .list (ihinner.mp hes) (ih.mp hrest)
        | round =>
            obtain ⟨e', h, args, as, rfl, has, rfl⟩ := (tree_round_eq_ok_iff hinner ihinner).mp ht
            exact .call has (ih.mp hrest)
      · intro hreads
        cases b with
        | square =>
            cases hreads with
            | word hv _ => cases hv
            | list hes hrest =>
                refine ⟨_, _, ?_, ih.mpr hrest, rfl⟩
                exact Script.tree_list_eq_ok_iff.mpr ⟨_, ihinner.mpr hes, rfl⟩
        | round =>
            cases hreads with
            | word hv _ => cases hv
            | call has hrest =>
                refine ⟨_, _, ?_, ih.mpr hrest, rfl⟩
                exact (tree_round_eq_ok_iff hinner ihinner).mpr ⟨_, _, _, _, rfl, has, rfl⟩

end Peg

/-- **A script is read by matching it.**  What is read are the trees of the pairs that the program
rule leaves, at the places where they were matched. -/
theorem Script.read_iff_parses (s : Script) (forest : List Source) :
    s.read = .ok forest ↔
      ∃ ps, Peg.Parses s.content.toList ps ∧ Peg.Reads s.name ps forest := by
  rw [read_eq_ok_iff]
  constructor
  · rintro ⟨ts, ds, hsplits, hgroups, htrees⟩
    obtain ⟨ps, hparses, hstands⟩ := Peg.exists_parses hsplits hgroups
    exact ⟨ps, hparses, (Peg.trees_eq_ok_iff_reads hstands).mp htrees⟩
  · rintro ⟨ps, hparses, hreads⟩
    obtain ⟨ts, ds, hsplits, hgroups, hstands⟩ := Peg.parsed_of_parses hparses
    exact ⟨ts, ds, hsplits, hgroups, (Peg.trees_eq_ok_iff_reads hstands).mpr hreads⟩

end FormLower
