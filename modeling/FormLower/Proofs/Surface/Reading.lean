import FormLower.Proofs.Surface.Atoms
import FormLower.Proofs.Surface.Scanning
import FormLower.Surface.Reader

/-! # Reading

A script is read exactly when its text is one of the surface grammar, and what is read are the
trees that the text denotes (`Script.read_iff_grammar`).

Between the tokens and the trees stand the data of a text.  `Groups ts ds` says that the brackets
among the tokens `ts` group them to the data `ds`; `Datum.nest`, which keeps a stack of the open
brackets, finds them (`nest_eq_ok_iff`).  A frame of that stack asks for a closing bracket of its
own kind and hands the group to the frame below, which is what `Closes` says. -/

namespace FormLower

open Grammar

/-! ### Data of tokens -/

/-- The data that tokens are grouped to by their brackets. -/
inductive Groups : List Token → List Datum → Prop
  | nil : Groups [] []
  | string {v : String} {e : Extent} {ts : List Token} {ds : List Datum} :
      Groups ts ds → Groups (⟨.string v, e⟩ :: ts) (.string v e :: ds)
  | atom {w : String} {e : Extent} {ts : List Token} {ds : List Datum} :
      Groups ts ds → Groups (⟨.atom w, e⟩ :: ts) (.atom w e :: ds)
  | group {b : Bracket} {e e' : Extent} {inner ts : List Token} {items ds : List Datum} :
      Groups inner items → Groups ts ds →
      Groups (⟨.opening b, e⟩ :: inner ++ ⟨.closing b, e'⟩ :: ts)
        (.group b items ⟨e.start, e'.stop⟩ :: ds)

/-- What is left of the tokens when some brackets are open: data up to the closing bracket of the
innermost one, and so on outwards. -/
def Closes : List OpenBracket → List Datum → List Token → List Datum → Prop
  | [], items, ts, ds => ∃ more, Groups ts more ∧ ds = items.reverse ++ more
  | frame :: stack, items, ts, ds => ∃ inner more e rest,
      ts = inner ++ ⟨.closing frame.bracket, e⟩ :: rest ∧ Groups inner more ∧
      Closes stack (.group frame.bracket (items.reverse ++ more) ⟨frame.start, e.stop⟩ ::
        frame.before) rest ds

/-- A datum that is complete may be counted among the tokens still to come. -/
theorem Closes.prepend {stack : List OpenBracket} {items : List Datum} (pre : List Token)
    {rest : List Token} {d : Datum} {ds : List Datum}
    (hpre : ∀ {ts more}, Groups ts more → Groups (pre ++ ts) (d :: more))
    (h : Closes stack (d :: items) rest ds) : Closes stack items (pre ++ rest) ds := by
  cases stack with
  | nil =>
      obtain ⟨more, hmore, rfl⟩ := h
      exact ⟨d :: more, hpre hmore, by simp⟩
  | cons frame stack =>
      obtain ⟨inner, more, e, tail, rfl, hmore, hclose⟩ := h
      refine ⟨pre ++ inner, d :: more, e, tail, by simp, hpre hmore, ?_⟩
      simpa using hclose

/-- Grouping that succeeds closes every open bracket. -/
theorem closes_of_nest {stop : Position} {stack : List OpenBracket} {items : List Datum}
    {ts : List Token} {ds : List Datum} (h : Datum.nest stop stack items ts = .ok ds) :
    Closes stack items ts ds := by
  fun_induction Datum.nest stop stack items ts with
  | case1 items =>
      cases h
      exact ⟨[], .nil, by simp⟩
  | case2 => cases h
  | case3 stack items b e ts ih =>
      obtain ⟨inner, more, e', rest, rfl, hmore, hclose⟩ := ih h
      have hgroup := Closes.prepend (⟨.opening b, e⟩ :: inner ++ [⟨.closing b, e'⟩])
        (fun hts => by simpa using Groups.group hmore hts) hclose
      simpa using hgroup
  | case4 => cases h
  | case5 frame stack items e ts ih =>
      exact ⟨[], [], e, ts, rfl, .nil, by simpa using ih h⟩
  | case6 => cases h
  | case7 stack items v e ts ih => exact Closes.prepend [⟨.string v, e⟩] .string (ih h)
  | case8 stack items w e ts ih => exact Closes.prepend [⟨.atom w, e⟩] .atom (ih h)
  | case9 => cases h

/-- Grouping goes on after a complete datum with that datum added. -/
theorem nest_append {ts : List Token} {ds : List Datum} (h : Groups ts ds) :
    ∀ (stop : Position) (stack : List OpenBracket) (items : List Datum) (rest : List Token),
      Datum.nest stop stack items (ts ++ rest) =
        Datum.nest stop stack (ds.reverse ++ items) rest := by
  induction h with
  | nil => exact fun _ _ _ _ => rfl
  | string _ ih =>
      intro stop stack items rest
      rw [List.cons_append, Datum.nest, ih]
      simp
  | atom _ ih =>
      intro stop stack items rest
      rw [List.cons_append, Datum.nest, ih]
      simp
  | @group b e e' inner ts items ds _ _ ihinner ih =>
      intro stop stack before rest
      have hopen : ∀ tail, Datum.nest stop stack before (⟨.opening b, e⟩ :: tail) =
          Datum.nest stop (⟨b, e.start, before⟩ :: stack) [] tail := by
        intro tail
        rw [Datum.nest]
      rw [List.append_assoc, List.cons_append, hopen, ihinner, List.cons_append, Datum.nest,
        if_pos rfl, ih]
      simp

/-- **Grouping by brackets** succeeds on the tokens whose brackets pair up. -/
theorem nest_eq_ok_iff {stop : Position} {ts : List Token} {ds : List Datum} :
    Datum.nest stop [] [] ts = .ok ds ↔ Groups ts ds := by
  constructor
  · intro h
    obtain ⟨more, hmore, rfl⟩ := closes_of_nest h
    exact hmore
  · intro h
    have hnest := nest_append h stop [] [] []
    rw [List.append_nil, List.append_nil] at hnest
    rw [hnest, Datum.nest, List.reverse_reverse]

/-! ### Trees of data -/

/-- What holds of data as far as they are read holds of all data.  The head of a call is no datum
that is read. -/
@[elab_as_elim]
theorem Datum.reading_induction {motive : List Datum → Prop} (nil : motive [])
    (atom : ∀ w e ds, motive ds → motive (.atom w e :: ds))
    (string : ∀ v e ds, motive ds → motive (.string v e :: ds))
    (list : ∀ items e ds, motive items → motive ds → motive (.group .square items e :: ds))
    (empty : ∀ e ds, motive ds → motive (.group .round [] e :: ds))
    (call : ∀ d items e ds, motive items → motive ds →
      motive (.group .round (d :: items) e :: ds)) :
    ∀ ds, motive ds
  | [] => nil
  | .atom w e :: ds => atom w e ds (reading_induction nil atom string list empty call ds)
  | .string v e :: ds => string v e ds (reading_induction nil atom string list empty call ds)
  | .group .square items e :: ds =>
      list items e ds (reading_induction nil atom string list empty call items)
        (reading_induction nil atom string list empty call ds)
  | .group .round [] e :: ds => empty e ds (reading_induction nil atom string list empty call ds)
  | .group .round (d :: items) e :: ds =>
      call d items e ds (reading_induction nil atom string list empty call items)
        (reading_induction nil atom string list empty call ds)

namespace Script

variable {s : Script} {ss : List Source} {t : Source}

theorem trees_cons_eq_ok_iff {d : Datum} {ds : List Datum} :
    s.trees (d :: ds) = .ok ss ↔
      ∃ t rest, s.tree d = .ok t ∧ s.trees ds = .ok rest ∧ ss = t :: rest := by
  rw [trees]
  cases s.tree d with
  | error e => simp [bind, Except.bind]
  | ok t => cases s.trees ds <;> simp [bind, Except.bind, eq_comm]

theorem tree_atom_eq_ok_iff {w : String} {e : Extent} :
    s.tree (.atom w e) = .ok t ↔ ∃ v, AtomLeaf w v ∧ t = .leaf v (e.inFile s.name) := by
  rw [tree, leaf]
  cases hv : Leaf.ofAtom? w with
  | none =>
      simp only [reduceCtorEq, false_iff]
      rintro ⟨v, hleaf, -⟩
      rw [ofAtom?_eq_some_iff.mpr hleaf] at hv
      cases hv
  | some v =>
      constructor
      · intro h
        cases h
        exact ⟨v, ofAtom?_eq_some_iff.mp hv, rfl⟩
      · rintro ⟨v', hleaf, rfl⟩
        rw [ofAtom?_eq_some_iff.mpr hleaf] at hv
        cases hv
        rfl

theorem tree_list_eq_ok_iff {items : List Datum} {e : Extent} :
    s.tree (.group .square items e) = .ok t ↔
      ∃ es, s.trees items = .ok es ∧ t = .list es (e.inFile s.name) := by
  rw [tree]
  cases s.trees items <;> simp [bind, Except.bind, eq_comm]

theorem head_eq_ok_iff {d : Datum} {h : String} :
    s.head d = .ok h ↔ ∃ e, d = .atom h e ∧ IsSymbol h := by
  cases d with
  | atom w e =>
      rw [head]
      split
      · next hw =>
          constructor
          · intro heq
            cases heq
            exact ⟨e, rfl, isSymbol_iff.mp hw⟩
          · rintro ⟨e', heq, -⟩
            cases heq
            rfl
      · next hw =>
          simp only [reduceCtorEq, false_iff]
          rintro ⟨e', heq, hsymbol⟩
          cases heq
          exact hw (isSymbol_iff.mpr hsymbol)
  | string v e => simp [head]
  | group b items e => simp [head]

theorem tree_call_eq_ok_iff {items : List Datum} {e : Extent} :
    s.tree (.group .round items e) = .ok t ↔
      ∃ h e' rest as, items = .atom h e' :: rest ∧ IsSymbol h ∧ s.trees rest = .ok as ∧
        t = .call h as (e.inFile s.name) := by
  cases items with
  | nil => simp [tree]
  | cons first rest =>
      rw [tree]
      constructor
      · intro heq
        cases hhead : s.head first with
        | error err => simp [hhead, bind, Except.bind] at heq
        | ok h =>
            obtain ⟨e', rfl, hsymbol⟩ := head_eq_ok_iff.mp hhead
            cases hargs : s.trees rest with
            | error err => simp [hhead, hargs, bind, Except.bind] at heq
            | ok as =>
                simp only [hhead, hargs, bind, Except.bind, Except.ok.injEq] at heq
                exact ⟨h, e', rest, as, rfl, hsymbol, hargs, heq.symm⟩
      · rintro ⟨h, e', rest', as, heq, hsymbol, hargs, rfl⟩
        cases heq
        simp [head_eq_ok_iff.mpr ⟨e', rfl, hsymbol⟩, hargs, bind, Except.bind]

/-- Among the trees of a whole group the head of a call is a leaf. -/
theorem trees_head_cons {h : String} {rest : List Datum} {as : List Source} (hsymbol : IsSymbol h)
    (has : s.trees rest = .ok as) (e : Extent) :
    s.trees (.atom h e :: rest) = .ok (.leaf (.symbol h) (e.inFile s.name) :: as) := by
  have hatom : s.tree (.atom h e) = .ok (.leaf (.symbol h) (e.inFile s.name)) :=
    tree_atom_eq_ok_iff.mpr ⟨_, .symbol hsymbol, rfl⟩
  exact trees_cons_eq_ok_iff.mpr ⟨_, as, hatom, has, rfl⟩

/-! ### Trees and what they denote -/

/-- The trees that are read from data are the ones that the tokens of the data denote. -/
theorem denotes_of_trees {ts : List Token} {ds : List Datum} (h : Groups ts ds) :
    ∀ {ss}, s.trees ds = .ok ss → Denotes (lexemes ts) (Source.eraseAll ss) := by
  induction h with
  | nil =>
      intro ss hss
      rw [trees] at hss
      cases hss
      exact .nil
  | string _ ih =>
      intro ss hss
      obtain ⟨t, rest, ht, hrest, rfl⟩ := trees_cons_eq_ok_iff.mp hss
      rw [tree] at ht
      cases ht
      exact .string (ih hrest)
  | atom _ ih =>
      intro ss hss
      obtain ⟨t, rest, ht, hrest, rfl⟩ := trees_cons_eq_ok_iff.mp hss
      obtain ⟨v, hv, rfl⟩ := tree_atom_eq_ok_iff.mp ht
      exact .atom hv (ih hrest)
  | @group b e e' inner ts items ds hinner _ ihinner ih =>
      intro ss hss
      obtain ⟨t, rest, ht, hrest, rfl⟩ := trees_cons_eq_ok_iff.mp hss
      have hls : lexemes (⟨.opening b, e⟩ :: inner ++ ⟨.closing b, e'⟩ :: ts) =
          .opening b :: lexemes inner ++ .closing b :: lexemes ts := by
        simp [lexemes]
      rw [hls]
      cases b with
      | square =>
          obtain ⟨es, hes, rfl⟩ := tree_list_eq_ok_iff.mp ht
          exact .list (ihinner hes) (ih hrest)
      | round =>
          obtain ⟨h, e'', items', as, rfl, hsymbol, has, rfl⟩ := tree_call_eq_ok_iff.mp ht
          cases hinner with
          | atom hinner' =>
              cases ihinner (trees_head_cons hsymbol has e'') with
              | atom _ hargs => exact .call hsymbol hargs (ih hrest)

/-- Tokens whose lexemes are a bracketed group are that group. -/
theorem exists_group_tokens {ts : List Token} {b : Bracket} {inner ls : List Lexeme}
    (h : lexemes ts = .opening b :: inner ++ .closing b :: ls) :
    ∃ e us e' vs, ts = ⟨.opening b, e⟩ :: us ++ ⟨.closing b, e'⟩ :: vs ∧ lexemes us = inner ∧
      lexemes vs = ls := by
  obtain ⟨⟨l, e⟩, ts, rfl, rfl, htail⟩ := List.map_eq_cons_iff.mp h
  obtain ⟨us, vs, rfl, hinner, hvs⟩ := List.map_eq_append_iff.mp htail
  obtain ⟨⟨l, e'⟩, vs, rfl, rfl, hrest⟩ := List.map_eq_cons_iff.mp hvs
  exact ⟨e, us, e', vs, rfl, hinner, hrest⟩

/-- Tokens that denote trees are grouped to data from which those trees are read. -/
theorem trees_of_denotes (s : Script) {ls : List Lexeme} {g : List Source} (h : Denotes ls g) :
    ∀ {ts}, lexemes ts = ls →
      ∃ ds ss, Groups ts ds ∧ s.trees ds = .ok ss ∧ Source.eraseAll ss = g := by
  induction h with
  | nil =>
      intro ts hts
      obtain rfl : ts = [] := List.map_eq_nil_iff.mp hts
      exact ⟨[], [], .nil, by rw [trees], rfl⟩
  | @string v ls ss _ ih =>
      intro ts hts
      obtain ⟨⟨l, e⟩, ts, rfl, rfl, rfl⟩ := List.map_eq_cons_iff.mp hts
      obtain ⟨ds, ss, hgroups, hss, rfl⟩ := ih rfl
      refine ⟨_, .leaf (.string v) (e.inFile s.name) :: ss, .string hgroups, ?_, rfl⟩
      exact trees_cons_eq_ok_iff.mpr ⟨_, ss, by rw [tree], hss, rfl⟩
  | @atom w v ls ss hv _ ih =>
      intro ts hts
      obtain ⟨⟨l, e⟩, ts, rfl, rfl, rfl⟩ := List.map_eq_cons_iff.mp hts
      obtain ⟨ds, ss, hgroups, hss, rfl⟩ := ih rfl
      refine ⟨_, .leaf v (e.inFile s.name) :: ss, .atom hgroups, ?_, rfl⟩
      exact trees_cons_eq_ok_iff.mpr ⟨_, ss, tree_atom_eq_ok_iff.mpr ⟨v, hv, rfl⟩, hss, rfl⟩
  | list _ _ ihinner ih =>
      intro ts hts
      obtain ⟨e, us, e', vs, rfl, hus, hvs⟩ := exists_group_tokens hts
      obtain ⟨items, es, hinner, hes, rfl⟩ := ihinner hus
      obtain ⟨ds, ss, hgroups, hss, rfl⟩ := ih hvs
      refine ⟨_, .list es (Extent.inFile s.name ⟨e.start, e'.stop⟩) :: ss,
        .group hinner hgroups, ?_, rfl⟩
      exact trees_cons_eq_ok_iff.mpr ⟨_, ss, tree_list_eq_ok_iff.mpr ⟨es, hes, rfl⟩, hss, rfl⟩
  | @call h inner ls as ss hsymbol _ _ ihinner ih =>
      intro ts hts
      obtain ⟨e, us, e', vs, rfl, hus, hvs⟩ := exists_group_tokens hts
      obtain ⟨⟨l, e''⟩, us, rfl, rfl, hargs⟩ := List.map_eq_cons_iff.mp hus
      obtain ⟨items, as, hinner, has, rfl⟩ := ihinner hargs
      obtain ⟨ds, ss, hgroups, hss, rfl⟩ := ih hvs
      refine ⟨_, .call h as (Extent.inFile s.name ⟨e.start, e'.stop⟩) :: ss,
        .group (.atom (e := e'') hinner) hgroups, ?_, rfl⟩
      refine trees_cons_eq_ok_iff.mpr ⟨_, ss, ?_, hss, rfl⟩
      exact tree_call_eq_ok_iff.mpr ⟨h, e'', items, as, rfl, hsymbol, has, rfl⟩

end Script

/-! ### Lexemes that denote trees -/

namespace Grammar

theorem headsNamed_cons {l : Lexeme} {ls : List Lexeme} :
    HeadsNamed (l :: ls) ↔
      (l = .opening .round → ∃ w rest, ls = .atom w :: rest ∧ IsSymbol w) ∧ HeadsNamed ls := by
  constructor
  · intro h
    refine ⟨?_, fun after hafter => h after (hafter.trans (List.suffix_cons l ls))⟩
    rintro rfl
    exact h ls List.suffix_rfl
  · rintro ⟨hhead, htail⟩ after hafter
    rcases List.suffix_cons_iff.mp hafter with heq | hsuffix
    · cases heq
      exact hhead rfl
    · exact htail after hsuffix

/-- A head does not reach beyond a closing bracket. -/
theorem headsNamed_append_closing {inner ls : List Lexeme} {b : Bracket} :
    HeadsNamed (inner ++ .closing b :: ls) ↔ HeadsNamed inner ∧ HeadsNamed ls := by
  induction inner with
  | nil =>
      have hnil : HeadsNamed [] := fun after hafter => by simp at hafter
      simp [headsNamed_cons, hnil]
  | cons l inner ih =>
      rw [List.cons_append, headsNamed_cons, headsNamed_cons, ih, and_assoc]
      refine and_congr_left fun _ => imp_congr_right fun _ => ?_
      cases inner <;> simp

theorem integersFit_append {ls ms : List Lexeme} :
    IntegersFit (ls ++ ms) ↔ IntegersFit ls ∧ IntegersFit ms := by
  constructor
  · intro h
    exact ⟨fun w i hw => h w i (List.mem_append_left _ hw),
      fun w i hw => h w i (List.mem_append_right _ hw)⟩
  · rintro ⟨hls, hms⟩ w i hw
    rcases List.mem_append.mp hw with hw | hw
    · exact hls w i hw
    · exact hms w i hw

theorem integersFit_cons {l : Lexeme} {ls : List Lexeme} :
    IntegersFit (l :: ls) ↔
      (∀ w i, l = .atom w → IntegerText w.toList i → -2 ^ 63 ≤ i ∧ i < 2 ^ 63) ∧
        IntegersFit ls := by
  rw [← List.singleton_append, integersFit_append]
  refine and_congr_left fun _ => ?_
  simp only [IntegersFit, List.mem_singleton, eq_comm]

/-- What denotes trees is well formed in every respect. -/
theorem Denotes.wellFormed {ls : List Lexeme} {ss : List Source} (h : Denotes ls ss) :
    Balanced ls ∧ HeadsNamed ls ∧ IntegersFit ls := by
  induction h with
  | nil => exact ⟨.nil, fun after hafter => by simp at hafter, fun w i hw => by simp at hw⟩
  | string _ ih =>
      obtain ⟨hb, hh, hi⟩ := ih
      exact ⟨.string hb, headsNamed_cons.mpr ⟨by simp, hh⟩, integersFit_cons.mpr ⟨by simp, hi⟩⟩
  | atom hv _ ih =>
      obtain ⟨hb, hh, hi⟩ := ih
      refine ⟨.atom hb, headsNamed_cons.mpr ⟨by simp, hh⟩, integersFit_cons.mpr ⟨?_, hi⟩⟩
      intro w i heq hint
      cases heq
      exact hv.integer_fits hint
  | list _ _ ihinner ih =>
      obtain ⟨hb, hh, hi⟩ := ihinner
      obtain ⟨hb', hh', hi'⟩ := ih
      refine ⟨.group hb hb', ?_, ?_⟩
      · exact headsNamed_cons.mpr ⟨by simp, headsNamed_append_closing.mpr ⟨hh, hh'⟩⟩
      · refine integersFit_cons.mpr ⟨by simp, integersFit_append.mpr ⟨hi, ?_⟩⟩
        exact integersFit_cons.mpr ⟨by simp, hi'⟩
  | @call head inner ls as ss hsymbol _ _ ihinner ih =>
      obtain ⟨hb, hh, hi⟩ := ihinner
      obtain ⟨hb', hh', hi'⟩ := ih
      refine ⟨.group (.atom hb) hb', ?_, ?_⟩
      · refine headsNamed_cons.mpr ⟨fun _ => ⟨head, _, rfl, hsymbol⟩, ?_⟩
        exact headsNamed_cons.mpr ⟨by simp, headsNamed_append_closing.mpr ⟨hh, hh'⟩⟩
      · refine integersFit_cons.mpr ⟨by simp, integersFit_cons.mpr ⟨?_, ?_⟩⟩
        · intro w i heq hint
          cases heq
          exact absurd (.inl ⟨i, hint⟩) hsymbol.not_number
        · exact integersFit_append.mpr ⟨hi, integersFit_cons.mpr ⟨by simp, hi'⟩⟩

/-- What is well formed in every respect denotes trees. -/
theorem Balanced.denotes {ls : List Lexeme} (h : Balanced ls) :
    HeadsNamed ls → IntegersFit ls → ∃ ss, Denotes ls ss := by
  induction h with
  | nil => exact fun _ _ => ⟨[], .nil⟩
  | string _ ih =>
      intro hh hi
      obtain ⟨ss, hss⟩ := ih (headsNamed_cons.mp hh).2 (integersFit_cons.mp hi).2
      exact ⟨_, .string hss⟩
  | @atom w ls _ ih =>
      intro hh hi
      obtain ⟨hw, hi⟩ := integersFit_cons.mp hi
      obtain ⟨v, hv⟩ := exists_atomLeaf fun i => hw w i rfl
      obtain ⟨ss, hss⟩ := ih (headsNamed_cons.mp hh).2 hi
      exact ⟨_, .atom hv hss⟩
  | @group b inner ls _ _ ihinner ih =>
      intro hh hi
      rw [List.cons_append, headsNamed_cons, headsNamed_append_closing] at hh
      rw [List.cons_append, integersFit_cons, integersFit_append, integersFit_cons] at hi
      obtain ⟨hhead, hh, hh'⟩ := hh
      obtain ⟨-, hi, -, hi'⟩ := hi
      obtain ⟨es, hes⟩ := ihinner hh hi
      obtain ⟨ss, hss⟩ := ih hh' hi'
      cases b with
      | square => exact ⟨_, .list hes hss⟩
      | round =>
          -- the head is a leaf among the trees of the whole group
          obtain ⟨w, rest, heq, hsymbol⟩ := hhead rfl
          cases hes with
          | nil => cases heq
          | string _ => cases heq
          | atom _ hargs =>
              cases heq
              exact ⟨_, .call hsymbol hargs hss⟩
          | list _ _ => cases heq
          | call _ _ _ => cases heq

/-- Lexemes denote trees exactly when they are well formed in every respect. -/
theorem exists_denotes_iff {ls : List Lexeme} :
    (∃ ss, Denotes ls ss) ↔ Balanced ls ∧ HeadsNamed ls ∧ IntegersFit ls := by
  constructor
  · rintro ⟨ss, hss⟩
    exact hss.wellFormed
  · rintro ⟨hb, hh, hi⟩
    exact hb.denotes hh hi

end Grammar

/-! ### Scripts -/

theorem Groups.ne_strayQuote {ts : List Token} {ds : List Datum} (h : Groups ts ds) :
    ∀ t ∈ ts, t.lexeme ≠ .strayQuote := by
  induction h with
  | nil => simp
  | string _ ih => exact List.forall_mem_cons.mpr ⟨by simp, ih⟩
  | atom _ ih => exact List.forall_mem_cons.mpr ⟨by simp, ih⟩
  | group _ _ ihinner ih =>
      refine List.forall_mem_cons.mpr ⟨by simp, List.forall_mem_append.mpr ⟨ihinner, ?_⟩⟩
      exact List.forall_mem_cons.mpr ⟨by simp, ih⟩

theorem ofText_eq_ok_iff {text : List Char} {ds : List Datum} :
    Datum.ofText text = .ok ds ↔ ∃ ts, Splits text ts ∧ Groups ts ds := by
  constructor
  · intro hdata
    have hgroups := nest_eq_ok_iff.mp hdata
    exact ⟨_, splits_iff.mpr ⟨rfl, hgroups.ne_strayQuote⟩, hgroups⟩
  · rintro ⟨ts, hsplits, hgroups⟩
    rw [Datum.ofText, tokens_of_splits hsplits, nest_eq_ok_iff.mpr hgroups]

namespace Script

theorem read_eq_ok_iff {s : Script} {forest : List Source} :
    s.read = .ok forest ↔
      ∃ ts ds, Splits s.content.toList ts ∧ Groups ts ds ∧ s.trees ds = .ok forest := by
  rw [read]
  constructor
  · intro h
    cases hdata : Datum.ofText s.content.toList with
    | error f => simp [hdata] at h
    | ok ds =>
        simp only [hdata] at h
        obtain ⟨ts, hsplits, hgroups⟩ := ofText_eq_ok_iff.mp hdata
        exact ⟨ts, ds, hsplits, hgroups, h⟩
  · rintro ⟨ts, ds, hsplits, hgroups, htrees⟩
    rw [ofText_eq_ok_iff.mpr ⟨ts, hsplits, hgroups⟩]
    exact htrees

/-- Reading gives trees that are `g` up to places exactly when the text denotes `g`. -/
theorem read_denotes_iff {s : Script} {g : List Source} :
    (∃ forest, s.read = .ok forest ∧ Source.eraseAll forest = g) ↔
      ∃ ts, Splits s.content.toList ts ∧ Denotes (lexemes ts) g := by
  constructor
  · rintro ⟨forest, hread, rfl⟩
    obtain ⟨ts, ds, hsplits, hgroups, htrees⟩ := read_eq_ok_iff.mp hread
    exact ⟨ts, hsplits, denotes_of_trees hgroups htrees⟩
  · rintro ⟨ts, hsplits, hdenotes⟩
    obtain ⟨ds, forest, hgroups, htrees, herase⟩ := trees_of_denotes s hdenotes rfl
    exact ⟨forest, read_eq_ok_iff.mpr ⟨ts, ds, hsplits, hgroups, htrees⟩, herase⟩

/-- **The reader accepts the surface grammar and nothing else.**  A text is read exactly when it
splits into tokens whose brackets pair up, whose calls begin with a symbol and whose integers have
64 bits; and what is read are, but for their places, the trees that its tokens denote. -/
theorem read_iff_grammar (s : Script) :
    ((∃ forest, s.read = .ok forest) ↔
      ∃ ts, Splits s.content.toList ts ∧ Balanced (lexemes ts) ∧ HeadsNamed (lexemes ts) ∧
        IntegersFit (lexemes ts)) ∧
    ∀ g, (∃ forest, s.read = .ok forest ∧ Source.eraseAll forest = g) ↔
      ∃ ts, Splits s.content.toList ts ∧ Denotes (lexemes ts) g := by
  refine ⟨?_, fun g => read_denotes_iff⟩
  constructor
  · rintro ⟨forest, hread⟩
    obtain ⟨ts, hsplits, hdenotes⟩ := read_denotes_iff.mp ⟨forest, hread, rfl⟩
    exact ⟨ts, hsplits, exists_denotes_iff.mp ⟨_, hdenotes⟩⟩
  · rintro ⟨ts, hsplits, hformed⟩
    obtain ⟨g, hdenotes⟩ := exists_denotes_iff.mpr hformed
    obtain ⟨forest, hread, -⟩ := read_denotes_iff.mpr ⟨ts, hsplits, hdenotes⟩
    exact ⟨forest, hread⟩

end Script

end FormLower
