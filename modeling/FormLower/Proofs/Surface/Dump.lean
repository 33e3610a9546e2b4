import FormLower.Proofs.Numeral.Notation
import FormLower.Proofs.Surface.Spans
import FormLower.Proofs.Text.Quoting

/-! # Reading what is written

A tree is written in the surface language, and what is written is scanned to tokens that denote the
tree again: `Writes cs g` says this of characters, whatever follows them.  There are two exceptions.
An infinite or undefined number is written as a word, so that a symbol is read in its place
(`Source.reread`).  And a quoted string may contain an escape that the surface language does not
have; then the quote before it starts no complete string, and nothing is read (`Spoils`).
`Script.read_lines_iff` is about trees that are written on a line each. -/

namespace FormLower

open Grammar

/-! ### Quoted characters -/

/-- Whether a character is quoted as itself or by an escape of one letter that can be read. -/
def IsPlain (c : Char) : Prop :=
  quoteChar c = [c] ∨
    quoteChar c ∈ [['\\', '"'], ['\\', '\\'], ['\\', 'n'], ['\\', 'r'], ['\\', 't']]

/-- Whether a character is quoted by its number, or as the zero character. -/
def IsCoded (c : Char) : Prop := quoteChar c = ['\\', '0'] ∨ quoteChar c = codePointEscape c

/-- What is written for a character: itself, an escape that can be read, or one that cannot. -/
theorem quoteChar_cases (c : Char) :
    (c ≠ '"' ∧ c ≠ '\\' ∧ quoteChar c = [c]) ∨ (∃ e, (e, c) ∈ escapes ∧ quoteChar c = ['\\', e]) ∨
      IsCoded c := by
  rcases quoteChar_forms c with hself | ⟨e, he, hletter⟩ | hcode
  · exact .inl hself
  · by_cases hzero : e = '0'
    · exact .inr (.inr (.inl (hzero ▸ hletter)))
    · refine .inr (.inl ⟨e, ?_, hletter⟩)
      simp only [escapeLetters, List.mem_cons, Prod.mk.injEq, hzero, false_and, false_or] at he
      simp only [escapes, List.mem_cons, Prod.mk.injEq]
      tauto
  · exact .inr (.inr (.inr hcode))

/-- A code is an escape that the surface language does not have. -/
theorem IsCoded.exists_escape {c : Char} (h : IsCoded c) :
    ∃ e cs, quoteChar c = '\\' :: e :: cs ∧ ∀ d, (e, d) ∉ escapes := by
  cases h with
  | inl hzero => exact ⟨'0', [], hzero, by simp [escapes]⟩
  | inr hcode => exact ⟨'u', _, hcode, by simp [escapes]⟩

theorem not_isCoded_iff {c : Char} : ¬ IsCoded c ↔ IsPlain c := by
  constructor
  · intro h
    rcases quoteChar_cases c with ⟨-, -, hself⟩ | ⟨e, he, hescape⟩ | hcoded
    · exact .inl hself
    · refine .inr ?_
      rw [hescape]
      simp only [escapes, List.mem_cons, Prod.mk.injEq, List.not_mem_nil, or_false] at he
      rcases he with ⟨rfl, -⟩ | ⟨rfl, -⟩ | ⟨rfl, -⟩ | ⟨rfl, -⟩ | ⟨rfl, -⟩ <;> simp
    · exact absurd hcoded h
  · intro h hcoded
    obtain ⟨e, cs, hquote, he⟩ := hcoded.exists_escape
    unfold IsPlain at h
    rw [hquote] at h
    rcases h with hself | hmem
    · simp at hself
    · simp only [List.mem_cons, List.cons.injEq, List.not_mem_nil, or_false, true_and] at hmem
      rcases hmem with ⟨rfl, -⟩ | ⟨rfl, -⟩ | ⟨rfl, -⟩ | ⟨rfl, -⟩ | ⟨rfl, -⟩ <;> simp [escapes] at he

theorem quoted_flatMap {value : List Char} (h : ∀ c ∈ value, IsPlain c) :
    Quoted (value.flatMap quoteChar) value := by
  induction value with
  | nil => exact .nil
  | cons c value ih =>
      obtain ⟨hc, hvalue⟩ := List.forall_mem_cons.mp h
      rw [List.flatMap_cons]
      rcases quoteChar_cases c with ⟨hquote, hslash, hself⟩ | ⟨e, he, hescape⟩ | hcoded
      · rw [hself]
        exact .plain hquote hslash (ih hvalue)
      · rw [hescape]
        exact .escape he (ih hvalue)
      · exact absurd hcoded (not_isCoded_iff.mpr hc)

theorem CompletesString.of_plain {c : Char} {cs : List Char} (hquote : c ≠ '"') (hslash : c ≠ '\\')
    (h : CompletesString (c :: cs)) : CompletesString cs := by
  obtain ⟨raw, value, rest, hraw, heq⟩ := h
  cases hraw with
  | nil => exact absurd (List.cons.inj heq).1 hquote
  | @plain _ raw value _ _ hraw => exact ⟨raw, value, rest, hraw, (List.cons.inj heq).2⟩
  | escape _ _ => exact absurd (List.cons.inj heq).1 hslash

theorem CompletesString.of_escape {e : Char} {cs : List Char}
    (h : CompletesString ('\\' :: e :: cs)) : (∃ d, (e, d) ∈ escapes) ∧ CompletesString cs := by
  obtain ⟨raw, value, rest, hraw, heq⟩ := h
  cases hraw with
  | nil => exact absurd (List.cons.inj heq).1 (by decide)
  | plain _ hslash _ => exact absurd (List.cons.inj heq).1.symm hslash
  | @escape c d raw value he hraw =>
      obtain ⟨rfl, htail⟩ := List.cons.inj (List.cons.inj heq).2
      exact ⟨⟨d, he⟩, raw, value, rest, hraw, htail⟩

/-- A quoted string that contains a code is never complete. -/
theorem not_completesString {value : List Char} (h : ¬ ∀ c ∈ value, IsPlain c) (tail : List Char) :
    ¬ CompletesString (value.flatMap quoteChar ++ tail) := by
  induction value with
  | nil => exact absurd (by simp) h
  | cons c value ih =>
      rw [List.flatMap_cons, List.append_assoc]
      intro hcompletes
      -- The string goes on up to the first code, where no escape can be read.
      by_cases hc : IsCoded c
      · obtain ⟨e, cs, hquote, he⟩ := hc.exists_escape
        rw [hquote] at hcompletes
        obtain ⟨⟨d, hd⟩, -⟩ := CompletesString.of_escape hcompletes
        exact he d hd
      · have hvalue : ¬ ∀ c ∈ value, IsPlain c := by
          intro hvalue
          exact h (List.forall_mem_cons.mpr ⟨not_isCoded_iff.mp hc, hvalue⟩)
        rcases quoteChar_cases c with ⟨hquote, hslash, hself⟩ | ⟨e, -, hescape⟩ | hcoded
        · rw [hself] at hcompletes
          exact ih hvalue (CompletesString.of_plain hquote hslash hcompletes)
        · rw [hescape] at hcompletes
          exact ih hvalue (CompletesString.of_escape hcompletes).2
        · exact hc hcoded

/-! ### Written trees -/

/-- Whether a word that stands before these characters is complete. -/
def Ends (cs : List Char) : Prop := ∀ c, cs.head? = some c → ¬ IsWordChar c

theorem ends_cons {c : Char} (hc : ¬ IsWordChar c) (cs : List Char) : Ends (c :: cs) := by
  intro d hd
  exact Option.some.inj hd ▸ hc

theorem Ends.append {cs ds : List Char} (h : Ends cs) (h' : Ends ds) : Ends (cs ++ ds) := by
  cases cs with
  | nil => exact h'
  | cons c cs => exact ends_cons (h c rfl) (cs ++ ds)

/-- Characters that are scanned to tokens which denote trees, wherever they stand. -/
def Writes (cs : List Char) (g : List Source) : Prop :=
  ∀ (p : Position) (rest : List Char), Ends rest →
    ∃ ts q, Scans p (cs ++ rest) ts q rest ∧ Denotes (lexemes ts) g

/-- Characters with a quote among them that starts no complete string, whatever follows. -/
def Spoils (cs : List Char) : Prop :=
  ∀ (p : Position) (rest : List Char),
    ∃ ts q tail, Scans p (cs ++ rest) ts q ('"' :: tail) ∧ ¬ CompletesString tail

theorem Grammar.Denotes.append {ls ms : List Lexeme} {g g' : List Source} (h : Denotes ls g)
    (h' : Denotes ms g') : Denotes (ls ++ ms) (g ++ g') := by
  induction h with
  | nil => exact h'
  | string _ ih => exact .string ih
  | atom hv _ ih => exact .atom hv ih
  | list hinner _ _ ih => simpa using Denotes.list hinner ih
  | call hh hinner _ _ ih => simpa using Denotes.call hh hinner ih

theorem Writes.append {cs ds : List Char} {g g' : List Source} (h : Writes cs g)
    (h' : Writes ds g') (hds : Ends ds) : Writes (cs ++ ds) (g ++ g') := by
  intro p rest hrest
  obtain ⟨ts, q, hscan, hdenotes⟩ := h p (ds ++ rest) (hds.append hrest)
  obtain ⟨us, r, hscan', hdenotes'⟩ := h' q rest hrest
  refine ⟨ts ++ us, r, ?_, ?_⟩
  · rw [List.append_assoc]
    exact hscan.append hscan'
  · rw [lexemes, List.map_append]
    exact hdenotes.append hdenotes'

namespace Spoils

variable {cs ds : List Char}

theorem append (h : Spoils cs) (ds : List Char) : Spoils (cs ++ ds) := by
  intro p rest
  rw [List.append_assoc]
  exact h p (ds ++ rest)

/-- What is scanned before characters that spoil does not mend them. -/
theorem prepend (cs : List Char) (h : Spoils ds)
    (hscan : ∀ p rest, ∃ ts q, Scans p (cs ++ (ds ++ rest)) ts q (ds ++ rest)) :
    Spoils (cs ++ ds) := by
  intro p rest
  obtain ⟨ts, q, hts⟩ := hscan p rest
  obtain ⟨us, r, tail, hus, htail⟩ := h q rest
  rw [List.append_assoc]
  exact ⟨ts ++ us, r, tail, hts.append hus, htail⟩

theorem ends_append (h : Spoils ds) (hds : Ends ds) (rest : List Char) : Ends (ds ++ rest) := by
  cases ds with
  | nil =>
      obtain ⟨ts, q, tail, hscan, -⟩ := h .first []
      obtain ⟨w, heq, -⟩ := hscan.exists_front
      simp at heq
  | cons c ds => exact ends_cons (hds c rfl) (ds ++ rest)

end Spoils

/-- One or more of the characters that atoms are made of. -/
def IsWord (w : List Char) : Prop := w ≠ [] ∧ ∀ c ∈ w, IsWordChar c

/-- A word that can be the head of a call: no truth value and not shaped like a number. -/
structure IsName (w : String) : Prop extends IsSymbol w where
  word : IsWord w.toList

/-- Characters that are written for trees: in their strings there is no code, or they spoil. -/
structure Renders (plain : Prop) (cs : List Char) (g : List Source) : Prop where
  writes : plain → Writes cs g
  spoils : ¬ plain → Spoils cs

namespace Renders

variable {P Q : Prop} {cs ds : List Char} {g g' : List Source}

theorem congr (h : Renders P cs g) (heq : P ↔ Q) : Renders Q cs g := propext heq ▸ h

theorem nil : Renders True [] [] :=
  ⟨fun _ p _ _ => ⟨[], p, .done, .nil⟩, fun h => absurd trivial h⟩

theorem blank {c : Char} (hc : c ∈ blanks) (h : Renders P cs g) : Renders P (c :: cs) g := by
  constructor
  · intro hplain p rest hrest
    obtain ⟨ts, q, hscan, hdenotes⟩ := h.writes hplain (p.after c) rest hrest
    exact ⟨ts, q, .blank hc hscan, hdenotes⟩
  · intro hplain
    exact (h.spoils hplain).prepend [c] fun p rest => ⟨[], p.after c, .blank hc .done⟩

/-- Trees are written one after the other when the words of the first end before the second. -/
theorem append (h : Renders P cs g) (h' : Renders Q ds g') (hds : Ends ds) :
    Renders (P ∧ Q) (cs ++ ds) (g ++ g') := by
  constructor
  · intro hplain
    exact (h.writes hplain.1).append (h'.writes hplain.2) hds
  · intro hplain
    -- If the first do not spoil, they are scanned up to the second, which do.
    by_cases hP : P
    · have hspoils := h'.spoils fun hQ => hplain ⟨hP, hQ⟩
      refine hspoils.prepend cs fun p rest => ?_
      obtain ⟨ts, q, hscan, -⟩ := h.writes hP p (ds ++ rest) (hspoils.ends_append hds rest)
      exact ⟨ts, q, hscan⟩
    · exact (h.spoils hP).append ds

theorem atom {w : String} {v : Leaf} (hw : IsWord w.toList) (hv : AtomLeaf w v) :
    Renders True w.toList [.leaf v .unknown] := by
  refine ⟨fun _ p rest hrest => ?_, fun h => absurd trivial h⟩
  refine ⟨_, _, .atom hw.1 hw.2 hrest .done, ?_⟩
  rw [String.ofList_toList]
  exact .atom hv .nil

theorem string (v : String) :
    Renders (∀ c ∈ v.toList, IsPlain c) (quote v).toList [.string v] := by
  have htext : ∀ rest, (quote v).toList ++ rest =
      '"' :: v.toList.flatMap quoteChar ++ '"' :: rest := by
    intro rest
    rw [quote, String.toList_ofList, List.append_assoc, List.singleton_append]
  constructor
  · intro hplain p rest _
    rw [htext]
    refine ⟨_, _, .string (quoted_flatMap hplain) .done, ?_⟩
    rw [String.ofList_toList]
    exact .string .nil
  · intro hplain p rest
    rw [htext]
    exact ⟨[], p, _, .done, not_completesString hplain ('"' :: rest)⟩

theorem list (h : Renders P cs g) : Renders P ('[' :: (cs ++ [']'])) [.list g .unknown] := by
  have hopen : ('[', .opening .square) ∈ brackets := by decide
  have hclose : (']', .closing .square) ∈ brackets := by decide
  constructor
  · intro hplain p rest _
    obtain ⟨ts, q, hscan, hdenotes⟩ :=
      h.writes hplain (p.after '[') (']' :: rest) (ends_cons (by decide) rest)
    rw [List.cons_append, List.append_assoc]
    refine ⟨_, _, .bracket hopen (hscan.append (.bracket hclose .done)), ?_⟩
    rw [lexemes, List.map_cons, List.map_append]
    exact .list hdenotes .nil
  · intro hplain
    refine ((h.spoils hplain).append [']']).prepend ['['] fun p rest => ?_
    exact ⟨_, _, .bracket hopen .done⟩

theorem call {w : String} (hw : IsName w) (h : Renders P cs g) (hcs : Ends cs) :
    Renders P ('(' :: (w.toList ++ (cs ++ [')']))) [.call w g .unknown] := by
  have hopen : ('(', .opening .round) ∈ brackets := by decide
  have hclose : (')', .closing .round) ∈ brackets := by decide
  have hend : ∀ rest, Ends (')' :: rest) := ends_cons (by decide)
  constructor
  · intro hplain p rest _
    obtain ⟨ts, q, hscan, hdenotes⟩ :=
      h.writes hplain ((p.after '(').afterAll w.toList) (')' :: rest) (hend rest)
    have hword := Scans.atom hw.word.1 hw.word.2 (hcs.append (hend rest))
      (hscan.append (.bracket hclose .done))
    rw [List.cons_append, List.append_assoc, List.append_assoc]
    refine ⟨_, _, .bracket hopen hword, ?_⟩
    rw [lexemes, List.map_cons, List.map_cons, List.map_append, String.ofList_toList]
    exact .call hw.toIsSymbol hdenotes .nil
  · intro hplain
    have hspoils := (h.spoils hplain).append [')']
    refine hspoils.prepend ('(' :: w.toList) fun p rest => ?_
    have hends := hspoils.ends_append (hcs.append (hend [])) rest
    exact ⟨_, _, .bracket hopen (.atom hw.word.1 hw.word.2 hends .done)⟩

end Renders

/-! ### Trees and their texts -/

/-- The leaf that is read from the text of a leaf: an infinite or undefined number becomes a
symbol. -/
def Leaf.reread : Leaf → Leaf
  | .number n => if n.isFinite then .number n else .symbol n.text
  | v => v

namespace Source

mutual

/-- The tree that is read from the text of a tree. -/
def reread : Source → Source
  | .leaf v _ => .leaf v.reread .unknown
  | .call h as _ => .call h (rereadAll as) .unknown
  | .list es _ => .list (rereadAll es) .unknown

def rereadAll : List Source → List Source
  | [] => []
  | t :: ts => t.reread :: rereadAll ts

end

theorem rereadAll_eq_map : ∀ ts : List Source, rereadAll ts = ts.map reread
  | [] => rfl
  | t :: ts => by rw [rereadAll, rereadAll_eq_map ts, List.map_cons]

/-- Whether the symbol or the head that a tree itself is written with is a name. -/
def Named : Source → Prop
  | .leaf (.symbol name) _ => IsName name
  | .call head _ _ => IsName head
  | _ => True

/-- Whether a tree is no infinite or undefined number. -/
def IsFinite : Source → Prop
  | .leaf (.number n) _ => n.isFinite = true
  | _ => True

/-- Whether a tree is no string with a character that is quoted by a code. -/
def WithoutCodes : Source → Prop
  | .leaf (.string v) _ => ∀ c ∈ v.toList, IsPlain c
  | _ => True

/-- Only infinite and undefined numbers are not read again. -/
theorem reread_eq_erase_iff (t : Source) : t.reread = t.erase ↔ ∀ k ∈ t.nodes, k.IsFinite := by
  -- What the induction gives for the trees below a call or a list.
  have hall : ∀ ts : List Source, (∀ t ∈ ts, t.reread = t.erase ↔ ∀ k ∈ t.nodes, k.IsFinite) →
      (rereadAll ts = eraseAll ts ↔ ∀ k ∈ nodesAll ts, k.IsFinite) := by
    intro ts ih
    rw [rereadAll_eq_map, eraseAll_eq_map, List.map_inj_left, nodesAll_eq_flatMap]
    simp only [List.mem_flatMap]
    constructor
    · intro h k hk
      obtain ⟨t, ht, hk⟩ := hk
      exact (ih t ht).mp (h t ht) k hk
    · intro h t ht
      exact (ih t ht).mpr fun k hk => h k ⟨t, ht, hk⟩
  induction t with
  | leaf v place =>
      cases v with
      | number n => simp [reread, erase, Leaf.reread, nodes, IsFinite]
      | symbol | string | bool => simp [reread, erase, Leaf.reread, nodes, IsFinite]
  | call head args place ih => simpa [reread, erase, nodes, IsFinite] using hall args ih
  | list elements place ih => simpa [reread, erase, nodes, IsFinite] using hall elements ih

theorem rereadAll_eq_eraseAll_iff {ts : List Source} :
    rereadAll ts = eraseAll ts ↔ ∀ k ∈ nodesAll ts, k.IsFinite := by
  simpa [reread, erase, nodes, IsFinite] using reread_eq_erase_iff (.list ts .unknown)

theorem toList_intercalate_space (s : String) (ss : List String) :
    (" ".intercalate (s :: ss)).toList = s.toList ++ ss.flatMap fun w => ' ' :: w.toList := by
  rw [String.toList_intercalate, List.map_cons]
  induction ss generalizing s with
  | nil => simp [List.intercalate]
  | cons w ss ih =>
      rw [List.map_cons, List.intercalate_cons_cons, ih, List.flatMap_cons, List.append_assoc]
      simp

end Source

theorem Grammar.AtomLeaf.numberShaped {w : String} {n : Number} (h : AtomLeaf w (.number n)) :
    NumberShaped w.toList := by
  cases h with
  | int h => exact .inl ⟨_, h⟩
  | float h _ => exact .inr h

theorem Number.isWord_text (n : Number) : IsWord n.text.toList := by
  cases hn : n.isFinite with
  | true =>
      have hshaped := (Number.atomLeaf_text hn).numberShaped
      exact (Peg.AtomRule.number hshaped).isWord (by decide)
  | false =>
      cases n with
      | int i => cases hn
      | float x =>
          cases x with
          | finite negative rank => cases hn
          | infinite negative =>
              cases negative <;> simp [IsWord, text, Layout.text, IsWordChar, blanks]
          | nan => simp [IsWord, text, Layout.text, IsWordChar, blanks]

theorem Leaf.renders (v : Leaf) (place : Place) (h : (Source.leaf v place).Named) :
    Renders (Source.leaf v place).WithoutCodes v.text.toList [.leaf v.reread .unknown] := by
  cases v with
  | symbol name => exact .atom h.word (.symbol h.toIsSymbol)
  | string v => exact .string v
  | number n =>
      refine .atom n.isWord_text ?_
      cases hn : n.isFinite with
      | true =>
          have hnumber : (Leaf.number n).reread = .number n := if_pos hn
          rw [hnumber]
          exact Number.atomLeaf_text hn
      | false =>
          have hsymbol : (Leaf.number n).reread = .symbol n.text := by simp [reread, hn]
          rw [hsymbol]
          exact .symbol (Number.isSymbol_text hn)
  | bool b =>
      cases b with
      | true => exact .atom ((Peg.AtomRule.boolean (.inl rfl)).isWord (by decide)) .yes
      | false => exact .atom ((Peg.AtomRule.boolean (.inr rfl)).isWord (by decide)) .no

namespace Source

theorem forall_mem_nodesAll_append {P : Source → Prop} {ss ts : List Source} :
    (∀ k ∈ nodesAll (ss ++ ts), P k) ↔ (∀ k ∈ nodesAll ss, P k) ∧ ∀ k ∈ nodesAll ts, P k := by
  simp only [nodesAll_eq_flatMap, List.flatMap_append, List.forall_mem_append]

end Source

/-! ### Layout -/

/-- Trees that are written with the texts of their leaves, between brackets and blanks. -/
inductive Laid : List Char → List Source → Prop
  | nil : Laid [] []
  | blank {c : Char} {cs : List Char} {g : List Source} :
      c ∈ blanks → Laid cs g → Laid (c :: cs) g
  | leaf (v : Leaf) (place : Place) : Laid v.text.toList [.leaf v place]
  | list {cs : List Char} {g : List Source} (place : Place) :
      Laid cs g → Laid ('[' :: (cs ++ [']'])) [.list g place]
  | call {cs : List Char} {g : List Source} (head : String) (place : Place) :
      Ends cs → Laid cs g → Laid ('(' :: (head.toList ++ (cs ++ [')']))) [.call head g place]
  | append {cs ds : List Char} {g g' : List Source} :
      Laid cs g → Laid ds g' → Ends ds → Laid (cs ++ ds) (g ++ g')

namespace Source

theorem ends_spaced (ts : List Source) : Ends (ts.flatMap fun t => ' ' :: t.text.toList) := by
  cases ts with
  | nil => simp [Ends]
  | cons t ts => exact ends_cons (by decide) _

theorem laid_spaced {ts : List Source} (h : ∀ t ∈ ts, Laid t.text.toList [t]) :
    Laid (ts.flatMap fun t => ' ' :: t.text.toList) ts := by
  induction ts with
  | nil => exact .nil
  | cons t ts ih =>
      obtain ⟨ht, hts⟩ := List.forall_mem_cons.mp h
      exact .append (.blank (by decide) ht) (ih hts) (ends_spaced ts)

theorem laid_texts {ts : List Source} (h : ∀ t ∈ ts, Laid t.text.toList [t]) :
    Laid (" ".intercalate (texts ts)).toList ts := by
  cases ts with
  | nil => exact .nil
  | cons t ts =>
      obtain ⟨ht, hts⟩ := List.forall_mem_cons.mp h
      rw [texts, toList_intercalate_space, texts_eq_map, List.flatMap_map]
      exact .append ht (laid_spaced hts) (ends_spaced ts)

theorem laid (t : Source) : Laid t.text.toList [t] := by
  induction t with
  | leaf v place =>
      rw [text]
      exact .leaf v place
  | call head args place ih =>
      have hcall := Laid.call head place (ends_spaced args) (laid_spaced ih)
      rw [text, String.toList_append, String.toList_append, toList_intercalate_space,
        texts_eq_map, List.flatMap_map]
      simpa using hcall
  | list elements place ih =>
      have hlist := Laid.list place (laid_texts ih)
      rw [text, String.toList_append, String.toList_append]
      exact hlist

theorem laid_lines (ts : List Source) :
    Laid (String.join (ts.map fun t => t.text ++ "\n")).toList ts := by
  rw [String.toList_join, List.flatMap_map]
  induction ts with
  | nil => exact .nil
  | cons t ts ih =>
      rw [List.flatMap_cons, String.toList_append, List.append_assoc]
      exact .append t.laid (.blank (by decide) ih) (ends_cons (by decide) _)

end Source

/-- **Trees are written as the trees that are read in their place**, unless a string spoils it. -/
theorem Laid.renders {cs : List Char} {g : List Source} (h : Laid cs g)
    (hnamed : ∀ k ∈ Source.nodesAll g, k.Named) :
    Renders (∀ k ∈ Source.nodesAll g, k.WithoutCodes) cs (Source.rereadAll g) := by
  induction h with
  | nil => exact Renders.nil.congr (by simp [Source.nodesAll])
  | blank hc _ ih => exact .blank hc (ih hnamed)
  | leaf v place =>
      have hleaf := Leaf.renders v place (hnamed _ List.mem_cons_self)
      exact hleaf.congr (by simp [Source.nodesAll, Source.nodes])
  | list place _ ih =>
      obtain ⟨-, hbelow, -⟩ := Source.forall_mem_nodesAll_cons.mp hnamed
      exact (ih hbelow).list.congr (by simp [Source.nodesAll, Source.nodes, Source.WithoutCodes])
  | call head place hends _ ih =>
      obtain ⟨hhead, hbelow, -⟩ := Source.forall_mem_nodesAll_cons.mp hnamed
      exact (Renders.call hhead (ih hbelow) hends).congr
        (by simp [Source.nodesAll, Source.nodes, Source.WithoutCodes])
  | append _ _ hends ih ih' =>
      obtain ⟨hg, hg'⟩ := Source.forall_mem_nodesAll_append.mp hnamed
      rw [Source.rereadAll_eq_map, List.map_append, ← Source.rereadAll_eq_map,
        ← Source.rereadAll_eq_map]
      exact ((ih hg).append (ih' hg') hends).congr Source.forall_mem_nodesAll_append.symm

theorem Grammar.Scans.isWord {p q : Position} {cs rest : List Char} {ts : List Token}
    (h : Scans p cs ts q rest) : ∀ t ∈ ts, ∀ w, t.lexeme = .atom w → IsWord w.toList := by
  induction h with
  | done => simp
  | blank _ _ ih => exact ih
  | comment _ _ _ ih => exact ih
  | bracket hl _ ih =>
      refine List.forall_mem_cons.mpr ⟨fun w hw => ?_, ih⟩
      obtain rfl := hw
      simp [brackets] at hl
  | string _ _ ih => exact List.forall_mem_cons.mpr ⟨by simp, ih⟩
  | atom hne hchars _ _ ih =>
      refine List.forall_mem_cons.mpr ⟨fun w hw => ?_, ih⟩
      obtain rfl := Lexeme.atom.inj hw
      rw [String.toList_ofList]
      exact ⟨hne, hchars⟩

namespace Script

/-- A text with a quote that starts no complete string is refused for its syntax. -/
theorem read_of_spoils {s : Script} (h : Spoils s.content.toList) :
    ∃ e what, s.read = .error e ∧ e.fault = .expected what := by
  obtain ⟨ts, q, tail, hscan, htail⟩ := h .first []
  rw [List.append_nil] at hscan
  have hstray := tokens_of_stray hscan htail
  rw [read]
  cases hdata : Datum.ofText s.content.toList with
  | error f => exact ⟨_, _, rfl, rfl⟩
  | ok ds =>
      obtain ⟨us, hsplits, -⟩ := ofText_eq_ok_iff.mp hdata
      obtain ⟨heq, hnone⟩ := splits_iff.mp hsplits
      rw [← heq, hstray] at hnone
      exact absurd rfl (hnone _ (List.mem_append_right ts List.mem_cons_self))

theorem read_of_writes {s : Script} {g : List Source} (h : Writes s.content.toList g) :
    ∃ forest, s.read = .ok forest ∧ Source.eraseAll forest = g := by
  obtain ⟨ts, q, hscan, hdenotes⟩ := h .first [] (by simp [Ends])
  rw [List.append_nil] at hscan
  exact read_denotes_iff.mpr ⟨ts, ⟨q, hscan⟩, hdenotes⟩

theorem named_of_groups {s : Script} {ts : List Token} {ds : List Datum} (h : Groups ts ds) :
    ∀ {ss}, (∀ t ∈ ts, ∀ w, t.lexeme = .atom w → IsWord w.toList) → s.trees ds = .ok ss →
      ∀ k ∈ Source.nodesAll ss, k.Named := by
  induction h with
  | nil =>
      intro ss _ hss
      rw [trees] at hss
      cases hss
      simp [Source.nodesAll]
  | string _ ih =>
      intro ss hwords hss
      obtain ⟨t, rest, ht, hrest, rfl⟩ := trees_cons_eq_ok_iff.mp hss
      rw [tree] at ht
      cases ht
      have hrest' := ih (List.forall_mem_cons.mp hwords).2 hrest
      exact Source.forall_mem_nodesAll_cons.mpr
        ⟨trivial, by simp [Source.children, Source.nodesAll], hrest'⟩
  | @atom w e ts ds _ ih =>
      intro ss hwords hss
      obtain ⟨t, rest, ht, hrest, rfl⟩ := trees_cons_eq_ok_iff.mp hss
      obtain ⟨v, hv, rfl⟩ := tree_atom_eq_ok_iff.mp ht
      obtain ⟨hword, hwords⟩ := List.forall_mem_cons.mp hwords
      have hself : (Source.leaf v (e.inFile s.name)).Named := by
        cases hv with
        | yes | no | int _ | float _ _ => trivial
        | symbol hsymbol => exact ⟨hsymbol, hword w rfl⟩
      exact Source.forall_mem_nodesAll_cons.mpr
        ⟨hself, by simp [Source.children, Source.nodesAll], ih hwords hrest⟩
  | @group b e e' inner ts items ds hinner _ ihinner ih =>
      intro ss hwords hss
      obtain ⟨t, rest, ht, hrest, rfl⟩ := trees_cons_eq_ok_iff.mp hss
      obtain ⟨hinwords, hwords⟩ := List.forall_mem_append.mp (List.forall_mem_cons.mp hwords).2
      have hrest' := ih (List.forall_mem_cons.mp hwords).2 hrest
      cases b with
      | square =>
          obtain ⟨es, hes, rfl⟩ := tree_list_eq_ok_iff.mp ht
          exact Source.forall_mem_nodesAll_cons.mpr ⟨trivial, ihinner hinwords hes, hrest'⟩
      | round =>
          obtain ⟨head, e'', items', as, rfl, hsymbol, has, rfl⟩ := tree_call_eq_ok_iff.mp ht
          have hinner' := ihinner hinwords (trees_head_cons hsymbol has e'')
          obtain ⟨hhead, -, hargs⟩ := Source.forall_mem_nodesAll_cons.mp hinner'
          exact Source.forall_mem_nodesAll_cons.mpr ⟨hhead, hargs, hrest'⟩

theorem named_of_read {s : Script} {forest : List Source} (h : s.read = .ok forest) :
    ∀ t ∈ Source.nodesAll forest, t.Named := by
  obtain ⟨ts, ds, ⟨q, hscan⟩, hgroups, htrees⟩ := read_eq_ok_iff.mp h
  exact named_of_groups hgroups hscan.isWord htrees

/-- **Trees are read again from their text**, places left out and integers, floats and the signs of
zeros kept apart, exactly when their floats are finite and their strings are quoted without codes.
A code makes the whole text unreadable.  The names that this takes for granted are names in all
trees that are read. -/
theorem read_lines_iff {forest : List Source} (hnamed : ∀ t ∈ Source.nodesAll forest, t.Named)
    (name : String) :
    ((∃ again, Script.read ⟨name, String.join (forest.map fun t => t.text ++ "\n")⟩ = .ok again ∧
        Source.eraseAll again = Source.eraseAll forest) ↔
      ∀ t ∈ Source.nodesAll forest, t.IsFinite ∧ t.WithoutCodes) ∧
    ((∃ v place c, .leaf (.string v) place ∈ Source.nodesAll forest ∧ c ∈ v.toList ∧ IsCoded c) →
      ∃ e what, Script.read ⟨name, String.join (forest.map fun t => t.text ++ "\n")⟩ = .error e ∧
        e.fault = .expected what) ∧
    ∀ (s : Script) (found : List Source), s.read = .ok found →
      ∀ t ∈ Source.nodesAll found, t.Named := by
  have hrenders := (Source.laid_lines forest).renders hnamed
  generalize String.join (forest.map fun t => t.text ++ "\n") = content at hrenders ⊢
  refine ⟨⟨?_, ?_⟩, ?_, fun s found hread => named_of_read hread⟩
  · intro h
    obtain ⟨again, hread, herase⟩ := h
    by_cases hplain : ∀ t ∈ Source.nodesAll forest, t.WithoutCodes
    · obtain ⟨found, hfound, hreread⟩ := @read_of_writes ⟨name, content⟩ _ (hrenders.writes hplain)
      obtain rfl := Except.ok.inj (hread.symm.trans hfound)
      have hfinite := Source.rereadAll_eq_eraseAll_iff.mp (hreread.symm.trans herase)
      exact fun t ht => ⟨hfinite t ht, hplain t ht⟩
    · obtain ⟨e, what, herror, -⟩ := @read_of_spoils ⟨name, content⟩ (hrenders.spoils hplain)
      rw [hread] at herror
      cases herror
  · intro h
    have hwrites := hrenders.writes fun t ht => (h t ht).2
    rw [Source.rereadAll_eq_eraseAll_iff.mpr fun t ht => (h t ht).1] at hwrites
    exact @read_of_writes ⟨name, content⟩ _ hwrites
  · intro h
    obtain ⟨v, place, c, hmem, hc, hcoded⟩ := h
    refine @read_of_spoils ⟨name, content⟩ (hrenders.spoils fun hplain => ?_)
    exact not_isCoded_iff.mpr (hplain _ hmem c hc) hcoded

/-- Minus zero and a string of one line end, as the arguments of a call, are read again. -/
theorem read_lines_zero :
    ∃ again, Script.read ⟨"t.hy", String.join
        ([Source.call "f" [.leaf (.number (.float (.finite true ⟨0, by decide⟩))) .unknown,
          .string "\n"] .unknown].map fun t => t.text ++ "\n")⟩ = .ok again ∧
      Source.eraseAll again =
        [.call "f" [.leaf (.number (.float (.finite true ⟨0, by decide⟩))) .unknown,
          .string "\n"] .unknown] := by
  have hword : IsWord ['f'] := by simp [IsWord, IsWordChar, blanks]
  have hname : IsName "f" := ⟨isSymbol_iff.mp (by decide), hword⟩
  refine (read_lines_iff ?_ "t.hy").1.mpr ?_
  · simp [Source.nodesAll, Source.nodes, Source.Named, Source.string, hname]
  · have hline : IsPlain '\n' := .inr (by decide)
    simp [Source.nodesAll, Source.nodes, Source.IsFinite, Source.WithoutCodes, Source.string,
      Number.isFinite, Binary64.isFinite, hline]

end Script

end FormLower
