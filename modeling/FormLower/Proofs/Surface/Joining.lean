import FormLower.Proofs.Surface.Faults
import FormLower.Proofs.Surface.Nesting

/-! # Texts one after the other

A text that is read ends where a line can end: its last token is complete, and a comment goes no
further than the line.  So behind a line feed another text is read as it is read alone, only further
down (`Script.read_join`).

Moving down by some lines commutes with each step of reading: with scanning (`Scans.down`), with
grouping (`Groups.down`) and with turning data into trees (`Script.trees_down`). -/

namespace FormLower

open Grammar

/-! ### Moving down -/

/-- A position some lines further down. -/
def Position.down (n : Nat) (p : Position) : Position := ⟨p.line + n, p.column⟩

def Extent.down (n : Nat) (e : Extent) : Extent := ⟨e.start.down n, e.stop.down n⟩

def Token.down (n : Nat) (t : Token) : Token := ⟨t.lexeme, t.extent.down n⟩

def Location.down (n : Nat) (l : Location) : Location := ⟨l.file, l.line + n, l.column⟩

def Span.down (n : Nat) (s : Span) : Span := ⟨s.start.down n, s.stop.down n⟩

def Place.down (n : Nat) (p : Place) : Place :=
  ⟨p.location.map (Location.down n), p.span.map (Span.down n)⟩

def ReadError.down (n : Nat) (e : ReadError) : ReadError := ⟨e.fault, e.place.down n⟩

mutual

/-- A datum with all extents in it some lines further down. -/
def Datum.down (n : Nat) : Datum → Datum
  | .atom w e => .atom w (e.down n)
  | .string v e => .string v (e.down n)
  | .group b items e => .group b (Datum.downAll n items) (e.down n)

def Datum.downAll (n : Nat) : List Datum → List Datum
  | [] => []
  | d :: ds => d.down n :: Datum.downAll n ds

end

mutual

/-- A tree with all locations and spans in it some lines further down. -/
def Source.down (n : Nat) : Source → Source
  | .leaf v p => .leaf v (p.down n)
  | .call h as p => .call h (Source.downAll n as) (p.down n)
  | .list es p => .list (Source.downAll n es) (p.down n)

def Source.downAll (n : Nat) : List Source → List Source
  | [] => []
  | t :: ts => t.down n :: Source.downAll n ts

end

theorem Source.downAll_eq_map (n : Nat) : ∀ ts : List Source, downAll n ts = ts.map (down n)
  | [] => rfl
  | t :: ts => by rw [downAll, downAll_eq_map n ts, List.map_cons]

variable {n : Nat} {p q : Position} {cs rest tail : List Char} {ts : List Token} {ds : List Datum}

namespace Position

theorem down_after (p : Position) (c : Char) : (p.down n).after c = (p.after c).down n := by
  unfold after
  split
  · have hline : p.line + n + 1 = p.line + 1 + n := by omega
    rw [down, down, hline]
  · rfl

theorem down_afterAll (p : Position) (cs : List Char) :
    (p.down n).afterAll cs = (p.afterAll cs).down n := by
  induction cs generalizing p with
  | nil => rfl
  | cons c cs ih =>
      have hstep : (p.down n).afterAll (c :: cs) = ((p.down n).after c).afterAll cs := rfl
      rw [hstep, down_after, ih]
      rfl

theorem isBefore_down : (p.down n).isBefore (q.down n) = p.isBefore q := by
  have hiff : (p.down n).isBefore (q.down n) = true ↔ p.isBefore q = true := by
    rw [isBefore_iff, isBefore_iff, lt_def, lt_def]
    simp only [down]
    omega
  exact Bool.eq_iff_iff.mpr hiff

theorem line_afterAll (p : Position) (cs : List Char) :
    (p.afterAll cs).line = p.line + cs.count '\n' := by
  induction cs generalizing p with
  | nil => rfl
  | cons c cs ih =>
      have hstep : p.afterAll (c :: cs) = (p.after c).afterAll cs := rfl
      rw [hstep, ih, after, List.count_cons]
      split
      · next hc => simp only [hc, beq_self_eq_true, if_true]; omega
      · next hc => simp [hc]

/-- Behind a text and a line feed everything is as at the first position, but further down. -/
theorem afterAll_line_feed (cs : List Char) :
    (first.afterAll cs).after '\n' = first.down (cs.count '\n' + 1) := by
  have hline := line_afterAll first cs
  rw [after, if_pos rfl, hline, down]
  rfl

end Position

theorem Extent.inFile_down (e : Extent) (file : String) :
    (e.down n).inFile file = (e.inFile file).down n := rfl

theorem Datum.extent_down (d : Datum) : (d.down n).extent = d.extent.down n := by
  cases d <;> rfl

/-! ### Steps of reading -/

namespace Grammar

/-- Tokens are scanned further down as they are scanned here. -/
theorem Scans.down (h : Scans p cs ts q rest) (n : Nat) :
    Scans (p.down n) cs (ts.map (Token.down n)) (q.down n) rest := by
  induction h with
  | done => exact .done
  | blank hc _ ih =>
      rw [← Position.down_after] at ih
      exact .blank hc ih
  | comment hbody hend _ ih =>
      rw [← Position.down_afterAll] at ih
      exact .comment hbody hend ih
  | bracket hc _ ih =>
      rw [← Position.down_after] at ih
      rw [List.map_cons, Token.down, Extent.down, ← Position.down_after]
      exact .bracket hc ih
  | string hq _ ih =>
      rw [← Position.down_afterAll] at ih
      rw [List.map_cons, Token.down, Extent.down, ← Position.down_afterAll]
      exact .string hq ih
  | atom hne hw hend _ ih =>
      rw [← Position.down_afterAll] at ih
      rw [List.map_cons, Token.down, Extent.down, ← Position.down_afterAll]
      exact .atom hne hw hend ih

/-- A line feed ends every token and every comment. -/
theorem Scans.append_line_feed (h : Scans p cs ts q rest) (tail : List Char) :
    Scans p (cs ++ '\n' :: tail) ts q (rest ++ '\n' :: tail) := by
  have hhead : ∀ {P : Char → Prop} {cs : List Char}, P '\n' → (∀ c, cs.head? = some c → P c) →
      ∀ c, (cs ++ '\n' :: tail).head? = some c → P c := by
    intro P cs hP hcs c hc
    cases cs with
    | nil =>
        obtain rfl := Option.some.inj hc
        exact hP
    | cons d cs => exact hcs c hc
  induction h with
  | done => exact .done
  | blank hc _ ih => exact .blank hc ih
  | comment hbody hend _ ih =>
      rw [List.append_assoc]
      exact .comment hbody (hhead rfl hend) ih
  | bracket hc _ ih => exact .bracket hc ih
  | string hq _ ih =>
      rw [List.append_assoc, List.cons_append]
      exact .string hq ih
  | atom hne hw hend _ ih =>
      rw [List.append_assoc]
      exact .atom hne hw (hhead (by decide) hend) ih

theorem lexemes_down (ts : List Token) : lexemes (ts.map (Token.down n)) = lexemes ts := by
  rw [lexemes, lexemes, List.map_map]
  rfl

end Grammar

theorem Groups.down (h : Groups ts ds) (n : Nat) :
    Groups (ts.map (Token.down n)) (Datum.downAll n ds) := by
  induction h with
  | nil => exact .nil
  | string _ ih => exact .string ih
  | atom _ ih => exact .atom ih
  | @group b e e' inner ts items ds _ _ ihinner ih =>
      rw [List.map_append, List.map_cons, List.map_cons, Datum.downAll, Datum.down]
      exact .group ihinner ih

/-! ### Excerpts -/

namespace Extent

theorem covers_down {e : Extent} : (e.down n).covers (p.down n) = e.covers p := by
  unfold covers Extent.down
  rw [Position.isBefore_down, Position.isBefore_down]

theorem excerptFrom_down (e : Extent) (p : Position) (cs : List Char) :
    (e.down n).excerptFrom (p.down n) cs = e.excerptFrom p cs := by
  induction cs generalizing p with
  | nil => rfl
  | cons c cs ih => rw [excerptFrom, excerptFrom, covers_down, Position.down_after, ih]

/-- Behind a text and a line feed an extent of another text holds the same characters. -/
theorem excerpt_join {e : Extent} (h : Position.first ≤ e.start) (a b : List Char) :
    (e.down (a.count '\n' + 1)).excerpt (a ++ '\n' :: b) = e.excerpt b := by
  have hfront : Position.first.afterAll (a ++ ['\n']) =
      Position.first.down (a.count '\n' + 1) := by
    rw [Position.afterAll_append, ← Position.afterAll_line_feed]
    rfl
  have hbefore : Position.first.afterAll (a ++ ['\n']) ≤ (e.down (a.count '\n' + 1)).start := by
    rw [hfront, Position.le_def]
    rw [Position.le_def] at h
    simp only [Extent.down, Position.down]
    omega
  have hsplit : a ++ '\n' :: b = (a ++ ['\n']) ++ b := by
    rw [List.append_assoc, List.singleton_append]
  unfold excerpt
  rw [hsplit, excerptFrom_append, excerptFrom_before hbefore, hfront, excerptFrom_down,
    List.nil_append]

end Extent

/-! ### Trees -/

namespace Script

variable {s s' : Script} {d : Datum} {ss : List Source}

/-- Reading data of one text as data of another gives the same trees, if it gives any. -/
theorem trees_of_name (hname : s'.name = s.name) (ds : List Datum) :
    ∀ {ss}, s.trees ds = .ok ss → s'.trees ds = .ok ss := by
  induction ds using Datum.reading_induction with
  | nil =>
      intro ss h
      rw [trees] at h ⊢
      exact h
  | atom w e ds ih =>
      intro ss h
      obtain ⟨t, rest, ht, hrest, rfl⟩ := trees_cons_eq_ok_iff.mp h
      refine trees_cons_eq_ok_iff.mpr ⟨t, rest, ?_, ih hrest, rfl⟩
      rwa [tree_atom_eq_ok_iff, hname, ← tree_atom_eq_ok_iff]
  | string v e ds ih =>
      intro ss h
      obtain ⟨t, rest, ht, hrest, rfl⟩ := trees_cons_eq_ok_iff.mp h
      refine trees_cons_eq_ok_iff.mpr ⟨t, rest, ?_, ih hrest, rfl⟩
      rwa [tree, hname, ← tree]
  | list items e ds ihitems ih =>
      intro ss h
      obtain ⟨t, rest, ht, hrest, rfl⟩ := trees_cons_eq_ok_iff.mp h
      refine trees_cons_eq_ok_iff.mpr ⟨t, rest, ?_, ih hrest, rfl⟩
      obtain ⟨es, hes, rfl⟩ := tree_list_eq_ok_iff.mp ht
      exact tree_list_eq_ok_iff.mpr ⟨es, ihitems hes, by rw [hname]⟩
  | empty e ds _ =>
      intro ss h
      obtain ⟨t, rest, ht, -, -⟩ := trees_cons_eq_ok_iff.mp h
      rw [tree] at ht
      cases ht
  | call d items e ds ihitems ih =>
      intro ss h
      obtain ⟨t, rest, ht, hrest, rfl⟩ := trees_cons_eq_ok_iff.mp h
      refine trees_cons_eq_ok_iff.mpr ⟨t, rest, ?_, ih hrest, rfl⟩
      obtain ⟨head, e', items', as, heq, hsymbol, has, rfl⟩ := tree_call_eq_ok_iff.mp ht
      obtain ⟨rfl, rfl⟩ := List.cons.inj heq
      exact tree_call_eq_ok_iff.mpr ⟨head, e', items, as, rfl, hsymbol, ihitems has, by rw [hname]⟩

/-- Data that are read are read in front of other data. -/
theorem trees_append (h : s.trees ds = .ok ss) (es : List Datum) :
    s.trees (ds ++ es) = (s.trees es).map (ss ++ ·) := by
  induction ds generalizing ss with
  | nil =>
      rw [trees] at h
      cases h
      rw [List.nil_append]
      cases s.trees es <;> rfl
  | cons d ds ih =>
      obtain ⟨t, rest, ht, hrest, rfl⟩ := trees_cons_eq_ok_iff.mp h
      rw [List.cons_append, trees, ht, ih hrest]
      cases s.trees es <;> rfl

/-- The result of reading, some lines further down. -/
def downResult {α : Type} (n : Nat) (move : α → α) (r : Except ReadError α) : Except ReadError α :=
  (r.map move).mapError (ReadError.down n)

/-- A script holds another one with the same name, some lines further down. -/
structure Holds (s' s : Script) (n : Nat) : Prop where
  name : s'.name = s.name
  excerpt : ∀ e : Extent, .first ≤ e.start →
    (e.down n).excerpt s'.content.toList = e.excerpt s.content.toList

theorem errorAt_down (h : Holds s' s n) (e : Extent) (f : ReadFault) :
    s'.errorAt (e.down n) f = (s.errorAt e f).down n := by
  rw [errorAt, h.name]
  rfl

theorem head_down (h : Holds s' s n) (hd : .first ≤ d.extent.start) :
    s'.head (d.down n) = (s.head d).mapError (ReadError.down n) := by
  have hnotSymbol : head.notSymbol s' (d.down n) = (head.notSymbol s d).down n := by
    rw [head.notSymbol, head.notSymbol, Datum.extent_down, errorAt_down h, excerpt, excerpt,
      Datum.extent_down, h.excerpt _ hd]
  cases d with
  | atom w e =>
      rw [Datum.down] at hnotSymbol ⊢
      rw [head, head, hnotSymbol]
      split <;> rfl
  | string v e =>
      rw [Datum.down] at hnotSymbol ⊢
      simp only [head, hnotSymbol]
      rfl
  | group b items e =>
      rw [Datum.down] at hnotSymbol ⊢
      simp only [head, hnotSymbol]
      rfl

theorem leaf_down (h : Holds s' s n) (w : String) (e : Extent) :
    s'.leaf w (e.down n) = downResult n (Source.down n) (s.leaf w e) := by
  rw [leaf, leaf, errorAt_down h, h.name, Extent.inFile_down]
  cases Leaf.ofAtom? w <;> rfl

theorem trees_cons_down
    (htree : s'.tree (d.down n) = downResult n (Source.down n) (s.tree d))
    (htrees : s'.trees (Datum.downAll n ds) = downResult n (Source.downAll n) (s.trees ds)) :
    s'.trees (Datum.downAll n (d :: ds)) = downResult n (Source.downAll n) (s.trees (d :: ds)) := by
  rw [Datum.downAll, trees, trees, htree, htrees]
  cases s.tree d with
  | error e => rfl
  | ok t => cases s.trees ds <;> rfl

/-- **Data further down are read to the same trees further down**, or to the same error. -/
theorem trees_down (h : Holds s' s n) {text : List Char} (ds : List Datum) :
    ∀ {p q}, .first ≤ p → Located text p q ds →
      s'.trees (Datum.downAll n ds) = downResult n (Source.downAll n) (s.trees ds) := by
  induction ds using Datum.reading_induction with
  | nil =>
      intro p q _ _
      rw [Datum.downAll, trees, trees]
      rfl
  | atom w e ds ih =>
      intro p q hp hlocated
      have hnext := Position.le_trans hp hlocated.le_stop
      refine trees_cons_down ?_ (ih hnext hlocated.tail)
      rw [Datum.down, tree, tree, leaf_down h]
  | string v e ds ih =>
      intro p q hp hlocated
      have hnext := Position.le_trans hp hlocated.le_stop
      refine trees_cons_down ?_ (ih hnext hlocated.tail)
      rw [Datum.down, tree, tree, h.name, Extent.inFile_down]
      rfl
  | list items e ds ihitems ih =>
      intro p q hp hlocated
      have hnext := Position.le_trans hp hlocated.le_stop
      obtain ⟨p', _, hp', hinside⟩ := hlocated.exists_inside
      refine trees_cons_down ?_ (ih hnext hlocated.tail)
      rw [Datum.down, tree, tree, ihitems (Position.le_trans hp (Position.le_of_lt hp')) hinside,
        h.name, Extent.inFile_down]
      cases s.trees items <;> rfl
  | empty e ds ih =>
      intro p q hp hlocated
      have hnext := Position.le_trans hp hlocated.le_stop
      refine trees_cons_down ?_ (ih hnext hlocated.tail)
      rw [Datum.down, Datum.downAll, tree, tree, errorAt_down h]
      rfl
  | call d items e ds ihitems ih =>
      intro p q hp hlocated
      have hnext := Position.le_trans hp hlocated.le_stop
      obtain ⟨p', _, hp', hinside⟩ := hlocated.exists_inside
      have hfirst := Position.le_trans hp (Position.le_of_lt hp')
      have hd := Position.le_trans hfirst hinside.first_bounds.1
      have hargs := Position.le_trans hfirst hinside.le_stop
      refine trees_cons_down ?_ (ih hnext hlocated.tail)
      rw [Datum.down, Datum.downAll, tree, tree, head_down h hd, ihitems hargs hinside.tail, h.name,
        Extent.inFile_down]
      cases s.head d with
      | error err => rfl
      | ok head => cases s.trees items <;> rfl

/-! ### Scripts -/

theorem toList_join (a b : String) : (a ++ "\n" ++ b).toList = a.toList ++ '\n' :: b.toList := by
  have hfeed : "\n".toList = ['\n'] := rfl
  rw [String.toList_append, String.toList_append, hfeed, List.append_assoc, List.singleton_append]

/-- Behind a text that has tokens and a line feed, another text is scanned as it is alone, but
further down. -/
theorem scans_join {a b : List Char} {us : List Token} (hsplits : Splits a ts)
    (hscans : Scans .first b us q rest) :
    Scans .first (a ++ '\n' :: b) (ts ++ us.map (Token.down (a.count '\n' + 1)))
      (q.down (a.count '\n' + 1)) rest := by
  obtain ⟨q', hfront⟩ := hsplits
  obtain ⟨w, hw, rfl⟩ := hfront.exists_front
  rw [List.append_nil] at hw
  subst hw
  have hback := hscans.down (a.count '\n' + 1)
  rw [← Position.afterAll_line_feed] at hback
  have hfeed : '\n' ∈ blanks := by decide
  exact (hfront.append_line_feed b).append (.blank hfeed hback)

section
variable {name a b : String} {forest : List Source}

theorem holds_join (name a b : String) :
    Holds ⟨name, a ++ "\n" ++ b⟩ ⟨name, b⟩ (a.toList.count '\n' + 1) where
  name := rfl
  excerpt e he := by
    rw [toList_join]
    exact Extent.excerpt_join he a.toList b.toList

/-- Behind a text that is read, a text whose brackets group it is read as it is alone. -/
theorem read_join_of_groups {us : List Token} {es : List Datum}
    (ha : read ⟨name, a⟩ = .ok forest) (hsplits : Splits b.toList us) (hgroups : Groups us es) :
    read ⟨name, a ++ "\n" ++ b⟩ =
      (downResult (a.toList.count '\n' + 1) (Source.downAll (a.toList.count '\n' + 1))
        (read ⟨name, b⟩)).map (forest ++ ·) := by
  obtain ⟨ts, ds, hfront, hgroups', htrees⟩ := read_eq_ok_iff.mp ha
  obtain ⟨q, hscans⟩ := hsplits
  have hlocated := located_of_groups hgroups ⟨[], rfl, rfl⟩ hscans
  have hjoin := hgroups'.append (hgroups.down (a.toList.count '\n' + 1))
  have hfirst := @trees_of_name ⟨name, a⟩ ⟨name, a ++ "\n" ++ b⟩ rfl ds _ htrees
  have hdata := ofText_eq_ok_iff.mpr ⟨_, ⟨_, scans_join hfront hscans⟩, hjoin⟩
  have hback := ofText_eq_ok_iff.mpr ⟨us, ⟨q, hscans⟩, hgroups⟩
  rw [read, read, toList_join, hdata, hback]
  simp only
  rw [trees_append hfirst, trees_down (holds_join name a b) es (Position.le_refl _) hlocated]

/-- Behind a text that is read, a text is blocked where it is blocked alone. -/
theorem blocked_join {p : Position} {bs : List Bracket} (ha : read ⟨name, a⟩ = .ok forest)
    (hb : Blocked b.toList p bs) :
    Blocked (a ++ "\n" ++ b).toList (p.down (a.toList.count '\n' + 1)) bs := by
  obtain ⟨ts, ds, hfront, hgroups, -⟩ := read_eq_ok_iff.mp ha
  obtain ⟨us, rest, hscans, hopens, hoffends⟩ := hb
  have hjoin := scans_join hfront hscans
  rw [← toList_join] at hjoin
  refine ⟨_, rest, hjoin, ?_, hoffends⟩
  have hlexemes : lexemes (ts ++ us.map (Token.down (a.toList.count '\n' + 1))) =
      lexemes ts ++ lexemes us := by
    rw [← lexemes_down us]
    exact List.map_append
  rw [hlexemes]
  exact (hgroups.opens []).append hopens

end

/-- **Reading composes.**  Behind a text that is read and a line feed, another text is read as it is
alone, with all locations and spans further down by the lines in front of it: to the same trees, or
to the same error.  Only what a syntax error wants may differ, as the beginning of the other text is
no longer the one of the whole. -/
theorem read_join (name a b : String) (forest : List Source)
    (ha : read ⟨name, a⟩ = .ok forest) :
    (∀ more, read ⟨name, b⟩ = .ok more →
      read ⟨name, a ++ "\n" ++ b⟩ =
        .ok (forest ++ more.map (Source.down (a.toList.count '\n' + 1)))) ∧
    ∀ e, read ⟨name, b⟩ = .error e →
      ∃ e', read ⟨name, a ++ "\n" ++ b⟩ = .error e' ∧
        e'.place = e.place.down (a.toList.count '\n' + 1) ∧
        ((∀ what, e.fault ≠ .expected what) → e'.fault = e.fault) ∧
        ∀ what, e.fault = .expected what → ∃ what', e'.fault = .expected what' := by
  constructor
  · intro more hb
    obtain ⟨us, es, hsplits, hgroups, -⟩ := read_eq_ok_iff.mp hb
    rw [read_join_of_groups ha hsplits hgroups, hb, ← Source.downAll_eq_map]
    rfl
  · intro e hb
    cases hdata : Datum.ofText b.toList with
    | ok es =>
        obtain ⟨us, hsplits, hgroups⟩ := ofText_eq_ok_iff.mp hdata
        refine ⟨e.down (a.toList.count '\n' + 1), ?_, rfl, fun _ => rfl, ?_⟩
        · rw [read_join_of_groups ha hsplits hgroups, hb]
          rfl
        · exact fun what hwhat => ⟨what, hwhat⟩
    | error f =>
        obtain ⟨bs, hblocked, -⟩ := ofText_eq_error_iff.mp hdata
        have hjoin := ofText_of_blocked (blocked_join ha hblocked)
        rw [read, hdata] at hb
        cases hb
        refine ⟨_, by rw [read, hjoin], rfl, fun hno => absurd rfl (hno _), fun _ _ => ⟨_, rfl⟩⟩

/-- A call with nothing in it is found on the second line, behind a symbol on the first. -/
theorem read_join_call :
    ∃ e, read ⟨"t.hy", "x" ++ "\n" ++ "()"⟩ = .error e ∧
      e.place = Extent.inFile "t.hy" ⟨⟨2, 1⟩, ⟨2, 3⟩⟩ ∧ e.fault = .emptyCall := by
  have ha : read ⟨"t.hy", "x"⟩ =
      .ok [.leaf (.symbol "x") (Extent.inFile "t.hy" ⟨⟨1, 1⟩, ⟨1, 2⟩⟩)] := by rfl
  have hb : read ⟨"t.hy", "()"⟩ =
      .error ⟨.emptyCall, Extent.inFile "t.hy" ⟨⟨1, 1⟩, ⟨1, 3⟩⟩⟩ := by rfl
  obtain ⟨e, he, hplace, hfault, -⟩ := (read_join "t.hy" "x" "()" _ ha).2 _ hb
  refine ⟨e, he, ?_, hfault fun what hwhat => by cases hwhat⟩
  rw [hplace]
  rfl

end Script

end FormLower
