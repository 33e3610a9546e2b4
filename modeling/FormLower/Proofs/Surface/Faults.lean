import FormLower.Proofs.Surface.PegTrees

/-! # Faults of well-formed texts

Where the brackets of a text group it to data, reading fails for one of three faults (`HasFault`): a
call whose head is no symbol, a call with nothing in it, or an integer that does not fit.  Data
stand in order (`Located`), and reading goes through them in that order, the head of a call before
anything in the call; so the fault that is reported is the leftmost one (`outcome_of_located`).

The reader of the grammar's pairs is stated as well, with the branches that ask for what no text
gives (`Peg.readForms`).  It agrees with the reader of the text, so that those branches are never
taken. -/

namespace FormLower

open Grammar

/-- A fault of data that were read from a text, with the extent where it stands. -/
inductive HasFault (text : List Char) : List Datum → Extent → ReadFault → Prop
  | head {d : Datum} {items ds : List Datum} {e : Extent} {before found after : List Char} :
      (∀ w e', d = .atom w e' → ¬ IsSymbol w) → d.extent.Cuts text before found after →
      HasFault text (.group .round (d :: items) e :: ds) d.extent
        (.headNotSymbol (String.ofList found))
  | empty {ds : List Datum} {e : Extent} : HasFault text (.group .round [] e :: ds) e .emptyCall
  | integer {w : String} {e : Extent} {ds : List Datum} {i : Int} :
      IntegerText w.toList i → ¬ (-2 ^ 63 ≤ i ∧ i < 2 ^ 63) →
      HasFault text (.atom w e :: ds) e (.integerOutOfRange w)
  | inside {b : Bracket} {items ds : List Datum} {e e' : Extent} {f : ReadFault} :
      HasFault text items e f → HasFault text (.group b items e' :: ds) e f
  | later {d : Datum} {ds : List Datum} {e : Extent} {f : ReadFault} :
      HasFault text ds e f → HasFault text (d :: ds) e f

/-- A fault in front of which there is no other.  Where several stand at one place, the head of a
call comes first. -/
structure Leftmost (text : List Char) (ds : List Datum) (e : Extent) (f : ReadFault) : Prop where
  fault : HasFault text ds e f
  first : ∀ {e' f'}, HasFault text ds e' f' →
    e.start < e'.start ∨ e' = e ∧ (f' = f ∨ ∃ found, f = .headNotSymbol found)

/-- Data between two positions, in order: each is cut out of the text, and what is inside a group
stands between its brackets. -/
inductive Located (text : List Char) : Position → Position → List Datum → Prop
  | nil {p q : Position} : p ≤ q → Located text p q []
  | single {p q : Position} {d : Datum} {ds : List Datum} {before inner after : List Char} :
      (∀ b items e, d ≠ .group b items e) → p ≤ d.extent.start → d.extent.start < d.extent.stop →
      d.extent.Cuts text before inner after → Located text d.extent.stop q ds →
      Located text p q (d :: ds)
  | group {p q p' q' : Position} {b : Bracket} {items ds : List Datum} {e : Extent}
      {before inner after : List Char} :
      p ≤ e.start → e.start < p' → Located text p' q' items → q' < e.stop →
      e.Cuts text before inner after → Located text e.stop q ds →
      Located text p q (.group b items e :: ds)

variable {text cs rest : List Char} {p q : Position} {d : Datum} {ds items : List Datum}
variable {e e' : Extent} {f f' : ReadFault} {ts : List Token}

/-! ### Order -/

theorem Located.le (h : Located text p q ds) : p ≤ q := by
  induction h with
  | nil hpq => exact hpq
  | single _ hp hlt _ _ ih =>
      exact Position.le_trans hp (Position.le_trans (Position.le_of_lt hlt) ih)
  | group hp hopen _ hclose _ _ ihinner ih =>
      have hlt := Position.lt_of_lt_of_le hopen ihinner
      have hstop := Position.lt_of_lt_of_le hlt (Position.le_of_lt hclose)
      exact Position.le_trans hp (Position.le_trans (Position.le_of_lt hstop) ih)

theorem Located.first_bounds (h : Located text p q (d :: ds)) :
    p ≤ d.extent.start ∧ d.extent.start < d.extent.stop ∧ d.extent.stop ≤ q := by
  cases h with
  | single _ hp hlt _ hrest => exact ⟨hp, hlt, hrest.le⟩
  | group hp hopen hinner hclose _ hrest =>
      have hlt := Position.lt_of_lt_of_le hopen hinner.le
      exact ⟨hp, Position.lt_of_lt_of_le hlt (Position.le_of_lt hclose), hrest.le⟩

theorem Located.le_stop (h : Located text p q (d :: ds)) : p ≤ d.extent.stop :=
  Position.le_trans h.first_bounds.1 (Position.le_of_lt h.first_bounds.2.1)

theorem Located.exists_cuts (h : Located text p q (d :: ds)) :
    ∃ before inner after, d.extent.Cuts text before inner after := by
  cases h with
  | single _ _ _ hcuts _ => exact ⟨_, _, _, hcuts⟩
  | group _ _ _ _ hcuts _ => exact ⟨_, _, _, hcuts⟩

theorem Located.tail (h : Located text p q (d :: ds)) : Located text d.extent.stop q ds := by
  cases h with
  | single _ _ _ _ hrest => exact hrest
  | group _ _ _ _ _ hrest => exact hrest

theorem Located.exists_inside {b : Bracket} (h : Located text p q (.group b items e :: ds)) :
    ∃ p' q', p < p' ∧ Located text p' q' items := by
  cases h with
  | single hsingle _ _ _ _ => exact absurd rfl (hsingle b items e)
  | group hp hopen hinside _ _ _ => exact ⟨_, _, Position.lt_of_le_of_lt hp hopen, hinside⟩

theorem Located.first (h : Located text p q (d :: ds)) : Located text p d.extent.stop [d] := by
  have hnil : Located text d.extent.stop d.extent.stop [] := .nil (Position.le_refl _)
  cases h with
  | single hsingle hp hlt hcuts _ => exact .single hsingle hp hlt hcuts hnil
  | group hp hopen hinner hclose hcuts _ => exact .group hp hopen hinner hclose hcuts hnil

theorem located_of_groups (h : Groups ts ds) : ∀ {p q cs rest}, At text p cs →
    Scans p cs ts q rest → Located text p q ds := by
  induction h with
  | nil =>
      intro p q cs rest _ hscans
      exact .nil hscans.le
  | string _ ih =>
      intro p q cs rest hat hscans
      obtain ⟨hp, hlt, tail, hat', hscans'⟩ := hat.token hscans
      obtain ⟨_, _, hself, -⟩ := @Scans.exists_of_append _ _ _ _ [_] _ hscans
      obtain ⟨b, i, a, hcuts, -⟩ := hat.exists_cuts hself rfl
      exact .single (fun _ _ _ heq => by cases heq) hp hlt hcuts (ih hat' hscans')
  | atom _ ih =>
      intro p q cs rest hat hscans
      obtain ⟨hp, hlt, tail, hat', hscans'⟩ := hat.token hscans
      obtain ⟨_, _, hself, -⟩ := @Scans.exists_of_append _ _ _ _ [_] _ hscans
      obtain ⟨b, i, a, hcuts, -⟩ := hat.exists_cuts hself rfl
      exact .single (fun _ _ _ heq => by cases heq) hp hlt hcuts (ih hat' hscans')
  | @group b e e' inner ts items ds hinner _ ihinner ih =>
      intro p q cs rest hat hscans
      obtain ⟨hp, hopen, tail, hat₁, hscans₁⟩ := hat.token hscans
      obtain ⟨r, mid, hinside, hscans₂⟩ := hscans₁.exists_of_append
      obtain ⟨hat₂, -⟩ := hat₁.scans hinside
      obtain ⟨hr, hclose, tail', hat₃, hscans₃⟩ := hat₂.token hscans₂
      obtain ⟨_, _, hself, -⟩ : ∃ q' mid', Scans p cs
          (⟨.opening b, e⟩ :: (inner ++ [⟨.closing b, e'⟩])) q' mid' ∧ Scans q' mid' ts q rest :=
        Scans.exists_of_append (by simpa using hscans)
      have hlast : (⟨.opening b, e⟩ :: (inner ++ [⟨.closing b, e'⟩]) : List Token).getLast? =
          some ⟨.closing b, e'⟩ := by
        rw [← List.cons_append, List.getLast?_concat]
      obtain ⟨_, _, _, hcuts, -⟩ := hat.exists_cuts hself hlast
      exact .group hp hopen (ihinner hat₁ hinside) (Position.lt_of_le_of_lt hr hclose) hcuts
        (ih hat₃ hscans₃)

theorem Located.fault_bounds (h : Located text p q ds) :
    ∀ {e f}, HasFault text ds e f → p ≤ e.start ∧ e.start < q := by
  induction h with
  | nil _ =>
      intro e f hf
      cases hf
  | @single p q d ds _ _ _ hsingle hp hlt hcuts hrest ih =>
      intro e f hf
      have hq := Position.lt_of_lt_of_le hlt hrest.le
      cases hf with
      | head _ _ => exact absurd rfl (hsingle _ _ _)
      | empty => exact absurd rfl (hsingle _ _ _)
      | integer _ _ => exact ⟨hp, hq⟩
      | inside _ => exact absurd rfl (hsingle _ _ _)
      | later hf =>
          obtain ⟨hlow, hhigh⟩ := ih hf
          exact ⟨Position.le_trans hp (Position.le_trans (Position.le_of_lt hlt) hlow), hhigh⟩
  | @group p q p' q' b items ds e₀ _ _ _ hp hopen hinner hclose hcuts hrest ihinner ih =>
      intro e f hf
      have hstop : e₀.start < e₀.stop :=
        Position.lt_of_lt_of_le hopen (Position.le_trans hinner.le (Position.le_of_lt hclose))
      have hinside : ∀ r, p' ≤ r → r < q' → p ≤ r ∧ r < q := by
        intro r hlow hhigh
        have hr := Position.lt_of_lt_of_le hhigh (Position.le_of_lt hclose)
        exact ⟨Position.le_trans hp (Position.le_trans (Position.le_of_lt hopen) hlow),
          Position.lt_of_lt_of_le hr hrest.le⟩
      cases hf with
      | head _ _ =>
          obtain ⟨hlow, hlt, hhigh⟩ := hinner.first_bounds
          exact hinside _ hlow (Position.lt_of_lt_of_le hlt hhigh)
      | empty => exact ⟨hp, Position.lt_of_lt_of_le hstop hrest.le⟩
      | inside hf =>
          obtain ⟨hlow, hhigh⟩ := ihinner hf
          exact hinside _ hlow hhigh
      | later hf =>
          obtain ⟨hlow, hhigh⟩ := ih hf
          exact ⟨Position.le_trans hp (Position.le_trans (Position.le_of_lt hstop) hlow), hhigh⟩

/-- A fault of data stands behind the start of the first of them, or is a fault of that one as a
whole. -/
theorem Located.fault_of_first (h : Located text p q (d :: ds)) (hf : HasFault text (d :: ds) e f) :
    d.extent.start < e.start ∨ e = d.extent := by
  have hlater : ∀ {e f}, HasFault text ds e f → d.extent.start < e.start := by
    intro e f hf
    exact Position.lt_of_lt_of_le h.first_bounds.2.1 (h.tail.fault_bounds hf).1
  cases h with
  | single hsingle _ _ _ _ =>
      cases hf with
      | head _ _ => exact absurd rfl (hsingle _ _ _)
      | empty => exact absurd rfl (hsingle _ _ _)
      | integer _ _ => exact .inr rfl
      | inside _ => exact absurd rfl (hsingle _ _ _)
      | later hf => exact .inl (hlater hf)
  | group _ hopen hinner _ _ _ =>
      cases hf with
      | head _ _ => exact .inl (Position.lt_of_lt_of_le hopen hinner.first_bounds.1)
      | empty => exact .inr rfl
      | inside hf => exact .inl (Position.lt_of_lt_of_le hopen (hinner.fault_bounds hf).1)
      | later hf => exact .inl (hlater hf)

/-! ### The leftmost fault -/

theorem hasFault_cons_iff :
    HasFault text (d :: ds) e f ↔ HasFault text [d] e f ∨ HasFault text ds e f := by
  constructor
  · intro h
    cases h with
    | head hd hcuts => exact .inl (.head hd hcuts)
    | empty => exact .inl .empty
    | integer hw hi => exact .inl (.integer hw hi)
    | inside h => exact .inl (.inside h)
    | later h => exact .inr h
  · intro h
    rcases h with h | h
    · cases h with
      | head hd hcuts => exact .head hd hcuts
      | empty => exact .empty
      | integer hw hi => exact .integer hw hi
      | inside h => exact .inside h
      | later h => cases h
    · exact .later h

/-- The result of reading data tells their leftmost fault, if they have one. -/
inductive Reports {α : Type} (s : Script) (ds : List Datum) (result : Except ReadError α) : Prop
  | sound {a : α} : result = .ok a → (∀ e f, ¬ HasFault s.content.toList ds e f) →
      Reports s ds result
  | fault {e : Extent} {f : ReadFault} : result = .error (s.errorAt e f) →
      Leftmost s.content.toList ds e f → Reports s ds result

variable {s : Script}

theorem reports_nil : Reports s [] (s.trees []) := by
  refine .sound (a := []) (by rw [Script.trees]) fun e f hf => ?_
  cases hf

/-- The faults of data in order are told if those of the first and those of the others are. -/
theorem reports_cons (h : Located s.content.toList p q (d :: ds)) (hd : Reports s [d] (s.tree d))
    (hds : Reports s ds (s.trees ds)) : Reports s (d :: ds) (s.trees (d :: ds)) := by
  cases hd with
  | @fault e f htree hleft =>
      have herror : s.trees (d :: ds) = .error (s.errorAt e f) := by
        rw [Script.trees, htree]
        rfl
      refine .fault herror ⟨hasFault_cons_iff.mpr (.inl hleft.fault), fun {e' f'} hf => ?_⟩
      rcases hasFault_cons_iff.mp hf with hf | hf
      · exact hleft.first hf
      · have hbefore := (h.first.fault_bounds hleft.fault).2
        exact .inl (Position.lt_of_lt_of_le hbefore (h.tail.fault_bounds hf).1)
  | @sound t htree hnone =>
      cases hds with
      | @sound ts htrees hnone' =>
          refine .sound (Script.trees_cons_eq_ok_iff.mpr ⟨t, ts, htree, htrees, rfl⟩) ?_
          intro e f hf
          rcases hasFault_cons_iff.mp hf with hf | hf
          · exact hnone e f hf
          · exact hnone' e f hf
      | @fault e f htrees hleft =>
          have herror : s.trees (d :: ds) = .error (s.errorAt e f) := by
            rw [Script.trees, htree, htrees]
            rfl
          refine .fault herror ⟨.later hleft.fault, fun {e' f'} hf => ?_⟩
          rcases hasFault_cons_iff.mp hf with hf | hf
          · exact absurd hf (hnone _ _)
          · exact hleft.first hf

theorem reports_atom {w : String} : Reports s [.atom w e] (s.tree (.atom w e)) := by
  have honly : ∀ {e' f'}, HasFault s.content.toList [.atom w e] e' f' →
      e' = e ∧ f' = .integerOutOfRange w ∧ Leaf.ofAtom? w = none := by
    intro e' f' hf
    cases hf with
    | integer hw hi => exact ⟨rfl, rfl, ofAtom?_eq_none_iff.mpr ⟨_, hw, hi⟩⟩
    | later hf => cases hf
  rw [Script.tree, Script.leaf]
  cases hleaf : Leaf.ofAtom? w with
  | some v =>
      refine .sound rfl fun e' f' hf => ?_
      rw [(honly hf).2.2] at hleaf
      cases hleaf
  | none =>
      obtain ⟨i, hw, hi⟩ := ofAtom?_eq_none_iff.mp hleaf
      refine .fault rfl ⟨.integer hw hi, fun {e' f'} hf => ?_⟩
      obtain ⟨he, hf, -⟩ := honly hf
      exact .inr ⟨he, .inl hf⟩

theorem reports_string {v : String} : Reports s [.string v e] (s.tree (.string v e)) := by
  refine .sound (by rw [Script.tree]) fun e' f' hf => ?_
  cases hf with
  | later hf => cases hf

theorem reports_list (h : Reports s items (s.trees items)) :
    Reports s [.group .square items e] (s.tree (.group .square items e)) := by
  have hinside : ∀ {e' f'}, HasFault s.content.toList [.group .square items e] e' f' →
      HasFault s.content.toList items e' f' := by
    intro e' f' hf
    cases hf with
    | inside hf => exact hf
    | later hf => cases hf
  cases h with
  | sound htrees hnone =>
      refine .sound (Script.tree_list_eq_ok_iff.mpr ⟨_, htrees, rfl⟩) ?_
      exact fun e' f' hf => hnone e' f' (hinside hf)
  | @fault e' f htrees hleft =>
      have herror : s.tree (.group .square items e) = .error (s.errorAt e' f) := by
        rw [Script.tree, htrees]
        rfl
      exact .fault herror ⟨.inside hleft.fault, fun hf => hleft.first (hinside hf)⟩

theorem reports_empty : Reports s [.group .round [] e] (s.tree (.group .round [] e)) := by
  refine .fault (by rw [Script.tree]) ⟨.empty, fun {e' f'} hf => ?_⟩
  cases hf with
  | empty => exact .inr ⟨rfl, .inl rfl⟩
  | inside hf => cases hf
  | later hf => cases hf

theorem reports_call (h : Located s.content.toList p q (d :: items))
    (hitems : Reports s items (s.trees items)) :
    Reports s [.group .round (d :: items) e] (s.tree (.group .round (d :: items) e)) := by
  by_cases hd : ∃ w e', d = .atom w e' ∧ IsSymbol w
  · obtain ⟨w, e', rfl, hw⟩ := hd
    -- Neither the head nor the symbol that it is has a fault.
    have hinside : ∀ {e'' f'},
        HasFault s.content.toList [.group .round (.atom w e' :: items) e] e'' f' →
          HasFault s.content.toList items e'' f' := by
      intro e'' f' hf
      cases hf with
      | head hno _ => exact absurd hw (hno w e' rfl)
      | inside hf =>
          cases hf with
          | integer hi _ => exact absurd (.inl ⟨_, hi⟩) hw.not_number
          | later hf => exact hf
      | later hf => cases hf
    cases hitems with
    | sound htrees hnone =>
        refine .sound (Script.tree_call_eq_ok_iff.mpr ⟨w, e', items, _, rfl, hw, htrees, rfl⟩) ?_
        exact fun e'' f' hf => hnone e'' f' (hinside hf)
    | @fault e'' f' htrees hleft =>
        have hhead : s.head (.atom w e') = .ok w := Script.head_eq_ok_iff.mpr ⟨e', rfl, hw⟩
        have herror :
            s.tree (.group .round (.atom w e' :: items) e) = .error (s.errorAt e'' f') := by
          rw [Script.tree, hhead, htrees]
          rfl
        exact .fault herror
          ⟨.inside (.later hleft.fault), fun hf => hleft.first (hinside hf)⟩
  · obtain ⟨before, found, after, hcuts⟩ := h.exists_cuts
    have hno : ∀ w e', d = .atom w e' → ¬ IsSymbol w := fun w e' hdw hw => hd ⟨w, e', hdw, hw⟩
    have hhead := Script.head_eq_error hno hcuts
    have herror : s.tree (.group .round (d :: items) e) =
        .error (s.errorAt d.extent (.headNotSymbol (String.ofList found))) := by
      rw [Script.tree, hhead]
      rfl
    refine .fault herror ⟨.head hno hcuts, fun {e' f'} hf => ?_⟩
    have hwhere : d.extent.start < e'.start ∨ e' = d.extent := by
      cases hf with
      | head _ _ => exact .inr rfl
      | inside hf => exact h.fault_of_first hf
      | later hf => cases hf
    rcases hwhere with hlater | heq
    · exact .inl hlater
    · exact .inr ⟨heq, .inr ⟨_, rfl⟩⟩

/-- **Reading data reports their leftmost fault.** -/
theorem reports_of_located (ds : List Datum) :
    ∀ {p q}, Located s.content.toList p q ds → Reports s ds (s.trees ds) := by
  induction ds using Datum.reading_induction with
  | nil => exact fun _ => reports_nil
  | atom w e ds ih => exact fun h => reports_cons h reports_atom (ih h.tail)
  | string v e ds ih => exact fun h => reports_cons h reports_string (ih h.tail)
  | list items e ds ihitems ih =>
      intro p q h
      obtain ⟨_, _, -, hinside⟩ := h.exists_inside
      exact reports_cons h (reports_list (ihitems hinside)) (ih h.tail)
  | empty e ds ih => exact fun h => reports_cons h reports_empty (ih h.tail)
  | call d items e ds ihitems ih =>
      intro p q h
      obtain ⟨_, _, -, hinside⟩ := h.exists_inside
      exact reports_cons h (reports_call hinside (ihitems hinside.tail)) (ih h.tail)

/-! ### Scripts -/

/-- A head that is a fault is quoted as it is written. -/
theorem HasFault.cuts (h : HasFault text ds e f) : ∀ {found}, f = .headNotSymbol found →
    ∃ before after, e.Cuts text before found.toList after := by
  induction h with
  | head _ hcuts =>
      intro found hf
      cases hf
      exact ⟨_, _, by rwa [String.toList_ofList]⟩
  | empty => exact fun hf => by cases hf
  | integer _ _ => exact fun hf => by cases hf
  | inside _ ih => exact ih
  | later _ ih => exact ih

/-- A head in front of which there is no fault is the leftmost fault. -/
theorem Leftmost.eq_head {found : String} (h : Leftmost text ds e' f')
    (hf : HasFault text ds e (.headNotSymbol found))
    (hfirst : ∀ {e' f'}, HasFault text ds e' f' → ¬ e'.start < e.start) :
    e' = e ∧ f' = .headNotSymbol found := by
  rcases h.first hf with hlt | ⟨rfl, rfl | ⟨found', rfl⟩⟩
  · exact absurd hlt (hfirst h.fault)
  · exact ⟨rfl, rfl⟩
  · obtain ⟨_, _, hcuts⟩ := hf.cuts rfl
    obtain ⟨_, _, hcuts'⟩ := h.fault.cuts rfl
    have hfound : found' = found := String.ext_iff.mpr (hcuts'.unique hcuts)
    rw [hfound]
    exact ⟨rfl, rfl⟩

namespace Reports

variable {α : Type} {result : Except ReadError α}

theorem error_iff (h : Reports s ds result) :
    (∃ err, result = .error err) ↔ ∃ e f, HasFault s.content.toList ds e f := by
  cases h with
  | sound hok hnone =>
      refine iff_of_false ?_ fun hfault => ?_
      · intro herr
        obtain ⟨err, herr⟩ := herr
        cases hok.symm.trans herr
      · obtain ⟨e, f, hf⟩ := hfault
        exact hnone e f hf
  | fault herr hleft => exact iff_of_true ⟨_, herr⟩ ⟨_, _, hleft.fault⟩

/-- The error is that of the leftmost fault, at its extent. -/
theorem leftmost (h : Reports s ds result) {err : ReadError} (herr : result = .error err) :
    ∃ e, err.place = e.inFile s.name ∧ Leftmost s.content.toList ds e err.fault := by
  cases h with
  | sound hok _ => cases hok.symm.trans herr
  | @fault e f herr' hleft =>
      obtain rfl := Except.error.inj (herr.symm.trans herr')
      exact ⟨e, rfl, hleft⟩

/-- A leftmost head is the fault that is told. -/
theorem eq_head (h : Reports s ds result) {found : String}
    (hf : HasFault s.content.toList ds e (.headNotSymbol found))
    (hfirst : ∀ e' f', HasFault s.content.toList ds e' f' → ¬ e'.start < e.start) :
    result = .error ⟨.headNotSymbol found, e.inFile s.name⟩ := by
  cases h with
  | sound _ hnone => exact absurd hf (hnone _ _)
  | fault herr hleft =>
      obtain ⟨rfl, rfl⟩ := hleft.eq_head hf (hfirst _ _)
      exact herr

end Reports

/-- Two texts are told apart by their first characters. -/
theorem not_prefix_append {l m : List Char} (h : l.take 4 ≠ m.take 4) (hl : 4 ≤ l.length)
    (hm : 4 ≤ m.length) (tail : List Char) : ¬ l <+: m ++ tail := by
  intro hprefix
  obtain ⟨more, heq⟩ := hprefix
  have htake := congrArg (List.take 4) heq
  rw [List.take_append_of_le_length hl, List.take_append_of_le_length hm] at htake
  exact h htake

/-- The messages of branches that are never taken. -/
def deadMessages : List String := ["Invalid float literal", "Unexpected rule"]

/-- No dead message begins like one that does not begin like it. -/
theorem not_dead_append {m : String} (hm : 4 ≤ m.toList.length)
    (hdead : ∀ d ∈ deadMessages, 4 ≤ d.toList.length ∧ d.toList.take 4 ≠ m.toList.take 4)
    (tail : List Char) : ∀ d ∈ deadMessages, ¬ d.toList <+: m.toList ++ tail := by
  intro d hd
  obtain ⟨hlength, hne⟩ := hdead d hd
  exact not_prefix_append hne hlength hm tail

theorem HasFault.message_alive (h : HasFault text ds e f) :
    ∀ d ∈ deadMessages, ¬ d.toList <+: f.message.toList := by
  induction h with
  | @head _ _ _ _ _ found _ _ _ =>
      have hmessage : (ReadFault.headNotSymbol (String.ofList found)).message =
          "Expression head must be a symbol, found `" ++ String.ofList found ++ "`." := rfl
      rw [hmessage, String.toList_append, String.toList_append, List.append_assoc]
      exact not_dead_append (by decide +kernel) (by decide +kernel) _
  | empty => decide +kernel
  | @integer w _ _ _ _ _ =>
      have hmessage : (ReadFault.integerOutOfRange w).message =
          "Integer literal `" ++ w ++ "` is out of range." := rfl
      rw [hmessage, String.toList_append, String.toList_append, List.append_assoc]
      exact not_dead_append (by decide +kernel) (by decide +kernel) _
  | inside _ ih => exact ih
  | later _ ih => exact ih

namespace Script

open Peg

/-- Reading a text that is grouped reports the leftmost fault of its data. -/
theorem reports_read (hsplits : Splits s.content.toList ts) (hgroups : Groups ts ds) :
    Reports s ds s.read := by
  obtain ⟨q, hscans⟩ := hsplits
  have hlocated := located_of_groups hgroups ⟨[], rfl, rfl⟩ hscans
  rw [read, ofText_eq_ok_iff.mpr ⟨ts, ⟨q, hscans⟩, hgroups⟩]
  exact reports_of_located ds hlocated

theorem message_alive {err : ReadError} (herr : s.read = .error err) :
    ∀ d ∈ deadMessages, ¬ d.toList <+: err.fault.message.toList := by
  cases hdata : Datum.ofText s.content.toList with
  | error f =>
      rw [read, hdata] at herr
      cases herr
      have hmessage : ∀ what, (ReadFault.expected what).message =
          "Syntax error: expected " ++ what.text := fun _ => rfl
      rw [ReadError.ofNesting, hmessage, String.toList_append]
      exact not_dead_append (by decide +kernel) (by decide +kernel) _
  | ok ds =>
      obtain ⟨ts, hsplits, hgroups⟩ := ofText_eq_ok_iff.mp hdata
      obtain ⟨e, -, hleft⟩ := (reports_read hsplits hgroups).leftmost herr
      exact hleft.fault.message_alive

/-- **Reading tells the leftmost fault.**  A text that the program rule refuses has a syntax error,
whatever else is wrong with it.  The pairs of any other text are turned into trees, or into the
error of the leftmost fault of its data, with the extent where that stands; a head that is no symbol
goes before what else is wrong with it, and is quoted.  The other errors that the pairs could have
are never met. -/
theorem read_faults (s : Script) :
    (Derives (.rule .program) .first s.content.toList .fail →
      ∃ what, ∃ p : Position, s.read = .error ⟨.expected what, ⟨some (p.inFile s.name), none⟩⟩) ∧
    (∀ pairs w rest, Derives (.rule .program) .first s.content.toList (.ok pairs w rest) →
      s.read = readProgram s pairs) ∧
    (∀ ts ds, Splits s.content.toList ts → Groups ts ds →
      ((∃ err, s.read = .error err) ↔ ∃ e f, HasFault s.content.toList ds e f) ∧
      (∀ err, s.read = .error err → ∃ e, err.place = e.inFile s.name ∧
        Leftmost s.content.toList ds e err.fault) ∧
      ∀ e found, HasFault s.content.toList ds e (.headNotSymbol found) →
        (∀ e' f', HasFault s.content.toList ds e' f' → ¬ e'.start < e.start) →
        s.read = .error ⟨.headNotSymbol found, e.inFile s.name⟩ ∧
          (∃ before after, e.Cuts s.content.toList before found.toList after) ∧
          (ReadFault.headNotSymbol found).message =
            "Expression head must be a symbol, found `" ++ found ++ "`.") ∧
    ∀ err, s.read = .error err → ∀ d ∈ deadMessages, ¬ d.toList <+: err.fault.message.toList := by
  refine ⟨?_, fun pairs w rest hpairs => (readProgram_eq_read hpairs).symm, ?_,
    fun err herr => message_alive herr⟩
  · intro hfail
    obtain ⟨f, hf⟩ := program_fail_iff.mp hfail
    rw [read, hf]
    exact ⟨_, _, rfl⟩
  · intro ts ds hsplits hgroups
    have hreports := reports_read hsplits hgroups
    refine ⟨hreports.error_iff, fun err herr => hreports.leftmost herr, ?_⟩
    intro e found hf hfirst
    exact ⟨hreports.eq_head hf hfirst, hf.cuts rfl, rfl⟩

/-- In `(())` the inner call is a head that is no symbol before it is a call with nothing in it. -/
theorem read_faults_empty_head :
    (Script.mk "t.hy" (String.ofList ['(', '(', ')', ')'])).read =
      .error ⟨.headNotSymbol "()",
        ⟨some ⟨"t.hy", 1, 2⟩, some ⟨⟨"t.hy", 1, 2⟩, ⟨"t.hy", 1, 4⟩⟩⟩⟩ := by
  have hopen : ('(', .opening .round) ∈ brackets := by decide
  have hclose : (')', .closing .round) ∈ brackets := by decide
  have hsplits : Splits ['(', '(', ')', ')'] _ :=
    ⟨_, .bracket hopen (.bracket hopen (.bracket hclose (.bracket hclose .done)))⟩
  have hinner : Groups [⟨.opening .round, ⟨⟨1, 2⟩, ⟨1, 3⟩⟩⟩, ⟨.closing .round, ⟨⟨1, 3⟩, ⟨1, 4⟩⟩⟩]
      [.group .round [] ⟨⟨1, 2⟩, ⟨1, 4⟩⟩] := @Groups.group _ _ _ [] _ _ _ .nil .nil
  have hgroups := @Groups.group .round ⟨⟨1, 1⟩, ⟨1, 2⟩⟩ ⟨⟨1, 4⟩, ⟨1, 5⟩⟩ _ _ _ _ hinner .nil
  have hcuts : Extent.Cuts ⟨⟨1, 2⟩, ⟨1, 4⟩⟩ ['(', '(', ')', ')'] ['('] ['(', ')'] [')'] :=
    ⟨rfl, by rw [Position.advance_eq]; rfl, by rw [Position.advance_eq]; rfl⟩
  have hhead : HasFault ['(', '(', ')', ')'] [.group .round [.group .round [] ⟨⟨1, 2⟩, ⟨1, 4⟩⟩] _] _
      (.headNotSymbol (String.ofList ['(', ')'])) :=
    .head (e := ⟨⟨1, 1⟩, ⟨1, 5⟩⟩) (d := .group .round [] ⟨⟨1, 2⟩, ⟨1, 4⟩⟩)
      (fun _ _ heq => by cases heq) hcuts
  have hfirst : ∀ e' f', HasFault ['(', '(', ')', ')']
      [.group .round [.group .round [] ⟨⟨1, 2⟩, ⟨1, 4⟩⟩] ⟨⟨1, 1⟩, ⟨1, 5⟩⟩] e' f' →
      ¬ e'.start < ⟨1, 2⟩ := by
    intro e' f' hf
    cases hf with
    | head _ _ => exact Position.lt_irrefl _
    | inside hf =>
        cases hf with
        | empty => exact Position.lt_irrefl _
        | inside hf => cases hf
        | later hf => cases hf
    | later hf => cases hf
  have htext : (Script.mk "t.hy" (String.ofList ['(', '(', ')', ')'])).content.toList =
      ['(', '(', ')', ')'] := String.toList_ofList
  have hread := (read_faults ⟨"t.hy", String.ofList ['(', '(', ')', ')']⟩).2.2.1 _ _
    (by rw [htext]; exact hsplits) hgroups
  rw [htext] at hread
  exact (hread.2.2 _ _ hhead hfirst).1

end Script

end FormLower
