import FormLower.Lowering.Requests
import FormLower.Proofs.Lowering.Readings
import Mathlib.Data.List.Forall2
import Mathlib.Data.List.Induction

/-! # Cursors move over the arguments

A cursor over some arguments is determined by how many of them it has taken.  `Outcome` says for a
cursor at a position what every request is answered with and where the cursor stands then, and
`served` that requests are served in this way.  A cursor moves past an argument exactly when its
answer hands the argument out or reports it, so that after any requests, those that fail included,
it has taken the arguments that were handed out or reported (`cursor_walks`).

A request for more arguments than a machine word can count has no error that names how many are
needed.  Whether the sum begins again from zero or the request panics is up to the build; the
cursor stays as it is in either. -/

namespace FormLower

/-! ### Readings that leave the cursor where it is -/

namespace Reading

variable {ρ : Type}

theorem asName_snd (what : String) (s : Source) (c : Cursor ρ) : (asName what s c).2 = c := by
  unfold asName
  cases s.rawText? <;> rfl

theorem asNames_snd (what : String) (ss : List Source) (c : Cursor ρ) :
    (asNames what ss c).2 = c := by
  induction ss with
  | nil => rfl
  | cons s ss ih =>
      have hs := asName_snd what s c
      rcases h : asName what s c with ⟨e | name, c'⟩
      · rw [h] at hs
        rw [asNames, bind_eq_of_error h]
        exact hs
      · rw [h] at hs
        subst hs
        rw [asNames, bind_eq_of_ok h]
        rcases hss : asNames what ss c' with ⟨e | names, d⟩
        · rw [hss] at ih
          rw [bind_eq_of_error hss]
          exact ih
        · rw [hss] at ih
          rw [bind_eq_of_ok hss]
          exact ih

end Reading

namespace Cursor

open Reading

variable {ρ : Type} {overflow : Overflow} {site : Site} {args : List (Argument ρ)}
  {pos pos' : Nat} {a : Argument ρ} {r : Request} {answer : Answer ρ}

/-- How many arguments have been taken. -/
def position (c : Cursor ρ) : Nat := c.taken.length

/-- The cursor over some arguments that has taken so many of them. -/
def reached (site : Site) (args : List (Argument ρ)) (pos : Nat) : Cursor ρ :=
  ⟨site, args.take pos, args.drop pos⟩

theorem start_eq_reached (site : Site) (args : List (Argument ρ)) :
    start site args = reached site args 0 := rfl

theorem position_reached (h : pos ≤ args.length) : (reached site args pos).position = pos :=
  List.length_take_of_le h

theorem args_reached : (reached site args pos).args = args := List.take_append_drop pos args

/-! ### Answers -/

/-- Whether an answer hands an argument out or reports one. -/
def Answer.takes : Answer ρ → Bool
  | .given _ | .named _ | .namedAll _ => true
  | .failed e => e.kind = .malformed
  | .seen _ | .declined | .enough | .remaining _ | .panicked => false

/-- An answer hands out an argument: the argument itself, the name that it is, or the names that the
members of it are, one for each and in their order; or it reports the argument or a member of it as
malformed. -/
inductive Answer.Shows : Answer ρ → Argument ρ → Prop
  | given (a : Argument ρ) : Shows (.given a) a
  | named {name : Named} {a : Argument ρ} :
      name.2 = a.source → Names name → Shows (.named name) a
  | namedAll {names : List Named} {place : Place} {a : Argument ρ} :
      a.source = .list (names.map Prod.snd) place → (∀ n ∈ names, Names n) →
      Shows (.namedAll names) a
  | malformed {form what : String} {a : Argument ρ} :
      Shows (.failed (.malformed form what a.source)) a
  | malformedMember {form what : String} {elements : List Source} {place : Place} {found : Source}
      {a : Argument ρ} :
      a.source = .list elements place → found ∈ elements →
      Shows (.failed (.malformed form what found)) a

/-- Whether a request is for an argument that has to be there. -/
def Request.needsOne : Request → Bool
  | .next | .name _ | .nameList _ => true
  | .peek | .nextIf _ | .require _ | .remaining => false

/-- What a request to the cursor at a position is answered with, and the position then. -/
inductive Outcome (overflow : Overflow) (site : Site) (args : List (Argument ρ)) (pos : Nat) :
    Request → Answer ρ → Nat → Prop
  | peek : Outcome overflow site args pos .peek (.seen args[pos]?) pos
  | remaining : Outcome overflow site args pos .remaining (.remaining (args.drop pos)) pos
  | next {a : Argument ρ} :
      args[pos]? = some a → Outcome overflow site args pos .next (.given a) (pos + 1)
  | nextIf {wanted : Source → Bool} {a : Argument ρ} :
      args[pos]? = some a → wanted a.source →
      Outcome overflow site args pos (.nextIf wanted) (.given a) (pos + 1)
  | declined {wanted : Source → Bool} :
      (∀ a, args[pos]? = some a → wanted a.source = false) →
      Outcome overflow site args pos (.nextIf wanted) .declined pos
  | name {what text : String} {a : Argument ρ} :
      args[pos]? = some a → a.source.rawText? = some text →
      Outcome overflow site args pos (.name what) (.named (text, a.source)) (pos + 1)
  | notName {what : String} {a : Argument ρ} :
      args[pos]? = some a → a.source.rawText? = none →
      Outcome overflow site args pos (.name what) (.failed (.malformed site.form what a.source))
        (pos + 1)
  | nameList {what : String} {names : List Named} {place : Place} {a : Argument ρ} :
      args[pos]? = some a → a.source = .list (names.map Prod.snd) place →
      (∀ n ∈ names, Names n) →
      Outcome overflow site args pos (.nameList what) (.namedAll names) (pos + 1)
  | notNames {what : String} {found : Source} {a : Argument ρ} :
      args[pos]? = some a → NotNames a.source found →
      Outcome overflow site args pos (.nameList what) (.failed (.malformed site.form what found))
        (pos + 1)
  | exhausted {r : Request} :
      r.needsOne → args[pos]? = none →
      Outcome overflow site args pos r (.failed (site.arity (pos + 1) args.length)) pos
  | enough {count : UInt64} :
      pos + count.toNat ≤ args.length →
      Outcome overflow site args pos (.require count) .enough pos
  | short {count : UInt64} :
      args.length < pos + count.toNat → pos + count.toNat < UInt64.size →
      Outcome overflow site args pos (.require count)
        (.failed (site.arity (pos + count.toNat) args.length)) pos
  | wrapped {count : UInt64} :
      overflow = .wraps → args.length < pos + count.toNat → UInt64.size ≤ pos + count.toNat →
      Outcome overflow site args pos (.require count)
        (.failed (site.arity ((pos + count.toNat) % UInt64.size) args.length)) pos
  | panicked {count : UInt64} :
      overflow = .panics → args.length < pos + count.toNat → UInt64.size ≤ pos + count.toNat →
      Outcome overflow site args pos (.require count) .panicked pos

/-- The cursor moves on by one when the answer hands out or reports an argument, and else stays
where it is. -/
theorem Outcome.position_eq (h : Outcome overflow site args pos r answer pos') :
    pos' = pos + if answer.takes then 1 else 0 := by
  cases h <;> rfl

theorem Outcome.shows (h : Outcome overflow site args pos r answer pos') (ht : answer.takes) :
    ∃ a, args[pos]? = some a ∧ answer.Shows a := by
  cases h with
  | next ha => exact ⟨_, ha, .given _⟩
  | nextIf ha _ => exact ⟨_, ha, .given _⟩
  | name ha htext => exact ⟨_, ha, .named rfl htext⟩
  | notName ha _ => exact ⟨_, ha, .malformed⟩
  | nameList ha hlist hnames => exact ⟨_, ha, .namedAll hlist hnames⟩
  | @notNames _ found a ha hfound =>
      refine ⟨a, ha, ?_⟩
      obtain ⟨source, outcome⟩ := a
      cases hfound with
      | notList _ => exact .malformed
      | element _ _ => exact .malformedMember rfl (by simp)
  | peek | remaining | declined _ | exhausted _ _ | enough _ | short _ _ | wrapped _ _ _
  | panicked _ _ _ => cases ht

theorem Outcome.position_le (h : Outcome overflow site args pos r answer pos')
    (hpos : pos ≤ args.length) : pos' ≤ args.length := by
  rw [h.position_eq]
  split
  · next ht =>
      obtain ⟨a, ha, -⟩ := h.shows ht
      have hlt := (List.getElem?_eq_some_iff.mp ha).1
      omega
  · exact hpos

/-! ### One request -/

theorem take_succ_of_getElem? (h : args[pos]? = some a) :
    args.take (pos + 1) = args.take pos ++ [a] := by
  rw [List.take_add_one, h]
  rfl

theorem drop_of_getElem? (h : args[pos]? = some a) : args.drop pos = a :: args.drop (pos + 1) := by
  obtain ⟨hlt, rfl⟩ := List.getElem?_eq_some_iff.mp h
  exact List.drop_eq_getElem_cons hlt

theorem advance_reached (h : args[pos]? = some a) :
    advance (reached site args pos) [a] (args.drop (pos + 1)) = reached site args (pos + 1) := by
  simp only [reached, advance, take_succ_of_getElem? h]

theorem next_reached (h : args[pos]? = some a) :
    Reading.next (reached site args pos) = (.ok a, reached site args (pos + 1)) := by
  rw [next_eq_ok_iff]
  exact ⟨_, drop_of_getElem? h, (advance_reached h).symm⟩

theorem shortage_reached (needed : Nat) :
    (reached site args pos).shortage needed = site.arity needed args.length := by
  rw [shortage, args_reached]
  rfl

theorem needed_reached (h : pos ≤ args.length) (count : UInt64) :
    ((reached site args pos).needed count).toNat = (pos + count.toNat) % UInt64.size := by
  have htaken : (reached site args pos).taken.length = pos := position_reached h
  rw [needed, htaken, UInt64.toNat_add, UInt64.toNat_ofNat', Nat.mod_add_mod]

theorem overflows_reached (h : pos ≤ args.length) (count : UInt64) :
    (reached site args pos).Overflows count ↔
      args.length < pos + count.toNat ∧ UInt64.size ≤ pos + count.toNat := by
  have htaken : (reached site args pos).taken.length = pos := position_reached h
  have hrest : (reached site args pos).rest.length = args.length - pos := List.length_drop
  rw [Overflows, htaken, hrest]
  omega

theorem next_reached_of_none (h : pos ≤ args.length) (hnone : args[pos]? = none) :
    Reading.next (reached site args pos) =
      (.error (site.arity (pos + 1) args.length), reached site args pos) := by
  have hlen : args.length ≤ pos := List.getElem?_eq_none_iff.mp hnone
  have hrest : (reached site args pos).rest = [] := List.drop_eq_nil_of_le hlen
  have htaken : (reached site args pos).taken.length = pos := position_reached h
  rw [Reading.next, hrest, htaken, shortage_reached]

theorem next_bind_reached_of_none {α : Type} (h : pos ≤ args.length) (hnone : args[pos]? = none)
    (f : Argument ρ → Reading ρ α) :
    (Reading.next >>= f) (reached site args pos) =
      (.error (site.arity (pos + 1) args.length), reached site args pos) :=
  bind_eq_of_error (next_reached_of_none h hnone)

theorem name_reached (h : args[pos]? = some a) (what : String) :
    Reading.name what (reached site args pos) =
      ((asName what a.source (reached site args (pos + 1))).1, reached site args (pos + 1)) := by
  rw [Reading.name, bind_eq_of_ok (next_reached h)]
  exact Prod.ext rfl (asName_snd ..)

theorem nameList_reached (site : Site) (h : args[pos]? = some a) (what : String) :
    (Reading.nameList what (reached site args pos)).2 = reached site args (pos + 1) := by
  rw [Reading.nameList, bind_eq_of_ok (next_reached h)]
  obtain ⟨source, outcome⟩ := a
  cases source with
  | list elements place => exact asNames_snd ..
  | leaf value place => rfl
  | call head args place => rfl

theorem answered_of_ok {α : Type} {c c' : Cursor ρ} {x : Reading ρ α} {b : α}
    (h : x c = (.ok b, c')) (render : α → Answer ρ) : c.answered x render = (render b, c') := by
  rw [answered, h]

theorem answered_of_error {α : Type} {c c' : Cursor ρ} {x : Reading ρ α} {e : LoweringError}
    (h : x c = (.error e, c')) (render : α → Answer ρ) :
    c.answered x render = (.failed e, c') := by
  rw [answered, h]

/-- The request is answered as the position of the cursor says, and leaves it at the position that
goes with the answer. -/
def Served (overflow : Overflow) (site : Site) (args : List (Argument ρ)) (pos : Nat)
    (r : Request) : Prop :=
  ∃ answer pos', (reached site args pos).serve overflow r = (answer, reached site args pos') ∧
    Outcome overflow site args pos r answer pos'

theorem served_peek : Served overflow site args pos .peek := by
  refine ⟨_, pos, rfl, ?_⟩
  rw [peek, reached, List.head?_drop]
  exact .peek

theorem served_remaining : Served overflow site args pos .remaining :=
  ⟨_, pos, rfl, .remaining⟩

theorem served_next (h : pos ≤ args.length) : Served overflow site args pos .next := by
  cases ha : args[pos]? with
  | none => exact ⟨_, pos, answered_of_error (next_reached_of_none h ha) _, .exhausted rfl ha⟩
  | some a => exact ⟨_, pos + 1, answered_of_ok (next_reached ha) _, .next ha⟩

theorem served_nextIf (wanted : Source → Bool) :
    Served overflow site args pos (.nextIf wanted) := by
  have hhead : (reached site args pos).rest.head? = args[pos]? := List.head?_drop
  have hdeclined (hwanted : ∀ a, args[pos]? = some a → wanted a.source = false) :
      Served overflow site args pos (.nextIf wanted) := by
    refine ⟨_, pos, answered_of_ok (nextIf_eq_none_iff.mpr ⟨?_, rfl⟩) _, .declined hwanted⟩
    rwa [hhead]
  cases ha : args[pos]? with
  | none => exact hdeclined (by simp [ha])
  | some a =>
      cases hwanted : wanted a.source with
      | false => exact hdeclined (by simp [ha, hwanted])
      | true =>
          refine ⟨_, pos + 1, answered_of_ok (nextIf_eq_some_iff.mpr ?_) _, .nextIf ha hwanted⟩
          exact ⟨_, drop_of_getElem? ha, hwanted, (advance_reached ha).symm⟩

theorem served_name (h : pos ≤ args.length) (what : String) :
    Served overflow site args pos (.name what) := by
  cases ha : args[pos]? with
  | none => exact ⟨_, pos, answered_of_error (next_bind_reached_of_none h ha _) _, .exhausted rfl ha⟩
  | some a =>
      cases htext : a.source.rawText? with
      | none =>
          refine ⟨_, pos + 1, answered_of_error (e := .malformed site.form what a.source) ?_ _,
            .notName ha htext⟩
          rw [name_reached ha, asName_eq_error_iff.mpr ⟨htext, rfl⟩]
          rfl
      | some text =>
          refine ⟨_, pos + 1, answered_of_ok (name_eq_ok_iff.mpr ?_) _, .name ha htext⟩
          exact ⟨a, _, drop_of_getElem? ha, rfl, htext, (advance_reached ha).symm⟩

theorem served_nameList (h : pos ≤ args.length) (what : String) :
    Served overflow site args pos (.nameList what) := by
  cases ha : args[pos]? with
  | none => exact ⟨_, pos, answered_of_error (next_bind_reached_of_none h ha _) _, .exhausted rfl ha⟩
  | some a =>
      have hrest : (reached site args pos).rest = a :: args.drop (pos + 1) := drop_of_getElem? ha
      have hpos := nameList_reached site ha what
      rcases hlist : Reading.nameList what (reached site args pos) with ⟨e | names, c'⟩
      · rw [hlist] at hpos
        subst hpos
        rcases nameList_eq_error_iff.mp (congrArg Prod.fst hlist) with
          ⟨hnil, -⟩ | ⟨b, rest, found, hb, hfound, rfl⟩
        · rw [hrest] at hnil
          cases hnil
        · cases hrest.symm.trans hb
          exact ⟨_, pos + 1, answered_of_error hlist _, .notNames ha hfound⟩
      · rw [hlist] at hpos
        subst hpos
        obtain ⟨b, rest, place, hb, hsource, hnames, -⟩ := nameList_eq_ok_iff.mp hlist
        cases hrest.symm.trans hb
        exact ⟨_, pos + 1, answered_of_ok hlist _, .nameList ha hsource hnames⟩

theorem served_require (h : pos ≤ args.length) (count : UInt64) :
    Served overflow site args pos (.require count) := by
  have hrest : (reached site args pos).rest.length = args.length - pos := List.length_drop
  by_cases hpanic : overflow = .panics ∧ (reached site args pos).Overflows count
  · obtain ⟨hfew, hlarge⟩ := (overflows_reached h count).mp hpanic.2
    exact ⟨_, pos, if_pos hpanic, .panicked hpanic.1 hfew hlarge⟩
  have hserve : (reached site args pos).serve overflow (.require count) =
      (reached site args pos).answered (Reading.require count) fun _ => .enough := if_neg hpanic
  rcases Nat.lt_or_ge args.length (pos + count.toNat) with hfew | henough
  · have herror : Reading.require count (reached site args pos) =
        (.error (site.arity ((pos + count.toNat) % UInt64.size) args.length),
          reached site args pos) := by
      rw [Reading.require, if_pos (by omega), shortage_reached, needed_reached h]
    refine ⟨_, pos, hserve.trans (answered_of_error herror _), ?_⟩
    rcases Nat.lt_or_ge (pos + count.toNat) UInt64.size with hsmall | hlarge
    · rw [Nat.mod_eq_of_lt hsmall]
      exact .short hfew hsmall
    · refine .wrapped ?_ hfew hlarge
      cases overflow with
      | wraps => rfl
      | panics => exact absurd ⟨rfl, (overflows_reached h count).mpr ⟨hfew, hlarge⟩⟩ hpanic
  · have hok : Reading.require count (reached site args pos) = (.ok (), reached site args pos) := by
      rw [Reading.require, if_neg (by omega)]
    exact ⟨_, pos, hserve.trans (answered_of_ok hok _), .enough henough⟩

/-- Behind its only argument, as many more as a word can count are none in all, or a panic. -/
example :
    let site : Site := ⟨"f", .unknown⟩
    let c : Cursor Unit := reached site [⟨.symbol "x", ()⟩] 1
    c.serve .wraps (.require (-1)) = (.failed (site.arity 0 1), c) ∧
      c.serve .panics (.require (-1)) = (.panicked, c) :=
  ⟨rfl, rfl⟩

/-- **A request to a cursor is answered as its position says.** -/
theorem served (overflow : Overflow) (site : Site) (h : pos ≤ args.length) (r : Request) :
    Served overflow site args pos r := by
  cases r with
  | peek => exact served_peek
  | next => exact served_next h
  | nextIf wanted => exact served_nextIf wanted
  | name what => exact served_name h what
  | nameList what => exact served_nameList h what
  | require count => exact served_require h count
  | remaining => exact served_remaining

/-! ### Many requests -/

/-- **Whatever a cursor is asked for, it stands somewhere in its arguments, and those it has taken
are the ones that were handed out or reported, in their order.** -/
theorem serveAll_reached (overflow : Overflow) (site : Site) (args : List (Argument ρ))
    (rs : List Request) :
    ∃ pos ≤ args.length,
      (serveAll (serve overflow) (start site args) rs).2 = reached site args pos ∧
      List.Forall₂ Answer.Shows
        ((serveAll (serve overflow) (start site args) rs).1.filter Answer.takes)
        (args.take pos) := by
  induction rs using List.reverseRecOn with
  | nil => exact ⟨0, Nat.zero_le _, start_eq_reached site args, .nil⟩
  | append_singleton rs r ih =>
      obtain ⟨pos, hpos, hcursor, hshown⟩ := ih
      obtain ⟨answer, pos', hserve, houtcome⟩ := served overflow site hpos r
      refine ⟨pos', houtcome.position_le hpos, ?_, ?_⟩
      · rw [serveAll_concat, hcursor, hserve]
      · rw [serveAll_concat, hcursor, hserve, List.filter_append, houtcome.position_eq]
        cases ht : answer.takes with
        | false => simpa [ht] using hshown
        | true =>
            obtain ⟨a, ha, hshows⟩ := houtcome.shows ht
            rw [if_pos rfl, take_succ_of_getElem? ha]
            simpa [ht] using List.rel_append hshown (.cons hshows .nil)

end Cursor

/-- **A cursor neither skips an argument nor repeats one, and never runs over the last.**  After any
requests, those that fail included, its position is at most the number of its arguments, it has
taken those before the position and those from there on are left.  The answers that hand out an
argument or report one are, in order, about the arguments that it has taken.  And whatever it is
asked next, it answers as its position says, moves on by one if the answer hands out or reports an
argument, and else stays as it is.  All this holds whether a sum that is too large for a machine
word begins again from zero or panics. -/
theorem cursor_walks {ρ : Type} (overflow : Cursor.Overflow) (site : Site)
    (args : List (Argument ρ)) (rs : List Cursor.Request) :
    let answers := (serveAll (Cursor.serve overflow) (.start site args) rs).1
    let c := (serveAll (Cursor.serve overflow) (.start site args) rs).2
    (c.position ≤ args.length ∧ c.taken = args.take c.position ∧ c.rest = args.drop c.position ∧
      c.taken ++ c.rest = args) ∧
    List.Forall₂ Cursor.Answer.Shows (answers.filter Cursor.Answer.takes) c.taken ∧
    ∀ r : Cursor.Request,
      Cursor.Outcome overflow site args c.position r (c.serve overflow r).1
        (c.serve overflow r).2.position ∧
      (c.serve overflow r).2.position =
        c.position + (if (c.serve overflow r).1.takes then 1 else 0) ∧
      ((c.serve overflow r).1.takes = false → (c.serve overflow r).2 = c) := by
  intro answers c
  obtain ⟨pos, hpos, hcursor, hshown⟩ := Cursor.serveAll_reached overflow site args rs
  have hc : c = .reached site args pos := hcursor
  rw [hc, Cursor.position_reached hpos]
  refine ⟨⟨hpos, rfl, rfl, Cursor.args_reached⟩, hshown, fun r => ?_⟩
  obtain ⟨answer, pos', hserve, houtcome⟩ := Cursor.served overflow site hpos r
  rw [hserve, Cursor.position_reached (houtcome.position_le hpos)]
  refine ⟨houtcome, houtcome.position_eq, fun ht => ?_⟩
  obtain rfl : pos' = pos := by
    rw [houtcome.position_eq, ht]
    rfl
  rfl

end FormLower
