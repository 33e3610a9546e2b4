import FormLower.Proofs.Lowering.Inertness
import FormLower.Proofs.Lowering.Tables
import Mathlib.Data.List.Induction

/-! # Operations with many operands

An operation with more than two operands is put together from the left: each operand is joined to
what the operands before it have become.  `LeftNested` says what comes of it, and
`lower_operation_nested` that taking the last operand out of a call of its own makes no difference
but for locations. -/

namespace FormLower

/-! ### Trees that are nested along the left -/

/-- `t` consists of operations that are nested along the left, around `first`: an operation for each
of the other operands, the last one outermost, with that operand on the right. -/
inductive LeftNested (op : Arithmetic) (l : Option Location) (first : Target) :
    List Target → Target → Prop
  | first : LeftNested op l first [] first
  | join {others : List Target} {t operand : Target} :
      LeftNested op l first others t →
      LeftNested op l first (others ++ [operand]) (.binary t op operand l)

variable {op : Arithmetic} {l : Option Location} {first t : Target} {others : List Target}

theorem leftNested_iff_foldl :
    LeftNested op l first others t ↔
      t = others.foldl (fun left right => .binary left op right l) first := by
  constructor
  · intro h
    induction h with
    | first => rfl
    | join _ ih => rw [List.foldl_concat, ← ih]
  · rintro rfl
    induction others using List.reverseRecOn with
    | nil => exact .first
    | append_singleton others operand ih =>
        rw [List.foldl_concat]
        exact .join ih

theorem leftNested_concat_iff {operand : Target} :
    LeftNested op l first (others ++ [operand]) t ↔
      ∃ u, LeftNested op l first others u ∧ t = .binary u op operand l := by
  simp only [leftNested_iff_foldl, List.foldl_concat, exists_eq_left]

theorem LeftNested.erase (h : LeftNested op l first others t) :
    LeftNested op none first.erase (others.map Target.erase) t.erase := by
  rw [leftNested_iff_foldl] at h ⊢
  rw [h]
  exact Relabelling.forget.target_foldl_binary ..

/-! ### Lowering -/

theorem Arithmetic.ofSymbol?_symbol (op : Arithmetic) : ofSymbol? op.symbol = some op := by
  cases op <;> rfl

namespace Forms

variable {forms : Forms} {r : Lowered}

/-- An operand is lowered to one expression. -/
def LowersTo (forms : Forms) (s : Source) (t : Target) : Prop :=
  (forms.lower s).result = .ok (.single t)

/-- **An operation is lowered when it has two operands or more and each of them is lowered to an
expression; the expressions are nested along the left.** -/
theorem lower_operation_eq_ok_iff (hm : forms.meaning op.symbol = .special .arithmetic)
    {a : Source} {as : List Source} {place : Place} :
    (forms.lower (.call op.symbol (a :: as) place)).result = .ok r ↔
      as ≠ [] ∧ ∃ t ts u, forms.LowersTo a t ∧ List.Forall₂ forms.LowersTo as ts ∧
        LeftNested op place.location t ts u ∧ r = .single u := by
  have hargs {t : Target} {ts : List Target} :
      (∃ ns, forms.LowersAll (a :: as) ns ((t :: ts).map .single)) ↔
        forms.LowersTo a t ∧ List.Forall₂ forms.LowersTo as ts := by
    rw [exists_lowersAll_iff_forall₂, List.map_cons, List.forall₂_cons, List.forall₂_map_right_iff]
    rfl
  rw [← Run.exists_gives_iff]
  simp only [leftNested_iff_foldl]
  constructor
  · rintro ⟨ns, h⟩
    change (forms.lowerCall ⟨op.symbol, place⟩ (forms.lowerArgs (a :: as))).Gives ns r at h
    obtain ⟨ms, rs, ms', hall, hbuild, -⟩ := (gives_special hm).mp h
    obtain ⟨op', t, u, ts, hop, rfl, -, rfl⟩ := SpecialForm.gives_buildArithmetic.mp hbuild
    obtain rfl : op = op' := Option.some.inj (op.ofSymbol?_symbol.symm.trans hop)
    obtain ⟨ht, hts⟩ := hargs.mp ⟨ms, hall⟩
    refine ⟨?_, t, u :: ts, _, ht, hts, rfl, rfl⟩
    rintro rfl
    cases hts
  · rintro ⟨hne, t, ts, _, ht, hts, rfl, rfl⟩
    obtain ⟨ns, hall⟩ := hargs.mpr ⟨ht, hts⟩
    cases hts with
    | nil => exact absurd rfl hne
    | cons _ _ =>
        exact ⟨_, lowers_call_iff.mpr (.arithmetic hm op.ofSymbol?_symbol hall)⟩

/-- What an operation is lowered to, and what it is lowered to when the operands before the last one
are put into a call of their own. -/
theorem lower_nested_of_flat (hm : forms.meaning op.symbol = .special .arithmetic)
    {args : List Source} {last : Source} {p q p' : Place} (hargs : 2 ≤ args.length)
    (h : (forms.lower (.call op.symbol (args ++ [last]) p)).result = .ok r) :
    ∃ r', (forms.lower (.call op.symbol [.call op.symbol args q, last] p')).result = .ok r' ∧
      r.erase = r'.erase := by
  match args, hargs with
  | a :: b :: as, _ =>
      obtain ⟨-, t, _, _, ht, hts, hflat, rfl⟩ := (lower_operation_eq_ok_iff hm).mp h
      obtain ⟨ts, v, rfl, hts, hv⟩ := forall₂_concat_left_iff.mp hts
      obtain ⟨u, hu, rfl⟩ := leftNested_concat_iff.mp hflat
      obtain ⟨w, hw⟩ : ∃ w, LeftNested op q.location t ts w := ⟨_, leftNested_iff_foldl.mpr rfl⟩
      have hinner : forms.LowersTo (.call op.symbol (a :: b :: as) q) w :=
        (lower_operation_eq_ok_iff hm).mpr ⟨by simp, t, ts, w, ht, hts, hw, rfl⟩
      have hsame : u.erase = w.erase :=
        (leftNested_iff_foldl.mp hu.erase).trans (leftNested_iff_foldl.mp hw.erase).symm
      refine ⟨_, (lower_operation_eq_ok_iff hm).mpr
        ⟨by simp, w, [v], _, hinner, .cons hv .nil, .join .first, rfl⟩, ?_⟩
      change Lowered.single (.binary u.erase op v.erase none) =
        .single (.binary w.erase op v.erase none)
      rw [hsame]

/-- An operation is lowered if it is lowered with the operands before the last one in a call of
their own. -/
theorem lower_flat_of_nested (hm : forms.meaning op.symbol = .special .arithmetic)
    {args : List Source} {last : Source} {p q p' : Place} (hargs : 2 ≤ args.length)
    (h : (forms.lower (.call op.symbol [.call op.symbol args q, last] p')).result = .ok r) :
    ∃ r', (forms.lower (.call op.symbol (args ++ [last]) p)).result = .ok r' := by
  match args, hargs with
  | a :: b :: as, _ =>
      obtain ⟨-, w, _, _, hinner, hlast, -⟩ := (lower_operation_eq_ok_iff hm).mp h
      obtain ⟨v, _, hv, -, rfl⟩ := List.forall₂_cons_left_iff.mp hlast
      obtain ⟨-, t, ts, _, ht, hts, -, -⟩ := (lower_operation_eq_ok_iff hm).mp hinner
      exact ⟨_, (lower_operation_eq_ok_iff hm).mpr ⟨by simp, t, ts ++ [v], _, ht,
        forall₂_concat_left_iff.mpr ⟨ts, v, rfl, hts, hv⟩, leftNested_iff_foldl.mpr rfl, rfl⟩⟩

end Forms

/-- **An arithmetic operation with many operands is an operation nested along the left.**  Where the
symbol of the operator stands for arithmetic, a call of it is lowered when it has two operands or
more and each of them is lowered to an expression; one operation is built for each operand after
the first, with that operand on the right and the operations of the operands before it on the left,
around the first operand.  So it makes no difference, but for locations, when the operands before
the last one are put into a call of their own. -/
theorem lower_operation_nested (forms : Forms) {op : Arithmetic}
    (hm : forms.meaning op.symbol = .special .arithmetic) :
    (∀ (first : Source) (others : List Source) (place : Place) (r : Lowered),
      (forms.lower (.call op.symbol (first :: others) place)).result = .ok r ↔
        others ≠ [] ∧ ∃ t ts u, (forms.lower first).result = .ok (.single t) ∧
          List.Forall₂ (fun s v => (forms.lower s).result = .ok (.single v)) others ts ∧
          LeftNested op place.location t ts u ∧ r = .single u) ∧
    ∀ (args : List Source) (last : Source) (p q p' : Place), 2 ≤ args.length →
      ((∃ r, (forms.lower (.call op.symbol (args ++ [last]) p)).result = .ok r) ↔
        ∃ r, (forms.lower (.call op.symbol [.call op.symbol args q, last] p')).result = .ok r) ∧
      ∀ r r', (forms.lower (.call op.symbol (args ++ [last]) p)).result = .ok r →
        (forms.lower (.call op.symbol [.call op.symbol args q, last] p')).result = .ok r' →
        r.erase = r'.erase := by
  refine ⟨fun first others place r => Forms.lower_operation_eq_ok_iff hm, ?_⟩
  intro args last p q p' hargs
  refine ⟨⟨?_, ?_⟩, ?_⟩
  · rintro ⟨r, hflat⟩
    obtain ⟨r', hnested, -⟩ := Forms.lower_nested_of_flat hm hargs hflat
    exact ⟨r', hnested⟩
  · rintro ⟨r, hnested⟩
    exact Forms.lower_flat_of_nested hm hargs hnested
  · intro r r' hflat hnested
    obtain ⟨w, hw, herase⟩ := Forms.lower_nested_of_flat hm hargs hflat
    rw [herase, Except.ok.inj (hw.symm.trans hnested)]

/-- In `(+ (+ a b) c d)` the first operand is a sum itself; with `(+ (+ a b) c)` in a call of its
own the same tree is built. -/
theorem lower_operation_nested_sum :
    let ab : Source := .call "+" [.symbol "a", .symbol "b"] .unknown
    let flat : Source := .call "+" [ab, .symbol "c", .symbol "d"] .unknown
    let nested : Source := .call "+" [.call "+" [ab, .symbol "c"] .unknown, .symbol "d"] .unknown
    let x (id : String) : Target := .name id .load none
    let sum : Target :=
      .binary (.binary (.binary (x "a") .add (x "b") none) .add (x "c") none) .add (x "d") none
    Forms.default.meaning Arithmetic.add.symbol = .special .arithmetic ∧
      (Forms.default.lower flat).result = .ok (.single sum) ∧
      (∃ t ts u, (Forms.default.lower ab).result = .ok (.single t) ∧
        List.Forall₂ (fun s v => (Forms.default.lower s).result = .ok (.single v))
          [.symbol "c", .symbol "d"] ts ∧
        LeftNested .add none t ts u ∧ Lowered.single sum = .single u) ∧
      ∀ r, (Forms.default.lower nested).result = .ok r → (Lowered.single sum).erase = r.erase := by
  intro ab flat nested x sum
  have hm : Forms.default.meaning Arithmetic.add.symbol = .special .arithmetic := rfl
  have hflat : (Forms.default.lower flat).result = .ok (.single sum) := rfl
  obtain ⟨hshape, hnested⟩ := lower_operation_nested Forms.default hm
  refine ⟨hm, hflat, ((hshape ab _ .unknown _).mp hflat).2, fun r hr => ?_⟩
  exact (hnested [ab, .symbol "c"] (.symbol "d") .unknown .unknown .unknown (by decide)).2 _ r
    hflat hr

end FormLower
