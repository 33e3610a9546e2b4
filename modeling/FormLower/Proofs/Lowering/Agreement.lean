import FormLower.Proofs.Lowering.Provenance

/-! # Results that agree

Two runs of the lowering may come to the same although their trees stand in different forms.  Then
their values are the same, and so are their errors but for one thing: a bare list belongs to the
form right around it.  `SameResult` is this relation on results, which goes through every step
of a run; `Agree` says what can be told from it. -/

namespace FormLower

/-! ### The results of runs in parts -/

theorem mapError_bind {ε ε' α β : Type} (f : ε → ε') (x : Except ε α) (g : α → Except ε β) :
    (x >>= g).mapError f = x.mapError f >>= fun a => (g a).mapError f := by
  cases x <;> rfl

theorem mapError_map {ε ε' α β : Type} (f : ε → ε') (x : Except ε α) (g : α → β) :
    (g <$> x).mapError f = g <$> x.mapError f := by
  cases x <;> rfl

namespace Run

variable {ε ε' α β : Type}

theorem result_bind (x : Run ε α) (f : α → Run ε β) :
    (x >>= f).result = x.result >>= fun a => (f a).result := by
  change (Run.bind x f).result = _
  unfold Run.bind
  cases x.result <;> rfl

theorem result_ofExcept_bind {x : Except ε α} {a : α} (h : x = .ok a) (f : α → Run ε β) :
    (ofExcept x >>= f).result = (f a).result := by
  rw [h]
  rfl

theorem result_noteCount (n : Nat → Notice) (count : Nat) :
    (noteCount n count : Run ε Unit).result = .ok () := by
  unfold noteCount
  split <;> rfl

theorem result_all_cons (x : Run ε α) (xs : List (Run ε α)) :
    (all (x :: xs)).result = (do
      let a ← x.result
      let rest ← (all xs).result
      pure (a :: rest)) := by
  rw [all, result_bind]
  simp only [result_bind]
  rfl

theorem result_all_append (xs ys : List (Run ε α)) :
    (all (xs ++ ys)).result = (do
      let as ← (all xs).result
      let bs ← (all ys).result
      pure (as ++ bs)) := by
  induction xs with
  | nil => exact (bind_pure (all ys).result).symm
  | cons x xs ih =>
      simp only [List.cons_append, result_all_cons, ih, bind_assoc, pure_bind]

theorem result_all_mapError (f : ε → ε') (xs : List (Run ε α)) :
    (all (xs.map (mapError f))).result = (all xs).result.mapError f := by
  induction xs with
  | nil => rfl
  | cons x xs ih =>
      simp only [List.map_cons, result_all_cons, ih, mapError_bind]
      rfl

end Run

/-! ### Errors that belong to another form -/

namespace LoweringError

/-- The same error, or two errors of one of the given lists that belong to different forms. -/
inductive Reattributed (lists : Source → Prop) : LoweringError → LoweringError → Prop
  | same (e : LoweringError) : Reattributed lists e e
  | list {elements : List Source} {place : Place} (form form' : Option String) :
      lists (.list elements place) →
      Reattributed lists { unknownVariant (.list elements place) with enclosing := form }
        { unknownVariant (.list elements place) with enclosing := form' }

variable {lists : Source → Prop} {e e' : LoweringError}

theorem Reattributed.symm (h : Reattributed lists e e') : Reattributed lists e' e := by
  cases h with
  | same => exact .same e
  | list form form' hlist => exact .list form' form hlist

theorem Reattributed.inside (h : Reattributed lists e e') (form : String) :
    Reattributed lists (e.inside form) (e'.inside form) := by
  cases h with
  | same => exact .same _
  | list own own' hlist => cases own <;> cases own' <;> exact .list _ _ hlist

theorem inside_inside (e : LoweringError) (form : String) :
    (e.inside form).inside form = e.inside form := by
  obtain ⟨fault, place, enclosing⟩ := e
  unfold LoweringError.inside LoweringError.form
  cases h : fault.form <;> cases enclosing <;> simp [h]

end LoweringError

open LoweringError

/-- The same value, or errors that are the same but for the forms that some lists belong to. -/
inductive SameResult (lists : Source → Prop) {α : Type} :
    Except LoweringError α → Except LoweringError α → Prop
  | ok (a : α) : SameResult lists (.ok a) (.ok a)
  | error {e e' : LoweringError} :
      Reattributed lists e e' → SameResult lists (.error e) (.error e')

namespace SameResult

variable {α β : Type} {lists lists' : Source → Prop} {x y : Except LoweringError α}

theorem refl (x : Except LoweringError α) : SameResult lists x x := by
  cases x with
  | ok a => exact .ok a
  | error e => exact .error (.same e)

theorem symm (h : SameResult lists x y) : SameResult lists y x := by
  cases h with
  | ok a => exact .ok a
  | error h => exact .error h.symm

theorem mono (h : SameResult lists x y) (hlists : ∀ l, lists l → lists' l) :
    SameResult lists' x y := by
  cases h with
  | ok a => exact .ok a
  | error h =>
      cases h with
      | same => exact .error (.same _)
      | list form form' hlist => exact .error (.list form form' (hlists _ hlist))

theorem bind {f g : α → Except LoweringError β} (h : SameResult lists x y)
    (hfg : ∀ a, SameResult lists (f a) (g a)) : SameResult lists (x >>= f) (y >>= g) := by
  cases h with
  | ok a => exact hfg a
  | error h => exact .error h

theorem map (f : α → β) (h : SameResult lists x y) : SameResult lists (f <$> x) (f <$> y) := by
  cases h with
  | ok a => exact .ok (f a)
  | error h => exact .error h

theorem inside (form : String) (h : SameResult lists x y) :
    SameResult lists (x.mapError (LoweringError.inside form))
      (y.mapError (LoweringError.inside form)) := by
  cases h with
  | ok a => exact .ok a
  | error h => exact .error (h.inside form)

end SameResult

/-! ### What such results tell -/

/-- Errors that tell the same, but for the form that one of the given lists belongs to. -/
structure LoweringError.SameBut (lists : Source → Prop) (e e' : LoweringError) : Prop where
  kind : e.kind = e'.kind
  level : e.level = e'.level
  /-- The location and the span. -/
  place : e.place = e'.place
  issuer : e.fault.issuer = e'.fault.issuer
  attribution : e.form ≠ e'.form ∨ e.message ≠ e'.message → ∃ elements place,
    lists (.list elements place) ∧ e.fault = .unknownVariant "List" ∧ e.place = place

/-- Results that come out together and are the same, and if they do not come out errors that tell
the same but for the form that one of the given lists belongs to. -/
structure Agree (lists : Source → Prop) {α : Type} (x y : Except LoweringError α) : Prop where
  ok : ∀ a, x = .ok a ↔ y = .ok a
  error : ∀ e e', x = .error e → y = .error e' → e.SameBut lists e'

theorem LoweringError.Reattributed.sameBut {lists : Source → Prop} {e e' : LoweringError}
    (h : Reattributed lists e e') : e.SameBut lists e' := by
  cases h with
  | same => exact ⟨rfl, rfl, rfl, rfl, fun hne => by simp at hne⟩
  | @list elements place form form' hlist =>
      exact ⟨rfl, rfl, rfl, rfl, fun _ => ⟨elements, place, hlist, rfl, rfl⟩⟩

theorem SameResult.agree {lists : Source → Prop} {α : Type} {x y : Except LoweringError α}
    (h : SameResult lists x y) : Agree lists x y := by
  cases h with
  | ok a => exact ⟨fun _ => Iff.rfl, fun e e' he => by cases he⟩
  | error h =>
      constructor
      · intro a
        simp
      · intro e e' he he'
        cases he
        cases he'
        exact h.sameBut

end FormLower
