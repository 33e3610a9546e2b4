import FormLower.Lowering.Run

/-! # Runs that succeed and runs that fail

`x.Gives ns a` says that the run `x` succeeds with the value `a` and leaves the notices `ns`, and
`x.Fails e` says that it fails with the error `e`.  For every way to build a run there is one lemma
that says when it gives what, and one that says when it fails; a run of several steps is taken
apart by `gives_bind` and `fails_bind`, and a list of runs by `gives_all_cons` and `fails_all`. -/

namespace FormLower
namespace Run

variable {ε ε' α β : Type}

/-- The run succeeds with a value and leaves the given notices. -/
def Gives (x : Run ε α) (ns : List Notice) (a : α) : Prop := x = ⟨ns, .ok a⟩

/-- The notice of a count, unless there is nothing to count. -/
def counted (n : Nat → Notice) (count : Nat) : List Notice := if count = 0 then [] else [n count]

theorem exists_gives_iff {x : Run ε α} {a : α} : (∃ ns, x.Gives ns a) ↔ x.result = .ok a := by
  constructor
  · rintro ⟨ns, rfl⟩
    rfl
  · intro h
    exact ⟨x.notices, by rw [Gives, ← h]⟩

@[simp] theorem gives_pure {ns : List Notice} {a b : α} :
    (pure a : Run ε α).Gives ns b ↔ ns = [] ∧ b = a := by
  change (⟨[], .ok a⟩ : Run ε α) = ⟨ns, .ok b⟩ ↔ _
  simp [eq_comm]

theorem gives_bind {x : Run ε α} {f : α → Run ε β} {ns : List Notice} {b : β} :
    (x >>= f).Gives ns b ↔
      ∃ ns₁ a ns₂, x.Gives ns₁ a ∧ (f a).Gives ns₂ b ∧ ns = ns₁ ++ ns₂ := by
  change Run.bind x f = _ ↔ _
  obtain ⟨ms, result⟩ := x
  cases result with
  | error e => simp [Run.bind, Gives]
  | ok a =>
      constructor
      · intro h
        cases hf : f a with
        | mk ms' r =>
            simp only [Run.bind, hf, Run.mk.injEq] at h
            obtain ⟨rfl, rfl⟩ := h
            exact ⟨ms, a, ms', rfl, hf, rfl⟩
      · rintro ⟨ns₁, a', ns₂, h, hf, rfl⟩
        cases h
        simp only [Run.bind]
        rw [hf]

@[simp] theorem not_gives_fail {e : ε} {ns : List Notice} {a : α} :
    ¬ (fail e : Run ε α).Gives ns a := by
  simp [Gives, fail]

@[simp] theorem gives_note {n : Notice} {ns : List Notice} {u : Unit} :
    (note n : Run ε Unit).Gives ns u ↔ ns = [n] := by
  simp [Gives, note, eq_comm]

@[simp] theorem gives_noteCount {n : Nat → Notice} {count : Nat} {ns : List Notice} {u : Unit} :
    (noteCount n count : Run ε Unit).Gives ns u ↔ ns = counted n count := by
  unfold noteCount counted
  split
  · simp [Gives, Run.pure, eq_comm]
  · exact gives_note

@[simp] theorem gives_ofExcept {x : Except ε α} {ns : List Notice} {a : α} :
    (ofExcept x).Gives ns a ↔ ns = [] ∧ x = .ok a := by
  simp [Gives, ofExcept, eq_comm]

@[simp] theorem gives_mapError {f : ε → ε'} {x : Run ε α} {ns : List Notice} {a : α} :
    (x.mapError f).Gives ns a ↔ x.Gives ns a := by
  obtain ⟨ms, result⟩ := x
  cases result with
  | error e =>
      change (⟨ms, .error (f e)⟩ : Run ε' α) = ⟨ns, .ok a⟩ ↔
        (⟨ms, .error e⟩ : Run ε α) = ⟨ns, .ok a⟩
      simp
  | ok b =>
      change (⟨ms, .ok b⟩ : Run ε' α) = ⟨ns, .ok a⟩ ↔ (⟨ms, .ok b⟩ : Run ε α) = ⟨ns, .ok a⟩
      simp

@[simp] theorem gives_all_nil {ns : List Notice} {as : List α} :
    (all ([] : List (Run ε α))).Gives ns as ↔ ns = [] ∧ as = [] := gives_pure

theorem gives_all_cons {x : Run ε α} {xs : List (Run ε α)} {ns : List Notice} {as : List α} :
    (all (x :: xs)).Gives ns as ↔ ∃ ns₁ a ns₂ rest,
      x.Gives ns₁ a ∧ (all xs).Gives ns₂ rest ∧ ns = ns₁ ++ ns₂ ∧ as = a :: rest := by
  simp only [all, gives_bind, gives_pure]
  constructor
  · rintro ⟨ns₁, a, ms, ha, ⟨ns₂, rest, ms', hrest, ⟨rfl, rfl⟩, rfl⟩, rfl⟩
    exact ⟨ns₁, a, ns₂, rest, ha, hrest, by rw [List.append_nil], rfl⟩
  · rintro ⟨ns₁, a, ns₂, rest, ha, hrest, rfl, rfl⟩
    exact ⟨ns₁, a, ns₂, ha, ⟨ns₂, rest, [], hrest, ⟨rfl, rfl⟩, by rw [List.append_nil]⟩, rfl⟩

/-! ### Failures -/

/-- The run fails with an error. -/
def Fails (x : Run ε α) (e : ε) : Prop := x.result = .error e

@[simp] theorem not_fails_pure {a : α} {e : ε} : ¬ (pure a : Run ε α).Fails e := nofun

theorem fails_bind {x : Run ε α} {f : α → Run ε β} {e : ε} :
    (x >>= f).Fails e ↔ x.Fails e ∨ ∃ ns a, x.Gives ns a ∧ (f a).Fails e := by
  change (Run.bind x f).Fails e ↔ _
  obtain ⟨ms, result⟩ := x
  cases result with
  | error e' => simp [Run.bind, Fails, Gives]
  | ok a =>
      simp only [Run.bind, Fails, Gives, Run.mk.injEq, Except.ok.injEq, reduceCtorEq, false_or]
      constructor
      · intro h
        exact ⟨ms, a, ⟨rfl, rfl⟩, h⟩
      · rintro ⟨_, _, ⟨rfl, rfl⟩, h⟩
        exact h

@[simp] theorem fails_fail {e e' : ε} : (fail e' : Run ε α).Fails e ↔ e = e' := by
  simp [Fails, fail, eq_comm]

@[simp] theorem not_fails_note {n : Notice} {e : ε} : ¬ (note n : Run ε Unit).Fails e := nofun

@[simp] theorem not_fails_noteCount {n : Nat → Notice} {count : Nat} {e : ε} :
    ¬ (noteCount n count : Run ε Unit).Fails e := by
  unfold noteCount
  split
  · exact not_fails_pure
  · exact not_fails_note

@[simp] theorem fails_ofExcept {x : Except ε α} {e : ε} :
    (ofExcept x).Fails e ↔ x = .error e := Iff.rfl

theorem fails_mapError {f : ε → ε'} {x : Run ε α} {e : ε'} :
    (x.mapError f).Fails e ↔ ∃ e', x.Fails e' ∧ e = f e' := by
  obtain ⟨ms, result⟩ := x
  cases result with
  | error e' =>
      change (Except.error (f e') : Except ε' α) = .error e ↔
        ∃ e'', (Except.error e' : Except ε α) = .error e'' ∧ e = f e''
      simp [eq_comm]
  | ok a =>
      change (Except.ok a : Except ε' α) = .error e ↔
        ∃ e'', (Except.ok a : Except ε α) = .error e'' ∧ e = f e''
      simp

/-- Several runs fail with the error of the first one that does. -/
theorem fails_all {xs : List (Run ε α)} {e : ε} :
    (all xs).Fails e ↔ ∃ before x after, xs = before ++ x :: after ∧
      (∀ y ∈ before, ∃ ns a, y.Gives ns a) ∧ x.Fails e := by
  induction xs with
  | nil => simp [all]
  | cons y ys ih =>
      simp only [all, fails_bind, not_fails_pure, and_false, exists_false, or_false, ih]
      constructor
      · rintro (hy | ⟨ns, a, hy, before, x, after, rfl, hbefore, hx⟩)
        · exact ⟨[], y, ys, rfl, by simp, hy⟩
        · exact ⟨y :: before, x, after, rfl, List.forall_mem_cons.mpr ⟨⟨ns, a, hy⟩, hbefore⟩, hx⟩
      · rintro ⟨before, x, after, heq, hbefore, hx⟩
        cases before with
        | nil =>
            cases heq
            exact .inl hx
        | cons z before =>
            cases heq
            obtain ⟨⟨ns, a, hz⟩, hbefore⟩ := List.forall_mem_cons.mp hbefore
            exact .inr ⟨ns, a, hz, before, x, after, rfl, hbefore, hx⟩

theorem fails_all_concat {xs : List (Run ε α)} {x : Run ε α} {e : ε} :
    (all (xs ++ [x])).Fails e ↔
      (all xs).Fails e ∨ ∃ ns as, (all xs).Gives ns as ∧ x.Fails e := by
  induction xs with
  | nil => simp [all, fails_bind]
  | cons y ys ih =>
      simp only [List.cons_append, all, fails_bind, not_fails_pure, and_false, exists_false,
        or_false, ih]
      constructor
      · rintro (hy | ⟨ns, a, hy, hys | ⟨ms, as, hys, hx⟩⟩)
        · exact .inl (.inl hy)
        · exact .inl (.inr ⟨ns, a, hy, hys⟩)
        · exact .inr ⟨_, _, gives_all_cons.mpr ⟨ns, a, ms, as, hy, hys, rfl, rfl⟩, hx⟩
      · rintro ((hy | ⟨ns, a, hy, hys⟩) | ⟨ns, as, hall, hx⟩)
        · exact .inl hy
        · exact .inr ⟨ns, a, hy, .inl hys⟩
        · obtain ⟨ns₁, a, ns₂, rest, hy, hys, -, -⟩ := gives_all_cons.mp hall
          exact .inr ⟨ns₁, a, hy, .inr ⟨ns₂, rest, hys, hx⟩⟩

end Run
end FormLower
