import FormLower.Proofs.Surface.Peg
import FormLower.Surface.Position

/-! # Positions

Positions come in the order of the text: each character moves on, so that two fronts of a text that
end at the same position are the same (`append_inj_of_afterAll`), and an extent cuts at most one
piece out of a text.

Where a line ends with a carriage return and a line feed, the two may be counted as one end of the
line or one after the other; after them the position is the same (`ofFront_eq`). -/

namespace FormLower
namespace Position

/-! ### Order -/

instance : LE Position := ⟨fun p q => p.line < q.line ∨ p.line = q.line ∧ p.column ≤ q.column⟩

instance : LT Position := ⟨fun p q => p.line < q.line ∨ p.line = q.line ∧ p.column < q.column⟩

theorem le_def {p q : Position} :
    p ≤ q ↔ p.line < q.line ∨ p.line = q.line ∧ p.column ≤ q.column := Iff.rfl

theorem lt_def {p q : Position} :
    p < q ↔ p.line < q.line ∨ p.line = q.line ∧ p.column < q.column := Iff.rfl

theorem le_refl (p : Position) : p ≤ p := .inr ⟨rfl, Nat.le_refl _⟩

theorem lt_irrefl (p : Position) : ¬ p < p := by
  rw [lt_def]
  omega

theorem le_trans {p q r : Position} (h : p ≤ q) (h' : q ≤ r) : p ≤ r := by
  rw [le_def] at *
  omega

theorem lt_of_lt_of_le {p q r : Position} (h : p < q) (h' : q ≤ r) : p < r := by
  rw [lt_def] at *
  rw [le_def] at h'
  omega

theorem lt_of_le_of_lt {p q r : Position} (h : p ≤ q) (h' : q < r) : p < r := by
  rw [lt_def] at *
  rw [le_def] at h
  omega

theorem le_of_lt {p q : Position} (h : p < q) : p ≤ q := by
  rw [le_def]
  rw [lt_def] at h
  omega

theorem not_lt {p q : Position} : ¬ p < q ↔ q ≤ p := by
  rw [lt_def, le_def]
  omega

theorem isBefore_iff {p q : Position} : p.isBefore q = true ↔ p < q := by
  rw [isBefore, Bool.or_eq_true, Bool.and_eq_true, decide_eq_true_iff, decide_eq_true_iff,
    beq_iff_eq, lt_def]

/-! ### Characters -/

theorem lt_after (p : Position) (c : Char) : p < p.after c := by
  unfold after
  split
  · exact .inl (Nat.lt_succ_self _)
  · exact .inr ⟨rfl, Nat.lt_succ_self _⟩

theorem le_afterAll (p : Position) (cs : List Char) : p ≤ p.afterAll cs := by
  induction cs generalizing p with
  | nil => exact le_refl p
  | cons c cs ih => exact le_trans (le_of_lt (lt_after p c)) (ih (p.after c))

theorem lt_afterAll (p : Position) {cs : List Char} (h : cs ≠ []) : p < p.afterAll cs := by
  cases cs with
  | nil => exact absurd rfl h
  | cons c cs => exact lt_of_lt_of_le (lt_after p c) (le_afterAll (p.after c) cs)

theorem one_le_afterAll (cs : List Char) {p : Position} (h : 1 ≤ p.line ∧ 1 ≤ p.column) :
    1 ≤ (p.afterAll cs).line ∧ 1 ≤ (p.afterAll cs).column := by
  induction cs generalizing p with
  | nil => exact h
  | cons c cs ih =>
      refine ih ?_
      unfold after
      split
      · exact ⟨Nat.le_succ_of_le h.1, Nat.le_refl 1⟩
      · exact ⟨h.1, Nat.le_succ_of_le h.2⟩

/-- Two fronts of a text that end at one position are the same. -/
theorem append_inj_of_afterAll {p : Position} {a b cs ds : List Char} (h : a ++ cs = b ++ ds)
    (hpos : p.afterAll a = p.afterAll b) : a = b ∧ cs = ds := by
  have longer : ∀ {a x : List Char}, p.afterAll a = p.afterAll (a ++ x) → x = [] := by
    intro a x hx
    cases x with
    | nil => rfl
    | cons c x =>
        have hlt := lt_afterAll (p.afterAll a) (List.cons_ne_nil c x)
        rw [← afterAll_append, ← hx] at hlt
        exact absurd hlt (lt_irrefl _)
  rcases List.append_eq_append_iff.mp h with ⟨x, rfl, rfl⟩ | ⟨x, rfl, rfl⟩
  · obtain rfl := longer hpos
    simp
  · obtain rfl := longer hpos.symm
    simp

/-! ### Ends of lines -/

/-- The position after several characters, where a line ends with a line feed, with or without a
carriage return in front of it. -/
def advance (p : Position) : List Char → Position
  | '\r' :: '\n' :: cs => advance ⟨p.line + 1, 1⟩ cs
  | '\n' :: cs => advance ⟨p.line + 1, 1⟩ cs
  | _ :: cs => advance ⟨p.line, p.column + 1⟩ cs
  | [] => p

theorem advance_eq (p : Position) (cs : List Char) : p.advance cs = p.afterAll cs := by
  fun_induction advance p cs with
  | case1 p cs ih =>
      rw [ih]
      rfl
  | case2 p cs ih =>
      rw [ih]
      rfl
  | case3 p c cs hcr hlf ih =>
      have hc : p.after c = ⟨p.line, p.column + 1⟩ := if_neg hlf
      rw [ih, ← hc]
      rfl
  | case4 p => rfl

end Position

/-! ### Pieces of a text -/

/-- An extent cuts a text in three: what stands before it, in it and after it. -/
structure Extent.Cuts (e : Extent) (text before inner after : List Char) : Prop where
  text : text = before ++ (inner ++ after)
  start : Position.advance .first before = e.start
  stop : Position.advance .first (before ++ inner) = e.stop

theorem Extent.Cuts.unique {e : Extent} {text b i a b' i' a' : List Char}
    (h : e.Cuts text b i a) (h' : e.Cuts text b' i' a') : i = i' := by
  have htext := h.text.symm.trans h'.text
  have hstart := h.start.trans h'.start.symm
  have hstop := h.stop.trans h'.stop.symm
  simp only [Position.advance_eq] at hstart hstop
  obtain ⟨rfl, hrest⟩ := Position.append_inj_of_afterAll htext hstart
  rw [← List.append_assoc, ← List.append_assoc] at htext
  exact List.append_cancel_left (Position.append_inj_of_afterAll htext hstop).1

namespace Extent

variable {e : Extent} {p : Position} {cs ds : List Char}

theorem covers_iff : e.covers p = true ↔ e.start ≤ p ∧ p < e.stop := by
  rw [covers, Bool.and_eq_true, Bool.not_eq_true', ← Bool.not_eq_true, Position.isBefore_iff,
    Position.isBefore_iff, Position.not_lt]

theorem excerptFrom_append :
    e.excerptFrom p (cs ++ ds) = e.excerptFrom p cs ++ e.excerptFrom (p.afterAll cs) ds := by
  induction cs generalizing p with
  | nil => rfl
  | cons c cs ih =>
      have hafter : p.afterAll (c :: cs) = (p.after c).afterAll cs := rfl
      rw [List.cons_append, excerptFrom, excerptFrom, ih, hafter]
      split <;> rfl

/-- Nothing in front of an extent is in it. -/
theorem excerptFrom_before (h : p.afterAll cs ≤ e.start) : e.excerptFrom p cs = [] := by
  induction cs generalizing p with
  | nil => rfl
  | cons c cs ih =>
      have hlt : p < e.start := Position.lt_of_lt_of_le (Position.lt_afterAll p (by simp)) h
      have hno : ¬ e.covers p = true := by
        rw [covers_iff, ← Position.not_lt]
        exact fun hcovers => hcovers.1 hlt
      rw [excerptFrom, if_neg hno, ih h]

theorem excerptFrom_inside (hstart : e.start ≤ p) (hstop : p.afterAll cs ≤ e.stop) :
    e.excerptFrom p cs = cs := by
  induction cs generalizing p with
  | nil => rfl
  | cons c cs ih =>
      have hlt : p < e.stop := Position.lt_of_lt_of_le (Position.lt_afterAll p (by simp)) hstop
      have hnext : e.start ≤ p.after c :=
        Position.le_trans hstart (Position.le_of_lt (Position.lt_after p c))
      rw [excerptFrom, if_pos (covers_iff.mpr ⟨hstart, hlt⟩), ih hnext hstop]

theorem excerptFrom_after (h : e.stop ≤ p) : e.excerptFrom p cs = [] := by
  induction cs generalizing p with
  | nil => rfl
  | cons c cs ih =>
      have hno : ¬ e.covers p = true := by
        rw [covers_iff]
        exact fun hcovers => Position.not_lt.mpr h hcovers.2
      have hlater : e.stop ≤ p.after c :=
        Position.le_trans h (Position.le_of_lt (Position.lt_after p c))
      rw [excerptFrom, if_neg hno, ih hlater]

theorem Cuts.excerpt {text before inner after : List Char} (h : e.Cuts text before inner after) :
    e.excerpt text = inner := by
  have hstart := h.start
  have hstop := h.stop
  rw [Position.advance_eq] at hstart hstop
  rw [Position.afterAll_append] at hstop
  unfold Extent.excerpt
  rw [h.text, excerptFrom_append, excerptFrom_append, hstart]
  rw [hstart] at hstop
  rw [excerptFrom_before (by rw [hstart]; exact Position.le_refl _),
    excerptFrom_inside (Position.le_refl _) (by rw [hstop]; exact Position.le_refl _),
    excerptFrom_after (by rw [hstop]; exact Position.le_refl _), List.append_nil, List.nil_append]

end Extent

end FormLower
