import FormLower.Lowering.Requests
import FormLower.Proofs.Lowering.Locality
import FormLower.Proofs.Text.ByteOrder
import Mathlib.Data.List.Induction

/-! # What a table holds

A table that was empty holds under a name what the requests so far have put there: the entry of the
last request that gave the name one, unless the name was taken away after that (`Holds`).  Requests
about other names make no difference, so that a table is the same whenever the requests about each
name are the same and come in the same order (`eq_of_filter_eq`). -/

namespace FormLower
namespace Table

variable {α : Type} {t t' : Table α} {name : String} {entry : α} {r : Request α}
  {rs rs' : List (Request α)}

/-! ### Tables with the same entries -/

theorem mem_iff_findRow_eq {row : String × α} {rows : List (String × α)}
    (h : rows.Pairwise fun a b => a.1 < b.1) : row ∈ rows ↔ findRow row.1 rows = some row.2 := by
  induction rows with
  | nil => simp [findRow]
  | cons first rows ih =>
      obtain ⟨hfirst, hrows⟩ := List.pairwise_cons.mp h
      rw [List.mem_cons, findRow, ih hrows]
      by_cases hname : row.1 = first.1
      · have hnone : findRow row.1 rows ≠ some row.2 := by
          intro hrow
          have hlt := hfirst row ((ih hrows).mpr hrow)
          exact String.lt_irrefl _ (hname ▸ hlt)
        rw [if_pos hname, or_iff_left hnone, Option.some.injEq, Prod.ext_iff, and_iff_right hname]
        exact eq_comm
      · have hne : row ≠ first := fun heq => hname (heq ▸ rfl)
        rw [if_neg hname, or_iff_right hne]

/-- A table is determined by the entries of the names. -/
theorem ext_get? (h : ∀ name, t.get? name = t'.get? name) : t = t' := by
  -- The rows are the same up to their order, and both tables have them in ascending order.
  have hnodup {u : Table α} : u.rows.Nodup := by
    refine u.ascending.imp ?_
    rintro row _ hlt rfl
    exact String.lt_irrefl _ hlt
  have hperm : t.rows.Perm t'.rows := by
    refine (List.perm_ext_iff_of_nodup hnodup hnodup).mpr fun row => ?_
    rw [mem_iff_findRow_eq t.ascending, mem_iff_findRow_eq t'.ascending]
    exact iff_of_eq (congrArg (· = some row.2) (h row.1))
  have hrows : t.rows = t'.rows := by
    refine hperm.eq_of_pairwise (fun a b _ _ hab hba => ?_) t.ascending t'.ascending
    exact absurd hba (String.lt_asymm hab)
  cases t
  cases t'
  simpa using hrows

/-! ### Requests about a name -/

/-- Whether a request changes what a name holds. -/
def Request.writesTo (name : String) : Request α → Bool
  | .register key _ => key = name
  | .unregister key => key = name
  | .get _ | .contains _ => false

/-- The name that a request is about. -/
def Request.about : Request α → String
  | .register key _ | .unregister key | .get key | .contains key => key

/-- The last request that changed what a name holds has given it an entry. -/
def Holds (rs : List (Request α)) (name : String) (entry : α) : Prop :=
  ∃ before after, rs = before ++ .register name entry :: after ∧
    ∀ r ∈ after, r.writesTo name = false

theorem writesTo_of_about_ne (h : r.about ≠ name) : r.writesTo name = false := by
  cases r with
  | register key entry => exact decide_eq_false h
  | unregister key => exact decide_eq_false h
  | get key | contains key => rfl

theorem not_holds_nil : ¬ Holds [] name entry := by
  rintro ⟨before, after, h, -⟩
  simp at h

/-- A request that does not change what a name holds makes no difference to it. -/
theorem holds_concat_of_not_writesTo (h : r.writesTo name = false) :
    Holds (rs ++ [r]) name entry ↔ Holds rs name entry := by
  constructor
  · rintro ⟨before, after, heq, hafter⟩
    rcases List.eq_nil_or_concat after with rfl | ⟨after, last, rfl⟩
    · obtain ⟨-, hlast⟩ := List.append_inj' heq rfl
      cases hlast
      simp [Request.writesTo] at h
    · rw [List.concat_eq_append, ← List.cons_append, ← List.append_assoc] at heq
      obtain ⟨rfl, -⟩ := List.append_inj' heq rfl
      exact ⟨before, after, rfl, fun q hq => hafter q (by simp [hq])⟩
  · rintro ⟨before, after, rfl, hafter⟩
    refine ⟨before, after ++ [r], by simp, ?_⟩
    exact List.forall_mem_append.mpr ⟨hafter, List.forall_mem_singleton.mpr h⟩

/-- A request that changes what a name holds settles it. -/
theorem holds_concat_of_writesTo (h : r.writesTo name) :
    Holds (rs ++ [r]) name entry ↔ r = .register name entry := by
  constructor
  · rintro ⟨before, after, heq, hafter⟩
    rcases List.eq_nil_or_concat after with rfl | ⟨after, last, rfl⟩
    · obtain ⟨-, hlast⟩ := List.append_inj' heq rfl
      exact List.singleton_inj.mp hlast
    · rw [List.concat_eq_append, ← List.cons_append, ← List.append_assoc] at heq
      obtain ⟨-, hlast⟩ := List.append_inj' heq rfl
      rw [List.singleton_inj] at hlast
      have hfalse := hafter last (by simp)
      rw [← hlast, h] at hfalse
      cases hfalse
  · rintro rfl
    exact ⟨rs, [], rfl, by simp⟩

/-- What a name holds depends on the requests that change it alone. -/
theorem holds_filter_iff : Holds (rs.filter (Request.writesTo name)) name entry ↔
    Holds rs name entry := by
  induction rs using List.reverseRecOn with
  | nil => rfl
  | append_singleton rs r ih =>
      rw [List.filter_append]
      cases h : r.writesTo name with
      | true =>
          rw [List.filter_singleton, h, cond_true, holds_concat_of_writesTo h,
            holds_concat_of_writesTo h]
      | false =>
          rw [List.filter_singleton, h, cond_false, List.append_nil, ih,
            holds_concat_of_not_writesTo h]

/-! ### Requests served by a table -/

/-- A request about one name leaves the others as they are. -/
theorem get?_serve_of_not_writesTo (t : Table α) (h : r.writesTo name = false) :
    (t.serve r).2.get? name = t.get? name := by
  cases r with
  | register key entry =>
      have hne : name ≠ key := fun heq => of_decide_eq_false h heq.symm
      rw [serve, get?_insert, if_neg hne]
  | unregister key =>
      have hne : name ≠ key := fun heq => of_decide_eq_false h heq.symm
      rw [serve, get?_erase, if_neg hne]
  | get key | contains key => rfl

theorem get?_serve_of_writesTo (t : Table α) (h : r.writesTo name) :
    (t.serve r).2.get? name = some entry ↔ r = .register name entry := by
  cases r with
  | register key added =>
      obtain rfl : key = name := of_decide_eq_true h
      rw [serve, get?_insert, if_pos rfl, Option.some.injEq, Request.register.injEq,
        and_iff_right rfl]
  | unregister key =>
      obtain rfl : key = name := of_decide_eq_true h
      rw [serve, get?_erase, if_pos rfl]
      simp
  | get key | contains key => cases h

/-- The table that some requests leave of the empty one. -/
def after (rs : List (Request α)) : Table α := (serveAll serve empty rs).2

theorem after_concat : after (rs ++ [r]) = ((after rs).serve r).2 := by
  rw [after, serveAll_concat]
  rfl

/-- **A name has the entry of the last request that gave it one, unless it was taken away
since.** -/
theorem get?_after_iff : (after rs).get? name = some entry ↔ Holds rs name entry := by
  induction rs using List.reverseRecOn with
  | nil =>
      refine iff_of_false ?_ not_holds_nil
      intro h
      rw [after, serveAll, get?_empty] at h
      cases h
  | append_singleton rs r ih =>
      rw [after_concat]
      cases h : r.writesTo name with
      | true => rw [get?_serve_of_writesTo _ h, holds_concat_of_writesTo h]
      | false => rw [get?_serve_of_not_writesTo _ h, holds_concat_of_not_writesTo h, ih]

theorem contains_after_iff : (after rs).contains name ↔ ∃ entry, Holds rs name entry := by
  simp only [contains, Option.isSome_iff_exists, get?_after_iff]

/-- **The order of requests about different names makes no difference.** -/
theorem eq_of_filter_eq
    (h : ∀ name, rs.filter (Request.writesTo name) = rs'.filter (Request.writesTo name)) :
    after rs = after rs' := by
  refine ext_get? fun name => Option.ext fun entry => ?_
  rw [get?_after_iff, get?_after_iff, ← holds_filter_iff, h name, holds_filter_iff]

/-- The answer that a request calls for after others: whoever asks for an entry, gives one or takes
one away is told what the name holds, if anything. -/
inductive AnswersTo (rs : List (Request α)) : Request α → Answer α → Prop
  | register {name : String} {entry : α} {held : Option α} :
      (∀ v, held = some v ↔ Holds rs name v) →
      AnswersTo rs (.register name entry) (.entry held)
  | unregister {name : String} {held : Option α} :
      (∀ v, held = some v ↔ Holds rs name v) → AnswersTo rs (.unregister name) (.entry held)
  | get {name : String} {held : Option α} :
      (∀ v, held = some v ↔ Holds rs name v) → AnswersTo rs (.get name) (.entry held)
  | contains {name : String} {held : Bool} :
      (held ↔ ∃ v, Holds rs name v) → AnswersTo rs (.contains name) (.held held)

theorem answersTo_serve (rs : List (Request α)) (r : Request α) :
    AnswersTo rs r ((after rs).serve r).1 := by
  cases r with
  | register name entry => exact .register fun _ => get?_after_iff
  | unregister name => exact .unregister fun _ => get?_after_iff
  | get name => exact .get fun _ => get?_after_iff
  | contains name => exact .contains contains_after_iff

end Table

/-- **A table is a finite map.**  After any requests to a table that was empty, the next one is
answered by what its name holds: the entry of the last request that gave the name one, unless the
name was taken away since.  The names of the table are those that hold something, in ascending order
of their bytes, and they are counted by its size.  A request about one name leaves what the others
hold.  And the requests about different names may have come in any order: where those about each
name were the same in the same order, the table is the same. -/
theorem table_answers_history {α : Type} (rs : List (Table.Request α)) :
    let t := (serveAll Table.serve .empty rs).2
    (∀ r, ∃ answer, Table.AnswersTo rs r answer ∧ (serveAll Table.serve .empty (rs ++ [r])).1 =
      (serveAll Table.serve .empty rs).1 ++ [answer]) ∧
    (t.names.Pairwise (fun a b => utf8Bytes a < utf8Bytes b) ∧
      (∀ name, name ∈ t.names ↔ t.contains name) ∧
      t.size = t.names.length ∧ (t.isEmpty ↔ t.names = [])) ∧
    (∀ r name, r.about ≠ name → (t.serve r).2.get? name = t.get? name) ∧
    ∀ rs' : List (Table.Request α),
      (∀ name, rs.filter (Table.Request.writesTo name) = rs'.filter (Table.Request.writesTo name)) →
      (serveAll Table.serve .empty rs').2 = t := by
  intro t
  refine ⟨fun r => ⟨_, Table.answersTo_serve rs r, ?_⟩, ⟨?_, fun name => ?_, ?_, ?_⟩, ?_, ?_⟩
  · rw [serveAll_concat]
    rfl
  · exact t.names_ascending.imp lt_iff_utf8Bytes_lt.mp
  · exact Table.mem_names_iff
  · exact List.length_map _ |>.symm
  · rw [Table.isEmpty, List.isEmpty_iff, Table.names, List.map_eq_nil_iff]
  · intro r name hne
    exact t.get?_serve_of_not_writesTo (Table.writesTo_of_about_ne hne)
  · intro rs' h
    exact (Table.eq_of_filter_eq h).symm

/-- A name that is given an entry after another may be given it before, and giving a third one its
entry leaves what the first holds. -/
theorem table_answers_history_reordered :
    let rs : List (Table.Request Nat) := [.register "b" 1, .register "a" 2, .unregister "b"]
    let rs' : List (Table.Request Nat) := [.register "a" 2, .register "b" 1, .unregister "b"]
    (serveAll Table.serve .empty rs').2 = (serveAll Table.serve .empty rs).2 ∧
      ((serveAll Table.serve .empty rs).2.serve (.register "b" 3)).2.get? "a" = some 2 := by
  intro rs rs'
  obtain ⟨-, -, hothers, horder⟩ := table_answers_history rs
  refine ⟨horder rs' fun name => ?_, ?_⟩
  · by_cases ha : "a" = name
    · subst ha
      rfl
    · have hskip : Table.Request.writesTo name (.register "a" 2) = false := decide_eq_false ha
      simp [rs, rs', List.filter_cons, hskip]
  · rw [hothers (.register "b" 3) "a" (by decide)]
    decide

end FormLower
