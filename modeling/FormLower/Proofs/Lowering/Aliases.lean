import FormLower.Proofs.Lowering.Locality
import FormLower.Proofs.Lowering.Provenance
import FormLower.Proofs.Lowering.Relabelling
import FormLower.Proofs.Lowering.Warnings

/-! # Other names for forms

A form may stand under several names.  Which of them a call uses is told by its errors and by what
goes on record, and makes no difference otherwise, except for functions to call and for operations,
whose names are written out.  For a tree that uses another name here and there becomes the tree
itself when that name is changed back (`Source.Renames.mapHeads`), and to change heads is one of the
changes of labels that lowering keeps to (`Relabelling.ofHeads`). -/

namespace FormLower

/-! ### Renamed heads -/

namespace Source

mutual

/-- A tree with every head changed. -/
def mapHeads (f : String → String) : Source → Source
  | .leaf value place => .leaf value place
  | .call head args place => .call (f head) (mapHeadsAll f args) place
  | .list elements place => .list (mapHeadsAll f elements) place

def mapHeadsAll (f : String → String) : List Source → List Source
  | [] => []
  | s :: rest => s.mapHeads f :: mapHeadsAll f rest

end

theorem mapHeadsAll_eq_map (f : String → String) :
    ∀ ss : List Source, mapHeadsAll f ss = ss.map (mapHeads f)
  | [] => rfl
  | s :: rest => by rw [mapHeadsAll, mapHeadsAll_eq_map f rest, List.map_cons]

/-- In the second tree some of the calls of a head, wherever they stand, have another name for it
instead. -/
inductive Renames (head other : String) : Source → Source → Prop
  | leaf (value : Leaf) (place : Place) : Renames head other (.leaf value place) (.leaf value place)
  | call {name name' : String} {args args' : List Source} {place : Place} :
      name' = name ∨ name = head ∧ name' = other →
      List.Forall₂ (Renames head other) args args' →
      Renames head other (.call name args place) (.call name' args' place)
  | list {elements elements' : List Source} {place : Place} :
      List.Forall₂ (Renames head other) elements elements' →
      Renames head other (.list elements place) (.list elements' place)

end Source

theorem map_eq_of_forall₂ {α β : Type} {r : α → β → Prop} {f : β → α} {as : List α} {bs : List β}
    (h : List.Forall₂ r as bs) (hf : ∀ a ∈ as, ∀ b, r a b → f b = a) : bs.map f = as := by
  induction h with
  | nil => rfl
  | cons hab _ ih =>
      obtain ⟨ha, has⟩ := List.forall_mem_cons.mp hf
      rw [List.map_cons, ha _ hab, ih has]

/-- The other name changed back to the head. -/
def backTo (head other name : String) : String := if name = other then head else name

variable {head other : String}

/-- Where no call has the other name to begin with, changing it back undoes the renaming. -/
theorem Source.Renames.mapHeads {s s' : Source} (h : s.Renames head other s')
    (hfree : ∀ k ∈ s.nodes, k.head? ≠ some other) : s'.mapHeads (backTo head other) = s := by
  induction s generalizing s' with
  | leaf value place =>
      cases h
      rfl
  | list elements place ih =>
      cases h with
      | list helements =>
          have hback : _ = elements := map_eq_of_forall₂ helements fun k hk k' hr =>
            ih k hk hr fun j hj => hfree j (Source.mem_nodes_of_child hk hj)
          rw [Source.mapHeads, mapHeadsAll_eq_map, hback]
  | call name args place ih =>
      cases h with
      | @call _ name' _ args' _ hname hargs =>
          have hback : _ = args := map_eq_of_forall₂ hargs fun k hk k' hr =>
            ih k hk hr fun j hj => hfree j (Source.mem_nodes_of_child hk hj)
          have hhead : backTo head other name' = name := by
            rcases hname with rfl | ⟨rfl, rfl⟩
            · apply if_neg
              rintro rfl
              exact hfree _ (Source.self_mem_nodes _) rfl
            · exact if_pos rfl
          rw [Source.mapHeads, mapHeadsAll_eq_map, hback, hhead]

/-- A change of heads as a change of labels; everything stays where it is. -/
def Relabelling.ofHeads (f : String → String) : Relabelling where
  head := f
  place := id
  location := id
  source := Source.mapHeads f
  target := id
  location_place _ := rfl
  source_leaf _ _ := rfl
  source_call _ _ _ := by
    rw [Source.mapHeads, Source.mapHeadsAll_eq_map]
    rfl
  source_list _ _ := by
    rw [Source.mapHeads, Source.mapHeadsAll_eq_map]
    rfl
  target_eq t := by
    rw [Target.mapChildren_id]
    exact t.withLocation_location.symm

namespace Relabelling

theorem lowered_ofHeads (f : String → String) (r : Lowered) : (ofHeads f).lowered r = r := by
  cases r with
  | single t => rfl
  | sequence ts => exact congrArg Lowered.sequence ts.map_id

/-- Warnings name no heads. -/
theorem warnings_map_notice (R : Relabelling) (ns : List Notice) :
    warnings (ns.map R.notice) = warnings ns := by
  induction ns with
  | nil => rfl
  | cons n ns ih =>
      have hn : warnings [R.notice n] = warnings [n] := by cases n <;> rfl
      calc warnings ((n :: ns).map R.notice)
        _ = warnings [R.notice n] ++ warnings (ns.map R.notice) := warnings_append [R.notice n] _
        _ = warnings [n] ++ warnings ns := by rw [hn, ih]
        _ = warnings (n :: ns) := (warnings_append [n] ns).symm

end Relabelling

/-! ### Tables with another name -/

namespace Forms

variable {forms : Forms}

/-- Let another name stand for the form that a head stands for, in the table that the form is in. -/
def share (forms : Forms) (head other : String) : Forms :=
  match forms.meaning head with
  | .structural form => forms.addStructural other form
  | .special form => forms.addSpecial other form
  | .call => forms

theorem meaning_share_self (hstructural : forms.structural.get? other = none)
    (hspecial : forms.special.get? other = none) :
    (forms.share head other).meaning other = forms.meaning head := by
  unfold share
  cases hm : forms.meaning head with
  | structural form =>
      apply meaning_eq_structural_iff.mpr
      show (forms.structural.insert other form).get? other = some form
      rw [Table.get?_insert, if_pos rfl]
  | special form =>
      apply meaning_eq_special_iff.mpr
      refine ⟨hstructural, ?_⟩
      show (forms.special.insert other form).get? other = some form
      rw [Table.get?_insert, if_pos rfl]
  | call =>
      show forms.meaning other = .call
      rw [meaning, hstructural, hspecial]

theorem meaning_share_of_ne {name : String} (h : name ≠ other) :
    (forms.share head other).meaning name = forms.meaning name := by
  unfold share
  cases forms.meaning head with
  | structural form => exact meaning_change h (.addStructural form)
  | special form => exact meaning_change h (.addSpecial form)
  | call => rfl

/-- Changing the other name back carries the tables that have it to those that do not. -/
theorem carries_share (hform : (forms.meaning head).isByName = false)
    (hstructural : forms.structural.get? other = none)
    (hspecial : forms.special.get? other = none) :
    (Relabelling.ofHeads (backTo head other)).Carries (forms.share head other) forms where
  meaning name := by
    show forms.meaning (backTo head other name) = _
    by_cases hname : name = other
    · rw [backTo, if_pos hname, hname, meaning_share_self hstructural hspecial]
    · rw [backTo, if_neg hname, meaning_share_of_ne hname]
  head name hbyName := by
    apply if_neg
    rintro rfl
    rw [meaning_share_self hstructural hspecial, hform] at hbyName
    cases hbyName

/-- An error that arose in a form is not that of a tree inside another. -/
theorem enclosing_eq_none {s : Source} {e : LoweringError} (h : (forms.lower s).Fails e)
    (hform : e.fault.form ≠ none) : e.enclosing = none := by
  induction s generalizing e with
  | leaf value place => exact absurd h not_fails_leaf
  | list elements place _ =>
      rw [fails_list_iff.mp h] at hform
      exact absurd rfl hform
  | call name args place ih =>
      cases fails_call_iff.mp h with
      | argument hasks hfails =>
          obtain ⟨before, a, after, e', rfl, -, ha, rfl⟩ := hfails
          have hmem : a ∈ args := hasks.sublist.subset (by simp)
          cases he : e'.form with
          | some own =>
              rw [e'.inside_of_form he] at hform ⊢
              exact ih a hmem ha hform
          | none =>
              unfold LoweringError.inside at hform
              rw [he] at hform
              obtain ⟨own, hown⟩ := Option.ne_none_iff_exists'.mp hform
              rw [LoweringError.form, hown] at he
              cases he
      | operand _ _ _ _ | value _ _ _ _ | undone _ _ _ => rfl
      | special _ _ hrefuses => cases hrefuses <;> rfl
      | define _ hread | function _ hread => cases hread <;> rfl

end Forms

/-! ### Results under either name -/

/-- Two errors of which the second may have the other name for a head where the first has the head:
in the form that is named, in the texts that quote it, and in a tree that is printed. -/
structure LoweringError.Renamed (head other : String) (e e' : LoweringError) : Prop where
  kind : e'.kind = e.kind
  level : e'.level = e.level
  place : e'.place = e.place
  form : e'.form = e.form ∨ e.form = some head ∧ e'.form = some other
  /-- Errors that name one form are the same, unless a tree is printed. -/
  same : e'.form = e.form → e.kind ≠ .malformed → e' = e
  /-- With the other name changed back, the two are one error. -/
  back : (Relabelling.ofHeads (backTo head other)).error e' = e

/-- Two results that lower to the same, or fail with errors that differ in a name. -/
inductive RenamedResult (head other : String) :
    Except LoweringError Lowered → Except LoweringError Lowered → Prop
  | ok (r : Lowered) : RenamedResult head other (.ok r) (.ok r)
  | error {e e' : LoweringError} :
      e.Renamed head other e' → RenamedResult head other (.error e) (.error e')

/-- What a name is changed back to is the name itself or the head. -/
theorem eq_or_of_map_backTo {own own' : Option String} (h : own = own'.map (backTo head other)) :
    own' = own ∨ own = some head ∧ own' = some other := by
  cases own' with
  | none => exact .inl h.symm
  | some name =>
      by_cases hname : name = other
      · rw [Option.map_some, backTo, if_pos hname] at h
        exact .inr ⟨h, congrArg some hname⟩
      · rw [Option.map_some, backTo, if_neg hname] at h
        exact .inl h.symm

namespace Relabelling

variable {f : String → String}

theorem fault_ofHeads_eq {fault : Fault} (h : fault.form.map f = fault.form)
    (hkind : fault.kind ≠ .malformed) : (ofHeads f).fault fault = fault := by
  cases fault with
  | unknownVariant variant => rfl
  | arity form expected found =>
      exact congrArg (fun name => Fault.arity name expected found) (Option.some.inj h)
  | unboundOperator form => exact congrArg Fault.unboundOperator (Option.some.inj h)
  | unexpectedSequence form => exact congrArg Fault.unexpectedSequence (Option.some.inj h)
  | malformed form what found => exact absurd rfl hkind
  | stated kind form message issuer =>
      exact congrArg (fun own => Fault.stated kind own message issuer) h

/-- An error that prints no tree is changed in the form that it names alone. -/
theorem error_ofHeads_eq {e : LoweringError} (henclosing : e.fault.form ≠ none → e.enclosing = none)
    (h : e.form.map f = e.form) (hkind : e.kind ≠ .malformed) : (ofHeads f).error e = e := by
  obtain ⟨fault, place, enclosing⟩ := e
  unfold LoweringError.form at h
  -- The form that is named is that of the fault or the one around it, and never both.
  have hboth : fault.form.map f = fault.form ∧ enclosing.map f = enclosing := by
    cases hfault : fault.form with
    | none =>
        simp only [hfault] at h
        exact ⟨rfl, h⟩
    | some own =>
        simp only [hfault] at h henclosing
        rw [henclosing nofun]
        exact ⟨h, rfl⟩
  unfold error
  rw [fault_ofHeads_eq hboth.1 hkind]
  exact congrArg (LoweringError.mk fault place) hboth.2

/-- An error differs from what it is changed back to in names alone. -/
theorem renamed_error {e : LoweringError} (henclosing : e.fault.form ≠ none → e.enclosing = none) :
    ((ofHeads (backTo head other)).error e).Renamed head other e where
  kind := (kind_error _ e).symm
  level := by rw [LoweringError.level, LoweringError.level, kind_error]
  place := rfl
  form := eq_or_of_map_backTo (form_error _ e)
  same hform hkind := by
    rw [form_error] at hform
    rw [kind_error] at hkind
    exact (error_ofHeads_eq henclosing hform.symm hkind).symm
  back := rfl

end Relabelling

/-- **Another name for a form is as good as the first.**  A form that is not told by its name, be it
structural or special, is put under a name that has been in neither table.  Then wherever in a tree
without that name it is used for the head, in whatever calls and however deep, the tree is lowered
to the same, with the same locations and the same warnings; or it fails with an error of the same
kind and level at the same place, which differs in the name of the form and in texts that quote it
or print a tree.  And the tree itself is lowered as before. -/
theorem lower_share (forms : Forms) {s s' : Source} (hform : (forms.meaning head).isByName = false)
    (hstructural : forms.structural.get? other = none)
    (hspecial : forms.special.get? other = none)
    (hfree : ∀ k ∈ s.nodes, k.head? ≠ some other) (h : s.Renames head other s') :
    RenamedResult head other (forms.lower s).result ((forms.share head other).lower s').result ∧
      warnings ((forms.share head other).lower s').notices = warnings (forms.lower s).notices ∧
      (forms.share head other).lower s = forms.lower s := by
  let R := Relabelling.ofHeads (backTo head other)
  -- The tree is the renamed one with the name changed back, also in the tables it is lowered with.
  have hrun : forms.lower s = R.run R.lowered ((forms.share head other).lower s') := by
    rw [← (Forms.carries_share hform hstructural hspecial).lower s']
    exact congrArg forms.lower (h.mapHeads hfree).symm
  refine ⟨?_, ?_, ?_⟩
  · rw [hrun]
    show RenamedResult head other (R.result R.lowered _) _
    cases hresult : ((forms.share head other).lower s').result with
    | ok r =>
        show RenamedResult head other (.ok (R.lowered r)) _
        rw [Relabelling.lowered_ofHeads]
        exact .ok r
    | error e => exact .error (Relabelling.renamed_error (Forms.enclosing_eq_none hresult))
  · rw [hrun]
    exact (R.warnings_map_notice _).symm
  · apply Forms.lower_congr
    intro k hk name hname
    apply Forms.meaning_share_of_ne
    rintro rfl
    exact hfree k hk hname

/-- With `when` for `if`, the outer conditional of `(if (if a b c) (def x y (if)) z w)` and the one
that the definition drops may be called by the other name: the result is the same, and so are the
warnings of what is dropped. -/
theorem lower_share_when :
    let x (id : String) : Source := .symbol id
    let call (name : String) (args : List Source) : Source := .call name args .unknown
    let tree (outer dropped : String) : Source :=
      call outer [call "if" [x "a", x "b", x "c"], call "def" [x "x", x "y", call dropped []],
        x "z", x "w"]
    let forms := Forms.default.share "if" "when"
    (∀ k ∈ (tree "if" "if").nodes, k.head? ≠ some "when") ∧
      (tree "if" "if").Renames "if" "when" (tree "when" "when") ∧
      RenamedResult "if" "when" (Forms.default.lower (tree "if" "if")).result
        (forms.lower (tree "when" "when")).result ∧
      (∃ r, (forms.lower (tree "when" "when")).result = .ok r) ∧
      warnings (forms.lower (tree "when" "when")).notices =
        [.extraValues "x" 1, .extraBranches 1] := by
  intro x call tree forms
  have hfree : ∀ k ∈ (tree "if" "if").nodes, k.head? ≠ some "when" := by decide
  have hx (id : String) : (x id).Renames "if" "when" (x id) := .leaf _ _
  have hrenames : (tree "if" "if").Renames "if" "when" (tree "when" "when") := by
    refine .call (.inr ⟨rfl, rfl⟩) (.cons (.call (.inl rfl) ?_) (.cons (.call (.inl rfl) ?_) ?_))
    · exact .cons (hx _) (.cons (hx _) (.cons (hx _) .nil))
    · exact .cons (hx _) (.cons (hx _) (.cons (.call (.inr ⟨rfl, rfl⟩) .nil) .nil))
    · exact .cons (hx _) (.cons (hx _) .nil)
  obtain ⟨hresult, hwarnings, -⟩ := lower_share .default rfl rfl rfl hfree hrenames
  exact ⟨hfree, hrenames, hresult, ⟨_, rfl⟩, hwarnings.trans rfl⟩

end FormLower
