import FormLower.Proofs.Lowering.Failures

/-! # Where errors come from

An error names a form and a place.  Lowering goes through the arguments of a call in order, so that
the trees it comes to are those before which nothing has failed (`Reaches`).  One of them is where
an error arises, and the calls around it hand the error up: an error that names a form is not
changed any more, and one that names none, which is that of a bare list, gets the name of the call
right around the list.  `lower_error_provenance` says this for every kind of error. -/

namespace FormLower

open Run

/-! ### Attribution -/

namespace LoweringError

theorem inside_of_form {e : LoweringError} {own : String} (h : e.form = some own)
    (form : String) : e.inside form = e := by
  unfold inside
  rw [h]

end LoweringError

namespace Forms

variable {forms : Forms} {s k : Source} {e : LoweringError}

/-! ### The trees that lowering comes to -/

/-- Lowering `s` comes to a tree: to `s` itself, and to an argument that a call asks for if nothing
that is lowered before it fails. -/
inductive Reaches (forms : Forms) (s : Source) : Source → Prop
  | here : Reaches forms s s
  | argument {head : String} {args before after : List Source} {place : Place} {a : Source} :
      Reaches forms s (.call head args place) →
      forms.Asks head args (before ++ a :: after) → (∀ b ∈ before, forms.Accepts b) →
      Reaches forms s a

theorem Reaches.trans {a : Source} (h : forms.Reaches s a) (ha : forms.Reaches a k) :
    forms.Reaches s k := by
  induction ha with
  | here => exact h
  | argument _ hasks hbefore ih => exact .argument ih hasks hbefore

theorem Asks.sublist {head : String} {args asked : List Source}
    (h : forms.Asks head args asked) : asked.Sublist args := by
  cases h with
  | call => exact List.Sublist.refl _
  | special => exact List.Sublist.refl _
  | define => simp
  | function => exact ((List.sublist_append_right _ _).cons _).cons _

/-- **An error that names a form is handed up unchanged.** -/
theorem Reaches.fails {form : String} (h : forms.Reaches s k) (hk : (forms.lower k).Fails e)
    (hform : e.form = some form) : (forms.lower s).Fails e := by
  induction h with
  | here => exact hk
  | @argument head args before after place a _ hasks hbefore ih =>
      apply ih
      rw [fails_call_iff, ← e.inside_of_form hform head]
      exact .argument hasks ⟨before, a, after, e, rfl, hbefore, hk, rfl⟩

/-! ### The call that an error belongs to -/

/-- What stands where a structural form wants a name or a list of names, and is none. -/
inductive Misplaced (forms : Forms) (head : String) : List Source → Source → Prop
  | name {form : StructuralForm} {found : Source} {ss : List Source} :
      forms.meaning head = .structural form → found.rawText? = none →
      Misplaced forms head (found :: ss) found
  | params {name params found : Source} {ss : List Source} :
      forms.meaning head = .structural .function → Reading.NotNames params found →
      Misplaced forms head (name :: params :: ss) found

/-- An error of the call of a head with some arguments, reported at the place that it belongs to. -/
structure ErrorOf (forms : Forms) (head : String) (args : List Source) (place : Place)
    (e : LoweringError) : Prop where
  /-- The call is no list. -/
  kind : e.kind ≠ .unknownVariant
  form : e.form = some head
  /-- Missing arguments are reported at the call; there are fewer than the form expects. -/
  arity : e.kind = .arity → e.place = place ∧ ∃ expected, args.length < expected ∧
    e.message = "`" ++ head ++ "` expects at least " ++ toString expected ++
      " argument(s), found " ++ toString args.length ++ "."
  /-- A missing operator is reported at the call. -/
  unbound : e.kind = .unboundOperator → e.place = place
  /-- A sequence is reported at the call, or if it is the value of a definition where it stands. -/
  sequence : e.kind = .unexpectedSequence →
    if forms.meaning head = .structural .define then ∃ value, args[1]? = some value ∧
      e.place = value.place
    else e.place = place
  /-- What is no name or no list of names is reported where it stands. -/
  malformed : e.kind = .malformed → ∃ found, forms.Misplaced head args found ∧
    e.place = found.place

section

variable {head : String} {args : List Source} {place : Place}

theorem errorOf_arity {expected found : Nat} (hfound : found = args.length)
    (hfew : found < expected) :
    forms.ErrorOf head args place (Site.arity ⟨head, place⟩ expected found) where
  kind := nofun
  form := rfl
  arity _ := by
    subst hfound
    exact ⟨rfl, expected, hfew, rfl⟩
  unbound := nofun
  sequence := nofun
  malformed := nofun

theorem errorOf_malformed {what : String} {found : Source}
    (h : forms.Misplaced head args found) :
    forms.ErrorOf head args place (.malformed head what found) where
  kind := nofun
  form := rfl
  arity := nofun
  unbound := nofun
  sequence := nofun
  malformed _ := ⟨found, h, rfl⟩

theorem errorOf_sequence (h : forms.meaning head ≠ .structural .define) :
    forms.ErrorOf head args place (Site.unexpectedSequence ⟨head, place⟩) where
  kind := nofun
  form := rfl
  arity := nofun
  unbound := nofun
  sequence _ := by
    rw [if_neg h]
    rfl
  malformed := nofun

theorem errorOf_refuses {form : SpecialForm} {ns : List Notice} {rs : List Lowered}
    (hm : forms.meaning head = .special form) (hargs : forms.LowersAll args ns rs)
    (h : form.Refuses ⟨head, place⟩ rs e) : forms.ErrorOf head args place e := by
  cases h with
  | unbound _ =>
      exact ⟨nofun, rfl, nofun, fun _ => rfl, nofun, nofun⟩
  | few _ hfew => exact errorOf_arity hargs.length_eq.symm hfew
  | sequence _ _ _ _ => exact errorOf_sequence (by simp [hm])

theorem errorOf_misbinds (hm : forms.meaning head = .structural .define)
    (h : StructuralForm.Misbinds ⟨head, place⟩ args e) : forms.ErrorOf head args place e := by
  cases h with
  | unnamed => exact errorOf_arity rfl Nat.one_pos
  | name hname => exact errorOf_malformed (.name hm hname)
  | value _ => exact errorOf_arity rfl Nat.one_lt_two

theorem errorOf_misheads (hm : forms.meaning head = .structural .function)
    (h : StructuralForm.Misheads ⟨head, place⟩ args e) : forms.ErrorOf head args place e := by
  cases h with
  | unnamed => exact errorOf_arity rfl Nat.one_pos
  | name hname => exact errorOf_malformed (.name hm hname)
  | body _ hfew => exact errorOf_arity rfl (by omega)
  | params _ hfound => exact errorOf_malformed (.params hm hfound)

/-- An error of a call comes from an argument, or it is an error of the call itself. -/
theorem FailsCall.argument_or_errorOf (h : forms.FailsCall ⟨head, place⟩ args e) :
    (∃ asked, forms.Asks head args asked ∧ forms.FailsAmong head asked e) ∨
      forms.ErrorOf head args place e := by
  cases h with
  | argument hasks hfails => exact .inl ⟨_, hasks, hfails⟩
  | operand hm _ _ _ => exact .inr (errorOf_sequence (by simp_all))
  | special hm hargs hbuild => exact .inr (errorOf_refuses hm hargs hbuild)
  | define hm hread => exact .inr (errorOf_misbinds hm hread)
  | @value n value extra ns r hm hn hvalue hr =>
      refine .inr ⟨nofun, rfl, nofun, nofun, ?_, nofun⟩
      intro _
      rw [if_pos hm]
      exact ⟨value, rfl, rfl⟩
  | function hm hread => exact .inr (errorOf_misheads hm hread)
  | undone _ _ _ => exact .inr (errorOf_arity rfl (by simp))

end

/-! ### Where an error arises -/

/-- An error arises in a tree: it is that of a bare list which is the whole tree, or it comes from
a call that lowering comes to, being an error of the call itself or that of a bare list among its
arguments. -/
theorem exists_origin (h : (forms.lower s).Fails e) :
    (∃ elements place, s = .list elements place ∧ e = .unknownVariant s) ∨
      ∃ head args place, forms.Reaches s (.call head args place) ∧
        (forms.lower (.call head args place)).Fails e ∧
        (forms.ErrorOf head args place e ∨ ∃ before elements listPlace after,
          forms.Asks head args (before ++ .list elements listPlace :: after) ∧
          (∀ b ∈ before, forms.Accepts b) ∧
          e = (LoweringError.unknownVariant (.list elements listPlace)).inside head) := by
  induction s generalizing e with
  | leaf value place => exact absurd h not_fails_leaf
  | list elements place _ => exact .inl ⟨elements, place, rfl, fails_list_iff.mp h⟩
  | call head args place ih =>
      rcases (fails_call_iff.mp h).argument_or_errorOf with ⟨asked, hasks, hfails⟩ | howd
      · obtain ⟨before, a, after, e', rfl, hbefore, ha, rfl⟩ := hfails
        have hmem : a ∈ args := hasks.sublist.subset (by simp)
        rcases ih a hmem ha with ⟨elements, listPlace, rfl, rfl⟩ |
          ⟨head', args', place', hreach, hfails', horigin⟩
        · exact .inr ⟨head, args, place, .here, h,
            .inr ⟨before, elements, listPlace, after, hasks, hbefore, rfl⟩⟩
        · -- The error names the form it arose in already.
          have hform : e'.form = some head' := by
            rcases horigin with howd | ⟨_, elements, listPlace, _, _, _, rfl⟩
            · exact howd.form
            · rfl
          rw [e'.inside_of_form hform]
          have ha' : forms.Reaches (.call head args place) a := .argument .here hasks hbefore
          exact .inr ⟨head', args', place', ha'.trans hreach, hfails', horigin⟩
      · exact .inr ⟨head, args, place, .here, h, .inl howd⟩

/-- What an error of lowering `s` tells about the tree that is wrong. -/
structure Provenance (forms : Forms) (s : Source) (e : LoweringError) : Prop where
  /-- An unknown variant is a list that is met.  If it is the whole tree, no form is named; else the
  form that has it among its arguments is named, also at the end of the message, and whatever
  is around that call hands the error up as it is. -/
  list : e.kind = .unknownVariant → ∃ elements place, forms.Reaches s (.list elements place) ∧
    e.place = place ∧
    ((s = .list elements place ∧ e.form = none ∧
        e.message = "No lowering exists for a bare List node.") ∨
      ∃ head args callPlace, forms.Reaches s (.call head args callPlace) ∧
        .list elements place ∈ args ∧ e.form = some head ∧
        e.message = "No lowering exists for a bare List node. Found inside `" ++ head ++ "`." ∧
        ∀ k, forms.Reaches k (.call head args callPlace) → (forms.lower k).result = .error e)
  /-- Every other error is that of a call that is met, and whatever is around that call hands it up
  as it is. -/
  call : e.kind ≠ .unknownVariant → ∃ head args place,
    forms.Reaches s (.call head args place) ∧ forms.ErrorOf head args place e ∧
      ∀ k, forms.Reaches k (.call head args place) → (forms.lower k).result = .error e

end Forms

/-- **An error tells which tree is wrong and which form it stands in**, whatever the tables say. -/
theorem lower_error_provenance (forms : Forms) {s : Source} {e : LoweringError}
    (h : (forms.lower s).result = .error e) : forms.Provenance s e := by
  rcases Forms.exists_origin h with ⟨elements, place, rfl, rfl⟩ |
    ⟨head, args, place, hreach, hfails, howd |
      ⟨before, elements, listPlace, after, hasks, hbefore, rfl⟩⟩
  · refine ⟨fun _ => ⟨elements, place, .here, rfl, .inl ⟨rfl, rfl, rfl⟩⟩, ?_⟩
    intro hkind
    exact absurd rfl hkind
  · refine ⟨fun hkind => absurd hkind howd.kind, fun _ => ⟨head, args, place, hreach, howd, ?_⟩⟩
    exact fun k hk => hk.fails hfails howd.form
  · refine ⟨fun _ => ⟨elements, listPlace, .argument hreach hasks hbefore, rfl, .inr
      ⟨head, args, place, hreach, hasks.sublist.subset (by simp), rfl, ?_, ?_⟩⟩, ?_⟩
    · have htext : "No lowering exists for a bare " ++ "List" ++ " node." ++ " Found inside `" =
          "No lowering exists for a bare List node. Found inside `" := rfl
      exact congrArg (· ++ head ++ "`.") htext
    · exact fun k hk => hk.fails hfails rfl
    · intro hkind
      exact absurd rfl hkind

/-- In `(f (def x (if y)))` the conditional is wrong, and the definition and the call around it hand
its error up. -/
theorem lower_error_provenance_condition :
    let s : Source := .call "f" [.call "def" [.symbol "x", .call "if" [.symbol "y"] .unknown]
      .unknown] .unknown
    let e : LoweringError := Site.arity ⟨"if", .unknown⟩ 3 1
    (Forms.default.lower s).result = .error e ∧ Forms.default.Provenance s e := by
  intro s e
  have h : (Forms.default.lower s).result = .error e := rfl
  exact ⟨h, lower_error_provenance Forms.default h⟩

end FormLower
