import FormLower.Proofs.Lowering.Operators
import Mathlib.Order.Bounds.Defs

/-! # Missing arguments

A head needs a number of arguments: there are calls of it with that many that are lowered, and none
with fewer (`isLeast_required`).  What an error tells about the number is another matter, since a
structural form goes through its arguments one by one and may stop before it knows what else is to
come.  It tells what is needed to get one step further (`Meaning.expected`), and for a definition or
a function without any argument this is a name, as if the name were enough
(`compile_arity_define`). -/

namespace FormLower

/-! ### What heads need and what errors say they need -/

namespace Meaning

/-- How many arguments it takes, at the least. -/
def required : Meaning → Nat
  | .structural .define => 2
  | .structural .function => 3
  | .structural .skip => 0
  | .special form => form.required
  | .call => 0

/-- How many arguments an error says it takes when there are too few. -/
def expected (found : Nat) : Meaning → Nat
  | .structural .define => found + 1
  -- A name comes first; then two more arguments are asked for, and after these a body.
  | .structural .function => if found = 0 then 1 else if found < 3 then 3 else found + 1
  | .structural .skip => 0
  | .special form => form.required
  | .call => 0

/-- Errors ask for too little only where a structural form is given nothing at all. -/
theorem expected_lt_required_iff {m : Meaning} {found : Nat} :
    m.expected found < m.required ↔
      found = 0 ∧ (m = .structural .define ∨ m = .structural .function) := by
  cases m with
  | structural form =>
      cases form with
      | define =>
          show found + 1 < 2 ↔ _
          simp only [true_or, and_true]
          omega
      | function =>
          unfold expected required
          simp only [reduceCtorEq, false_or, and_true, Meaning.structural.injEq]
          split
          · omega
          · split <;> omega
      | skip => simp [expected, required]
  | special form => simp [expected, required]
  | call => simp [expected, required]

end Meaning

namespace Forms

variable {forms : Forms} {head : String} {args : List Source} {place : Place} {e : LoweringError}

/-! ### The least number of arguments -/

theorem LowersCall.required_le {site : Site} {ns : List Notice} {r : Lowered}
    (h : forms.LowersCall site args ns r) :
    (forms.meaning site.form).required ≤ args.length := by
  cases h with
  | call hm | skip hm | print hm | sequence hm | drop hm =>
      rw [hm]
      exact Nat.zero_le _
  | define hm =>
      rw [hm]
      show 2 ≤ _
      simp
  | function hm =>
      rw [hm]
      show 3 ≤ _
      simp only [List.length_cons, List.length_append, List.length_nil]
      omega
  | arithmetic hm _ hargs | comparison hm _ hargs | condition hm hargs | ret hm hargs =>
      rw [hm, hargs.length_eq]
      simp [Meaning.required, SpecialForm.required]

/-- Symbols, and where a function wants one a list without parameters, are enough for a head. -/
theorem exists_wellFormed_required (head : String) :
    ∃ args place, args.length = (default.meaning head).required ∧
      (Source.call head args place).WellFormed := by
  let x : Source := .symbol "x"
  have hleaf : x.IsLeaf := ⟨_, _, rfl⟩
  have hx : x.WellFormed := .leaf _ _
  have hone : ¬ x.IsSequence := nofun
  have hxs (n : Nat) : ∀ a ∈ List.replicate n x, a.WellFormed :=
    fun a ha => List.eq_of_mem_replicate ha ▸ hx
  have hones (n : Nat) : ∀ a ∈ List.replicate n x, ¬ a.IsSequence :=
    fun a ha => List.eq_of_mem_replicate ha ▸ hone
  cases hm : default.meaning head with
  | structural form =>
      cases form with
      | define =>
          obtain rfl : head = "def" := meaning_eq_define_iff.mp hm
          exact ⟨[x, x], .unknown, rfl, .define hleaf hx hone⟩
      | function =>
          obtain rfl : head = "defn" := meaning_eq_function_iff.mp hm
          exact ⟨[x, .list [] .unknown, x], .unknown, rfl,
            .function hleaf (by simp) nofun (hxs 1)⟩
      | skip => exact absurd hm meaning_ne_skip.1
  | special form =>
      refine ⟨List.replicate form.required x, .unknown, List.length_replicate, ?_⟩
      cases form with
      | print =>
          obtain rfl : head = "print" := meaning_eq_print_iff.mp hm
          exact .print (hxs 0) (hones 0)
      | arithmetic =>
          have hhead : head ∈ arithmeticHeads := meaning_eq_arithmetic_iff.mp hm
          exact .operation (List.mem_append_left _ hhead) (Nat.le_refl 2) (hxs 2) (hones 2)
      | comparison =>
          have hhead : head ∈ comparisonHeads := meaning_eq_comparison_iff.mp hm
          exact .operation (List.mem_append_right _ hhead) (Nat.le_refl 2) (hxs 2) (hones 2)
      | condition =>
          obtain rfl : head = "if" := meaning_eq_condition_iff.mp hm
          have htwo : 2 ≤ [x, x].length := Nat.le_refl 2
          exact .condition htwo hone (hxs 3)
      | sequence =>
          obtain rfl : head = "do" := meaning_eq_sequence_iff.mp hm
          exact .sequence (hxs 0)
      | ret =>
          obtain rfl : head = "return" := meaning_eq_ret_iff.mp hm
          exact @Source.WellFormed.ret [] x .unknown hone (hxs 1)
      | skip => exact absurd hm meaning_ne_skip.2
  | call => exact ⟨[], .unknown, rfl, .call (meaning_eq_call_iff.mp hm) nofun nofun⟩

/-- The numbers of arguments with which some call of a head is lowered. -/
def arities (forms : Forms) (head : String) : Set Nat :=
  {n | ∃ args place r, args.length = n ∧ (forms.lower (.call head args place)).result = .ok r}

/-- **Some call of a head with the arguments it needs is lowered, and none with fewer.** -/
theorem isLeast_required (head : String) :
    IsLeast (default.arities head) (default.meaning head).required := by
  constructor
  · obtain ⟨args, place, hlength, hwell⟩ := exists_wellFormed_required head
    obtain ⟨ns, r, hr⟩ := hwell.accepts
    exact ⟨args, place, r, hlength, Run.exists_gives_iff.mp ⟨ns, hr⟩⟩
  · rintro n ⟨args, place, r, rfl, hr⟩
    obtain ⟨ns, hgives⟩ := Run.exists_gives_iff.mpr hr
    exact (lowers_call_iff.mp hgives).required_le

/-! ### Errors about missing arguments -/

/-- An error about missing arguments comes from an argument, or it tells what the head expects. -/
theorem FailsCall.argument_or_arity (h : forms.FailsCall ⟨head, place⟩ args e)
    (hkind : e.kind = .arity) :
    (∃ asked, forms.Asks head args asked ∧ forms.FailsAmong head asked e) ∨
      e = Site.arity ⟨head, place⟩ ((forms.meaning head).expected args.length) args.length := by
  cases h with
  | argument hasks hfails => exact .inl ⟨_, hasks, hfails⟩
  | operand _ _ _ _ => cases hkind
  | special hm hargs hrefuses =>
      cases hrefuses with
      | unbound _ => cases hkind
      | few _ _ =>
          rw [hm, hargs.length_eq]
          exact .inr rfl
      | sequence _ _ _ _ => cases hkind
  | define hm hread =>
      cases hread with
      | name _ => cases hkind
      | unnamed | value _ =>
          rw [hm]
          exact .inr rfl
  | value _ _ _ _ => cases hkind
  | function hm hread =>
      cases hread with
      | name _ | params _ _ => cases hkind
      | unnamed =>
          rw [hm]
          exact .inr rfl
      | @body s ss _ hfew =>
          have hexpected : (Meaning.structural .function).expected (ss.length + 1) = 3 := by
            unfold Meaning.expected
            rw [if_neg (Nat.succ_ne_zero _), if_pos (by omega)]
          rw [hm, List.length_cons, hexpected]
          exact .inr rfl
  | undone hm _ _ =>
      rw [hm]
      exact .inr rfl

/-- An error about missing arguments is that of a call in the tree. -/
theorem exists_call_of_arity {s : Source} (h : (forms.lower s).Fails e) (hkind : e.kind = .arity) :
    ∃ head args place, .call head args place ∈ s.nodes ∧
      e = Site.arity ⟨head, place⟩ ((forms.meaning head).expected args.length) args.length := by
  induction s generalizing e with
  | leaf value place => exact absurd h not_fails_leaf
  | list elements place _ =>
      rw [fails_list_iff.mp h] at hkind
      cases hkind
  | call head args place ih =>
      rcases (fails_call_iff.mp h).argument_or_arity hkind with ⟨asked, hasks, hfails⟩ | he
      · obtain ⟨before, a, after, e', rfl, -, ha, rfl⟩ := hfails
        have hmem : a ∈ args := hasks.sublist.subset (by simp)
        rw [kind_inside] at hkind
        obtain ⟨head', args', place', hcall, rfl⟩ := ih a hmem ha hkind
        rw [LoweringError.inside_of_form rfl]
        exact ⟨head', args', place', Source.mem_nodes_of_child hmem hcall, rfl⟩
      · exact ⟨head, args, place, Source.self_mem_nodes _, he⟩

end Forms

/-- **An error about missing arguments never asks for too few, unless a definition or a function has
no arguments at all.**  It belongs to a call in the forest and tells how many arguments there are
and how many are expected.  That is no less than what the head needs, which is the least number of
arguments of any call of it that is lowered; only `(def)` and `(defn)` are said to expect one
argument, where they need two and three. -/
theorem compile_arity {name : String} {forest : List Source} {e : LoweringError}
    (h : (compile name forest).result = .error e) (hkind : e.kind = .arity) :
    ∃ head args place expected needed,
      .call head args place ∈ Source.nodesAll forest ∧ e.form = some head ∧ e.place = place ∧
      e.message = "`" ++ head ++ "` expects at least " ++ toString expected ++
        " argument(s), found " ++ toString args.length ++ "." ∧
      IsLeast (Forms.default.arities head) needed ∧
      (expected < needed ↔ args = [] ∧ (head = "def" ∨ head = "defn")) ∧
      (expected < needed → expected = 1) := by
  obtain ⟨s, hs, hfails⟩ := Forms.exists_fails_of_assemble h
  obtain ⟨head, args, place, hcall, rfl⟩ := Forms.exists_call_of_arity hfails hkind
  have hmem : .call head args place ∈ Source.nodesAll forest := by
    rw [Source.nodesAll_eq_flatMap]
    exact List.mem_flatMap.mpr ⟨s, hs, hcall⟩
  have hunder : (Forms.default.meaning head).expected args.length <
      (Forms.default.meaning head).required ↔ args = [] ∧ (head = "def" ∨ head = "defn") := by
    rw [Meaning.expected_lt_required_iff, List.length_eq_zero_iff, Forms.meaning_eq_define_iff,
      Forms.meaning_eq_function_iff]
  refine ⟨head, args, place, _, _, hmem, rfl, rfl, rfl, Forms.isLeast_required head, hunder, ?_⟩
  intro hlt
  obtain ⟨rfl, rfl | rfl⟩ := hunder.mp hlt
  · rfl
  · rfl

/-- The function in `(f (defn g))` lacks its parameters and a body, and is said to expect three
arguments. -/
theorem compile_arity_function :
    let forest : List Source := [.call "f" [.call "defn" [.symbol "g"] .unknown] .unknown]
    ∃ e head args place expected needed, (compile "m" forest).result = .error e ∧
      e.kind = .arity ∧ e.form = some head ∧
      .call head args place ∈ Source.nodesAll forest ∧
      e.message = "`" ++ head ++ "` expects at least " ++ toString expected ++
        " argument(s), found " ++ toString args.length ++ "." ∧
      IsLeast (Forms.default.arities head) needed ∧
      (expected < needed ↔ args = [] ∧ (head = "def" ∨ head = "defn")) := by
  intro forest
  obtain ⟨e, he, hkind⟩ : ∃ e, (compile "m" forest).result = .error e ∧ e.kind = .arity :=
    ⟨_, rfl, rfl⟩
  obtain ⟨head, args, place, expected, needed, hcall, hform, -, hmessage, hneeded, hunder, -⟩ :=
    compile_arity he hkind
  exact ⟨e, head, args, place, expected, needed, he, hkind, hform, hcall, hmessage, hneeded, hunder⟩

/-- A definition without arguments is said to expect one of them, and no definition with at most
one argument is lowered. -/
theorem compile_arity_define :
    (∃ e, (compile "m" [.call "def" [] .unknown]).result = .error e ∧ e.kind = .arity ∧
      e.message = "`def` expects at least 1 argument(s), found 0.") ∧
      ∀ args place r, args.length ≤ 1 →
        (Forms.default.lower (.call "def" args place)).result ≠ .ok r := by
  refine ⟨⟨_, rfl, rfl, by decide⟩, ?_⟩
  intro args place r hlength hr
  have htwo : 2 ≤ args.length := (Forms.isLeast_required "def").2 ⟨args, place, r, rfl, hr⟩
  omega

end FormLower
