import FormLower.Proofs.Lowering.Acceptance

/-! # Lowering that fails

The counterpart of the rules of lowering: `FailsCall` lists what can go wrong in a call, and
`fails_call_iff` says that a call fails in these ways and in no others.  Arguments are lowered from
left to right, so that of several things that are wrong with a call the first one is reported. -/

namespace FormLower

open Run

/-! ### Operands -/

namespace Lowered

variable {site : Site} {e : LoweringError}

/-- A sequence of statements. -/
def IsSequence (r : Lowered) : Prop := ∃ ts, r = .sequence ts

theorem fails_expression {r : Lowered} :
    (r.expression site).Fails e ↔ r.IsSequence ∧ e = site.unexpectedSequence := by
  cases r <;> simp [expression, IsSequence]

theorem fails_expressions {rs : List Lowered} :
    (expressions site rs).Fails e ↔ (∃ r ∈ rs, r.IsSequence) ∧ e = site.unexpectedSequence := by
  unfold expressions
  induction rs with
  | nil => simp [all]
  | cons r rs ih =>
      simp only [List.map_cons, all, fails_bind, fails_expression, ih, gives_expression,
        not_fails_pure, and_false, exists_false, or_false, List.mem_cons, exists_eq_or_imp]
      constructor
      · rintro (⟨hr, rfl⟩ | ⟨_, _, _, hrs, rfl⟩)
        · exact ⟨.inl hr, rfl⟩
        · exact ⟨.inr hrs, rfl⟩
      · rintro ⟨hr | hrs, rfl⟩
        · exact .inl ⟨hr, rfl⟩
        · cases r with
          | sequence ts => exact .inl ⟨⟨ts, rfl⟩, rfl⟩
          | single t => exact .inr ⟨[], t, ⟨rfl, rfl⟩, hrs, rfl⟩

end Lowered

/-! ### Special forms -/

namespace SpecialForm

variable {site : Site} {rs : List Lowered} {e : LoweringError}

/-- Whether a head names the operator that a form needs, if it needs one. -/
def hasOperator (head : String) : SpecialForm → Bool
  | .arithmetic => (Arithmetic.ofSymbol? head).isSome
  | .comparison => (Comparison.ofSymbol? head).isSome
  | _ => true

/-- How many arguments a form needs. -/
def required : SpecialForm → Nat
  | .arithmetic | .comparison => 2
  | .condition => 3
  | .ret => 1
  | .print | .sequence | .skip => 0

/-- The lowered arguments that have to be expressions. -/
def operands (rs : List Lowered) : SpecialForm → List Lowered
  | .print | .arithmetic | .comparison => rs
  | .condition => rs.take 1
  | .ret => rs.getLast?.toList
  | .sequence | .skip => []

/-- Why a form is not built from lowered arguments.  A missing operator is reported before missing
arguments, and these before an argument that is no expression. -/
inductive Refuses (site : Site) (rs : List Lowered) (form : SpecialForm) : LoweringError → Prop
  | unbound : form.hasOperator site.form = false → Refuses site rs form site.unboundOperator
  | few : form.hasOperator site.form → rs.length < form.required →
      Refuses site rs form (site.arity form.required rs.length)
  | sequence {r : Lowered} : form.hasOperator site.form → form.required ≤ rs.length →
      r ∈ form.operands rs → r.IsSequence → Refuses site rs form site.unexpectedSequence

theorem refuses_of_unbound {form : SpecialForm} (h : form.hasOperator site.form = false) :
    Refuses site rs form e ↔ e = site.unboundOperator := by
  constructor
  · rintro (_ | ⟨h', _⟩ | ⟨h', _⟩)
    · rfl
    · exact absurd h' (by simp [h])
    · exact absurd h' (by simp [h])
  · rintro rfl
    exact .unbound h

theorem refuses_of_few {form : SpecialForm} (h : form.hasOperator site.form)
    (hfew : rs.length < form.required) :
    Refuses site rs form e ↔ e = site.arity form.required rs.length := by
  constructor
  · rintro (h' | _ | ⟨_, h'⟩)
    · exact absurd h (by simp [h'])
    · rfl
    · omega
  · rintro rfl
    exact .few h hfew

theorem refuses_of_enough {form : SpecialForm} (h : form.hasOperator site.form)
    (henough : form.required ≤ rs.length) :
    Refuses site rs form e ↔
      (∃ r ∈ form.operands rs, r.IsSequence) ∧ e = site.unexpectedSequence := by
  constructor
  · rintro (h' | ⟨_, h'⟩ | ⟨_, _, hr, hseq⟩)
    · exact absurd h (by simp [h'])
    · omega
    · exact ⟨⟨_, hr, hseq⟩, rfl⟩
  · rintro ⟨⟨r, hr, hseq⟩, rfl⟩
    exact .sequence h henough hr hseq

theorem fails_buildPrint : (buildPrint site rs).Fails e ↔ Refuses site rs .print e := by
  rw [refuses_of_enough rfl (Nat.zero_le _)]
  simp [buildPrint, fails_bind, Lowered.fails_expressions, operands]

/-- Operands are not put together if one of them is a sequence. -/
theorem fails_operands {first second : Lowered} {others : List Lowered}
    {f : Target → List Target → Lowered} :
    (do
      let left ← first.expression site
      let rights ← Lowered.expressions site (second :: others)
      pure (f left rights) : Lowering Lowered).Fails e ↔
      (∃ r ∈ first :: second :: others, r.IsSequence) ∧ e = site.unexpectedSequence := by
  rw [← Lowered.fails_expressions]
  simp only [Lowered.expressions, List.map_cons, all, fails_bind, not_fails_pure, and_false,
    exists_false, or_false]

theorem length_lt_two {α : Type} {xs : List α} (h : ∀ a b cs, xs ≠ a :: b :: cs) :
    xs.length < 2 := by
  match xs, h with
  | [], _ => simp
  | [_], _ => simp
  | a :: b :: cs, h => exact absurd rfl (h a b cs)

theorem fails_buildArithmetic :
    (buildArithmetic site rs).Fails e ↔ Refuses site rs .arithmetic e := by
  unfold buildArithmetic
  split
  · next hop => rw [fails_fail, refuses_of_unbound (by simp [hasOperator, hop])]
  · next op first second others hop =>
      rw [fails_operands, refuses_of_enough (by simp [hasOperator, hop]) (by simp [required])]
      rfl
  · next op few hop hfew =>
      rw [fails_fail, refuses_of_few (by simp [hasOperator, hop]) (length_lt_two hfew)]
      rfl

theorem fails_buildComparison :
    (buildComparison site rs).Fails e ↔ Refuses site rs .comparison e := by
  unfold buildComparison
  split
  · next hop => rw [fails_fail, refuses_of_unbound (by simp [hasOperator, hop])]
  · next op first second others hop =>
      rw [fails_operands, refuses_of_enough (by simp [hasOperator, hop]) (by simp [required])]
      rfl
  · next op few hop hfew =>
      rw [fails_fail, refuses_of_few (by simp [hasOperator, hop]) (length_lt_two hfew)]
      rfl

theorem fails_buildCondition :
    (buildCondition site rs).Fails e ↔ Refuses site rs .condition e := by
  unfold buildCondition
  split
  · next test body orelse extra =>
      rw [refuses_of_enough rfl (by simp [required])]
      simp [fails_bind, Lowered.fails_expression, operands]
  · next few hfew =>
      have hlen : rs.length < 3 := by
        match rs, hfew with
        | [], _ => simp
        | [_], _ => simp
        | [_, _], _ => simp
        | a :: b :: c :: ds, hfew => exact absurd rfl (hfew a b c ds)
      rw [fails_fail, refuses_of_few rfl hlen]
      rfl

theorem fails_buildReturn : (buildReturn site rs).Fails e ↔ Refuses site rs .ret e := by
  unfold buildReturn
  rcases List.eq_nil_or_concat rs with rfl | ⟨init, last, rfl⟩
  · rw [refuses_of_few rfl (by simp [required])]
    exact fails_fail
  · rw [refuses_of_enough rfl (by simp [required]), List.concat_eq_append, List.getLast?_concat]
    simp [fails_bind, Lowered.fails_expression, operands]

/-- **A form is not built exactly when it refuses its arguments.** -/
theorem fails_build_iff {form : SpecialForm} :
    (form.build site rs).Fails e ↔ Refuses site rs form e := by
  cases form with
  | print => exact fails_buildPrint
  | arithmetic => exact fails_buildArithmetic
  | comparison => exact fails_buildComparison
  | condition => exact fails_buildCondition
  | sequence =>
      rw [refuses_of_enough rfl (Nat.zero_le _)]
      simp [build, buildSequence, operands]
  | ret => exact fails_buildReturn
  | skip =>
      rw [refuses_of_enough rfl (Nat.zero_le _)]
      simp [build, operands]

end SpecialForm

theorem fails_buildCall {site : Site} {rs : List Lowered} {e : LoweringError} :
    (buildCall site rs).Fails e ↔ (∃ r ∈ rs, r.IsSequence) ∧ e = site.unexpectedSequence := by
  simp [buildCall, fails_bind, Lowered.fails_expressions]

/-! ### Arguments -/

namespace Forms

variable {forms : Forms} {site : Site} {args : List Source} {e : LoweringError}

/-- One of several arguments of a form cannot be lowered, and those before it can. -/
def FailsAmong (forms : Forms) (form : String) (ss : List Source) (e : LoweringError) : Prop :=
  ∃ before s after e', ss = before ++ s :: after ∧ (∀ b ∈ before, forms.Accepts b) ∧
    (forms.lower s).Fails e' ∧ e = e'.inside form

theorem fails_argument_lowered {form : String} {s : Source} :
    ((forms.argument s).lowered form).Fails e ↔
      ∃ e', (forms.lower s).Fails e' ∧ e = e'.inside form := fails_mapError

theorem fails_all_lowered {form : String} {ss : List Source} :
    (Run.all (ss.map fun s => (forms.argument s).lowered form)).Fails e ↔
      forms.FailsAmong form ss e := by
  rw [fails_all]
  constructor
  · rintro ⟨before, x, after, heq, hbefore, hx⟩
    obtain ⟨bs, rest, rfl, rfl, hrest⟩ := List.map_eq_append_iff.mp heq
    obtain ⟨s, ss, rfl, rfl, rfl⟩ := List.map_eq_cons_iff.mp hrest
    obtain ⟨e', hs, rfl⟩ := fails_argument_lowered.mp hx
    refine ⟨bs, s, ss, e', rfl, ?_, hs, rfl⟩
    intro b hb
    obtain ⟨ns, r, hr⟩ := hbefore _ (List.mem_map_of_mem hb)
    exact ⟨ns, r, gives_lowered.mp hr⟩
  · rintro ⟨before, s, after, e', rfl, hbefore, hs, rfl⟩
    refine ⟨_, _, _, by rw [List.map_append, List.map_cons], ?_,
      fails_argument_lowered.mpr ⟨e', hs, rfl⟩⟩
    intro x hx
    obtain ⟨b, hb, rfl⟩ := List.mem_map.mp hx
    obtain ⟨ns, r, hr⟩ := hbefore b hb
    exact ⟨ns, r, gives_lowered.mpr hr⟩

theorem fails_lowerChildren {form : String} :
    (lowerChildren form (forms.lowerArgs args)).Fails e ↔ forms.FailsAmong form args e := by
  rw [lowerChildren, lowerArgs_eq, List.map_map]
  exact fails_all_lowered

theorem fails_argument_expression {form : String} {s : Source} :
    ((forms.argument s).expression form).Fails e ↔
      forms.FailsAmong form [s] e ∨
        ∃ ns r, forms.Lowers s ns r ∧ r.IsSequence ∧
          e = Site.unexpectedSequence ⟨form, s.place⟩ := by
  have hsingle : forms.FailsAmong form [s] e ↔ ((forms.argument s).lowered form).Fails e := by
    rw [← fails_all_lowered]
    simp [all, fails_bind]
  rw [hsingle, Argument.expression, fails_bind]
  simp only [Lowered.fails_expression]
  exact or_congr_right (exists₂_congr fun ns r => and_congr_left' gives_lowered)

/-! ### Calls -/

/-- The arguments of a head that are lowered, provided that the others can be read: all of them,
but for a structural form, which lowers its value or its bodies. -/
inductive Asks (forms : Forms) (head : String) : List Source → List Source → Prop
  | call {args : List Source} : forms.meaning head = .call → Asks forms head args args
  | special {form : SpecialForm} {args : List Source} :
      forms.meaning head = .special form → Asks forms head args args
  | define {n : Reading.Named} {value : Source} {extra : List Source} :
      forms.meaning head = .structural .define → Reading.Names n →
      Asks forms head (n.2 :: value :: extra) [value]
  | function {s : StructuralForm.Signature} {place : Place} {bodies : List Source} :
      forms.meaning head = .structural .function → s.Precedes bodies →
      Asks forms head
        (s.name.2 :: .list (s.params.map Prod.snd) place :: (s.doc.toList ++ bodies)) bodies

/-- The ways in which lowering the call of a head with the given arguments fails. -/
inductive FailsCall (forms : Forms) (site : Site) : List Source → LoweringError → Prop
  | argument {args asked : List Source} {e : LoweringError} :
      forms.Asks site.form args asked → forms.FailsAmong site.form asked e →
      FailsCall forms site args e
  | operand {args : List Source} {ns : List Notice} {rs : List Lowered} {r : Lowered} :
      forms.meaning site.form = .call → forms.LowersAll args ns rs → r ∈ rs → r.IsSequence →
      FailsCall forms site args site.unexpectedSequence
  | special {form : SpecialForm} {args : List Source} {ns : List Notice} {rs : List Lowered}
      {e : LoweringError} :
      forms.meaning site.form = .special form → forms.LowersAll args ns rs →
      form.Refuses site rs e → FailsCall forms site args e
  | define {args : List Source} {e : LoweringError} :
      forms.meaning site.form = .structural .define → StructuralForm.Misbinds site args e →
      FailsCall forms site args e
  | value {n : Reading.Named} {value : Source} {extra : List Source} {ns : List Notice}
      {r : Lowered} :
      forms.meaning site.form = .structural .define → Reading.Names n →
      forms.Lowers value ns r → r.IsSequence →
      FailsCall forms site (n.2 :: value :: extra)
        (Site.unexpectedSequence ⟨site.form, value.place⟩)
  | function {args : List Source} {e : LoweringError} :
      forms.meaning site.form = .structural .function → StructuralForm.Misheads site args e →
      FailsCall forms site args e
  | undone {s : StructuralForm.Signature} {place : Place} {doc : Source} :
      forms.meaning site.form = .structural .function → s.Precedes [] → s.doc = some doc →
      FailsCall forms site [s.name.2, .list (s.params.map Prod.snd) place, doc] (site.arity 4 3)

/-! ### The structural forms -/

theorem map_source_lowerArgs (ss : List Source) :
    (forms.lowerArgs ss).map Argument.source = ss := by
  rw [lowerArgs_eq, List.map_map]
  exact List.map_id ss

/-- What a definition is read from, the arguments given as trees. -/
theorem binding_run_eq_ok_iff {b : StructuralForm.Binding (Lowering Lowered)}
    {extra : List (Argument (Lowering Lowered))} :
    StructuralForm.binding.run site (forms.lowerArgs args) = .ok (b, extra) ↔
      ∃ value ss, args = b.name.2 :: value :: ss ∧ b.value = forms.argument value ∧
        extra = ss.map forms.argument ∧ Reading.Names b.name := by
  rw [StructuralForm.binding_run_eq_ok_iff, lowerArgs_eq]
  constructor
  · rintro ⟨a, hargs, hname, hnames⟩
    obtain ⟨s, ss, rfl, rfl, hrest⟩ := List.map_eq_cons_iff.mp hargs
    obtain ⟨value, ss, rfl, hvalue, rfl⟩ := List.map_eq_cons_iff.mp hrest
    rw [hname]
    exact ⟨value, ss, rfl, hvalue.symm, rfl, hnames⟩
  · rintro ⟨value, ss, rfl, hvalue, rfl, hnames⟩
    rw [hvalue]
    exact ⟨forms.argument b.name.2, rfl, rfl, hnames⟩

theorem fails_lowerDefine :
    (StructuralForm.lowerDefine site (forms.lowerArgs args)).Fails e ↔
      StructuralForm.Misbinds site args e ∨
        ∃ n value extra, args = n.2 :: value :: extra ∧ Reading.Names n ∧
          (forms.FailsAmong site.form [value] e ∨ ∃ ns r, forms.Lowers value ns r ∧
            r.IsSequence ∧ e = Site.unexpectedSequence ⟨site.form, value.place⟩) := by
  simp only [StructuralForm.lowerDefine, fails_bind, fails_ofExcept, gives_ofExcept,
    not_fails_noteCount, gives_noteCount, not_fails_pure, and_false, exists_false, or_false,
    false_or, StructuralForm.binding_run_eq_error_iff, map_source_lowerArgs]
  refine or_congr_right ⟨?_, ?_⟩
  · rintro ⟨_, ⟨b, extra⟩, ⟨-, hread⟩, _, _, -, hvalue⟩
    obtain ⟨value, ss, rfl, hb, rfl, hnames⟩ := binding_run_eq_ok_iff.mp hread
    rw [hb] at hvalue
    exact ⟨b.name, value, ss, rfl, hnames, fails_argument_expression.mp hvalue⟩
  · rintro ⟨n, value, extra, rfl, hnames, hvalue⟩
    exact ⟨[], (⟨n, forms.argument value⟩, extra.map forms.argument),
      ⟨rfl, binding_run_eq_ok_iff.mpr ⟨value, extra, rfl, rfl, rfl, hnames⟩⟩, _, (), rfl,
      fails_argument_expression.mpr hvalue⟩

theorem fails_lowerFunction :
    (StructuralForm.lowerFunction site (forms.lowerArgs args)).Fails e ↔
      StructuralForm.Misheads site args e ∨
        ∃ (s : StructuralForm.Signature) (place : Place) (bodies : List Source),
          args = s.name.2 :: .list (s.params.map Prod.snd) place :: (s.doc.toList ++ bodies) ∧
          s.doc.toList ++ bodies ≠ [] ∧ s.Precedes bodies ∧
          (forms.FailsAmong site.form bodies e ∨
            bodies = [] ∧ e = site.arity (args.length + 1) args.length) := by
  simp only [StructuralForm.lowerFunction, fails_bind, fails_ofExcept, gives_ofExcept,
    StructuralForm.signature_run_eq_error_iff, map_source_lowerArgs]
  have hlength : (forms.lowerArgs args).length = args.length := by
    rw [lowerArgs_eq, List.length_map]
  -- What follows the reading of the head goes by the bodies that are left then.
  have hhead {P : StructuralForm.Signature × List (Argument (Lowering Lowered)) → Prop} :
      (∃ ns : List Notice, ∃ x,
        (ns = [] ∧ StructuralForm.signature.run site (forms.lowerArgs args) = .ok x) ∧ P x) ↔
      ∃ (s : StructuralForm.Signature) (place : Place) (bs : List Source),
        args = s.name.2 :: .list (s.params.map Prod.snd) place :: (s.doc.toList ++ bs) ∧
          s.doc.toList ++ bs ≠ [] ∧ s.Precedes bs ∧ P (s, bs.map forms.argument) := by
    constructor
    · rintro ⟨_, ⟨s, _⟩, ⟨-, hread⟩, hrest⟩
      obtain ⟨place, bs, heq, rfl, hne, hs⟩ := signature_run_eq_ok_iff.mp hread
      exact ⟨s, place, bs, heq, hne, hs, hrest⟩
    · rintro ⟨s, place, bs, heq, hne, hs, hrest⟩
      exact ⟨[], _, ⟨rfl, signature_run_eq_ok_iff.mpr ⟨place, bs, heq, rfl, hne, hs⟩⟩, hrest⟩
  refine or_congr_right (hhead.trans ?_)
  refine exists_congr fun s => exists_congr fun place => exists_congr fun bs => ?_
  refine and_congr_right' (and_congr_right' (and_congr_right' ?_))
  rw [← fails_all_lowered]
  rcases List.eq_nil_or_concat bs with rfl | ⟨earlier, last, rfl⟩
  · simp [all, hlength]
  · rw [List.concat_eq_append, List.map_append, List.map_singleton, List.getLast?_concat,
      List.map_append, List.map_singleton, fails_all_concat]
    simp only [List.dropLast_concat, List.map_map, fails_bind, not_fails_noteCount,
      gives_noteCount, not_fails_pure, and_false, exists_false, or_false, false_or]
    simp [Function.comp_def]

/-! ### Trees -/

theorem fails_structural {form : StructuralForm}
    (hm : forms.meaning site.form = .structural form) :
    (forms.lowerCall site (forms.lowerArgs args)).Fails e ↔
      (form.lower site (forms.lowerArgs args)).Fails e := by
  simp [lowerCall, hm, fails_bind]

theorem fails_special {form : SpecialForm} (hm : forms.meaning site.form = .special form) :
    (forms.lowerCall site (forms.lowerArgs args)).Fails e ↔
      forms.FailsAmong site.form args e ∨
        ∃ ns rs, forms.LowersAll args ns rs ∧ form.Refuses site rs e := by
  simp [lowerCall, hm, fails_bind, fails_lowerChildren, gives_lowerChildren,
    SpecialForm.fails_build_iff]

theorem fails_call (hm : forms.meaning site.form = .call) :
    (forms.lowerCall site (forms.lowerArgs args)).Fails e ↔
      forms.FailsAmong site.form args e ∨ ∃ ns rs, forms.LowersAll args ns rs ∧
        (∃ r ∈ rs, r.IsSequence) ∧ e = site.unexpectedSequence := by
  simp only [lowerCall, hm, fails_bind, fails_lowerChildren, gives_lowerChildren,
    fails_buildCall]

@[simp] theorem not_fails_leaf {value : Leaf} {place : Place} :
    ¬ (forms.lower (.leaf value place)).Fails e := not_fails_pure

@[simp] theorem fails_list_iff {elements : List Source} {place : Place} :
    (forms.lower (.list elements place)).Fails e ↔
      e = .unknownVariant (.list elements place) := fails_fail

/-- **A call fails in one of the ways that are listed, and in no other.** -/
theorem fails_call_iff {head : String} {place : Place} :
    (forms.lower (.call head args place)).Fails e ↔ forms.FailsCall ⟨head, place⟩ args e := by
  change (forms.lowerCall ⟨head, place⟩ (forms.lowerArgs args)).Fails e ↔ _
  constructor
  · intro h
    cases hm : forms.meaning head with
    | structural form =>
        replace h := (fails_structural hm).mp h
        cases form with
        | define =>
            rcases fails_lowerDefine.mp h with
              hread | ⟨n, value, extra, rfl, hn, hvalue | ⟨ns, r, hvalue, hr, rfl⟩⟩
            · exact .define hm hread
            · exact .argument (.define hm hn) hvalue
            · exact .value hm hn hvalue hr
        | function =>
            rcases fails_lowerFunction.mp h with
              hread | ⟨s, p, bodies, rfl, hne, hs, hbodies | ⟨rfl, rfl⟩⟩
            · exact .function hm hread
            · exact .argument (.function hm hs) hbodies
            · obtain ⟨doc, hdoc⟩ : ∃ doc, s.doc = some doc := by
                cases hdoc : s.doc with
                | none => simp [hdoc] at hne
                | some doc => exact ⟨doc, rfl⟩
              rw [hdoc]
              exact .undone hm hs hdoc
        | skip => exact absurd h not_fails_pure
    | special form =>
        rcases (fails_special hm).mp h with hargs | ⟨ns, rs, hargs, hbuild⟩
        · exact .argument (.special hm) hargs
        · exact .special hm hargs hbuild
    | call =>
        rcases (fails_call hm).mp h with hargs | ⟨ns, rs, hargs, ⟨r, hr, hseq⟩, rfl⟩
        · exact .argument (.call hm) hargs
        · exact .operand hm hargs hr hseq
  · intro h
    cases h with
    | argument hasks hfails =>
        cases hasks with
        | call hm => exact (fails_call hm).mpr (.inl hfails)
        | special hm => exact (fails_special hm).mpr (.inl hfails)
        | define hm hn =>
            exact (fails_structural hm).mpr
              (fails_lowerDefine.mpr (.inr ⟨_, _, _, rfl, hn, .inl hfails⟩))
        | function hm hs =>
            refine (fails_structural hm).mpr
              (fails_lowerFunction.mpr (.inr ⟨_, _, _, rfl, ?_, hs, .inl hfails⟩))
            obtain ⟨before, b, after, _, rfl, -⟩ := hfails
            simp
    | operand hm hargs hr hseq =>
        exact (fails_call hm).mpr (.inr ⟨_, _, hargs, ⟨_, hr, hseq⟩, rfl⟩)
    | special hm hargs hbuild => exact (fails_special hm).mpr (.inr ⟨_, _, hargs, hbuild⟩)
    | define hm hread => exact (fails_structural hm).mpr (fails_lowerDefine.mpr (.inl hread))
    | value hm hn hvalue hr =>
        exact (fails_structural hm).mpr
          (fails_lowerDefine.mpr (.inr ⟨_, _, _, rfl, hn, .inr ⟨_, _, hvalue, hr, rfl⟩⟩))
    | function hm hread => exact (fails_structural hm).mpr (fails_lowerFunction.mpr (.inl hread))
    | undone hm hs hdoc =>
        exact (fails_structural hm).mpr (fails_lowerFunction.mpr
          (.inr ⟨_, _, [], by rw [hdoc]; rfl, by simp [hdoc], hs, .inr ⟨rfl, rfl⟩⟩))

/-! ### Programs -/

theorem fails_lowerForest {ss : List Source} {e : LoweringError}
    (h : (forms.lowerForest ss).Fails e) : ∃ s ∈ ss, (forms.lower s).Fails e := by
  rw [lowerForest, fails_bind, fails_all] at h
  rcases h with ⟨before, x, after, heq, -, hx⟩ | ⟨_, _, _, h⟩
  · have hmem : x ∈ ss.map forms.lower := by rw [heq]; simp
    obtain ⟨s, hs, rfl⟩ := List.mem_map.mp hmem
    exact ⟨s, hs, hx⟩
  · exact absurd h not_fails_pure

end Forms
end FormLower
