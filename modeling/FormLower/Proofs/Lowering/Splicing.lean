import FormLower.Proofs.Lowering.Agreement

/-! # Sequences that are spliced

Wherever statements are wanted, a sequence `(do a b …)` stands for the statements of what is in it,
so that it makes no difference whether they stand in a sequence, in a sequence of sequences or by
themselves: among the trees of a program, in another sequence, as a branch of a conditional or as
the body of a function.  Failures are the same as well, with one exception: a bare list belongs to
the form right around it, and that form is another one when the list stands in a sequence.

All of this is read off what several trees are lowered to inside a form (`lowerWithin`): inside `do`
the splicing of sequences changes nothing at all (`lowerWithin_splicedAll`), and being inside a form
changes nothing but the form that a bare list belongs to (`sameResult_lowerWithin`). -/

namespace FormLower

open Run StructuralForm LoweringError

/-! ### Splicing -/

namespace Source

mutual

/-- The trees that stand in a sequence, also in a sequence in it and so on; any other tree stands
for itself. -/
def spliced : Source → List Source
  | .leaf value place => [.leaf value place]
  | .call head args place => if head = "do" then splicedAll args else [.call head args place]
  | .list elements place => [.list elements place]

/-- Several trees, in place of each sequence the trees in it. -/
def splicedAll : List Source → List Source
  | [] => []
  | s :: ss => s.spliced ++ splicedAll ss

end

theorem splicedAll_eq_flatMap : ∀ ss : List Source, splicedAll ss = ss.flatMap spliced
  | [] => rfl
  | s :: ss => by rw [splicedAll, splicedAll_eq_flatMap ss, List.flatMap_cons]

@[simp] theorem spliced_do (args : List Source) (place : Place) :
    (Source.call "do" args place).spliced = splicedAll args := by
  rw [spliced, if_pos rfl]

/-- What has been spliced holds no sequences. -/
theorem splicedAll_spliced (s : Source) : splicedAll s.spliced = s.spliced := by
  induction s with
  | leaf value place => rfl
  | list elements place _ => rfl
  | call head args place ih =>
      by_cases h : head = "do"
      · subst h
        rw [spliced_do, splicedAll_eq_flatMap, splicedAll_eq_flatMap, List.flatMap_assoc]
        refine List.flatMap_congr fun a ha => ?_
        rw [← splicedAll_eq_flatMap, ih a ha]
      · rw [spliced, if_neg h, splicedAll, spliced, if_neg h]
        rfl

/-- A tree has the same trees in it as the flat sequence of them. -/
theorem spliced_do_spliced (s : Source) (place : Place) :
    (Source.call "do" s.spliced place).spliced = s.spliced := by
  rw [spliced_do, splicedAll_spliced]

theorem exists_do_or_spliced (s : Source) :
    (∃ args place, s = .call "do" args place) ∨ s.spliced = [s] := by
  cases s with
  | leaf value place => exact .inr rfl
  | list elements place => exact .inr rfl
  | call head args place =>
      by_cases h : head = "do"
      · subst h
        exact .inl ⟨args, place, rfl⟩
      · exact .inr (by rw [spliced, if_neg h])

end Source

open Source

namespace Forms

variable {forms : Forms}

/-! ### Inside a form -/

/-- The statements of several trees, failures being attributed to the form around them. -/
def lowerWithin (forms : Forms) (form : String) (ss : List Source) :
    Except LoweringError (List Target) :=
  (forms.lowerForest ss).result.mapError (LoweringError.inside form)

theorem result_lowerForest (ss : List Source) :
    (forms.lowerForest ss).result =
      (List.flatMap Lowered.statements) <$> (Run.all (ss.map forms.lower)).result := by
  rw [lowerForest, result_bind]
  cases (Run.all (ss.map forms.lower)).result <;> rfl

theorem result_lowerForest_append (ss ss' : List Source) :
    (forms.lowerForest (ss ++ ss')).result = (do
      let ts ← (forms.lowerForest ss).result
      let ts' ← (forms.lowerForest ss').result
      pure (ts ++ ts')) := by
  simp only [result_lowerForest, List.map_append, result_all_append]
  cases (Run.all (ss.map forms.lower)).result with
  | error e => rfl
  | ok rs =>
      cases (Run.all (ss'.map forms.lower)).result with
      | error e => rfl
      | ok rs' => exact congrArg Except.ok List.flatMap_append

theorem result_lowerForest_singleton (s : Source) :
    (forms.lowerForest [s]).result = Lowered.statements <$> (forms.lower s).result := by
  rw [result_lowerForest, List.map_singleton, result_all_cons]
  cases (forms.lower s).result with
  | error e => rfl
  | ok r => exact congrArg Except.ok (List.append_nil _)

theorem lowerWithin_append (form : String) (ss ss' : List Source) :
    forms.lowerWithin form (ss ++ ss') = (do
      let ts ← forms.lowerWithin form ss
      let ts' ← forms.lowerWithin form ss'
      pure (ts ++ ts')) := by
  simp only [lowerWithin, result_lowerForest_append, mapError_bind]
  rfl

theorem lowerWithin_eq (form : String) (ss : List Source) :
    forms.lowerWithin form ss = List.flatMap Lowered.statements <$>
      (Run.all (ss.map fun s => (forms.lower s).inside form)).result := by
  have hall : (Run.all (ss.map fun s => (forms.lower s).inside form)).result =
      (Run.all (ss.map forms.lower)).result.mapError (LoweringError.inside form) := by
    rw [← result_all_mapError, List.map_map]
    rfl
  rw [lowerWithin, result_lowerForest, mapError_map, hall]

/-- A call whose head names a special form is built from what its arguments are lowered to. -/
theorem result_lower_special {head : String} {form : SpecialForm}
    (hm : forms.meaning head = .special form) (args : List Source) (place : Place) :
    (forms.lower (.call head args place)).result = (do
      let rs ← (Run.all (args.map fun s => (forms.lower s).inside head)).result
      (form.build ⟨head, place⟩ rs).result) := by
  change (forms.lowerCall ⟨head, place⟩ (forms.lowerArgs args)).result = _
  simp only [lowerCall, hm, lowerChildren, lowerArgs_eq, List.map_map, result_bind]
  rfl

theorem result_lower_do (hdo : forms.meaning "do" = .special .sequence) (args : List Source)
    (place : Place) :
    (forms.lower (.call "do" args place)).result = .sequence <$> forms.lowerWithin "do" args := by
  rw [result_lower_special hdo, lowerWithin_eq]
  cases (Run.all (args.map fun s => (forms.lower s).inside "do")).result <;> rfl

/-- Among other trees a sequence stands for the trees in it, lowered inside `do`. -/
theorem result_lowerForest_do (hdo : forms.meaning "do" = .special .sequence)
    (args : List Source) (place : Place) :
    (forms.lowerForest [.call "do" args place]).result = forms.lowerWithin "do" args := by
  rw [result_lowerForest_singleton, result_lower_do hdo]
  cases forms.lowerWithin "do" args <;> rfl

/-- Inside `do`, a sequence is the trees in it. -/
theorem lowerWithin_do (hdo : forms.meaning "do" = .special .sequence) (args : List Source)
    (place : Place) :
    forms.lowerWithin "do" [.call "do" args place] = forms.lowerWithin "do" args := by
  rw [lowerWithin, result_lowerForest_do hdo, lowerWithin]
  cases (forms.lowerForest args).result with
  | ok ts => rfl
  | error e => exact congrArg Except.error (e.inside_inside "do")

theorem lowerWithin_splicedAll_of_forall {form : String} {ss : List Source}
    (h : ∀ s ∈ ss, forms.lowerWithin form [s] = forms.lowerWithin form s.spliced) :
    forms.lowerWithin form ss = forms.lowerWithin form (splicedAll ss) := by
  induction ss with
  | nil => rfl
  | cons s ss ih =>
      obtain ⟨hs, hss⟩ := List.forall_mem_cons.mp h
      rw [splicedAll, lowerWithin_append, ← hs, ← ih hss, ← lowerWithin_append]
      rfl

theorem lowerWithin_spliced (hdo : forms.meaning "do" = .special .sequence) (s : Source) :
    forms.lowerWithin "do" [s] = forms.lowerWithin "do" s.spliced := by
  induction s with
  | leaf value place => rfl
  | list elements place _ => rfl
  | call head args place ih =>
      by_cases hhead : head = "do"
      · subst hhead
        rw [lowerWithin_do hdo, spliced_do, lowerWithin_splicedAll_of_forall ih]
      · rw [spliced, if_neg hhead]

/-- **Inside `do`, splicing changes nothing**, whether the trees can be lowered or not. -/
theorem lowerWithin_splicedAll (hdo : forms.meaning "do" = .special .sequence)
    (ss : List Source) : forms.lowerWithin "do" ss = forms.lowerWithin "do" (splicedAll ss) :=
  lowerWithin_splicedAll_of_forall fun s _ => lowerWithin_spliced hdo s

/-! ### Around a form -/

/-- An error that names no form is that of a list, which is the whole tree. -/
theorem eq_unknownVariant_of_form_eq_none {s : Source} {e : LoweringError}
    (h : (forms.lower s).Fails e) (hform : e.form = none) :
    ∃ elements place, s = .list elements place ∧ e = .unknownVariant s := by
  rcases exists_origin h with hlist | ⟨head, args, place, -, -, howd | ⟨_, _, _, _, -, -, rfl⟩⟩
  · exact hlist
  · rw [howd.form] at hform
    cases hform
  · cases hform

/-- **Several trees are lowered to the same inside a form and by themselves**, but for the form
that the lists among them belong to. -/
theorem sameResult_lowerWithin (form : String) (ss : List Source) :
    SameResult (· ∈ ss) (forms.lowerForest ss).result (forms.lowerWithin form ss) := by
  unfold lowerWithin
  cases h : (forms.lowerForest ss).result with
  | ok ts => exact .ok ts
  | error e =>
      cases hform : e.form with
      | some own =>
          have hinside : Except.mapError (LoweringError.inside form) (.error e) =
              (.error e : Except LoweringError (List Target)) :=
            congrArg Except.error (e.inside_of_form hform form)
          rw [hinside]
          exact .refl _
      | none =>
          obtain ⟨s, hs, hfails⟩ := fails_lowerForest h
          obtain ⟨elements, place, rfl, rfl⟩ := eq_unknownVariant_of_form_eq_none hfails hform
          exact .error (.list none (some form) hs)

theorem sameResult_spliced (hdo : forms.meaning "do" = .special .sequence) (s : Source) :
    SameResult (· ∈ s.spliced) (forms.lowerForest [s]).result
      (forms.lowerForest s.spliced).result := by
  rcases s.exists_do_or_spliced with ⟨args, place, rfl⟩ | h
  · rw [result_lowerForest_do hdo, lowerWithin_splicedAll hdo, spliced_do]
    exact (sameResult_lowerWithin "do" _).symm
  · rw [h]
    exact .refl _

/-! ### Among other trees -/

variable {lists : Source → Prop}

theorem sameResult_append {ss ss' ts ts' : List Source}
    (h : SameResult lists (forms.lowerForest ss).result (forms.lowerForest ts).result)
    (h' : SameResult lists (forms.lowerForest ss').result (forms.lowerForest ts').result) :
    SameResult lists (forms.lowerForest (ss ++ ss')).result
      (forms.lowerForest (ts ++ ts')).result := by
  rw [result_lowerForest_append, result_lowerForest_append]
  exact h.bind fun _ => h'.bind fun _ => .refl _

theorem sameResult_around {pre ss ts post : List Source}
    (h : SameResult lists (forms.lowerForest ss).result (forms.lowerForest ts).result) :
    SameResult lists (forms.lowerForest (pre ++ ss ++ post)).result
      (forms.lowerForest (pre ++ ts ++ post)).result :=
  sameResult_append (sameResult_append (.refl _) h) (.refl _)

theorem sameResult_splicedAll (hdo : forms.meaning "do" = .special .sequence) {ss : List Source}
    (h : ∀ args place, .call "do" args place ∈ ss → ∀ l ∈ splicedAll args, lists l) :
    SameResult lists (forms.lowerForest ss).result (forms.lowerForest (splicedAll ss)).result := by
  induction ss with
  | nil => exact .refl _
  | cons s ss ih =>
      have hs : SameResult lists (forms.lowerForest [s]).result
          (forms.lowerForest s.spliced).result := by
        rcases s.exists_do_or_spliced with ⟨args, place, rfl⟩ | hs
        · refine (sameResult_spliced hdo _).mono fun l hl => ?_
          rw [spliced_do] at hl
          exact h args place List.mem_cons_self l hl
        · rw [hs]
          exact .refl _
      have hss := ih fun args place hmem => h args place (List.mem_cons_of_mem s hmem)
      exact sameResult_append hs hss

theorem sameResult_assemble {name : String} {forest forest' : List Source}
    (h : SameResult lists (forms.lowerForest forest).result (forms.lowerForest forest').result) :
    SameResult lists (forms.assemble name forest).result (forms.assemble name forest').result := by
  rw [result_assemble, result_assemble]
  exact h.map _

/-! ### As a block -/

/-- Of a tree that stands as a block of a form, only the statements count. -/
theorem sameResult_block {α : Type} {form : String} {s s' : Source}
    {k : Lowered → Except LoweringError α} (hk : ∀ r, k r = k (.sequence r.statements))
    (h : SameResult lists (forms.lowerForest [s]).result (forms.lowerForest [s']).result) :
    SameResult lists (((forms.lower s).inside form).result >>= k)
      (((forms.lower s').inside form).result >>= k) := by
  have hblock : ∀ s, ((forms.lower s).inside form).result >>= k =
      forms.lowerWithin form [s] >>= fun ts => k (.sequence ts) := by
    intro s
    rw [lowerWithin, result_lowerForest_singleton]
    change (forms.lower s).result.mapError _ >>= k = _
    cases (forms.lower s).result with
    | error e => rfl
    | ok r => exact hk r
  rw [hblock, hblock]
  exact (h.inside form).bind fun _ => .refl _

/-- A conditional takes its branches as blocks, and drops what follows them. -/
theorem buildCondition_block (site : Site) (test r : Lowered) (before after : List Lowered) :
    SpecialForm.buildCondition site (test :: (before ++ r :: after)) =
      SpecialForm.buildCondition site (test :: (before ++ .sequence r.statements :: after)) := by
  match before, after with
  | [], [] => rfl
  | [], _ :: _ => rfl
  | [_], _ => rfl
  | _ :: _ :: before, after => simp [SpecialForm.buildCondition]

theorem sameResult_condition {head : String} {test s s' : Source} {before after : List Source}
    {place : Place} (hm : forms.meaning head = .special .condition)
    (h : SameResult lists (forms.lowerForest [s]).result (forms.lowerForest [s']).result) :
    SameResult lists (forms.lower (.call head (test :: (before ++ s :: after)) place)).result
      (forms.lower (.call head (test :: (before ++ s' :: after)) place)).result := by
  simp only [result_lower_special hm, List.map_cons, List.map_append, result_all_cons,
    result_all_append, bind_assoc, pure_bind]
  refine SameResult.bind (.refl _) fun t => SameResult.bind (.refl _) fun rs => ?_
  refine sameResult_block (fun r => ?_) h
  have hbuild : ∀ rs', (SpecialForm.build ⟨head, place⟩ (t :: (rs ++ r :: rs')) .condition).result =
      (SpecialForm.build ⟨head, place⟩
        (t :: (rs ++ .sequence r.statements :: rs')) .condition).result := fun rs' =>
    congrArg Run.result (buildCondition_block ⟨head, place⟩ t r rs rs')
  simp only [hbuild]

/-- What a function reads before its bodies does not depend on them. -/
theorem signature_run_bodies (forms : Forms) (site : Site) (name params : Source)
    {doc : Option Source} {bodies bodies' : List Source} (h : DocumentedBy bodies doc)
    (h' : DocumentedBy bodies' doc) (hne : bodies ≠ []) (hne' : bodies' ≠ []) :
    let read (bs : List Source) :=
      signature.run site (forms.lowerArgs (name :: params :: (doc.toList ++ bs)))
    (∃ sig, read bodies = .ok (sig, bodies.map forms.argument) ∧
        read bodies' = .ok (sig, bodies'.map forms.argument)) ∨
      ∃ e, read bodies = .error e ∧ read bodies' = .error e := by
  intro read
  cases hread : read bodies with
  | ok p =>
      obtain ⟨sig, _⟩ := p
      obtain ⟨place, bs, heq, rfl, -, hsig⟩ := signature_run_eq_ok_iff.mp hread
      obtain ⟨hname, hrest⟩ := List.cons.inj heq
      obtain ⟨hparams, hbehind⟩ := List.cons.inj hrest
      subst hname hparams
      obtain ⟨rfl, rfl⟩ := h.unique hsig.documentedBy hbehind
      exact .inl ⟨sig, rfl, signature_run_eq_ok_iff.mpr
        ⟨place, bodies', rfl, rfl, by simp [hne'], hsig.name, hsig.params, hsig.doc, h'.first⟩⟩
  | error e =>
      refine .inr ⟨e, rfl, StructuralForm.signature_run_eq_error_iff.mpr ?_⟩
      have hmis := StructuralForm.signature_run_eq_error_iff.mp hread
      rw [map_source_lowerArgs] at hmis ⊢
      have hsome : ∀ bs : List Source, bs ≠ [] → ∃ b bs', doc.toList ++ bs = b :: bs' :=
        fun bs hbs => List.exists_cons_of_ne_nil (by simp [hbs])
      obtain ⟨b, bs, hbodies⟩ := hsome bodies hne
      obtain ⟨b', bs', hbodies'⟩ := hsome bodies' hne'
      rw [hbodies] at hmis
      rw [hbodies']
      cases hmis with
      | name hname => exact .name hname
      | body _ hfew =>
          rw [List.length_cons, List.length_cons] at hfew
          omega
      | params hname hfound => exact .params hname hfound

theorem result_lowerFunction_of_error {site : Site} {args : List Source} {e : LoweringError}
    (hread : signature.run site (forms.lowerArgs args) = .error e) :
    (lowerFunction site (forms.lowerArgs args)).result = .error e := by
  rw [lowerFunction, hread]
  rfl

/-- A function has all its bodies lowered and takes the last one as a block. -/
theorem result_lowerFunction {site : Site} {args earlier : List Source} {sig : Signature}
    {s : Source} (hread : signature.run site (forms.lowerArgs args) =
      .ok (sig, (earlier ++ [s]).map forms.argument)) :
    (lowerFunction site (forms.lowerArgs args)).result = (do
      let _ ← (Run.all (earlier.map fun b => (forms.lower b).inside site.form)).result
      let body ← ((forms.lower s).inside site.form).result
      pure (.single (.function sig.name.1 (sig.params.map (bound .param))
        ((sig.doc.map docStatement).toList ++ body.statements) site.place.location))) := by
  rw [lowerFunction, result_ofExcept_bind hread]
  simp only [List.map_append, List.map_singleton, List.getLast?_concat, List.dropLast_concat,
    List.map_map, result_bind, result_noteCount]
  rfl

theorem sameResult_function {head : String} {name params s s' : Source} {doc : Option Source}
    {earlier : List Source} {place : Place} (hm : forms.meaning head = .structural .function)
    (hdoc : DocumentedBy (earlier ++ [s]) doc) (hdoc' : DocumentedBy (earlier ++ [s']) doc)
    (h : SameResult lists (forms.lowerForest [s]).result (forms.lowerForest [s']).result) :
    SameResult lists
      (forms.lower (.call head (name :: params :: (doc.toList ++ (earlier ++ [s]))) place)).result
      (forms.lower
        (.call head (name :: params :: (doc.toList ++ (earlier ++ [s']))) place)).result := by
  have hlower : ∀ args, (forms.lower (.call head args place)).result =
      (lowerFunction ⟨head, place⟩ (forms.lowerArgs args)).result := by
    intro args
    change (forms.lowerCall ⟨head, place⟩ (forms.lowerArgs args)).result = _
    simp only [lowerCall, hm, result_bind]
    rfl
  rw [hlower, hlower]
  rcases signature_run_bodies forms ⟨head, place⟩ name params hdoc hdoc' (by simp) (by simp) with
    ⟨sig, hread, hread'⟩ | ⟨e, hread, hread'⟩
  · rw [result_lowerFunction hread, result_lowerFunction hread']
    exact SameResult.bind (.refl _) fun _ => sameResult_block (fun _ => rfl) h
  · rw [result_lowerFunction_of_error hread, result_lowerFunction_of_error hread']
    exact .refl _

/-- A tree may be replaced by one with the same trees in it.  If one of them is a bare list, it
stands in a sequence in the other. -/
theorem sameResult_of_spliced_eq (hdo : forms.meaning "do" = .special .sequence) {s s' : Source}
    (h : s.spliced = s'.spliced) :
    SameResult (· ∈ [s, s']) (forms.lowerForest [s]).result (forms.lowerForest [s']).result := by
  rcases s.exists_do_or_spliced with ⟨args, place, rfl⟩ | hs
  · rcases s'.exists_do_or_spliced with ⟨args', place', rfl⟩ | hs'
    · rw [spliced_do, spliced_do] at h
      rw [result_lowerForest_do hdo, result_lowerForest_do hdo, lowerWithin_splicedAll hdo, h,
        ← lowerWithin_splicedAll hdo]
      exact .refl _
    · have hsame := sameResult_spliced hdo (.call "do" args place)
      rw [h, hs'] at hsame
      exact hsame.mono fun l hl => List.mem_cons_of_mem _ hl
  · have hsame := (sameResult_spliced hdo s').symm
    rw [← h, hs] at hsame
    exact hsame.mono fun l hl => List.mem_cons.mpr (.inl (List.mem_singleton.mp hl))

end Forms

/-! ### Splicing changes nothing -/

/-- Wherever statements are wanted, a sequence stands for the statements of what is in it. -/
structure Forms.Splices (forms : Forms) : Prop where
  /-- Among the trees of a program. -/
  assemble : ∀ name pre xs post place,
    Agree (· ∈ xs) (forms.assemble name (pre ++ [.call "do" xs place] ++ post)).result
      (forms.assemble name (pre ++ xs ++ post)).result
  /-- Among the trees of a program, with sequences in sequences. -/
  nested : ∀ name forest,
    Agree (fun l => ∃ args place, .call "do" args place ∈ forest ∧ l ∈ splicedAll args)
      (forms.assemble name forest).result (forms.assemble name (splicedAll forest)).result
  /-- In another sequence, failing or not. -/
  sequence : ∀ pre xs post inner place place',
    (forms.lower (.call "do" (pre ++ [.call "do" xs inner] ++ post) place)).result =
      (forms.lower (.call "do" (pre ++ xs ++ post) place')).result
  /-- In another sequence, with sequences in sequences. -/
  flat : ∀ args place place', (forms.lower (.call "do" args place)).result =
    (forms.lower (.call "do" (splicedAll args) place')).result
  /-- As a branch of a conditional. -/
  branch : ∀ head test before s s' after place, forms.meaning head = .special .condition →
    s.spliced = s'.spliced → Agree (· ∈ [s, s'])
      (forms.lower (.call head (test :: (before ++ s :: after)) place)).result
      (forms.lower (.call head (test :: (before ++ s' :: after)) place)).result
  /-- As the last body of a function. -/
  body : ∀ head name params doc earlier s s' place,
    forms.meaning head = .structural .function → DocumentedBy (earlier ++ [s]) doc →
    DocumentedBy (earlier ++ [s']) doc → s.spliced = s'.spliced → Agree (· ∈ [s, s'])
      (forms.lower (.call head (name :: params :: (doc.toList ++ (earlier ++ [s]))) place)).result
      (forms.lower (.call head (name :: params :: (doc.toList ++ (earlier ++ [s']))) place)).result

/-- **Splicing sequences changes nothing**, whatever else the tables say: what comes out is the
same, and so are the errors, but for the form that a list which stood in a sequence belongs to. -/
theorem splices_of_meaning_do {forms : Forms} (hdo : forms.meaning "do" = .special .sequence) :
    forms.Splices where
  assemble name pre xs post place := by
    have hdoes : SameResult (· ∈ xs) (forms.lowerForest [.call "do" xs place]).result
        (forms.lowerForest xs).result := by
      rw [Forms.result_lowerForest_do hdo]
      exact (Forms.sameResult_lowerWithin "do" xs).symm
    exact (Forms.sameResult_assemble (Forms.sameResult_around hdoes)).agree
  nested name forest := by
    refine (Forms.sameResult_assemble (Forms.sameResult_splicedAll hdo ?_)).agree
    exact fun args place hmem l hl => ⟨args, place, hmem, hl⟩
  sequence pre xs post inner place place' := by
    simp only [Forms.result_lower_do hdo, Forms.lowerWithin_append, Forms.lowerWithin_do hdo]
  flat args place place' := by
    rw [Forms.result_lower_do hdo, Forms.result_lower_do hdo, Forms.lowerWithin_splicedAll hdo]
  branch head test before s s' after place hm h :=
    (Forms.sameResult_condition hm (Forms.sameResult_of_spliced_eq hdo h)).agree
  body head name params doc earlier s s' place hm hdoc hdoc' h :=
    (Forms.sameResult_function hm hdoc hdoc' (Forms.sameResult_of_spliced_eq hdo h)).agree

/-- A bare list in a sequence belongs to the sequence, and by itself to no form. -/
example :
    let list : Source := .list [] .unknown
    (compile "m" [.call "do" [list] .unknown]).result =
        .error { unknownVariant list with enclosing := some "do" } ∧
      (compile "m" [list]).result = .error (unknownVariant list) := ⟨rfl, rfl⟩

/-- In the language, `(do x (do y))` is compiled to what `x y` is compiled to, and as a branch it is
what `(do x y)` is. -/
theorem splices_of_meaning_do_default :
    let nest : Source :=
      .call "do" [.symbol "x", .call "do" [.symbol "y"] .unknown] .unknown
    let branch (body : Source) : Source :=
      .call "if" [.symbol "c", body, .symbol "z"] .unknown
    Forms.default.meaning "do" = .special .sequence ∧ Forms.default.Splices ∧
      (∃ p, (compile "m" [nest]).result = .ok p ∧
        (compile "m" [.symbol "x", .symbol "y"]).result = .ok p) ∧
      ∃ r, (Forms.default.lower (branch nest)).result = .ok r ∧
        (Forms.default.lower (branch (.call "do" [.symbol "x", .symbol "y"] .unknown))).result =
          .ok r := by
  intro nest branch
  have hdo : Forms.default.meaning "do" = .special .sequence := rfl
  have h := splices_of_meaning_do hdo
  have hnested := h.nested "m" [nest]
  have hbranch := h.branch "if" (.symbol "c") [] nest (.call "do" nest.spliced .unknown)
    [.symbol "z"] .unknown rfl (nest.spliced_do_spliced .unknown).symm
  exact ⟨hdo, h, ⟨_, rfl, (hnested.ok _).mp rfl⟩, _, rfl, (hbranch.ok _).mp rfl⟩

end FormLower
