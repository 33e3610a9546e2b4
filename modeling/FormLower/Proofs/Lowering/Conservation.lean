import FormLower.Proofs.Lowering.Warnings
import FormLower.Proofs.Lowering.Words

/-! # Conservation of words

Lowering keeps the words of a tree in their order and adds none.  What a run leaves out is covered
by its warnings, and without a warning nothing is left out: `Kept` carries both through the rules
of lowering. -/

namespace FormLower

/-! ### Words kept -/

/-- The words `kept` are some of the words `all` in their order, and under a condition they are all
of them. -/
structure Kept (quiet : Prop) (kept all : List Word) : Prop where
  sublist : kept.Sublist all
  eq : quiet → kept = all

namespace Kept

variable {quiet quiet' : Prop} {as bs cs ds : List Word}

theorem refl (ws : List Word) : Kept quiet ws ws := ⟨List.Sublist.refl ws, fun _ => rfl⟩

theorem append (h : Kept quiet as bs) (h' : Kept quiet cs ds) :
    Kept quiet (as ++ cs) (bs ++ ds) :=
  ⟨h.sublist.append h'.sublist, fun hq => by rw [h.eq hq, h'.eq hq]⟩

theorem trans (h : Kept quiet as bs) (h' : Kept quiet bs cs) : Kept quiet as cs :=
  ⟨h.sublist.trans h'.sublist, fun hq => (h.eq hq).trans (h'.eq hq)⟩

theorem mono (h : Kept quiet as bs) (hq : quiet' → quiet) : Kept quiet' as bs :=
  ⟨h.sublist, fun hq' => h.eq (hq hq')⟩

/-- Words at the end are dropped, which is only allowed where the condition fails. -/
theorem dropRight (h : quiet → bs = []) : Kept quiet as (as ++ bs) :=
  ⟨List.sublist_append_left as bs, fun hq => by rw [h hq, List.append_nil]⟩

/-- Words at the beginning are dropped, which is only allowed where the condition fails. -/
theorem dropLeft (h : quiet → as = []) : Kept quiet bs (as ++ bs) :=
  ⟨List.sublist_append_right as bs, fun hq => by rw [h hq, List.nil_append]⟩

end Kept

/-- Lowering the tree keeps its words, and without a warning all of them. -/
def Source.Keeps (s : Source) : Prop :=
  ∀ ns r, Forms.default.Lowers s ns r → Kept (warnings ns = []) r.words s.words

namespace Forms

/-- Trees that keep their words keep them side by side. -/
theorem LowersAll.kept {ss : List Source} {ns : List Notice} {rs : List Lowered}
    (h : default.LowersAll ss ns rs) (ih : ∀ s ∈ ss, s.Keeps) :
    Kept (warnings ns = []) (rs.flatMap Lowered.words) (ss.flatMap Source.words) := by
  induction h with
  | nil => exact .refl []
  | @cons s ss ns ms r rs hs hss ihss =>
      obtain ⟨ihs, ihrest⟩ := List.forall_mem_cons.mp ih
      have hfirst := ihs ns r hs
      have hrest := ihss ihrest
      rw [List.flatMap_cons, List.flatMap_cons]
      refine .append (hfirst.mono ?_) (hrest.mono ?_)
      · intro hq
        rw [warnings_append] at hq
        exact (List.append_eq_nil_iff.mp hq).1
      · intro hq
        rw [warnings_append] at hq
        exact (List.append_eq_nil_iff.mp hq).2

theorem LowersAll.kept_single {ss : List Source} {ns : List Notice} {ts : List Target}
    (h : default.LowersAll ss ns (ts.map .single)) (ih : ∀ s ∈ ss, s.Keeps) :
    Kept (warnings ns = []) (ts.flatMap Target.words) (ss.flatMap Source.words) := by
  rw [← Lowered.flatMap_words_single]
  exact h.kept ih

end Forms

theorem Target.words_foldl_binary (op : Arithmetic) (l : Option Location) (ts : List Target)
    (t : Target) :
    (ts.foldl (fun left right => .binary left op right l) t).words =
      t.words ++ ts.flatMap words := by
  induction ts generalizing t with
  | nil => rw [List.foldl_nil, List.flatMap_nil, List.append_nil]
  | cons u ts ih =>
      rw [List.foldl_cons, ih, words, List.append_assoc, List.flatMap_cons]

theorem Source.boundWords_of_names {n : Reading.Named} (h : Reading.Names n) :
    n.2.boundWords = [.identifier n.1] := by
  obtain ⟨name, s⟩ := n
  cases s with
  | leaf value place =>
      obtain rfl : value.rawText = name := Option.some.inj h
      rfl
  | call head args place => cases h
  | list elements place => cases h

theorem Target.words_params {params : List Reading.Named} (h : ∀ p ∈ params, Reading.Names p) :
    (params.map (StructuralForm.bound .param)).flatMap words =
      (params.map Prod.snd).flatMap Source.boundWords := by
  induction params with
  | nil => rfl
  | cons p params ih =>
      obtain ⟨hp, hparams⟩ := List.forall_mem_cons.mp h
      rw [List.map_cons, List.map_cons, List.flatMap_cons, List.flatMap_cons, ih hparams,
        Source.boundWords_of_names hp]
      rfl

theorem Target.words_doc {doc : Option Source} (h : ∀ d, doc = some d → d.isString) :
    ((doc.map StructuralForm.docStatement).toList).flatMap words =
      doc.toList.flatMap Source.words := by
  cases doc with
  | none => rfl
  | some d =>
      have hd := h d rfl
      match d, hd with
      | .leaf (.string value) place, _ => rfl

theorem Source.keeps_leaf (value : Leaf) (place : Place) : (Source.leaf value place).Keeps := by
  intro ns r h
  obtain ⟨rfl, rfl⟩ := Forms.lowers_leaf_iff.mp h
  have hwords : (value.lower place.location).words = [value.word] := by
    cases value <;> rfl
  rw [Lowered.words_single, hwords]
  exact .refl _

/-- A definition keeps its name and its value, and drops what follows with a warning. -/
theorem Source.kept_define {n : Reading.Named} {value : Source} {extra : List Source}
    {ns : List Notice} {t : Target} {place : Place} {l : Option Location} (hn : Reading.Names n)
    (hv : Kept (warnings ns = []) t.words value.words) :
    Kept (warnings (Run.counted (.extraValues n.1) extra.length ++ ns) = [])
      (Target.assign (StructuralForm.bound .store n) t l).words
      (Source.call "def" (n.2 :: value :: extra) place).words := by
  rw [words_define, boundWords_of_names hn, Target.words]
  refine .append (.refl _) (.trans (hv.mono ?_) (.dropRight ?_))
  · intro hq
    exact (quiet_of_warnings_counted (fun _ => rfl) hq).2
  · intro hq
    rw [(quiet_of_warnings_counted (fun _ => rfl) hq).1, List.flatMap_nil]

/-- A function keeps its name, its parameters, its documentation and its last body, and drops the
bodies before with a warning. -/
theorem Source.kept_function {sig : StructuralForm.Signature} {earlier : List Source}
    {last : Source} {ns : List Notice} {r : Lowered} {paramsPlace place : Place}
    {l : Option Location} (hs : sig.Precedes (earlier ++ [last]))
    (hr : Kept (warnings ns = []) r.words last.words) :
    Kept (warnings (Run.counted (.droppedBodies sig.name.1) earlier.length ++ ns) = [])
      (Target.function sig.name.1 (sig.params.map (StructuralForm.bound .param))
        ((sig.doc.map StructuralForm.docStatement).toList ++ r.statements) l).words
      (Source.call "defn" (sig.name.2 :: .list (sig.params.map Prod.snd) paramsPlace ::
        (sig.doc.toList ++ (earlier ++ [last]))) place).words := by
  rw [words_function, boundWords_of_names hs.name, Target.words, Target.allWords_eq_flatMap,
    Target.allWords_eq_flatMap, Target.words_params hs.params, List.flatMap_append,
    Target.words_doc hs.doc, List.flatMap_append, List.flatMap_append, List.flatMap_singleton]
  refine .append (.refl [_]) (.append (.refl _) (.append (.refl _) (.trans (hr.mono ?_)
    (.dropLeft ?_))))
  · intro hq
    exact (quiet_of_warnings_counted (fun _ => rfl) hq).2
  · intro hq
    rw [(quiet_of_warnings_counted (fun _ => rfl) hq).1, List.flatMap_nil]

/-- **Lowering a tree keeps its words, and all of them if it leaves no warning.** -/
theorem Source.keeps (s : Source) : s.Keeps := by
  induction s with
  | leaf value place => exact keeps_leaf value place
  | list elements place _ => exact fun ns r h => absurd h Forms.not_lowers_list
  | call head args place ih =>
      intro ns r h
      cases Forms.lowers_call_iff.mp h with
      | @call _ _ ts hm hargs =>
          have hts := hargs.kept_single ih
          rw [words_other hm, Lowered.words_single, Target.words, Target.words,
            Target.allWords_eq_flatMap]
          exact .append (.refl [_]) hts
      | @define n value extra ms t hm hn hvalue =>
          obtain rfl : head = "def" := Forms.meaning_eq_define_iff.mp hm
          have hv := ih value (by simp) ms (.single t) hvalue
          rw [Lowered.words_single] at hv ⊢
          exact kept_define hn hv
      | @function sig _ earlier last ms ms' rs b hm hs hearlier hlast =>
          obtain rfl : head = "defn" := Forms.meaning_eq_function_iff.mp hm
          have hb := ih last (by simp) ms' b hlast
          rw [Lowered.words_single]
          refine (kept_function hs hb).mono fun hq => ?_
          rw [warnings_structural, warnings_append] at hq
          exact (List.append_eq_nil_iff.mp hq).2
      | skip hm => exact absurd hm Forms.meaning_ne_skip.1
      | @print _ ms ts hm hargs =>
          have hts := hargs.kept_single ih
          rw [words_special hm, Lowered.words_single, Target.words, Target.allWords_eq_flatMap]
          exact hts.mono fun hq => by simpa using hq
      | @arithmetic _ ms op t u ts hm _ hargs =>
          have hts := hargs.kept_single ih
          rw [words_special hm, Lowered.words_single, Target.words_foldl_binary]
          exact hts.mono fun hq => by simpa using hq
      | @comparison _ ms op t u ts hm _ hargs =>
          have hts := hargs.kept_single ih
          rw [words_special hm, Lowered.words_single, Target.words, Target.allWords_eq_flatMap]
          exact hts.mono fun hq => by simpa using hq
      | @condition _ ms t body orelse extra hm hargs =>
          have hall := hargs.kept ih
          rw [words_special hm, Lowered.words_single, Target.words, Target.allWords_eq_flatMap,
            Target.allWords_eq_flatMap]
          refine .trans ?_ (hall.mono fun hq => (quiet_of_warnings_special (fun _ => rfl) hq).1)
          rw [List.flatMap_cons, List.flatMap_cons, List.flatMap_cons, Lowered.words_single]
          refine .append (.refl _) (.append (.refl _) (.dropRight fun hq => ?_))
          rw [(quiet_of_warnings_special (fun _ => rfl) hq).2, List.flatMap_nil]
      | @sequence _ ms rs hm hargs =>
          have hall := hargs.kept ih
          rw [words_special hm, Lowered.words_sequence, List.flatMap_assoc]
          exact hall.mono fun hq => by simpa using hq
      | @ret _ ms rs t hm hargs =>
          have hall := hargs.kept ih
          rw [words_special hm, Lowered.words_single, Target.words]
          refine .trans ?_ (hall.mono fun hq => (quiet_of_warnings_special (fun _ => rfl) hq).1)
          rw [List.flatMap_append, List.flatMap_singleton, Lowered.words_single]
          refine .dropLeft fun hq => ?_
          rw [(quiet_of_warnings_special (fun _ => rfl) hq).2, List.flatMap_nil]
      | drop hm => exact absurd hm Forms.meaning_ne_skip.2

/-! ### Programs -/

/-- **A program has the words of its source in their order, but for what the run warns about.**
The words of the program are some of the words of the source, and all of them if there is no
warning; and the warnings are one for each lowered call that drops something, and no others. -/
theorem compile_conserves_words {name : String} {forest : List Source} {program : Program}
    (h : (compile name forest).result = .ok program) :
    program.words.Sublist (forest.flatMap Source.words) ∧
      (warnings (compile name forest).notices = [] →
        program.words = forest.flatMap Source.words) ∧
      (warnings (compile name forest).notices).Perm
        ((forest.flatMap Source.calls).flatMap Source.surplus) := by
  obtain ⟨ns, hgives⟩ := Run.exists_gives_iff.mpr h
  have hnotices : (compile name forest).notices = ns := by rw [hgives]
  obtain ⟨ms, rs, hforest, rfl, rfl⟩ := Forms.assemble_gives_iff.mp hgives
  have hkept := hforest.kept fun s _ => s.keeps
  have hperm := hforest.warnings_perm fun s _ => s.warnings_perm
  have hwarnings : warnings (compile name forest).notices = warnings ms := by
    rw [hnotices, warnings_append]
    exact List.append_nil _
  have hwords : (Program.mk name (rs.flatMap Lowered.statements)).located.words =
      rs.flatMap Lowered.words := by
    rw [Program.words_located, Program.words, List.flatMap_assoc]
    rfl
  rw [hwarnings, hwords, List.flatMap_assoc]
  exact ⟨hkept.sublist, hkept.eq, hperm⟩

/-- The definition `(def x y z)` keeps two words of three and says that it drops one. -/
theorem compile_conserves_words_define :
    let forest : List Source := [.call "def" [.symbol "x", .symbol "y", .symbol "z"] .unknown]
    ∃ program, (compile "m" forest).result = .ok program ∧
      program.words = [.identifier "x", .identifier "y"] ∧
      program.words.Sublist (forest.flatMap Source.words) ∧
      (warnings (compile "m" forest).notices).Perm [.extraValues "x" 1] := by
  intro forest
  obtain ⟨program, hp⟩ : ∃ program, (compile "m" forest).result = .ok program := ⟨_, rfl⟩
  obtain ⟨hsublist, -, hwarnings⟩ := compile_conserves_words hp
  refine ⟨program, hp, ?_, hsublist, hwarnings⟩
  cases hp
  rfl

end FormLower
