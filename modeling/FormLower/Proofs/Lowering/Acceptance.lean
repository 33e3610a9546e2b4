import FormLower.Proofs.Lowering.Steps
import FormLower.Proofs.Lowering.Tables
import FormLower.Proofs.Trees

/-! # Which trees are compiled

Every head asks something else of its arguments: some may be anything, some have to be leaves, and
of those that are lowered most have to be one expression.  `WellFormed` says head by head what is
asked, without lowering anything, and `compile_ok_iff_wellFormed` says that this is all: a program
comes out exactly when every top-level tree is well formed. -/

namespace FormLower

namespace Source

/-- A tree that is neither a call nor a list. -/
def IsLeaf (s : Source) : Prop := ∃ value place, s = .leaf value place

/-- A tree that stands for a sequence of statements and for no expression. -/
def IsSequence (s : Source) : Prop := s.head? = some "do"

/-- The trees that can be lowered with the forms of the language. -/
inductive WellFormed : Source → Prop
  | leaf (value : Leaf) (place : Place) : WellFormed (.leaf value place)
  /-- A definition takes a leaf and an expression; what follows may be anything. -/
  | define {name value : Source} {extra : List Source} {place : Place} :
      name.IsLeaf → WellFormed value → ¬ value.IsSequence →
      WellFormed (.call "def" (name :: value :: extra) place)
  /-- A function takes a leaf, a list of leaves and bodies, the first of which may be a string if it
  is not the last. -/
  | function {name first : Source} {params rest : List Source} {paramsPlace place : Place} :
      name.IsLeaf → (∀ p ∈ params, p.IsLeaf) → (first.isString → rest ≠ []) →
      (∀ b ∈ first :: rest, WellFormed b) →
      WellFormed (.call "defn" (name :: .list params paramsPlace :: first :: rest) place)
  /-- Output takes expressions. -/
  | print {args : List Source} {place : Place} :
      (∀ a ∈ args, WellFormed a) → (∀ a ∈ args, ¬ a.IsSequence) →
      WellFormed (.call "print" args place)
  /-- So does a call of anything that is no form. -/
  | call {head : String} {args : List Source} {place : Place} :
      head ∉ formHeads → (∀ a ∈ args, WellFormed a) → (∀ a ∈ args, ¬ a.IsSequence) →
      WellFormed (.call head args place)
  /-- An operator takes two expressions or more. -/
  | operation {head : String} {args : List Source} {place : Place} :
      head ∈ arithmeticHeads ++ comparisonHeads → 2 ≤ args.length →
      (∀ a ∈ args, WellFormed a) → (∀ a ∈ args, ¬ a.IsSequence) →
      WellFormed (.call head args place)
  /-- A conditional takes an expression and two trees or more. -/
  | condition {test : Source} {branches : List Source} {place : Place} :
      2 ≤ branches.length → ¬ test.IsSequence → (∀ a ∈ test :: branches, WellFormed a) →
      WellFormed (.call "if" (test :: branches) place)
  /-- A sequence takes whatever is well formed. -/
  | sequence {args : List Source} {place : Place} :
      (∀ a ∈ args, WellFormed a) → WellFormed (.call "do" args place)
  /-- A return takes any trees and then an expression. -/
  | ret {init : List Source} {last : Source} {place : Place} :
      ¬ last.IsSequence → (∀ a ∈ init ++ [last], WellFormed a) →
      WellFormed (.call "return" (init ++ [last]) place)

end Source

open Source

theorem Lowered.eq_map_single {rs : List Lowered} (h : ∀ r ∈ rs, ∃ t, r = .single t) :
    ∃ ts : List Target, rs = ts.map .single := by
  induction rs with
  | nil => exact ⟨[], rfl⟩
  | cons r rs ih =>
      obtain ⟨⟨t, rfl⟩, hrs⟩ := List.forall_mem_cons.mp h
      obtain ⟨ts, rfl⟩ := ih hrs
      exact ⟨t :: ts, rfl⟩

namespace Forms

/-- A tree is lowered, to whatever it may be. -/
def Accepts (forms : Forms) (s : Source) : Prop := ∃ ns r, forms.Lowers s ns r

/-- A tree is lowered to one expression. -/
def Yields (forms : Forms) (s : Source) : Prop := ∃ ns t, forms.Lowers s ns (.single t)

variable {forms : Forms}

theorem exists_lowersAll_iff_accepts {ss : List Source} :
    (∃ ns rs, forms.LowersAll ss ns rs) ↔ ∀ s ∈ ss, forms.Accepts s := by
  have h := @exists_lowersAll_iff forms (fun _ => True) ss
  simpa [Accepts] using h

theorem exists_lowersAll_iff_yields {ss : List Source} :
    (∃ ns, ∃ ts : List Target, forms.LowersAll ss ns (ts.map .single)) ↔
      ∀ s ∈ ss, forms.Yields s := by
  constructor
  · rintro ⟨ns, ts, h⟩ s hs
    have hsingle : ∀ r ∈ ts.map Lowered.single, ∃ t, r = .single t := by simp
    obtain ⟨ms, _, hs, t, rfl⟩ := exists_lowersAll_iff.mp ⟨ns, _, h, hsingle⟩ s hs
    exact ⟨ms, t, hs⟩
  · intro h
    have hone : ∀ s ∈ ss, ∃ ms r, forms.Lowers s ms r ∧ ∃ t, r = .single t := by
      intro s hs
      obtain ⟨ms, t, ht⟩ := h s hs
      exact ⟨ms, _, ht, t, rfl⟩
    obtain ⟨ns, rs, hall, hsingle⟩ := exists_lowersAll_iff.mpr hone
    obtain ⟨ts, rfl⟩ := Lowered.eq_map_single hsingle
    exact ⟨ns, ts, hall⟩

/-- Of what is lowered with the forms of the language, only a sequence is no expression. -/
theorem exists_single_iff {s : Source} {ns : List Notice} {r : Lowered}
    (h : default.Lowers s ns r) : (∃ t, r = .single t) ↔ ¬ s.IsSequence := by
  cases s with
  | leaf value place =>
      obtain ⟨rfl, rfl⟩ := lowers_leaf_iff.mp h
      simp [IsSequence, head?]
  | list elements place => exact absurd h not_lowers_list
  | call head args place =>
      have hsequence := @meaning_eq_sequence_iff head
      simp only [IsSequence, head?, Option.some.injEq, ← hsequence]
      cases lowers_call_iff.mp h with
      | skip hm => exact absurd hm meaning_ne_skip.1
      | drop hm => exact absurd hm meaning_ne_skip.2
      | sequence hm => simp [hm]
      | call hm => simp [hm]
      | define hm => simp [hm]
      | function hm => simp [hm]
      | print hm => simp [hm]
      | arithmetic hm => simp [hm]
      | comparison hm => simp [hm]
      | condition hm => simp [hm]
      | ret hm => simp [hm]

theorem yields_iff {s : Source} : default.Yields s ↔ default.Accepts s ∧ ¬ s.IsSequence := by
  constructor
  · rintro ⟨ns, t, h⟩
    exact ⟨⟨ns, _, h⟩, (exists_single_iff h).mp ⟨t, rfl⟩⟩
  · rintro ⟨⟨ns, r, h⟩, hs⟩
    obtain ⟨t, rfl⟩ := (exists_single_iff h).mpr hs
    exact ⟨ns, t, h⟩

/-! ### Well formed trees -/

theorem isLeaf_of_names {n : Reading.Named} (h : Reading.Names n) : n.2.IsLeaf := by
  obtain ⟨name, s⟩ := n
  cases s with
  | leaf value place => exact ⟨value, place, rfl⟩
  | call head args place => cases h
  | list elements place => cases h

theorem exists_names {s : Source} (h : s.IsLeaf) : ∃ n, n.2 = s ∧ Reading.Names n := by
  obtain ⟨value, place, rfl⟩ := h
  exact ⟨(value.rawText, .leaf value place), rfl, rfl⟩

theorem exists_all_names {ss : List Source} (h : ∀ s ∈ ss, s.IsLeaf) :
    ∃ ns : List Reading.Named, ns.map Prod.snd = ss ∧ ∀ n ∈ ns, Reading.Names n := by
  induction ss with
  | nil => exact ⟨[], rfl, by simp⟩
  | cons s ss ih =>
      obtain ⟨hs, hss⟩ := List.forall_mem_cons.mp h
      obtain ⟨n, rfl, hn⟩ := exists_names hs
      obtain ⟨ns, rfl, hns⟩ := ih hss
      exact ⟨n :: ns, rfl, List.forall_mem_cons.mpr ⟨hn, hns⟩⟩

end Forms

open Forms

theorem Source.WellFormed.of_isString {s : Source} (h : s.isString) : s.WellFormed := by
  cases s with
  | leaf value place => exact .leaf value place
  | call head args place => cases h
  | list elements place => cases h

/-- A function is well formed if its bodies are, be the first one documentation or not. -/
theorem Source.WellFormed.of_signature {sig : StructuralForm.Signature} {bodies : List Source}
    {paramsPlace place : Place} (hs : sig.Precedes bodies) (hne : bodies ≠ [])
    (hbodies : ∀ b ∈ bodies, b.WellFormed) :
    (Source.call "defn" (sig.name.2 :: .list (sig.params.map Prod.snd) paramsPlace ::
      (sig.doc.toList ++ bodies)) place).WellFormed := by
  have hparams : ∀ p ∈ sig.params.map Prod.snd, p.IsLeaf := by
    intro p hp
    obtain ⟨n, hn, rfl⟩ := List.mem_map.mp hp
    exact isLeaf_of_names (hs.params n hn)
  cases hdoc : sig.doc with
  | some d =>
      have hd := hs.doc d hdoc
      exact .function (isLeaf_of_names hs.name) hparams (fun _ => hne)
        (List.forall_mem_cons.mpr ⟨.of_isString hd, hbodies⟩)
  | none =>
      obtain ⟨first, rest, rfl⟩ := List.exists_cons_of_ne_nil hne
      have hfirst := hs.bodies hdoc first rfl
      exact .function (isLeaf_of_names hs.name) hparams (by simp [hfirst]) hbodies

/-- What is lowered is well formed: every rule asks for what its head asks for. -/
theorem Forms.Accepts.wellFormed {s : Source} : Forms.default.Accepts s → s.WellFormed := by
  induction s with
  | leaf value place => exact fun _ => .leaf value place
  | list elements place _ =>
      rintro ⟨ns, r, h⟩
      exact absurd h not_lowers_list
  | call head args place ih =>
      rintro ⟨ns, r, h⟩
      have hwell : ∀ {ns rs}, Forms.default.LowersAll args ns rs → ∀ a ∈ args, a.WellFormed :=
        fun hargs a ha => ih a ha (exists_lowersAll_iff_accepts.mp ⟨_, _, hargs⟩ a ha)
      have hone : ∀ {ns} {ts : List Target}, Forms.default.LowersAll args ns (ts.map .single) →
          ∀ a ∈ args, ¬ a.IsSequence :=
        fun hargs a ha => (yields_iff.mp (exists_lowersAll_iff_yields.mp ⟨_, _, hargs⟩ a ha)).2
      cases lowers_call_iff.mp h with
      | call hm hargs => exact .call (meaning_eq_call_iff.mp hm) (hwell hargs) (hone hargs)
      | @define n value extra _ t hm hn hvalue =>
          obtain rfl : head = "def" := meaning_eq_define_iff.mp hm
          have hv := yields_iff.mp ⟨_, t, hvalue⟩
          exact .define (isLeaf_of_names hn) (ih value (by simp) hv.1) hv.2
      | @function sig _ earlier last _ _ _ _ hm hs hearlier hlast =>
          obtain rfl : head = "defn" := meaning_eq_function_iff.mp hm
          have hbodies : ∀ b ∈ earlier ++ [last], b.WellFormed := by
            intro b hb
            refine ih b (List.mem_cons_of_mem _ (List.mem_cons_of_mem _
              (List.mem_append_right _ hb))) ?_
            rcases List.mem_append.mp hb with hb | hb
            · exact exists_lowersAll_iff_accepts.mp ⟨_, _, hearlier⟩ b hb
            · obtain rfl := List.mem_singleton.mp hb
              exact ⟨_, _, hlast⟩
          exact .of_signature hs (by simp) hbodies
      | skip hm => exact absurd hm meaning_ne_skip.1
      | print hm hargs =>
          obtain rfl : head = "print" := meaning_eq_print_iff.mp hm
          exact .print (hwell hargs) (hone hargs)
      | arithmetic hm _ hargs =>
          have hhead : head ∈ arithmeticHeads := meaning_eq_arithmetic_iff.mp hm
          have hlength := hargs.length_eq
          refine .operation (List.mem_append_left _ hhead) ?_ (hwell hargs) (hone hargs)
          simp [hlength]
      | comparison hm _ hargs =>
          have hhead : head ∈ comparisonHeads := meaning_eq_comparison_iff.mp hm
          have hlength := hargs.length_eq
          refine .operation (List.mem_append_right _ hhead) ?_ (hwell hargs) (hone hargs)
          simp [hlength]
      | @condition _ _ t body orelse extra hm hargs =>
          obtain rfl : head = "if" := meaning_eq_condition_iff.mp hm
          have hall := hwell hargs
          cases hargs with
          | cons htest hbranches =>
              refine .condition ?_ (yields_iff.mp ⟨_, t, htest⟩).2 hall
              simp [hbranches.length_eq]
      | sequence hm hargs =>
          obtain rfl : head = "do" := meaning_eq_sequence_iff.mp hm
          exact .sequence (hwell hargs)
      | @ret _ _ _ t hm hargs =>
          obtain rfl : head = "return" := meaning_eq_ret_iff.mp hm
          have hall := hwell hargs
          obtain ⟨init, rest, _, _, rfl, -, -, hrest⟩ := lowersAll_append_iff.mp hargs
          obtain ⟨last, rfl, hlast⟩ := lowersAll_singleton_iff.mp hrest
          exact .ret (yields_iff.mp ⟨_, t, hlast⟩).2 hall
      | drop hm => exact absurd hm meaning_ne_skip.2

/-- A function is lowered when its bodies are, be the first one documentation or not. -/
theorem Forms.accepts_function {s : StructuralForm.Signature} {bodies : List Source}
    {paramsPlace place : Place} (hne : bodies ≠ []) (hs : s.Precedes bodies)
    (hbodies : ∀ b ∈ bodies, Forms.default.Accepts b) :
    Forms.default.Accepts (.call "defn" (s.name.2 :: .list (s.params.map Prod.snd) paramsPlace ::
      (s.doc.toList ++ bodies)) place) := by
  obtain ⟨earlier, last, rfl⟩ := List.eq_nil_or_concat bodies |>.resolve_left hne
  rw [List.concat_eq_append] at hs hbodies ⊢
  obtain ⟨ns, rs, hearlier⟩ := exists_lowersAll_iff_accepts.mpr
    fun b hb => hbodies b (List.mem_append_left _ hb)
  obtain ⟨ms, r, hlast⟩ := hbodies last (List.mem_append_right _ List.mem_cons_self)
  exact ⟨_, _, lowers_call_iff.mpr
    (.function (meaning_eq_function_iff.mpr rfl) hs hearlier hlast)⟩

theorem Source.WellFormed.accepts {s : Source} (h : s.WellFormed) : Forms.default.Accepts s := by
  have single : ∀ {args : List Source}, (∀ a ∈ args, Forms.default.Accepts a) →
      (∀ a ∈ args, ¬ a.IsSequence) →
      ∃ ns, ∃ ts : List Target, Forms.default.LowersAll args ns (ts.map .single) := by
    intro args hargs hone
    exact exists_lowersAll_iff_yields.mpr fun a ha => yields_iff.mpr ⟨hargs a ha, hone a ha⟩
  induction h with
  | leaf value place => exact ⟨[], _, lowers_leaf_iff.mpr ⟨rfl, rfl⟩⟩
  | define hname _ hvalue ih =>
      obtain ⟨n, rfl, hn⟩ := exists_names hname
      obtain ⟨ns, t, hv⟩ := yields_iff.mpr ⟨ih, hvalue⟩
      exact ⟨_, _, lowers_call_iff.mpr (.define (meaning_eq_define_iff.mpr rfl) hn hv)⟩
  | @function name first params rest _ _ hname hparams hfirst _ ih =>
      obtain ⟨n, rfl, hn⟩ := exists_names hname
      obtain ⟨ps, rfl, hps⟩ := exists_all_names hparams
      cases hstring : first.isString with
      | true =>
          refine accepts_function (s := ⟨n, ps, some first⟩) (hfirst hstring) ?_
            (List.forall_mem_cons.mp ih).2
          exact ⟨hn, hps, by simpa using hstring, by simp⟩
      | false =>
          refine accepts_function (s := ⟨n, ps, none⟩) (List.cons_ne_nil first rest) ?_ ih
          exact ⟨hn, hps, by simp, by simpa using hstring⟩
  | print _ hone ih =>
      obtain ⟨ns, ts, h⟩ := single ih hone
      exact ⟨_, _, lowers_call_iff.mpr (.print (meaning_eq_print_iff.mpr rfl) h)⟩
  | call hhead _ hone ih =>
      obtain ⟨ns, ts, h⟩ := single ih hone
      exact ⟨_, _, lowers_call_iff.mpr (.call (meaning_eq_call_iff.mpr hhead) h)⟩
  | operation hhead hlength _ hone ih =>
      obtain ⟨ns, ts, h⟩ := single ih hone
      rw [h.length_eq, List.length_map] at hlength
      match ts, hlength with
      | t :: u :: ts, _ =>
          rcases List.mem_append.mp hhead with hhead | hhead
          · obtain ⟨op, hop⟩ := Arithmetic.exists_ofSymbol?_iff.mpr hhead
            exact ⟨_, _, lowers_call_iff.mpr
              (.arithmetic (meaning_eq_arithmetic_iff.mpr hhead) hop h)⟩
          · obtain ⟨op, hop⟩ := Comparison.exists_ofSymbol?_iff.mpr hhead
            exact ⟨_, _, lowers_call_iff.mpr
              (.comparison (meaning_eq_comparison_iff.mpr hhead) hop h)⟩
  | condition hlength htest _ ih =>
      obtain ⟨htrue, hbranches⟩ := List.forall_mem_cons.mp ih
      obtain ⟨ns, t, ht⟩ := yields_iff.mpr ⟨htrue, htest⟩
      obtain ⟨ms, rs, hrs⟩ := exists_lowersAll_iff_accepts.mpr hbranches
      rw [hrs.length_eq] at hlength
      match rs, hlength with
      | body :: orelse :: extra, _ =>
          exact ⟨_, _, lowers_call_iff.mpr
            (.condition (meaning_eq_condition_iff.mpr rfl) (.cons ht hrs))⟩
  | sequence _ ih =>
      obtain ⟨ns, rs, h⟩ := exists_lowersAll_iff_accepts.mpr ih
      exact ⟨_, _, lowers_call_iff.mpr (.sequence (meaning_eq_sequence_iff.mpr rfl) h)⟩
  | @ret init last _ hlast _ ih =>
      obtain ⟨ns, rs, hinit⟩ := exists_lowersAll_iff_accepts.mpr
        fun a ha => ih a (List.mem_append_left _ ha)
      obtain ⟨ms, t, ht⟩ := yields_iff.mpr
        ⟨ih last (List.mem_append_right _ List.mem_cons_self), hlast⟩
      have h : Forms.default.LowersAll (init ++ [last]) (ns ++ ms) (rs ++ [.single t]) :=
        lowersAll_append_iff.mpr ⟨init, [last], ns, ms, rfl, rfl, hinit,
          lowersAll_singleton_iff.mpr ⟨last, rfl, ht⟩⟩
      exact ⟨_, _, lowers_call_iff.mpr (.ret (meaning_eq_ret_iff.mpr rfl) h)⟩

/-- **A program comes out exactly when every top-level tree is well formed.** -/
theorem compile_ok_iff_wellFormed (name : String) (forest : List Source) :
    (∃ program, (compile name forest).result = .ok program) ↔ ∀ s ∈ forest, s.WellFormed := by
  have hiff : ∀ s, Forms.default.Accepts s ↔ s.WellFormed := fun s =>
    ⟨Accepts.wellFormed, WellFormed.accepts⟩
  simp only [← hiff, ← exists_lowersAll_iff_accepts, ← Run.exists_gives_iff, compile,
    assemble_gives_iff]
  constructor
  · rintro ⟨program, ns, ms, rs, h, -⟩
    exact ⟨ms, rs, h⟩
  · rintro ⟨ms, rs, h⟩
    exact ⟨_, _, ms, rs, h, rfl, rfl⟩

end FormLower
