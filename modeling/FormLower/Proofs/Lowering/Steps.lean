import FormLower.Lowering
import FormLower.Proofs.Lowering.Readings
import FormLower.Proofs.Lowering.Runs
import Mathlib.Data.List.Forall2

/-! # What lowering does

A tree is lowered in one way for each kind of tree and each meaning of a head.  `LowersCall` lists
the ways for calls, one rule for each form, with the notices that are left and the tree that is
built; `lowers_call_iff` says that there are no others.  What is proved of successful lowering is
proved rule by rule from here. -/

namespace FormLower

open Run

/-! ### Lists that are related member by member -/

theorem forall₂_append_left_iff {α β : Type} {R : α → β → Prop} {as as' : List α} {bs : List β} :
    List.Forall₂ R (as ++ as') bs ↔
      ∃ bs₁ bs₂, bs = bs₁ ++ bs₂ ∧ List.Forall₂ R as bs₁ ∧ List.Forall₂ R as' bs₂ := by
  constructor
  · intro h
    induction as generalizing bs with
    | nil => exact ⟨[], bs, rfl, .nil, h⟩
    | cons a as ih =>
        obtain ⟨b, rest, hb, hrest, rfl⟩ := List.forall₂_cons_left_iff.mp h
        obtain ⟨bs₁, bs₂, rfl, h₁, h₂⟩ := ih hrest
        exact ⟨b :: bs₁, bs₂, rfl, .cons hb h₁, h₂⟩
  · rintro ⟨bs₁, bs₂, rfl, h₁, h₂⟩
    exact List.rel_append h₁ h₂

theorem forall₂_concat_left_iff {α β : Type} {R : α → β → Prop} {as : List α} {a : α}
    {bs : List β} :
    List.Forall₂ R (as ++ [a]) bs ↔
      ∃ init b, bs = init ++ [b] ∧ List.Forall₂ R as init ∧ R a b := by
  rw [forall₂_append_left_iff]
  constructor
  · rintro ⟨init, tail, rfl, hinit, htail⟩
    obtain ⟨b, _, hb, hnil, rfl⟩ := List.forall₂_cons_left_iff.mp htail
    obtain rfl := List.forall₂_nil_left_iff.mp hnil
    exact ⟨init, b, rfl, hinit, hb⟩
  · rintro ⟨init, b, rfl, hinit, hb⟩
    exact ⟨init, [b], rfl, hinit, .cons hb .nil⟩

/-! ### Operands -/

namespace Lowered

theorem gives_expression {site : Site} {r : Lowered} {ns : List Notice} {t : Target} :
    (r.expression site).Gives ns t ↔ ns = [] ∧ r = .single t := by
  cases r <;> simp [expression, eq_comm]

theorem gives_expressions {site : Site} {rs : List Lowered} {ns : List Notice}
    {ts : List Target} :
    (expressions site rs).Gives ns ts ↔ ns = [] ∧ rs = ts.map .single := by
  unfold expressions
  induction rs generalizing ns ts with
  | nil => simp [eq_comm]
  | cons r rs ih =>
      rw [List.map_cons, gives_all_cons]
      constructor
      · rintro ⟨ns₁, t, ns₂, rest, hr, hrs, rfl, rfl⟩
        obtain ⟨rfl, rfl⟩ := gives_expression.mp hr
        obtain ⟨rfl, rfl⟩ := ih.mp hrs
        exact ⟨rfl, rfl⟩
      · rintro ⟨rfl, heq⟩
        obtain ⟨t, rest, rfl, rfl, rfl⟩ := List.map_eq_cons_iff.mp heq.symm
        exact ⟨[], t, [], rest, gives_expression.mpr ⟨rfl, rfl⟩, ih.mpr ⟨rfl, rfl⟩, rfl, rfl⟩

end Lowered

namespace Forms

variable {forms : Forms}

/-- A tree is lowered with the given notices and result. -/
def Lowers (forms : Forms) (s : Source) (ns : List Notice) (r : Lowered) : Prop :=
  (forms.lower s).Gives ns r

/-- Several trees are lowered one after the other. -/
inductive LowersAll (forms : Forms) : List Source → List Notice → List Lowered → Prop
  | nil : LowersAll forms [] [] []
  | cons {s : Source} {ss : List Source} {ns ms : List Notice} {r : Lowered}
      {rs : List Lowered} :
      forms.Lowers s ns r → LowersAll forms ss ms rs →
      LowersAll forms (s :: ss) (ns ++ ms) (r :: rs)

theorem gives_all_iff_lowersAll {run : Source → Lowering Lowered}
    (hrun : ∀ s ns r, (run s).Gives ns r ↔ forms.Lowers s ns r) {ss : List Source}
    {ns : List Notice} {rs : List Lowered} :
    (Run.all (ss.map run)).Gives ns rs ↔ forms.LowersAll ss ns rs := by
  induction ss generalizing ns rs with
  | nil =>
      constructor
      · intro h
        obtain ⟨rfl, rfl⟩ := gives_all_nil.mp h
        exact .nil
      · intro h
        cases h
        exact gives_all_nil.mpr ⟨rfl, rfl⟩
  | cons s ss ih =>
      rw [List.map_cons, gives_all_cons]
      constructor
      · rintro ⟨ns₁, r, ns₂, rest, hs, hss, rfl, rfl⟩
        exact .cons ((hrun _ _ _).mp hs) (ih.mp hss)
      · intro h
        cases h with
        | cons hs hss => exact ⟨_, _, _, _, (hrun _ _ _).mpr hs, ih.mpr hss, rfl, rfl⟩

theorem LowersAll.length_eq {ss : List Source} {ns : List Notice} {rs : List Lowered}
    (h : forms.LowersAll ss ns rs) : ss.length = rs.length := by
  induction h with
  | nil => rfl
  | cons _ _ ih => rw [List.length_cons, List.length_cons, ih]

theorem lowersAll_append_iff {ss : List Source} {ns : List Notice} {rs qs : List Lowered} :
    forms.LowersAll ss ns (rs ++ qs) ↔
      ∃ as bs ms ms', ss = as ++ bs ∧ ns = ms ++ ms' ∧ forms.LowersAll as ms rs ∧
        forms.LowersAll bs ms' qs := by
  induction rs generalizing ss ns with
  | nil =>
      constructor
      · exact fun h => ⟨[], ss, [], ns, rfl, rfl, .nil, h⟩
      · rintro ⟨as, bs, ms, ms', rfl, rfl, has, hbs⟩
        cases has
        exact hbs
  | cons r rs ih =>
      constructor
      · intro h
        cases h with
        | cons hs hss =>
            obtain ⟨as, bs, ms, ms', rfl, rfl, has, hbs⟩ := ih.mp hss
            exact ⟨_ :: as, bs, _, ms', rfl, (List.append_assoc ..).symm, .cons hs has, hbs⟩
      · rintro ⟨as, bs, ms, ms', rfl, rfl, has, hbs⟩
        cases has with
        | cons hs hss =>
            rw [List.cons_append, List.append_assoc]
            exact .cons hs (ih.mpr ⟨_, bs, _, ms', rfl, rfl, hss, hbs⟩)

@[simp] theorem lowersAll_singleton_iff {ss : List Source} {ns : List Notice} {r : Lowered} :
    forms.LowersAll ss ns [r] ↔ ∃ s, ss = [s] ∧ forms.Lowers s ns r := by
  constructor
  · intro h
    cases h with
    | cons hs hss =>
        cases hss
        exact ⟨_, rfl, by rwa [List.append_nil]⟩
  · rintro ⟨s, rfl, hs⟩
    rw [← List.append_nil ns]
    exact .cons hs .nil

theorem exists_lowersAll_iff {P : Lowered → Prop} {ss : List Source} :
    (∃ ns rs, forms.LowersAll ss ns rs ∧ ∀ r ∈ rs, P r) ↔
      ∀ s ∈ ss, ∃ ns r, forms.Lowers s ns r ∧ P r := by
  constructor
  · rintro ⟨ns, rs, h, hP⟩
    induction h with
    | nil => simp
    | cons hs _ ih =>
        obtain ⟨hr, hrs⟩ := List.forall_mem_cons.mp hP
        exact List.forall_mem_cons.mpr ⟨⟨_, _, hs, hr⟩, ih hrs⟩
  · intro h
    induction ss with
    | nil => exact ⟨[], [], .nil, by simp⟩
    | cons s ss ih =>
        obtain ⟨⟨ns, r, hs, hr⟩, hss⟩ := List.forall_mem_cons.mp h
        obtain ⟨ms, rs, hall, hrs⟩ := ih hss
        exact ⟨ns ++ ms, r :: rs, .cons hs hall, List.forall_mem_cons.mpr ⟨hr, hrs⟩⟩

theorem exists_lowersAll_iff_forall₂ {ss : List Source} {rs : List Lowered} :
    (∃ ns, forms.LowersAll ss ns rs) ↔
      List.Forall₂ (fun s r => (forms.lower s).result = .ok r) ss rs := by
  constructor
  · rintro ⟨ns, h⟩
    induction h with
    | nil => exact .nil
    | cons hs _ ih => exact .cons (exists_gives_iff.mp ⟨_, hs⟩) ih
  · intro h
    induction h with
    | nil => exact ⟨[], .nil⟩
    | cons hs _ ih =>
        obtain ⟨ns, hs⟩ := exists_gives_iff.mpr hs
        obtain ⟨ms, hss⟩ := ih
        exact ⟨ns ++ ms, .cons hs hss⟩

theorem gives_lowered {form : String} {s : Source} {ns : List Notice} {r : Lowered} :
    (Argument.lowered form ⟨s, forms.lower s⟩).Gives ns r ↔ forms.Lowers s ns r :=
  gives_mapError

theorem gives_lowerChildren {form : String} {ss : List Source} {ns : List Notice}
    {rs : List Lowered} :
    (lowerChildren form (forms.lowerArgs ss)).Gives ns rs ↔ forms.LowersAll ss ns rs := by
  rw [lowerChildren, lowerArgs_eq_map, List.map_map]
  exact gives_all_iff_lowersAll fun _ _ _ => gives_lowered

theorem gives_argument_expression {form : String} {s : Source} {ns : List Notice} {t : Target} :
    (Argument.expression form ⟨s, forms.lower s⟩).Gives ns t ↔ forms.Lowers s ns (.single t) := by
  simp only [Argument.expression, gives_bind, gives_lowered, Lowered.gives_expression]
  constructor
  · rintro ⟨ns₁, r, ns₂, hs, ⟨rfl, rfl⟩, rfl⟩
    rwa [List.append_nil]
  · intro h
    exact ⟨ns, .single t, [], h, ⟨rfl, rfl⟩, by rw [List.append_nil]⟩

/-! ### Calls -/

/-- The ways to lower the call of a head with the given arguments. -/
inductive LowersCall (forms : Forms) (site : Site) :
    List Source → List Notice → Lowered → Prop
  | call {args : List Source} {ns : List Notice} {ts : List Target} :
      forms.meaning site.form = .call → forms.LowersAll args ns (ts.map .single) →
      LowersCall forms site args ns
        (.single (.call (.name site.form .load site.place.location) ts site.place.location))
  | define {n : Reading.Named} {value : Source} {extra : List Source} {ns : List Notice}
      {t : Target} :
      forms.meaning site.form = .structural .define → Reading.Names n →
      forms.Lowers value ns (.single t) →
      LowersCall forms site (n.2 :: value :: extra)
        (.structural site.form :: (counted (.extraValues n.1) extra.length ++ ns))
        (.single (.assign (StructuralForm.bound .store n) t site.place.location))
  | function {s : StructuralForm.Signature} {place : Place} {earlier : List Source}
      {last : Source} {ns ms : List Notice} {rs : List Lowered} {r : Lowered} :
      forms.meaning site.form = .structural .function → s.Precedes (earlier ++ [last]) →
      forms.LowersAll earlier ns rs → forms.Lowers last ms r →
      LowersCall forms site
        (s.name.2 :: .list (s.params.map Prod.snd) place :: (s.doc.toList ++ (earlier ++ [last])))
        (.structural site.form ::
          (ns ++ (counted (.droppedBodies s.name.1) earlier.length ++ ms)))
        (.single (.function s.name.1 (s.params.map (StructuralForm.bound .param))
          ((s.doc.map StructuralForm.docStatement).toList ++ r.statements) site.place.location))
  | skip {args : List Source} :
      forms.meaning site.form = .structural .skip →
      LowersCall forms site args [.structural site.form] (.sequence [])
  | print {args : List Source} {ns : List Notice} {ts : List Target} :
      forms.meaning site.form = .special .print → forms.LowersAll args ns (ts.map .single) →
      LowersCall forms site args (ns ++ [.special site.form ts.length])
        (.single (.print ts true site.place.location))
  | arithmetic {args : List Source} {ns : List Notice} {op : Arithmetic} {t u : Target}
      {ts : List Target} :
      forms.meaning site.form = .special .arithmetic →
      Arithmetic.ofSymbol? site.form = some op →
      forms.LowersAll args ns ((t :: u :: ts).map .single) →
      LowersCall forms site args (ns ++ [.special site.form (ts.length + 2)])
        (.single ((u :: ts).foldl (fun l r => .binary l op r site.place.location) t))
  | comparison {args : List Source} {ns : List Notice} {op : Comparison} {t u : Target}
      {ts : List Target} :
      forms.meaning site.form = .special .comparison →
      Comparison.ofSymbol? site.form = some op →
      forms.LowersAll args ns ((t :: u :: ts).map .single) →
      LowersCall forms site args (ns ++ [.special site.form (ts.length + 2)])
        (.single (.compare t (List.replicate (u :: ts).length op) (u :: ts)
          site.place.location))
  | condition {args : List Source} {ns : List Notice} {t : Target} {body orelse : Lowered}
      {extra : List Lowered} :
      forms.meaning site.form = .special .condition →
      forms.LowersAll args ns (.single t :: body :: orelse :: extra) →
      LowersCall forms site args
        (ns ++ .special site.form (extra.length + 3) :: counted .extraBranches extra.length)
        (.single (.branch t body.statements orelse.statements site.place.location))
  | sequence {args : List Source} {ns : List Notice} {rs : List Lowered} :
      forms.meaning site.form = .special .sequence → forms.LowersAll args ns rs →
      LowersCall forms site args (ns ++ [.special site.form rs.length])
        (.sequence (rs.flatMap Lowered.statements))
  | ret {args : List Source} {ns : List Notice} {rs : List Lowered} {t : Target} :
      forms.meaning site.form = .special .ret →
      forms.LowersAll args ns (rs ++ [.single t]) →
      LowersCall forms site args
        (ns ++ .special site.form (rs.length + 1) :: counted .discardedValues rs.length)
        (.single (.ret t site.place.location))
  | drop {args : List Source} {ns : List Notice} {rs : List Lowered} :
      forms.meaning site.form = .special .skip → forms.LowersAll args ns rs →
      LowersCall forms site args (ns ++ [.special site.form rs.length]) (.sequence [])

end Forms

/-! ### The builders of special forms -/

namespace SpecialForm

variable {site : Site} {rs : List Lowered} {ns : List Notice} {r : Lowered}

theorem gives_buildPrint :
    (buildPrint site rs).Gives ns r ↔
      ∃ ts, rs = ts.map .single ∧ ns = [] ∧ r = .single (.print ts true site.place.location) := by
  simp only [buildPrint, gives_bind, Lowered.gives_expressions, gives_pure]
  constructor
  · rintro ⟨ns₁, ts, ns₂, ⟨rfl, rfl⟩, ⟨rfl, rfl⟩, rfl⟩
    exact ⟨ts, rfl, rfl, rfl⟩
  · rintro ⟨ts, rfl, rfl, rfl⟩
    exact ⟨[], ts, [], ⟨rfl, rfl⟩, ⟨rfl, rfl⟩, rfl⟩

theorem gives_operands {first second : Lowered} {others : List Lowered}
    {f : Target → List Target → Lowered} :
    (do
      let left ← first.expression site
      let rights ← Lowered.expressions site (second :: others)
      pure (f left rights) : Lowering Lowered).Gives ns r ↔
      ∃ t u ts, first :: second :: others = (t :: u :: ts).map .single ∧ ns = [] ∧
        r = f t (u :: ts) := by
  simp only [gives_bind, Lowered.gives_expression, Lowered.gives_expressions, gives_pure]
  constructor
  · rintro ⟨ns₁, t, ns₂, ⟨rfl, rfl⟩, ⟨ns₃, us, ns₄, ⟨rfl, hus⟩, ⟨rfl, rfl⟩, rfl⟩, rfl⟩
    obtain ⟨u, ts, rfl, rfl, rfl⟩ := List.map_eq_cons_iff.mp hus.symm
    exact ⟨t, u, ts, rfl, rfl, rfl⟩
  · rintro ⟨t, u, ts, heq, rfl, rfl⟩
    cases heq
    exact ⟨[], t, [], ⟨rfl, rfl⟩, ⟨[], u :: ts, [], ⟨rfl, rfl⟩, ⟨rfl, rfl⟩, rfl⟩, rfl⟩

theorem gives_buildArithmetic :
    (buildArithmetic site rs).Gives ns r ↔
      ∃ op t u ts, Arithmetic.ofSymbol? site.form = some op ∧
        rs = (t :: u :: ts).map .single ∧ ns = [] ∧
        r = .single ((u :: ts).foldl (fun l r => .binary l op r site.place.location) t) := by
  unfold buildArithmetic
  split
  · next h => simp [h]
  · next op first second others h =>
      rw [gives_operands]
      simp [h]
  · next op few h hfew =>
      simp only [not_gives_fail, false_iff]
      rintro ⟨op', t, u, ts, -, rfl, -⟩
      exact hfew _ _ _ rfl

theorem gives_buildComparison :
    (buildComparison site rs).Gives ns r ↔
      ∃ op t u ts, Comparison.ofSymbol? site.form = some op ∧
        rs = (t :: u :: ts).map .single ∧ ns = [] ∧
        r = .single (.compare t (List.replicate (u :: ts).length op) (u :: ts)
          site.place.location) := by
  unfold buildComparison
  split
  · next h => simp [h]
  · next op first second others h =>
      rw [gives_operands]
      simp [h]
  · next op few h hfew =>
      simp only [not_gives_fail, false_iff]
      rintro ⟨op', t, u, ts, -, rfl, -⟩
      exact hfew _ _ _ rfl

theorem gives_buildCondition :
    (buildCondition site rs).Gives ns r ↔
      ∃ t body orelse extra, rs = .single t :: body :: orelse :: extra ∧
        ns = counted .extraBranches extra.length ∧
        r = .single (.branch t body.statements orelse.statements site.place.location) := by
  unfold buildCondition
  split
  · next test body orelse extra =>
      simp only [gives_bind, gives_noteCount, Lowered.gives_expression, gives_pure]
      constructor
      · rintro ⟨ns₁, u, ns₂, rfl, ⟨ns₃, t, ns₄, ⟨rfl, rfl⟩, ⟨rfl, rfl⟩, rfl⟩, rfl⟩
        exact ⟨t, body, orelse, extra, rfl, by simp, rfl⟩
      · rintro ⟨t, body', orelse', extra', heq, rfl, rfl⟩
        cases heq
        exact ⟨_, (), [], rfl, ⟨[], t, [], ⟨rfl, rfl⟩, ⟨rfl, rfl⟩, rfl⟩, by simp⟩
  · next few hfew =>
      simp only [not_gives_fail, false_iff]
      rintro ⟨t, body, orelse, extra, rfl, -⟩
      exact hfew _ _ _ _ rfl

theorem gives_buildReturn :
    (buildReturn site rs).Gives ns r ↔
      ∃ init t, rs = init ++ [.single t] ∧ ns = counted .discardedValues init.length ∧
        r = .single (.ret t site.place.location) := by
  unfold buildReturn
  rcases List.eq_nil_or_concat rs with rfl | ⟨init, last, rfl⟩
  · simp
  · rw [List.concat_eq_append, List.getLast?_concat]
    simp only [gives_bind, gives_noteCount, Lowered.gives_expression, gives_pure]
    constructor
    · rintro ⟨ns₁, u, ns₂, rfl, ⟨ns₃, t, ns₄, ⟨rfl, rfl⟩, ⟨rfl, rfl⟩, rfl⟩, rfl⟩
      exact ⟨init, t, rfl, by simp, rfl⟩
    · rintro ⟨init', t, heq, rfl, rfl⟩
      obtain ⟨rfl, hlast⟩ := List.append_inj' heq rfl
      cases hlast
      exact ⟨_, (), [], rfl, ⟨[], t, [], ⟨rfl, rfl⟩, ⟨rfl, rfl⟩, rfl⟩, by simp⟩

end SpecialForm

theorem gives_buildCall {site : Site} {rs : List Lowered} {ns : List Notice} {r : Lowered} :
    (buildCall site rs).Gives ns r ↔
      ∃ ts, rs = ts.map .single ∧ ns = [] ∧
        r = .single (.call (.name site.form .load site.place.location) ts
          site.place.location) := by
  simp only [buildCall, gives_bind, Lowered.gives_expressions, gives_pure]
  constructor
  · rintro ⟨ns₁, ts, ns₂, ⟨rfl, rfl⟩, ⟨rfl, rfl⟩, rfl⟩
    exact ⟨ts, rfl, rfl, rfl⟩
  · rintro ⟨ts, rfl, rfl, rfl⟩
    exact ⟨[], ts, [], ⟨rfl, rfl⟩, ⟨rfl, rfl⟩, rfl⟩

/-! ### The structural forms -/

namespace Forms

variable {forms : Forms} {site : Site} {args : List Source} {ns : List Notice} {r : Lowered}

/-- A tree as an argument, with what lowering it gives. -/
def argument (forms : Forms) (s : Source) : Argument (Lowering Lowered) := ⟨s, forms.lower s⟩

theorem lowerArgs_eq (ss : List Source) : forms.lowerArgs ss = ss.map forms.argument :=
  lowerArgs_eq_map forms ss

theorem gives_lowerDefine :
    (StructuralForm.lowerDefine site (forms.lowerArgs args)).Gives ns r ↔
      ∃ n value extra ms t, args = n.2 :: value :: extra ∧ Reading.Names n ∧
        forms.Lowers value ms (.single t) ∧
        ns = counted (.extraValues n.1) extra.length ++ ms ∧
        r = .single (.assign (StructuralForm.bound .store n) t site.place.location) := by
  simp only [StructuralForm.lowerDefine, gives_bind, gives_ofExcept, gives_noteCount, gives_pure]
  constructor
  · rintro ⟨_, ⟨b, extra⟩, _, ⟨rfl, hread⟩,
      ⟨_, _, _, rfl, ⟨ms, t, _, hvalue, ⟨rfl, rfl⟩, rfl⟩, rfl⟩, rfl⟩
    obtain ⟨a, hargs, hname, hnames⟩ := StructuralForm.binding_run_eq_ok_iff.mp hread
    rw [lowerArgs_eq] at hargs
    obtain ⟨s, ss, rfl, rfl, hrest⟩ := List.map_eq_cons_iff.mp hargs
    obtain ⟨value, extra', rfl, hv, rfl⟩ := List.map_eq_cons_iff.mp hrest
    rw [← hv] at hvalue
    refine ⟨b.name, value, extra', ms, t, ?_, hnames, gives_argument_expression.mp hvalue, ?_, rfl⟩
    · rw [hname]
      rfl
    · simp
  · rintro ⟨n, value, extra, ms, t, rfl, hnames, hvalue, rfl, rfl⟩
    have hread : StructuralForm.binding.run site (forms.lowerArgs (n.2 :: value :: extra)) =
        .ok (⟨n, forms.argument value⟩, extra.map forms.argument) :=
      StructuralForm.binding_run_eq_ok_iff.mpr
        ⟨forms.argument n.2, by rw [lowerArgs_eq]; rfl, rfl, hnames⟩
    exact ⟨[], _, _, ⟨rfl, hread⟩, ⟨_, (), _, rfl,
      ⟨ms, t, [], gives_argument_expression.mpr hvalue, ⟨rfl, rfl⟩, rfl⟩, rfl⟩, by simp⟩

/-- What the head of a function is read from, the arguments given as trees. -/
theorem signature_run_eq_ok_iff {s : StructuralForm.Signature}
    {bodies : List (Argument (Lowering Lowered))} :
    StructuralForm.signature.run site (forms.lowerArgs args) = .ok (s, bodies) ↔
      ∃ place bs, args = s.name.2 :: .list (s.params.map Prod.snd) place :: (s.doc.toList ++ bs) ∧
        bodies = bs.map forms.argument ∧ s.doc.toList ++ bs ≠ [] ∧ s.Precedes bs := by
  rw [StructuralForm.signature_run_eq_ok_iff, lowerArgs_eq]
  constructor
  · rintro ⟨a, l, place, doc, hargs, hne, hname, hnames, hlist, hparams, hdoc, hstring, hnone⟩
    obtain ⟨a, rest, rfl, rfl, hrest⟩ := List.map_eq_cons_iff.mp hargs
    obtain ⟨l, rest, rfl, rfl, hbodies⟩ := List.map_eq_cons_iff.mp hrest
    obtain ⟨ds, bs, rfl, hds, rfl⟩ := List.map_eq_append_iff.mp hbodies
    have hsources : ds = s.doc.toList := by
      rw [hdoc, Option.toList_map, ← hds, List.map_map]
      exact (List.map_id _).symm
    subst hsources
    refine ⟨place, bs, ?_, rfl, ?_, hnames, hparams, hstring, ?_⟩
    · rw [hname, ← hlist]
      rfl
    · rintro h
      obtain ⟨hd, rfl⟩ := List.append_eq_nil_iff.mp h
      rw [← hds, hd] at hne
      exact hne rfl
    · intro h b hb
      exact hnone h (forms.argument b) (by rw [List.head?_map, hb]; rfl)
  · rintro ⟨place, bs, rfl, rfl, hne, hs⟩
    refine ⟨forms.argument s.name.2, forms.argument (.list (s.params.map Prod.snd) place), place,
      s.doc.map forms.argument, ?_, ?_, rfl, hs.name, rfl, hs.params, ?_, hs.doc, ?_⟩
    · simp [Option.toList_map]
    · simpa [Option.toList_map] using hne
    · rw [Option.map_map]
      exact Option.map_id'.symm
    · intro h b hb
      rw [List.head?_map] at hb
      obtain ⟨b', hb', rfl⟩ := Option.map_eq_some_iff.mp hb
      exact hs.bodies h b' hb'

theorem gives_lowerFunction :
    (StructuralForm.lowerFunction site (forms.lowerArgs args)).Gives ns r ↔
      ∃ (s : StructuralForm.Signature) (place : Place) (earlier : List Source) (last : Source)
        (ms ms' : List Notice) (rs : List Lowered) (b : Lowered),
        args = s.name.2 :: .list (s.params.map Prod.snd) place ::
          (s.doc.toList ++ (earlier ++ [last])) ∧
        s.Precedes (earlier ++ [last]) ∧ forms.LowersAll earlier ms rs ∧ forms.Lowers last ms' b ∧
        ns = ms ++ (counted (.droppedBodies s.name.1) earlier.length ++ ms') ∧
        r = .single (.function s.name.1 (s.params.map (StructuralForm.bound .param))
          ((s.doc.map StructuralForm.docStatement).toList ++ b.statements)
          site.place.location) := by
  simp only [StructuralForm.lowerFunction, gives_bind, gives_ofExcept]
  constructor
  · rintro ⟨_, ⟨s, bodies⟩, _, ⟨rfl, hread⟩, hrun, rfl⟩
    obtain ⟨place, bs, rfl, rfl, -, hs⟩ := signature_run_eq_ok_iff.mp hread
    rcases List.eq_nil_or_concat bs with rfl | ⟨earlier, last, rfl⟩
    · simp at hrun
    · rw [List.concat_eq_append, List.map_append, List.map_singleton, List.getLast?_concat] at hrun
      simp only [List.dropLast_concat, gives_bind, gives_noteCount, gives_pure] at hrun
      obtain ⟨ms, rs, _, hearlier, ⟨_, _, _, rfl, ⟨ms', b, _, hlast, ⟨rfl, rfl⟩, rfl⟩, rfl⟩, rfl⟩ :=
        hrun
      rw [List.map_map] at hearlier
      refine ⟨s, place, earlier, last, ms, ms', rs, b, by rw [List.concat_eq_append], ?_, ?_,
        gives_lowered.mp hlast, by simp, rfl⟩
      · rwa [List.concat_eq_append] at hs
      · exact (gives_all_iff_lowersAll fun _ _ _ => gives_lowered).mp hearlier
  · rintro ⟨s, place, earlier, last, ms, ms', rs, b, rfl, hs, hearlier, hlast, rfl, rfl⟩
    refine ⟨[], (s, (earlier ++ [last]).map forms.argument), _, ⟨rfl, ?_⟩, ?_, rfl⟩
    · exact signature_run_eq_ok_iff.mpr ⟨place, _, rfl, rfl, by simp, hs⟩
    · rw [List.map_append, List.map_singleton, List.getLast?_concat]
      simp only [List.dropLast_concat, gives_bind, gives_noteCount, gives_pure, List.map_map]
      exact ⟨ms, rs, _, (gives_all_iff_lowersAll fun _ _ _ => gives_lowered).mpr hearlier,
        ⟨_, (), _, rfl, ⟨ms', b, [], gives_lowered.mpr hlast, ⟨rfl, rfl⟩, rfl⟩, rfl⟩, by simp⟩

/-! ### Trees -/

theorem gives_structural {form : StructuralForm}
    (hm : forms.meaning site.form = .structural form) :
    (forms.lowerCall site (forms.lowerArgs args)).Gives ns r ↔
      ∃ ms, (form.lower site (forms.lowerArgs args)).Gives ms r ∧
        ns = .structural site.form :: ms := by
  simp only [lowerCall, hm, gives_bind, gives_note]
  constructor
  · rintro ⟨_, _, ms, rfl, hms, rfl⟩
    exact ⟨ms, hms, rfl⟩
  · rintro ⟨ms, hms, rfl⟩
    exact ⟨_, (), ms, rfl, hms, rfl⟩

theorem gives_special {form : SpecialForm} (hm : forms.meaning site.form = .special form) :
    (forms.lowerCall site (forms.lowerArgs args)).Gives ns r ↔
      ∃ ms rs ms', forms.LowersAll args ms rs ∧ (form.build site rs).Gives ms' r ∧
        ns = ms ++ .special site.form rs.length :: ms' := by
  simp only [lowerCall, hm, gives_bind, gives_note, gives_lowerChildren]
  constructor
  · rintro ⟨ms, rs, _, hargs, ⟨_, _, ms', rfl, hbuild, rfl⟩, rfl⟩
    exact ⟨ms, rs, ms', hargs, hbuild, rfl⟩
  · rintro ⟨ms, rs, ms', hargs, hbuild, rfl⟩
    exact ⟨ms, rs, _, hargs, ⟨_, (), ms', rfl, hbuild, rfl⟩, rfl⟩

theorem gives_call (hm : forms.meaning site.form = .call) :
    (forms.lowerCall site (forms.lowerArgs args)).Gives ns r ↔
      ∃ ts, forms.LowersAll args ns (ts.map .single) ∧
        r = .single (.call (.name site.form .load site.place.location) ts
          site.place.location) := by
  simp only [lowerCall, hm, gives_bind, gives_lowerChildren, gives_buildCall]
  constructor
  · rintro ⟨ms, rs, _, hargs, ⟨ts, rfl, rfl, rfl⟩, rfl⟩
    exact ⟨ts, by rwa [List.append_nil], rfl⟩
  · rintro ⟨ts, hargs, rfl⟩
    exact ⟨ns, _, [], hargs, ⟨ts, rfl, rfl, rfl⟩, by rw [List.append_nil]⟩

theorem LowersCall.special {form : SpecialForm} (hm : forms.meaning site.form = .special form)
    {rs : List Lowered} {ms ms' : List Notice} (hargs : forms.LowersAll args ms rs)
    (hbuild : (form.build site rs).Gives ms' r) :
    forms.LowersCall site args (ms ++ .special site.form rs.length :: ms') r := by
  cases form with
  | print =>
      obtain ⟨ts, rfl, rfl, rfl⟩ := SpecialForm.gives_buildPrint.mp hbuild
      rw [List.length_map]
      exact .print hm hargs
  | arithmetic =>
      obtain ⟨op, t, u, ts, hop, rfl, rfl, rfl⟩ := SpecialForm.gives_buildArithmetic.mp hbuild
      rw [List.length_map]
      exact .arithmetic hm hop hargs
  | comparison =>
      obtain ⟨op, t, u, ts, hop, rfl, rfl, rfl⟩ := SpecialForm.gives_buildComparison.mp hbuild
      rw [List.length_map]
      exact .comparison hm hop hargs
  | condition =>
      obtain ⟨t, body, orelse, extra, rfl, rfl, rfl⟩ :=
        SpecialForm.gives_buildCondition.mp hbuild
      exact .condition hm hargs
  | sequence =>
      obtain ⟨rfl, rfl⟩ := gives_pure.mp hbuild
      exact .sequence hm hargs
  | ret =>
      obtain ⟨init, t, rfl, rfl, rfl⟩ := SpecialForm.gives_buildReturn.mp hbuild
      rw [List.length_append]
      exact .ret hm hargs
  | skip =>
      obtain ⟨rfl, rfl⟩ := gives_pure.mp hbuild
      exact .drop hm hargs

theorem lowers_leaf_iff {value : Leaf} {place : Place} :
    forms.Lowers (.leaf value place) ns r ↔ ns = [] ∧ r = .single (value.lower place.location) :=
  gives_pure

theorem not_lowers_list {elements : List Source} {place : Place} :
    ¬ forms.Lowers (.list elements place) ns r := not_gives_fail

/-- **A call is lowered by the rule of what its head stands for, and in no other way.** -/
theorem lowers_call_iff {head : String} {place : Place} :
    forms.Lowers (.call head args place) ns r ↔ forms.LowersCall ⟨head, place⟩ args ns r := by
  change (forms.lowerCall ⟨head, place⟩ (forms.lowerArgs args)).Gives ns r ↔ _
  constructor
  · intro h
    cases hm : forms.meaning head with
    | structural form =>
        obtain ⟨ms, hms, rfl⟩ := (gives_structural hm).mp h
        cases form with
        | define =>
            obtain ⟨n, value, extra, ms, t, rfl, hn, hvalue, rfl, rfl⟩ :=
              gives_lowerDefine.mp hms
            exact .define hm hn hvalue
        | function =>
            obtain ⟨s, p, earlier, last, ms, ms', rs, b, rfl, hs, hearlier, hlast, rfl, rfl⟩ :=
              gives_lowerFunction.mp hms
            exact .function hm hs hearlier hlast
        | skip =>
            obtain ⟨rfl, rfl⟩ := gives_pure.mp hms
            exact .skip hm
    | special form =>
        obtain ⟨ms, rs, ms', hargs, hbuild, rfl⟩ := (gives_special hm).mp h
        exact .special hm hargs hbuild
    | call =>
        obtain ⟨ts, hargs, rfl⟩ := (gives_call hm).mp h
        exact .call hm hargs
  · intro h
    cases h with
    | call hm hargs => exact (gives_call hm).mpr ⟨_, hargs, rfl⟩
    | define hm hn hvalue =>
        exact (gives_structural hm).mpr
          ⟨_, gives_lowerDefine.mpr ⟨_, _, _, _, _, rfl, hn, hvalue, rfl, rfl⟩, rfl⟩
    | function hm hs hearlier hlast =>
        exact (gives_structural hm).mpr ⟨_, gives_lowerFunction.mpr
          ⟨_, _, _, _, _, _, _, _, rfl, hs, hearlier, hlast, rfl, rfl⟩, rfl⟩
    | skip hm => exact (gives_structural hm).mpr ⟨[], gives_pure.mpr ⟨rfl, rfl⟩, rfl⟩
    | print hm hargs =>
        exact (gives_special hm).mpr ⟨_, _, [], hargs,
          SpecialForm.gives_buildPrint.mpr ⟨_, rfl, rfl, rfl⟩, by rw [List.length_map]⟩
    | arithmetic hm hop hargs =>
        exact (gives_special hm).mpr ⟨_, _, [], hargs,
          SpecialForm.gives_buildArithmetic.mpr ⟨_, _, _, _, hop, rfl, rfl, rfl⟩,
          by rw [List.length_map]; rfl⟩
    | comparison hm hop hargs =>
        exact (gives_special hm).mpr ⟨_, _, [], hargs,
          SpecialForm.gives_buildComparison.mpr ⟨_, _, _, _, hop, rfl, rfl, rfl⟩,
          by rw [List.length_map]; rfl⟩
    | condition hm hargs =>
        exact (gives_special hm).mpr ⟨_, _, _, hargs,
          SpecialForm.gives_buildCondition.mpr ⟨_, _, _, _, rfl, rfl, rfl⟩, rfl⟩
    | sequence hm hargs =>
        exact (gives_special hm).mpr ⟨_, _, [], hargs, gives_pure.mpr ⟨rfl, rfl⟩, rfl⟩
    | ret hm hargs =>
        exact (gives_special hm).mpr ⟨_, _, _, hargs,
          SpecialForm.gives_buildReturn.mpr ⟨_, _, rfl, rfl, rfl⟩, by rw [List.length_append]; rfl⟩
    | drop hm hargs =>
        exact (gives_special hm).mpr ⟨_, _, [], hargs, gives_pure.mpr ⟨rfl, rfl⟩, rfl⟩

/-! ### Programs -/

theorem gives_lowerForest {forest : List Source} {body : List Target} :
    (forms.lowerForest forest).Gives ns body ↔
      ∃ rs, forms.LowersAll forest ns rs ∧ body = rs.flatMap Lowered.statements := by
  have hall : ∀ ms rs, (Run.all (forest.map forms.lower)).Gives ms rs ↔
      forms.LowersAll forest ms rs := fun _ _ => gives_all_iff_lowersAll fun _ _ _ => Iff.rfl
  simp only [lowerForest, gives_bind, gives_pure, hall]
  constructor
  · rintro ⟨_, rs, _, hforest, ⟨rfl, rfl⟩, rfl⟩
    exact ⟨rs, by rwa [List.append_nil], rfl⟩
  · rintro ⟨rs, hforest, rfl⟩
    exact ⟨ns, rs, [], hforest, ⟨rfl, rfl⟩, by rw [List.append_nil]⟩

theorem result_assemble (forms : Forms) (name : String) (forest : List Source) :
    (forms.assemble name forest).result =
      (forms.lowerForest forest).result.map fun body => (Program.mk name body).located := by
  unfold assemble
  obtain ⟨ns, result⟩ := forms.lowerForest forest
  cases result <;> rfl

/-- Trees are assembled when each of them is lowered; what they stand for is put one after the
other, located, and counted in a last notice. -/
theorem assemble_gives_iff {name : String} {forest : List Source} {p : Program} :
    (forms.assemble name forest).Gives ns p ↔
      ∃ ms rs, forms.LowersAll forest ms rs ∧
        p = (Program.mk name (rs.flatMap Lowered.statements)).located ∧
        ns = ms ++ [.assembled name forest.length p.size] := by
  simp only [assemble, gives_bind, gives_note, gives_pure, gives_lowerForest]
  constructor
  · rintro ⟨ms, _, _, ⟨rs, hforest, rfl⟩, ⟨_, _, _, rfl, ⟨rfl, rfl⟩, rfl⟩, rfl⟩
    exact ⟨ms, rs, hforest, rfl, by simp⟩
  · rintro ⟨ms, rs, hforest, rfl, rfl⟩
    exact ⟨ms, _, _, ⟨rs, hforest, rfl⟩, ⟨_, (), [], rfl, ⟨rfl, rfl⟩, rfl⟩, by simp⟩

end Forms

end FormLower
