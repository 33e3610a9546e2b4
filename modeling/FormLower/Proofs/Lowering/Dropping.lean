import FormLower.Proofs.Lowering.Acceptance

/-! # Arguments that are dropped

Four forms drop some of their arguments: a definition whatever follows its value, a conditional what
follows its branches, a return what stands before its value, and a function all bodies but the last
one.  `SameKept` relates trees that differ in nothing else, at any depth.  Such trees are lowered to
the same (`SameKept.alike`), so that forests of them are assembled to the same program
(`assemble_sameKept_iff`). -/

namespace FormLower

open Run StructuralForm

namespace Forms

/-! ### Trees that differ in what is dropped -/

/-- Arguments of a head that are the same but for those it drops.  What is dropped can be lowered,
unless it is dropped by a definition, which does not lower it. -/
inductive SameButDropped (forms : Forms) (head : String) : List Source → List Source → Prop
  | refl (args : List Source) : SameButDropped forms head args args
  | define {name value : Source} {extra extra' : List Source} :
      forms.meaning head = .structural .define →
      SameButDropped forms head (name :: value :: extra) (name :: value :: extra')
  | condition {test body orelse : Source} {extra extra' : List Source} :
      forms.meaning head = .special .condition → (∀ s ∈ extra ++ extra', forms.Accepts s) →
      SameButDropped forms head (test :: body :: orelse :: extra) (test :: body :: orelse :: extra')
  | ret {before before' : List Source} {value : Source} :
      forms.meaning head = .special .ret → (∀ s ∈ before ++ before', forms.Accepts s) →
      SameButDropped forms head (before ++ [value]) (before' ++ [value])
  | function {name params last : Source} {doc : Option Source} {earlier earlier' : List Source} :
      forms.meaning head = .structural .function → DocumentedBy (earlier ++ [last]) doc →
      DocumentedBy (earlier' ++ [last]) doc → (∀ s ∈ earlier ++ earlier', forms.Accepts s) →
      SameButDropped forms head (name :: params :: (doc.toList ++ (earlier ++ [last])))
        (name :: params :: (doc.toList ++ (earlier' ++ [last])))

/-- Trees that are the same but for what is dropped in them, at any depth. -/
inductive SameKept (forms : Forms) : Source → Source → Prop
  | leaf (value : Leaf) (place : Place) : SameKept forms (.leaf value place) (.leaf value place)
  | list {elements elements' : List Source} {place : Place} :
      List.Forall₂ (SameKept forms) elements elements' →
      SameKept forms (.list elements place) (.list elements' place)
  | call {head : String} {args args' args'' : List Source} {place : Place} :
      List.Forall₂ (SameKept forms) args args' → forms.SameButDropped head args' args'' →
      SameKept forms (.call head args place) (.call head args'' place)

variable {forms : Forms}

theorem SameButDropped.symm {head : String} {args args' : List Source}
    (h : forms.SameButDropped head args args') : forms.SameButDropped head args' args := by
  have swap : ∀ {ss ss' : List Source}, (∀ s ∈ ss ++ ss', forms.Accepts s) →
      ∀ s ∈ ss' ++ ss, forms.Accepts s := by
    intro ss ss' hss s hs
    exact hss s (List.mem_append.mpr (List.mem_append.mp hs).symm)
  cases h with
  | refl => exact .refl args
  | define hm => exact .define hm
  | condition hm hextra => exact .condition hm (swap hextra)
  | ret hm hbefore => exact .ret hm (swap hbefore)
  | function hm hdoc hdoc' hearlier => exact .function hm hdoc' hdoc (swap hearlier)

theorem SameKept.refl (forms : Forms) (s : Source) : forms.SameKept s s := by
  induction s with
  | leaf value place => exact .leaf value place
  | list elements place ih => exact .list (List.forall₂_same.mpr ih)
  | call head args place ih => exact .call (List.forall₂_same.mpr ih) (.refl args)

theorem forall₂_sameKept_refl (forms : Forms) (ss : List Source) :
    List.Forall₂ forms.SameKept ss ss :=
  List.forall₂_same.mpr fun s _ => .refl forms s

/-! ### Dropping at one call -/

theorem lowersCall_iff_gives {site : Site} {args : List Source} {ns : List Notice} {r : Lowered} :
    forms.LowersCall site args ns r ↔
      (forms.lowerCall site (forms.lowerArgs args)).Gives ns r :=
  lowers_call_iff.symm

/-- What a call drops makes no difference to what it is lowered to. -/
theorem SameButDropped.lowersCall {site : Site} {args args' : List Source} {ns : List Notice}
    {r : Lowered} (h : forms.SameButDropped site.form args args')
    (hcall : forms.LowersCall site args ns r) : ∃ ms, forms.LowersCall site args' ms r := by
  have accepted : ∀ {ss ss' : List Source}, (∀ s ∈ ss ++ ss', forms.Accepts s) →
      ∃ ms rs, forms.LowersAll ss' ms rs := by
    intro ss ss' hss
    exact exists_lowersAll_iff_accepts.mpr fun s hs => hss s (List.mem_append_right _ hs)
  cases h with
  | refl => exact ⟨ns, hcall⟩
  | define hm =>
      obtain ⟨ms, hms, -⟩ := (gives_structural hm).mp (lowersCall_iff_gives.mp hcall)
      obtain ⟨n, v, _, _, t, heq, hn, hv, -, rfl⟩ := gives_lowerDefine.mp hms
      cases heq
      exact ⟨_, .define hm hn hv⟩
  | condition hm hextra =>
      obtain ⟨ms, rs, _, hall, hbuild, -⟩ :=
        (gives_special hm).mp (lowersCall_iff_gives.mp hcall)
      obtain ⟨t, b, o, _, rfl, -, rfl⟩ := SpecialForm.gives_buildCondition.mp hbuild
      obtain ⟨ms', rs', hextra'⟩ := accepted hextra
      cases hall with
      | cons htest hall =>
          cases hall with
          | cons hbody hall =>
              cases hall with
              | cons horelse _ =>
                  exact ⟨_, .condition hm (.cons htest (.cons hbody (.cons horelse hextra')))⟩
  | @ret before before' value hm hbefore =>
      obtain ⟨ms, rs, _, hall, hbuild, -⟩ :=
        (gives_special hm).mp (lowersCall_iff_gives.mp hcall)
      obtain ⟨init, t, rfl, -, rfl⟩ := SpecialForm.gives_buildReturn.mp hbuild
      obtain ⟨as, bs, _, _, heq, -, -, hlast⟩ := lowersAll_append_iff.mp hall
      obtain ⟨s, rfl, hvalue⟩ := lowersAll_singleton_iff.mp hlast
      obtain ⟨-, hs⟩ := List.append_inj' heq rfl
      cases hs
      obtain ⟨ms', rs', hbefore'⟩ := accepted hbefore
      exact ⟨_, .ret hm (lowersAll_append_iff.mpr
        ⟨before', [value], _, _, rfl, rfl, hbefore', lowersAll_singleton_iff.mpr ⟨_, rfl, hvalue⟩⟩)⟩
  | @function name params last doc earlier earlier' hm hdoc hdoc' hearlier =>
      obtain ⟨ms, hms, -⟩ := (gives_structural hm).mp (lowersCall_iff_gives.mp hcall)
      obtain ⟨sig, place, _, _, _, _, _, b, heq, hsig, -, hlast, -, rfl⟩ :=
        gives_lowerFunction.mp hms
      obtain ⟨hname, hrest⟩ := List.cons.inj heq
      obtain ⟨hparams, hbehind⟩ := List.cons.inj hrest
      subst hname hparams
      obtain ⟨rfl, hbodies⟩ := hdoc.unique hsig.documentedBy hbehind
      obtain ⟨rfl, hb⟩ := List.append_inj' hbodies rfl
      cases hb
      obtain ⟨ms', rs', hearlier'⟩ := accepted hearlier
      exact ⟨_, .function hm ⟨hsig.name, hsig.params, hsig.doc, hdoc'.first⟩ hearlier' hlast⟩

/-! ### Dropping below a call -/

/-- What a structural form reads as it stands: a leaf, or a list of leaves. -/
inductive Raw : Source → Prop
  | leaf (value : Leaf) (place : Place) : Raw (.leaf value place)
  | leaves {elements : List Source} {place : Place} :
      (∀ e ∈ elements, e.IsLeaf) → Raw (.list elements place)

/-- Trees that no form tells apart if it succeeds: they are lowered to the same, if they are lowered
at all, and where one can be read as it stands the other is the same tree. -/
structure Alike (forms : Forms) (s s' : Source) : Prop where
  lowers : ∀ r, (∃ ns, forms.Lowers s ns r) ↔ ∃ ns, forms.Lowers s' ns r
  raw : Raw s ∨ Raw s' → s = s'

theorem Alike.symm {s s' : Source} (h : forms.Alike s s') : forms.Alike s' s :=
  ⟨fun r => (h.lowers r).symm, fun hraw => (h.raw hraw.symm).symm⟩

theorem isLeaf_of_isString {s : Source} (h : s.isString) : s.IsLeaf := by
  cases s with
  | leaf value place => exact ⟨value, place, rfl⟩
  | call head args place => cases h
  | list elements place => cases h

theorem Alike.eq_of_isLeaf {s s' : Source} (h : forms.Alike s s') (hs : s.IsLeaf) : s' = s := by
  obtain ⟨value, place, rfl⟩ := hs
  exact (h.raw (.inl (.leaf value place))).symm

theorem eq_of_forall₂_alike {ss ss' : List Source} (h : List.Forall₂ forms.Alike ss ss')
    (hss : ∀ s ∈ ss, s.IsLeaf) : ss = ss' := by
  induction h with
  | nil => rfl
  | cons hs _ ih =>
      obtain ⟨hleaf, hrest⟩ := List.forall_mem_cons.mp hss
      rw [hs.eq_of_isLeaf hleaf, ih hrest]

theorem forall₂_alike_symm {ss ss' : List Source} (h : List.Forall₂ forms.Alike ss ss') :
    List.Forall₂ forms.Alike ss' ss :=
  List.Forall₂.flip (h.imp fun _ _ => Alike.symm)

theorem Alike.isString {s s' : Source} (h : forms.Alike s s') (hs : s.isString = false) :
    s'.isString = false := by
  cases s' with
  | leaf value place =>
      obtain rfl := h.raw (.inr (.leaf value place))
      exact hs
  | call head args place => rfl
  | list elements place => rfl

theorem LowersAll.alike {ss ss' : List Source} {ns : List Notice} {rs : List Lowered}
    (h : List.Forall₂ forms.Alike ss ss') (hss : forms.LowersAll ss ns rs) :
    ∃ ms, forms.LowersAll ss' ms rs := by
  induction h generalizing ns rs with
  | nil => exact ⟨ns, hss⟩
  | cons hs _ ih =>
      cases hss with
      | cons hr hrs =>
          obtain ⟨ms, hr'⟩ := (hs.lowers _).mp ⟨_, hr⟩
          obtain ⟨ms', hrs'⟩ := ih hrs
          exact ⟨ms ++ ms', .cons hr' hrs'⟩

/-- A call whose arguments are like those of another one is lowered to the same. -/
theorem LowersCall.alike {site : Site} {args args' : List Source} {ns : List Notice} {r : Lowered}
    (h : List.Forall₂ forms.Alike args args') (hcall : forms.LowersCall site args ns r) :
    ∃ ms, forms.LowersCall site args' ms r := by
  cases hcall with
  | call hm hargs =>
      obtain ⟨ms, hargs⟩ := hargs.alike h
      exact ⟨_, .call hm hargs⟩
  | define hm hn hvalue =>
      obtain ⟨name, _, hname, hrest, rfl⟩ := List.forall₂_cons_left_iff.mp h
      obtain ⟨value, extra, hv, -, rfl⟩ := List.forall₂_cons_left_iff.mp hrest
      obtain rfl := hname.eq_of_isLeaf (isLeaf_of_names hn)
      obtain ⟨ms, hvalue⟩ := (hv.lowers _).mp ⟨_, hvalue⟩
      exact ⟨_, .define hm hn hvalue⟩
  | @function sig place earlier last _ _ _ b hm hsig hearlier hlast =>
      obtain ⟨name, _, hname, hbehind, rfl⟩ := List.forall₂_cons_left_iff.mp h
      obtain ⟨params, _, hparams, hbehind', rfl⟩ := List.forall₂_cons_left_iff.mp hbehind
      obtain rfl := hname.eq_of_isLeaf (isLeaf_of_names hsig.name)
      have hraw : Raw (.list (sig.params.map Prod.snd) place) := by
        refine .leaves fun e he => ?_
        obtain ⟨n, hn, rfl⟩ := List.mem_map.mp he
        exact isLeaf_of_names (hsig.params n hn)
      obtain rfl := hparams.raw (.inl hraw)
      obtain ⟨docs, rest, rfl, hdocs, hbodies⟩ := forall₂_append_left_iff.mp hbehind'
      obtain ⟨earlier', last', rfl, hearlier', hlast'⟩ := forall₂_concat_left_iff.mp hbodies
      obtain rfl : docs = sig.doc.toList := by
        cases hdoc : sig.doc with
        | none =>
            rw [hdoc] at hdocs
            exact List.forall₂_nil_left_iff.mp hdocs
        | some d =>
            rw [hdoc] at hdocs
            obtain ⟨d', _, hd, hnil, rfl⟩ := List.forall₂_cons_left_iff.mp hdocs
            obtain rfl := List.forall₂_nil_left_iff.mp hnil
            rw [hd.eq_of_isLeaf (isLeaf_of_isString (hsig.doc d hdoc))]
            rfl
      have hfirst : sig.doc = none → ∀ b, (earlier' ++ [last']).head? = some b →
          b.isString = false := by
        intro hdoc b hb
        obtain ⟨bs, hbs⟩ := List.head?_eq_some_iff.mp hb
        rw [hbs] at hbodies
        obtain ⟨a, as, ha, -, has⟩ := List.forall₂_cons_right_iff.mp hbodies
        exact ha.isString (hsig.bodies hdoc a (by rw [has]; rfl))
      obtain ⟨ms, hearlier⟩ := hearlier.alike hearlier'
      obtain ⟨ms', hlast⟩ := (hlast'.lowers _).mp ⟨_, hlast⟩
      exact ⟨_, .function hm ⟨hsig.name, hsig.params, hsig.doc, hfirst⟩ hearlier hlast⟩
  | skip hm => exact ⟨_, .skip hm⟩
  | print hm hargs =>
      obtain ⟨ms, hargs⟩ := hargs.alike h
      exact ⟨_, .print hm hargs⟩
  | arithmetic hm hop hargs =>
      obtain ⟨ms, hargs⟩ := hargs.alike h
      exact ⟨_, .arithmetic hm hop hargs⟩
  | comparison hm hop hargs =>
      obtain ⟨ms, hargs⟩ := hargs.alike h
      exact ⟨_, .comparison hm hop hargs⟩
  | condition hm hargs =>
      obtain ⟨ms, hargs⟩ := hargs.alike h
      exact ⟨_, .condition hm hargs⟩
  | sequence hm hargs =>
      obtain ⟨ms, hargs⟩ := hargs.alike h
      exact ⟨_, .sequence hm hargs⟩
  | ret hm hargs =>
      obtain ⟨ms, hargs⟩ := hargs.alike h
      exact ⟨_, .ret hm hargs⟩
  | drop hm hargs =>
      obtain ⟨ms, hargs⟩ := hargs.alike h
      exact ⟨_, .drop hm hargs⟩

/-- **Trees that are the same but for what is dropped in them are lowered to the same.** -/
theorem SameKept.alike {s s' : Source} (h : forms.SameKept s s') : forms.Alike s s' := by
  have hall : ∀ {ss ss' : List Source}, (∀ s ∈ ss, ∀ {s'}, forms.SameKept s s' →
      forms.Alike s s') → List.Forall₂ forms.SameKept ss ss' → List.Forall₂ forms.Alike ss ss' :=
    fun ih hss => (List.forall₂_and_left _ _ |>.mpr ⟨ih, hss⟩).imp fun _ _ h => h.1 h.2
  induction s generalizing s' with
  | leaf value place =>
      cases h
      exact ⟨fun r => Iff.rfl, fun _ => rfl⟩
  | list elements place ih =>
      cases h with
      | list helements =>
          have halike := hall ih helements
          refine ⟨fun r => ⟨?_, ?_⟩, ?_⟩
          · exact fun ⟨ns, h⟩ => absurd h not_lowers_list
          · exact fun ⟨ns, h⟩ => absurd h not_lowers_list
          · rintro (hraw | hraw)
            · cases hraw with
              | leaves hleaves => rw [eq_of_forall₂_alike halike hleaves]
            · cases hraw with
              | leaves hleaves => rw [eq_of_forall₂_alike (forall₂_alike_symm halike) hleaves]
  | call head args place ih =>
      cases h with
      | @call _ _ args' args'' _ hargs hdropped =>
          have hdropped : forms.SameButDropped (Site.mk head place).form args' args'' := hdropped
          have halike := hall ih hargs
          refine ⟨fun r => ⟨?_, ?_⟩, by rintro (h | h) <;> cases h⟩
          · rintro ⟨ns, h⟩
            obtain ⟨ms, h⟩ := (lowers_call_iff.mp h).alike halike
            obtain ⟨ms', h⟩ := hdropped.lowersCall h
            exact ⟨ms', lowers_call_iff.mpr h⟩
          · rintro ⟨ns, h⟩
            obtain ⟨ms, h⟩ := hdropped.symm.lowersCall (lowers_call_iff.mp h)
            obtain ⟨ms', h⟩ := h.alike (forall₂_alike_symm halike)
            exact ⟨ms', lowers_call_iff.mpr h⟩

theorem assemble_of_forall₂_alike {name : String} {forest forest' : List Source} {p : Program}
    (h : List.Forall₂ forms.Alike forest forest')
    (hp : (forms.assemble name forest).result = .ok p) :
    (forms.assemble name forest').result = .ok p := by
  obtain ⟨ns, hns⟩ := exists_gives_iff.mpr hp
  obtain ⟨ms, rs, hforest, rfl, -⟩ := assemble_gives_iff.mp hns
  obtain ⟨ms', hforest'⟩ := hforest.alike h
  exact exists_gives_iff.mp ⟨_, assemble_gives_iff.mpr ⟨ms', rs, hforest', rfl, rfl⟩⟩

end Forms

open Forms

/-- **Arguments that are dropped cannot influence the program.**  Of two forests that are the same
but for what is dropped, at any depth, one is compiled exactly when the other is, and then to the
same program. -/
theorem compile_sameKept_iff (name : String) {forest forest' : List Source} (p : Program)
    (h : List.Forall₂ Forms.default.SameKept forest forest') :
    (compile name forest).result = .ok p ↔ (compile name forest').result = .ok p := by
  have halike : List.Forall₂ Forms.default.Alike forest forest' := h.imp fun _ _ => SameKept.alike
  exact ⟨assemble_of_forall₂_alike halike, assemble_of_forall₂_alike (forall₂_alike_symm halike)⟩

/-- The branch `(if x (def y x [z]) y x)` is compiled to what `(if x (def y x) y)` is compiled to,
and the function `(defn f [] x (return y z))` to what `(defn f [] (return z))` is. -/
theorem compile_sameKept_iff_each :
    let names : Source := .list [] .unknown
    let extra : Source := .list [.symbol "z"] .unknown
    let branch (value args : List Source) : Source :=
      .call "if" (.symbol "x" :: .call "def" (.symbol "y" :: .symbol "x" :: value) .unknown ::
        .symbol "y" :: args) .unknown
    let function (bodies values : List Source) : Source :=
      .call "defn" (.symbol "f" :: names ::
        (bodies ++ [.call "return" (values ++ [.symbol "z"]) .unknown])) .unknown
    let forest := [branch [extra] [.symbol "x"], function [.symbol "x"] [.symbol "y"]]
    let forest' := [branch [] [], function [] []]
    List.Forall₂ Forms.default.SameKept forest forest' ∧
      ∃ p, (compile "m" forest).result = .ok p ∧ (compile "m" forest').result = .ok p := by
  intro names extra branch function forest forest'
  have hsymbol : ∀ name, ∀ s ∈ [Source.symbol name] ++ [], Forms.default.Accepts s := by
    intro name s hs
    obtain rfl := List.mem_singleton.mp hs
    exact ⟨_, _, rfl⟩
  have hdefine : Forms.default.SameKept
      (.call "def" [.symbol "y", .symbol "x", extra] .unknown)
      (.call "def" [.symbol "y", .symbol "x"] .unknown) :=
    .call (forall₂_sameKept_refl ..) (.define rfl)
  have hret : Forms.default.SameKept (.call "return" [.symbol "y", .symbol "z"] .unknown)
      (.call "return" [.symbol "z"] .unknown) :=
    .call (forall₂_sameKept_refl ..) (SameButDropped.ret rfl (hsymbol "y"))
  have hbranch : Forms.default.SameKept (branch [extra] [.symbol "x"]) (branch [] []) :=
    .call (.cons (.refl ..) (.cons hdefine (forall₂_sameKept_refl ..)))
      (.condition rfl (hsymbol "x"))
  have hfunction : Forms.default.SameKept (function [.symbol "x"] [.symbol "y"])
      (function [] []) := by
    refine .call (.cons (.refl ..) (.cons (.refl ..) (.cons (.refl ..) (.cons hret .nil)))) ?_
    exact @SameButDropped.function Forms.default "defn" (.symbol "f") names
      (.call "return" [.symbol "z"] .unknown) none [.symbol "x"] [] rfl (documentedBy_none rfl)
      (documentedBy_none rfl) (hsymbol "x")
  have h : List.Forall₂ Forms.default.SameKept forest forest' :=
    .cons hbranch (.cons hfunction .nil)
  exact ⟨h, _, rfl, (compile_sameKept_iff "m" _ h).mp rfl⟩

end FormLower
