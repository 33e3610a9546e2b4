import FormLower.Proofs.Inheritance
import FormLower.Proofs.Lowering.Locality
import FormLower.Proofs.Lowering.Provenance

/-! # Operators and the forms that need them

An operation takes its operator from the name it is called under, so that the tables of forms and
the operators have to agree: a form for operations must not stand under a name that is no operator.
The tables of the language agree (`operatorsNamed_default`), and they go on to do so however they
are edited, as long as a form for operations is only put under an operator of its kind
(`OperatorsNamed.edit`).  With such tables no tree fails for want of an operator, and whatever
operator a program applies is that of a head in its source (`operators_stay_bound`). -/

namespace FormLower

/-! ### Edited tables -/

namespace Forms

variable {forms : Forms}

/-- A form that needs an operator stands only under a name of one. -/
def OperatorsNamed (forms : Forms) : Prop :=
  ∀ name form, forms.special.get? name = some form → form.hasOperator name

theorem operatorsNamed_default : default.OperatorsNamed := by
  intro name form h
  cases form with
  | arithmetic =>
      have hhead : name ∈ arithmeticHeads := by grind [default_special_get?]
      exact Option.isSome_iff_exists.mpr (Arithmetic.exists_ofSymbol?_iff.mpr hhead)
  | comparison =>
      have hhead : name ∈ comparisonHeads := by grind [default_special_get?]
      exact Option.isSome_iff_exists.mpr (Comparison.exists_ofSymbol?_iff.mpr hhead)
  | print | condition | sequence | ret | skip => rfl

theorem OperatorsNamed.change {name : String} {c : Change} (h : forms.OperatorsNamed)
    (hc : ∀ form, c = .addSpecial form → form.hasOperator name) :
    (forms.change name c).OperatorsNamed := by
  intro key form hget
  cases c with
  | addStructural _ | removeStructural => exact h key form hget
  | addSpecial added =>
      simp only [Forms.change, addSpecial, Table.get?_insert] at hget
      split at hget
      · next hkey =>
          cases hget
          rw [hkey]
          exact hc form rfl
      · exact h key form hget
  | removeSpecial =>
      simp only [Forms.change, Table.get?_erase] at hget
      split at hget
      · cases hget
      · exact h key form hget

/-- **Edits that put forms only under operators they can use leave the tables in agreement.** -/
theorem OperatorsNamed.edit {edits : List (String × Change)} (h : forms.OperatorsNamed)
    (hedits : ∀ name form, (name, Change.addSpecial form) ∈ edits → form.hasOperator name) :
    (forms.edit edits).OperatorsNamed := by
  induction edits generalizing forms with
  | nil => exact h
  | cons e edits ih =>
      apply ih
      · apply h.change
        intro form he
        exact hedits e.1 form (he ▸ List.mem_cons_self)
      · intro name form hmem
        exact hedits name form (List.mem_cons_of_mem e hmem)

/-! ### Operators that are missing -/

theorem kind_inside (form : String) (e : LoweringError) : (e.inside form).kind = e.kind := by
  unfold LoweringError.inside
  cases e.form <;> rfl

/-- A missing operator is that of a head in the tree, which stands for a form that needs it. -/
theorem exists_head_of_unbound {s : Source} {e : LoweringError} (h : (forms.lower s).Fails e)
    (hkind : e.kind = .unboundOperator) :
    ∃ head form, forms.meaning head = .special form ∧ form.hasOperator head = false := by
  induction s generalizing e with
  | leaf value place => exact absurd h not_fails_leaf
  | list elements place _ =>
      rw [fails_list_iff.mp h] at hkind
      cases hkind
  | call head args place ih =>
      cases fails_call_iff.mp h with
      | argument hasks hfails =>
          obtain ⟨before, a, after, e', rfl, -, ha, rfl⟩ := hfails
          rw [kind_inside] at hkind
          exact ih a (hasks.sublist.subset (by simp)) ha hkind
      | @special form _ _ _ _ hm _ hrefuses =>
          cases hrefuses with
          | unbound hnone => exact ⟨head, form, hm, hnone⟩
          | few _ _ => cases hkind
          | sequence _ _ _ _ => cases hkind
      | define _ hread => cases hread <;> cases hkind
      | function _ hread => cases hread <;> cases hkind
      | operand _ _ _ _ => cases hkind
      | value _ _ _ _ => cases hkind
      | undone _ _ _ => cases hkind

/-- **With tables in agreement no tree fails for want of an operator.** -/
theorem OperatorsNamed.kind_ne {s : Source} {e : LoweringError} (hforms : forms.OperatorsNamed)
    (h : (forms.lower s).Fails e) : e.kind ≠ .unboundOperator := by
  intro hkind
  obtain ⟨head, form, hm, hnone⟩ := exists_head_of_unbound h hkind
  have hnamed := hforms head form (meaning_eq_special_iff.mp hm).2
  rw [hnone] at hnamed
  cases hnamed

/-- The operator is looked for before the arguments are counted or looked at. -/
theorem fails_of_unbound {head : String} {form : SpecialForm} {args : List Source} {place : Place}
    (hm : forms.meaning head = .special form) (hnone : form.hasOperator head = false)
    (hargs : ∀ a ∈ args, forms.Accepts a) :
    (forms.lower (.call head args place)).Fails (Site.unboundOperator ⟨head, place⟩) := by
  obtain ⟨ns, rs, hall⟩ := exists_lowersAll_iff_accepts.mpr hargs
  exact fails_call_iff.mpr (.special hm hall (.unbound hnone))

end Forms

/-! ### Operators that are applied -/

namespace Target

/-- The operator of a tree, if it is an operation, is that of one of some heads. -/
structure OperatorNamed (forms : Forms) (heads : String → Prop) (u : Target) : Prop where
  binary : ∀ left op right l, u = .binary left op right l → ∃ head, heads head ∧
    forms.meaning head = .special .arithmetic ∧ Arithmetic.ofSymbol? head = some op
  /-- A comparison applies one operator throughout. -/
  compare : ∀ left ops comparators l, u = .compare left ops comparators l →
    ∃ head op, heads head ∧ forms.meaning head = .special .comparison ∧
      Comparison.ofSymbol? head = some op ∧ ops = List.replicate comparators.length op

variable {forms : Forms} {heads heads' : String → Prop} {t u : Target}

theorem OperatorNamed.mono (h : u.OperatorNamed forms heads)
    (hheads : ∀ head, heads head → heads' head) : u.OperatorNamed forms heads' where
  binary left op right l hu := by
    obtain ⟨head, hhead, hop⟩ := h.binary left op right l hu
    exact ⟨head, hheads head hhead, hop⟩
  compare left ops comparators l hu := by
    obtain ⟨head, op, hhead, hop⟩ := h.compare left ops comparators l hu
    exact ⟨head, op, hheads head hhead, hop⟩

theorem operatorNamed_of_isOperation (h : u.isOperation = false) :
    u.OperatorNamed forms heads where
  binary left op right l hu := by
    rw [hu] at h
    cases h
  compare left ops comparators l hu := by
    rw [hu] at h
    cases h

theorem OperatorNamed.inherit (h : u.OperatorNamed forms heads) (above : Location) :
    (u.inherit above).OperatorNamed forms heads := by
  cases u with
  | binary left op right l =>
      refine ⟨fun left' op' right' l' heq => ?_, fun _ _ _ _ heq => by cases heq⟩
      cases heq
      exact h.binary left op right l rfl
  | compare left ops comparators l =>
      refine ⟨fun _ _ _ _ heq => (by cases heq), fun left' ops' comparators' l' heq => ?_⟩
      cases heq
      rw [inheritAll_eq_map, List.length_map]
      exact h.compare left ops comparators l rfl
  | name | string | number | call | branch | ret | assign | function | print | statement =>
      exact operatorNamed_of_isOperation rfl

/-- Every operator in a tree is that of one of some heads. -/
def OperatorsFrom (forms : Forms) (heads : String → Prop) (t : Target) : Prop :=
  ∀ u ∈ t.nodes, u.OperatorNamed forms heads

theorem operatorsFrom_iff : t.OperatorsFrom forms heads ↔
    t.OperatorNamed forms heads ∧ ∀ c ∈ t.children, c.OperatorsFrom forms heads := by
  unfold OperatorsFrom
  rw [nodes_eq, List.forall_mem_cons, List.forall_mem_flatMap]

theorem operatorsFrom_of_children (h : t.isOperation = false)
    (hchildren : ∀ c ∈ t.children, c.OperatorsFrom forms heads) : t.OperatorsFrom forms heads :=
  operatorsFrom_iff.mpr ⟨operatorNamed_of_isOperation h, hchildren⟩

theorem OperatorsFrom.inherit (h : t.OperatorsFrom forms heads) (above : Location) :
    (t.inherit above).OperatorsFrom forms heads := by
  intro u hu
  obtain ⟨v, hv, here, rfl⟩ := mem_nodes_inherit hu
  exact (h v hv).inherit here

theorem operatorsFrom_foldl_binary {head : String} {op : Arithmetic} {l : Option Location}
    {ts : List Target} (hhead : heads head) (hm : forms.meaning head = .special .arithmetic)
    (hop : Arithmetic.ofSymbol? head = some op) (ht : t.OperatorsFrom forms heads)
    (hts : ∀ u ∈ ts, u.OperatorsFrom forms heads) :
    (ts.foldl (fun left right => .binary left op right l) t).OperatorsFrom forms heads := by
  induction ts generalizing t with
  | nil => exact ht
  | cons u ts ih =>
      obtain ⟨hu, hts⟩ := List.forall_mem_cons.mp hts
      refine ih (operatorsFrom_iff.mpr ⟨⟨?_, fun _ _ _ _ heq => by cases heq⟩, ?_⟩) hts
      · intro left op' right l' heq
        cases heq
        exact ⟨head, hhead, hm, hop⟩
      · simp [children, ht, hu]

end Target

/-! ### Operators that lowering applies -/

/-- A head of a call in a tree. -/
def Source.HasHead (s : Source) (head : String) : Prop := ∃ k ∈ s.nodes, k.head? = some head

theorem Source.HasHead.above {s c : Source} {head : String} (h : c.HasHead head)
    (hc : c ∈ s.children) : s.HasHead head := by
  obtain ⟨k, hk, hhead⟩ := h
  exact ⟨k, mem_nodes_of_child hc hk, hhead⟩

namespace Forms

variable {forms : Forms} {heads : String → Prop}

open Target

theorem LowersAll.operatorsFrom {ss : List Source} {ns : List Notice} {rs : List Lowered}
    (h : forms.LowersAll ss ns rs)
    (ih : ∀ s ∈ ss, ∀ ns r, forms.Lowers s ns r →
      ∀ t ∈ r.statements, t.OperatorsFrom forms heads) :
    ∀ r ∈ rs, ∀ t ∈ r.statements, t.OperatorsFrom forms heads := by
  induction h with
  | nil => simp
  | cons hs _ ihss =>
      obtain ⟨ihs, ihrest⟩ := List.forall_mem_cons.mp ih
      exact List.forall_mem_cons.mpr ⟨ihs _ _ hs, ihss ihrest⟩

/-- **Every operator that lowering applies is that of a head in the source**, which stands for
operations of its kind. -/
theorem Lowers.operatorsFrom {s : Source} {ns : List Notice} {r : Lowered}
    (h : forms.Lowers s ns r) : ∀ t ∈ r.statements, t.OperatorsFrom forms s.HasHead := by
  induction s generalizing ns r with
  | leaf value place =>
      obtain ⟨-, rfl⟩ := lowers_leaf_iff.mp h
      refine List.forall_mem_singleton.mpr (operatorsFrom_of_children ?_ ?_)
      · cases value <;> rfl
      · cases value <;> simp [Leaf.lower, children]
  | list elements place _ => exact absurd h not_lowers_list
  | call head args place ih =>
      have hhead : (Source.call head args place).HasHead head :=
        ⟨_, Source.self_mem_nodes _, rfl⟩
      -- The heads in an argument are heads in the call.
      have ih' : ∀ a ∈ args, ∀ ns r, forms.Lowers a ns r →
          ∀ t ∈ r.statements, t.OperatorsFrom forms (Source.call head args place).HasHead :=
        fun a ha ns r hr t ht u hu => (ih a ha hr t ht u hu).mono fun _ hk => hk.above ha
      have hall {ms : List Notice} {ts : List Target}
          (hts : forms.LowersAll args ms (ts.map .single)) :
          ∀ t ∈ ts, t.OperatorsFrom forms (Source.call head args place).HasHead :=
        fun t ht => hts.operatorsFrom ih' _ (List.mem_map_of_mem ht) t List.mem_cons_self
      cases lowers_call_iff.mp h with
      | call _ hargs =>
          refine List.forall_mem_singleton.mpr (operatorsFrom_of_children rfl ?_)
          refine List.forall_mem_cons.mpr ⟨?_, hall hargs⟩
          exact operatorsFrom_of_children rfl (by simp [children])
      | @define n value extra _ t _ _ hvalue =>
          refine List.forall_mem_singleton.mpr (operatorsFrom_of_children rfl ?_)
          refine List.forall_mem_cons.mpr ⟨?_, List.forall_mem_singleton.mpr ?_⟩
          · exact operatorsFrom_of_children rfl (by simp [children, StructuralForm.bound])
          · exact ih' value (by simp) _ _ hvalue t List.mem_cons_self
      | @function sig _ earlier last _ _ _ b _ _ _ hlast =>
          refine List.forall_mem_singleton.mpr (operatorsFrom_of_children rfl ?_)
          refine List.forall_mem_append.mpr ⟨?_, List.forall_mem_append.mpr ⟨?_, ?_⟩⟩
          · intro p hp
            obtain ⟨n, _, rfl⟩ := List.mem_map.mp hp
            exact operatorsFrom_of_children rfl (by simp [children, StructuralForm.bound])
          · intro d hd
            obtain ⟨doc, _, rfl⟩ := Option.map_eq_some_iff.mp (Option.mem_toList.mp hd)
            refine operatorsFrom_of_children rfl (List.forall_mem_singleton.mpr ?_)
            exact operatorsFrom_of_children rfl (by simp [children])
          · exact ih' last (by simp) _ _ hlast
      | skip _ => simp [Lowered.statements]
      | print _ hargs =>
          exact List.forall_mem_singleton.mpr (operatorsFrom_of_children rfl (hall hargs))
      | arithmetic hm hop hargs =>
          obtain ⟨ht, hts⟩ := List.forall_mem_cons.mp (hall hargs)
          exact List.forall_mem_singleton.mpr (operatorsFrom_foldl_binary hhead hm hop ht hts)
      | comparison hm hop hargs =>
          refine List.forall_mem_singleton.mpr
            (operatorsFrom_iff.mpr ⟨⟨?_, ?_⟩, hall hargs⟩)
          · intro _ _ _ _ heq
            cases heq
          · intro _ _ _ _ heq
            cases heq
            exact ⟨head, _, hhead, hm, hop, rfl⟩
      | condition _ hargs =>
          obtain ⟨ht, hrest⟩ := List.forall_mem_cons.mp (hargs.operatorsFrom ih')
          obtain ⟨hbody, hrest⟩ := List.forall_mem_cons.mp hrest
          obtain ⟨horelse, -⟩ := List.forall_mem_cons.mp hrest
          refine List.forall_mem_singleton.mpr (operatorsFrom_of_children rfl ?_)
          exact List.forall_mem_cons.mpr
            ⟨ht _ List.mem_cons_self, List.forall_mem_append.mpr ⟨hbody, horelse⟩⟩
      | sequence _ hargs => exact List.forall_mem_flatMap.mpr (hargs.operatorsFrom ih')
      | ret _ hargs =>
          have ht := hargs.operatorsFrom ih' _ (List.mem_append_right _ List.mem_cons_self)
          exact List.forall_mem_singleton.mpr (operatorsFrom_of_children rfl ht)
      | drop _ _ => simp [Lowered.statements]

end Forms

/-! ### Programs -/

namespace Forms

variable {forms : Forms} {name : String} {forest : List Source}

/-- Programs are not assembled for the reason that one of their trees is not lowered. -/
theorem exists_fails_of_assemble {e : LoweringError}
    (h : (forms.assemble name forest).result = .error e) :
    ∃ s ∈ forest, (forms.lower s).Fails e := by
  rw [forms.result_assemble] at h
  cases hbody : (forms.lowerForest forest).result with
  | ok body =>
      rw [hbody] at h
      cases h
  | error e' =>
      rw [hbody] at h
      cases h
      exact fails_lowerForest hbody

theorem operatorNamed_of_assemble {p : Program}
    (h : (forms.assemble name forest).result = .ok p) :
    ∀ u ∈ Target.nodesAll p.body,
      u.OperatorNamed forms fun head => ∃ k ∈ Source.nodesAll forest, k.head? = some head := by
  obtain ⟨ns, hgives⟩ := Run.exists_gives_iff.mpr h
  obtain ⟨ms, rs, hforest, rfl, -⟩ := assemble_gives_iff.mp hgives
  have hheads {s : Source} (hs : s ∈ forest) (head : String) (hhead : s.HasHead head) :
      ∃ k ∈ Source.nodesAll forest, k.head? = some head := by
    obtain ⟨k, hk, hhead⟩ := hhead
    rw [Source.nodesAll_eq_flatMap]
    exact ⟨k, List.mem_flatMap.mpr ⟨s, hs, hk⟩, hhead⟩
  have hall := hforest.operatorsFrom fun s hs _ _ hr t ht u hu =>
    (hr.operatorsFrom t ht u hu).mono (hheads hs)
  rw [Target.nodesAll_eq_flatMap, List.forall_mem_flatMap]
  intro t ht
  obtain ⟨v, hv, rfl⟩ := List.mem_map.mp ht
  exact Target.OperatorsFrom.inherit (List.forall_mem_flatMap.mpr hall v hv) _

end Forms

/-- **Operators and forms do not drift apart.**  However the tables of the language are edited, if
forms for operations are put only under operators of their kind, no forest fails for want of an
operator, and every operation of a program applies the operator of a head in its source.  With any
tables, where a head that is no operator of the kind stands for operations, its calls fail and name
the head as soon as their arguments can be lowered, however many there are. -/
theorem operators_stay_bound (edits : List (String × Forms.Change))
    (hedits : ∀ name form, (name, Forms.Change.addSpecial form) ∈ edits →
      form.hasOperator name) :
    let forms := Forms.default.edit edits
    (∀ (name : String) (forest : List Source),
      (∀ e, (forms.assemble name forest).result = .error e →
        e.kind ≠ .unboundOperator ∧ e.level = .error) ∧
      ∀ p, (forms.assemble name forest).result = .ok p → ∀ u ∈ Target.nodesAll p.body,
        u.OperatorNamed forms fun head => ∃ k ∈ Source.nodesAll forest, k.head? = some head) ∧
    ∀ (forms : Forms) (head : String) (form : SpecialForm) (args : List Source) (place : Place),
      forms.structural.get? head = none → forms.special.get? head = some form →
      form.hasOperator head = false → (∀ a ∈ args, ∃ r, (forms.lower a).result = .ok r) →
      ∃ e, (forms.lower (.call head args place)).result = .error e ∧
        e.kind = .unboundOperator ∧ e.level = .critical ∧ e.form = some head ∧ e.place = place ∧
        e.message =
          "`" ++ head ++ "` was dispatched as an operator but has no operator table entry." := by
  intro forms
  have hnamed : forms.OperatorsNamed := Forms.operatorsNamed_default.edit hedits
  refine ⟨fun name forest => ⟨?_, ?_⟩, ?_⟩
  · intro e he
    obtain ⟨s, -, hfails⟩ := Forms.exists_fails_of_assemble he
    have hkind : e.kind ≠ .unboundOperator := hnamed.kind_ne hfails
    refine ⟨hkind, ?_⟩
    rw [LoweringError.level, if_neg hkind]
  · intro p hp
    exact Forms.operatorNamed_of_assemble hp
  · intro forms head form args place hstructural hspecial hnone hargs
    have hm : forms.meaning head = .special form := by
      rw [Forms.meaning_eq_special_iff]
      exact ⟨hstructural, hspecial⟩
    refine ⟨_, Forms.fails_of_unbound hm hnone fun a ha => ?_, rfl, rfl, rfl, rfl, rfl⟩
    obtain ⟨r, hr⟩ := hargs a ha
    obtain ⟨ns, hgives⟩ := Run.exists_gives_iff.mpr hr
    exact ⟨ns, r, hgives⟩

/-- With `+` taken away and given back and `unless` for a conditional, `(unless (< a b) (+ a b) c)`
is compiled, and both of its operations apply operators of its heads.  With `^` for arithmetic,
`(^ a)` lacks an operator, and it is this that is reported and not the second operand. -/
theorem operators_stay_bound_unless :
    let edits : List (String × Forms.Change) :=
      [("+", .removeSpecial), ("unless", .addSpecial .condition), ("+", .addSpecial .arithmetic)]
    let x (id : String) : Source := .symbol id
    let y (id : String) : Target := .name id .load (some ⟨"m", 1, 1⟩)
    let forest : List Source := [.call "unless" [.call "<" [x "a", x "b"] .unknown,
      .call "+" [x "a", x "b"] .unknown, x "c"] .unknown]
    let body : List Target := [.branch (.compare (y "a") [.lt] [y "b"] (some ⟨"m", 1, 1⟩))
      [.binary (y "a") .add (y "b") (some ⟨"m", 1, 1⟩)] [y "c"] (some ⟨"m", 1, 1⟩)]
    let power := Forms.default.addSpecial "^" .arithmetic
    (∀ name form, (name, Forms.Change.addSpecial form) ∈ edits → form.hasOperator name) ∧
      ((Forms.default.edit edits).assemble "m" forest).result = .ok ⟨"m", body⟩ ∧
      (∀ u ∈ Target.nodesAll body, u.OperatorNamed (Forms.default.edit edits) fun head =>
        ∃ k ∈ Source.nodesAll forest, k.head? = some head) ∧
      ∃ e, (power.lower (.call "^" [x "a"] .unknown)).result = .error e ∧
        e.kind = .unboundOperator ∧ e.form = some "^" := by
  intro edits x y forest body power
  have hedits : ∀ name form, (name, Forms.Change.addSpecial form) ∈ edits →
      form.hasOperator name := by
    intro name form hmem
    simp only [edits, List.mem_cons, Prod.mk.injEq, reduceCtorEq, and_false, false_or,
      Forms.Change.addSpecial.injEq, List.not_mem_nil, or_false] at hmem
    rcases hmem with ⟨rfl, rfl⟩ | ⟨rfl, rfl⟩ <;> rfl
  have h : ((Forms.default.edit edits).assemble "m" forest).result = .ok ⟨"m", body⟩ := rfl
  obtain ⟨hbound, hunbound⟩ := operators_stay_bound edits hedits
  obtain ⟨e, he, hkind, -, hform, -⟩ := hunbound power "^" .arithmetic [x "a"] .unknown rfl rfl rfl
    (List.forall_mem_singleton.mpr ⟨_, rfl⟩)
  exact ⟨hedits, h, (hbound "m" forest).2 _ h, e, he, hkind, hform⟩

end FormLower
