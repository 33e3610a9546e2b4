import FormLower.Proofs.Lowering.Steps
import FormLower.Proofs.Trees

/-! # The shape of lowered trees

Target trees allow more than lowering builds: a comparison may have more operators than operands,
a name may be stored to anywhere, a parameter may be any tree.  What is built is `Shaped`, whatever
the tables of forms say: the rules of lowering are gone through one by one.  Of a shaped tree every
tree below is in its place, `Placed`, which is what the printers of target trees rely on. -/

namespace FormLower
namespace Target

/-! ### Places in a tree -/

/-- A tree that occurs in `t`, together with the tree right above it and its number among the
children of that tree; `t` itself has none above it. -/
inductive Occurs (t : Target) : Option (Target × Nat) → Target → Prop
  | root : Occurs t none t
  | child {above : Option (Target × Nat)} {parent u : Target} {i : Nat} :
      Occurs t above parent → parent.children[i]? = some u → Occurs t (some (parent, i)) u

/-- A tree is as it has to be, and stands where it has to. -/
structure Placed (above : Option (Target × Nat)) (u : Target) : Prop where
  /-- A comparison has as many operators as operands after the first, one at least, and they are
  all the same. -/
  compare : ∀ left ops comparators l, u = .compare left ops comparators l →
    comparators ≠ [] ∧ ∃ op, ops = List.replicate comparators.length op
  /-- What is called is a name that is loaded. -/
  call : ∀ func args l, u = .call func args l → ∃ id l', func = .name id .load l'
  /-- What is assigned to is a name that is stored to. -/
  assign : ∀ target value l, u = .assign target value l → ∃ id l', target = .name id .store l'
  /-- Names are stored to nowhere else. -/
  store : ∀ id l, u = .name id .store l →
    ∃ target value l', above = some (.assign target value l', 0)
  /-- Every parameter is a name, so that none is missing among the names of the parameters. -/
  function : ∀ id params body l, u = .function id params body l →
    (∀ p ∈ params, ∃ name l', p = .name name .param l') ∧
      params.map identifier? = u.paramNames.map some
  /-- No other names are parameters. -/
  param : ∀ id l, u = .name id .param l →
    ∃ f params body l' i, above = some (.function f params body l', i) ∧ i < params.length
  /-- Output ends its line. -/
  print : ∀ values newline l, u = .print values newline l → newline = true
  /-- An expression stands for a statement only as the string at the beginning of a function. -/
  statement : ∀ value l, u = .statement value l →
    (∃ s l', value = .string s l') ∧
      ∃ f params body l', above = some (.function f params body l', params.length)

/-! ### Shaped trees -/

/-- The trees that are built for source trees. -/
inductive Shaped : Target → Prop
  | name (id : String) (l : Option Location) : Shaped (.name id .load l)
  | string (value : String) (l : Option Location) : Shaped (.string value l)
  | number (value : Number) (l : Option Location) : Shaped (.number value l)
  | call {id : String} {args : List Target} {l' l : Option Location} :
      (∀ a ∈ args, Shaped a) → Shaped (.call (.name id .load l') args l)
  | binary {left right : Target} {op : Arithmetic} {l : Option Location} :
      Shaped left → Shaped right → Shaped (.binary left op right l)
  | compare {left : Target} {op : Comparison} {comparators : List Target} {l : Option Location} :
      comparators ≠ [] → Shaped left → (∀ c ∈ comparators, Shaped c) →
      Shaped (.compare left (List.replicate comparators.length op) comparators l)
  | branch {test : Target} {body orelse : List Target} {l : Option Location} :
      Shaped test → (∀ s ∈ body, Shaped s) → (∀ s ∈ orelse, Shaped s) →
      Shaped (.branch test body orelse l)
  | ret {value : Target} {l : Option Location} : Shaped value → Shaped (.ret value l)
  | assign {id : String} {value : Target} {l' l : Option Location} :
      Shaped value → Shaped (.assign (.name id .store l') value l)
  | function {id : String} {params body : List Target} {doc : Option Target}
      {l : Option Location} :
      (∀ p ∈ params, ∃ name l', p = .name name .param l') →
      (∀ d, doc = some d → ∃ s l' l'', d = .statement (.string s l') l'') →
      (∀ s ∈ body, Shaped s) → Shaped (.function id params (doc.toList ++ body) l)
  | print {values : List Target} {l : Option Location} :
      (∀ v ∈ values, Shaped v) → Shaped (.print values true l)

/-- A shaped tree, or one of the three kinds of tree that stand only right below another. -/
inductive Fits : Option (Target × Nat) → Target → Prop
  | shaped {above : Option (Target × Nat)} {u : Target} : Shaped u → Fits above u
  | store {id : String} {target value : Target} {l l' : Option Location} :
      Fits (some (.assign target value l', 0)) (.name id .store l)
  | param {id f : String} {params body : List Target} {l l' : Option Location} {i : Nat} :
      i < params.length → Fits (some (.function f params body l', i)) (.name id .param l)
  | doc {f s : String} {params body : List Target} {l l' l'' : Option Location} :
      Fits (some (.function f params body l'', params.length)) (.statement (.string s l) l')

variable {above : Option (Target × Nat)} {t u : Target}

theorem Shaped.fits_child {i : Nat} (h : t.Shaped) (hi : t.children[i]? = some u) :
    Fits (some (t, i)) u := by
  have hmem : u ∈ t.children := List.mem_of_getElem? hi
  cases h with
  | name | string | number => simp [children] at hmem
  | call hargs =>
      rcases List.mem_cons.mp hmem with rfl | hmem
      · exact .shaped (.name _ _)
      · exact .shaped (hargs u hmem)
  | binary hleft hright =>
      rcases List.mem_cons.mp hmem with rfl | hmem
      · exact .shaped hleft
      · obtain rfl := List.mem_singleton.mp hmem
        exact .shaped hright
  | compare _ hleft hcomparators =>
      rcases List.mem_cons.mp hmem with rfl | hmem
      · exact .shaped hleft
      · exact .shaped (hcomparators u hmem)
  | branch htest hbody horelse =>
      rcases List.mem_cons.mp hmem with rfl | hmem
      · exact .shaped htest
      · rcases List.mem_append.mp hmem with hmem | hmem
        · exact .shaped (hbody u hmem)
        · exact .shaped (horelse u hmem)
  | ret hvalue =>
      obtain rfl := List.mem_singleton.mp hmem
      exact .shaped hvalue
  | assign hvalue =>
      cases i with
      | zero =>
          obtain rfl := Option.some.inj hi
          exact .store
      | succ i =>
          obtain rfl := List.mem_singleton.mp (List.mem_of_getElem? (List.getElem?_cons_succ ▸ hi))
          exact .shaped hvalue
  | @function id params body doc l hparams hdoc hbody =>
      change (params ++ (doc.toList ++ body))[i]? = some u at hi
      by_cases hlt : i < params.length
      · rw [List.getElem?_append_left hlt] at hi
        obtain ⟨name, l', rfl⟩ := hparams u (List.mem_of_getElem? hi)
        exact .param hlt
      · have hge : params.length ≤ i := Nat.not_lt.mp hlt
        rw [List.getElem?_append_right hge] at hi
        cases doc with
        | none => exact .shaped (hbody u (List.mem_of_getElem? hi))
        | some d =>
            by_cases hfirst : i = params.length
            · subst hfirst
              rw [Nat.sub_self] at hi
              obtain rfl : d = u := Option.some.inj hi
              obtain ⟨s, l', l'', rfl⟩ := hdoc d rfl
              exact .doc
            · obtain ⟨j, hj⟩ : ∃ j, i - params.length = j + 1 := ⟨i - params.length - 1, by omega⟩
              rw [hj] at hi
              exact .shaped (hbody u (List.mem_of_getElem? hi))
  | print hvalues => exact .shaped (hvalues u hmem)

theorem Occurs.fits (h : t.Occurs above u) (ht : t.Shaped) : Fits above u := by
  induction h with
  | root => exact .shaped ht
  | @child above parent u i _ hi ih =>
      cases ih with
      | shaped hparent => exact hparent.fits_child hi
      | store => simp [children] at hi
      | param _ => simp [children] at hi
      | doc =>
          obtain rfl := List.mem_singleton.mp (List.mem_of_getElem? hi)
          exact .shaped (.string _ _)

theorem map_identifier?_of_names {params : List Target}
    (h : ∀ p ∈ params, ∃ name l, p = .name name .param l) :
    params.map identifier? = (params.filterMap identifier?).map some := by
  induction params with
  | nil => rfl
  | cons p params ih =>
      obtain ⟨⟨name, l, rfl⟩, hparams⟩ := List.forall_mem_cons.mp h
      rw [List.map_cons, ih hparams]
      rfl

theorem Fits.placed (h : Fits above u) : Placed above u where
  compare := by
    rintro left ops comparators l rfl
    cases h with
    | shaped h =>
        cases h with
        | compare hne _ _ => exact ⟨hne, _, rfl⟩
  call := by
    rintro func args l rfl
    cases h with
    | shaped h =>
        cases h with
        | call _ => exact ⟨_, _, rfl⟩
  assign := by
    rintro target value l rfl
    cases h with
    | shaped h =>
        cases h with
        | assign _ => exact ⟨_, _, rfl⟩
  store := by
    rintro id l rfl
    cases h with
    | shaped h => cases h
    | store => exact ⟨_, _, _, rfl⟩
  function := by
    rintro id params body l rfl
    cases h with
    | shaped h =>
        cases h with
        | function hparams _ _ => exact ⟨hparams, map_identifier?_of_names hparams⟩
  param := by
    rintro id l rfl
    cases h with
    | shaped h => cases h
    | param hi => exact ⟨_, _, _, _, _, rfl, hi⟩
  print := by
    rintro values newline l rfl
    cases h with
    | shaped h =>
        cases h with
        | print _ => rfl
  statement := by
    rintro value l rfl
    cases h with
    | shaped h => cases h
    | doc => exact ⟨⟨_, _, rfl⟩, _, _, _, _, rfl⟩

theorem Shaped.foldl_binary {op : Arithmetic} {l : Option Location} {ts : List Target}
    (ht : t.Shaped) (hts : ∀ u ∈ ts, u.Shaped) :
    (ts.foldl (fun left right => .binary left op right l) t).Shaped := by
  induction ts generalizing t with
  | nil => exact ht
  | cons u ts ih =>
      obtain ⟨hu, hts⟩ := List.forall_mem_cons.mp hts
      exact ih (.binary ht hu) hts

end Target

/-! ### Lowering -/

/-- All statements that something lowered stands for are shaped. -/
def Lowered.Shaped (r : Lowered) : Prop := ∀ t ∈ r.statements, t.Shaped

theorem Lowered.shaped_single_iff {t : Target} : (Lowered.single t).Shaped ↔ t.Shaped := by
  simp [Shaped, statements]

theorem Leaf.shaped_lower (value : Leaf) (l : Option Location) : (value.lower l).Shaped := by
  cases value with
  | symbol name => exact .name name l
  | string value => exact .string value l
  | number value => exact .number value l
  | bool value => exact .name (boolName value) l

namespace Forms

variable {forms : Forms}

theorem LowersAll.shaped {ss : List Source} {ns : List Notice} {rs : List Lowered}
    (h : forms.LowersAll ss ns rs)
    (ih : ∀ s ∈ ss, ∀ ns r, forms.Lowers s ns r → r.Shaped) : ∀ r ∈ rs, r.Shaped := by
  induction h with
  | nil => simp
  | cons hs _ ihss =>
      obtain ⟨ihs, ihrest⟩ := List.forall_mem_cons.mp ih
      exact List.forall_mem_cons.mpr ⟨ihs _ _ hs, ihss ihrest⟩

theorem LowersAll.shaped_single {ss : List Source} {ns : List Notice} {ts : List Target}
    (h : forms.LowersAll ss ns (ts.map .single))
    (ih : ∀ s ∈ ss, ∀ ns r, forms.Lowers s ns r → r.Shaped) : ∀ t ∈ ts, t.Shaped := by
  intro t ht
  exact Lowered.shaped_single_iff.mp (h.shaped ih (.single t) (List.mem_map_of_mem ht))

/-- **Whatever the tables say, a tree is lowered to shaped trees.** -/
theorem Lowers.shaped {s : Source} {ns : List Notice} {r : Lowered} (h : forms.Lowers s ns r) :
    r.Shaped := by
  induction s generalizing ns r with
  | leaf value place =>
      obtain ⟨-, rfl⟩ := lowers_leaf_iff.mp h
      exact Lowered.shaped_single_iff.mpr (value.shaped_lower _)
  | list elements place _ => exact absurd h not_lowers_list
  | call head args place ih =>
      have ih' : ∀ a ∈ args, ∀ ns r, forms.Lowers a ns r → r.Shaped :=
        fun a ha ns r ha' => ih a ha ha'
      cases lowers_call_iff.mp h with
      | call _ hargs => exact Lowered.shaped_single_iff.mpr (.call (hargs.shaped_single ih'))
      | @define n value extra _ t _ _ hvalue =>
          have ht := Lowered.shaped_single_iff.mp (ih value (by simp) hvalue)
          exact Lowered.shaped_single_iff.mpr (.assign ht)
      | @function sig _ earlier last _ _ _ b _ hs _ hlast =>
          have hb := ih last (by simp) hlast
          refine Lowered.shaped_single_iff.mpr (.function ?_ ?_ hb)
          · intro p hp
            obtain ⟨n, _, rfl⟩ := List.mem_map.mp hp
            exact ⟨_, _, rfl⟩
          · intro d hd
            obtain ⟨s, _, rfl⟩ := Option.map_eq_some_iff.mp hd
            exact ⟨_, _, _, rfl⟩
      | skip _ => simp [Lowered.Shaped, Lowered.statements]
      | print _ hargs => exact Lowered.shaped_single_iff.mpr (.print (hargs.shaped_single ih'))
      | arithmetic _ _ hargs =>
          obtain ⟨ht, hts⟩ := List.forall_mem_cons.mp (hargs.shaped_single ih')
          exact Lowered.shaped_single_iff.mpr (ht.foldl_binary hts)
      | comparison _ _ hargs =>
          obtain ⟨ht, hts⟩ := List.forall_mem_cons.mp (hargs.shaped_single ih')
          exact Lowered.shaped_single_iff.mpr (.compare (List.cons_ne_nil _ _) ht hts)
      | condition _ hargs =>
          obtain ⟨ht, hrest⟩ := List.forall_mem_cons.mp (hargs.shaped ih')
          obtain ⟨hbody, hrest⟩ := List.forall_mem_cons.mp hrest
          obtain ⟨horelse, -⟩ := List.forall_mem_cons.mp hrest
          exact Lowered.shaped_single_iff.mpr
            (.branch (Lowered.shaped_single_iff.mp ht) hbody horelse)
      | sequence _ hargs =>
          intro t ht
          obtain ⟨r, hr, ht⟩ := List.mem_flatMap.mp ht
          exact hargs.shaped ih' r hr t ht
      | ret _ hargs =>
          have ht := hargs.shaped ih' _ (List.mem_append_right _ List.mem_cons_self)
          exact Lowered.shaped_single_iff.mpr (.ret (Lowered.shaped_single_iff.mp ht))
      | drop _ _ => simp [Lowered.Shaped, Lowered.statements]

end Forms

/-- **Every tree in what a tree is lowered to is in its place, whatever the tables say.** -/
theorem lower_placed (forms : Forms) {s : Source} {r : Lowered}
    (h : (forms.lower s).result = .ok r) {t u : Target} (ht : t ∈ r.statements)
    {above : Option (Target × Nat)} (hu : t.Occurs above u) : u.Placed above := by
  obtain ⟨ns, hs⟩ := Run.exists_gives_iff.mpr h
  have hshaped : t.Shaped := Forms.Lowers.shaped hs t ht
  exact (hu.fits hshaped).placed

/-- With `let` for definitions, `(let x y)` stores to `x`. -/
theorem lower_placed_let :
    let forms := Forms.default.addStructural "let" .define
    let t : Target := .assign (.name "x" .store none) (.name "y" .load none) none
    (forms.lower (.call "let" [.symbol "x", .symbol "y"] .unknown)).result = .ok (.single t) ∧
      (Target.name "x" .store none).Placed (some (t, 0)) := by
  intro forms t
  have h : (forms.lower (.call "let" [.symbol "x", .symbol "y"] .unknown)).result =
      .ok (.single t) := rfl
  exact ⟨h, lower_placed forms h List.mem_cons_self (.child .root rfl)⟩

end FormLower
