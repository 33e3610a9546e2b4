import FormLower.Proofs.Inheritance
import FormLower.Proofs.Lowering.Steps
import FormLower.Proofs.Surface.Spans
import Mathlib.Data.List.Forall2

/-! # Where target trees are located

Every tree that lowering builds is built from a tree of the source and located where that one is.
`Source.Builds` says tree by tree which it is, and says it without the tables of forms: whatever a
head stands for, a name that is stored to is located at its own token, a parameter at its own, a
documentation at its string, and every other tree at the leaf or the call that it was built from.
In a forest with locations throughout nothing is therefore left to be located. -/

namespace FormLower

/-! ### What is built from what -/

/-- The tree and all trees below it have locations. -/
def Source.Located (s : Source) : Prop := ∀ k ∈ s.nodes, k.location.isSome

/-- What is built from a source tree, and where each tree of it is located. -/
inductive Source.Builds : Source → Lowered → Prop
  | leaf (value : Leaf) (place : Place) :
      Builds (.leaf value place) (.single (value.lower place.location))
  | call {head : String} {args : List Source} {place : Place} {ts : List Target} :
      List.Forall₂ Builds args (ts.map .single) →
      Builds (.call head args place)
        (.single (.call (.name head .load place.location) ts place.location))
  | assign {head : String} {name : Reading.Named} {value : Source} {extra : List Source}
      {place : Place} {t : Target} :
      Reading.Names name → Builds value (.single t) →
      Builds (.call head (name.2 :: value :: extra) place)
        (.single (.assign (.name name.1 .store name.2.location) t place.location))
  | function {head : String} {name : Reading.Named} {params : List Reading.Named}
      {inner place : Place} {doc : Option Source} {earlier : List Source} {last : Source}
      {r : Lowered} :
      Reading.Names name → (∀ n ∈ params, Reading.Names n) → (∀ d, doc = some d → d.isString) →
      Builds last r →
      Builds
        (.call head (name.2 :: .list (params.map Prod.snd) inner ::
          (doc.toList ++ (earlier ++ [last]))) place)
        (.single (.function name.1 (params.map fun n => .name n.1 .param n.2.location)
          ((doc.map fun d => .statement (.string (d.rawText?.getD "") d.location)
            d.location).toList ++ r.statements) place.location))
  | print {head : String} {args : List Source} {place : Place} {ts : List Target} :
      List.Forall₂ Builds args (ts.map .single) →
      Builds (.call head args place) (.single (.print ts true place.location))
  | fold {head : String} {args : List Source} {place : Place} {op : Arithmetic} {t u : Target}
      {ts : List Target} :
      List.Forall₂ Builds args ((t :: u :: ts).map .single) →
      Builds (.call head args place)
        (.single ((u :: ts).foldl (fun l r => .binary l op r place.location) t))
  | compare {head : String} {args : List Source} {place : Place} {ops : List Comparison}
      {t : Target} {ts : List Target} :
      List.Forall₂ Builds args ((t :: ts).map .single) →
      Builds (.call head args place) (.single (.compare t ops ts place.location))
  | branch {head : String} {args : List Source} {place : Place} {t : Target}
      {body orelse : Lowered} {extra : List Lowered} :
      List.Forall₂ Builds args (.single t :: body :: orelse :: extra) →
      Builds (.call head args place)
        (.single (.branch t body.statements orelse.statements place.location))
  | ret {head : String} {args : List Source} {place : Place} {rs : List Lowered} {t : Target} :
      List.Forall₂ Builds args (rs ++ [.single t]) →
      Builds (.call head args place) (.single (.ret t place.location))
  | sequence {head : String} {args : List Source} {place : Place} {rs : List Lowered} :
      List.Forall₂ Builds args rs →
      Builds (.call head args place) (.sequence (rs.flatMap Lowered.statements))
  | nothing {head : String} {args : List Source} {place : Place} :
      Builds (.call head args place) (.sequence [])

namespace Forms

variable {forms : Forms}

theorem LowersAll.builds {ss : List Source} {ns : List Notice} {rs : List Lowered}
    (h : forms.LowersAll ss ns rs)
    (ih : ∀ s ∈ ss, ∀ ns r, forms.Lowers s ns r → s.Builds r) :
    List.Forall₂ Source.Builds ss rs := by
  induction h with
  | nil => exact .nil
  | cons hs _ ihss =>
      obtain ⟨ihs, ihrest⟩ := List.forall_mem_cons.mp ih
      exact .cons (ihs _ _ hs) (ihss ihrest)

/-- **Whatever the tables say, what a tree is lowered to is located as it is built.** -/
theorem Lowers.builds {s : Source} {ns : List Notice} {r : Lowered} (h : forms.Lowers s ns r) :
    s.Builds r := by
  induction s generalizing ns r with
  | leaf value place =>
      obtain ⟨-, rfl⟩ := lowers_leaf_iff.mp h
      exact .leaf value place
  | list elements place _ => exact absurd h not_lowers_list
  | call head args place ih =>
      have ih' : ∀ a ∈ args, ∀ ns r, forms.Lowers a ns r → a.Builds r :=
        fun a ha ns r ha' => ih a ha ha'
      cases lowers_call_iff.mp h with
      | call _ hargs => exact .call (hargs.builds ih')
      | @define n value extra _ t _ hn hvalue =>
          exact .assign hn (ih value (by simp) hvalue)
      | @function sig inner earlier last _ _ _ b _ hs _ hlast =>
          exact .function hs.name hs.params hs.doc (ih last (by simp) hlast)
      | skip _ => exact .nothing
      | print _ hargs => exact .print (hargs.builds ih')
      | arithmetic _ _ hargs => exact .fold (hargs.builds ih')
      | comparison _ _ hargs => exact .compare (hargs.builds ih')
      | condition _ hargs => exact .branch (hargs.builds ih')
      | sequence _ hargs => exact .sequence (hargs.builds ih')
      | ret _ hargs => exact .ret (hargs.builds ih')
      | drop _ _ => exact .nothing

end Forms

/-! ### What is built from located trees -/

/-- A tree that is built stands where the tree does that it comes from, and if it is a number, so
is that tree. -/
structure Target.ComesFrom (t : Target) (k : Source) : Prop where
  location : t.location = k.location
  number : ∀ v l, t = .number v l → ∃ place, k = .leaf (.number v) place

namespace Source

variable {s : Source} {r : Lowered}

theorem forall_mem_of_builds {ss : List Source} {rs : List Lowered} {P : Lowered → Prop}
    (h : List.Forall₂ Builds ss rs) (ih : ∀ s ∈ ss, ∀ r, s.Builds r → P r) : ∀ r ∈ rs, P r := by
  induction h with
  | nil => simp
  | cons hs _ ihss =>
      obtain ⟨ihs, ihrest⟩ := List.forall_mem_cons.mp ih
      exact List.forall_mem_cons.mpr ⟨ihs _ hs, ihss ihrest⟩

/-- Every tree in a target tree comes from a tree in the source tree. -/
def AccountsFor (s : Source) (t : Target) : Prop := ∀ u ∈ t.nodes, ∃ k ∈ s.nodes, u.ComesFrom k

section

variable {t : Target} {k : Source}

theorem accountsFor_of_children (hk : k ∈ s.nodes) (ht : t.ComesFrom k)
    (hchildren : ∀ c ∈ t.children, s.AccountsFor c) : s.AccountsFor t := by
  unfold AccountsFor
  rw [Target.nodes_eq, List.forall_mem_cons, List.forall_mem_flatMap]
  exact ⟨⟨k, hk, ht⟩, hchildren⟩

theorem AccountsFor.above {c : Source} (h : c.AccountsFor t) (hc : c ∈ s.children) :
    s.AccountsFor t := by
  intro u hu
  obtain ⟨k, hk, hfrom⟩ := h u hu
  exact ⟨k, mem_nodes_of_child hc hk, hfrom⟩

theorem accountsFor_name {id : String} {use : Use} (hk : k ∈ s.nodes) :
    s.AccountsFor (.name id use k.location) :=
  accountsFor_of_children hk ⟨rfl, by simp⟩ (by simp [Target.children])

/-- A call accounts for what is built at its own place from what it accounts for. -/
theorem accountsFor_call {head : String} {args : List Source} {place : Place}
    (hlocation : t.location = place.location) (hnumber : ∀ v l, t ≠ .number v l)
    (hchildren : ∀ c ∈ t.children, (call head args place).AccountsFor c) :
    (call head args place).AccountsFor t :=
  accountsFor_of_children (self_mem_nodes _) ⟨hlocation, fun v l h => absurd h (hnumber v l)⟩
    hchildren

end

theorem accountsFor_foldl_binary {head : String} {args : List Source} {place : Place}
    {op : Arithmetic} {t : Target} {ts : List Target} (ht : (call head args place).AccountsFor t)
    (hts : ∀ u ∈ ts, (call head args place).AccountsFor u) :
    (call head args place).AccountsFor
      (ts.foldl (fun left right => .binary left op right place.location) t) := by
  induction ts generalizing t with
  | nil => exact ht
  | cons u ts ih =>
      obtain ⟨hu, hts⟩ := List.forall_mem_cons.mp hts
      exact ih (accountsFor_call rfl (by simp) (by simp [Target.children, ht, hu])) hts

/-- A call accounts for a function: its name, its parameters and its documentation stand among the
arguments. -/
theorem accountsFor_function {head id : String} {args : List Source} {place : Place}
    {params : List Reading.Named} {inner : Place} {doc : Option Source} {body : List Target}
    (hlist : .list (params.map Prod.snd) inner ∈ args) (hdoc : ∀ d ∈ doc, d ∈ args)
    (hbody : ∀ t ∈ body, (call head args place).AccountsFor t) :
    (call head args place).AccountsFor
      (.function id (params.map fun n => .name n.1 .param n.2.location)
        ((doc.map fun d => .statement (.string (d.rawText?.getD "") d.location)
          d.location).toList ++ body) place.location) := by
  refine accountsFor_call rfl (by simp) (List.forall_mem_append.mpr
    ⟨?_, List.forall_mem_append.mpr ⟨?_, hbody⟩⟩)
  · intro t ht
    obtain ⟨n, hn, rfl⟩ := List.mem_map.mp ht
    have hchild : n.2 ∈ (list (params.map Prod.snd) inner).nodes :=
      mem_nodes_of_child (List.mem_map_of_mem hn) (self_mem_nodes n.2)
    exact accountsFor_name (mem_nodes_of_child hlist hchild)
  · intro t ht
    obtain ⟨d, hd, rfl⟩ := Option.map_eq_some_iff.mp (Option.mem_toList.mp ht)
    have hk : d ∈ (call head args place).nodes :=
      mem_nodes_of_child (hdoc d hd) (self_mem_nodes d)
    have hstring : (call head args place).AccountsFor
        (.string (d.rawText?.getD "") d.location) :=
      accountsFor_of_children hk ⟨rfl, by simp⟩ (by simp [Target.children])
    exact accountsFor_of_children hk ⟨rfl, by simp⟩ (List.forall_mem_singleton.mpr hstring)

theorem accountsFor_leaf (value : Leaf) (place : Place) :
    (leaf value place).AccountsFor (value.lower place.location) := by
  refine accountsFor_of_children (self_mem_nodes _) ⟨?_, ?_⟩ ?_
  · cases value <;> rfl
  · intro v l h
    cases value with
    | number v' =>
        cases h
        exact ⟨place, rfl⟩
    | symbol | string | bool => cases h
  · cases value <;> simp [Leaf.lower, Target.children]

theorem Builds.accountsFor (h : s.Builds r) : ∀ t ∈ r.statements, s.AccountsFor t := by
  induction s generalizing r with
  | leaf value place =>
      cases h
      exact List.forall_mem_singleton.mpr (accountsFor_leaf value place)
  | list elements place _ => cases h
  | call head args place ih =>
      -- What is built from the arguments is accounted for.
      have hall {rs : List Lowered} (hrs : List.Forall₂ Builds args rs) :
          ∀ r ∈ rs, ∀ t ∈ r.statements, (Source.call head args place).AccountsFor t :=
        forall_mem_of_builds hrs fun a ha r hr t ht => (ih a ha hr t ht).above ha
      have hsingles {ts : List Target} (hts : List.Forall₂ Builds args (ts.map .single)) :
          ∀ t ∈ ts, (Source.call head args place).AccountsFor t :=
        fun t ht => hall hts _ (List.mem_map_of_mem ht) t List.mem_cons_self
      cases h with
      | call hts =>
          refine List.forall_mem_singleton.mpr (accountsFor_call rfl (by simp) ?_)
          exact List.forall_mem_cons.mpr ⟨accountsFor_name (self_mem_nodes _), hsingles hts⟩
      | @assign _ name value extra _ t _ hvalue =>
          have ht := ih value (by simp) hvalue t List.mem_cons_self
          refine List.forall_mem_singleton.mpr (accountsFor_call rfl (by simp) ?_)
          refine List.forall_mem_cons.mpr ⟨accountsFor_name ?_, List.forall_mem_singleton.mpr ?_⟩
          · exact mem_nodes_of_child List.mem_cons_self (self_mem_nodes name.2)
          · exact ht.above (List.mem_cons_of_mem _ List.mem_cons_self)
      | @function _ name params inner _ doc earlier last r _ _ _ hlast =>
          have hbody := ih last (by simp) hlast
          have hlist := List.mem_cons_of_mem name.2 (List.mem_cons_self
            (a := Source.list (params.map Prod.snd) inner) (l := doc.toList ++ (earlier ++ [last])))
          refine List.forall_mem_singleton.mpr (accountsFor_function hlist ?_ ?_)
          · exact fun d hd => by simp [Option.mem_def.mp hd]
          · exact fun t ht => (hbody t ht).above (by simp [children])
      | print hts =>
          exact List.forall_mem_singleton.mpr (accountsFor_call rfl (by simp) (hsingles hts))
      | fold hts =>
          obtain ⟨ht, hts⟩ := List.forall_mem_cons.mp (hsingles hts)
          exact List.forall_mem_singleton.mpr (accountsFor_foldl_binary ht hts)
      | compare hts =>
          exact List.forall_mem_singleton.mpr (accountsFor_call rfl (by simp) (hsingles hts))
      | branch hrs =>
          obtain ⟨ht, hrest⟩ := List.forall_mem_cons.mp (hall hrs)
          obtain ⟨hbody, hrest⟩ := List.forall_mem_cons.mp hrest
          obtain ⟨horelse, -⟩ := List.forall_mem_cons.mp hrest
          refine List.forall_mem_singleton.mpr (accountsFor_call rfl (by simp) ?_)
          exact List.forall_mem_cons.mpr
            ⟨ht _ List.mem_cons_self, List.forall_mem_append.mpr ⟨hbody, horelse⟩⟩
      | ret hrs =>
          have ht := hall hrs _ (List.mem_append_right _ List.mem_cons_self) _ List.mem_cons_self
          exact List.forall_mem_singleton.mpr
            (accountsFor_call rfl (by simp) (List.forall_mem_singleton.mpr ht))
      | sequence hrs => exact List.forall_mem_flatMap.mpr (hall hrs)
      | nothing => simp [Lowered.statements]

theorem Builds.isLocated (h : s.Builds r) (hs : s.Located) : ∀ t ∈ r.statements, t.isLocated := by
  intro t ht
  refine Target.isLocated_of_nodes fun u hu => ?_
  obtain ⟨k, hk, hfrom⟩ := h.accountsFor t ht u hu
  rw [hfrom.location]
  exact hs k hk

end Source

/-! ### Forests -/

theorem Script.located_of_read {script : Script} {forest : List Source}
    (h : script.read = .ok forest) : ∀ s ∈ forest, s.Located := by
  obtain ⟨ts, ds, ⟨q, hscan⟩, hgroups, htrees⟩ := read_eq_ok_iff.mp h
  obtain ⟨hexact, -⟩ := exact_of_groups hgroups ⟨[], rfl, rfl⟩ hscan htrees
  intro s hs k hk
  have hmem : k ∈ Source.nodesAll forest := by
    rw [Source.nodesAll_eq_flatMap]
    exact List.mem_flatMap.mpr ⟨s, hs, hk⟩
  rw [Source.location, (hexact k hmem).place]
  rfl

/-- **A forest with locations throughout, such as every forest that is read, is assembled with
nothing left to be located.**  Whatever the tables say, every tree of the body is located where the
tree is that it was built from, so that it inherits nothing and does not depend on the name of the
program. -/
theorem assemble_located (forms : Forms) :
    (∀ (script : Script) (forest : List Source), script.read = .ok forest →
      ∀ s ∈ forest, s.Located) ∧
    ∀ (name : String) (forest : List Source) (p : Program), (∀ s ∈ forest, s.Located) →
      (forms.assemble name forest).result = .ok p →
      ∃ rs body, List.Forall₂ Source.Builds forest rs ∧ body = rs.flatMap Lowered.statements ∧
        (forms.lowerForest forest).result = .ok body ∧ (∀ t ∈ body, t.isLocated) ∧
        (∀ above, body.map (Target.inherit above) = body) ∧
        ∀ name', (forms.assemble name' forest).result = .ok ⟨name', body⟩ := by
  refine ⟨fun _ _ => Script.located_of_read, fun name forest p hlocated h => ?_⟩
  rw [forms.result_assemble] at h
  cases hbody : (forms.lowerForest forest).result with
  | error e =>
      rw [hbody] at h
      cases h
  | ok body =>
      obtain ⟨ns, hgives⟩ := Run.exists_gives_iff.mpr hbody
      obtain ⟨rs, hforest, rfl⟩ := Forms.gives_lowerForest.mp hgives
      have hbuilds : List.Forall₂ Source.Builds forest rs :=
        hforest.builds fun _ _ _ _ hs => hs.builds
      have hall : ∀ t ∈ rs.flatMap Lowered.statements, t.isLocated :=
        List.forall_mem_flatMap.mpr
          (Source.forall_mem_of_builds hbuilds fun s hs _ hr => hr.isLocated (hlocated s hs))
      have hinherit : ∀ above, (rs.flatMap Lowered.statements).map (Target.inherit above) =
          rs.flatMap Lowered.statements := by
        intro above
        rw [List.map_congr_left fun t ht => Target.inherit_of_isLocated (hall t ht) above,
          List.map_id']
      refine ⟨rs, _, hbuilds, rfl, rfl, hall, hinherit, fun name' => ?_⟩
      rw [forms.result_assemble, hbody]
      exact congrArg Except.ok (congrArg (Program.mk name') (hinherit _))

/-- With `let` for definitions, `(let x y)` is an assignment with three locations, whatever the
program is called. -/
theorem assemble_located_let :
    let forms := Forms.default.addStructural "let" .define
    let here (column : Nat) : Option Location := some ⟨"t.hy", 1, column⟩
    let forest : List Source :=
      [.call "let" [.leaf (.symbol "x") ⟨here 6, none⟩, .leaf (.symbol "y") ⟨here 8, none⟩]
        ⟨here 1, none⟩]
    let body : List Target :=
      [.assign (.name "x" .store (here 6)) (.name "y" .load (here 8)) (here 1)]
    (∀ s ∈ forest, s.Located) ∧ (forms.assemble "m" forest).result = .ok ⟨"m", body⟩ ∧
      ∀ name', (forms.assemble name' forest).result = .ok ⟨name', body⟩ := by
  intro forms here forest body
  have hlocated : ∀ s ∈ forest, s.Located := by
    simp [forest, here, Source.Located, Source.nodes, Source.nodesAll, Source.location,
      Source.place]
  have h : (forms.assemble "m" forest).result = .ok ⟨"m", body⟩ := rfl
  obtain ⟨rs, body', -, -, -, -, -, hnames⟩ := (assemble_located forms).2 "m" forest _ hlocated h
  have hbody : body' = body := by
    have := (hnames "m").symm.trans h
    cases this
    rfl
  exact ⟨hlocated, h, hbody ▸ hnames⟩

end FormLower
