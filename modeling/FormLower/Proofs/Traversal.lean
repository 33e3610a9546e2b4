import FormLower.Program
import FormLower.Proofs.Trees
import Mathlib.Data.List.Basic

/-! # Going through trees

The trees below a tree are read with `children` and replaced with `mapChildren`, or one after the
other, each with an effect, with `visitChildren`.  Both ways meet the same trees in the same order,
and a replacement keeps what a tree is by itself (`visitChildren_spec`).  So when a whole tree is
gone through from the top and changed on the way, its nodes are met once each and in their order
(`Update.sweep_noted`, `Update.map_snd_reached`), and each of them is changed once
(`Update.eq_swept_iff`).  Handing down locations and renaming are such sweeps. -/

namespace FormLower

/-! ### Lists gone through with effects -/

section

variable {m : Type → Type} [Monad m] [LawfulMonad m] {α β : Type}

theorem mapM_congr {f g : α → m β} {as : List α} (h : ∀ a ∈ as, f a = g a) :
    as.mapM f = as.mapM g := by
  induction as with
  | nil => rfl
  | cons a as ih =>
      obtain ⟨ha, has⟩ := List.forall_mem_cons.mp h
      rw [List.mapM_cons, List.mapM_cons, ha, ih has]

/-- What follows on a list that is gone through may rely on there being as many results. -/
theorem mapM_bind_congr {f : α → m α} {as : List α} {k k' : List α → m β}
    (h : ∀ bs, bs.length = as.length → k bs = k' bs) : as.mapM f >>= k = as.mapM f >>= k' := by
  induction as generalizing k k' with
  | nil => simpa using h [] rfl
  | cons a as ih =>
      simp only [List.mapM_cons, bind_assoc, pure_bind]
      exact bind_congr fun b => ih fun bs hbs => h (b :: bs) (by simp [hbs])

/-- Effects that have no part in what is made of the members may all come first. -/
theorem mapM_noted {f : α → m β} {note : α → m Unit} {g : α → β} {as : List α}
    (h : ∀ a ∈ as, f a = do note a; return g a) :
    as.mapM f = do forM as note; return as.map g := by
  induction as with
  | nil => simp
  | cons a as ih =>
      obtain ⟨ha, has⟩ := List.forall_mem_cons.mp h
      simp [List.mapM_cons, ha, ih has]

theorem forM_flatMap (note : β → m Unit) (g : α → List β) (as : List α) :
    forM (as.flatMap g) note = forM as fun a => forM (g a) note := by
  induction as with
  | nil => rfl
  | cons a as ih => rw [List.flatMap_cons, List.forM_append, List.forM_cons, ih]

end

/-- Lists of one length are told by their codes if each code tells its member and where it ends. -/
theorem flatMap_append_inj {α β : Type} {g : α → List β} {as bs : List α} {xs ys : List β}
    (hlength : as.length = bs.length)
    (hg : ∀ a ∈ as, ∀ {b xs ys}, g a ++ xs = g b ++ ys → a = b ∧ xs = ys)
    (h : as.flatMap g ++ xs = bs.flatMap g ++ ys) : as = bs ∧ xs = ys := by
  induction as generalizing bs with
  | nil =>
      obtain rfl := List.length_eq_zero_iff.mp hlength.symm
      exact ⟨rfl, h⟩
  | cons a as ih =>
      obtain ⟨b, bs, rfl⟩ := List.exists_cons_of_length_eq_add_one hlength.symm
      obtain ⟨ha, has⟩ := List.forall_mem_cons.mp hg
      rw [List.flatMap_cons, List.flatMap_cons, List.append_assoc, List.append_assoc] at h
      obtain ⟨rfl, hrest⟩ := ha h
      obtain ⟨rfl, rfl⟩ := ih (Nat.succ.inj hlength) has hrest
      exact ⟨rfl, rfl⟩

namespace Target

/-! ### What a tree is by itself -/

/-- The kind of a tree, its fields that hold no trees, and how many trees there are in its lists. -/
inductive Label where
  | name (id : String) (use : Use)
  | string (value : String)
  | number (value : Number)
  | call (args : Nat)
  | binary (op : Arithmetic)
  | compare (ops : List Comparison) (comparators : Nat)
  | branch (body orelse : Nat)
  | ret
  | assign
  | function (id : String) (params body : Nat)
  | print (values : Nat) (newline : Bool)
  | statement

/-- How many trees stand directly below a tree with a label. -/
def Label.arity : Label → Nat
  | .name _ _ | .string _ | .number _ => 0
  | .call args => args + 1
  | .binary _ | .assign => 2
  | .compare _ comparators => comparators + 1
  | .branch body orelse => body + orelse + 1
  | .ret | .statement => 1
  | .function _ params body => params + body
  | .print values _ => values

/-- The identifier in the label of a name. -/
def Label.identifier? : Label → Option String
  | .name id _ => some id
  | _ => none

def label : Target → Label
  | .name id use _ => .name id use
  | .string value _ => .string value
  | .number value _ => .number value
  | .call _ args _ => .call args.length
  | .binary _ op _ _ => .binary op
  | .compare _ ops comparators _ => .compare ops comparators.length
  | .branch _ body orelse _ => .branch body.length orelse.length
  | .ret _ _ => .ret
  | .assign _ _ _ => .assign
  | .function id params body _ => .function id params.length body.length
  | .print values newline _ => .print values.length newline
  | .statement _ _ => .statement

/-- What a tree is by itself, apart from the trees below it. -/
def own (t : Target) : Label × Option Location := (t.label, t.location)

theorem length_children (t : Target) : t.children.length = t.label.arity := by
  cases t <;> simp [children, label, Label.arity]

theorem identifier?_label (t : Target) : t.label.identifier? = t.identifier? := by
  cases t <;> rfl

theorem ext_own {t u : Target} (hown : t.own = u.own) (hchildren : t.children = u.children) :
    t = u := by
  obtain ⟨hlabel, hlocation⟩ := Prod.mk.inj hown
  cases t <;> cases u <;> simp_all [label, location, children]
  -- Two lists that stand one behind the other are told apart by their lengths.
  case branch.branch => exact List.append_inj hchildren.2 hlabel.1
  case function.function => exact List.append_inj hchildren hlabel.2.1

theorem own_mapChildren (f : Target → Target) (t : Target) : (t.mapChildren f).own = t.own := by
  cases t <;> simp [own, label, location, mapChildren]

/-- The nodes of a tree, each by itself, tell the tree and what is listed behind it. -/
theorem eq_of_nodes_append {t u : Target} {xs ys : List (Label × Option Location)}
    (h : t.nodes.map own ++ xs = u.nodes.map own ++ ys) : t = u ∧ xs = ys := by
  induction t using Target.induction generalizing u xs ys with
  | step t ih =>
      rw [nodes_eq t, nodes_eq u, List.map_cons, List.map_cons, List.map_flatMap,
        List.map_flatMap, List.cons_append, List.cons_append] at h
      obtain ⟨hown, hbelow⟩ := List.cons.inj h
      -- The label tells how many trees there are below, and so where their nodes end.
      have hlabel : t.label = u.label := congrArg Prod.fst hown
      have hlength : t.children.length = u.children.length := by
        rw [length_children, length_children, hlabel]
      obtain ⟨hchildren, hbehind⟩ := flatMap_append_inj hlength (fun c hc => ih c hc) hbelow
      exact ⟨ext_own hown hchildren, hbehind⟩

theorem nodes_own_inj {t u : Target} : t.nodes.map own = u.nodes.map own ↔ t = u := by
  refine ⟨fun h => ?_, fun h => by rw [h]⟩
  have happend : t.nodes.map own ++ [] = u.nodes.map own ++ [] := by rw [h]
  exact (eq_of_nodes_append happend).1

/-! ### The trees directly below a tree -/

section

variable {m : Type → Type} [Monad m]

/-- Replace the trees directly below a tree, one after the other. -/
def visitChildren (f : Target → m Target) : Target → m Target
  | .name id use l => return .name id use l
  | .string value l => return .string value l
  | .number value l => return .number value l
  | .call func args l => return .call (← f func) (← args.mapM f) l
  | .binary left op right l => return .binary (← f left) op (← f right) l
  | .compare left ops comparators l => return .compare (← f left) ops (← comparators.mapM f) l
  | .branch test body orelse l => return .branch (← f test) (← body.mapM f) (← orelse.mapM f) l
  | .ret value l => return .ret (← f value) l
  | .assign target value l => return .assign (← f target) (← f value) l
  | .function id params body l => return .function id (← params.mapM f) (← body.mapM f) l
  | .print values newline l => return .print (← values.mapM f) newline l
  | .statement value l => return .statement (← f value) l

variable [LawfulMonad m]

/-- Replacing the trees below a tree one after the other is going through the list of them: what the
tree is by itself stays, and the results of the list are the trees below it then. -/
theorem visitChildren_spec (f : Target → m Target) (t : Target) :
    (fun u => (u.own, u.children)) <$> t.visitChildren f =
      (fun cs => (t.own, cs)) <$> t.children.mapM f := by
  cases t <;>
    simp only [visitChildren, own, label, location, children, List.mapM_nil, List.mapM_cons,
      List.mapM_append, map_eq_pure_bind, bind_assoc, pure_bind]
  -- What remains are the lengths of lists.
  case call => exact bind_congr fun _ => mapM_bind_congr fun _ h => by rw [h]
  case compare => exact bind_congr fun _ => mapM_bind_congr fun _ h => by rw [h]
  case branch =>
    exact bind_congr fun _ => mapM_bind_congr fun _ h => mapM_bind_congr fun _ h' => by rw [h, h']
  case function => exact mapM_bind_congr fun _ h => mapM_bind_congr fun _ h' => by rw [h, h']
  case print => exact mapM_bind_congr fun _ h => by rw [h]

/-- Nothing but a visit to the trees below a tree does what `visitChildren_spec` says. -/
theorem visitChildren_eq_iff {f : Target → m Target} {t : Target} {x : m Target} :
    t.visitChildren f = x ↔
      (fun u => (u.own, u.children)) <$> x = (fun cs => (t.own, cs)) <$> t.children.mapM f := by
  have hinj : ∀ {u v : Target}, (u.own, u.children) = (v.own, v.children) → u = v := by
    intro u v h
    obtain ⟨hown, hchildren⟩ := Prod.mk.inj h
    exact ext_own hown hchildren
  rw [← visitChildren_spec, map_inj_right hinj, eq_comm]

theorem visitChildren_congr {f g : Target → m Target} {t : Target}
    (h : ∀ c ∈ t.children, f c = g c) : t.visitChildren f = t.visitChildren g := by
  rw [visitChildren_eq_iff, visitChildren_spec, mapM_congr h]

theorem visitChildren_noted {f : Target → m Target} {note : Target → m Unit}
    {g : Target → Target} {t : Target} (h : ∀ c ∈ t.children, f c = do note c; return g c) :
    t.visitChildren f = do forM t.children note; return t.mapChildren g := by
  rw [visitChildren_eq_iff, mapM_noted h]
  simp [own_mapChildren, children_mapChildren]

theorem visitChildren_pure (f : Target → Target) (t : Target) :
    t.visitChildren (fun c => (pure (f c) : m Target)) = pure (t.mapChildren f) := by
  rw [visitChildren_eq_iff, List.mapM_pure]
  simp [own_mapChildren, children_mapChildren]

end

/-! ### Whole trees -/

theorem length_nodes_lt {t c : Target} (hc : c ∈ t.children) :
    c.nodes.length < t.nodes.length := by
  have hle : c.nodes.length ≤ (t.children.flatMap nodes).length :=
    (List.sublist_flatten_of_mem (List.mem_map_of_mem hc)).length_le
  rw [nodes_eq t, List.length_cons]
  omega

/-- How to change a tree by itself, and what to hand down to the trees below it, when something is
handed down to the tree. -/
structure Update (ρ : Type) where
  change : ρ → Target → Target
  handed : ρ → Target → ρ
  children_change : ∀ r t, (change r t).children = t.children

namespace Update

variable {ρ : Type}

section

variable {m : Type → Type} [Monad m]

/-- Go through a tree from the top: note the tree, change it, and go through the trees then below
it one after the other.  These have fewer nodes, so the test is always passed. -/
def sweep (u : Update ρ) (note : ρ × Target → m Unit) (r : ρ) (t : Target) : m Target := do
  note (r, t)
  (u.change r t).visitChildren fun c =>
    if _h : c.nodes.length < t.nodes.length then u.sweep note (u.handed r t) c else return c
termination_by t.nodes.length

theorem sweep_eq [LawfulMonad m] (u : Update ρ) (note : ρ × Target → m Unit) (r : ρ)
    (t : Target) :
    u.sweep note r t = (do
      note (r, t)
      (u.change r t).visitChildren (u.sweep note (u.handed r t))) := by
  rw [sweep]
  refine bind_congr fun _ => visitChildren_congr fun c hc => ?_
  rw [u.children_change] at hc
  exact dif_pos (length_nodes_lt hc)

end

/-- What becomes of a tree that is gone through. -/
def swept (u : Update ρ) (r : ρ) (t : Target) : Target :=
  Id.run (u.sweep (fun _ => pure ()) r t)

/-- The nodes of a tree as `children` lists them, each with what is handed down to it. -/
def reached (u : Update ρ) (r : ρ) (t : Target) : List (ρ × Target) :=
  (r, t) :: t.children.attach.flatMap fun c => u.reached (u.handed r t) c.1
termination_by t.nodes.length
decreasing_by exact length_nodes_lt c.2

variable (u : Update ρ)

theorem swept_eq (r : ρ) (t : Target) :
    u.swept r t = (u.change r t).mapChildren (u.swept (u.handed r t)) := by
  rw [swept, sweep_eq]
  exact congrArg Id.run (visitChildren_pure (m := Id) (u.swept (u.handed r t)) (u.change r t))

/-- Any change of trees from the top downwards that goes by the update is its sweep. -/
theorem swept_unique {u : Update ρ} {f : ρ → Target → Target}
    (hf : ∀ r t, f r t = (u.change r t).mapChildren (f (u.handed r t))) (r : ρ) (t : Target) :
    u.swept r t = f r t := by
  induction t using Target.induction generalizing r with
  | step t ih =>
      rw [swept_eq, hf]
      refine mapChildren_congr fun c hc => ?_
      rw [u.children_change] at hc
      exact ih c hc _

theorem reached_eq (r : ρ) (t : Target) :
    u.reached r t = (r, t) :: t.children.flatMap (u.reached (u.handed r t)) := by
  rw [reached]
  simp

theorem map_snd_reached (r : ρ) (t : Target) : (u.reached r t).map Prod.snd = t.nodes := by
  induction t using Target.induction generalizing r with
  | step t ih =>
      rw [reached_eq, nodes_eq, List.map_cons, List.map_flatMap]
      exact congrArg _ (List.flatMap_congr fun c hc => ih c hc _)

/-- **Going through a tree meets the nodes that `children` lists, in their order.** -/
theorem sweep_noted {m : Type → Type} [Monad m] [LawfulMonad m] (note : ρ × Target → m Unit)
    (r : ρ) (t : Target) :
    u.sweep note r t = (do forM (u.reached r t) note; return u.swept r t) := by
  induction t using Target.induction generalizing r with
  | step t ih =>
      have hbelow : ∀ c ∈ (u.change r t).children, u.sweep note (u.handed r t) c = (do
          forM (u.reached (u.handed r t) c) note
          return u.swept (u.handed r t) c) := by
        rw [u.children_change]
        exact fun c hc => ih c hc _
      rw [sweep_eq, visitChildren_noted hbelow, u.children_change, reached_eq, List.forM_cons,
        forM_flatMap, swept_eq, bind_assoc]

theorem own_nodes_swept (r : ρ) (t : Target) :
    (u.swept r t).nodes.map own = (u.reached r t).map fun v => (u.change v.1 v.2).own := by
  induction t using Target.induction generalizing r with
  | step t ih =>
      rw [swept_eq, nodes_eq, reached_eq, List.map_cons, List.map_cons, own_mapChildren,
        children_mapChildren, u.children_change, List.flatMap_map, List.map_flatMap,
        List.map_flatMap]
      exact congrArg _ (List.flatMap_congr fun c hc => ih c hc _)

/-- What becomes of a tree is the tree whose nodes are those of the tree, each changed once. -/
theorem eq_swept_iff {r : ρ} {t x : Target} :
    x = u.swept r t ↔
      x.nodes.map own = (u.reached r t).map fun v => (u.change v.1 v.2).own := by
  rw [← own_nodes_swept, nodes_own_inj]

end Update

/-! ### Locations and names -/

/-- A tree takes the location that is handed down to it if it has none, and hands down its own. -/
def inheriting : Update Location where
  change above t := t.withLocation (some (t.location.getD above))
  handed above t := t.location.getD above
  children_change _ t := children_withLocation _ t

theorem swept_inheriting (above : Location) (t : Target) :
    inheriting.swept above t = t.inherit above := by
  refine Update.swept_unique (fun above t => ?_) above t
  rw [inherit_eq]
  exact (mapChildren_withLocation _ _ t).symm

theorem children_renameHere (g : String → String) (t : Target) :
    (t.renameHere g).children = t.children := by
  cases t <;> rfl

theorem mapChildren_renameHere (g : String → String) (f : Target → Target) (t : Target) :
    (t.renameHere g).mapChildren f = (t.mapChildren f).renameHere g := by
  cases t <;> rfl

theorem identifier?_renameHere (g : String → String) (t : Target) :
    (t.renameHere g).identifier? = t.identifier?.map g := by
  cases t <;> rfl

def renames (g : String → String) : Update Unit where
  change _ t := t.renameHere g
  handed _ _ := ()
  children_change _ t := children_renameHere g t

theorem swept_renames (g : String → String) (t : Target) :
    (renames g).swept () t = t.rename g := by
  refine Update.swept_unique (f := fun _ => rename g) (fun _ t => ?_) () t
  rw [rename, rebuild_eq]
  exact (mapChildren_renameHere g _ t).symm

/-- A renamed tree is the tree whose nodes are those of the tree, with other identifiers. -/
theorem eq_rename_iff {g : String → String} {t x : Target} :
    x = t.rename g ↔ x.nodes.map own = t.nodes.map fun v => (v.renameHere g).own := by
  rw [← swept_renames, Update.eq_swept_iff, ← (renames g).map_snd_reached () t, List.map_map]
  rfl

/-- The identifiers of the names in a tree, from left to right. -/
def identifiers (t : Target) : List String := t.nodes.filterMap identifier?

theorem identifiers_eq (t : Target) :
    t.identifiers = (t.nodes.map own).filterMap fun o => o.1.identifier? := by
  rw [identifiers, List.filterMap_map]
  exact List.filterMap_congr fun v _ => (identifier?_label v).symm

theorem identifiers_rename (g : String → String) (t : Target) :
    (t.rename g).identifiers = t.identifiers.map g := by
  rw [identifiers_eq, eq_rename_iff.mp rfl, List.filterMap_map, identifiers, List.map_filterMap]
  refine List.filterMap_congr fun v _ => ?_
  exact (identifier?_label _).trans (identifier?_renameHere g v)

example :
    let call : Target := .call (.name "f" .load none) [.name "x" .load none] none
    (call.rename (· ++ "_r")).identifiers = ["f_r", "x_r"] := rfl

/-- **Replacing the trees below a tree agrees with listing them.**  What is replaced, at once or one
after the other with effects, are the children in the order in which they are listed; the label of
the tree, which has all fields that hold no trees, and its location stay.  So a sweep meets the
nodes as `children` lists them, each of them once, and its result is the one tree whose nodes are
those, each changed by itself.  Inheriting locations and renaming are sweeps: a renamed tree is the
one whose nodes differ in the identifiers of names alone, and these are the images of the old
ones. -/
theorem replaced_as_listed (t : Target) :
    (∀ f : Target → Target,
      (t.mapChildren f).children = t.children.map f ∧
        (t.mapChildren f).label = t.label ∧ (t.mapChildren f).location = t.location) ∧
    (∀ {σ : Type} (f : Target → StateM σ Target),
      (fun u => (u.own, u.children)) <$> t.visitChildren f =
        (fun cs => (t.own, cs)) <$> t.children.mapM f) ∧
    (∀ {σ : Type} (f : Target → Target),
      t.visitChildren (fun c => (pure (f c) : StateM σ Target)) = pure (t.mapChildren f)) ∧
    (∀ {σ ρ : Type} (u : Update ρ) (note : ρ × Target → StateM σ Unit) (r : ρ),
      u.sweep note r t = (do forM (u.reached r t) note; return u.swept r t) ∧
        (u.reached r t).map Prod.snd = t.nodes ∧
        ∀ x, x = u.swept r t ↔
          x.nodes.map own = (u.reached r t).map fun v => (u.change v.1 v.2).own) ∧
    (∀ above, inheriting.swept above t = t.inherit above) ∧
    (∀ g, (renames g).swept () t = t.rename g ∧
      (∀ x, x = t.rename g ↔ x.nodes.map own = t.nodes.map fun v => (v.renameHere g).own) ∧
      (t.rename g).identifiers = t.identifiers.map g) := by
  refine ⟨fun f => ?_, fun f => visitChildren_spec f t, fun f => visitChildren_pure f t,
    fun u note r => ?_, fun above => swept_inheriting above t, fun g => ?_⟩
  · obtain ⟨hlabel, hlocation⟩ := Prod.mk.inj (own_mapChildren f t)
    exact ⟨children_mapChildren f t, hlabel, hlocation⟩
  · exact ⟨u.sweep_noted note r t, u.map_snd_reached r t, fun _ => u.eq_swept_iff⟩
  · exact ⟨swept_renames g t, fun _ => eq_rename_iff, identifiers_rename g t⟩

end Target

/-! ### Programs -/

/-- Locating a program meets all nodes of its statements, one statement after the other. -/
theorem Program.sweep_located {m : Type → Type} [Monad m] [LawfulMonad m]
    (note : Location × Target → m Unit) (p : Program) :
    p.body.mapM (Target.inheriting.sweep note p.root) = (do
      forM (p.body.flatMap (Target.inheriting.reached p.root)) note
      return p.located.body) := by
  have hlocated : p.located.body = p.body.map (Target.inheriting.swept p.root) :=
    List.map_congr_left fun t _ => (Target.swept_inheriting p.root t).symm
  rw [hlocated, forM_flatMap]
  exact mapM_noted fun t _ => Target.inheriting.sweep_noted note p.root t

end FormLower
