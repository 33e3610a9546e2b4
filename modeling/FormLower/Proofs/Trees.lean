import FormLower.Source
import FormLower.Target

/-! # Induction on trees

Trees hold lists of trees, so the induction that comes with their types also goes through lists.
Here it is stated with the members of those lists instead, and the trees below a source tree are
listed. -/

namespace FormLower

/-- What holds of a tree whenever it holds of the trees directly below holds of all trees. -/
@[elab_as_elim, induction_eliminator]
theorem Source.induction {motive : Source → Prop}
    (leaf : ∀ value place, motive (.leaf value place))
    (call : ∀ head args place, (∀ a ∈ args, motive a) → motive (.call head args place))
    (list : ∀ elements place, (∀ e ∈ elements, motive e) → motive (.list elements place)) :
    ∀ s, motive s
  | .leaf value place => leaf value place
  | .call head args place => call head args place fun a _ => Source.induction leaf call list a
  | .list elements place => list elements place fun e _ => Source.induction leaf call list e

/-! ### The nodes of a tree -/

namespace Source

/-- The trees directly below a tree. -/
def children : Source → List Source
  | .leaf _ _ => []
  | .call _ args _ => args
  | .list elements _ => elements

mutual

/-- A tree and all trees below it, each before the trees below it. -/
def nodes : Source → List Source
  | .leaf value place => [.leaf value place]
  | .call head args place => .call head args place :: nodesAll args
  | .list elements place => .list elements place :: nodesAll elements

def nodesAll : List Source → List Source
  | [] => []
  | t :: ts => t.nodes ++ nodesAll ts

end

theorem nodesAll_eq_flatMap : ∀ ts : List Source, nodesAll ts = ts.flatMap nodes
  | [] => rfl
  | t :: ts => by rw [nodesAll, nodesAll_eq_flatMap ts, List.flatMap_cons]

theorem nodes_eq (t : Source) : t.nodes = t :: t.children.flatMap nodes := by
  cases t <;> simp [nodes, children, nodesAll_eq_flatMap]

theorem self_mem_nodes (t : Source) : t ∈ t.nodes := by
  rw [nodes_eq]
  exact List.mem_cons_self

theorem mem_nodes_of_child {t c k : Source} (hc : c ∈ t.children) (hk : k ∈ c.nodes) :
    k ∈ t.nodes := by
  rw [nodes_eq]
  exact List.mem_cons_of_mem _ (List.mem_flatMap.mpr ⟨c, hc, hk⟩)

theorem forall_mem_nodesAll_cons {P : Source → Prop} {t : Source} {ts : List Source} :
    (∀ k ∈ nodesAll (t :: ts), P k) ↔
      P t ∧ (∀ k ∈ nodesAll t.children, P k) ∧ ∀ k ∈ nodesAll ts, P k := by
  rw [nodesAll, nodes_eq, ← nodesAll_eq_flatMap, List.forall_mem_append, List.forall_mem_cons,
    and_assoc]

end Source

/-! ### Target trees -/

theorem Target.sizeOf_lt_of_mem_children {t c : Target} (h : c ∈ t.children) :
    sizeOf c < sizeOf t := by
  have mem : ∀ {ts : List Target}, c ∈ ts → sizeOf c < sizeOf ts := List.sizeOf_lt_of_mem
  cases t with
  | name | string | number => simp [children] at h
  | call func args =>
      rcases List.mem_cons.mp h with rfl | h
      · simp; omega
      · have := mem h; simp; omega
  | binary left op right =>
      simp only [children, List.mem_cons, List.not_mem_nil, or_false] at h
      rcases h with rfl | rfl <;> simp <;> omega
  | compare left ops comparators =>
      rcases List.mem_cons.mp h with rfl | h
      · simp; omega
      · have := mem h; simp; omega
  | branch test body orelse =>
      simp only [children, List.mem_cons, List.mem_append] at h
      rcases h with rfl | h | h
      · simp; omega
      · have := mem h; simp; omega
      · have := mem h; simp; omega
  | ret value =>
      obtain rfl := List.mem_singleton.mp h
      simp; omega
  | assign target value =>
      simp only [children, List.mem_cons, List.not_mem_nil, or_false] at h
      rcases h with rfl | rfl <;> simp <;> omega
  | function id params body =>
      rcases List.mem_append.mp h with h | h
      · have := mem h; simp; omega
      · have := mem h; simp; omega
  | print values =>
      have hvalues : c ∈ values := h
      have := mem hvalues
      simp; omega
  | statement value =>
      obtain rfl := List.mem_singleton.mp h
      simp; omega

/-- What holds of a tree whenever it holds of its children holds of all trees. -/
@[elab_as_elim]
theorem Target.induction {motive : Target → Prop}
    (step : ∀ t, (∀ c ∈ t.children, motive c) → motive t) (t : Target) : motive t :=
  step t fun c _ => Target.induction step c
termination_by sizeOf t
decreasing_by exact sizeOf_lt_of_mem_children ‹_›

namespace Target

mutual

/-- A tree and all trees below it, each before the trees below it. -/
def nodes : Target → List Target
  | .name id use l => [.name id use l]
  | .string value l => [.string value l]
  | .number value l => [.number value l]
  | .call func args l => .call func args l :: (func.nodes ++ nodesAll args)
  | .binary left op right l => .binary left op right l :: (left.nodes ++ right.nodes)
  | .compare left ops comparators l =>
    .compare left ops comparators l :: (left.nodes ++ nodesAll comparators)
  | .branch test body orelse l =>
    .branch test body orelse l :: (test.nodes ++ (nodesAll body ++ nodesAll orelse))
  | .ret value l => .ret value l :: value.nodes
  | .assign target value l => .assign target value l :: (target.nodes ++ value.nodes)
  | .function id params body l => .function id params body l :: (nodesAll params ++ nodesAll body)
  | .print values newline l => .print values newline l :: nodesAll values
  | .statement value l => .statement value l :: value.nodes

def nodesAll : List Target → List Target
  | [] => []
  | t :: ts => t.nodes ++ nodesAll ts

end

theorem nodesAll_eq_flatMap : ∀ ts : List Target, nodesAll ts = ts.flatMap nodes
  | [] => rfl
  | t :: ts => by rw [nodesAll, nodesAll_eq_flatMap ts, List.flatMap_cons]

theorem nodes_eq (t : Target) : t.nodes = t :: t.children.flatMap nodes := by
  cases t <;> simp [nodes, children, nodesAll_eq_flatMap, List.flatMap_append]

theorem self_mem_nodes (t : Target) : t ∈ t.nodes := by
  rw [nodes_eq]
  exact List.mem_cons_self

theorem mem_nodes_of_child {t c k : Target} (hc : c ∈ t.children) (hk : k ∈ c.nodes) :
    k ∈ t.nodes := by
  rw [nodes_eq]
  exact List.mem_cons_of_mem _ (List.mem_flatMap.mpr ⟨c, hc, hk⟩)

theorem mem_nodesAll_of_mem {ts : List Target} {t k : Target} (ht : t ∈ ts) (hk : k ∈ t.nodes) :
    k ∈ nodesAll ts := by
  rw [nodesAll_eq_flatMap]
  exact List.mem_flatMap.mpr ⟨t, ht, hk⟩

end Target

/-! ### Children of changed trees -/

namespace Target

theorem children_mapChildren (f : Target → Target) (t : Target) :
    (t.mapChildren f).children = t.children.map f := by
  cases t <;> simp [mapChildren, children]

theorem children_withLocation (l : Option Location) (t : Target) :
    (t.withLocation l).children = t.children := by
  cases t <;> rfl

theorem mapChildren_congr {f g : Target → Target} {t : Target} (h : ∀ c ∈ t.children, f c = g c) :
    t.mapChildren f = t.mapChildren g := by
  have hmap : ∀ {ts : List Target}, (∀ c ∈ ts, f c = g c) → ts.map f = ts.map g :=
    List.map_congr_left
  cases t with
  | name | string | number => rfl
  | call func args =>
      obtain ⟨hfunc, hargs⟩ := List.forall_mem_cons.mp h
      rw [mapChildren, mapChildren, hfunc, hmap hargs]
  | binary left op right =>
      rw [mapChildren, mapChildren, h left (by simp [children]), h right (by simp [children])]
  | compare left ops comparators =>
      obtain ⟨hleft, hcomparators⟩ := List.forall_mem_cons.mp h
      rw [mapChildren, mapChildren, hleft, hmap hcomparators]
  | branch test body orelse =>
      obtain ⟨htest, hrest⟩ := List.forall_mem_cons.mp h
      obtain ⟨hbody, horelse⟩ := List.forall_mem_append.mp hrest
      rw [mapChildren, mapChildren, htest, hmap hbody, hmap horelse]
  | ret value => rw [mapChildren, mapChildren, h value (by simp [children])]
  | assign target value =>
      rw [mapChildren, mapChildren, h target (by simp [children]), h value (by simp [children])]
  | function id params body =>
      obtain ⟨hparams, hbody⟩ := List.forall_mem_append.mp h
      rw [mapChildren, mapChildren, hmap hparams, hmap hbody]
  | print values =>
      have hvalues : ∀ c ∈ values, f c = g c := h
      rw [mapChildren, mapChildren, hmap hvalues]
  | statement value => rw [mapChildren, mapChildren, h value (by simp [children])]

theorem mapChildren_id (t : Target) : t.mapChildren id = t := by
  cases t <;> simp [mapChildren]

theorem mapChildren_mapChildren (f g : Target → Target) (t : Target) :
    (t.mapChildren f).mapChildren g = t.mapChildren fun c => g (f c) := by
  cases t <;> simp [mapChildren, Function.comp_def]

theorem mapChildren_withLocation (f : Target → Target) (l : Option Location) (t : Target) :
    (t.withLocation l).mapChildren f = (t.mapChildren f).withLocation l := by
  cases t <;> rfl

theorem withLocation_withLocation (l l' : Option Location) (t : Target) :
    (t.withLocation l).withLocation l' = t.withLocation l' := by
  cases t <;> rfl

theorem withLocation_location (t : Target) : t.withLocation t.location = t := by
  cases t <;> rfl

theorem children_inherit (above : Location) (t : Target) :
    (t.inherit above).children = t.children.map (inherit (t.location.getD above)) := by
  rw [inherit_eq, children_withLocation, children_mapChildren]

end Target

end FormLower
