import FormLower.Encoding.Source
import FormLower.Proofs.Encoding.Places
import FormLower.Proofs.Trees

/-! # Source trees are stored without loss

A tree is read back from the record that is stored for it, place and all, unless a number in it is
infinite or undefined (`decodeRecord?_encode`).  Such a number is stored as nothing, and so no tree
above it can be read. -/

namespace FormLower
namespace Source

/-! ### What is in a tree -/

/-- The locations in a tree, those of spans included. -/
def locations (s : Source) : List Location := s.nodes.flatMap fun k => k.place.locations

def float? : Source → Option Binary64
  | .leaf (.number (.float x)) _ => some x
  | _ => none

def floats (s : Source) : List Binary64 := s.nodes.filterMap float?

/-- All floats in a tree are finite. -/
def AllFinite (s : Source) : Prop := ∀ x ∈ s.floats, x.isFinite

instance (s : Source) : Decidable s.AllFinite := inferInstanceAs (Decidable (∀ x ∈ _, _))

/-- All locations in a tree are words of 64 bits. -/
def Bounded (s : Source) : Prop := ∀ l ∈ s.locations, l.Bounded

theorem allFinite_iff {s : Source} :
    s.AllFinite ↔ (∀ x, s.float? = some x → x.isFinite) ∧ ∀ c ∈ s.children, c.AllFinite := by
  have hfloats : s.floats = s.float?.toList ++ s.children.flatMap floats := by
    rw [floats, nodes_eq, ← List.singleton_append, List.filterMap_append, List.filterMap_flatMap]
    rfl
  simp only [AllFinite, hfloats, List.forall_mem_append, List.forall_mem_flatMap,
    Option.mem_toList]

theorem bounded_iff {s : Source} :
    s.Bounded ↔ s.place.Bounded ∧ ∀ c ∈ s.children, c.Bounded := by
  have hlocations : s.locations = s.place.locations ++ s.children.flatMap locations := by
    rw [locations, nodes_eq, List.flatMap_cons, List.flatMap_assoc]
    rfl
  simp only [Bounded, Place.Bounded, hlocations, List.forall_mem_append, List.forall_mem_flatMap]

theorem allFinite_leaf_iff {value : Leaf} {place : Place} :
    (leaf value place).AllFinite ↔ ∀ n, value = .number n → n.isFinite := by
  rw [allFinite_iff]
  cases value with
  | number n => cases n <;> simp [float?, children, Number.isFinite]
  | _ => simp [float?, children]

theorem allFinite_call_iff {head : String} {args : List Source} {place : Place} :
    (call head args place).AllFinite ↔ ∀ a ∈ args, a.AllFinite := by
  rw [allFinite_iff]
  simp [float?, children]

theorem allFinite_list_iff {elements : List Source} {place : Place} :
    (list elements place).AllFinite ↔ ∀ e ∈ elements, e.AllFinite := by
  rw [allFinite_iff]
  simp [float?, children]

/-! ### Reading trees back -/

theorem member?_record (kind : Json) (place : Place) (name : String) :
    (record kind place).member? name =
      ((if "span" = name then place.span.map Span.encode else none).or
        (if "location" = name then place.location.map Location.encode else none)).or
          (if "kind" = name then some kind else none) := by
  rw [record, Json.member?, List.cons_append, Json.lastMember?_cons, Json.lastMember?_append,
    Json.lastMember?_present, Json.lastMember?_present]

theorem member?_kind (kind : Json) (place : Place) :
    (record kind place).member? "kind" = some kind := by
  simp [member?_record]

theorem decodePlace?_record (kind : Json) {place : Place} (h : place.Bounded) :
    decodePlace? (record kind place) = some place := by
  have hlocation : Json.optional? Location.decode? ((record kind place).field? fields "location") =
      some place.location := by
    refine Json.optional?_field? Location.encode ?_ nofun fun l hl => ?_
    · exact (member?_record kind place "location").trans (by simp)
    · exact Location.decode?_encode (h.location hl)
  have hspan : Json.optional? Span.decode? ((record kind place).field? fields "span") =
      some place.span := by
    refine Json.optional?_field? Span.encode ?_ nofun fun s hs => ?_
    · exact (member?_record kind place "span").trans (by simp)
    · exact Span.decode?_encode (h.span hs)
  rw [decodePlace?, hlocation, hspan]
  rfl

theorem decodeRecords?_encode {standing : Json.Standing} {ss : List Source}
    (h : ∀ s ∈ ss, decodeRecord? standing s.encode = if s.AllFinite then some s else none) :
    decodeRecords? standing (encodeAll ss) = if ∀ s ∈ ss, s.AllFinite then some ss else none := by
  induction ss with
  | nil => simp [encodeAll, decodeRecords?]
  | cons s ss ih =>
      obtain ⟨hs, hss⟩ := List.forall_mem_cons.mp h
      rw [encodeAll, decodeRecords?, hs, ih hss, Json.bind_ite, Json.bind_ite, ← ite_and]
      exact if_congr List.forall_mem_cons.symm rfl rfl

theorem decodeRecord?_leaf {place : Place} (hplace : place.Bounded) (value : Leaf)
    (standing : Json.Standing) : decodeRecord? standing (record value.encode place) =
      if (leaf value place).AllFinite then some (leaf value place) else none := by
  rw [decodeRecord?, Json.bind_of_eq_some (decodePlace?_record _ hplace),
    Json.bind_field? (member?_kind _ place)]
  have hkept (hvalue : ∀ n, value ≠ .number n) : (leaf value place).AllFinite :=
    allFinite_leaf_iff.mpr fun n hn => absurd hn (hvalue n)
  cases value with
  | symbol name => exact (if_pos (hkept nofun)).symm
  | string value => exact (if_pos (hkept nofun)).symm
  | bool value => exact (if_pos (hkept nofun)).symm
  | number n =>
      have hread : (Number.decode? n.encode >>= fun n => some (leaf (.number n) place)) =
          if (leaf (.number n) place).AllFinite then some (leaf (.number n) place) else none := by
        rw [Number.decode?_encode, Json.bind_ite]
        exact if_congr (by simp [allFinite_leaf_iff]) rfl rfl
      exact hread

theorem decodeRecord?_encode {s : Source} (h : s.Bounded) (standing : Json.Standing) :
    decodeRecord? standing s.encode = if s.AllFinite then some s else none := by
  induction s generalizing standing with
  | leaf value place =>
      obtain ⟨hplace, -⟩ := bounded_iff.mp h
      exact decodeRecord?_leaf hplace value standing
  | call head args place ih =>
      obtain ⟨hplace, hargs⟩ := bounded_iff.mp h
      have hread : decodeRecord? standing (encode (.call head args place)) =
          decodeRecords? .inside (encodeAll args) >>= fun args => some (.call head args place) := by
        rw [encode, decodeRecord?, Json.bind_of_eq_some (@decodePlace?_record _ place hplace),
          Json.bind_field? (member?_kind _ place)]
        rfl
      rw [hread, decodeRecords?_encode fun a ha => ih a ha (hargs a ha) .inside, Json.bind_ite]
      exact if_congr allFinite_call_iff.symm rfl rfl
  | list elements place ih =>
      obtain ⟨hplace, helements⟩ := bounded_iff.mp h
      have hread : decodeRecord? standing (encode (.list elements place)) =
          decodeRecords? .inside (encodeAll elements) >>= fun es => some (.list es place) := by
        rw [encode, decodeRecord?, Json.bind_of_eq_some (@decodePlace?_record _ place hplace),
          Json.bind_field? (member?_kind _ place)]
        rfl
      rw [hread, decodeRecords?_encode fun e he => ih e he (helements e he) .inside, Json.bind_ite]
      exact if_congr allFinite_list_iff.symm rfl rfl

/-! ### Writing trees -/

theorem storable_record {kind : Json} (hkind : kind.Storable) {place : Place}
    (hplace : place.Bounded) : (record kind place).Storable := by
  refine .object (List.forall_mem_cons.mpr ⟨hkind, List.forall_mem_append.mpr ⟨?_, ?_⟩⟩)
  · refine Json.storable_present fun v hv => ?_
    obtain ⟨l, hl, rfl⟩ := Option.map_eq_some_iff.mp hv
    exact Location.storable_encode (hplace.location hl)
  · refine Json.storable_present fun v hv => ?_
    obtain ⟨s, hs, rfl⟩ := Option.map_eq_some_iff.mp hv
    exact Span.storable_encode (hplace.span hs)

theorem storable_leaf (value : Leaf) : value.encode.Storable := by
  cases value with
  | symbol name | string name | bool name =>
      exact .object (by simp [Json.Storable.string, Json.Storable.bool])
  | number n => exact .object (by simp [Json.Storable.string, Number.storable_encode n])

theorem storable_encode {s : Source} (h : s.Bounded) : s.encode.Storable := by
  induction s with
  | leaf value place => exact storable_record (storable_leaf value) (bounded_iff.mp h).1
  | call head args place ih =>
      obtain ⟨hplace, hargs⟩ := bounded_iff.mp h
      have hall : ∀ j ∈ args.map encode, j.Storable :=
        List.forall_mem_map.mpr fun a ha => ih a ha (hargs a ha)
      rw [encode, encodeAll_eq_map]
      refine storable_record (.object ?_) hplace
      simp [Json.Storable.string, Json.Storable.array hall]
  | list elements place ih =>
      obtain ⟨hplace, helements⟩ := bounded_iff.mp h
      have hall : ∀ j ∈ elements.map encode, j.Storable :=
        List.forall_mem_map.mpr fun e he => ih e he (helements e he)
      rw [encode, encodeAll_eq_map]
      refine storable_record (.object ?_) hplace
      simp [Json.Storable.string, Json.Storable.array hall]

end Source
end FormLower
