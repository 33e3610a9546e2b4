import FormLower.Encoding.Target
import FormLower.Proofs.Encoding.Sources
import FormLower.Proofs.Json.Reading

/-! # Target trees and programs are stored without loss

The record of a target tree names its variant inside the kind, and what is read for it comes down to
what is read for the trees below it (`Target.decodeRecord?_eq_reread`).  Together with what is said
of the texts of the data format this gives that decoding undoes encoding, for trees and for whole
programs (`decode_encode`). -/

namespace FormLower

/-! ### Words -/

theorem Use.ofWord?_word (use : Use) : ofWord? use.word = some use := by
  cases use <;> rfl

theorem Arithmetic.ofWord?_word (op : Arithmetic) : ofWord? op.word = some op := by
  cases op <;> rfl

theorem Comparison.ofWord?_word (op : Comparison) : ofWord? op.word = some op := by
  cases op <;> rfl

namespace Target

/-! ### What is in a tree -/

def locations (t : Target) : List Location := t.nodes.filterMap location

def float? : Target → Option Binary64
  | .number (.float x) _ => some x
  | _ => none

def floats (t : Target) : List Binary64 := t.nodes.filterMap float?

/-- All floats in a tree are finite. -/
def AllFinite (t : Target) : Prop := ∀ x ∈ t.floats, x.isFinite

instance (t : Target) : Decidable t.AllFinite := inferInstanceAs (Decidable (∀ x ∈ _, _))

/-- All locations in a tree are words of 64 bits. -/
def Bounded (t : Target) : Prop := ∀ l ∈ t.locations, l.Bounded

theorem allFinite_iff {t : Target} :
    t.AllFinite ↔ (∀ x, t.float? = some x → x.isFinite) ∧ ∀ c ∈ t.children, c.AllFinite := by
  have hfloats : t.floats = t.float?.toList ++ t.children.flatMap floats := by
    rw [floats, nodes_eq, ← List.singleton_append, List.filterMap_append, List.filterMap_flatMap]
    rfl
  simp only [AllFinite, hfloats, List.forall_mem_append, List.forall_mem_flatMap,
    Option.mem_toList]

theorem locations_eq (t : Target) :
    t.locations = t.location.toList ++ t.children.flatMap locations := by
  rw [locations, nodes_eq, ← List.singleton_append, List.filterMap_append, List.filterMap_flatMap]
  rfl

theorem bounded_iff {t : Target} :
    t.Bounded ↔ (∀ l, t.location = some l → l.Bounded) ∧ ∀ c ∈ t.children, c.Bounded := by
  have hlocations := t.locations_eq
  simp only [Bounded, hlocations, List.forall_mem_append, List.forall_mem_flatMap,
    Option.mem_toList]

/-! ### Reading trees back -/

theorem decodeOps?_encode (ops : List Comparison) :
    decodeOps? (ops.map fun op => .string op.word) = some ops := by
  induction ops with
  | nil => rfl
  | cons op ops ih =>
      have hword : (Json.string op.word).word? = some op.word := rfl
      rw [List.map_cons, decodeOps?, Json.bind_of_eq_some hword,
        Json.bind_of_eq_some (Comparison.ofWord?_word op), ih]
      rfl

theorem member?_record (variant : String) (fields : List (String × Json)) (l : Option Location)
    (name : String) :
    (record variant fields l).member? name =
      (if "location" = name then l.map Location.encode else none).or
        (if "kind" = name then some (.object (("node", .string variant) :: fields)) else none) := by
  rw [record, Json.member?, Json.lastMember?_cons, Json.lastMember?_present]

theorem member?_kind (variant : String) (fields : List (String × Json)) (l : Option Location) :
    (record variant fields l).member? "kind" =
      some (.object (("node", .string variant) :: fields)) := by
  simp [member?_record]

theorem decodeLocation?_record (variant : String) (fields : List (String × Json))
    {l : Option Location} (h : ∀ here, l = some here → here.Bounded) :
    decodeLocation? (record variant fields l) = some l := by
  refine Json.optional?_field? Location.encode ?_ nofun fun here hhere => ?_
  · exact (member?_record variant fields l "location").trans (by simp)
  · exact Location.decode?_encode (h here hhere)

theorem decodeRecords?_encode {standing : Json.Standing} {ts : List Target}
    (h : ∀ t ∈ ts, decodeRecord? standing t.encode = if t.AllFinite then some t else none) :
    decodeRecords? standing (encodeAll ts) = if ∀ t ∈ ts, t.AllFinite then some ts else none := by
  induction ts with
  | nil => simp [encodeAll, decodeRecords?]
  | cons t ts ih =>
      obtain ⟨ht, hts⟩ := List.forall_mem_cons.mp h
      rw [encodeAll, decodeRecords?, ht, ih hts, Json.bind_ite, Json.bind_ite, ← ite_and]
      exact if_congr List.forall_mem_cons.symm rfl rfl

/-- What is read for a tree, by what is read for the trees below it. -/
def reread : Target → Option Target
  | .name id use l => Use.ofWord? use.word >>= fun use => some (.name id use l)
  | .string value l => some (.string value l)
  | .number value l => Number.decode? value.encode >>= fun value => some (.number value l)
  | .call func args l =>
    decodeRecord? .inside func.encode >>= fun func =>
    decodeRecords? .inside (encodeAll args) >>= fun args => some (.call func args l)
  | .binary left op right l =>
    Arithmetic.ofWord? op.word >>= fun op =>
    decodeRecord? .inside left.encode >>= fun left =>
    decodeRecord? .inside right.encode >>= fun right => some (.binary left op right l)
  | .compare left ops comparators l =>
    decodeRecord? .inside left.encode >>= fun left =>
    decodeOps? (ops.map fun op => .string op.word) >>= fun ops =>
    decodeRecords? .inside (encodeAll comparators) >>= fun comparators =>
      some (.compare left ops comparators l)
  | .branch test body orelse l =>
    decodeRecord? .inside test.encode >>= fun test =>
    decodeRecords? .inside (encodeAll body) >>= fun body =>
    decodeRecords? .inside (encodeAll orelse) >>= fun orelse => some (.branch test body orelse l)
  | .ret value l => decodeRecord? .inside value.encode >>= fun value => some (.ret value l)
  | .assign target value l =>
    decodeRecord? .inside target.encode >>= fun target =>
    decodeRecord? .inside value.encode >>= fun value => some (.assign target value l)
  | .function id params body l =>
    decodeRecords? .inside (encodeAll params) >>= fun params =>
    decodeRecords? .inside (encodeAll body) >>= fun body => some (.function id params body l)
  | .print values newline l =>
    decodeRecords? .inside (encodeAll values) >>= fun values => some (.print values newline l)
  | .statement value l =>
    decodeRecord? .inside value.encode >>= fun value => some (.statement value l)

theorem decodeRecord?_eq_reread {t : Target} (h : ∀ l, t.location = some l → l.Bounded)
    (standing : Json.Standing) : decodeRecord? standing t.encode = t.reread := by
  cases t <;>
    · rw [location] at h
      rw [encode, decodeRecord?, Json.bind_of_eq_some (decodeLocation?_record _ _ h),
        Json.bind_field? (member?_kind _ _ _)]
      rfl

/-- Trees are read back from what is stored, unless an infinite or undefined number is lost. -/
theorem decodeRecord?_encode {t : Target} (h : t.Bounded) (standing : Json.Standing) :
    decodeRecord? standing t.encode = if t.AllFinite then some t else none := by
  induction t using Target.induction generalizing standing with
  | step t ih =>
      obtain ⟨hl, hchildren⟩ := bounded_iff.mp h
      -- The trees below are read back, and lists of them.
      have hone (c : Target) (hc : c ∈ t.children) :
          decodeRecord? .inside c.encode = if c.AllFinite then some c else none :=
        ih c hc (hchildren c hc) .inside
      have hall (cs : List Target) (hcs : ∀ c ∈ cs, c ∈ t.children) :
          decodeRecords? .inside (encodeAll cs) =
            if ∀ c ∈ cs, c.AllFinite then some cs else none :=
        decodeRecords?_encode fun c hc => hone c (hcs c hc)
      rw [decodeRecord?_eq_reread hl]
      have hfinite := @allFinite_iff t
      cases t with
      | name id use l =>
          rw [reread, Use.ofWord?_word]
          exact (if_pos (by simp [hfinite, children, float?])).symm
      | string value l => exact (if_pos (by simp [hfinite, children, float?])).symm
      | number value l =>
          rw [reread, Number.decode?_encode, Json.bind_ite]
          refine if_congr ?_ rfl rfl
          cases value <;> simp [hfinite, children, float?, Number.isFinite]
      | call func args l =>
          rw [reread, hone func (by simp [children]),
            hall args fun c hc => by simp [children, hc], Json.bind_ite, Json.bind_ite,
            ← ite_and]
          exact if_congr (by simp [hfinite, children, float?]) rfl rfl
      | binary left op right l =>
          rw [reread, Json.bind_of_eq_some (Arithmetic.ofWord?_word op),
            hone left (by simp [children]), hone right (by simp [children]),
            Json.bind_ite, Json.bind_ite, ← ite_and]
          exact if_congr (by simp [hfinite, children, float?]) rfl rfl
      | compare left ops comparators l =>
          rw [reread, hone left (by simp [children]),
            hall comparators fun c hc => by simp [children, hc], Json.bind_ite,
            Json.bind_of_eq_some (decodeOps?_encode ops), Json.bind_ite, ← ite_and]
          exact if_congr (by simp [hfinite, children, float?]) rfl rfl
      | branch test body orelse l =>
          rw [reread, hone test (by simp [children]),
            hall body fun c hc => by simp [children, hc],
            hall orelse fun c hc => by simp [children, hc], Json.bind_ite, Json.bind_ite,
            Json.bind_ite, ← ite_and, ← ite_and]
          exact if_congr (by simp [hfinite, children, float?, or_imp, forall_and, and_assoc])
            rfl rfl
      | ret value l =>
          rw [reread, hone value (by simp [children]), Json.bind_ite]
          exact if_congr (by simp [hfinite, children, float?]) rfl rfl
      | assign target value l =>
          rw [reread, hone target (by simp [children]),
            hone value (by simp [children]), Json.bind_ite, Json.bind_ite, ← ite_and]
          exact if_congr (by simp [hfinite, children, float?]) rfl rfl
      | function id params body l =>
          rw [reread, hall params fun c hc => by simp [children, hc],
            hall body fun c hc => by simp [children, hc], Json.bind_ite, Json.bind_ite,
            ← ite_and]
          exact if_congr (by simp [hfinite, children, float?, or_imp, forall_and]) rfl rfl
      | print values newline l =>
          rw [reread, hall values fun c hc => hc, Json.bind_ite]
          exact if_congr (by simp [hfinite, children, float?]) rfl rfl
      | statement value l =>
          rw [reread, hone value (by simp [children]), Json.bind_ite]
          exact if_congr (by simp [hfinite, children, float?]) rfl rfl

/-! ### Writing trees -/

section

variable {P : Json → Prop} (hP : Json.Hereditary P)
include hP

theorem record_iff {variant : String} {fields : List (String × Json)} {l : Option Location}
    (hl : ∀ here, l = some here → P here.encode) :
    P (record variant fields l) ↔ ∀ field ∈ fields, P field.2 := by
  have hlocation : ∀ member ∈ Json.present "location" (l.map Location.encode), P member.2 := by
    intro member hmember
    cases l with
    | none => cases hmember
    | some here =>
        obtain rfl := List.mem_singleton.mp hmember
        exact hl here rfl
  rw [record, hP.object, List.forall_mem_cons, hP.object, List.forall_mem_cons]
  exact ⟨fun h => h.1.2, fun h => ⟨⟨hP.string variant, h⟩, hlocation⟩⟩

theorem encodeAll_iff {ts : List Target} :
    P (.array (encodeAll ts)) ↔ ∀ t ∈ ts, P t.encode := by
  rw [encodeAll_eq_map, hP.array, List.forall_mem_map]

theorem encodeOps_holds (ops : List Comparison) : P (encodeOps ops) :=
  hP.array.mpr (List.forall_mem_map.mpr fun op _ => hP.string op.word)

theorem encode_iff_children {t : Target} (hl : ∀ here, t.location = some here → P here.encode) :
    P t.encode ↔ (∀ v l, t = .number v l → P v.encode) ∧ ∀ c ∈ t.children, P c.encode := by
  have hrecord {variant : String} {fields : List (String × Json)} :=
    @record_iff P hP variant fields t.location hl
  cases t with
  | number | name | string | binary | ret | assign | statement =>
      simp only [location] at hrecord
      simp [encode, hrecord, children, hP.string]
  | compare =>
      simp only [location] at hrecord
      simp [encode, hrecord, encodeAll_iff hP, encodeOps_holds hP, children]
  | call | branch | function | print =>
      simp only [location] at hrecord
      simp [encode, hrecord, encodeAll_iff hP, children, hP.string, hP.bool, or_imp, forall_and]

theorem encode_iff {t : Target} (hlocations : ∀ l ∈ t.locations, P l.encode) :
    P t.encode ↔ ∀ v l, .number v l ∈ t.nodes → P v.encode := by
  induction t using Target.induction with
  | step t ih =>
      rw [locations_eq, List.forall_mem_append, List.forall_mem_flatMap] at hlocations
      obtain ⟨hhere, hbelow⟩ := hlocations
      have hchildren := forall₂_congr fun c hc => ih c hc (hbelow c hc)
      rw [encode_iff_children hP fun l hl => hhere l (Option.mem_toList.mpr hl), hchildren,
        nodes_eq]
      constructor
      · intro h v l hv
        rcases List.mem_cons.mp hv with heq | hv
        · exact h.1 v l heq.symm
        · obtain ⟨c, hc, hv⟩ := List.mem_flatMap.mp hv
          exact h.2 c hc v l hv
      · intro h
        refine ⟨fun v l heq => h v l (heq ▸ List.mem_cons_self), fun c hc v l hv => h v l ?_⟩
        exact List.mem_cons_of_mem _ (List.mem_flatMap.mpr ⟨c, hc, hv⟩)

end

end Target

/-! ### Programs -/

namespace Program

def locations (p : Program) : List Location := p.body.flatMap Target.locations

def floats (p : Program) : List Binary64 := p.body.flatMap Target.floats

theorem locations_eq (p : Program) :
    p.locations = (Target.nodesAll p.body).filterMap Target.location := by
  rw [Target.nodesAll_eq_flatMap, List.filterMap_flatMap]
  rfl

/-- A program is read back from what is stored, unless an infinite or undefined number is lost. -/
theorem decode?_encode {p : Program} (h : ∀ l ∈ p.locations, l.Bounded) :
    decode? p.encode = if ∀ x ∈ p.floats, x.isFinite then some p else none := by
  have hname : p.encode.member? "name" = some (.string p.name) := rfl
  have hbody : p.encode.member? "body" = some (.array (Target.encodeAll p.body)) := rfl
  have hread : decode? p.encode =
      Target.decodeRecords? .alone (Target.encodeAll p.body) >>= fun body =>
        some ⟨p.name, body⟩ := by
    rw [decode?, Json.bind_field? hname, Json.bind_field? hbody]
    rfl
  rw [hread, Target.decodeRecords?_encode fun t ht =>
    Target.decodeRecord?_encode (List.forall_mem_flatMap.mp h t ht) .alone, Json.bind_ite]
  exact if_congr List.forall_mem_flatMap.symm rfl rfl

theorem encode_iff {P : Json → Prop} (hP : Json.Hereditary P) {p : Program}
    (hlocations : ∀ l ∈ p.locations, P l.encode) :
    P p.encode ↔ ∀ v l, .number v l ∈ Target.nodesAll p.body → P v.encode := by
  have hbody : P p.encode ↔ ∀ t ∈ p.body, P t.encode := by
    simp [encode, hP.object, hP.string, Target.encodeAll_iff hP]
  have hone := forall₂_congr fun t ht =>
    Target.encode_iff hP (List.forall_mem_flatMap.mp hlocations t ht)
  rw [hbody, hone, Target.nodesAll_eq_flatMap]
  constructor
  · intro h v l hv
    obtain ⟨t, ht, hv⟩ := List.mem_flatMap.mp hv
    exact h t ht v l hv
  · exact fun h t ht v l hv => h v l (List.mem_flatMap.mpr ⟨t, ht, hv⟩)

theorem storable_encode {p : Program} (h : ∀ l ∈ p.locations, l.Bounded) : p.encode.Storable :=
  (encode_iff Json.hereditary_storable fun l hl => Location.storable_encode (h l hl)).mpr
    fun v _ _ => v.storable_encode

end Program

/-- **Decoding undoes encoding.**  What is stored for a tree or a program, in either style, is read
back as that tree or that program if all floats in it are finite, and is not read at all if one is
infinite or undefined.  Lines and columns are words of 64 bits. -/
theorem decode_encode :
    (∀ s : Source, (∀ l ∈ s.locations, l.Bounded) → ∀ text ∈ [s.encode.compact, s.encode.pretty],
      (Json.parse? text).bind Source.decode? =
        if ∀ x ∈ s.floats, x.isFinite then some s else none) ∧
    ∀ p : Program, (∀ l ∈ p.locations, l.Bounded) → ∀ text ∈ [p.encode.compact, p.stored],
      (Json.parse? text).bind Program.decode? =
        if ∀ x ∈ p.floats, x.isFinite then some p else none := by
  have hread {j : Json} (hj : j.Storable) : ∀ text ∈ [j.compact, j.pretty],
      Json.parse? text = some j :=
    List.forall_mem_cons.mpr ⟨Json.parse?_render hj Json.Style.isBlank_compact,
      List.forall_mem_singleton.mpr (Json.parse?_render hj Json.Style.isBlank_pretty)⟩
  constructor
  · intro s h text htext
    rw [hread (Source.storable_encode h) text htext]
    exact Source.decodeRecord?_encode h .alone
  · intro p h text htext
    rw [hread (Program.storable_encode h) text htext]
    exact Program.decode?_encode h

/-- The call `(f "\n" -0.0)` and a program that returns negative zero are read back, with the sign
of the zero; the call of an undefined number is lost. -/
theorem decode_encode_zero :
    let here : Location := ⟨"t.hy", 1, 1⟩
    let zero : Binary64 := .finite true ⟨0, by decide⟩
    let call (x : Binary64) : Source :=
      .call "f" [.string "\n", .number (.float x)] (.ofSpan ⟨here, ⟨"t.hy", 1, 14⟩⟩)
    let program : Program := ⟨"m", [.ret (.number (.float zero) none) (some here)]⟩
    (∀ x, ∀ l ∈ (call x).locations, l.Bounded) ∧ (∀ l ∈ program.locations, l.Bounded) ∧
      (Json.parse? (call zero).encode.compact).bind Source.decode? = some (call zero) ∧
      (Json.parse? (call .nan).encode.compact).bind Source.decode? = none ∧
      (Json.parse? program.stored).bind Program.decode? = some program := by
  intro here zero call program
  have hcall : ∀ x, ∀ l ∈ (call x).locations, l.Bounded := by
    intro x
    have hlocations : (call x).locations = [here, here, ⟨"t.hy", 1, 14⟩] := rfl
    rw [hlocations]
    decide
  have hprogram : ∀ l ∈ program.locations, l.Bounded := by decide
  obtain ⟨hsource, htarget⟩ := decode_encode
  refine ⟨hcall, hprogram, ?_, ?_, ?_⟩
  · rw [hsource (call zero) (hcall zero) _ (by simp)]
    exact if_pos (by decide)
  · rw [hsource (call .nan) (hcall .nan) _ (by simp)]
    exact if_neg (by decide)
  · rw [htarget program hprogram _ (by simp)]
    exact if_pos (by decide)

end FormLower
