import FormLower.Encoding.Place
import FormLower.Proofs.Json.Scanning

/-! # Numbers and places are stored without loss

What is said here of the fields of a record holds of every record that is stored: a member is found
by its name, and one that is left out stands for nothing (`optional?_field?`).  Numbers and places
are stored and read back, but for infinite and undefined numbers, which are not read at all. -/

namespace FormLower
namespace Json

/-! ### Members -/

theorem lastMember?_cons (name key : String) (value : Json) (members : List (String × Json)) :
    lastMember? name ((key, value) :: members) =
      (lastMember? name members).or (if key = name then some value else none) := by
  rw [lastMember?]
  cases lastMember? name members <;> rfl

theorem lastMember?_append (name : String) (ms ms' : List (String × Json)) :
    lastMember? name (ms ++ ms') = (lastMember? name ms').or (lastMember? name ms) := by
  induction ms with
  | nil => simp [lastMember?]
  | cons m ms ih =>
      rw [List.cons_append, lastMember?_cons, ih, lastMember?_cons, Option.or_assoc]

theorem lastMember?_present (name key : String) (value : Option Json) :
    lastMember? name (present key value) = if key = name then value else none := by
  cases value <;> simp [present, lastMember?]

section

variable {j value : Json} {fields : List String} {name : String}

theorem sizeOf_member? (h : j.member? name = some value) : sizeOf value < sizeOf j := by
  cases j with
  | object members =>
      have hlt := sizeOf_lastMember? h
      simp only [object.sizeOf_spec]
      omega
  | _ => cases h

theorem field?_eq_some (h : j.member? name = some value) :
    j.field? fields name = some ⟨value, sizeOf_member? h⟩ := by
  cases j with
  | object members =>
      have hmember : lastMember? name members = some value := h
      simp only [field?]
      split
      · next value' h' =>
          obtain rfl : value' = value := Option.some.inj (h'.symm.trans hmember)
          rfl
      · next h' => cases h'.symm.trans hmember
  | _ => cases h

theorem bind_of_eq_some {α β : Type} {x : Option α} {a : α} (h : x = some a) (f : α → Option β) :
    (x >>= f) = f a := by
  rw [h]
  rfl

theorem bind_ite {α β : Type} {p : Prop} [Decidable p] (a : α) (f : α → Option β) :
    ((if p then some a else none) >>= f) = if p then f a else none := by
  split <;> rfl

theorem bind_field? {β : Type} (h : j.member? name = some value) (f : Part j → Option β) :
    (j.field? fields name >>= f) = f ⟨value, sizeOf_member? h⟩ :=
  bind_of_eq_some (field?_eq_some h) f

theorem field?_eq_none {members : List (String × Json)}
    (h : (object members).member? name = none) : (object members).field? fields name = none := by
  simp only [field?]
  split
  · next h' => cases h'.symm.trans h
  · rfl

/-- A member that is left out, or holds something that is stored, stands for what was there. -/
theorem optional?_field? {α : Type} (encode : α → Json) {decode : Json → Option α} {a : Option α}
    {members : List (String × Json)} (h : (object members).member? name = a.map encode)
    (hnull : ∀ x, encode x ≠ .null) (hdecode : ∀ x, a = some x → decode (encode x) = some x) :
    optional? decode ((object members).field? fields name) = some a := by
  cases a with
  | none => rw [field?_eq_none h, optional?]
  | some x =>
      have hmember : (object members).member? name = some (encode x) := h
      have hvalue := hnull x
      have hread := hdecode x rfl
      obtain ⟨value, heq⟩ : ∃ value, encode x = value := ⟨_, rfl⟩
      rw [heq] at hmember hvalue hread
      rw [field?_eq_some hmember]
      cases value with
      | null => exact absurd rfl hvalue
      | _ => simp [optional?, hread]

end

theorem nat?_integer {n : Nat} (h : n < pow2 64) : nat? (.integer n) = some n := by
  have hrange : 0 ≤ (n : Int) ∧ (n : Int) < pow2 64 := ⟨Int.natCast_nonneg n, by exact_mod_cast h⟩
  rw [nat?, if_pos hrange, Int.toNat_natCast]

theorem storable_natCast {n : Nat} (h : n < pow2 64) : (Json.integer n).Storable :=
  .integer ⟨Int.le_trans (Int.neg_nonpos_of_nonneg (Int.natCast_nonneg _)) (Int.natCast_nonneg n),
    Int.ofNat_lt.mpr h⟩

theorem storable_present {name : String} {value : Option Json}
    (h : ∀ v, value = some v → v.Storable) : ∀ member ∈ present name value, member.2.Storable := by
  cases value with
  | none => simp [present]
  | some v => simpa [present] using h v rfl

/-- What strings and truth values have, and an array or an object exactly if everything in it
has. -/
structure Hereditary (P : Json → Prop) : Prop where
  bool (value : Bool) : P (.bool value)
  string (value : String) : P (.string value)
  array {items : List Json} : P (.array items) ↔ ∀ item ∈ items, P item
  object {members : List (String × Json)} : P (.object members) ↔ ∀ member ∈ members, P member.2

theorem hereditary_storable : Hereditary Storable where
  bool := .bool
  string := .string
  array := by
    refine ⟨fun h => ?_, .array⟩
    cases h with
    | array hitems => exact hitems
  object := by
    refine ⟨fun h => ?_, .object⟩
    cases h with
    | object hmembers => exact hmembers

end Json

/-! ### Numbers -/

theorem Number.decode?_encode (n : Number) :
    decode? n.encode = if n.isFinite then some n else none := by
  cases n with
  | int value =>
      have hrange : InRange value.toInt := ⟨Int64.le_toInt value, Int64.toInt_lt value⟩
      simp [encode, decode?, ofInt?, hrange, isFinite]
  | float x => cases x <;> rfl

theorem Number.storable_encode (n : Number) : n.encode.Storable := by
  cases n with
  | int value =>
      have hlow := Int64.le_toInt value
      have hhigh := Int64.toInt_lt value
      exact .integer ⟨hlow, Int.lt_trans hhigh (by decide)⟩
  | float x =>
      cases x with
      | finite negative rank => exact .float rfl
      | infinite => exact .null
      | nan => exact .null

/-! ### Places -/

/-- The line and the column are words of 64 bits. -/
def Location.Bounded (l : Location) : Prop := l.line < pow2 64 ∧ l.column < pow2 64

instance (l : Location) : Decidable l.Bounded := inferInstanceAs (Decidable (_ ∧ _))

theorem Location.decode?_encode {l : Location} (h : l.Bounded) : decode? l.encode = some l := by
  have hfile : l.encode.member? "file" = some (.string l.file) := rfl
  have hline : l.encode.member? "line" = some (.integer l.line) := rfl
  have hcolumn : l.encode.member? "column" = some (.integer l.column) := rfl
  rw [decode?, Json.bind_field? hfile, Json.bind_field? hline, Json.bind_field? hcolumn,
    Json.nat?_integer h.1, Json.nat?_integer h.2]
  rfl

theorem Location.storable_encode {l : Location} (h : l.Bounded) : l.encode.Storable := by
  refine .object (List.forall_mem_cons.mpr ⟨.string _, List.forall_mem_cons.mpr ⟨?_, ?_⟩⟩)
  · exact Json.storable_natCast h.1
  · exact List.forall_mem_singleton.mpr (Json.storable_natCast h.2)

/-- Both ends of a span are words of 64 bits. -/
def Span.Bounded (s : Span) : Prop := s.start.Bounded ∧ s.stop.Bounded

theorem Span.decode?_encode {s : Span} (h : s.Bounded) : decode? s.encode = some s := by
  have hstart : s.encode.member? "start" = some s.start.encode := rfl
  have hstop : s.encode.member? "end" = some s.stop.encode := rfl
  rw [decode?, Json.bind_field? hstart, Json.bind_field? hstop, Location.decode?_encode h.1,
    Location.decode?_encode h.2]
  rfl

theorem Span.storable_encode {s : Span} (h : s.Bounded) : s.encode.Storable :=
  .object (List.forall_mem_cons.mpr ⟨Location.storable_encode h.1,
    List.forall_mem_singleton.mpr (Location.storable_encode h.2)⟩)

namespace Place

/-- The locations of a place, the ends of its span included. -/
def locations (p : Place) : List Location :=
  p.location.toList ++ p.span.toList.flatMap fun s => [s.start, s.stop]

/-- All locations of a place are words of 64 bits. -/
def Bounded (p : Place) : Prop := ∀ l ∈ p.locations, l.Bounded

variable {p : Place}

theorem Bounded.location (h : p.Bounded) {l : Location} (hl : p.location = some l) : l.Bounded :=
  h l (by simp [locations, hl])

theorem Bounded.span (h : p.Bounded) {s : Span} (hs : p.span = some s) : s.Bounded :=
  ⟨h s.start (by simp [locations, hs]), h s.stop (by simp [locations, hs])⟩

end Place

end FormLower
