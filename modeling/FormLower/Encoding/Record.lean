import FormLower.Json.Value

/-! # Records in the data format

A record is stored as an object with a member for each field; members of other names count for
nothing.  It may also be given as an array of its fields in their order, of which the last ones may
be missing.  A record of one of several variants names its variant in its first field; inside
another record the number of the variant does as well. -/

namespace FormLower
namespace Json

/-- A value inside another one. -/
abbrev Part (j : Json) : Type := { part : Json // sizeOf part < sizeOf j }

theorem sizeOf_lastMember? {name : String} {value : Json} :
    ∀ {members : List (String × Json)}, lastMember? name members = some value →
      sizeOf value < sizeOf members
  | [], h => by simp [lastMember?] at h
  | (key, first) :: rest, h => by
    rw [lastMember?] at h
    split at h
    · next later hl =>
      have hr := sizeOf_lastMember? hl
      rw [Option.some.injEq] at h
      subst h
      simp only [List.cons.sizeOf_spec]
      omega
    · split at h
      · rw [Option.some.injEq] at h
        subst h
        simp only [List.cons.sizeOf_spec, Prod.mk.sizeOf_spec]
        omega
      · exact absurd h (by simp)

theorem sizeOf_lastMember?_zip {name : String} {value : Json} {fields : List String}
    {items : List Json} (h : lastMember? name (fields.zip items) = some value) :
    sizeOf value < sizeOf items := by
  induction items generalizing fields value with
  | nil => simp [lastMember?] at h
  | cons item items ih =>
    cases fields with
    | nil => simp [lastMember?] at h
    | cons field fields =>
      rw [List.zip_cons_cons, lastMember?] at h
      simp only [List.cons.sizeOf_spec]
      split at h
      · next later hl =>
        have := ih hl
        rw [Option.some.injEq] at h
        subst h
        omega
      · split at h
        · rw [Option.some.injEq] at h
          subst h
          omega
        · exact absurd h (by simp)

/-- The field of a record with the given fields. -/
def field? (fields : List String) (name : String) (j : Json) : Option (Part j) :=
  match j with
  | .object members =>
    match h : lastMember? name members with
    | some value =>
      some ⟨value, by have := sizeOf_lastMember? h; simp only [object.sizeOf_spec]; omega⟩
    | none => none
  | .array items =>
    if items.length ≤ fields.length then
      match h : lastMember? name (fields.zip items) with
      | some value =>
        some ⟨value, by have := sizeOf_lastMember?_zip h; simp only [array.sizeOf_spec]; omega⟩
      | none => none
    else none
  | _ => none

/-- Where a record stands: by itself, or inside another record. -/
inductive Standing where
  | alone
  | inside
deriving DecidableEq, Repr

/-- The variant that a value names.  Inside another record it may also be given by its number. -/
def asVariant? (variants : List String) (standing : Standing) : Json → Option String
  | .string name => some name
  | .integer value =>
    if standing = .inside ∧ 0 ≤ value then variants[value.toNat]? else none
  | _ => none

/-- The variant of a record whose first field names it. -/
def variant? (tag : String) (variants : List String) (standing : Standing) (j : Json) :
    Option String :=
  match j with
  | .object members => (lastMember? tag members).bind (asVariant? variants standing)
  | .array (first :: _) => asVariant? variants standing first
  | _ => none

def items? (j : Json) : Option { items : List Json // sizeOf items < sizeOf j } :=
  match j with
  | .array items => some ⟨items, by simp only [array.sizeOf_spec]; omega⟩
  | _ => none

/-! ### Scalars -/

def string? : Json → Option String
  | .string value => some value
  | _ => none

def bool? : Json → Option Bool
  | .bool value => some value
  | _ => none

/-- A natural number of 64 bits. -/
def nat? : Json → Option Nat
  | .integer value => if 0 ≤ value ∧ value < pow2 64 then some value.toNat else none
  | _ => none

/-- A word out of a fixed list, given as a string or as an object with that one member and nothing
in it. -/
def word? : Json → Option String
  | .string name => some name
  | .object [(name, .null)] => some name
  | .object [(name, .object [])] => some name
  | _ => none

/-- A value that may be missing or null. -/
def optional? {α : Type} (decode : Json → Option α) {j : Json} :
    Option (Part j) → Option (Option α)
  | none => some none
  | some ⟨.null, _⟩ => some none
  | some ⟨value, _⟩ => (decode value).map some

/-- A member that is left out when there is nothing in it. -/
def present (name : String) : Option Json → List (String × Json)
  | some value => [(name, value)]
  | none => []

end Json
end FormLower
