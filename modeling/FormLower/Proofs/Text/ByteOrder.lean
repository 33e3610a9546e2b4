import Mathlib.Data.List.Basic
import Mathlib.Tactic.SplitIfs

/-! # The order of encoded texts

Texts are compared character by character, and so are the bytes that they are encoded in.  Both
orders are the same (`lt_iff_utf8Bytes_lt`): a character with a greater number has an encoding that
is greater at its first byte that differs, whatever follows. -/

namespace FormLower

/-- The bytes that a text is encoded in. -/
def utf8Bytes (s : String) : List UInt8 := s.toUTF8.data.toList

theorem utf8Bytes_eq_flatMap (s : String) :
    utf8Bytes s = s.toList.flatMap String.utf8EncodeChar := by
  rw [utf8Bytes, String.toUTF8, ← String.utf8Encode_toList]
  exact List.toList_data_toByteArray

/-- A lesser character has the lesser encoding, whatever follows it. -/
theorem utf8EncodeChar_append_lt {c d : Char} (h : c < d) (xs ys : List UInt8) :
    String.utf8EncodeChar c ++ xs < String.utf8EncodeChar d ++ ys := by
  have hd : d.val.toNat < 0x110000 := by
    rcases d.valid with h | h <;> omega
  have h4096 : ∀ k, k / 4096 = k / 64 / 64 := fun k => by rw [Nat.div_div_eq_div_mul]
  have h262144 : ∀ k, k / 262144 = k / 64 / 64 / 64 := fun k => by
    rw [Nat.div_div_eq_div_mul, Nat.div_div_eq_div_mul]
  rw [Char.lt_def, UInt32.lt_iff_toNat_lt] at h
  simp only [String.utf8EncodeChar, h4096, h262144]
  generalize c.val.toNat = m at *
  generalize d.val.toNat = n at *
  -- Encodings of different lengths differ in the first byte, others in the first digit that does.
  split_ifs <;>
    simp only [List.cons_append, List.nil_append, List.cons_lt_cons_iff, ← UInt8.toNat_inj,
      UInt8.lt_iff_toNat_lt, UInt8.toNat_ofNat'] <;>
    omega

theorem flatMap_utf8EncodeChar_lt {cs ds : List Char} (h : cs < ds) :
    cs.flatMap String.utf8EncodeChar < ds.flatMap String.utf8EncodeChar := by
  induction cs generalizing ds with
  | nil =>
      cases ds with
      | nil => exact absurd h (List.lt_irrefl [])
      | cons d ds =>
          obtain ⟨b, bs, hd⟩ := List.exists_cons_of_ne_nil (@String.utf8EncodeChar_ne_nil d)
          rw [List.flatMap_cons, hd]
          exact List.nil_lt_cons b _
  | cons c cs ih =>
      cases ds with
      | nil => exact absurd h (List.not_lt_nil _)
      | cons d ds =>
          rw [List.flatMap_cons, List.flatMap_cons]
          rcases List.cons_lt_cons_iff.mp h with hlt | ⟨rfl, hlt⟩
          · exact utf8EncodeChar_append_lt hlt _ _
          · exact List.append_left_lt (ih hlt)

theorem utf8Bytes_lt {a b : String} (h : a < b) : utf8Bytes a < utf8Bytes b := by
  rw [utf8Bytes_eq_flatMap, utf8Bytes_eq_flatMap]
  exact flatMap_utf8EncodeChar_lt h

/-- **Texts are in the order of their bytes.** -/
theorem lt_iff_utf8Bytes_lt {a b : String} : a < b ↔ utf8Bytes a < utf8Bytes b := by
  refine ⟨utf8Bytes_lt, fun h => ?_⟩
  by_contra hge
  have hle : b ≤ a := String.not_lt.mp hge
  by_cases heq : a = b
  · exact List.lt_irrefl _ (heq ▸ h)
  · have hlt : b < a := String.not_le.mp fun hle' => heq (String.le_antisymm hle' hle)
    exact List.lt_asymm h (utf8Bytes_lt hlt)

end FormLower
