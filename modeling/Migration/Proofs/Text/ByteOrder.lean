import Migration.Proofs.Token.Bytes

/-!
# Names in byte order

Names are ordered by their characters. Of two characters the greater one has the greater bytes, and none
has bytes that another one starts with, so the order of the characters is the order of the bytes in UTF-8
(`bytes_lt_iff`).
-/

namespace Migration

open Scan (utf8 bytes bytes_eq)

/-- Two numbers are compared by their digits to the base 64, the last one apart. -/
theorem lt_iff_digits {m n : Nat} :
    m < n ↔ m / 64 < n / 64 ∨ m / 64 = n / 64 ∧ m % 64 < n % 64 := by
  omega

/-- The bytes of the smaller character come first, whatever follows them. -/
theorem utf8EncodeChar_append_lt {c d : Char} (h : c < d) (xs ys : List UInt8) :
    String.utf8EncodeChar c ++ xs < String.utf8EncodeChar d ++ ys := by
  have hval : c.val.toNat < d.val.toNat := UInt32.lt_iff_toNat_lt.mp h
  have hbound : d.val.toNat < 1114112 := by
    have hvalid := d.valid
    simp only [UInt32.isValidChar, Nat.isValidChar] at hvalid
    omega
  unfold String.utf8EncodeChar
  generalize c.val.toNat = m at *
  generalize d.val.toNat = n at *
  have h4096 (k : Nat) : k / 4096 = k / 64 / 64 := (Nat.div_div_eq_div_mul k 64 64).symm
  have h262144 (k : Nat) : k / 262144 = k / 64 / 64 / 64 := by
    rw [Nat.div_div_eq_div_mul, Nat.div_div_eq_div_mul]
  -- The digits decide from the first one on; only the number of bytes is told by their size.
  rw [lt_iff_digits, lt_iff_digits (m := m / 64), lt_iff_digits (m := m / 64 / 64)] at hval
  dsimp only
  simp only [h4096, h262144]
  split_ifs <;> simp only [List.cons_append, List.nil_append, List.cons_lt_cons_iff,
    UInt8.lt_iff_toNat_lt, ← UInt8.toNat_inj, UInt8.toNat_ofNat'] <;> omega

theorem utf8_lt_of_lt {cs ds : List Char} (h : cs < ds) : utf8 cs < utf8 ds := by
  induction h with
  | nil =>
    next d ds =>
    rw [utf8, utf8, List.flatMap_nil, List.flatMap_cons]
    cases hbytes : String.utf8EncodeChar d with
    | nil => exact absurd hbytes (by simp)
    | cons b bs => exact List.nil_lt_cons _ _
  | rel hlt => exact utf8EncodeChar_append_lt hlt _ _
  | cons _ ih =>
    rw [utf8, utf8, List.flatMap_cons, List.flatMap_cons]
    exact List.append_left_lt ih

/-- **The order of names is the order of their bytes.** -/
theorem bytes_lt_iff {a b : String} : bytes a < bytes b ↔ a < b := by
  rw [bytes_eq, bytes_eq]
  refine ⟨fun h => ?_, fun h => utf8_lt_of_lt (String.lt_iff_toList_lt.mp h)⟩
  rw [← String.not_le]
  intro hle
  rcases lt_or_eq_of_le hle with hlt | rfl
  · exact List.lt_asymm h (utf8_lt_of_lt (String.lt_iff_toList_lt.mp hlt))
  · exact List.lt_irrefl _ h

end Migration
