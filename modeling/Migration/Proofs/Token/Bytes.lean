import Mathlib.Data.String.Basic
import Migration.Token.Scan

/-!
# Texts as bytes

A text is a row of bytes in UTF-8. A character below 128 is one byte, which is its number; of any other
character all bytes are from 128 on (`exists_utf8_cons`). So who looks for such a small byte never finds one
inside a character, wherever the search starts.

`ReadAt s i cs` says that the byte position `i` of the text `s` is one between two characters, and that the
characters `cs` are ahead.
-/

namespace Migration

namespace Scan

/-! ### Bytes of characters -/

/-- The bytes of characters in UTF-8. -/
def utf8 (cs : List Char) : List UInt8 := cs.flatMap String.utf8EncodeChar

/-- The bytes of a text. -/
def bytes (s : String) : List UInt8 := s.toByteArray.data.toList

theorem bytes_ofList (cs : List Char) : bytes (String.ofList cs) = utf8 cs := by
  rw [bytes, String.toByteArray_ofList]
  simp [utf8, List.utf8Encode]

theorem bytes_eq (s : String) : bytes s = utf8 s.toList := by
  rw [← bytes_ofList, String.ofList_toList]

@[simp] theorem byteLength_nil : byteLength [] = 0 := rfl

@[simp] theorem byteLength_cons (c : Char) (cs : List Char) :
    byteLength (c :: cs) = c.utf8Size + byteLength cs := rfl

theorem utf8_append (cs ds : List Char) : utf8 (cs ++ ds) = utf8 cs ++ utf8 ds := List.flatMap_append

theorem length_utf8 (cs : List Char) : (utf8 cs).length = byteLength cs := by
  induction cs with
  | nil => rfl
  | cons c cs ih =>
    rw [utf8] at ih ⊢
    rw [List.flatMap_cons, List.length_append, ih, String.length_utf8EncodeChar]
    rfl

theorem byteLength_append (cs ds : List Char) : byteLength (cs ++ ds) = byteLength cs + byteLength ds := by
  rw [← length_utf8, utf8_append, List.length_append, length_utf8, length_utf8]

theorem byteLength_eq_utf8Len (cs : List Char) : byteLength cs = String.utf8Len cs := by
  induction cs with
  | nil => rfl
  | cons c cs ih => rw [String.utf8Len_cons, ← ih, byteLength_cons, Nat.add_comm]

theorem byteLength_toList (s : String) : byteLength s.toList = s.utf8ByteSize := by
  rw [byteLength_eq_utf8Len, ← String.utf8ByteSize_ofList, String.ofList_toList]

theorem length_le_byteLength (cs : List Char) : cs.length ≤ byteLength cs := by
  induction cs with
  | nil => exact Nat.le_refl 0
  | cons c cs ih =>
    have hc := c.utf8Size_pos
    rw [List.length_cons, byteLength_cons]
    omega

theorem utf8EncodeChar_of_small {c : Char} (h : c.val ≤ 127) : String.utf8EncodeChar c = [c.toUInt8] :=
  String.utf8EncodeChar_eq_singleton (Char.utf8Size_eq_one_iff.mpr h)

theorem utf8Size_of_small {c : Char} (h : c.val ≤ 127) : c.utf8Size = 1 := Char.utf8Size_eq_one_iff.mpr h

/-- Of a greater character all bytes are great. -/
theorem le_of_mem_utf8EncodeChar {c : Char} (h : ¬ c.val ≤ 127) {b : UInt8}
    (hb : b ∈ String.utf8EncodeChar c) : 128 ≤ b.toNat := by
  have hval : ¬ c.val.toNat ≤ 127 := fun hle => h (UInt32.le_iff_toNat_le.mpr hle)
  unfold String.utf8EncodeChar at hb
  simp only [if_neg hval] at hb
  split_ifs at hb <;> simp only [List.mem_cons, List.not_mem_nil, or_false] at hb <;>
    rcases hb with rfl | rfl | rfl | rfl <;> simp only [UInt8.toNat_ofNat'] <;> omega

/-- A row of bytes none of which is a character of its own. -/
def IsInner (hi : List UInt8) : Prop := ∀ b ∈ hi, 128 ≤ b.toNat

/-! ### Small bytes -/

theorem forall_small {cs : List Char} (h : (cs.all fun c => c.val ≤ 127) = true) :
    ∀ c ∈ cs, c.val ≤ 127 := fun c hc => of_decide_eq_true (List.all_eq_true.mp h c hc)

/-- A test of characters, as one of bytes. It fails at the bytes of greater characters. -/
def onByte (test : Char → Bool) (b : UInt8) : Bool := b.toNat < 128 && test (Char.ofUInt8 b)

theorem ofUInt8_toUInt8 {c : Char} (h : c.val ≤ 127) : Char.ofUInt8 c.toUInt8 = c := by
  have hle := UInt32.le_iff_toNat_le.mp h
  apply Char.ext
  apply UInt32.toNat.inj
  show (c.val.toUInt8.toUInt32).toNat = c.val.toNat
  rw [UInt8.toNat_toUInt32, UInt32.toNat_toUInt8]
  change c.val.toNat ≤ 127 at hle
  omega

theorem toNat_toUInt8 {c : Char} (h : c.val ≤ 127) : c.toUInt8.toNat = c.val.toNat := by
  have hle := UInt32.le_iff_toNat_le.mp h
  change c.val.toNat ≤ 127 at hle
  show c.val.toUInt8.toNat = c.val.toNat
  rw [UInt32.toNat_toUInt8]
  omega

theorem onByte_toUInt8 {c : Char} (h : c.val ≤ 127) (test : Char → Bool) :
    onByte test c.toUInt8 = test c := by
  have hle : c.val.toNat < 128 := Nat.lt_succ_of_le (UInt32.le_iff_toNat_le.mp h)
  rw [onByte, ofUInt8_toUInt8 h, toNat_toUInt8 h, decide_eq_true hle, Bool.true_and]

theorem onByte_of_inner {b : UInt8} (h : 128 ≤ b.toNat) (test : Char → Bool) : onByte test b = false := by
  rw [onByte, decide_eq_false (Nat.not_lt.mpr h), Bool.false_and]

/-- A test that only small characters pass. -/
def IsSmall (test : Char → Bool) : Prop := ∀ c, test c = true → c.val ≤ 127

theorem isSmall_beq {t : Char} (h : t.val ≤ 127) : IsSmall (· == t) := by
  intro c hc
  rwa [beq_iff_eq.mp hc]

/-- **The bytes of a character** are a first one, of which a test says what it says of the character, and
others that no test finds. -/
theorem exists_utf8_cons (c : Char) (cs : List Char) : ∃ b hi, utf8 (c :: cs) = b :: (hi ++ utf8 cs) ∧
    IsInner hi ∧ hi.length + 1 = c.utf8Size ∧ ∀ test, IsSmall test → onByte test b = test c := by
  have hutf8 : utf8 (c :: cs) = String.utf8EncodeChar c ++ utf8 cs := List.flatMap_cons
  have hlength := String.length_utf8EncodeChar c
  by_cases h : c.val ≤ 127
  · rw [utf8EncodeChar_of_small h] at hutf8 hlength
    exact ⟨c.toUInt8, [], hutf8, List.forall_mem_nil _, hlength, fun test _ => onByte_toUInt8 h test⟩
  · have hinner : IsInner (String.utf8EncodeChar c) := fun b => le_of_mem_utf8EncodeChar h
    cases hbytes : String.utf8EncodeChar c with
    | nil =>
      have hpos := c.utf8Size_pos
      rw [hbytes] at hlength
      exact absurd hlength.symm (Nat.ne_of_gt hpos)
    | cons b hi =>
      rw [hbytes] at hutf8 hlength hinner
      obtain ⟨hb, hhi⟩ := List.forall_mem_cons.mp hinner
      refine ⟨b, hi, hutf8, hhi, hlength, fun test htest => ?_⟩
      rw [onByte_of_inner hb, Bool.eq_false_iff.mpr fun hc => h (htest c hc)]

theorem utf8_cons_of_small {c : Char} (h : c.val ≤ 127) (cs : List Char) :
    utf8 (c :: cs) = c.toUInt8 :: utf8 cs := by
  rw [utf8, List.flatMap_cons, utf8EncodeChar_of_small h]
  rfl

/-- A byte is that of a small character when the test for the character finds it. -/
theorem beq_toUInt8 {t : Char} (h : t.val ≤ 127) (b : UInt8) : (t.toUInt8 == b) = onByte (· == t) b := by
  rw [Bool.eq_iff_iff, beq_iff_eq]
  constructor
  · rintro rfl
    rw [onByte_toUInt8 h, beq_self_eq_true]
  · intro hb
    obtain ⟨_, heq⟩ := Bool.and_eq_true_iff.mp hb
    rw [← beq_iff_eq.mp heq]
    exact UInt8.toUInt8_toUInt32 b

/-- Small characters are found in front of others as their bytes are. -/
theorem isPrefixOf_utf8 {ts : List Char} (hts : ∀ t ∈ ts, t.val ≤ 127) (cs : List Char) :
    (utf8 ts).isPrefixOf (utf8 cs) = ts.isPrefixOf cs := by
  induction ts generalizing cs with
  | nil => simp [utf8]
  | cons t ts ih =>
    have ht := hts t List.mem_cons_self
    rw [utf8_cons_of_small ht]
    cases cs with
    | nil => rfl
    | cons c cs =>
      obtain ⟨b, hi, hcs, hinner, hlength, htest⟩ := exists_utf8_cons c cs
      rw [hcs, List.isPrefixOf_cons_cons, List.isPrefixOf_cons_cons, beq_toUInt8 ht,
        htest _ (isSmall_beq ht), Bool.beq_comm (a := t)]
      cases hc : c == t with
      | false => rfl
      | true =>
        -- the character is small, so it has no other bytes
        rw [beq_iff_eq] at hc
        subst hc
        rw [utf8Size_of_small ht] at hlength
        rw [List.eq_nil_of_length_eq_zero (Nat.succ.inj hlength)]
        exact congrArg (true && ·) (ih (fun u hu => hts u (List.mem_cons_of_mem _ hu)) cs)

/-! ### Positions -/

/-- The byte position lies between two characters of the text, and these are ahead. -/
def ReadAt (s : String) (i : Nat) (cs : List Char) : Prop :=
  ∃ before, s = String.ofList (before ++ cs) ∧ byteLength before = i

namespace ReadAt

variable {s : String} {i : Nat} {cs ds : List Char}

theorem start (s : String) : ReadAt s 0 s.toList := ⟨[], (String.ofList_toList).symm, rfl⟩

theorem advance (h : ReadAt s i (cs ++ ds)) : ReadAt s (i + byteLength cs) ds := by
  obtain ⟨before, rfl, rfl⟩ := h
  exact ⟨before ++ cs, by rw [List.append_assoc], byteLength_append before cs⟩

theorem drop_one {c : Char} (hc : c.val ≤ 127) (h : ReadAt s i (c :: cs)) : ReadAt s (i + 1) cs := by
  have hrest : ReadAt s (i + byteLength [c]) cs := advance h
  rwa [byteLength_cons, utf8Size_of_small hc] at hrest

theorem drop_bytes (h : ReadAt s i cs) : (bytes s).drop i = utf8 cs := by
  obtain ⟨before, rfl, rfl⟩ := h
  rw [bytes_ofList, utf8_append, ← length_utf8, List.drop_left]

theorem length_bytes (h : ReadAt s i cs) : (bytes s).length = i + byteLength cs := by
  obtain ⟨before, rfl, rfl⟩ := h
  rw [bytes_ofList, length_utf8, byteLength_append]

theorem isValid (h : ReadAt s i cs) : String.Pos.Raw.isValid s ⟨i⟩ = true := by
  obtain ⟨before, rfl, rfl⟩ := h
  rw [String.Pos.Raw.isValid_eq_true_iff, String.Pos.Raw.isValid_iff_exists_append]
  refine ⟨String.ofList before, String.ofList cs, String.ofList_append, ?_⟩
  rw [byteLength_eq_utf8Len, ← String.utf8ByteSize_ofList]
  rfl

theorem extract (h : ReadAt s i (cs ++ ds)) :
    String.Pos.Raw.extract s ⟨i⟩ ⟨i + byteLength cs⟩ = String.ofList cs := by
  obtain ⟨before, rfl, rfl⟩ := h
  rw [← List.append_assoc, byteLength_eq_utf8Len, byteLength_eq_utf8Len]
  exact String.extract_of_valid before cs ds

theorem get {c : Char} (h : ReadAt s i (c :: cs)) : String.Pos.Raw.get s ⟨i⟩ = c := by
  obtain ⟨before, rfl, rfl⟩ := h
  rw [byteLength_eq_utf8Len]
  exact String.get_of_valid before (c :: cs)

end ReadAt

end Scan

end Migration
