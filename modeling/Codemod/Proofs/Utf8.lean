import Codemod.Text.Basic
import Codemod.Text.Utf8
import Mathlib.Tactic.Common

/-!
# Bytes of a text

The bytes of a text are as many as its byte length says, and they are read back as the same text.
-/

namespace Codemod

namespace Utf8

/-! ### Encoding -/

@[simp]
theorem encode_nil :
  encode [] = []
  := rfl

@[simp]
theorem encode_cons (c : Char) (cs : List Char) :
  encode (c :: cs) = String.utf8EncodeChar c ++ encode cs
  := rfl

@[simp]
theorem encode_append (s t : List Char) :
  encode (s ++ t) = encode s ++ encode t
  := List.flatMap_append

/-- A text has as many bytes as its byte length says. -/
@[simp]
theorem length_encode (cs : List Char) :
  (encode cs).length = Text.byteLength cs
  := by
  induction cs with
  | nil => rfl
  | cons c cs ih => simp [ih]

/-! ### Decoding -/

/-- The number of a byte. -/
theorem toNat_byte {v : Nat} (hv : v < 256) :
  (UInt8.ofNat v).toNat = v
  := by
  rw [UInt8.toNat_ofNat']
  apply Nat.mod_eq_of_lt hv

theorem isContinuation_iff (b : UInt8) :
  isContinuation b = true ↔ 0x80 ≤ b.toNat ∧ b.toNat ≤ 0xBF
  := by
  simp [isContinuation, UInt8.le_iff_toNat_le]

theorem isSecondOfThree_iff (a b : UInt8) :
  isSecondOfThree a b = true ↔ isContinuation b = true
    ∧ ¬ (a.toNat = 0xE0 ∧ b.toNat < 0xA0) ∧ ¬ (a.toNat = 0xED ∧ 0xA0 ≤ b.toNat)
  := by
  simp [isSecondOfThree, UInt8.le_iff_toNat_le, UInt8.lt_iff_toNat_lt, ← UInt8.toNat_inj,
    and_assoc, imp_iff_not_or]

theorem isSecondOfFour_iff (a b : UInt8) :
  isSecondOfFour a b = true ↔ isContinuation b = true
    ∧ ¬ (a.toNat = 0xF0 ∧ b.toNat < 0x90) ∧ ¬ (a.toNat = 0xF4 ∧ 0x90 ≤ b.toNat)
  := by
  simp [isSecondOfFour, UInt8.le_iff_toNat_le, UInt8.lt_iff_toNat_lt, ← UInt8.toNat_inj,
    and_assoc, imp_iff_not_or]

/-- A first byte of several passes the tests for single bytes and for bytes that start nothing. -/
theorem isFirst_of_several {a : UInt8} (h : 0xC2 ≤ a.toNat) (h' : a.toNat < 0xF5) :
  ¬ a < 0x80 ∧ (decide (a < 0xC2) || decide (0xF5 ≤ a)) = false
  := by
  simp only [UInt8.lt_iff_toNat_lt, UInt8.le_iff_toNat_le, UInt8.reduceToNat, Bool.or_eq_false_iff,
    decide_eq_false_iff_not]
  omega

/-- A byte that stands for itself. -/
theorem decodeAt_one (offset : Nat) {a : UInt8} (ha : a.toNat < 0x80) (bs : List UInt8) :
  decodeAt offset (a :: bs) = (decodeAt (offset + 1) bs).map (Char.ofNat a.toNat :: ·)
  := by
  have h : a < 0x80 := UInt8.lt_iff_toNat_lt.mpr ha
  rw [decodeAt.eq_def]
  simp only [h, if_true]

/-- A character of two bytes. -/
theorem decodeAt_two (offset : Nat) {a b : UInt8} (ha : 0xC2 ≤ a.toNat) (ha' : a.toNat < 0xE0)
    (hb : isContinuation b = true) (bs : List UInt8) :
  decodeAt offset (a :: b :: bs)
    = (decodeAt (offset + 2) bs).map (Char.ofNat ((a.toNat - 0xC0) * 64 + lowBits b) :: ·)
  := by
  obtain ⟨h₁, h₂⟩ := isFirst_of_several ha (by omega)
  have h₃ : a < 0xE0 := UInt8.lt_iff_toNat_lt.mpr ha'
  rw [decodeAt.eq_def]
  simp only [h₁, h₂, h₃, hb, if_true, if_false, Bool.false_eq_true]

/-- A character of three bytes. -/
theorem decodeAt_three (offset : Nat) {a b c : UInt8} (ha : 0xE0 ≤ a.toNat)
    (ha' : a.toNat < 0xF0) (hb : isSecondOfThree a b = true) (hc : isContinuation c = true)
    (bs : List UInt8) :
  decodeAt offset (a :: b :: c :: bs)
    = (decodeAt (offset + 3) bs).map
        (Char.ofNat ((a.toNat - 0xE0) * 4096 + lowBits b * 64 + lowBits c) :: ·)
  := by
  obtain ⟨h₁, h₂⟩ := isFirst_of_several (a := a) (by omega) (by omega)
  have h₃ : ¬ a < 0xE0 := UInt8.not_lt.mpr (UInt8.le_iff_toNat_le.mpr ha)
  have h₄ : a < 0xF0 := UInt8.lt_iff_toNat_lt.mpr ha'
  rw [decodeAt.eq_def]
  simp only [h₁, h₂, h₃, h₄, hb, hc, if_true, if_false, Bool.false_eq_true]

/-- A character of four bytes. -/
theorem decodeAt_four (offset : Nat) {a b c d : UInt8} (ha : 0xF0 ≤ a.toNat)
    (ha' : a.toNat < 0xF5) (hb : isSecondOfFour a b = true) (hc : isContinuation c = true)
    (hd : isContinuation d = true) (bs : List UInt8) :
  decodeAt offset (a :: b :: c :: d :: bs)
    = (decodeAt (offset + 4) bs).map
        (Char.ofNat ((a.toNat - 0xF0) * 262144 + lowBits b * 4096 + lowBits c * 64 + lowBits d)
          :: ·)
  := by
  obtain ⟨h₁, h₂⟩ := isFirst_of_several (a := a) (by omega) (by omega)
  have h₃ : ¬ a < 0xE0 :=
    UInt8.not_lt.mpr (UInt8.le_iff_toNat_le.mpr (Nat.le_trans (by decide) ha))
  have h₄ : ¬ a < 0xF0 := UInt8.not_lt.mpr (UInt8.le_iff_toNat_le.mpr ha)
  rw [decodeAt.eq_def]
  simp only [h₁, h₂, h₃, h₄, hb, hc, hd, if_true, if_false, Bool.false_eq_true]

/-- The number behind a mark in a byte. -/
theorem toNat_byte_sub {v m : Nat} (hv : v + m < 256) :
  (UInt8.ofNat (v + m)).toNat - m = v
  := by
  rw [toNat_byte hv, Nat.add_sub_cancel]

theorem lowBits_byte {v : Nat} (hv : v < 64) :
  lowBits (UInt8.ofNat (v + 0x80)) = v
  := toNat_byte_sub (by omega)

theorem isContinuation_byte {v : Nat} (hv : v < 64) :
  isContinuation (UInt8.ofNat (v + 0x80)) = true
  := by
  have h := toNat_byte (v := v + 0x80) (by omega)
  apply (isContinuation_iff _).mpr
  omega

/-- A character is given by its number. -/
theorem ofNat_eq_of_toNat {c : Char} {v : Nat} (h : v = c.toNat) :
  Char.ofNat v = c
  := by
  rw [h, Char.ofNat_toNat]

/-- The bytes of one character are read as this character. -/
theorem decodeAt_utf8EncodeChar (offset : Nat) (c : Char) (bs : List UInt8) :
  decodeAt offset (String.utf8EncodeChar c ++ bs)
    = (decodeAt (offset + c.utf8Size) bs).map (c :: ·)
  := by
  have hc : c.toNat < 0xD800 ∨ 0xDFFF < c.toNat ∧ c.toNat < 0x110000 := c.valid
  rw [← String.length_utf8EncodeChar]
  fun_cases String.utf8EncodeChar c with
  | case1 v h =>
    have hv : v = c.toNat := rfl
    clear_value v
    have h₀ := toNat_byte (v := v) (by omega)
    simp only [List.cons_append, List.nil_append, List.length_cons, List.length_nil, Nat.reduceAdd]
    rw [decodeAt_one _ (by omega), h₀, ofNat_eq_of_toNat hv]
  | case2 v h1 h2 =>
    have hv : v = c.toNat := rfl
    clear_value v
    have h₀ := toNat_byte (v := v / 64 % 32 + 192) (by omega)
    have hn : v / 64 % 32 * 64 + v % 64 = c.toNat := by omega
    simp only [List.cons_append, List.nil_append, List.length_cons, List.length_nil, Nat.reduceAdd]
    rw [decodeAt_two _ (by omega) (by omega) (isContinuation_byte (by omega)),
      toNat_byte_sub (by omega), lowBits_byte (by omega), ofNat_eq_of_toNat hn]
  | case3 v h1 h2 h3 =>
    have hv : v = c.toNat := rfl
    clear_value v
    have h₀ := toNat_byte (v := v / 4096 % 16 + 224) (by omega)
    have h₁ := toNat_byte (v := v / 64 % 64 + 128) (by omega)
    have hn : v / 4096 % 16 * 4096 + v / 64 % 64 * 64 + v % 64 = c.toNat := by omega
    have hs : isSecondOfThree (UInt8.ofNat (v / 4096 % 16 + 224))
        (UInt8.ofNat (v / 64 % 64 + 128)) = true := by
      apply (isSecondOfThree_iff _ _).mpr
      use isContinuation_byte (by omega)
      omega
    simp only [List.cons_append, List.nil_append, List.length_cons, List.length_nil, Nat.reduceAdd]
    rw [decodeAt_three _ (by omega) (by omega) hs (isContinuation_byte (by omega)),
      toNat_byte_sub (by omega), lowBits_byte (by omega), lowBits_byte (by omega),
      ofNat_eq_of_toNat hn]
  | case4 v h1 h2 h3 =>
    have hv : v = c.toNat := rfl
    clear_value v
    have h₀ := toNat_byte (v := v / 262144 % 8 + 240) (by omega)
    have h₁ := toNat_byte (v := v / 4096 % 64 + 128) (by omega)
    have hn : v / 262144 % 8 * 262144 + v / 4096 % 64 * 4096 + v / 64 % 64 * 64 + v % 64
        = c.toNat := by omega
    have hs : isSecondOfFour (UInt8.ofNat (v / 262144 % 8 + 240))
        (UInt8.ofNat (v / 4096 % 64 + 128)) = true := by
      apply (isSecondOfFour_iff _ _).mpr
      use isContinuation_byte (by omega)
      omega
    simp only [List.cons_append, List.nil_append, List.length_cons, List.length_nil, Nat.reduceAdd]
    rw [decodeAt_four _ (by omega) (by omega) hs (isContinuation_byte (by omega))
      (isContinuation_byte (by omega)), toNat_byte_sub (by omega), lowBits_byte (by omega),
      lowBits_byte (by omega), lowBits_byte (by omega), ofNat_eq_of_toNat hn]

/-- The bytes of a text are read as this text, wherever they stand. -/
theorem decodeAt_encode (offset : Nat) (cs : List Char) :
  decodeAt offset (encode cs) = .ok cs
  := by
  induction cs generalizing offset with
  | nil => rfl
  | cons c cs ih =>
    rw [encode_cons, decodeAt_utf8EncodeChar, ih]
    rfl

/-- The bytes of a text are read as this text. -/
theorem decode_encode (cs : List Char) :
  decode (encode cs) = .ok cs
  := decodeAt_encode 0 cs

end Utf8

end Codemod
