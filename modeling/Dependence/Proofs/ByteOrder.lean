import Mathlib.Data.List.Lex
import Dependence.Json.Basic

/-! The order of texts by their bytes. The encoding of a character begins with a byte that tells how
many bytes follow and has the highest digits of its number, to the base 64; each of the bytes that
follow has one digit more. So a later character has a greater encoding, and it is greater at a byte
that both have: bytes put texts in the same order as characters do. -/

namespace Dependence.Json

open String (utf8EncodeChar)

variable {c d : Char} {s t : String} {k m n : Nat}

def shift : Nat → Nat → Nat
  | 0, n => n
  | k + 1, n => shift k (n / 64)

def lastBytes : Nat → Nat → Bytes
  | 0, _ => []
  | k + 1, n => lastBytes k (n / 64) ++ [UInt8.ofNat (n % 64 + 128)]

def following (n : Nat) : Nat :=
  if n ≤ 0x7F then 0 else if n ≤ 0x7FF then 1 else if n ≤ 0xFFFF then 2 else 3

def marker : Nat → Nat
  | 0 => 0
  | 1 => 192
  | 2 => 224
  | _ => 240

def lead (n : Nat) : Nat := shift (following n) n + marker (following n)

theorem toNat_val_lt (c : Char) : c.val.toNat < 0x110000 := by
  rcases c.valid with h | h
  · exact Nat.lt_trans h (by decide)
  · exact h.2

theorem utf8EncodeChar_eq (c : Char) :
    utf8EncodeChar c =
      UInt8.ofNat (lead c.val.toNat) :: lastBytes (following c.val.toNat) c.val.toNat := by
  have hlt := toNat_val_lt c
  simp only [utf8EncodeChar]
  generalize c.val.toNat = n at hlt ⊢
  simp only [lead, following]
  split_ifs
  · rfl
  · have htop : n / 64 < 32 := by omega
    simp [shift, marker, lastBytes, Nat.mod_eq_of_lt htop]
  · have htop : n / 4096 < 16 := by omega
    simp [shift, marker, lastBytes, Nat.div_div_eq_div_mul, Nat.mod_eq_of_lt htop]
  · have htop : n / 262144 < 8 := by omega
    simp [shift, marker, lastBytes, Nat.div_div_eq_div_mul, Nat.mod_eq_of_lt htop]

theorem lead_lt (hn : n < 0x110000) : lead n < 256 := by
  simp only [lead, following]
  split_ifs <;> simp only [shift, marker] <;> omega

theorem shift_mono (k : Nat) (h : m ≤ n) : shift k m ≤ shift k n := by
  induction k generalizing m n with
  | zero => exact h
  | succ k ih => exact ih (Nat.div_le_div_right h)

theorem following_mono (h : m ≤ n) : following m ≤ following n := by
  simp only [following]
  split_ifs <;> omega

/-- The first byte alone tells numbers apart that are followed by different numbers of bytes. -/
theorem lead_lt_of_following_lt (h : following m < following n) : lead m < lead n := by
  simp only [lead]
  simp only [following] at h ⊢
  split_ifs at h ⊢ <;> simp only [shift, marker] <;> omega

theorem lead_lt_or_eq (h : m < n) :
    lead m < lead n ∨ following m = following n ∧ shift (following n) m = shift (following n) n := by
  rcases Nat.lt_or_eq_of_le (following_mono (Nat.le_of_lt h)) with hlt | heq
  · exact .inl (lead_lt_of_following_lt hlt)
  · rcases Nat.lt_or_eq_of_le (shift_mono (following n) (Nat.le_of_lt h)) with hlt | hshift
    · refine .inl ?_
      rw [lead, lead, heq]
      exact Nat.add_lt_add_right hlt _
    · exact .inr ⟨heq, hshift⟩

theorem ofNat_lt_ofNat (hn : n < 256) (h : m < n) : UInt8.ofNat m < UInt8.ofNat n :=
  (UInt8.ofNat_lt_iff_lt (Nat.lt_trans h hn) hn).mpr h

theorem lastBytes_append_lt (h : m < n) (hshift : shift k m = shift k n) (as bs : Bytes) :
    lastBytes k m ++ as < lastBytes k n ++ bs := by
  induction k generalizing m n as bs with
  | zero => exact absurd hshift h.ne
  | succ k ih =>
    simp only [lastBytes, List.append_assoc, List.singleton_append]
    -- a higher digit decides, or else the lowest one does
    rcases Nat.lt_or_ge (m / 64) (n / 64) with hlt | hge
    · exact ih hlt hshift _ _
    · have heq : m / 64 = n / 64 := by omega
      rw [heq]
      have hdigit : n % 64 + 128 < 256 := by omega
      exact List.Lex.append_left _ (.rel (ofNat_lt_ofNat hdigit (by omega))) _

theorem utf8EncodeChar_append_lt (h : c < d) (as bs : Bytes) :
    utf8EncodeChar c ++ as < utf8EncodeChar d ++ bs := by
  have hlt : c.val.toNat < d.val.toNat := h
  rw [utf8EncodeChar_eq, utf8EncodeChar_eq]
  rcases lead_lt_or_eq hlt with hlead | ⟨hfollowing, hshift⟩
  · exact .rel (ofNat_lt_ofNat (lead_lt (toNat_val_lt d)) hlead)
  · rw [lead, lead, hfollowing, hshift]
    exact .cons (lastBytes_append_lt hlt hshift as bs)

theorem flatMap_utf8EncodeChar_lt {cs ds : List Char} (h : cs < ds) :
    cs.flatMap utf8EncodeChar < ds.flatMap utf8EncodeChar := by
  induction h with
  | @nil d ds =>
    rw [List.flatMap_cons, utf8EncodeChar_eq]
    exact .nil
  | rel h => exact utf8EncodeChar_append_lt h _ _
  | cons _ ih => exact List.Lex.append_left _ ih _

theorem ofString_eq_flatMap (s : String) : Bytes.ofString s = s.toList.flatMap utf8EncodeChar := by
  rw [Bytes.ofString, String.toUTF8_eq_toByteArray, ← String.utf8Encode_toList, List.utf8Encode,
    List.toList_data_toByteArray]

theorem ofString_lt_ofString : Bytes.ofString s < Bytes.ofString t ↔ s < t := by
  have hmono : ∀ {s t : String}, s < t → Bytes.ofString s < Bytes.ofString t := by
    intro s t h
    rw [ofString_eq_flatMap, ofString_eq_flatMap]
    exact flatMap_utf8EncodeChar_lt (String.lt_iff.mp h)
  refine ⟨fun h => ?_, hmono⟩
  -- any other order of the texts would be one of their bytes too
  by_contra hnot
  rcases Std.le_iff_lt_or_eq.mp (String.not_lt.mp hnot) with hlt | rfl
  · exact List.lt_asymm h (hmono hlt)
  · exact List.lt_irrefl _ h

theorem ofString_le_ofString : Bytes.ofString s ≤ Bytes.ofString t ↔ s ≤ t := by
  rw [← List.not_lt, ofString_lt_ofString, String.not_lt]

end Dependence.Json
