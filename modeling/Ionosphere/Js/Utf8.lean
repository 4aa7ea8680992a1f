import Ionosphere.Js.Decoder

/-! What the text decoder makes of encoded text. -/
namespace Ionosphere.Js

theorem char_valid (c : Char) : c.toNat < 0xd800 ∨ 0xdfff < c.toNat ∧ c.toNat < 0x110000 := c.valid

theorem toNat_ofNat_byte {n : Nat} (h : n < 256) : (UInt8.ofNat n).toNat = n := by
  rw [UInt8.toNat_ofNat']
  exact Nat.mod_eq_of_lt h

theorem utf8Go_cons (s : Utf8State) {n : Nat} (h : n < 256) (bs : Bytes) :
    utf8Go s (UInt8.ofNat n :: bs) = (utf8Step s n).2 ++ utf8Go (utf8Step s n).1 bs := by
  rw [utf8Go, toNat_ofNat_byte h]

theorem utf8Step_continue {needed cp lower upper b : Nat} (hneeded : 1 < needed)
    (hlower : lower ≤ b) (hupper : b ≤ upper) :
    utf8Step ⟨needed, cp, lower, upper⟩ b = (⟨needed - 1, cp * 64 + b % 64, 0x80, 0xbf⟩, []) := by
  have hopen : needed ≠ 0 := by omega
  have hmore : needed ≠ 1 := by omega
  simp only [utf8Step, if_neg hopen, if_pos (And.intro hlower hupper), if_neg hmore]

theorem utf8Step_last {cp lower upper b : Nat} (hlower : lower ≤ b) (hupper : b ≤ upper) :
    utf8Step ⟨1, cp, lower, upper⟩ b = (utf8Idle, [Char.ofNat (cp * 64 + b % 64)]) := by
  have hopen : ¬ (1 : Nat) = 0 := by decide
  simp only [utf8Step, if_neg hopen, if_pos (And.intro hlower hupper), if_true]

theorem utf8Step_idle (b : Nat) : utf8Step utf8Idle b = utf8Start b := rfl

theorem utf8Start_two {b : Nat} (hlow : 0xc2 ≤ b) (hhigh : b ≤ 0xdf) :
    utf8Start b = (⟨1, b - 0xc0, 0x80, 0xbf⟩, []) := by
  have hascii : ¬ b < 0x80 := by omega
  simp only [utf8Start, if_neg hascii, if_pos (And.intro hlow hhigh)]

theorem utf8Start_three {b : Nat} (hlow : 0xe0 ≤ b) (hhigh : b ≤ 0xef) :
    utf8Start b =
      (⟨2, b - 0xe0, if b = 0xe0 then 0xa0 else 0x80, if b = 0xed then 0x9f else 0xbf⟩, []) := by
  have hascii : ¬ b < 0x80 := by omega
  have htwo : ¬ (0xc2 ≤ b ∧ b ≤ 0xdf) := by omega
  simp only [utf8Start, if_neg hascii, if_neg htwo, if_pos (And.intro hlow hhigh)]

theorem utf8Start_four {b : Nat} (hlow : 0xf0 ≤ b) (hhigh : b ≤ 0xf4) :
    utf8Start b =
      (⟨3, b - 0xf0, if b = 0xf0 then 0x90 else 0x80, if b = 0xf4 then 0x8f else 0xbf⟩, []) := by
  have hascii : ¬ b < 0x80 := by omega
  have htwo : ¬ (0xc2 ≤ b ∧ b ≤ 0xdf) := by omega
  have hthree : ¬ (0xe0 ≤ b ∧ b ≤ 0xef) := by omega
  simp only [utf8Start, if_neg hascii, if_neg htwo, if_neg hthree,
    if_pos (And.intro hlow hhigh)]

theorem utf8Go_char (c : Char) (rest : Bytes) :
    utf8Go utf8Idle (String.utf8EncodeChar c ++ rest) = c :: utf8Go utf8Idle rest := by
  have hvalid := char_valid c
  have hself : ∀ n, n = c.toNat → Char.ofNat n = c := by
    rintro n rfl
    exact Char.ofNat_toNat c
  have hval : c.val.toNat = c.toNat := rfl
  simp only [String.utf8EncodeChar, hval]
  split_ifs with hone htwo hthree
  · have hascii : c.toNat < 0x80 := by omega
    rw [List.cons_append, utf8Go_cons _ (by omega), utf8Step_idle, utf8Start, if_pos hascii]
    simp only [hself _ rfl, List.cons_append, List.nil_append]
  · rw [List.cons_append, List.cons_append, utf8Go_cons _ (by omega), utf8Step_idle,
      utf8Start_two (by omega) (by omega), utf8Go_cons _ (by omega),
      utf8Step_last (by omega) (by omega), hself _ (by omega)]
    rfl
  · have hfirst : 0xe0 ≤ c.toNat / 4096 % 16 + 0xe0 := by omega
    have hsecond : (if c.toNat / 4096 % 16 + 0xe0 = 0xe0 then 0xa0 else 0x80) ≤
        c.toNat / 64 % 64 + 0x80 ∧
        c.toNat / 64 % 64 + 0x80 ≤ (if c.toNat / 4096 % 16 + 0xe0 = 0xed then 0x9f else 0xbf) := by
      split_ifs <;> omega
    rw [List.cons_append, List.cons_append, List.cons_append, utf8Go_cons _ (by omega),
      utf8Step_idle, utf8Start_three hfirst (by omega), utf8Go_cons _ (by omega),
      utf8Step_continue (by decide) hsecond.1 hsecond.2, utf8Go_cons _ (by omega),
      utf8Step_last (by omega) (by omega), hself _ (by omega)]
    rfl
  · have hfirst : 0xf0 ≤ c.toNat / 262144 % 8 + 0xf0 := by omega
    have hsecond : (if c.toNat / 262144 % 8 + 0xf0 = 0xf0 then 0x90 else 0x80) ≤
        c.toNat / 4096 % 64 + 0x80 ∧
        c.toNat / 4096 % 64 + 0x80 ≤
          (if c.toNat / 262144 % 8 + 0xf0 = 0xf4 then 0x8f else 0xbf) := by
      split_ifs <;> omega
    rw [List.cons_append, List.cons_append, List.cons_append, List.cons_append,
      utf8Go_cons _ (by omega), utf8Step_idle, utf8Start_four hfirst (by omega),
      utf8Go_cons _ (by omega), utf8Step_continue (by decide) hsecond.1 hsecond.2,
      utf8Go_cons _ (by omega), utf8Step_continue (by decide) (by omega) (by omega),
      utf8Go_cons _ (by omega), utf8Step_last (by omega) (by omega), hself _ (by omega)]
    rfl

theorem utf8Go_encode (s : Text) : utf8Go utf8Idle (utf8Encode s) = s := by
  induction s with
  | nil => rfl
  | cons c cs ih =>
    have hcons : utf8Encode (c :: cs) = String.utf8EncodeChar c ++ utf8Encode cs := rfl
    rw [hcons, utf8Go_char, ih]

theorem utf8Decode_encode {s : Text} (h : s.head? ≠ some byteOrderMark) :
    utf8Decode (utf8Encode s) = s := by
  have hgo := utf8Go_encode s
  unfold utf8Decode
  split
  · rename_i rest heq
    exfalso
    apply h
    have hmark : String.utf8EncodeChar byteOrderMark = [0xef, 0xbb, 0xbf] := by decide
    have hbytes : utf8Encode s = String.utf8EncodeChar byteOrderMark ++ rest := by
      rw [heq, hmark]
      rfl
    rw [hbytes, utf8Go_char] at hgo
    rw [← hgo]
    rfl
  · exact hgo

theorem utf8EncodeChar_ascii {c : Char} (h : c.toNat < 128) :
    String.utf8EncodeChar c = [UInt8.ofNat c.toNat] := by
  have hsize : c.utf8Size = 1 := by
    have hval : c.toNat = c.val.toNat := rfl
    rw [Char.utf8Size_eq_one_iff, UInt32.le_iff_toNat_le]
    simp only [UInt32.reduceToNat]
    omega
  rw [String.utf8EncodeChar_eq_singleton hsize]
  rfl

theorem utf8EncodeChar_high {c : Char} (h : 128 ≤ c.toNat) :
    ∀ b ∈ String.utf8EncodeChar c, 128 ≤ b.toNat := by
  have hvalid := char_valid c
  have hval : c.val.toNat = c.toNat := rfl
  intro b hb
  simp only [String.utf8EncodeChar, hval] at hb
  split_ifs at hb with hone htwo hthree
  · omega
  · simp only [List.mem_cons, List.not_mem_nil, or_false] at hb
    obtain rfl | rfl := hb <;> rw [toNat_ofNat_byte (by omega)] <;> omega
  · simp only [List.mem_cons, List.not_mem_nil, or_false] at hb
    obtain rfl | rfl | rfl := hb <;> rw [toNat_ofNat_byte (by omega)] <;> omega
  · simp only [List.mem_cons, List.not_mem_nil, or_false] at hb
    obtain rfl | rfl | rfl | rfl := hb <;> rw [toNat_ofNat_byte (by omega)] <;> omega

theorem utf8Encode_ascii {s : Text} (h : ∀ c ∈ s, c.toNat < 128) :
    utf8Encode s = latin1Encode s := by
  induction s with
  | nil => rfl
  | cons c s ih =>
    obtain ⟨hc, hs⟩ := List.forall_mem_cons.mp h
    rw [utf8Encode, List.flatMap_cons, ← utf8Encode, ih hs, utf8EncodeChar_ascii hc]
    rfl

end Ionosphere.Js
