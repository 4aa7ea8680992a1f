import Ionosphere.Core.Base32

/-! The base-32 form of a TOTP secret. -/
namespace Ionosphere.Core

open Ionosphere.Js Ionosphere.Lib.BitGroups

variable {digits : List Nat}

def BASE32 : Text := "ABCDEFGHIJKLMNOPQRSTUVWXYZ234567".toList

def base32Char (n : Nat) : Char := BASE32.getD n 'A'

/-- `BASE32.indexOf(ch)`. -/
def base32Value (ch : Char) : Option Nat := BASE32.idxOf? ch

def base32Encode (bytes : Bytes) : Text :=
  let s := fives bytes
  let out := s.out.map base32Char
  if 0 < s.bits then out ++ [base32Char (s.buffer <<< (5 - s.bits) &&& 31#32).toNat] else out

structure EightStream where
  buffer : BitVec 32 := 0
  bits : Nat := 0
  out : Bytes := []

def EightStream.push (s : EightStream) (v : Nat) : EightStream :=
  let buffer := s.buffer <<< 5 ||| BitVec.ofNat 32 v
  let bits := s.bits + 5
  if 8 ≤ bits then
    ⟨buffer, bits - 8, s.out ++ [UInt8.ofNat (buffer >>> (bits - 8) &&& 0xff#32).toNat]⟩
  else ⟨buffer, bits, s.out⟩

def base32Loop : EightStream → Text → Option EightStream
  | s, [] => some s
  | s, ch :: clean =>
    match base32Value ch with
    | none => none
    | some v => base32Loop (s.push v) clean

def isBase32Filler (c : Char) : Bool := isWhiteSpace c || c == '='

/-- `text.replace(/[\s=]/g, "").toUpperCase()`. -/
def base32Clean (u : CaseMap) (text : Text) : Text :=
  toUpperCase u (text.filter fun c => !isBase32Filler c)

def base32Decode (u : CaseMap) (text : Text) : Option Bytes :=
  (base32Loop {} (base32Clean u text)).map EightStream.out

/-- Between two digits less than a byte is pending, and no bit of what was read is lost. -/
def EightsHold (digits : List Nat) (s : EightStream) : Prop :=
  Holds 8 (digits.flatMap (bits 5)) s.buffer s.bits (s.out.map UInt8.toNat) ∧ s.bits < 8

theorem eightsHold_push {s : EightStream} (h : EightsHold digits s) {v : Nat}
    (hv : v < 32) : EightsHold (digits ++ [v]) (s.push v) := by
  obtain ⟨hholds, hfew⟩ := h
  have hpush := hholds.push (v := v) (show s.bits + 5 ≤ 32 by omega) hv
  rw [← List.flatMap_singleton (bits 5) v, ← List.flatMap_append] at hpush
  unfold EightStream.push
  dsimp only
  by_cases hfull : 8 ≤ s.bits + 5
  · rw [if_pos hfull]
    refine ⟨?_, show s.bits + 5 - 8 < 8 by omega⟩
    have hemit := hpush.emit hfull
    have hbyte := top_lt 8 (s.bits + 5) (s.buffer <<< 5 ||| BitVec.ofNat 32 v)
    rw [← top_eq_ushiftRight (by decide),
      show BitVec.ofNat 32 (2 ^ 8 - 1) = 0xff#32 from rfl] at hemit hbyte
    rw [List.map_append, List.map_singleton, UInt8.toNat_ofNat_of_lt' hbyte]
    exact hemit
  · rw [if_neg hfull]
    exact ⟨hpush, show s.bits + 5 < 8 by omega⟩

theorem base32Value_lt {ch : Char} {v : Nat} (h : base32Value ch = some v) : v < 32 := by
  obtain ⟨hlt, -⟩ := List.idxOf?_eq_some_iff.mp h
  exact hlt

theorem base32Loop_holds {clean : Text} {s s' : EightStream}
    (hs : EightsHold digits s) (h : base32Loop s clean = some s') :
    EightsHold (digits ++ clean.filterMap base32Value) s' := by
  induction clean generalizing s digits with
  | nil =>
    cases h
    rw [List.filterMap_nil, List.append_nil]
    exact hs
  | cons ch clean ih =>
    unfold base32Loop at h
    cases hch : base32Value ch with
    | none =>
      rw [hch] at h
      cases h
    | some v =>
      rw [hch] at h
      have hrest := ih (eightsHold_push hs (base32Value_lt hch)) h
      rw [List.append_assoc] at hrest
      rw [List.filterMap_cons_some hch]
      exact hrest

theorem base32Value_char : ∀ d < 32, base32Value (base32Char d) = some d := by decide

theorem base32Char_clean : ∀ d < 32, isAscii (base32Char d) = true ∧
    asciiUpper (base32Char d) = base32Char d ∧ isBase32Filler (base32Char d) = false := by decide

theorem filterMap_base32Char (h : ∀ d ∈ digits, d < 32) :
    (digits.map base32Char).filterMap base32Value = digits := by
  rw [List.filterMap_map]
  refine (List.filterMap_congr fun d hd => ?_).trans List.filterMap_some
  exact base32Value_char d (h d hd)

theorem base32Clean_char (u : CaseMap) (h : ∀ d ∈ digits, d < 32) :
    base32Clean u (digits.map base32Char) = digits.map base32Char := by
  have hclean : ∀ c ∈ digits.map base32Char, isAscii c = true ∧ asciiUpper c = c ∧
      isBase32Filler c = false := by
    intro c hc
    obtain ⟨d, hd, rfl⟩ := List.mem_map.mp hc
    exact base32Char_clean d (h d hd)
  have hkept : (digits.map base32Char).filter (fun c => !isBase32Filler c) =
      digits.map base32Char := by
    refine List.filter_eq_self.mpr fun c hc => ?_
    rw [(hclean c hc).2.2]
    rfl
  rw [base32Clean, hkept, toUpperCase_ascii u (List.all_eq_true.mpr fun c hc => (hclean c hc).1)]
  refine (List.map_congr_left fun c hc => ?_).trans (List.map_id _)
  exact (hclean c hc).2.1

theorem base32Loop_map (h : ∀ d ∈ digits, d < 32) (s : EightStream) :
    ∃ s', base32Loop s (digits.map base32Char) = some s' := by
  induction digits generalizing s with
  | nil => exact ⟨s, rfl⟩
  | cons d digits ih =>
    obtain ⟨hd, hrest⟩ := List.forall_mem_cons.mp h
    rw [List.map_cons, base32Loop, base32Value_char d hd]
    exact ih hrest (s.push d)

theorem bits_lastDigit {buffer : BitVec 32} {n : Nat} (h : n < 5) :
    bits 5 (buffer <<< (5 - n) &&& 31#32).toNat = bits n buffer.toNat ++ bits (5 - n) 0 := by
  have hmask : bits 5 (buffer <<< (5 - n) &&& 31#32).toNat =
      bits 5 (buffer <<< (5 - n) ||| BitVec.ofNat 32 0).toNat := by
    refine bits_congr fun i hi => ?_
    have hlow : (31#32).getLsbD i = true := by
      rw [show (31#32) = BitVec.ofNat 32 (2 ^ 5 - 1) from rfl, BitVec.getLsbD_ofNat,
        Nat.testBit_two_pow_sub_one]
      simp [hi, show i < 32 by omega]
    rw [BitVec.testBit_toNat, BitVec.testBit_toNat, BitVec.getLsbD_and, BitVec.getLsbD_or, hlow]
    simp
  have hpush : bits (n + (5 - n)) (buffer <<< (5 - n) ||| BitVec.ofNat 32 0).toNat =
      bits n buffer.toNat ++ bits (5 - n) 0 := bits_push (by omega) (Nat.two_pow_pos _)
  rw [Nat.add_sub_cancel' (Nat.le_of_lt h)] at hpush
  exact hmask.trans hpush

theorem base32Encode_digits (bytes : Bytes) :
    ∃ digits : List Nat, base32Encode bytes = digits.map base32Char ∧ (∀ d ∈ digits, d < 32) ∧
      ∃ rest, digits.flatMap (bits 5) = byteBits bytes ++ rest ∧ rest.length < 5 := by
  obtain ⟨hholds, hfew⟩ := fives_holds bytes
  unfold base32Encode
  dsimp only
  by_cases hpending : 0 < (fives bytes).bits
  · rw [if_pos hpending]
    have hlast : ((fives bytes).buffer <<< (5 - (fives bytes).bits) &&& 31#32).toNat < 32 := by
      rw [BitVec.toNat_and]
      exact Nat.lt_succ_of_le Nat.and_le_right
    refine ⟨(fives bytes).out ++ [((fives bytes).buffer <<< (5 - (fives bytes).bits) &&&
      31#32).toNat], ?_, ?_, bits (5 - (fives bytes).bits) 0, ?_, ?_⟩
    · rw [List.map_append, List.map_singleton]
    · intro d hd
      rcases List.mem_append.mp hd with hout | hd
      · exact hholds.small d hout
      · rw [List.mem_singleton.mp hd]
        exact hlast
    · rw [List.flatMap_append, List.flatMap_singleton, bits_lastDigit hfew, hholds.content,
        List.append_assoc]
    · rw [bits_length]
      omega
  · rw [if_neg hpending]
    have hnone : (fives bytes).bits = 0 := by omega
    have hcontent := hholds.content
    rw [hnone, bits, List.append_nil] at hcontent
    refine ⟨(fives bytes).out, rfl, hholds.small, [], ?_, by decide⟩
    rw [List.append_nil, hcontent]

theorem map_toNat_inj {a b : Bytes} (h : a.map UInt8.toNat = b.map UInt8.toNat) : a = b :=
  List.map_injective_iff.mpr (fun _ _ => UInt8.toNat_inj.mp) h

theorem base32Decode_encode (u : CaseMap) (bytes : Bytes) :
    base32Decode u (base32Encode bytes) = some bytes := by
  obtain ⟨digits, hdigits, hsmall, rest, hbits, hrest⟩ := base32Encode_digits bytes
  obtain ⟨s, hs⟩ := base32Loop_map hsmall {}
  have hstart : EightsHold [] {} := ⟨Holds.start 8 0, by decide⟩
  obtain ⟨hholds, hfew⟩ := base32Loop_holds hstart hs
  rw [List.nil_append, filterMap_base32Char hsmall] at hholds
  rw [byteBits_eq] at hbits
  have hout : s.out.map UInt8.toNat = bytes.map UInt8.toNat := by
    refine hholds.groups hfew ?_ hbits (by omega)
    intro d hd
    obtain ⟨b, -, rfl⟩ := List.mem_map.mp hd
    exact b.toNat_lt
  rw [base32Decode, hdigits, base32Clean_char u hsmall, hs, Option.map_some, map_toNat_inj hout]

end Ionosphere.Core
