import Ionosphere.Core.Base64
import Ionosphere.Core.Totp
import Ionosphere.Js.Decoder
import Ionosphere.Mime.Fields

/-! The decoders of transfer encodings, with the array they write to. Where a text has a character
outside the basic plane its two units count as two. -/
namespace Ionosphere.Mime.Encoding

open Ionosphere.Js Ionosphere.Core Ionosphere.Lib.BitGroups

/-- A `Uint8Array` and how many writes were made to it. -/
structure Output where
  array : Bytes
  n : Nat

/-- `new Uint8Array(size)`. -/
def Output.sized (size : Nat) : Output := ⟨List.replicate size 0, 0⟩

/-- `out[n++] = b`, which past the end changes nothing. -/
def Output.write (o : Output) (b : UInt8) : Output := ⟨o.array.set o.n b, o.n + 1⟩

/-- `out.subarray(0, n)`. -/
def Output.written (o : Output) : Bytes := o.array.take o.n

structure Base64Stream where
  acc : BitVec 32
  bits : Nat
  out : Output

variable {size : Nat} {c : Char} {text : Text} {digits : List Nat} {s : Base64Stream}

def Base64Stream.push (s : Base64Stream) (c : Char) : Base64Stream :=
  match base64Value c with
  | none => s
  | some v =>
    let acc := s.acc <<< 6 ||| BitVec.ofNat 32 v
    let bits := s.bits + 6
    if 8 ≤ bits then
      let bits := bits - 8
      ⟨acc, bits, s.out.write (UInt8.ofNat (acc.sshiftRight bits &&& 0xff#32).toNat)⟩
    else ⟨acc, bits, s.out⟩

/-- `Math.ceil(text.length / 4) * 3`. -/
def base64Size (text : Text) : Nat := (utf16Length text + 3) / 4 * 3

def base64Run (text : Text) : Base64Stream :=
  text.foldl Base64Stream.push ⟨0, 0, Output.sized (base64Size text)⟩

def base64Decode (text : Text) : Bytes := (base64Run text).out.written

/-- `charCodeAt(0) & 0xff` of the units of a character. -/
def lowBytes (c : Char) : Bytes :=
  if c.toNat < 0x10000 then [UInt8.ofNat c.toNat]
  else
    [UInt8.ofNat (0xd800 + (c.toNat - 0x10000) / 0x400),
      UInt8.ofNat (0xdc00 + (c.toNat - 0x10000) % 0x400)]

def quotedPrintableLoop : Text → Output → Output
  | '=' :: '\r' :: '\n' :: text, out => quotedPrintableLoop text out
  | '=' :: '\n' :: text, out => quotedPrintableLoop text out
  | '=' :: a :: b :: text, out =>
    if isHexDigit a && isHexDigit b then quotedPrintableLoop text (out.write (hexByte a b))
    else quotedPrintableLoop (a :: b :: text) (out.write 0x3d)
  | ch :: text, out => quotedPrintableLoop text ((lowBytes ch).foldl Output.write out)
  | [], out => out

def quotedPrintableRun (text : Text) : Output :=
  quotedPrintableLoop text (Output.sized (utf16Length text))

def quotedPrintableDecode (text : Text) : Bytes := (quotedPrintableRun text).written

/-- The array has this size, and nothing that was written is missing from it. -/
structure Filled (size : Nat) (bytes : Bytes) (o : Output) : Prop where
  allocated : o.array.length = size
  count : o.n = bytes.length
  room : bytes.length ≤ size
  kept : o.written = bytes

theorem filled_sized (size : Nat) : Filled size [] (Output.sized size) where
  allocated := List.length_replicate
  count := rfl
  room := Nat.zero_le size
  kept := List.take_zero

section

variable {bytes : Bytes} {o : Output}

theorem Filled.write (h : Filled size bytes o) (hroom : bytes.length < size) (b : UInt8) :
    Filled size (bytes ++ [b]) (o.write b) where
  allocated := List.length_set.trans h.allocated
  count := by rw [Output.write, h.count, List.length_append, List.length_singleton]
  room := by
    rw [List.length_append, List.length_singleton]
    exact hroom
  kept := by
    have hlt : o.n < o.array.length := by
      rw [h.count, h.allocated]
      exact hroom
    have hbefore := h.kept
    unfold Output.written at hbefore ⊢
    rw [Output.write, List.take_add_one, List.take_set_of_le (Nat.le_refl _), hbefore,
      List.getElem?_set_self hlt]
    rfl

theorem Filled.writes (h : Filled size bytes o) {more : Bytes}
    (hroom : bytes.length + more.length ≤ size) :
    Filled size (bytes ++ more) (more.foldl Output.write o) := by
  induction more generalizing bytes o with
  | nil =>
    rw [List.append_nil]
    exact h
  | cons b more ih =>
    rw [List.length_cons] at hroom
    have hrest := ih (h.write (by omega) b)
      (by rw [List.length_append, List.length_singleton]; omega)
    rw [List.append_assoc] at hrest
    exact hrest

theorem Filled.within (h : Filled size bytes o) : o.n ≤ o.array.length := by
  rw [h.count, h.allocated]
  exact h.room

end

/-- Less than a byte is pending, and no bit of the digits that were read is lost. -/
structure Base64Holds (size : Nat) (digits : List Nat) (s : Base64Stream) : Prop where
  filled : Filled size s.out.written s.out
  holds : Holds 8 (digits.flatMap (bits 6)) s.acc s.bits (s.out.written.map UInt8.toNat)
  few : s.bits < 8

theorem base64Value_lt {v : Nat} (h : base64Value c = some v) : v < 64 := by
  unfold base64Value at h
  dsimp only at h
  split_ifs at h <;> cases h <;> omega

theorem base64Holds_push {v : Nat}
    (h : Base64Holds size digits s) (hc : base64Value c = some v)
    (hroom : 6 * (digits.length + 1) ≤ 8 * size) : Base64Holds size (digits ++ [v]) (s.push c) := by
  have hfew := h.few
  have hpush := h.holds.push (v := v) (show s.bits + 6 ≤ 32 by omega) (base64Value_lt hc)
  rw [← List.flatMap_singleton (bits 6) v, ← List.flatMap_append] at hpush
  have hread := hpush.length
  rw [length_flatMap_bits, List.length_append, List.length_singleton, List.length_map] at hread
  unfold Base64Stream.push
  rw [hc]
  dsimp only
  by_cases hfull : 8 ≤ s.bits + 6
  · rw [if_pos hfull]
    have hemit := hpush.emit hfull
    have hbyte := top_lt 8 (s.bits + 6) (s.acc <<< 6 ||| BitVec.ofNat 32 v)
    rw [← top_eq_sshiftRight (show s.bits + 6 ≤ 32 by omega) hfull,
      show BitVec.ofNat 32 (2 ^ 8 - 1) = 0xff#32 from rfl] at hemit hbyte
    have hwrite := h.filled.write (by omega)
      (UInt8.ofNat ((s.acc <<< 6 ||| BitVec.ofNat 32 v).sshiftRight (s.bits + 6 - 8) &&&
        0xff#32).toNat)
    refine ⟨?_, ?_, show s.bits + 6 - 8 < 8 by omega⟩
    · rw [hwrite.kept]
      exact hwrite
    · dsimp only
      rw [hwrite.kept, List.map_append, List.map_singleton, UInt8.toNat_ofNat_of_lt' hbyte]
      exact hemit
  · rw [if_neg hfull]
    exact ⟨h.filled, hpush, show s.bits + 6 < 8 by omega⟩

theorem utf16Length_cons (c : Char) (text : Text) :
    utf16Length (c :: text) = (if c.toNat < 0x10000 then 1 else 2) + utf16Length text := rfl

theorem base64Holds_foldl (h : Base64Holds size digits s)
    (hroom : 6 * (digits.length + utf16Length text) ≤ 8 * size) :
    Base64Holds size (digits ++ text.filterMap base64Value) (text.foldl Base64Stream.push s) := by
  induction text generalizing digits s with
  | nil =>
    rw [List.filterMap_nil, List.append_nil]
    exact h
  | cons c text ih =>
    rw [utf16Length_cons] at hroom
    have hone : 1 ≤ if c.toNat < 0x10000 then 1 else 2 := by split_ifs <;> omega
    cases hc : base64Value c with
    | none =>
      rw [List.foldl_cons, Base64Stream.push, List.filterMap_cons_none hc, hc]
      exact ih h (by omega)
    | some v =>
      have hrest := ih (base64Holds_push h hc (by omega))
        (by rw [List.length_append, List.length_singleton]; omega)
      rw [List.append_assoc] at hrest
      rw [List.foldl_cons, List.filterMap_cons_some hc]
      exact hrest

theorem base64Holds_start (text : Text) :
    Base64Holds (base64Size text) [] ⟨0, 0, Output.sized (base64Size text)⟩ :=
  ⟨filled_sized _, Holds.start 8 0, show 0 < 8 by decide⟩

theorem base64Size_room (text : Text) :
    6 * (([] : List Nat).length + utf16Length text) ≤ 8 * base64Size text := by
  rw [List.length_nil, base64Size]
  omega

theorem base64Holds_run (text : Text) :
    Base64Holds (base64Size text) (text.filterMap base64Value) (base64Run text) :=
  base64Holds_foldl (base64Holds_start text) (base64Size_room text)

theorem bits_split (n w x : Nat) : bits (n + w) x = bits n (x / 2 ^ w) ++ bits w (x % 2 ^ w) := by
  rw [bits_add, Nat.shiftRight_eq_div_pow]
  congr 1
  refine bits_congr fun i hi => ?_
  rw [Nat.testBit_mod_two_pow, decide_eq_true hi, Bool.true_and]

theorem bits_join {n w x y : Nat} (hy : y < 2 ^ w) :
    bits (n + w) (x * 2 ^ w + y) = bits n x ++ bits w y := by
  have hdiv : (x * 2 ^ w + y) / 2 ^ w = x := by
    rw [Nat.mul_comm, Nat.mul_add_div (Nat.two_pow_pos w), Nat.div_eq_of_lt hy, Nat.add_zero]
  have hmod : (x * 2 ^ w + y) % 2 ^ w = y := by
    rw [Nat.mul_comm, Nat.mul_add_mod, Nat.mod_eq_of_lt hy]
  rw [bits_split, hdiv, hmod]

theorem base64Digits_bits (b : Bytes) :
    ∃ rest, (base64Digits b).flatMap (bits 6) = (b.map UInt8.toNat).flatMap (bits 8) ++ rest ∧
      rest.length < 8 := by
  have hfirst : ∀ a : Nat, bits 8 a = bits 6 (a / 4) ++ bits 2 (a % 4) := bits_split 6 2
  have hsecond : ∀ b : Nat, bits 8 b = bits 4 (b / 16) ++ bits 4 (b % 16) := bits_split 4 4
  have hthird : ∀ c : Nat, bits 8 c = bits 2 (c / 64) ++ bits 6 (c % 64) := bits_split 2 6
  have hlow : ∀ x y : Nat, y < 16 → bits 6 (x * 16 + y) = bits 2 x ++ bits 4 y :=
    fun x y hy => bits_join (n := 2) (w := 4) hy
  have hmiddle : ∀ x y : Nat, y < 4 → bits 6 (x * 4 + y) = bits 4 x ++ bits 2 y :=
    fun x y hy => bits_join (n := 4) (w := 2) hy
  fun_induction base64Digits b with
  | case1 => exact ⟨[], rfl, by decide⟩
  | case2 a =>
    refine ⟨bits 4 0, ?_, by decide⟩
    simp only [List.flatMap_cons, List.map_cons, List.map_nil, List.flatMap_nil, List.append_nil]
    rw [hfirst, List.append_assoc, ← hlow _ 0 (by decide), Nat.add_zero]
  | case3 a b =>
    have hb := b.toNat_lt
    refine ⟨bits 2 0, ?_, by decide⟩
    simp only [List.flatMap_cons, List.map_cons, List.map_nil, List.flatMap_nil, List.append_nil]
    rw [hfirst, hsecond, hlow _ _ (by omega), ← Nat.add_zero (b.toNat % 16 * 4),
      hmiddle _ 0 (by decide)]
    simp only [List.append_assoc]
  | case4 a b c rest ih =>
    have hb := b.toNat_lt
    have hc := c.toNat_lt
    obtain ⟨tail, htail, hshort⟩ := ih
    refine ⟨tail, ?_, hshort⟩
    simp only [List.flatMap_cons, List.map_cons]
    rw [hfirst, hsecond b.toNat, hthird, hlow _ _ (by omega), hmiddle _ _ (by omega), htail]
    simp only [List.append_assoc]

theorem filterMap_base64Encode (b : Bytes) :
    (base64Encode b).filterMap base64Value = base64Digits b := by
  have hvalue : ∀ n < 64, base64Value (base64Char n) = some n := by decide
  have hpad : base64Value '=' = none := rfl
  fun_induction base64Digits b with
  | case1 => rfl
  | case2 a =>
    have ha := a.toNat_lt
    rw [base64Encode]
    simp [hpad, hvalue (a.toNat / 4) (by omega), hvalue (a.toNat % 4 * 16) (by omega)]
  | case3 a b =>
    have ha := a.toNat_lt
    have hb := b.toNat_lt
    rw [base64Encode]
    simp [hpad, hvalue (a.toNat / 4) (by omega),
      hvalue (a.toNat % 4 * 16 + b.toNat / 16) (by omega), hvalue (b.toNat % 16 * 4) (by omega)]
  | case4 a b c rest ih =>
    have ha := a.toNat_lt
    have hb := b.toNat_lt
    have hc := c.toNat_lt
    rw [base64Encode]
    simp [hvalue (a.toNat / 4) (by omega), hvalue (a.toNat % 4 * 16 + b.toNat / 16) (by omega),
      hvalue (b.toNat % 16 * 4 + c.toNat / 64) (by omega), hvalue (c.toNat % 64) (by omega), ih]

theorem base64Value_space (h : isWhiteSpace c = true) : base64Value c = none := by
  simp only [isWhiteSpace, Bool.or_eq_true, Bool.and_eq_true, decide_eq_true_eq, beq_iff_eq] at h
  unfold base64Value
  dsimp only
  split_ifs <;> first | rfl | omega

theorem base64Decode_encode {b : Bytes}
    (h : text.filter (fun c => !isWhiteSpace c) = base64Encode b) : base64Decode text = b := by
  have hdigits : text.filterMap base64Value = base64Digits b := by
    rw [← filterMap_base64Encode, ← h, List.filterMap_filter]
    refine List.filterMap_congr fun c _ => ?_
    cases hc : isWhiteSpace c with
    | false => rfl
    | true => exact base64Value_space hc
  have hrun := base64Holds_run text
  obtain ⟨rest, hbits, hshort⟩ := base64Digits_bits b
  have hholds := hrun.holds
  rw [hdigits] at hholds
  refine map_toNat_inj (hholds.groups hrun.few ?_ hbits hshort)
  intro d hd
  obtain ⟨x, -, rfl⟩ := List.mem_map.mp hd
  exact x.toNat_lt

theorem acc_push {acc v : Nat} (hv : v < 64) :
    BitVec.ofNat 32 acc <<< 6 ||| BitVec.ofNat 32 v = BitVec.ofNat 32 (acc * 64 + v) := by
  refine BitVec.eq_of_getLsbD_eq fun i hi => ?_
  rw [BitVec.getLsbD_or, BitVec.getLsbD_shiftLeft, BitVec.getLsbD_ofNat, BitVec.getLsbD_ofNat,
    BitVec.getLsbD_ofNat, Nat.mul_comm, show 64 = 2 ^ 6 from rfl,
    Nat.testBit_two_pow_mul_add _ hv]
  by_cases hlow : i < 6
  · simp [hlow]
  · have hstale : v.testBit i = false := Nat.testBit_lt_two_pow
      (Nat.lt_of_lt_of_le hv (Nat.pow_le_pow_right (n := 2) (by decide) (Nat.le_of_not_lt hlow)))
    simp [hlow, hi, hstale, show i - 6 < 32 by omega]

theorem acc_top {acc n : Nat} (hn : n ≤ 32) (hfull : 8 ≤ n) :
    UInt8.ofNat ((BitVec.ofNat 32 acc).sshiftRight (n - 8) &&& 0xff#32).toNat =
      UInt8.ofNat (acc / 2 ^ (n - 8)) := by
  have htop : ((BitVec.ofNat 32 acc).sshiftRight (n - 8) &&& 0xff#32).toNat =
      top 8 n (BitVec.ofNat 32 acc) := top_eq_sshiftRight hn hfull
  rw [htop]
  refine UInt8.toNat_inj.mp ?_
  rw [UInt8.toNat_ofNat', UInt8.toNat_ofNat', top, BitVec.toNat_ofNat, Nat.mod_mod]
  refine Nat.eq_of_testBit_eq fun i => ?_
  rw [Nat.testBit_mod_two_pow, Nat.testBit_mod_two_pow, Nat.testBit_shiftRight,
    Nat.testBit_mod_two_pow, Nat.testBit_div_two_pow]
  by_cases hi : i < 8
  · simp [hi, Nat.add_comm i, show n - 8 + i < 32 by omega]
  · simp [hi]

theorem foldl_push_eq {b : Bits}
    (h : Base64Holds size digits s) (hroom : 6 * (digits.length + utf16Length text) ≤ 8 * size)
    (hacc : s.acc = BitVec.ofNat 32 b.acc) (hbits : s.bits = b.bits)
    (hout : s.out.written = b.out) :
    (text.foldl Base64Stream.push s).out.written = (text.foldl Bits.push b).out := by
  induction text generalizing digits s b with
  | nil => exact hout
  | cons c text ih =>
    rw [utf16Length_cons] at hroom
    have hone : 1 ≤ if c.toNat < 0x10000 then 1 else 2 := by split_ifs <;> omega
    rw [List.foldl_cons, List.foldl_cons]
    cases hc : base64Value c with
    | none =>
      rw [Base64Stream.push, Bits.push, hc]
      exact ih h (by omega) hacc hbits hout
    | some v =>
      have hfew := h.few
      have hread := h.holds.length
      rw [length_flatMap_bits, List.length_map] at hread
      have hstep := base64Holds_push h hc (by omega)
      have hmore : (digits ++ [v]).length = digits.length + 1 := by simp
      have hpushed : BitVec.ofNat 32 b.acc <<< 6 ||| BitVec.ofNat 32 v =
          BitVec.ofNat 32 (b.acc * 64 + v) := acc_push (base64Value_lt hc)
      unfold Base64Stream.push at hstep ⊢
      unfold Bits.push
      rw [hc] at hstep ⊢
      dsimp only at hstep ⊢
      rw [hacc, hpushed] at hstep ⊢
      rw [← hbits]
      by_cases hfull : 8 ≤ s.bits + 6
      · rw [if_pos hfull] at hstep ⊢
        rw [if_pos hfull]
        refine ih hstep (by omega) rfl rfl ?_
        have hroom' : s.out.written.length < size := by omega
        rw [(h.filled.write hroom' _).kept, acc_top (by omega) hfull, hout]
      · rw [if_neg hfull] at hstep ⊢
        rw [if_neg hfull]
        exact ih hstep (by omega) rfl rfl hout

theorem base64Decode_eq (text : Text) : base64Decode text = Mime.base64Decode text := by
  refine foldl_push_eq (base64Holds_start text) ?_ rfl rfl ?_
  · exact base64Size_room text
  · exact (filled_sized _).kept

/-- The encodings of a byte string: bytes as they are or in hexadecimal, and breaks that stand for
nothing. -/
inductive QuotedPrintable : Bytes → Text → Prop
  | done : QuotedPrintable [] []
  | literal {c : Char} {b : Bytes} {text : Text} (hbyte : c.toNat < 256) (hc : c ≠ '=')
      (h : QuotedPrintable b text) : QuotedPrintable (UInt8.ofNat c.toNat :: b) (c :: text)
  | escape {x y : Char} {a : UInt8} {b : Bytes} {text : Text} (hx : isHexDigit x = true)
      (hy : isHexDigit y = true) (hhigh : digitValue x = a.toNat / 16)
      (hlow : digitValue y = a.toNat % 16) (h : QuotedPrintable b text) :
      QuotedPrintable (a :: b) ('=' :: x :: y :: text)
  | softBreak {b : Bytes} {text : Text} (h : QuotedPrintable b text) :
      QuotedPrintable b ('=' :: '\r' :: '\n' :: text)
  | bareBreak {b : Bytes} {text : Text} (h : QuotedPrintable b text) :
      QuotedPrintable b ('=' :: '\n' :: text)

theorem hexByte_eq {x y : Char} {a : UInt8} (hhigh : digitValue x = a.toNat / 16)
    (hlow : digitValue y = a.toNat % 16) : hexByte x y = a := by
  have hvalue : digitsValue 16 [x, y] = a.toNat := by
    simp only [digitsValue, List.foldl_cons, List.foldl_nil, hhigh, hlow]
    omega
  rw [hexByte, hvalue, UInt8.ofNat_toNat]

theorem quotedPrintableLoop_literal (hc : c ≠ '=') (text : Text) (out : Output) :
    quotedPrintableLoop (c :: text) out =
      quotedPrintableLoop text ((lowBytes c).foldl Output.write out) :=
  quotedPrintableLoop.eq_4 _ _ _ (fun _ h _ => hc h) (fun _ h _ => hc h) fun _ _ _ h _ => hc h

theorem quotedPrintableLoop_escape {x y : Char} (hx : isHexDigit x = true)
    (hy : isHexDigit y = true) (text : Text) (out : Output) :
    quotedPrintableLoop ('=' :: x :: y :: text) out =
      quotedPrintableLoop text (out.write (hexByte x y)) := by
  have hcr : x ≠ '\r' := by
    rintro rfl
    cases hx
  have hlf : x ≠ '\n' := by
    rintro rfl
    cases hx
  rw [quotedPrintableLoop.eq_3 _ _ _ _ (fun h _ => hcr h) hlf, hx, hy]
  rfl

theorem quotedPrintable_filled {b : Bytes} (h : QuotedPrintable b text) {bytes : Bytes}
    {out : Output} (hout : Filled size bytes out)
    (hroom : bytes.length + utf16Length text ≤ size) :
    Filled size (bytes ++ b) (quotedPrintableLoop text out) := by
  induction h generalizing bytes out with
  | done =>
    rw [List.append_nil]
    exact hout
  | @literal c b text hbyte hc h ih =>
    have hunit : c.toNat < 0x10000 := by omega
    rw [utf16Length_cons, if_pos hunit] at hroom
    have hrest := ih (hout.write (by omega) (UInt8.ofNat c.toNat))
      (by rw [List.length_append, List.length_singleton]; omega)
    rw [List.append_assoc] at hrest
    rw [quotedPrintableLoop_literal hc, lowBytes, if_pos hunit]
    exact hrest
  | @escape x y a b text hx hy hhigh hlow h ih =>
    have hone : 1 ≤ utf16Length ('=' :: x :: y :: text) - utf16Length text := by
      simp only [utf16Length_cons]
      split_ifs <;> omega
    have hrest := ih (hout.write (by omega) a)
      (by rw [List.length_append, List.length_singleton]; omega)
    rw [List.append_assoc] at hrest
    rw [quotedPrintableLoop_escape hx hy, hexByte_eq hhigh hlow]
    exact hrest
  | softBreak h ih =>
    simp only [utf16Length_cons] at hroom
    exact ih hout (by omega)
  | bareBreak h ih =>
    simp only [utf16Length_cons] at hroom
    exact ih hout (by omega)

theorem lowBytes_length (c : Char) :
    (lowBytes c).length = if c.toNat < 0x10000 then 1 else 2 := by
  unfold lowBytes
  split_ifs <;> rfl

theorem quotedPrintableLoop_filled (text : Text) (out : Output) {bytes : Bytes}
    (hout : Filled size bytes out) (hroom : bytes.length + utf16Length text ≤ size) :
    ∃ more, Filled size (bytes ++ more) (quotedPrintableLoop text out) := by
  fun_induction quotedPrintableLoop text out generalizing bytes with
  | case1 text out ih | case2 text out ih =>
    simp only [utf16Length_cons] at hroom
    exact ih hout (by omega)
  | case3 a b text out _ _ _ ih =>
    have hone : 1 ≤ utf16Length ('=' :: a :: b :: text) - utf16Length text := by
      simp only [utf16Length_cons]
      split_ifs <;> omega
    obtain ⟨more, hmore⟩ := ih (hout.write (by omega) _)
      (by rw [List.length_append, List.length_singleton]; omega)
    rw [List.append_assoc] at hmore
    exact ⟨_, hmore⟩
  | case4 a b text out _ _ _ ih =>
    rw [utf16Length_cons, if_pos (by decide)] at hroom
    obtain ⟨more, hmore⟩ := ih (hout.write (by omega) _)
      (by rw [List.length_append, List.length_singleton]; omega)
    rw [List.append_assoc] at hmore
    exact ⟨_, hmore⟩
  | case5 ch text out _ _ _ ih =>
    rw [utf16Length_cons, ← lowBytes_length] at hroom
    obtain ⟨more, hmore⟩ := ih (hout.writes (by omega)) (by rw [List.length_append]; omega)
    rw [List.append_assoc] at hmore
    exact ⟨_, hmore⟩
  | case6 out =>
    refine ⟨[], ?_⟩
    rw [List.append_nil]
    exact hout

/-- The encoders are undone, the accumulators hold every bit that is not written yet, and all
writes are within the array. -/
theorem bit_packers (u : CaseMap) :
    (∀ b text, text.filter (fun c => !isWhiteSpace c) = base64Encode b → base64Decode text = b) ∧
    (∀ b, base32Decode u (base32Encode b) = some b) ∧
    (∀ b text, QuotedPrintable b text → quotedPrintableDecode text = b) ∧
    (∀ text, Holds 8 ((text.filterMap base64Value).flatMap (bits 6)) (base64Run text).acc
      (base64Run text).bits ((base64Decode text).map UInt8.toNat) ∧ (base64Run text).bits < 8) ∧
    (∀ clean s, base32Loop {} clean = some s → EightsHold (clean.filterMap base32Value) s) ∧
    ∀ text, (base64Run text).out.n ≤ (base64Run text).out.array.length ∧
      (quotedPrintableRun text).n ≤ (quotedPrintableRun text).array.length := by
  refine ⟨fun b text h => base64Decode_encode h, base32Decode_encode u, ?_, ?_, ?_, ?_⟩
  · intro b text h
    have hroom : ([] : Bytes).length + utf16Length text ≤ utf16Length text := by simp
    exact (quotedPrintable_filled h (filled_sized _) hroom).kept
  · intro text
    have hrun := base64Holds_run text
    exact ⟨hrun.holds, hrun.few⟩
  · intro clean s h
    have hstart : EightsHold [] {} := ⟨Holds.start 8 0, by decide⟩
    exact base32Loop_holds hstart h
  · intro text
    have hroom : ([] : Bytes).length + utf16Length text ≤ utf16Length text := by simp
    obtain ⟨more, hmore⟩ := quotedPrintableLoop_filled text _ (filled_sized _) hroom
    exact ⟨(base64Holds_run text).filled.within, hmore.within⟩

end Ionosphere.Mime.Encoding
