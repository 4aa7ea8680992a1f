import Ionosphere.Js.Text
import Ionosphere.Lib.BitGroups

/-! Bytes written as base-32 digits, the loop that the ULID generator and the TOTP helper share. -/
namespace Ionosphere.Core

open Ionosphere.Js Ionosphere.Lib.BitGroups

/-- `while (bits >= 5)`: the digits that the buffer is good for. -/
def drainFives (buffer : BitVec 32) : Nat → List Nat → Nat × List Nat
  | bits + 5, out => drainFives buffer bits (out ++ [(buffer >>> bits &&& 31#32).toNat])
  | bits, out => (bits, out)

/-- The state between two bytes. -/
structure FiveStream where
  buffer : BitVec 32 := 0
  bits : Nat := 0
  out : List Nat := []

def FiveStream.push (s : FiveStream) (byte : UInt8) : FiveStream :=
  let buffer := s.buffer <<< 8 ||| BitVec.ofNat 32 byte.toNat
  let (bits, out) := drainFives buffer (s.bits + 8) s.out
  ⟨buffer, bits, out⟩

def fives (bytes : Bytes) : FiveStream := bytes.foldl FiveStream.push {}

def byteBits (bytes : Bytes) : List Bool := bytes.flatMap fun b => bits 8 b.toNat

theorem byteBits_eq (bytes : Bytes) :
    byteBits bytes = (bytes.map UInt8.toNat).flatMap (bits 8) := by
  rw [List.flatMap_map]
  rfl

theorem drainFives_holds {read : List Bool} {buffer : BitVec 32} {n : Nat} {out : List Nat}
    (h : Holds 5 read buffer n out) :
    Holds 5 read buffer (drainFives buffer n out).1 (drainFives buffer n out).2 ∧
      (drainFives buffer n out).1 < 5 := by
  fun_induction drainFives buffer n out with
  | case1 n out ih =>
    refine ih ?_
    have hemit := h.emit (Nat.le_add_left 5 n)
    rw [← top_eq_ushiftRight (by decide)] at hemit
    exact hemit
  | case2 n out hn =>
    refine ⟨h, ?_⟩
    by_contra hge
    exact hn (n - 5) (by omega)

/-- Between two bytes fewer than five bits are pending, and nothing has been lost. -/
theorem fives_holds (bytes : Bytes) :
    Holds 5 (byteBits bytes) (fives bytes).buffer (fives bytes).bits (fives bytes).out ∧
      (fives bytes).bits < 5 := by
  have hrun : ∀ (bytes : Bytes) (s : FiveStream) (read : List Bool),
      Holds 5 read s.buffer s.bits s.out → s.bits < 5 →
      Holds 5 (read ++ byteBits bytes) (bytes.foldl FiveStream.push s).buffer
        (bytes.foldl FiveStream.push s).bits (bytes.foldl FiveStream.push s).out ∧
      (bytes.foldl FiveStream.push s).bits < 5 := by
    intro bytes
    induction bytes with
    | nil =>
      intro s read h hlt
      exact ⟨by rw [byteBits, List.flatMap_nil, List.append_nil]; exact h, hlt⟩
    | cons b bytes ih =>
      intro s read h hlt
      have hpush : Holds 5 (read ++ bits 8 b.toNat)
          (s.buffer <<< 8 ||| BitVec.ofNat 32 b.toNat) (s.bits + 8) s.out :=
        h.push (by omega) b.toNat_lt
      obtain ⟨hdrain, hsmall⟩ := drainFives_holds hpush
      have hrest := ih (s.push b) (read ++ bits 8 b.toNat) hdrain hsmall
      rw [List.append_assoc] at hrest
      exact hrest
  exact hrun bytes {} [] (Holds.start 5 0) (by decide)

end Ionosphere.Core
