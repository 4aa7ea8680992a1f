import Ionosphere.Js.Text
import Mathlib.Algebra.Ring.Nat

/-! A `TextDecoder` that is fed chunk by chunk (`stream: true`). Bytes of an unfinished
character stay in the decoder; a byte order mark is dropped only where the stream begins. -/
namespace Ionosphere.Js

def utf8Stream : Utf8State → Bytes → Utf8State × Text
  | s, [] => (s, [])
  | s, b :: bs =>
    let r := utf8Step s b.toNat
    let q := utf8Stream r.1 bs
    (q.1, r.2 ++ q.2)

structure Decoder where
  utf8 : Utf8State := utf8Idle
  bomSeen : Bool := false

def byteOrderMark : Char := Char.ofNat 0xfeff

/-- `decoder.decode(chunk, { stream: true })`. -/
def Decoder.decode (d : Decoder) (chunk : Bytes) : Decoder × Text :=
  let r := utf8Stream d.utf8 chunk
  match d.bomSeen, r.2 with
  | false, [] => (⟨r.1, false⟩, [])
  | false, c :: cs => (⟨r.1, true⟩, if c = byteOrderMark then cs else c :: cs)
  | true, text => (⟨r.1, true⟩, text)

/-- `s.length`: code points outside the basic plane are two units. -/
def utf16Length (s : Text) : Nat := (s.map fun c => if c.toNat < 0x10000 then 1 else 2).sum

def Decoder.Idle (d : Decoder) : Prop := d.utf8.needed = 0

instance (d : Decoder) : Decidable d.Idle := inferInstanceAs (Decidable (_ = _))

/-- Between characters the decoder remembers nothing of the ones before. -/
def Utf8State.Settled (s : Utf8State) : Prop := s.needed = 0 → s = utf8Idle

theorem utf8Start_settled (b : Nat) : (utf8Start b).1.Settled := by
  unfold utf8Start
  split_ifs
  · exact fun _ => rfl
  all_goals first
    | exact fun _ => rfl
    | (intro h; cases h)

theorem utf8Step_settled (s : Utf8State) (b : Nat) : (utf8Step s b).1.Settled := by
  unfold utf8Step
  split_ifs with hidle hbounds hlast
  · exact utf8Start_settled b
  · exact fun _ => rfl
  · intro hneeded
    have hzero : s.needed - 1 = 0 := hneeded
    omega
  · exact utf8Start_settled b

theorem utf8Stream_settled {s : Utf8State} (h : s.Settled) (bytes : Bytes) :
    (utf8Stream s bytes).1.Settled := by
  induction bytes generalizing s with
  | nil => exact h
  | cons b bs ih => exact ih (utf8Step_settled s b.toNat)

theorem Decoder.decode_utf8 (d : Decoder) (chunk : Bytes) :
    (d.decode chunk).1.utf8 = (utf8Stream d.utf8 chunk).1 := by
  unfold Decoder.decode
  dsimp only
  split <;> rfl

theorem Decoder.decode_bomSeen (d : Decoder) (chunk : Bytes) :
    (d.decode chunk).2 ≠ [] → (d.decode chunk).1.bomSeen = true := by
  unfold Decoder.decode
  dsimp only
  split
  · exact fun h => absurd rfl h
  · exact fun _ => rfl
  · exact fun _ => rfl

theorem Decoder.bomSeen_decode {d : Decoder} (h : d.bomSeen = true) (chunk : Bytes) :
    (d.decode chunk).1.bomSeen = true := by
  unfold Decoder.decode
  rw [h]

end Ionosphere.Js
