import Ionosphere.Core.Base32
import Ionosphere.Lib.Radix
import Mathlib.Data.List.Chain
import Mathlib.Tactic.Ring

/-! The generator of identifiers: a time and a random number, written so that identifiers sort as
they were made. -/
namespace Ionosphere.Core

open Ionosphere.Js Ionosphere.Lib.BitGroups Ionosphere.Lib.Radix

def ENCODING : Text := "0123456789ABCDEFGHJKMNPQRSTVWXYZ".toList

def crockford (n : Nat) : Char := ENCODING.getD n '0'

def encodeTimeFrom : Nat → Nat → Text → Text
  | 0, _, s => s
  | i + 1, t, s => encodeTimeFrom i (t / 32) (crockford (t % 32) :: s)

def encodeTime (time : Nat) : Text := encodeTimeFrom 10 time []

def encodeRandom (bytes : Bytes) : Text := (fives bytes).out.map crockford

/-- One more, from the last byte on; the flag is a carry out of the first byte. -/
def incrementRandom : Bytes → Bytes × Bool
  | [] => ([], true)
  | b :: bytes =>
    match incrementRandom bytes with
    | (bytes, false) => (b :: bytes, false)
    | (bytes, true) => if b.toNat < 0xff then ((b + 1) :: bytes, false) else (0 :: bytes, true)

theorem incrementRandom_length (bytes : Bytes) :
    (incrementRandom bytes).1.length = bytes.length := by
  induction bytes with
  | nil => rfl
  | cons b bytes ih =>
    unfold incrementRandom
    rcases hrest : incrementRandom bytes with ⟨rest, carry⟩
    rw [hrest] at ih
    cases carry with
    | false => exact congrArg Nat.succ ih
    | true =>
      dsimp only
      split
      · exact congrArg Nat.succ ih
      · exact congrArg Nat.succ ih

/-- `new Uint8Array(10)`. -/
def RandomBytes : Type := { bytes : Bytes // bytes.length = 10 }

structure Generator where
  lastTime : Int := -1
  lastRandom : RandomBytes := ⟨List.replicate 10 0, rfl⟩

/-- `random` is what `getRandomValues` would give. -/
def ulid (now : Nat) (random : RandomBytes) (g : Generator) : Except Text Text × Generator :=
  if (now : Int) = g.lastTime then
    let r := incrementRandom g.lastRandom.1
    let g := { g with
      lastRandom := ⟨r.1, (incrementRandom_length g.lastRandom.1).trans g.lastRandom.2⟩ }
    if r.2 then (.error "ulid: random overflow within one millisecond".toList, g)
    else (.ok (encodeTime now ++ encodeRandom g.lastRandom.1), g)
  else (.ok (encodeTime now ++ encodeRandom random.1), ⟨now, random⟩)

def ulids : Generator → List (Nat × RandomBytes) → Option (List Text)
  | _, [] => some []
  | g, (now, random) :: calls =>
    match ulid now random g with
    | (.ok s, g) => (ulids g calls).map (s :: ·)
    | (.error _, _) => none

def timeDigits : Nat → Nat → List Nat → List Nat
  | 0, _, ds => ds
  | i + 1, t, ds => timeDigits i (t / 32) (t % 32 :: ds)

theorem encodeTimeFrom_map (i t : Nat) (ds : List Nat) :
    encodeTimeFrom i t (ds.map crockford) = (timeDigits i t ds).map crockford := by
  induction i generalizing t ds with
  | zero => rfl
  | succ i ih => exact ih (t / 32) (t % 32 :: ds)

theorem timeDigits_length (i t : Nat) (ds : List Nat) :
    (timeDigits i t ds).length = i + ds.length := by
  induction i generalizing t ds with
  | zero => exact (Nat.zero_add _).symm
  | succ i ih => rw [timeDigits, ih, List.length_cons]; omega

theorem timeDigits_lt {i t : Nat} {ds : List Nat} (h : ∀ d ∈ ds, d < 32) :
    ∀ d ∈ timeDigits i t ds, d < 32 := by
  induction i generalizing t ds with
  | zero => exact h
  | succ i ih => exact ih (List.forall_mem_cons.mpr ⟨Nat.mod_lt _ (by decide), h⟩)

theorem value_timeDigits (i t : Nat) (ds : List Nat) :
    value 32 (timeDigits i t ds) = t % 32 ^ i * 32 ^ ds.length + value 32 ds := by
  induction i generalizing t ds with
  | zero => rw [timeDigits, Nat.pow_zero, Nat.mod_one, Nat.zero_mul, Nat.zero_add]
  | succ i ih =>
    have hsplit : t % 32 ^ (i + 1) = t % 32 + 32 * (t / 32 % 32 ^ i) := by
      rw [Nat.pow_succ, Nat.mul_comm, Nat.mod_mul]
    rw [timeDigits, ih, value, List.length_cons, Nat.pow_succ, hsplit, Nat.add_mul]
    ring

theorem randomDigits (random : RandomBytes) :
    (fives random.1).out.length = 16 ∧ (∀ d ∈ (fives random.1).out, d < 32) ∧
      value 32 (fives random.1).out = value 256 (random.1.map UInt8.toNat) := by
  obtain ⟨hholds, hfew⟩ := fives_holds random.1
  have hlength := hholds.length
  rw [byteBits_eq, length_flatMap_bits, List.length_map, random.2] at hlength
  refine ⟨by omega, hholds.small, ?_⟩
  have hnone : bits (fives random.1).bits (fives random.1).buffer.toNat = [] := by
    rw [show (fives random.1).bits = 0 by omega]
    rfl
  have hcontent := hholds.content
  rw [hnone, List.append_nil, byteBits_eq] at hcontent
  have hsmall : ∀ d ∈ random.1.map UInt8.toNat, d < 2 ^ 8 := by
    intro d hd
    obtain ⟨b, -, rfl⟩ := List.mem_map.mp hd
    exact b.toNat_lt
  calc value 32 (fives random.1).out
      = value 2 (((fives random.1).out.flatMap (bits 5)).map Bool.toNat) :=
        (value_flatMap_bits hholds.small).symm
    _ = value 2 (((random.1.map UInt8.toNat).flatMap (bits 8)).map Bool.toNat) := by
        rw [hcontent]
    _ = value 256 (random.1.map UInt8.toNat) := value_flatMap_bits hsmall

def RandomBytes.number (random : RandomBytes) : Nat := value 256 (random.1.map UInt8.toNat)

theorem RandomBytes.number_lt (random : RandomBytes) : random.number < 32 ^ 16 := by
  have hlt : random.number < 256 ^ (random.1.map UInt8.toNat).length := by
    refine value_lt fun d hd => ?_
    obtain ⟨b, -, rfl⟩ := List.mem_map.mp hd
    exact b.toNat_lt
  rw [List.length_map, random.2] at hlt
  exact hlt

theorem value_incrementRandom (bytes : Bytes) :
    value 256 ((incrementRandom bytes).1.map UInt8.toNat) +
      (if (incrementRandom bytes).2 then 256 ^ bytes.length else 0) =
      value 256 (bytes.map UInt8.toNat) + 1 := by
  induction bytes with
  | nil => rfl
  | cons b bytes ih =>
    have hlength := incrementRandom_length bytes
    rcases hrest : incrementRandom bytes with ⟨rest, carry⟩
    rw [hrest] at ih hlength
    simp only at ih hlength
    cases carry with
    | false =>
      have hcons : incrementRandom (b :: bytes) = (b :: rest, false) := by
        rw [incrementRandom, hrest]
      rw [hcons]
      simp only [Bool.false_eq_true, if_false, Nat.add_zero] at ih
      simp only [List.map_cons, value, List.length_map, hlength, Bool.false_eq_true, if_false]
      omega
    | true =>
      simp only [if_true] at ih
      by_cases hb : b.toNat < 0xff
      · have hcons : incrementRandom (b :: bytes) = ((b + 1) :: rest, false) := by
          rw [incrementRandom, hrest]
          exact if_pos hb
        have hsucc : (b + 1).toNat = b.toNat + 1 := by
          rw [UInt8.toNat_add]
          exact Nat.mod_eq_of_lt (by simp; omega)
        rw [hcons]
        simp only [List.map_cons, value, List.length_map, hlength, hsucc, Bool.false_eq_true,
          if_false, Nat.succ_mul]
        omega
      · have hcons : incrementRandom (b :: bytes) = (0 :: rest, true) := by
          rw [incrementRandom, hrest]
          exact if_neg hb
        have hfull : b.toNat = 255 := by
          have hlt := b.toNat_lt
          omega
        have hzero : (0 : UInt8).toNat = 0 := rfl
        rw [hcons]
        simp only [if_true, List.map_cons, value, List.length_map, hlength, hfull, hzero,
          List.length_cons, Nat.pow_succ, Nat.zero_mul]
        omega

def Generator.place (g : Generator) : Int := g.lastTime * 32 ^ 16 + g.lastRandom.number

def Behind (g : Generator) (s : Text) : Prop :=
  ∃ ds : List Nat, s = ds.map crockford ∧ ds.length = 26 ∧ (∀ d ∈ ds, d < 32) ∧
    g.place < (value 32 ds : Int)

theorem encode_digits {now : Nat} (h : now < 2 ^ 48) (random : RandomBytes) :
    ∃ ds : List Nat, encodeTime now ++ encodeRandom random.1 = ds.map crockford ∧
      ds.length = 26 ∧ (∀ d ∈ ds, d < 32) ∧ value 32 ds = now * 32 ^ 16 + random.number := by
  obtain ⟨hlength, hsmall, hvalue⟩ := randomDigits random
  refine ⟨timeDigits 10 now [] ++ (fives random.1).out, ?_, ?_, ?_, ?_⟩
  · rw [List.map_append, ← encodeTimeFrom_map]
    rfl
  · rw [List.length_append, timeDigits_length, hlength]
    rfl
  · intro d hd
    rcases List.mem_append.mp hd with htime | hrandom
    · exact timeDigits_lt (fun x hx => absurd hx List.not_mem_nil) d htime
    · exact hsmall d hrandom
  · have hmod : now % 32 ^ 10 = now := Nat.mod_eq_of_lt (Nat.lt_of_lt_of_le h (by decide))
    rw [value_append, hvalue, hlength, value_timeDigits, hmod, List.length_nil, Nat.pow_zero,
      Nat.mul_one, value, Nat.add_zero, RandomBytes.number]

theorem ulid_step {now : Nat} {random : RandomBytes} {g g' : Generator} {s : Text}
    (hlast : g.lastTime ≤ now) (h : ulid now random g = (.ok s, g')) :
    s = encodeTime now ++ encodeRandom g'.lastRandom.1 ∧ g'.lastTime = now ∧
      g.place < g'.place := by
  unfold ulid at h
  by_cases heq : (now : Int) = g.lastTime
  · rw [if_pos heq] at h
    have hvalue := value_incrementRandom g.lastRandom.1
    dsimp only at h
    split at h
    · cases h
    · rename_i hcarry
      cases h
      rw [if_neg hcarry, Nat.add_zero] at hvalue
      refine ⟨rfl, heq.symm, ?_⟩
      unfold Generator.place RandomBytes.number
      dsimp only
      rw [hvalue]
      omega
  · rw [if_neg heq] at h
    cases h
    refine ⟨rfl, rfl, ?_⟩
    have hnumber := g.lastRandom.number_lt
    unfold Generator.place
    dsimp only
    have hlt : g.lastTime + 1 ≤ (now : Int) := by omega
    omega

theorem crockford_strictMono : ∀ d < 32, ∀ e < 32, d < e → crockford d < crockford e := by
  decide

theorem lex_crockford {ds es : List Nat} (hds : ∀ d ∈ ds, d < 32) (hes : ∀ e ∈ es, e < 32)
    (h : List.Lex (· < ·) ds es) : ds.map crockford < es.map crockford := by
  induction h with
  | nil => exact List.Lex.nil
  | rel hlt =>
    exact List.Lex.rel (crockford_strictMono _ (hds _ List.mem_cons_self) _
      (hes _ List.mem_cons_self) hlt)
  | cons _ ih =>
    exact List.Lex.cons (ih (fun d hd => hds d (List.mem_cons_of_mem _ hd))
      fun e he => hes e (List.mem_cons_of_mem _ he))

theorem lt_of_behind {g : Generator} {s r : Text} {ds : List Nat} (hs : s = ds.map crockford)
    (hlength : ds.length = 26) (hsmall : ∀ d ∈ ds, d < 32) (hplace : (value 32 ds : Int) = g.place)
    (hr : Behind g r) : s < r := by
  obtain ⟨es, rfl, hes, hbelow, hbehind⟩ := hr
  rw [hs]
  have hlt : value 32 ds < value 32 es := by omega
  exact lex_crockford hsmall hbelow (lex_of_value_lt hsmall hbelow (hlength.trans hes.symm) hlt)

theorem ulids_behind {calls : List (Nat × RandomBytes)} {g : Generator} {out : List Text}
    (hbound : ∀ call ∈ calls, call.1 < 2 ^ 48) (hmono : (calls.map Prod.fst).Pairwise (· ≤ ·))
    (hlast : ∀ call ∈ calls, g.lastTime ≤ call.1) (h : ulids g calls = some out) :
    (∀ s ∈ out, Behind g s) ∧ out.Pairwise (· < ·) := by
  induction calls generalizing g out with
  | nil =>
    cases h
    exact ⟨fun s hs => absurd hs List.not_mem_nil, List.Pairwise.nil⟩
  | cons call calls ih =>
    obtain ⟨now, random⟩ := call
    unfold ulids at h
    split at h
    · rename_i s g' hcall
      obtain ⟨rest, hrest, rfl⟩ := Option.map_eq_some_iff.mp h
      have hnow : now < 2 ^ 48 := hbound _ List.mem_cons_self
      obtain ⟨hs, htime, hplace⟩ := ulid_step (hlast _ List.mem_cons_self) hcall
      rw [List.map_cons, List.pairwise_cons] at hmono
      have hlater : ∀ call ∈ calls, g'.lastTime ≤ call.1 := by
        intro call hmem
        rw [htime]
        exact Int.ofNat_le.mpr (hmono.1 _ (List.mem_map_of_mem hmem))
      obtain ⟨hbehind, hsorted⟩ :=
        ih (fun call hmem => hbound call (List.mem_cons_of_mem _ hmem)) hmono.2 hlater hrest
      obtain ⟨ds, hds, hlength, hsmall, hvalue⟩ := encode_digits hnow g'.lastRandom
      have hat : (value 32 ds : Int) = g'.place := by
        rw [hvalue, Generator.place, htime]
        push_cast
        rfl
      refine ⟨List.forall_mem_cons.mpr ⟨?_, ?_⟩, List.pairwise_cons.mpr ⟨?_, hsorted⟩⟩
      · exact ⟨ds, hs.trans hds, hlength, hsmall, by omega⟩
      · intro r hr
        obtain ⟨es, hes, hlong, hbelow, hlt⟩ := hbehind r hr
        exact ⟨es, hes, hlong, hbelow, by omega⟩
      · intro r hr
        exact lt_of_behind (hs.trans hds) hlength hsmall hat (hbehind r hr)
    · cases h

/-- Identifiers made one after the other sort in that order. -/
theorem ulid_monotone {calls : List (Nat × RandomBytes)} {out : List Text}
    (hbound : ∀ call ∈ calls, call.1 < 2 ^ 48) (hmono : (calls.map Prod.fst).Pairwise (· ≤ ·))
    (h : ulids {} calls = some out) :
    (∀ s ∈ out, s.length = 26) ∧ out.Pairwise (· < ·) := by
  have hlast : ∀ call ∈ calls, ({} : Generator).lastTime ≤ call.1 := by
    intro call _
    have hstart : ({} : Generator).lastTime = -1 := rfl
    omega
  obtain ⟨hbehind, hsorted⟩ := ulids_behind hbound hmono hlast h
  refine ⟨fun s hs => ?_, hsorted⟩
  obtain ⟨ds, rfl, hlength, -, -⟩ := hbehind s hs
  rw [List.length_map, hlength]

/-- Two calls in one millisecond with a carry through the last two bytes. -/
def carriedCalls : List (Nat × RandomBytes) :=
  [(7, ⟨[1, 2, 3, 4, 5, 6, 7, 8, 255, 255], rfl⟩), (7, ⟨List.replicate 10 9, rfl⟩),
    (8, ⟨List.replicate 10 0, rfl⟩)]

def carriedIds : List Text :=
  ["0000000007041061050R3GHZZZ".toList, "0000000007041061050R3GJ000".toList,
    "00000000080000000000000000".toList]

theorem ulid_monotone_carried :
    (∀ s ∈ carriedIds, s.length = 26) ∧ carriedIds.Pairwise (· < ·) :=
  ulid_monotone (by decide : ∀ call ∈ carriedCalls, call.1 < 2 ^ 48) (by decide)
    (by decide +kernel)

end Ionosphere.Core
