import Mathlib.Algebra.Ring.Nat
import Mathlib.Data.List.Basic

/-! Numbers as groups of bits, read and written through an accumulator of 32 bits. Only the low
bits of the accumulator count; what has been shifted further up is stale and never looked at. -/
namespace Ionosphere.Lib.BitGroups

/-- The low `n` bits of a number, the highest one first. -/
def bits : Nat → Nat → List Bool
  | 0, _ => []
  | n + 1, x => x.testBit n :: bits n x

@[simp] theorem bits_length (n x : Nat) : (bits n x).length = n := by
  induction n with
  | zero => rfl
  | succ n ih => rw [bits, List.length_cons, ih]

theorem bits_congr {n x y : Nat} (h : ∀ i < n, x.testBit i = y.testBit i) : bits n x = bits n y := by
  induction n with
  | zero => rfl
  | succ n ih =>
    rw [bits, bits, h n (Nat.lt_succ_self n), ih fun i hi => h i (Nat.lt_succ_of_lt hi)]

theorem testBit_of_bits {n x y : Nat} (h : bits n x = bits n y) :
    ∀ i < n, x.testBit i = y.testBit i := by
  induction n with
  | zero => exact fun i hi => absurd hi (Nat.not_lt_zero i)
  | succ n ih =>
    obtain ⟨htop, hrest⟩ := List.cons.inj h
    intro i hi
    rcases Nat.lt_succ_iff_lt_or_eq.mp hi with hlt | rfl
    · exact ih hrest i hlt
    · exact htop

theorem eq_of_bits {n x y : Nat} (hx : x < 2 ^ n) (hy : y < 2 ^ n) (h : bits n x = bits n y) :
    x = y := by
  refine Nat.eq_of_testBit_eq fun i => ?_
  by_cases hi : i < n
  · exact testBit_of_bits h i hi
  · have hpow : 2 ^ n ≤ 2 ^ i := Nat.pow_le_pow_right (by omega) (by omega)
    rw [Nat.testBit_lt_two_pow (by omega), Nat.testBit_lt_two_pow (by omega)]

theorem bits_add (n w x : Nat) : bits (n + w) x = bits n (x >>> w) ++ bits w x := by
  induction n with
  | zero => rw [Nat.zero_add, bits, List.nil_append]
  | succ n ih =>
    rw [Nat.succ_add, bits, bits, ih, Nat.testBit_shiftRight, Nat.add_comm w n, List.cons_append]

theorem bits_push {acc : BitVec 32} {n w v : Nat} (hfit : n + w ≤ 32) (hv : v < 2 ^ w) :
    bits (n + w) (acc <<< w ||| BitVec.ofNat 32 v).toNat = bits n acc.toNat ++ bits w v := by
  rw [bits_add]
  congr 1
  · refine bits_congr fun i hi => ?_
    have hpow : 2 ^ w ≤ 2 ^ (w + i) := Nat.pow_le_pow_right (by omega) (by omega)
    have hstale : v.testBit (w + i) = false := Nat.testBit_lt_two_pow (by omega)
    rw [Nat.testBit_shiftRight, BitVec.testBit_toNat, BitVec.getLsbD_or, BitVec.getLsbD_shiftLeft,
      BitVec.getLsbD_ofNat, hstale, BitVec.testBit_toNat]
    simp [show w + i < 32 by omega]
  · refine bits_congr fun i hi => ?_
    rw [BitVec.testBit_toNat, BitVec.getLsbD_or, BitVec.getLsbD_shiftLeft, BitVec.getLsbD_ofNat]
    simp [show i < 32 by omega, hi]

/-- The group of `w` bits on top of `n` pending ones. -/
def top (w n : Nat) (acc : BitVec 32) : Nat := acc.toNat >>> (n - w) % 2 ^ w

theorem top_lt (w n : Nat) (acc : BitVec 32) : top w n acc < 2 ^ w :=
  Nat.mod_lt _ (Nat.two_pow_pos w)

theorem bits_top {acc : BitVec 32} {n w : Nat} (h : w ≤ n) :
    bits n acc.toNat = bits w (top w n acc) ++ bits (n - w) acc.toNat := by
  have hsplit := bits_add w (n - w) acc.toNat
  rw [Nat.add_sub_cancel' h] at hsplit
  rw [hsplit]
  congr 1
  refine bits_congr fun i hi => ?_
  rw [top, Nat.testBit_mod_two_pow, decide_eq_true hi, Bool.true_and]

theorem top_eq_ushiftRight {acc : BitVec 32} {n w : Nat} (hw : w ≤ 32) :
    (acc >>> (n - w) &&& BitVec.ofNat 32 (2 ^ w - 1)).toNat = top w n acc := by
  refine Nat.eq_of_testBit_eq fun i => ?_
  rw [BitVec.testBit_toNat, BitVec.getLsbD_and, BitVec.getLsbD_ushiftRight, BitVec.getLsbD_ofNat,
    Nat.testBit_two_pow_sub_one, top, Nat.testBit_mod_two_pow, Nat.testBit_shiftRight,
    BitVec.testBit_toNat]
  by_cases hi : i < w
  · simp [hi, show i < 32 by omega]
  · simp [hi]

theorem top_eq_sshiftRight {acc : BitVec 32} {n w : Nat} (hn : n ≤ 32) (hw : w ≤ n) :
    (acc.sshiftRight (n - w) &&& BitVec.ofNat 32 (2 ^ w - 1)).toNat = top w n acc := by
  rw [← top_eq_ushiftRight (Nat.le_trans hw hn)]
  congr 1
  refine BitVec.eq_of_getLsbD_eq fun i hi => ?_
  rw [BitVec.getLsbD_and, BitVec.getLsbD_and, BitVec.getLsbD_ofNat, Nat.testBit_two_pow_sub_one,
    BitVec.getLsbD_sshiftRight, BitVec.getLsbD_ushiftRight]
  by_cases hiw : i < w
  · simp [hiw, hi, show ¬ 32 ≤ i by omega, show n - w + i < 32 by omega]
  · simp [hiw]

/-- What has been read is what the groups written so far hold, and the bits that are pending. -/
structure Holds (w : Nat) (read : List Bool) (acc : BitVec 32) (n : Nat) (out : List Nat) :
    Prop where
  content : read = out.flatMap (bits w) ++ bits n acc.toNat
  small : ∀ g ∈ out, g < 2 ^ w

theorem Holds.start (w : Nat) (acc : BitVec 32) : Holds w [] acc 0 [] :=
  ⟨rfl, fun _ hg => absurd hg List.not_mem_nil⟩

section

variable {w n : Nat} {read : List Bool} {acc : BitVec 32} {out : List Nat}

theorem Holds.push (h : Holds w read acc n out) {w' v : Nat} (hfit : n + w' ≤ 32)
    (hv : v < 2 ^ w') :
    Holds w (read ++ bits w' v) (acc <<< w' ||| BitVec.ofNat 32 v) (n + w') out where
  content := by rw [h.content, List.append_assoc, bits_push hfit hv]
  small := h.small

theorem Holds.emit (h : Holds w read acc n out) (hn : w ≤ n) :
    Holds w read acc (n - w) (out ++ [top w n acc]) where
  content := by
    rw [h.content, bits_top hn, List.flatMap_append, List.flatMap_singleton, List.append_assoc]
  small := by
    intro g hg
    rcases List.mem_append.mp hg with hout | htop
    · exact h.small g hout
    · rw [List.mem_singleton.mp htop]
      exact top_lt w n acc

theorem length_flatMap_bits (w : Nat) (gs : List Nat) :
    (gs.flatMap (bits w)).length = w * gs.length := by
  induction gs with
  | nil => rfl
  | cons g gs ih =>
    rw [List.flatMap_cons, List.length_append, ih, bits_length, List.length_cons, Nat.mul_succ,
      Nat.add_comm]

theorem Holds.length (h : Holds w read acc n out) : read.length = w * out.length + n := by
  rw [h.content, List.length_append, length_flatMap_bits, bits_length]

theorem groups_unique {gs hs : List Nat} {xs ys : List Bool} (hg : ∀ g ∈ gs, g < 2 ^ w)
    (hh : ∀ g ∈ hs, g < 2 ^ w) (hlength : gs.length = hs.length)
    (heq : gs.flatMap (bits w) ++ xs = hs.flatMap (bits w) ++ ys) : gs = hs := by
  induction gs generalizing hs with
  | nil => exact (List.length_eq_zero_iff.mp hlength.symm).symm
  | cons g gs ih =>
    cases hs with
    | nil => cases hlength
    | cons k hs =>
      rw [List.flatMap_cons, List.flatMap_cons, List.append_assoc, List.append_assoc] at heq
      obtain ⟨hhead, htail⟩ := List.append_inj heq (by rw [bits_length, bits_length])
      have hgk : g = k :=
        eq_of_bits (hg g List.mem_cons_self) (hh k List.mem_cons_self) hhead
      rw [hgk, ih (fun x hx => hg x (List.mem_cons_of_mem _ hx))
        (fun x hx => hh x (List.mem_cons_of_mem _ hx)) (Nat.succ.inj hlength) htail]

theorem Holds.groups (h : Holds w read acc n out) (hn : n < w) {gs : List Nat} {rest : List Bool}
    (hg : ∀ g ∈ gs, g < 2 ^ w) (hread : read = gs.flatMap (bits w) ++ rest)
    (hrest : rest.length < w) : out = gs := by
  have hlength : w * out.length + n = w * gs.length + rest.length := by
    rw [← h.length, hread, List.length_append, length_flatMap_bits]
  have hsame : out.length = gs.length := by
    have hdiv := congrArg (· / w) hlength
    simp only [Nat.mul_add_div (Nat.zero_lt_of_lt hn), Nat.div_eq_of_lt hn,
      Nat.div_eq_of_lt hrest, Nat.add_zero] at hdiv
    exact hdiv
  exact groups_unique h.small hg hsame (h.content.symm.trans hread)

end

end Ionosphere.Lib.BitGroups
