import Ionosphere.Js.Number

/-! Numbers that are written in decimal and read again: the rounding of `Number` never takes an
integer below itself, up to 2^53. -/
namespace Ionosphere.Js

theorem natText_digits (n : Nat) : ∀ c ∈ natText n, 48 ≤ c.toNat ∧ c.toNat ≤ 57 := by
  intro c hc
  exact Char.isDigit_iff_toNat.mp (Nat.isDigit_of_mem_toDigits (by decide) (by decide) hc)

theorem natText_ne_nil (n : Nat) : natText n ≠ [] := Nat.toDigits_ne_nil

theorem digitsValue_natText (n : Nat) : digitsValue 10 (natText n) = n := by
  have h := Nat.ofDigitChars_ten_toDigits (n := n)
  rw [Nat.ofDigitChars_eq_foldl] at h
  refine (List.foldl_ext _ _ _ fun acc c hc => ?_).trans h
  obtain ⟨hlow, hhigh⟩ := natText_digits n c hc
  rw [digitValue, if_pos ⟨hlow, hhigh⟩, Nat.mul_comm]
  rfl

theorem parseUnsignedDecimal_natText (n : Nat) :
    parseUnsignedDecimal false (natText n) = roundRat false n 1 := by
  have hdigit : ∀ c ∈ natText n, isDigit c := by
    intro c hc
    simpa [isDigit] using natText_digits n c hc
  have hinf : natText n ≠ "Infinity".toList := by
    intro h
    have hI := natText_digits n 'I' (by simp [h])
    exact absurd hI.2 (by decide)
  have htake : (natText n).takeWhile isDigit = natText n := List.takeWhile_eq_self_iff.mpr hdigit
  have hdrop : (natText n).dropWhile isDigit = [] := List.dropWhile_eq_nil_iff.mpr hdigit
  rw [parseUnsignedDecimal, if_neg hinf, htake, hdrop]
  simp [natText_ne_nil, parseExponent, digitsValue_natText]

theorem number_natText (n : Nat) : number (natText n) = roundRat false n 1 := by
  have hdigits := natText_digits n
  have htrim : trim (natText n) = natText n := by
    refine trim_of_all fun c hc => ?_
    obtain ⟨hlow, hhigh⟩ := hdigits c hc
    rw [isWhiteSpace]
    simp only [Bool.or_eq_false_iff, Bool.and_eq_false_iff, decide_eq_false_iff_not,
      beq_eq_false_iff_ne]
    omega
  have hnot : ∀ d ∈ natText n, ∀ c : Char, 57 < c.toNat ∨ c.toNat < 48 → d ≠ c := by
    rintro d hd c hc rfl
    have hrange := hdigits d hd
    omega
  rw [← parseUnsignedDecimal_natText, number, htrim]
  split
  next h => exact absurd h (natText_ne_nil n)
  next h => exact absurd rfl (hnot 'x' (by simp [h]) 'x' (by decide))
  next h => exact absurd rfl (hnot 'X' (by simp [h]) 'X' (by decide))
  next h => exact absurd rfl (hnot 'o' (by simp [h]) 'o' (by decide))
  next h => exact absurd rfl (hnot 'O' (by simp [h]) 'O' (by decide))
  next h => exact absurd rfl (hnot 'b' (by simp [h]) 'b' (by decide))
  next h => exact absurd rfl (hnot 'B' (by simp [h]) 'B' (by decide))
  next h => exact absurd rfl (hnot '-' (by simp [h]) '-' (by decide))
  next h => exact absurd rfl (hnot '+' (by simp [h]) '+' (by decide))
  next => rfl

theorem le_roundHalfEven (p q : Nat) : p / q ≤ roundHalfEven p q := by
  rw [roundHalfEven]
  split_ifs <;> omega

/-- A float of at least `n`. -/
def Num.AtLeast (n : Nat) : Num → Prop
  | .finite false num scale => n * 2 ^ scale ≤ num
  | .infinity false => True
  | _ => False

theorem atLeast_roundRat {n p q : Nat} (hq : 0 < q) (h : n * q ≤ p) (hn : n ≤ 2 ^ 53) :
    (roundRat false p q).AtLeast n := by
  rw [roundRat]
  generalize infinityBound = bound
  split
  next hzero =>
    rw [hzero] at h
    have hn0 : n = 0 := by
      rcases Nat.mul_eq_zero.mp (Nat.le_zero.mp h) with h0 | h0
      · exact h0
      · omega
    simp [Num.AtLeast, hn0]
  split
  · trivial
  split
  next hbig =>
    have hy : 2 ^ 53 ≤ p / q := (Nat.le_div_iff_mul_le hq).mpr hbig
    generalize hk : (p / q).log2 - 52 = k
    have hlog : 53 ≤ (p / q).log2 := (Nat.le_log2 (by omega)).mpr hy
    have hpow : 2 ^ 52 * 2 ^ k ≤ p / q := by
      rw [← Nat.pow_add]
      have hexp : 52 + k = (p / q).log2 := by omega
      rw [hexp]
      exact Nat.log2_self_le (by omega)
    have hdiv : 2 ^ 52 ≤ p / (q * 2 ^ k) := by
      rw [← Nat.div_div_eq_div_mul]
      exact (Nat.le_div_iff_mul_le (Nat.two_pow_pos k)).mpr hpow
    have hround := hdiv.trans (le_roundHalfEven p (q * 2 ^ k))
    have hk1 : 2 ^ 1 ≤ 2 ^ k := Nat.pow_le_pow_right (by decide) (by omega)
    simp only [Num.AtLeast, Nat.pow_zero, Nat.mul_one]
    calc n ≤ 2 ^ 52 * 2 ^ 1 := hn
      _ ≤ roundHalfEven p (q * 2 ^ k) * 2 ^ k := Nat.mul_le_mul hround hk1
  next =>
    dsimp only
    generalize min _ 1074 = s
    refine le_trans ((Nat.le_div_iff_mul_le hq).mpr ?_) (le_roundHalfEven (p * 2 ^ s) q)
    calc n * 2 ^ s * q = n * q * 2 ^ s := Nat.mul_right_comm _ _ _
      _ ≤ p * 2 ^ s := Nat.mul_le_mul_right _ h

end Ionosphere.Js
