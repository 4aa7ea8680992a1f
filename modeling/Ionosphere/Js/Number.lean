import Ionosphere.Js.Text
import Mathlib.Algebra.Ring.Nat

/-! `Number(text)` and the integer arithmetic of a 64-bit float, as far as sizes
and byte counts need it: the value of a numeric string rounded to 53 significant
bits, and sums and differences of natural numbers rounded the same way. Below
`2 ^ 53` nothing is rounded. -/
namespace Ionosphere.Js

/-- `p / q` rounded to the nearest natural number, ties to the even one. -/
def roundHalfEven (p q : Nat) : Nat :=
  let d := p / q
  let r := p % q
  if 2 * r < q then d else if q < 2 * r then d + 1 else if d % 2 = 0 then d else d + 1

def roundInt (n : Nat) : Nat :=
  if n ≤ 2 ^ 53 then n
  else
    let k := Nat.log2 n - 52
    roundHalfEven n (2 ^ k) * 2 ^ k

@[simp] theorem roundInt_of_le {n : Nat} (h : n ≤ 2 ^ 53) : roundInt n = n := if_pos h

theorem roundInt_eq_zero {n : Nat} : roundInt n = 0 ↔ n = 0 := by
  unfold roundInt
  split_ifs with hle
  · exact Iff.rfl
  have hn : n ≠ 0 := by omega
  refine iff_of_false (fun hzero => ?_) hn
  have hlog : 2 ^ (Nat.log2 n - 52) ≤ n :=
    (Nat.pow_le_pow_right (by omega) (Nat.sub_le _ _)).trans (Nat.log2_self_le hn)
  have hq : 0 < n / 2 ^ (Nat.log2 n - 52) := Nat.div_pos hlog (Nat.two_pow_pos _)
  have hround : 0 < roundHalfEven n (2 ^ (Nat.log2 n - 52)) := by
    unfold roundHalfEven
    dsimp only
    split_ifs <;> omega
  have hpos := Nat.mul_pos hround (Nat.two_pow_pos (Nat.log2 n - 52))
  dsimp only at hzero
  omega

/-- The first value that rounds to `Infinity`. -/
def infinityBound : Nat := 2 ^ 1024 - 2 ^ 970

/-- A float: `finite neg m s` is `± m / 2 ^ s`. -/
inductive Num where
  | nan
  | infinity (neg : Bool)
  | finite (neg : Bool) (num scale : Nat)
  deriving DecidableEq, Repr

/-- The float nearest to `± p / q`. -/
def roundRat (neg : Bool) (p q : Nat) : Num :=
  if p = 0 then .finite neg 0 0
  else if infinityBound * q ≤ p then .infinity neg
  else if 2 ^ 53 * q ≤ p then
    let k := Nat.log2 (p / q) - 52
    .finite neg (roundHalfEven p (q * 2 ^ k) * 2 ^ k) 0
  else
    let s := 52 + Nat.log2 q - Nat.log2 p
    let s := if p * 2 ^ s < 2 ^ 52 * q then s + 1 else s
    let s := min s 1074
    .finite neg (roundHalfEven (p * 2 ^ s) q) s

def Num.isInteger : Num → Bool
  | .finite _ num scale => num % 2 ^ scale == 0
  | _ => false

def Num.isNegative : Num → Bool
  | .finite neg num _ => neg && num != 0
  | .infinity neg => neg
  | .nan => false

/-- The value of a non-negative integral float. -/
def Num.toNat : Num → Nat
  | .finite _ num scale => num / 2 ^ scale
  | _ => 0

def digitValue (c : Char) : Nat :=
  let n := c.toNat
  if 48 ≤ n ∧ n ≤ 57 then n - 48
  else if 65 ≤ n ∧ n ≤ 90 then n - 55
  else n - 87

def digitsValue (base : Nat) (ds : Text) : Nat :=
  ds.foldl (fun acc c => acc * base + digitValue c) 0

def parseExponent : Text → Option Int
  | [] => some 0
  | c :: rest =>
    if c = 'e' ∨ c = 'E' then
      let (neg, ds) := match rest with
        | '-' :: t => (true, t)
        | '+' :: t => (false, t)
        | t => (false, t)
      if ds ≠ [] ∧ ds.all isDigit then
        let n : Int := digitsValue 10 ds
        some (if neg then -n else n)
      else none
    else none

/-- `StrUnsignedDecimalLiteral`. -/
def parseUnsignedDecimal (neg : Bool) (s : Text) : Num :=
  if s = "Infinity".toList then .infinity neg
  else
    let whole := s.takeWhile isDigit
    let afterWhole := s.dropWhile isDigit
    let (frac, expPart) := match afterWhole with
      | '.' :: t => (t.takeWhile isDigit, t.dropWhile isDigit)
      | t => ([], t)
    if whole = [] ∧ frac = [] then .nan
    else
      match parseExponent expPart with
      | none => .nan
      | some e =>
        let m := digitsValue 10 (whole ++ frac)
        let e := e - (frac.length : Int)
        if 0 ≤ e then roundRat neg (m * 10 ^ e.toNat) 1
        else roundRat neg m (10 ^ (-e).toNat)

def parseRadix (base : Nat) (ok : Char → Bool) (ds : Text) : Num :=
  if ds ≠ [] ∧ ds.all ok then roundRat false (digitsValue base ds) 1 else .nan

/-- `Number(s)` for a string `s`. -/
def number (s : Text) : Num :=
  match trim s with
  | [] => .finite false 0 0
  | '0' :: 'x' :: ds | '0' :: 'X' :: ds => parseRadix 16 isHexDigit ds
  | '0' :: 'o' :: ds | '0' :: 'O' :: ds =>
    parseRadix 8 (fun c => 48 ≤ c.toNat && c.toNat ≤ 55) ds
  | '0' :: 'b' :: ds | '0' :: 'B' :: ds =>
    parseRadix 2 (fun c => c = '0' || c = '1') ds
  | '-' :: t => parseUnsignedDecimal true t
  | '+' :: t => parseUnsignedDecimal false t
  | t => parseUnsignedDecimal false t

/-- `Number(ds)` for a string of decimal digits: `none` is `Infinity`. -/
def decimalNumber (ds : Text) : Option Nat :=
  let n := digitsValue 10 ds
  if infinityBound ≤ n then none else some (roundInt n)

theorem decimalNumber_of_le {ds : Text} (h : digitsValue 10 ds ≤ 2 ^ 53) :
    decimalNumber ds = some (digitsValue 10 ds) := by
  have hbound : ¬ infinityBound ≤ digitsValue 10 ds := by
    have : (2 : Nat) ^ 53 < infinityBound := by decide +kernel
    omega
  simp only [decimalNumber, if_neg hbound, roundInt_of_le h]

end Ionosphere.Js
