import Ionosphere.Lib.BitGroups

/-! Digits with the highest one first: as many digits as before, and the order of the numbers is
the order of the digits, place by place. -/
namespace Ionosphere.Lib.Radix

open BitGroups

def value (B : Nat) : List Nat → Nat
  | [] => 0
  | d :: ds => d * B ^ ds.length + value B ds

variable {B : Nat}

theorem value_lt {ds : List Nat} (h : ∀ d ∈ ds, d < B) : value B ds < B ^ ds.length := by
  induction ds with
  | nil => exact Nat.one_pos
  | cons d ds ih =>
    have hd : d + 1 ≤ B := h d List.mem_cons_self
    have hds := ih fun x hx => h x (List.mem_cons_of_mem _ hx)
    calc d * B ^ ds.length + value B ds
        < d * B ^ ds.length + B ^ ds.length := Nat.add_lt_add_left hds _
      _ = (d + 1) * B ^ ds.length := (Nat.succ_mul d _).symm
      _ ≤ B * B ^ ds.length := Nat.mul_le_mul_right _ hd
      _ = B ^ (d :: ds).length := by rw [List.length_cons, Nat.pow_succ, Nat.mul_comm]

theorem value_append (as bs : List Nat) :
    value B (as ++ bs) = value B as * B ^ bs.length + value B bs := by
  induction as with
  | nil => rw [List.nil_append, value, Nat.zero_mul, Nat.zero_add]
  | cons a as ih =>
    rw [List.cons_append, value, value, ih, List.length_append, Nat.pow_add, Nat.add_mul,
      Nat.mul_assoc, Nat.add_assoc]

theorem value_cons_lt {a b : Nat} {as bs : List Nat} (hab : a < b) (has : ∀ d ∈ as, d < B)
    (hlength : as.length = bs.length) : value B (a :: as) < value B (b :: bs) := by
  have hvalue := value_lt has
  calc a * B ^ as.length + value B as
      < a * B ^ as.length + B ^ as.length := Nat.add_lt_add_left hvalue _
    _ = (a + 1) * B ^ as.length := (Nat.succ_mul a _).symm
    _ ≤ b * B ^ as.length := Nat.mul_le_mul_right _ hab
    _ ≤ b * B ^ bs.length + value B bs := by rw [hlength]; exact Nat.le_add_right _ _

theorem lex_of_value_lt {as bs : List Nat} (has : ∀ d ∈ as, d < B) (hbs : ∀ d ∈ bs, d < B)
    (hlength : as.length = bs.length) (h : value B as < value B bs) :
    List.Lex (· < ·) as bs := by
  induction as generalizing bs with
  | nil =>
    rw [List.length_eq_zero_iff.mp hlength.symm] at h
    exact absurd h (Nat.lt_irrefl _)
  | cons a as ih =>
    cases bs with
    | nil => cases hlength
    | cons b bs =>
      have hrest : as.length = bs.length := Nat.succ.inj hlength
      rcases Nat.lt_trichotomy a b with hab | rfl | hba
      · exact .rel hab
      · refine .cons (ih (fun d hd => has d (List.mem_cons_of_mem _ hd))
          (fun d hd => hbs d (List.mem_cons_of_mem _ hd)) hrest ?_)
        rw [value, value, hrest] at h
        exact Nat.lt_of_add_lt_add_left h
      · have hgt := value_cons_lt hba (fun d hd => hbs d (List.mem_cons_of_mem _ hd)) hrest.symm
        exact absurd h (Nat.not_lt.mpr (Nat.le_of_lt hgt))

theorem value_bits {w g : Nat} (h : g < 2 ^ w) : value 2 ((bits w g).map Bool.toNat) = g := by
  have hmod : ∀ w, value 2 ((bits w g).map Bool.toNat) = g % 2 ^ w := by
    intro w
    induction w with
    | zero => rw [Nat.pow_zero, Nat.mod_one]; rfl
    | succ w ih =>
      rw [bits, List.map_cons, value, ih, List.length_map, bits_length, Nat.toNat_testBit,
        Nat.mod_pow_succ, Nat.mul_comm, Nat.add_comm]
  rw [hmod w, Nat.mod_eq_of_lt h]

theorem value_flatMap_bits {w : Nat} {gs : List Nat} (h : ∀ g ∈ gs, g < 2 ^ w) :
    value 2 ((gs.flatMap (bits w)).map Bool.toNat) = value (2 ^ w) gs := by
  induction gs with
  | nil => rfl
  | cons g gs ih =>
    rw [List.flatMap_cons, List.map_append, value_append, value_bits (h g List.mem_cons_self),
      ih fun x hx => h x (List.mem_cons_of_mem _ hx), List.length_map, length_flatMap_bits, value,
      ← Nat.pow_mul]

end Ionosphere.Lib.Radix
