import Ionosphere.Core.Scram

/-! `Buffer.from(s, "base64")` reads back what `toString("base64")` wrote. -/
namespace Ionosphere.Core

open Ionosphere.Js

theorem base64Lenient_eq (s : Text) :
    base64Lenient s = base64Bytes (((lowBytes s).takeWhile (· != '=')).filterMap fun c =>
      if c = '-' then some 62 else if c = '_' then some 63 else base64Value c) := rfl

theorem lenient_base64Char {n : Nat} (h : n < 64) :
    base64Char n ≠ '=' ∧
      (if base64Char n = '-' then some 62 else if base64Char n = '_' then some 63
        else base64Value (base64Char n)) = some n := by
  revert n
  decide

def base64Digits : Bytes → List Nat
  | [] => []
  | [a] => [a.toNat / 4, a.toNat % 4 * 16]
  | [a, b] => [a.toNat / 4, a.toNat % 4 * 16 + b.toNat / 16, b.toNat % 16 * 4]
  | a :: b :: c :: rest =>
    a.toNat / 4 :: (a.toNat % 4 * 16 + b.toNat / 16) ::
      (b.toNat % 16 * 4 + c.toNat / 64) :: c.toNat % 64 :: base64Digits rest

theorem ofNat_of_toNat (a : UInt8) {n : Nat} (h : a.toNat = n) : UInt8.ofNat n = a := by
  rw [← h, UInt8.ofNat_toNat]

theorem base64Bytes_digits (b : Bytes) : base64Bytes (base64Digits b) = b := by
  fun_induction base64Digits b with
  | case1 => rfl
  | case2 a =>
    have ha := a.toNat_lt
    simp only [base64Bytes, List.cons.injEq, and_true]
    exact ofNat_of_toNat a (by omega)
  | case3 a b =>
    have ha := a.toNat_lt
    have hb := b.toNat_lt
    simp only [base64Bytes, List.cons.injEq, and_true]
    exact ⟨ofNat_of_toNat a (by omega), ofNat_of_toNat b (by omega)⟩
  | case4 a b c rest ih =>
    have ha := a.toNat_lt
    have hb := b.toNat_lt
    have hc := c.toNat_lt
    simp only [base64Bytes, List.cons.injEq, ih, and_true]
    exact ⟨ofNat_of_toNat a (by omega), ofNat_of_toNat b (by omega), ofNat_of_toNat c (by omega)⟩

theorem base64Encode_forall {P : Char → Prop} (h : ∀ n < 64, P (base64Char n)) (hpad : P '=')
    (b : Bytes) : ∀ c ∈ base64Encode b, P c := by
  fun_induction base64Encode b with
  | case1 => exact List.forall_mem_nil _
  | case2 a =>
    have ha := a.toNat_lt
    simp only [List.forall_mem_cons]
    exact ⟨h _ (by omega), h _ (by omega), hpad, hpad, List.forall_mem_nil _⟩
  | case3 a b =>
    have ha := a.toNat_lt
    have hb := b.toNat_lt
    simp only [List.forall_mem_cons]
    exact ⟨h _ (by omega), h _ (by omega), h _ (by omega), hpad, List.forall_mem_nil _⟩
  | case4 a b c rest ih =>
    have ha := a.toNat_lt
    have hb := b.toNat_lt
    have hc := c.toNat_lt
    simp only [List.forall_mem_cons]
    exact ⟨h _ (by omega), h _ (by omega), h _ (by omega), h _ (by omega), ih⟩

theorem lowBytes_latin {s : Text} (h : ∀ c ∈ s, c.toNat < 256) : lowBytes s = s := by
  induction s with
  | nil => rfl
  | cons c s ih =>
    rw [List.forall_mem_cons] at h
    have hrest := ih h.2
    rw [lowBytes] at hrest ⊢
    rw [List.flatMap_cons, hrest, if_pos (by omega), Nat.mod_eq_of_lt h.1, Char.ofNat_toNat]
    rfl

theorem base64Lenient_encode (b : Bytes) : base64Lenient (base64Encode b) = b := by
  have hlatin : ∀ c ∈ base64Encode b, c.toNat < 256 :=
    base64Encode_forall (P := fun c => c.toNat < 256) (by decide) (by decide) b
  rw [base64Lenient_eq, lowBytes_latin hlatin]
  clear hlatin
  refine (congrArg base64Bytes ?_).trans (base64Bytes_digits b)
  fun_induction base64Digits b with
  | case1 => rfl
  | case2 a =>
    have ha := a.toNat_lt
    have h₁ := lenient_base64Char (n := a.toNat / 4) (by omega)
    have h₂ := lenient_base64Char (n := a.toNat % 4 * 16) (by omega)
    simp [base64Encode, h₁, h₂]
  | case3 a b =>
    have ha := a.toNat_lt
    have hb := b.toNat_lt
    have h₁ := lenient_base64Char (n := a.toNat / 4) (by omega)
    have h₂ := lenient_base64Char (n := a.toNat % 4 * 16 + b.toNat / 16) (by omega)
    have h₃ := lenient_base64Char (n := b.toNat % 16 * 4) (by omega)
    simp [base64Encode, h₁, h₂, h₃]
  | case4 a b c rest ih =>
    have ha := a.toNat_lt
    have hb := b.toNat_lt
    have hc := c.toNat_lt
    have h₁ := lenient_base64Char (n := a.toNat / 4) (by omega)
    have h₂ := lenient_base64Char (n := a.toNat % 4 * 16 + b.toNat / 16) (by omega)
    have h₃ := lenient_base64Char (n := b.toNat % 16 * 4 + c.toNat / 64) (by omega)
    have h₄ := lenient_base64Char (n := c.toNat % 64) (by omega)
    simp [base64Encode, h₁, h₂, h₃, h₄, ih]

theorem base64Encode_eq_nil {b : Bytes} : base64Encode b = [] ↔ b = [] := by
  fun_cases base64Encode b <;> simp

end Ionosphere.Core
