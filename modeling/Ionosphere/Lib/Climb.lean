import Mathlib.Data.List.Basic

/-! A climb from a list towards its end: it stops below the first suffix with a mark, and
gives up after a number of steps. -/
namespace Ionosphere.Lib.Climb

section

variable {α : Type*} (marked : List α → Bool)

/-- The suffix just before the first marked one, among the next `steps`. -/
def climb : Nat → List α → Option (List α)
  | 0, _ => none
  | _ + 1, [] => none
  | steps + 1, x :: xs => if marked xs then some (x :: xs) else climb steps xs

/-- Place `i` of a list is the first below a mark. -/
structure Below (xs : List α) (i : Nat) : Prop where
  lt : i < xs.length
  mark : marked (xs.drop (i + 1)) = true
  first : ∀ j < i, marked (xs.drop (j + 1)) = false

variable {marked}

theorem Below.unique {xs : List α} {i j : Nat} (hi : Below marked xs i) (hj : Below marked xs j) :
    i = j := by
  obtain hlt | heq | hgt := Nat.lt_trichotomy i j
  · exact absurd (hi.mark.symm.trans (hj.first i hlt)) (by simp)
  · exact heq
  · exact absurd (hj.mark.symm.trans (hi.first j hgt)) (by simp)

theorem below_zero {x : α} {xs : List α} : Below marked (x :: xs) 0 ↔ marked xs = true :=
  ⟨fun h => h.mark, fun h => ⟨Nat.succ_pos _, h, fun j hj => absurd hj (Nat.not_lt_zero j)⟩⟩

theorem below_succ {x : α} {xs : List α} {i : Nat} :
    Below marked (x :: xs) (i + 1) ↔ marked xs = false ∧ Below marked xs i := by
  constructor
  · intro h
    refine ⟨h.first 0 (Nat.succ_pos i), Nat.lt_of_succ_lt_succ h.lt, h.mark, fun j hj => ?_⟩
    exact h.first (j + 1) (Nat.succ_lt_succ hj)
  · rintro ⟨hx, h⟩
    refine ⟨Nat.succ_lt_succ h.lt, h.mark, fun j hj => ?_⟩
    cases j with
    | zero => exact hx
    | succ j => exact h.first j (Nat.lt_of_succ_lt_succ hj)

theorem climb_of_below {xs : List α} {i steps : Nat} (h : Below marked xs i) :
    climb marked steps xs = if i < steps then some (xs.drop i) else none := by
  induction steps generalizing xs i with
  | zero => rfl
  | succ steps ih =>
    cases xs with
    | nil => exact absurd h.lt (Nat.not_lt_zero i)
    | cons x xs =>
      cases i with
      | zero => simp only [climb, below_zero.mp h, if_true, Nat.succ_pos, List.drop_zero]
      | succ i =>
        obtain ⟨hx, hrest⟩ := below_succ.mp h
        rw [climb, hx, ih hrest]
        simp only [Bool.false_eq_true, if_false, Nat.succ_lt_succ_iff, List.drop_succ_cons]

theorem climb_of_unmarked {xs : List α} (h : ∀ i, ¬ Below marked xs i) (steps : Nat) :
    climb marked steps xs = none := by
  induction steps generalizing xs with
  | zero => rfl
  | succ steps ih =>
    cases xs with
    | nil => rfl
    | cons x xs =>
      have hx : marked xs = false := by
        rw [Bool.eq_false_iff]
        exact fun hmark => h 0 (below_zero.mpr hmark)
      rw [climb, hx]
      exact ih fun i hi => h (i + 1) (below_succ.mpr ⟨hx, hi⟩)

theorem below_append {ls xs : List α}
    (hfront : ∀ i < ls.length, marked (ls.drop (i + 1) ++ xs) = false) {i : Nat} :
    Below marked (ls ++ xs) i ↔ ls.length ≤ i ∧ Below marked xs (i - ls.length) := by
  induction ls generalizing i with
  | nil => simp
  | cons l ls ih =>
    have hl : marked (ls ++ xs) = false := hfront 0 (Nat.succ_pos _)
    have hrest : ∀ j < ls.length, marked (ls.drop (j + 1) ++ xs) = false := fun j hj =>
      hfront (j + 1) (Nat.succ_lt_succ hj)
    cases i with
    | zero =>
      rw [List.cons_append, below_zero, hl]
      simp
    | succ i =>
      rw [List.cons_append, below_succ, ih hrest, List.length_cons, Nat.succ_le_succ_iff,
        Nat.succ_sub_succ]
      exact ⟨fun h => h.2, fun h => ⟨hl, h⟩⟩

end

end Ionosphere.Lib.Climb
