import Mathlib.Algebra.BigOperators.Group.List.Basic
import Mathlib.Algebra.Order.Group.Int
import Mathlib.Data.List.Nodup
import Mathlib.Tactic.Abel

/-! Tables as lists of rows: cutting a list of parameters into parts, statements that
delete, change or add rows part by part, and sums over the rows with a property. -/
namespace Ionosphere.Lib.Table

variable {ρ κ α : Type*}

/-- `xs` in parts of at most `size` elements; a size of 0 is taken as 1. -/
def chunk (size : Nat) : List α → List (List α)
  | [] => []
  | x :: xs => (x :: xs.take (size - 1)) :: chunk size (xs.drop (size - 1))
termination_by xs => xs.length
decreasing_by simp only [List.length_cons, List.length_drop]; omega

@[simp] theorem chunk_nil (size : Nat) : chunk size ([] : List α) = [] := by
  rw [chunk]

@[simp] theorem flatten_chunk (size : Nat) (xs : List α) : (chunk size xs).flatten = xs := by
  induction xs using chunk.induct size with
  | case1 => simp
  | case2 x xs ih =>
    rw [chunk, List.flatten_cons, ih, List.cons_append, List.take_append_drop]

theorem filter_flatMap_parts [DecidableEq κ] [BEq κ] [LawfulBEq κ] (key : ρ → κ) (t : List ρ)
    {parts : List (List κ)} (hparts : parts.flatten.Nodup) {x : κ} (hx : x ∈ parts.flatten) :
    ((parts.flatMap fun part => t.filter fun r => part.contains (key r)).filter
      fun r => key r = x) = t.filter fun r => key r = x := by
  have hone : ∀ part : List κ, ((t.filter fun r => part.contains (key r)).filter
      fun r => key r = x) = if x ∈ part then t.filter fun r => key r = x else [] := by
    intro part
    rw [List.filter_filter]
    split
    · rename_i hin
      apply List.filter_congr
      intro r _
      by_cases hr : key r = x <;> simp [hr, hin]
    · rename_i hout
      rw [List.filter_eq_nil_iff]
      intro r _
      by_cases hr : key r = x <;> simp [hr, hout]
  induction parts with
  | nil => simp at hx
  | cons part parts ih =>
    rw [List.flatten_cons, List.nodup_append] at hparts
    rw [List.flatMap_cons, List.filter_append, hone]
    by_cases hin : x ∈ part
    · have hrest : ((parts.flatMap fun part => t.filter fun r => part.contains (key r)).filter
          fun r => key r = x) = [] := by
        rw [List.filter_eq_nil_iff]
        intro r hr
        rw [List.mem_flatMap] at hr
        obtain ⟨other, hother, hr⟩ := hr
        have hkey : key r ∈ other := by simpa using (List.mem_filter.mp hr).2
        intro heq
        have hxr : key r = x := by simpa using heq
        exact hparts.2.2 x hin x (List.mem_flatten.mpr ⟨other, hother, hxr ▸ hkey⟩) rfl
      rw [if_pos hin, hrest, List.append_nil]
    · rw [List.flatten_cons, List.mem_append] at hx
      rw [if_neg hin, List.nil_append, ih hparts.2.1 (hx.resolve_left hin)]

theorem filter_map_fixed {p : ρ → Bool} {f : ρ → ρ} {t : List ρ}
    (h : ∀ r ∈ t, p (f r) = p r ∧ (p r = true → f r = r)) : (t.map f).filter p = t.filter p := by
  induction t with
  | nil => rfl
  | cons r t ih =>
    rw [List.forall_mem_cons] at h
    rw [List.map_cons, List.filter_cons, List.filter_cons, h.1.1, ih h.2]
    split
    · rename_i hr
      rw [h.1.2 hr]
    · rfl

theorem nodup_eraseDups [BEq α] [LawfulBEq α] (xs : List α) : xs.eraseDups.Nodup := by
  induction hn : xs.length using Nat.strong_induction_on generalizing xs with
  | _ n ih =>
    cases xs with
    | nil => simp
    | cons x xs =>
      rw [List.eraseDups_cons, List.nodup_cons]
      refine ⟨by simp [List.mem_eraseDups], ih _ ?_ _ rfl⟩
      have hle := List.length_filter_le (fun b => !b == x) xs
      rw [← hn, List.length_cons]
      omega

end Ionosphere.Lib.Table
