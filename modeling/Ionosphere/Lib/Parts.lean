import Ionosphere.Lib.Table
import Mathlib.Algebra.BigOperators.Group.List.Lemmas

/-! A list cut into parts: how long the parts are, which elements lie in more than one of
them, and what is found when rows are looked up part by part. -/
namespace Ionosphere.Lib.Table

variable {α β κ ρ : Type*} {size : Nat}

theorem chunk_cons (hsize : 0 < size) (x : α) (xs : List α) :
    chunk size (x :: xs) = (x :: xs).take size :: chunk size ((x :: xs).drop size) := by
  obtain ⟨n, rfl⟩ : ∃ n, size = n + 1 := ⟨size - 1, by omega⟩
  rw [chunk]
  simp only [Nat.add_sub_cancel, List.take_succ_cons, List.drop_succ_cons]

theorem length_le_of_mem_chunk (hsize : 0 < size) {xs part : List α}
    (h : part ∈ chunk size xs) : part.length ≤ size ∧ part.length ≤ xs.length := by
  induction xs using chunk.induct size with
  | case1 => simp at h
  | case2 x xs ih =>
    rw [chunk] at h
    rcases List.mem_cons.mp h with rfl | h
    · simp only [List.length_cons, List.length_take]
      omega
    · have hrest := ih h
      simp only [List.length_drop, List.length_cons] at hrest ⊢
      omega

theorem exists_longest (hsize : 0 < size) {xs : List α} (hne : xs ≠ []) :
    ∃ part ∈ chunk size xs, part.length = min size xs.length := by
  cases xs with
  | nil => exact absurd rfl hne
  | cons x xs =>
    rw [chunk_cons hsize]
    exact ⟨_, List.mem_cons_self, List.length_take⟩

theorem forall_chunk (hsize : 0 < size) {xs : List α} (fixed bound : Nat) :
    (∀ part ∈ chunk size xs, fixed + part.length ≤ bound) ↔
      (xs ≠ [] → fixed + min size xs.length ≤ bound) := by
  constructor
  · intro h hne
    obtain ⟨part, hpart, hlength⟩ := exists_longest hsize hne
    rw [← hlength]
    exact h part hpart
  · intro h part hpart
    have hlength := length_le_of_mem_chunk hsize hpart
    have hne : xs ≠ [] := by
      rintro rfl
      simp at hpart
    have := h hne
    omega

@[simp] theorem flatMap_chunk (f : α → β) (xs : List α) :
    ((chunk size xs).flatMap fun part => part.map f) = xs.map f := by
  rw [List.flatMap_def, ← List.map_flatten, flatten_chunk]

/-- All places of `k` in the list fall into one part. -/
def Together (size : Nat) (xs : List α) (k : α) : Prop :=
  ∀ i j, xs[i]? = some k → xs[j]? = some k → i / size = j / size

theorem together_of_nodup {xs : List α} (h : xs.Nodup) (k : α) : Together size xs k := by
  intro i j hi hj
  have hlt : i < xs.length := (List.getElem?_eq_some_iff.mp hi).1
  rw [(List.getElem?_inj hlt h).mp (hi.trans hj.symm)]

theorem together_append (hsize : 0 < size) (xs : List α) (k : α) :
    Together size xs k ↔
      (k ∈ xs.take size → k ∉ xs.drop size) ∧ Together size (xs.drop size) k := by
  constructor
  · intro h
    constructor
    · intro hfirst hrest
      obtain ⟨i, hi⟩ := List.mem_iff_getElem?.mp hfirst
      obtain ⟨j, hj⟩ := List.mem_iff_getElem?.mp hrest
      rw [List.getElem?_take] at hi
      rw [List.getElem?_drop] at hj
      split_ifs at hi with hlt
      have hsame := h i (size + j) hi hj
      rw [Nat.div_eq_of_lt hlt, Nat.add_div_left j hsize] at hsame
      exact absurd hsame (Nat.succ_ne_zero _).symm
    · intro i j hi hj
      rw [List.getElem?_drop] at hi hj
      have hsame := h (size + i) (size + j) hi hj
      rw [Nat.add_div_left i hsize, Nat.add_div_left j hsize] at hsame
      exact Nat.succ_injective hsame
  · rintro ⟨hapart, h⟩ i j hi hj
    have hmem : ∀ i, i < size → xs[i]? = some k → k ∈ xs.take size := by
      intro i hlt hi
      apply List.mem_iff_getElem?.mpr
      exact ⟨i, by rw [List.getElem?_take, if_pos hlt, hi]⟩
    have hdrop : ∀ i, ¬ i < size → xs[i]? = some k → (xs.drop size)[i - size]? = some k := by
      intro i hge hi
      rw [List.getElem?_drop, Nat.add_sub_cancel' (by omega), hi]
    by_cases hilt : i < size <;> by_cases hjlt : j < size
    · rw [Nat.div_eq_of_lt hilt, Nat.div_eq_of_lt hjlt]
    · exact absurd (List.mem_of_getElem? (hdrop j hjlt hj)) (hapart (hmem i hilt hi))
    · exact absurd (List.mem_of_getElem? (hdrop i hilt hi)) (hapart (hmem j hjlt hj))
    · have hsame := h _ _ (hdrop i hilt hi) (hdrop j hjlt hj)
      rw [← Nat.add_sub_cancel' (Nat.le_of_not_lt hilt), ← Nat.add_sub_cancel' (Nat.le_of_not_lt hjlt),
        Nat.add_div_left _ hsize, Nat.add_div_left _ hsize, hsame]

section

variable [BEq κ] [LawfulBEq κ]

theorem countP_chunk_eq_zero (xs : List κ) (k : κ) :
    (chunk size xs).countP (·.contains k) = 0 ↔ k ∉ xs := by
  rw [List.countP_eq_zero, ← flatten_chunk size xs, List.mem_flatten, flatten_chunk]
  simp

theorem countP_chunk_le_one (hsize : 0 < size) (xs : List κ) (k : κ) :
    (chunk size xs).countP (·.contains k) ≤ 1 ↔ Together size xs k := by
  induction xs using chunk.induct size with
  | case1 => simp [Together]
  | case2 x xs ih =>
    obtain ⟨n, rfl⟩ : ∃ n, size = n + 1 := ⟨size - 1, by omega⟩
    simp only [Nat.add_sub_cancel] at ih
    have hzero : (chunk (n + 1) (xs.drop n)).countP (·.contains k) = 0 ↔ k ∉ xs.drop n :=
      countP_chunk_eq_zero _ k
    rw [chunk_cons hsize, together_append hsize, List.countP_cons, List.take_succ_cons,
      List.drop_succ_cons, ← ih, ← hzero]
    by_cases hk : k ∈ x :: xs.take n
    · simp only [List.contains_iff_mem, hk, if_pos, true_implies]
      omega
    · simp [hk]

def selectParts (size : Nat) (items : List κ) (key : ρ → κ) (rows : List ρ) : List ρ :=
  (chunk size items).flatMap fun part => rows.filter fun r => part.contains (key r)

theorem count_filter_eq [DecidableEq ρ] (p : ρ → Bool) (rows : List ρ) (r : ρ) :
    (rows.filter p).count r = (if p r then 1 else 0) * rows.count r := by
  by_cases hr : p r
  · rw [List.count_filter hr, if_pos hr, Nat.one_mul]
  · rw [if_neg hr, Nat.zero_mul, List.count_eq_zero]
    intro hmem
    exact hr (List.mem_filter.mp hmem).2

theorem count_selectParts [DecidableEq ρ] (items : List κ) (key : ρ → κ) (rows : List ρ) (r : ρ) :
    (selectParts size items key rows).count r =
      (chunk size items).countP (·.contains (key r)) * rows.count r := by
  rw [selectParts]
  induction chunk size items with
  | nil => simp
  | cons part parts ih =>
    rw [List.flatMap_cons, List.count_append, ih, count_filter_eq, List.countP_cons, ← Nat.add_mul,
      Nat.add_comm]

theorem perm_selectParts (hsize : 0 < size) (items : List κ) (key : ρ → κ) (rows : List ρ) :
    (selectParts size items key rows).Perm (rows.filter fun r => items.contains (key r)) ↔
      ∀ r ∈ rows, Together size items (key r) := by
  classical
  rw [List.perm_iff_count]
  have hzero (r : ρ) : (chunk size items).countP (·.contains (key r)) = 0 ↔ key r ∉ items :=
    countP_chunk_eq_zero items (key r)
  constructor
  · intro h r hr
    have hsame := h r
    have hpos : 0 < rows.count r := List.count_pos_iff.mpr hr
    rw [count_selectParts, count_filter_eq] at hsame
    have heq := Nat.eq_of_mul_eq_mul_right hpos hsame
    rw [← countP_chunk_le_one hsize, heq]
    split_ifs <;> omega
  · intro h r
    rw [count_selectParts, count_filter_eq]
    by_cases hr : r ∈ rows
    · have hle := (countP_chunk_le_one hsize items (key r)).mpr (h r hr)
      by_cases hk : key r ∈ items
      · have hsome : (chunk size items).countP (·.contains (key r)) ≠ 0 :=
          fun h0 => (hzero r).mp h0 hk
        have hone : (chunk size items).countP (·.contains (key r)) = 1 := by omega
        rw [hone, if_pos (List.contains_iff_mem.mpr hk)]
      · rw [(hzero r).mpr hk, if_neg (by simpa using hk)]
    · rw [List.count_eq_zero.mpr hr, Nat.mul_zero, Nat.mul_zero]

end

end Ionosphere.Lib.Table
