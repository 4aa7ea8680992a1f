import Mathlib.Data.List.Sort
import Mathlib.Data.List.InsertIdx
import Mathlib.Data.List.Perm.Basic

/-! A copy of a list kept by someone who is told positions: entries are erased by
index, and a new entry is a slot whose content is looked up later. -/
namespace Ionosphere.Lib.Slots

variable {α β : Type*}

/-- The entries at `idxs` erased, one after the other. -/
def eraseAll (xs : List α) (idxs : List Nat) : List α := idxs.foldl List.eraseIdx xs

@[simp] theorem eraseAll_nil (xs : List α) : eraseAll xs [] = xs := rfl

@[simp] theorem eraseAll_cons (xs : List α) (i : Nat) (idxs : List Nat) :
    eraseAll xs (i :: idxs) = eraseAll (xs.eraseIdx i) idxs := rfl

theorem eraseAll_map (f : α → β) (xs : List α) (idxs : List Nat) :
    eraseAll (xs.map f) idxs = (eraseAll xs idxs).map f := by
  induction idxs generalizing xs with
  | nil => rfl
  | cons i idxs ih => rw [eraseAll_cons, eraseAll_cons, List.eraseIdx_map, ih]

theorem lt_eraseIdx {xs : List α} {i : Nat} {idxs : List Nat}
    (hdesc : (i :: idxs).Pairwise (· > ·)) (hlt : ∀ j ∈ i :: idxs, j < xs.length) :
    idxs.Pairwise (· > ·) ∧ ∀ j ∈ idxs, j < i ∧ j < (xs.eraseIdx i).length := by
  rw [List.pairwise_cons] at hdesc
  refine ⟨hdesc.2, fun j hj => ?_⟩
  have hji := hdesc.1 j hj
  have hi := hlt i List.mem_cons_self
  rw [List.length_eraseIdx_of_lt hi]
  omega

theorem eraseAll_append (xs ys : List α) {idxs : List Nat} (hdesc : idxs.Pairwise (· > ·))
    (hlt : ∀ i ∈ idxs, i < xs.length) : eraseAll (xs ++ ys) idxs = eraseAll xs idxs ++ ys := by
  induction idxs generalizing xs with
  | nil => rfl
  | cons i idxs ih =>
    have h := lt_eraseIdx hdesc hlt
    rw [eraseAll_cons, eraseAll_cons, List.eraseIdx_append_of_lt_length (hlt i List.mem_cons_self)]
    exact ih _ h.1 fun j hj => (h.2 j hj).2

theorem eraseAll_eq_diff [DecidableEq α] [Inhabited α] {xs : List α} (hnodup : xs.Nodup)
    {idxs : List Nat} (hdesc : idxs.Pairwise (· > ·)) (hlt : ∀ i ∈ idxs, i < xs.length) :
    eraseAll xs idxs = xs.diff (idxs.map fun i => xs[i]!) := by
  induction idxs generalizing xs with
  | nil => simp
  | cons i idxs ih =>
    have hi := hlt i List.mem_cons_self
    have h := lt_eraseIdx hdesc hlt
    have hsame : (idxs.map fun j => (xs.eraseIdx i)[j]!) = idxs.map fun j => xs[j]! := by
      apply List.map_congr_left
      intro j hj
      simp only [List.getElem!_eq_getElem?_getD, List.getElem?_eraseIdx_of_lt (h.2 j hj).1]
    have herase : xs.erase xs[i]! = xs.eraseIdx i := by
      rw [getElem!_pos xs i hi, hnodup.erase_getElem i hi]
    rw [eraseAll_cons, ih (hnodup.eraseIdx i) h.1 fun j hj => (h.2 j hj).2, hsame, List.map_cons,
      List.diff_cons, herase]

def learn : List α → List (Option α) → List (Option α)
  | x :: xs, slot :: slots => some (slot.getD x) :: learn xs slots
  | [], slots => slots
  | _, [] => []

theorem learn_replicate (xs : List α) : learn xs (List.replicate xs.length none) = xs.map some := by
  induction xs with
  | nil => rfl
  | cons x xs ih => simp only [List.length_cons, List.replicate_succ, learn, ih, List.map_cons,
      Option.getD_none]

theorem learn_known (known new : List α) :
    learn (known ++ new) (known.map some ++ List.replicate new.length none) =
      (known ++ new).map some := by
  induction known with
  | nil => simpa using learn_replicate new
  | cons x known ih => simp only [List.cons_append, List.map_cons, learn, ih, Option.getD_some]

/-! An entry beside the others. -/

theorem flatMap_perm {xs : List α} {i : Nat} {x : α} (hx : xs[i]? = some x) (f : α → List β) :
    (xs.flatMap f).Perm (f x ++ (xs.eraseIdx i).flatMap f) := by
  obtain ⟨hi, rfl⟩ := List.getElem?_eq_some_iff.mp hx
  exact (List.getElem_cons_eraseIdx_perm hi).symm.flatMap_right _

theorem flatMap_set_perm {xs : List α} {i : Nat} {x y : α} (hx : xs[i]? = some x)
    (f : α → List β) : ((xs.set i y).flatMap f).Perm (f y ++ (xs.eraseIdx i).flatMap f) := by
  obtain ⟨hi, -⟩ := List.getElem?_eq_some_iff.mp hx
  exact (List.set_perm_cons_eraseIdx hi y).flatMap_right _

theorem flatten_perm {xs : List (List α)} {i : Nat} {x : List α} (hx : xs[i]? = some x) :
    xs.flatten.Perm (x ++ (xs.eraseIdx i).flatten) := by
  obtain ⟨hi, rfl⟩ := List.getElem?_eq_some_iff.mp hx
  exact (List.getElem_cons_eraseIdx_perm hi).symm.flatten

theorem flatten_set_perm {xs : List (List α)} {i : Nat} {x y : List α} (hx : xs[i]? = some x) :
    (xs.set i y).flatten.Perm (y ++ (xs.eraseIdx i).flatten) := by
  obtain ⟨hi, -⟩ := List.getElem?_eq_some_iff.mp hx
  exact (List.set_perm_cons_eraseIdx hi y).flatten

end Ionosphere.Lib.Slots
