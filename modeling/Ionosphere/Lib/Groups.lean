import Ionosphere.Lib.Assoc
import Mathlib.Data.List.Induction
import Mathlib.Data.List.Perm.Basic

/-! Lists grouped by a key: a group for each key, in the order the keys first occur, and in each
group its elements in their order. -/
namespace Ionosphere.Lib.Groups

variable {α κ : Type*} [DecidableEq κ] (key : α → κ)

def add (groups : List (κ × List α)) (x : α) : List (κ × List α) :=
  Assoc.set groups (key x) ((Assoc.get groups (key x)).getD [] ++ [x])

def collect (xs : List α) : List (κ × List α) := xs.foldl (add key) []

theorem collect_concat (xs : List α) (x : α) :
    collect key (xs ++ [x]) = add key (collect key xs) x := by
  rw [collect, List.foldl_concat, collect]

theorem get_collect (xs : List α) (k : κ) :
    Assoc.get (collect key xs) k =
      if (xs.filter fun x => key x = k) = [] then none else some (xs.filter fun x => key x = k) := by
  induction xs using List.reverseRecOn with
  | nil => rfl
  | append_singleton xs x ih =>
    rw [collect_concat, add, Assoc.get_set, List.filter_append]
    by_cases hk : key x = k
    · have hget : (Assoc.get (collect key xs) k).getD [] = xs.filter fun x => key x = k := by
        rw [ih]
        split
        next h => rw [h]; rfl
        next => rfl
      have hone : [x].filter (fun x => key x = k) = [x] := by simp [hk]
      rw [if_pos hk, hk, hget, hone, if_neg (by simp)]
    · have hone : [x].filter (fun x => key x = k) = [] := by simp [hk]
      rw [if_neg hk, ih, hone, List.append_nil]

theorem nodup_collect (xs : List α) : ((collect key xs).map (·.1)).Nodup := by
  induction xs using List.reverseRecOn with
  | nil => exact List.nodup_nil
  | append_singleton xs x ih =>
    rw [collect_concat, add]
    exact Assoc.nodup_set ih _ _

theorem mem_collect {xs : List α} {k : κ} {g : List α} (h : (k, g) ∈ collect key xs) :
    g = xs.filter (fun x => key x = k) ∧ g ≠ [] := by
  have hget := (Assoc.mem_iff_get (nodup_collect key xs) k g).mp h
  rw [get_collect] at hget
  split_ifs at hget with hnil
  have heq := Option.some.inj hget
  exact ⟨heq.symm, by rw [← heq]; exact hnil⟩

theorem perm_set_concat (m : List (κ × List α)) (k : κ) (x : α) :
    ((Assoc.set m k ((Assoc.get m k).getD [] ++ [x])).flatMap (·.2)).Perm
      (m.flatMap (·.2) ++ [x]) := by
  induction m with
  | nil => exact List.Perm.refl _
  | cons p m ih =>
    obtain ⟨k', g⟩ := p
    by_cases hk : k' = k
    · rw [Assoc.set, if_pos hk, Assoc.get, if_pos hk, List.flatMap_cons, List.flatMap_cons]
      simp only [Option.getD_some, List.append_assoc]
      exact List.Perm.append_left g List.perm_append_comm
    · rw [Assoc.set, if_neg hk, Assoc.get, if_neg hk, List.flatMap_cons, List.flatMap_cons,
        List.append_assoc]
      exact List.Perm.append_left g ih

theorem perm_collect (xs : List α) : ((collect key xs).flatMap (·.2)).Perm xs := by
  induction xs using List.reverseRecOn with
  | nil => exact List.Perm.refl _
  | append_singleton xs x ih =>
    rw [collect_concat, add]
    exact (perm_set_concat _ _ _).trans (List.Perm.append_right [x] ih)

end Ionosphere.Lib.Groups
