import Mathlib.Data.List.Basic

/-! Finite maps as insertion-ordered association lists: setting a key that is
present keeps its place, setting a new one appends it. -/
namespace Ionosphere.Lib.Assoc

variable {κ β : Type*} [DecidableEq κ]

def get : List (κ × β) → κ → Option β
  | [], _ => none
  | (k, v) :: m, x => if k = x then some v else get m x

def set : List (κ × β) → κ → β → List (κ × β)
  | [], x, w => [(x, w)]
  | (k, v) :: m, x, w => if k = x then (k, w) :: m else (k, v) :: set m x w

@[simp] theorem get_nil (x : κ) : get ([] : List (κ × β)) x = none := rfl

theorem get_set (m : List (κ × β)) (x y : κ) (w : β) :
    get (set m x w) y = if x = y then some w else get m y := by
  induction m with
  | nil => rfl
  | cons p m ih =>
    obtain ⟨k, v⟩ := p
    simp only [set]
    split_ifs with hkx hxy hxy
    · simp [get, hkx, hxy]
    · have hky : k ≠ y := fun h => hxy (hkx.symm.trans h)
      simp [get, hky]
    · have hky : k ≠ y := fun h => hkx (h.trans hxy.symm)
      simp only [get, if_neg hky, ih, if_pos hxy]
    · simp only [get, ih, if_neg hxy]

@[simp] theorem get_set_self (m : List (κ × β)) (x : κ) (w : β) :
    get (set m x w) x = some w := by
  rw [get_set, if_pos rfl]

theorem get_set_ne (m : List (κ × β)) {x y : κ} (w : β) (h : x ≠ y) :
    get (set m x w) y = get m y := by
  rw [get_set, if_neg h]

theorem keys_set (m : List (κ × β)) (x : κ) (w : β) (y : κ) :
    y ∈ (set m x w).map (·.1) ↔ y = x ∨ y ∈ m.map (·.1) := by
  induction m with
  | nil => simp [set]
  | cons p m ih =>
    obtain ⟨k, v⟩ := p
    simp only [set]
    split_ifs with hkx
    · simp [hkx]
    · rw [List.map_cons, List.mem_cons, ih, List.map_cons, List.mem_cons, or_left_comm]

theorem nodup_set {m : List (κ × β)} (h : (m.map (·.1)).Nodup) (x : κ) (w : β) :
    ((set m x w).map (·.1)).Nodup := by
  induction m with
  | nil => simp [set]
  | cons p m ih =>
    obtain ⟨k, v⟩ := p
    rw [List.map_cons, List.nodup_cons] at h
    simp only [set]
    split_ifs with hkx
    · rw [List.map_cons, List.nodup_cons]
      exact h
    · rw [List.map_cons, List.nodup_cons, keys_set]
      refine ⟨?_, ih h.2⟩
      rintro (hk | hk)
      · exact hkx hk
      · exact h.1 hk

theorem mem_iff_get {m : List (κ × β)} (h : (m.map (·.1)).Nodup) (x : κ) (v : β) :
    (x, v) ∈ m ↔ get m x = some v := by
  induction m with
  | nil => simp
  | cons p m ih =>
    obtain ⟨k, w⟩ := p
    rw [List.map_cons, List.nodup_cons] at h
    rw [List.mem_cons, ih h.2, get]
    split_ifs with hkx
    · subst hkx
      have hnone : get m k ≠ some v := by
        intro hget
        exact h.1 (List.mem_map.mpr ⟨(k, v), (ih h.2).mpr hget, rfl⟩)
      simp [hnone, eq_comm]
    · have hne : (x, v) ≠ (k, w) := by
        intro heq
        exact hkx (congrArg Prod.fst heq).symm
      simp [hne]

theorem get_map (f : κ → β) {xs : List κ} {x : κ} (h : x ∈ xs) :
    get (xs.map fun k => (k, f k)) x = some (f x) := by
  induction xs with
  | nil => cases h
  | cons k xs ih =>
    rw [List.map_cons, get]
    split_ifs with hk
    · rw [hk]
    · exact ih ((List.mem_cons.mp h).resolve_left (Ne.symm hk))

theorem get_eq_none {m : List (κ × β)} {x : κ} : get m x = none ↔ x ∉ m.map (·.1) := by
  induction m with
  | nil => simp
  | cons p m ih =>
    obtain ⟨k, v⟩ := p
    rw [get, List.map_cons, List.mem_cons, not_or, ← ih]
    split_ifs with hk
    · simp [hk]
    · simp [Ne.symm hk]

theorem set_of_notMem {m : List (κ × β)} {x : κ} (h : x ∉ m.map (·.1)) (w : β) :
    set m x w = m ++ [(x, w)] := by
  induction m with
  | nil => rfl
  | cons p m ih =>
    obtain ⟨k, v⟩ := p
    rw [List.map_cons, List.mem_cons, not_or] at h
    rw [set, if_neg (Ne.symm h.1), ih h.2, List.cons_append]

def erase (m : List (κ × β)) (x : κ) : List (κ × β) := m.filter fun p => p.1 ≠ x

theorem get_filter_of_get {m : List (κ × β)} {x : κ} {v : β} {f : κ × β → Bool}
    (h : get m x = some v) (hf : f (x, v) = true) : get (m.filter f) x = some v := by
  induction m with
  | nil => cases h
  | cons e m ih =>
    obtain ⟨k, w⟩ := e
    rw [get] at h
    split_ifs at h with hk
    · obtain rfl : w = v := Option.some.inj h
      rw [List.filter_cons_of_pos (by rw [hk]; exact hf), get, if_pos hk]
    · by_cases hkept : f (k, w) = true
      · rw [List.filter_cons_of_pos hkept, get, if_neg hk, ih h]
      · rw [List.filter_cons_of_neg hkept, ih h]

theorem get_erase (m : List (κ × β)) (x y : κ) :
    get (erase m x) y = if x = y then none else get m y := by
  induction m with
  | nil => simp [erase]
  | cons p m ih =>
    obtain ⟨k, v⟩ := p
    rw [erase] at ih ⊢
    by_cases hkx : k = x
    · rw [List.filter_cons_of_neg (by simp [hkx]), ih, get]
      split_ifs with hxy hky
      · rfl
      · exact absurd (hkx.symm.trans hky) hxy
      · rfl
    · rw [List.filter_cons_of_pos (by simp [hkx]), get, get, ih]
      split_ifs with hky hxy
      · exact absurd (hky.trans hxy.symm) hkx
      · rfl
      · rfl
      · rfl

/-- The part of `m` on the keys `ks`, in the order of `ks`. -/
def restrict (m : List (κ × β)) (ks : List κ) : List (κ × β) :=
  ks.foldl (fun acc k => match get m k with
    | some v => set acc k v
    | none => acc) []

private theorem get_restrictFold (m : List (κ × β)) (ks : List κ) (acc : List (κ × β)) (x : κ) :
    get (ks.foldl (fun acc k => match get m k with
      | some v => set acc k v
      | none => acc) acc) x =
      if x ∈ ks ∧ (get m x).isSome then get m x else get acc x := by
  induction ks generalizing acc with
  | nil => simp
  | cons k ks ih =>
    rw [List.foldl_cons, ih]
    by_cases hx : x ∈ ks ∧ (get m x).isSome
    · rw [if_pos hx, if_pos ⟨List.mem_cons_of_mem _ hx.1, hx.2⟩]
    · rw [if_neg hx]
      by_cases hk : x = k
      · subst hk
        cases hm : get m x with
        | none => simp
        | some v => simp
      · have hcons : ¬(x ∈ k :: ks ∧ (get m x).isSome) := by
          simpa [hk] using hx
        rw [if_neg hcons]
        cases get m k with
        | none => rfl
        | some v => exact get_set_ne _ _ (Ne.symm hk)

theorem get_restrict (m : List (κ × β)) (ks : List κ) (x : κ) :
    get (restrict m ks) x = if x ∈ ks then get m x else none := by
  rw [restrict, get_restrictFold]
  cases get m x <;> simp

end Ionosphere.Lib.Assoc
