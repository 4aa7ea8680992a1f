import Mathlib.Data.List.Nodup

/-! Single guarded statements on a table with a primary key. A statement is atomic: its guard
and its effect see the same rows, and the number of rows it changed tells whether the guard
held. What such a statement does is said for one key at a time. -/
namespace Ionosphere.Lib.Statements

variable {ρ κ : Type*}

/-- `UPDATE … WHERE`. -/
def update (p : ρ → Bool) (f : ρ → ρ) (t : List ρ) : List ρ := t.map fun r => if p r then f r else r

/-- `DELETE … WHERE`. -/
def delete (p : ρ → Bool) (t : List ρ) : List ρ := t.filter fun r => !p r

section

variable [DecidableEq κ] (key : ρ → κ)

def row (k : κ) (t : List ρ) : Option ρ := t.find? fun r => key r = k

/-- `insertIgnore`: nothing if the key is taken. -/
def insertIgnore (r : ρ) (t : List ρ) : List ρ :=
  if (row key (key r) t).isSome then t else t ++ [r]

variable {key} {k : κ} {t : List ρ} {p : ρ → Bool} {f : ρ → ρ}

@[simp] theorem row_nil : row key k [] = none := rfl

theorem row_mem {r : ρ} (h : row key k t = some r) : r ∈ t ∧ key r = k :=
  ⟨List.mem_of_find?_eq_some h, by simpa using List.find?_some h⟩

theorem row_of_mem (ht : (t.map key).Nodup) {r : ρ} (hr : r ∈ t) : row key (key r) t = some r := by
  cases h : row key (key r) t with
  | none =>
    have := List.find?_eq_none.mp h r hr
    simp at this
  | some r' =>
    obtain ⟨hr', hkey⟩ := row_mem h
    rw [List.inj_on_of_nodup_map ht hr' hr hkey]

theorem row_eq_none : row key k t = none ↔ ∀ r ∈ t, key r ≠ k := by
  rw [row, List.find?_eq_none]
  simp

theorem row_append (s : List ρ) : row key k (s ++ t) = (row key k s).or (row key k t) :=
  List.find?_append

theorem row_update (hf : ∀ r, key (f r) = key r) :
    row key k (update p f t) = (row key k t).map fun r => if p r then f r else r := by
  have hkey : ∀ r, key (if p r then f r else r) = key r := by
    intro r
    split
    · exact hf r
    · rfl
  rw [row, update, List.find?_map, row]
  simp only [Function.comp_def, hkey]

theorem row_cons (r : ρ) : row key k (r :: t) = if key r = k then some r else row key k t := by
  rw [row, List.find?_cons, row]
  by_cases hk : key r = k <;> simp [hk]

theorem row_delete (ht : (t.map key).Nodup) :
    row key k (delete p t) = (row key k t).filter fun r => !p r := by
  induction t with
  | nil => rfl
  | cons r t ih =>
    rw [List.map_cons, List.nodup_cons] at ht
    have ih := ih ht.2
    have hcons : delete p (r :: t) = if p r then delete p t else r :: delete p t := by
      rw [delete, List.filter_cons, delete]
      cases p r <;> rfl
    rw [hcons, row_cons]
    by_cases hk : key r = k
    · have hnone : row key k t = none := by
        rw [row_eq_none]
        intro r' hr' hkey
        exact ht.1 (List.mem_map.mpr ⟨r', hr', hkey.trans hk.symm⟩)
      rw [hnone] at ih
      cases hp : p r with
      | true => simp [hk, hp, ih, Option.filter]
      | false => simp [row_cons, hk, hp, Option.filter]
    · cases hp : p r with
      | true => simp [hk, ih]
      | false => simp [row_cons, hk, ih]

theorem row_insertIgnore (r : ρ) :
    row key k (insertIgnore key r t) = (row key k t).or (if key r = k then some r else none) := by
  rw [insertIgnore]
  split
  · rename_i hsome
    by_cases hk : key r = k
    · obtain ⟨r', hr'⟩ := Option.isSome_iff_exists.mp hsome
      rw [← hk, hr', if_pos rfl]
      rfl
    · rw [if_neg hk, Option.or_none]
  · rw [row_append]
    congr 1
    by_cases hk : key r = k
    · simp [row, hk]
    · simp [row, hk]

theorem changes_pos (ht : (t.map key).Nodup) (hp : ∀ r, p r = true → key r = k) :
    0 < t.countP p ↔ ∃ r, row key k t = some r ∧ p r = true := by
  rw [List.countP_pos_iff]
  constructor
  · rintro ⟨r, hr, htrue⟩
    exact ⟨r, hp r htrue ▸ row_of_mem ht hr, htrue⟩
  · rintro ⟨r, hr, htrue⟩
    exact ⟨r, (row_mem hr).1, htrue⟩

omit [DecidableEq κ] in
theorem changes_le_one (ht : (t.map key).Nodup) (hp : ∀ r, p r = true → key r = k) :
    t.countP p ≤ 1 := by
  induction t with
  | nil => simp
  | cons r t ih =>
    rw [List.map_cons, List.nodup_cons] at ht
    rw [List.countP_cons]
    split
    · rename_i htrue
      have hnone : t.countP p = 0 := by
        rw [List.countP_eq_zero]
        intro r' hr' htrue'
        refine ht.1 (List.mem_map.mpr ⟨r', hr', ?_⟩)
        rw [hp r' htrue', hp r htrue]
      omega
    · have := ih ht.2
      omega

omit [DecidableEq κ] in
theorem nodup_update (hf : ∀ r, key (f r) = key r)
    (ht : (t.map key).Nodup) : ((update p f t).map key).Nodup := by
  have hkeys : (update p f t).map key = t.map key := by
    rw [update, List.map_map]
    apply List.map_congr_left
    intro r _
    rw [Function.comp_apply]
    split
    · exact hf r
    · rfl
  rw [hkeys]
  exact ht

omit [DecidableEq κ] in
theorem nodup_delete (ht : (t.map key).Nodup) : ((delete p t).map key).Nodup :=
  ht.sublist (List.filter_sublist.map key)

theorem nodup_insertIgnore {r : ρ} (ht : (t.map key).Nodup) :
    ((insertIgnore key r t).map key).Nodup := by
  rw [insertIgnore]
  split
  · exact ht
  · rename_i hsome
    rw [Option.not_isSome_iff_eq_none, row_eq_none] at hsome
    rw [List.map_append, List.nodup_append]
    refine ⟨ht, by simp, fun a ha b hb heq => ?_⟩
    obtain ⟨r', hr', rfl⟩ := List.mem_map.mp ha
    rw [List.map_singleton, List.mem_singleton] at hb
    exact hsome r' hr' (heq.trans hb)

end

end Ionosphere.Lib.Statements
