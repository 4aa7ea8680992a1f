import Ionosphere.Lib.Assoc

/-! A bounded cache in the order of insertion. When it has grown too large, what is out of date
is swept out of it, and then it is cut to its newest entries. -/
namespace Ionosphere.Lib.Cache

variable {κ β : Type*} (bound : ℕ) (live : β → Bool)

def clean (m : List (κ × β)) : List (κ × β) :=
  if m.length ≤ bound then m
  else
    let swept := m.filter fun p => live p.2
    swept.drop (swept.length - bound)

/-- The entry of a key stays: the cache is small enough, or the entry is not out of date and is
among the newest that are not. -/
def Spared [DecidableEq κ] (m : List (κ × β)) (x : κ) : Prop :=
  m.length ≤ bound ∨ ∃ i : Fin m.length, m[i].1 = x ∧ live m[i].2 = true ∧
    ((m.drop (i + 1)).filter fun p => live p.2).length < bound

instance [DecidableEq κ] (m : List (κ × β)) (x : κ) : Decidable (Spared bound live m x) :=
  inferInstanceAs (Decidable (_ ∨ _))

variable {bound live} {m : List (κ × β)} {x : κ} {v : β}

theorem clean_of_length_le (h : m.length ≤ bound) : clean bound live m = m := if_pos h

theorem clean_sublist : (clean bound live m).Sublist m := by
  rw [clean]
  split
  · exact List.Sublist.refl m
  · exact (List.drop_sublist _ _).trans List.filter_sublist

theorem clean_cons {p : κ × β} (hlive : ∀ q ∈ p :: m, live q.2 = true) (hlen : m.length = bound) :
    clean bound live (p :: m) = m := by
  rw [clean, if_neg (by rw [List.length_cons]; omega), List.filter_eq_self.mpr hlive]
  have hone : (p :: m).length - bound = 1 := by
    rw [List.length_cons]
    omega
  dsimp only
  rw [hone, List.drop_one, List.tail_cons]

theorem nodup_clean (h : (m.map (·.1)).Nodup) : ((clean bound live m).map (·.1)).Nodup :=
  h.sublist (clean_sublist.map _)

variable [DecidableEq κ]

theorem get_of_get_clean (h : (m.map (·.1)).Nodup) (hget : Assoc.get (clean bound live m) x = some v) :
    Assoc.get m x = some v := by
  rw [← Assoc.mem_iff_get h]
  exact clean_sublist.subset ((Assoc.mem_iff_get (nodup_clean h) x v).mpr hget)

theorem get_clean (h : (m.map (·.1)).Nodup) (hspared : Spared bound live m x) :
    Assoc.get (clean bound live m) x = Assoc.get m x := by
  rcases hspared with hle | ⟨i, hx, hlive, hlt⟩
  · rw [clean_of_length_le hle]
  · have hsplit : m = m.take i ++ m[i] :: m.drop (i + 1) := by simp
    have hv : Assoc.get m x = some m[i].2 := by
      rw [← Assoc.mem_iff_get h, ← hx]
      exact List.getElem_mem _
    rw [hv, ← Assoc.mem_iff_get (nodup_clean h), ← hx, clean]
    split
    · exact List.getElem_mem _
    · -- What is cut off lies before the entry.
      have hfilter : (m.filter fun p => live p.2) =
          (m.take i).filter (fun p => live p.2) ++
            m[i] :: (m.drop (i + 1)).filter fun p => live p.2 := by
        conv_lhs => rw [hsplit, List.filter_append, List.filter_cons_of_pos (by exact hlive)]
      dsimp only
      rw [hfilter, List.drop_append, List.mem_append]
      right
      rw [Nat.sub_eq_zero_of_le, List.drop_zero]
      · exact List.mem_cons_self
      · rw [List.length_append, List.length_cons]
        omega

end Ionosphere.Lib.Cache
