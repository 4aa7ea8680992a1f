import Mathlib.Data.List.Perm.Basic

/-! Leases on keys. `held` tells until when a key is leased; a claim is what a holder believes
to have: a key and a time. A claim whose time is over is worth nothing. -/
namespace Ionosphere.Lib

variable {κ : Type*}

/-- The claims that are in time are backed by the table, and no two are about one key. -/
structure Leased (time : Nat) (held : κ → Option Nat) (claims : List (Nat × κ)) : Prop where
  backed : ∀ c ∈ claims, time ≤ c.1 → held c.2 = some c.1
  distinct : claims.Pairwise fun c c' => time ≤ c.1 → time ≤ c'.1 → c.2 ≠ c'.2

namespace Leased

variable {time time' : Nat} {held held' : κ → Option Nat} {claims claims' : List (Nat × κ)}

theorem nil : Leased time held [] := ⟨nofun, .nil⟩

section

variable (h : Leased time held claims)

include h

theorem later (hle : time ≤ time') : Leased time' held claims where
  backed := fun c hc htime => h.backed c hc (Nat.le_trans hle htime)
  distinct := h.distinct.imp fun hne htime htime' => hne (Nat.le_trans hle htime) (Nat.le_trans hle htime')

theorem perm (hperm : claims.Perm claims') :
    Leased time held claims' where
  backed := fun c hc => h.backed c (hperm.mem_iff.mpr hc)
  distinct := by
    refine hperm.pairwise h.distinct ?_
    intro c c' hne htime htime'
    exact (hne htime' htime).symm

theorem sublist (hsub : claims'.Sublist claims) :
    Leased time held claims' where
  backed := fun c hc => h.backed c (hsub.subset hc)
  distinct := h.distinct.sublist hsub

theorem change
    (hsame : ∀ c ∈ claims, time ≤ c.1 → held' c.2 = held c.2) : Leased time held' claims where
  backed := fun c hc htime => (hsame c hc htime).trans (h.backed c hc htime)
  distinct := h.distinct

theorem take {k : κ} {expires : Nat}
    (hfree : ∀ e, held k = some e → e < time) (hk : held' k = some expires)
    (hother : ∀ k', k' ≠ k → held' k' = held k') :
    Leased time held' (claims ++ [(expires, k)]) := by
  have hne : ∀ c ∈ claims, time ≤ c.1 → c.2 ≠ k := by
    intro c hc htime heq
    have := hfree c.1 (heq ▸ h.backed c hc htime)
    omega
  refine ⟨?_, ?_⟩
  · rw [List.forall_mem_append]
    refine ⟨fun c hc htime => ?_, ?_⟩
    · rw [hother _ (hne c hc htime)]
      exact h.backed c hc htime
    · rw [List.forall_mem_singleton]
      exact fun _ => hk
  · rw [List.pairwise_append]
    refine ⟨h.distinct, List.pairwise_singleton _ _, ?_⟩
    intro c hc c' hc' htime _
    cases List.mem_singleton.mp hc'
    exact hne c hc htime

end

theorem apart (h : Leased time held (claims ++ claims')) {c c' : Nat × κ} (hc : c ∈ claims)
    (hc' : c' ∈ claims') (htime : time ≤ c.1) (htime' : time ≤ c'.1) : c.2 ≠ c'.2 :=
  (List.pairwise_append.mp h.distinct).2.2 c hc c' hc' htime htime'

end Leased

end Ionosphere.Lib
