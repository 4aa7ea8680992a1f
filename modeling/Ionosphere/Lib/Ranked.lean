import Mathlib.Logic.Relation
import Mathlib.Tactic.Common

/-! Relations that go up in rank. A node may be grafted below one that is not among its own
descendants. -/
namespace Ionosphere.Lib

open Relation

variable {α : Type} {R R' : α → α → Prop} {m q : α}

def Ranked (R : α → α → Prop) : Prop := ∃ rank : α → Nat, ∀ p c, R p c → rank p < rank c

namespace Ranked

theorem acyclic (h : Ranked R) (a : α) : ¬ TransGen R a a := by
  obtain ⟨rank, hrank⟩ := h
  have hlt : ∀ b, TransGen R a b → rank a < rank b := by
    intro b hb
    induction hb with
    | single h => exact hrank a _ h
    | tail _ h ih => exact Nat.lt_trans ih (hrank _ _ h)
  exact fun hcycle => Nat.lt_irrefl _ (hlt a hcycle)

theorem mono (h : Ranked R) (hle : ∀ p c, R' p c → R p c) : Ranked R' := by
  obtain ⟨rank, hrank⟩ := h
  exact ⟨rank, fun p c hc => hrank p c (hle p c hc)⟩

theorem graft (h : Ranked R) (hnot : ¬ ReflTransGen R m q)
    (hR : ∀ p c, R' p c → p = q ∧ c = m ∨ R p c) : Ranked R' := by
  classical
  obtain ⟨rank, hrank⟩ := h
  refine ⟨fun x => if ReflTransGen R m x then rank x + (rank q + 1) else rank x, fun p c hc => ?_⟩
  dsimp only
  rcases hR p c hc with ⟨rfl, rfl⟩ | hold
  · rw [if_neg hnot, if_pos ReflTransGen.refl]
    omega
  · have hlt := hrank p c hold
    by_cases hp : ReflTransGen R m p
    · rw [if_pos hp, if_pos (hp.tail hold)]
      omega
    · rw [if_neg hp]
      split_ifs <;> omega

end Ranked

end Ionosphere.Lib
