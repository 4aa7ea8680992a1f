import Mathlib.Data.List.Sort

/-! Several orders with ties, one after the other: a later one decides where the earlier ones do
not. Insertion sort by such an order is a stable sort. -/
namespace Ionosphere.Lib.Lexicographic

variable {α : Type*}

structure TotalPreorder (r : α → α → Prop) : Prop where
  total : ∀ a b, r a b ∨ r b a
  trans : ∀ {a b c}, r a b → r b c → r a c

theorem TotalPreorder.flip {r : α → α → Prop} (h : TotalPreorder r) :
    TotalPreorder fun a b => r b a where
  total a b := h.total b a
  trans hab hbc := h.trans hbc hab

theorem TotalPreorder.ofValue {β : Type*} [LinearOrder β] (f : α → β) :
    TotalPreorder fun a b => f a ≤ f b where
  total a b := le_total (f a) (f b)
  trans hab hbc := le_trans hab hbc

def lex (orders : List (α → α → Prop)) (last : α → α → Prop) (a b : α) : Prop :=
  match orders with
  | [] => last a b
  | r :: rs => r a b ∧ (r b a → lex rs last a b)

theorem TotalPreorder.lex {orders : List (α → α → Prop)} {last : α → α → Prop}
    (h : ∀ r ∈ orders, TotalPreorder r) (hlast : TotalPreorder last) :
    TotalPreorder (lex orders last) := by
  induction orders with
  | nil => exact hlast
  | cons r rs ih =>
    obtain ⟨hr, hrs⟩ := List.forall_mem_cons.mp h
    have hrest := ih hrs
    refine ⟨fun a b => ?_, fun {a b c} hab hbc => ?_⟩
    · by_cases hab : r a b
      · by_cases hba : r b a
        · exact (hrest.total a b).imp (fun h => ⟨hab, fun _ => h⟩) fun h => ⟨hba, fun _ => h⟩
        · exact .inl ⟨hab, fun h => absurd h hba⟩
      · exact .inr ⟨(hr.total a b).resolve_left hab, fun h => absurd h hab⟩
    · refine ⟨hr.trans hab.1 hbc.1, fun hca => ?_⟩
      have hba : r b a := hr.trans hbc.1 hca
      have hcb : r c b := hr.trans hca hab.1
      exact hrest.trans (hab.2 hba) (hbc.2 hcb)

theorem TotalPreorder.sorted {r : α → α → Prop} [DecidableRel r] (h : TotalPreorder r)
    (xs : List α) : (xs.insertionSort r).Pairwise r := by
  have : Std.Total r := ⟨h.total⟩
  have : IsTrans α r := ⟨fun _ _ _ => h.trans⟩
  exact List.pairwise_insertionSort r xs

theorem before_or_after {r : α → α → Prop} {xs : List α} (h : xs.Pairwise r) {a b : α}
    (ha : a ∈ xs) (hb : b ∈ xs) : a = b ∨ r a b ∨ r b a := by
  induction xs with
  | nil => cases ha
  | cons x xs ih =>
    obtain ⟨hx, hxs⟩ := List.pairwise_cons.mp h
    rcases List.mem_cons.mp ha with hax | haxs
    · rcases List.mem_cons.mp hb with hbx | hbxs
      · exact .inl (hax.trans hbx.symm)
      · exact .inr (.inl (hax ▸ hx b hbxs))
    · rcases List.mem_cons.mp hb with hbx | hbxs
      · exact .inr (.inr (hbx ▸ hx a haxs))
      · exact ih hxs haxs hbxs

end Ionosphere.Lib.Lexicographic
