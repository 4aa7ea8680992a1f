import Mathlib.Data.List.Sort

/-! Closed ranges of naturals. A list sorted by its first ends is merged from the left: a range
that begins in the last one, or right after it, makes it longer. -/
namespace Ionosphere.Lib.Ranges

abbrev Range := Nat × Nat

def Covers (ranges : List Range) (v : Nat) : Prop := ∃ r ∈ ranges, r.1 ≤ v ∧ v ≤ r.2

/-- Ascending, with at least one number between any two. -/
def Apart (ranges : List Range) : Prop := ranges.Pairwise fun a b => a.2 + 1 < b.1

def mergeFrom (last : Range) : List Range → List Range
  | [] => [last]
  | r :: rs =>
    if r.1 ≤ last.2 + 1 then mergeFrom (last.1, max last.2 r.2) rs
    else last :: mergeFrom r rs

def merge : List Range → List Range
  | [] => []
  | r :: rs => mergeFrom r rs

theorem covers_cons (r : Range) (rs : List Range) (v : Nat) :
    Covers (r :: rs) v ↔ (r.1 ≤ v ∧ v ≤ r.2) ∨ Covers rs v := by
  simp [Covers]

theorem covers_congr {xs ys : List Range} (h : xs.Perm ys) (v : Nat) : Covers xs v ↔ Covers ys v := by
  simp only [Covers, h.mem_iff]

theorem covers_mergeFrom (rs : List Range) {last : Range} (hlast : last.1 ≤ last.2)
    (hsorted : (last :: rs).Pairwise fun a b => a.1 ≤ b.1) (hvalid : ∀ r ∈ rs, r.1 ≤ r.2) (v : Nat) :
    Covers (mergeFrom last rs) v ↔ Covers (last :: rs) v := by
  induction rs generalizing last with
  | nil => rfl
  | cons r rs ih =>
    have hfirst := List.pairwise_cons.mp hsorted
    have hlo : last.1 ≤ r.1 := hfirst.1 r List.mem_cons_self
    have hr : r.1 ≤ r.2 := hvalid r List.mem_cons_self
    have hrest : ∀ r ∈ rs, r.1 ≤ r.2 := fun r hmem => hvalid r (List.mem_cons_of_mem _ hmem)
    rw [mergeFrom]
    split
    · rename_i hnext
      have hle : last.1 ≤ max last.2 r.2 := Nat.le_trans hlast (Nat.le_max_left _ _)
      have hjoined : ((last.1, max last.2 r.2) :: rs).Pairwise fun a b => a.1 ≤ b.1 :=
        List.pairwise_cons.mpr
          ⟨fun b hb => hfirst.1 b (List.mem_cons_of_mem _ hb), (List.pairwise_cons.mp hfirst.2).2⟩
      have hunion : (last.1 ≤ v ∧ v ≤ max last.2 r.2) ↔
          (last.1 ≤ v ∧ v ≤ last.2) ∨ (r.1 ≤ v ∧ v ≤ r.2) := by omega
      rw [ih hle hjoined hrest, covers_cons, covers_cons, covers_cons, hunion, or_assoc]
    · rw [covers_cons, covers_cons, ih hr hfirst.2 hrest]

theorem le_of_mem_mergeFrom (rs : List Range) {last : Range}
    (hsorted : (last :: rs).Pairwise fun a b => a.1 ≤ b.1) :
    ∀ r ∈ mergeFrom last rs, last.1 ≤ r.1 := by
  induction rs generalizing last with
  | nil =>
    intro r hr
    rw [List.mem_singleton.mp hr]
  | cons r rs ih =>
    have hfirst := List.pairwise_cons.mp hsorted
    rw [mergeFrom]
    split
    · refine ih (List.pairwise_cons.mpr ⟨?_, (List.pairwise_cons.mp hfirst.2).2⟩)
      intro b hb
      exact hfirst.1 b (List.mem_cons_of_mem _ hb)
    · intro b hb
      rcases List.mem_cons.mp hb with heq | hmem
      · rw [heq]
      · have hlo := hfirst.1 r List.mem_cons_self
        have hle := ih hfirst.2 b hmem
        omega

theorem apart_mergeFrom (rs : List Range) {last : Range}
    (hsorted : (last :: rs).Pairwise fun a b => a.1 ≤ b.1) : Apart (mergeFrom last rs) := by
  induction rs generalizing last with
  | nil => exact List.pairwise_singleton _ _
  | cons r rs ih =>
    have hfirst := List.pairwise_cons.mp hsorted
    rw [mergeFrom]
    split
    · refine ih (List.pairwise_cons.mpr ⟨?_, (List.pairwise_cons.mp hfirst.2).2⟩)
      intro b hb
      exact hfirst.1 b (List.mem_cons_of_mem _ hb)
    · rename_i hgap
      refine List.pairwise_cons.mpr ⟨?_, ih hfirst.2⟩
      intro b hb
      have hle := le_of_mem_mergeFrom rs hfirst.2 b hb
      omega

theorem valid_mergeFrom (rs : List Range) {last : Range} {least : Nat}
    (hlast : least ≤ last.1 ∧ last.1 ≤ last.2) (hvalid : ∀ r ∈ rs, least ≤ r.1 ∧ r.1 ≤ r.2) :
    ∀ r ∈ mergeFrom last rs, least ≤ r.1 ∧ r.1 ≤ r.2 := by
  induction rs generalizing last with
  | nil =>
    intro r hr
    rw [List.mem_singleton.mp hr]
    exact hlast
  | cons r rs ih =>
    obtain ⟨hr, hrest⟩ := List.forall_mem_cons.mp hvalid
    rw [mergeFrom]
    split
    · exact ih ⟨hlast.1, Nat.le_trans hlast.2 (Nat.le_max_left _ _)⟩ hrest
    · exact List.forall_mem_cons.mpr ⟨hlast, ih hr hrest⟩

section

variable {rs : List Range} (hsorted : rs.Pairwise fun a b => a.1 ≤ b.1)

include hsorted

theorem covers_merge (hvalid : ∀ r ∈ rs, r.1 ≤ r.2) (v : Nat) :
    Covers (merge rs) v ↔ Covers rs v := by
  cases rs with
  | nil => rfl
  | cons r rs =>
    obtain ⟨hr, hrest⟩ := List.forall_mem_cons.mp hvalid
    exact covers_mergeFrom rs hr hsorted hrest v

theorem apart_merge : Apart (merge rs) := by
  cases rs with
  | nil => exact List.Pairwise.nil
  | cons r rs => exact apart_mergeFrom rs hsorted

end

theorem valid_merge {rs : List Range} {least : Nat} (hvalid : ∀ r ∈ rs, least ≤ r.1 ∧ r.1 ≤ r.2) :
    ∀ r ∈ merge rs, least ≤ r.1 ∧ r.1 ≤ r.2 := by
  cases rs with
  | nil => exact hvalid
  | cons r rs =>
    obtain ⟨hr, hrest⟩ := List.forall_mem_cons.mp hvalid
    exact valid_mergeFrom rs hr hrest

end Ionosphere.Lib.Ranges
