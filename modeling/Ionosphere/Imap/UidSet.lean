import Ionosphere.Imap.SequenceSet
import Ionosphere.Js.Digits

/-! A uid-set as its receiver expands it: the ranges written out, in ascending order. -/
namespace Ionosphere.Imap

open Ionosphere.Js

def uidsOf (r : Nat × Nat) : List Nat := List.range' r.1 (r.2 + 1 - r.1)

def readUidRange (part : Text) : Nat × Nat :=
  match splitFirst ':' part with
  | none => (digitsValue 10 part, digitsValue 10 part)
  | some (lo, hi) => (digitsValue 10 lo, digitsValue 10 hi)

def expandUidSet (set : Text) : List Nat :=
  if set = [] then []
  else sortUids ((set.splitOn ',').flatMap fun part => uidsOf (readUidRange part))

theorem notMem_natText {c : Char} (hc : ¬(48 ≤ c.toNat ∧ c.toNat ≤ 57)) (n : Nat) :
    c ∉ natText n := fun hmem => hc (natText_digits n c hmem)

theorem readUidRange_rangeText (r : Nat × Nat) : readUidRange (rangeText r) = r := by
  obtain ⟨lo, hi⟩ := r
  have hplain : ∀ n, splitFirst ':' (natText n) = none := fun n => by
    have hcolon := notMem_natText (c := ':') (by decide) n
    cases h : splitFirst ':' (natText n) with
    | none => rfl
    | some p => exact absurd ((eq_of_splitFirst h).1 ▸ by simp) hcolon
  rw [rangeText]
  split_ifs with heq
  · have heq : lo = hi := heq
    rw [readUidRange, hplain]
    simp only [digitsValue_natText, heq]
  · have hsplit := splitFirst_of_notMem (notMem_natText (c := ':') (by decide) lo) (natText hi)
    have htext : natText lo ++ ":".toList ++ natText hi = natText lo ++ ':' :: natText hi := by simp
    simp only [readUidRange, htext, hsplit, digitsValue_natText]

theorem comma_notMem_rangeText (r : Nat × Nat) : ',' ∉ rangeText r := by
  have hdigits : ∀ n, ',' ∉ natText n := notMem_natText (by decide)
  rw [rangeText]
  split_ifs
  · exact hdigits r.1
  · simp [hdigits]

theorem uidSetText_ne_nil {ranges : List (Nat × Nat)} (h : ranges ≠ []) :
    uidSetText ranges ≠ [] := by
  have hsome : ∀ r : Nat × Nat, rangeText r ≠ [] := by
    intro r
    rw [rangeText]
    split_ifs <;> simp [natText_ne_nil]
  cases ranges with
  | nil => exact absurd rfl h
  | cons r rs =>
    cases rs with
    | nil => simpa [uidSetText, join] using hsome r
    | cons s rs => simp [uidSetText, join, List.intercalate, hsome]

theorem splitOn_uidSetText {ranges : List (Nat × Nat)} (h : ranges ≠ []) :
    (uidSetText ranges).splitOn ',' = ranges.map rangeText := by
  have hcommas : ∀ part ∈ ranges.map rangeText, ',' ∉ part := by
    simp only [List.forall_mem_map]
    exact fun r _ => comma_notMem_rangeText r
  exact List.splitOn_intercalate ',' hcommas (by simpa using h)

theorem uidsOf_runsFrom (xs : List Nat) {lo hi : Nat} (hle : lo ≤ hi)
    (hxs : (hi :: xs).Pairwise (· < ·)) :
    (uidRunsFrom lo hi xs).flatMap uidsOf = List.range' lo (hi + 1 - lo) ++ xs := by
  induction xs generalizing lo hi with
  | nil => simp [uidRunsFrom, uidsOf]
  | cons x xs ih =>
    have hlt := List.rel_of_pairwise_cons hxs List.mem_cons_self
    have htail := (List.pairwise_cons.mp hxs).2
    rw [uidRunsFrom]
    split_ifs with hnext
    · have hlen : x + 1 - lo = (hi + 1 - lo) + 1 := by omega
      have hlast : lo + (hi + 1 - lo) = x := by omega
      rw [ih (by omega) htail, hlen, List.range'_1_concat, hlast, List.append_assoc]
      rfl
    · have hone : x + 1 - x = 1 := by omega
      rw [List.flatMap_cons, ih (Nat.le_refl x) htail, hone]
      rfl

theorem uidsOf_runs {xs : List Nat} (hxs : xs.Pairwise (· < ·)) :
    (uidRuns xs).flatMap uidsOf = xs := by
  cases xs with
  | nil => rfl
  | cons x xs =>
    have hone : x + 1 - x = 1 := by omega
    rw [uidRuns, uidsOf_runsFrom xs (Nat.le_refl x) hxs, hone]
    rfl

theorem sortUids_of_ascending {xs : List Nat} (hxs : xs.Pairwise (· < ·)) : sortUids xs = xs :=
  List.Pairwise.insertionSort_eq (hxs.imp Nat.le_of_lt)

theorem sortUids_ascending {xs : List Nat} (hxs : xs.Nodup) : (sortUids xs).Pairwise (· < ·) := by
  have hle : (sortUids xs).Pairwise (· ≤ ·) := List.pairwise_insertionSort (· ≤ ·) xs
  have hne : (sortUids xs).Nodup := (List.perm_insertionSort (· ≤ ·) xs).nodup_iff.mpr hxs
  exact (hle.and hne).imp fun h => Nat.lt_of_le_of_ne h.1 h.2

theorem expandUidSet_formatUidSet (uids : List Nat) :
    expandUidSet (formatUidSet uids) = sortUids uids.dedup := by
  have hasc := sortUids_ascending uids.nodup_dedup
  rw [expandUidSet, formatUidSet, uidSetRanges]
  cases hruns : uidRuns (sortUids uids.dedup) with
  | nil =>
    have hflat := uidsOf_runs hasc
    rw [hruns] at hflat
    exact hflat
  | cons r rs =>
    have hread : ((r :: rs).map rangeText).flatMap (fun part => uidsOf (readUidRange part)) =
        (r :: rs).flatMap uidsOf := by
      rw [List.flatMap_map]
      simp only [readUidRange_rangeText]
    rw [if_neg (uidSetText_ne_nil (by simp)), splitOn_uidSetText (by simp), hread, ← hruns,
      uidsOf_runs hasc, sortUids_of_ascending hasc]

end Ionosphere.Imap
