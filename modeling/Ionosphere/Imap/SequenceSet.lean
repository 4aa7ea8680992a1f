import Ionosphere.Imap.Parser
import Mathlib.Data.List.Dedup
import Mathlib.Data.List.Sort

/-! Sequence sets: parsing, matching, and the compressed uid-set of a response. -/
namespace Ionosphere.Imap

open Ionosphere.Js

/-- A number or `*`. -/
inductive SeqNumber where
  | num (n : Nat)
  | star
  deriving DecidableEq

structure SeqRange where
  start : SeqNumber
  stop : SeqNumber
  deriving DecidableEq

def parseSeqNumber (s : Text) : Option SeqNumber :=
  if s = ['*'] then some .star
  else
    match s with
    | [] => none
    | c :: cs =>
      if c ≠ '0' ∧ isDigit c ∧ cs.all isDigit ∧ digitsValue 10 s ≤ maxSafeInteger then
        some (.num (digitsValue 10 s))
      else none

def parseSeqRange (part : Text) : Option SeqRange :=
  match splitFirst ':' part with
  | none => (parseSeqNumber part).map fun n => ⟨n, n⟩
  | some (a, b) =>
    match parseSeqNumber a, parseSeqNumber b with
    | some start, some stop => some ⟨start, stop⟩
    | _, _ => none

def parseSequenceSet (input : Text) : Option (List SeqRange) :=
  if input = [] then none else (input.splitOn ',').mapM parseSeqRange

def SeqNumber.resolve (max : Nat) : SeqNumber → Nat
  | .num n => n
  | .star => max

def matchSequenceSet (ranges : List SeqRange) (value max : Nat) : Bool :=
  ranges.any fun r =>
    let a := r.start.resolve max
    let b := r.stop.resolve max
    decide (min a b ≤ value) && decide (value ≤ Nat.max a b)

/-- `a.sort((a, b) => a - b)`. -/
def sortUids (uids : List Nat) : List Nat := uids.insertionSort (· ≤ ·)

def uidRunsFrom (lo hi : Nat) : List Nat → List (Nat × Nat)
  | [] => [(lo, hi)]
  | x :: xs => if x = hi + 1 then uidRunsFrom lo x xs else (lo, hi) :: uidRunsFrom x x xs

def uidRuns : List Nat → List (Nat × Nat)
  | [] => []
  | x :: xs => uidRunsFrom x x xs

/-- The ranges `formatUidSet` writes. -/
def uidSetRanges (uids : List Nat) : List (Nat × Nat) := uidRuns (sortUids uids.dedup)

def rangeText (r : Nat × Nat) : Text :=
  if r.1 = r.2 then natText r.1 else natText r.1 ++ ":".toList ++ natText r.2

def uidSetText (ranges : List (Nat × Nat)) : Text := join ",".toList (ranges.map rangeText)

def formatUidSet (uids : List Nat) : Text := uidSetText (uidSetRanges uids)

def inUidSet (ranges : List (Nat × Nat)) (u : Nat) : Bool :=
  ranges.any fun r => decide (r.1 ≤ u) && decide (u ≤ r.2)

theorem inUidSet_runsFrom (xs : List Nat) {lo hi : Nat} (hle : lo ≤ hi) (u : Nat) :
    inUidSet (uidRunsFrom lo hi xs) u = true ↔ (lo ≤ u ∧ u ≤ hi) ∨ u ∈ xs := by
  induction xs generalizing lo hi with
  | nil => simp [uidRunsFrom, inUidSet]
  | cons x xs ih =>
    simp only [uidRunsFrom, List.mem_cons]
    split
    · rename_i hx
      rw [ih (by omega)]
      constructor
      · intro h
        by_cases hux : u = x
        · exact .inr (.inl hux)
        · rcases h with h | h
          · exact .inl ⟨h.1, by omega⟩
          · exact .inr (.inr h)
      · intro h
        rcases h with h | h | h
        · exact .inl ⟨h.1, by omega⟩
        · exact .inl ⟨by omega, by omega⟩
        · exact .inr h
    · have hrest := ih (Nat.le_refl x)
      simp only [inUidSet, List.any_cons, Bool.or_eq_true, Bool.and_eq_true,
        decide_eq_true_eq] at hrest ⊢
      rw [hrest]
      constructor
      · intro h
        rcases h with h | h | h
        · exact .inl h
        · exact .inr (.inl (by omega))
        · exact .inr (.inr h)
      · intro h
        rcases h with h | h | h
        · exact .inl h
        · exact .inr (.inl ⟨by omega, by omega⟩)
        · exact .inr (.inr h)

theorem inUidSet_uidSetRanges (uids : List Nat) (u : Nat) :
    inUidSet (uidSetRanges uids) u = true ↔ u ∈ uids := by
  have hmem : u ∈ sortUids uids.dedup ↔ u ∈ uids := by
    rw [sortUids, List.mem_insertionSort, List.mem_dedup]
  rw [← hmem, uidSetRanges]
  cases sortUids uids.dedup with
  | nil => simp [uidRuns, inUidSet]
  | cons x xs =>
    rw [uidRuns, inUidSet_runsFrom xs (Nat.le_refl x), List.mem_cons]
    constructor
    · intro h
      rcases h with h | h
      · exact .inl (by omega)
      · exact .inr h
    · intro h
      rcases h with h | h
      · exact .inl ⟨by omega, by omega⟩
      · exact .inr h

end Ionosphere.Imap
