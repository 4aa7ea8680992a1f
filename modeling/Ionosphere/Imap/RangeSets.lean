import Ionosphere.Imap.UidSet
import Ionosphere.Lib.Ranges
import Mathlib.Tactic.IntervalCases

/-! Sequence sets as sets of numbers: a uid-set is parsed back to its uids, and the normalized
ranges of a set cover what it matches. -/
namespace Ionosphere.Imap

open Ionosphere.Js Ionosphere.Lib

variable {r : SeqRange} {ranges : List SeqRange} {max : Nat}

/-- A range of a store query: none for a `*` in an empty mailbox. -/
def resolveRange (max : Nat) (r : SeqRange) : Option Ranges.Range :=
  let lo := Nat.min (r.start.resolve max) (r.stop.resolve max)
  let hi := Nat.max (r.start.resolve max) (r.stop.resolve max)
  if hi < 1 ∨ max < 1 ∧ (r.start = .star ∨ r.stop = .star) then none
  else some (Nat.max 1 lo, hi)

def normalizeRanges (ranges : List SeqRange) (max : Nat) : List Ranges.Range :=
  Ranges.merge ((ranges.filterMap (resolveRange max)).insertionSort fun a b => a.1 ≤ b.1)

def SeqNumber.Positive : SeqNumber → Prop
  | .num n => 0 < n
  | .star => True

def SeqRange.Positive (r : SeqRange) : Prop := r.start.Positive ∧ r.stop.Positive

theorem digitsValue_pos {c : Char} {cs : Text} (hdigit : isDigit c) (hzero : c ≠ '0') :
    0 < digitsValue 10 (c :: cs) := by
  have hrange : 48 ≤ c.toNat ∧ c.toNat ≤ 57 := by simpa [isDigit] using hdigit
  have hne : c.toNat ≠ 48 := fun heq => hzero (Char.ext (UInt32.toNat_inj.mp heq))
  have hfirst : 0 < 0 * 10 + digitValue c := by
    rw [digitValue, if_pos hrange]
    omega
  -- further digits only make the value larger
  have hgrow : ∀ (cs : Text) (n : Nat), 0 < n →
      0 < cs.foldl (fun acc c => acc * 10 + digitValue c) n := by
    intro cs
    induction cs with
    | nil => exact fun n hn => hn
    | cons c cs ih =>
      intro n hn
      refine ih _ ?_
      show 0 < n * 10 + digitValue c
      omega
  exact hgrow cs _ hfirst

theorem parseSeqNumber_positive {s : Text} {n : SeqNumber} (h : parseSeqNumber s = some n) :
    n.Positive := by
  rw [parseSeqNumber.eq_def] at h
  split_ifs at h with hstar
  · rw [← Option.some.inj h]
    trivial
  · cases s with
    | nil => exact absurd h (by simp)
    | cons c cs =>
      dsimp only at h
      split_ifs at h with hdigits
      rw [← Option.some.inj h]
      exact digitsValue_pos hdigits.2.1 hdigits.1

theorem parseSeqRange_positive {part : Text} (h : parseSeqRange part = some r) :
    r.Positive := by
  rw [parseSeqRange] at h
  split at h
  · obtain ⟨n, hn, heq⟩ := Option.map_eq_some_iff.mp h
    have hpos := parseSeqNumber_positive hn
    rw [← heq]
    exact ⟨hpos, hpos⟩
  · split at h
    · rename_i hstart hstop
      rw [← Option.some.inj h]
      exact ⟨parseSeqNumber_positive hstart, parseSeqNumber_positive hstop⟩
    · exact absurd h (by simp)

theorem forall_of_mapM {α β : Type} {f : α → Option β} {P : β → Prop}
    (hf : ∀ {a b}, f a = some b → P b) {xs : List α} {ys : List β} (h : xs.mapM f = some ys) :
    ∀ y ∈ ys, P y := by
  induction xs generalizing ys with
  | nil =>
    rw [← Option.some.inj h]
    exact nofun
  | cons x xs ih =>
    simp only [List.mapM_cons, Option.bind_eq_bind, Option.bind_eq_some_iff] at h
    obtain ⟨y, hy, zs, hzs, heq⟩ := h
    rw [← Option.some.inj heq]
    exact List.forall_mem_cons.mpr ⟨hf hy, ih hzs⟩

theorem parseSequenceSet_positive {input : Text}
    (h : parseSequenceSet input = some ranges) : ∀ r ∈ ranges, r.Positive := by
  rw [parseSequenceSet] at h
  split_ifs at h
  exact forall_of_mapM (fun hr => parseSeqRange_positive hr) h

theorem natText_head {n : Nat} (hn : 0 < n) : (natText n).head? ≠ some '0' := by
  induction n using Nat.strong_induction_on with
  | _ n ih =>
    rw [natText, Nat.toDigits_eq_if (by decide)]
    split_ifs with hsmall
    · interval_cases n <;> decide
    · have hq : 0 < n / 10 := Nat.div_pos (by omega) (by decide)
      have hhead := ih (n / 10) (Nat.div_lt_self hn (by decide)) hq
      rw [natText] at hhead
      rw [List.head?_append_of_ne_nil _ Nat.toDigits_ne_nil]
      exact hhead

theorem parseSeqNumber_natText {n : Nat} (hn : 0 < n) (hsafe : n ≤ maxSafeInteger) :
    parseSeqNumber (natText n) = some (.num n) := by
  have hdigits : ∀ c ∈ natText n, isDigit c := by
    intro c hc
    simpa [isDigit] using natText_digits n c hc
  have hvalue := digitsValue_natText n
  have hhead := natText_head hn
  have hstar : natText n ≠ ['*'] := by
    intro heq
    have hdigit := hdigits '*' (by simp [heq])
    exact absurd hdigit (by decide)
  cases htext : natText n with
  | nil => exact absurd htext (natText_ne_nil n)
  | cons c cs =>
    rw [htext] at hdigits hvalue hhead hstar
    obtain ⟨hc, hcs⟩ := List.forall_mem_cons.mp hdigits
    have hzero : c ≠ '0' := fun heq => hhead (by rw [heq]; rfl)
    have hguard : c ≠ '0' ∧ isDigit c ∧ cs.all isDigit ∧ digitsValue 10 (c :: cs) ≤ maxSafeInteger :=
      ⟨hzero, hc, List.all_eq_true.mpr hcs, by rw [hvalue]; exact hsafe⟩
    rw [parseSeqNumber.eq_def, if_neg hstar]
    exact (if_pos hguard).trans (by rw [hvalue])

/-- What `rangeText` writes is parsed when both its ends can be. -/
def Written (r : Nat × Nat) : Prop := 0 < r.1 ∧ r.1 ≤ r.2 ∧ r.2 ≤ maxSafeInteger

def numbered (r : Nat × Nat) : SeqRange := ⟨.num r.1, .num r.2⟩

theorem parseSeqRange_rangeText {r : Nat × Nat} (h : Written r) :
    parseSeqRange (rangeText r) = some (numbered r) := by
  obtain ⟨hpos, hle, hsafe⟩ := h
  have hlo := parseSeqNumber_natText hpos (hle.trans hsafe)
  have hhi := parseSeqNumber_natText (Nat.lt_of_lt_of_le hpos hle) hsafe
  have hcolon : ∀ n, ':' ∉ natText n := notMem_natText (by decide)
  rw [rangeText]
  split_ifs with heq
  · have hplain : splitFirst ':' (natText r.1) = none := by
      cases h : splitFirst ':' (natText r.1) with
      | none => rfl
      | some p => exact absurd ((eq_of_splitFirst h).1 ▸ by simp) (hcolon r.1)
    rw [parseSeqRange, hplain]
    simp only [hlo, Option.map_some, numbered, ← heq]
  · have htext : natText r.1 ++ ":".toList ++ natText r.2 = natText r.1 ++ ':' :: natText r.2 := by
      simp
    rw [parseSeqRange, htext, splitFirst_of_notMem (hcolon r.1)]
    simp only [hlo, hhi, numbered]

theorem parseSequenceSet_uidSetText {ranges : List (Nat × Nat)} (hne : ranges ≠ [])
    (h : ∀ r ∈ ranges, Written r) :
    parseSequenceSet (uidSetText ranges) = some (ranges.map numbered) := by
  rw [parseSequenceSet, if_neg (uidSetText_ne_nil hne), splitOn_uidSetText hne]
  clear hne
  induction ranges with
  | nil => rfl
  | cons r rs ih =>
    obtain ⟨hr, hrs⟩ := List.forall_mem_cons.mp h
    rw [List.map_cons, List.mapM_cons, parseSeqRange_rangeText hr, ih hrs]
    rfl

theorem runsFrom_valid (xs : List Nat) {lo hi : Nat} (hle : lo ≤ hi) :
    ∀ r ∈ uidRunsFrom lo hi xs, r.1 ≤ r.2 := by
  induction xs generalizing lo hi with
  | nil =>
    intro r hr
    rw [List.mem_singleton.mp hr]
    exact hle
  | cons x xs ih =>
    rw [uidRunsFrom]
    split_ifs with hnext
    · exact ih (by omega)
    · exact List.forall_mem_cons.mpr ⟨hle, ih (Nat.le_refl x)⟩

theorem uidSetRanges_valid (uids : List Nat) : ∀ r ∈ uidSetRanges uids, r.1 ≤ r.2 := by
  rw [uidSetRanges]
  cases sortUids uids.dedup with
  | nil =>
    intro r hr
    cases hr
  | cons x xs => exact runsFrom_valid xs (Nat.le_refl x)

theorem ends_mem {uids : List Nat} {r : Nat × Nat} (hr : r ∈ uidSetRanges uids) :
    r.1 ∈ uids ∧ r.2 ∈ uids := by
  have hle := uidSetRanges_valid uids r hr
  have hin : ∀ u, r.1 ≤ u → u ≤ r.2 → u ∈ uids := by
    intro u hlo hhi
    refine (inUidSet_uidSetRanges uids u).mp (List.any_eq_true.mpr ⟨r, hr, ?_⟩)
    simp [hlo, hhi]
  exact ⟨hin r.1 (Nat.le_refl _) hle, hin r.2 hle (Nat.le_refl _)⟩

theorem matchSequenceSet_numbered {ranges : List (Nat × Nat)} (h : ∀ r ∈ ranges, r.1 ≤ r.2)
    (v max : Nat) : matchSequenceSet (ranges.map numbered) v max = inUidSet ranges v := by
  induction ranges with
  | nil => rfl
  | cons r rs ih =>
    obtain ⟨hr, hrs⟩ := List.forall_mem_cons.mp h
    have htail := ih hrs
    have hlo : Nat.min r.1 r.2 = r.1 := Nat.min_eq_left hr
    have hhi : Nat.max r.1 r.2 = r.2 := Nat.max_eq_right hr
    rw [matchSequenceSet] at htail
    rw [matchSequenceSet, List.map_cons, List.any_cons, htail, inUidSet, inUidSet, List.any_cons]
    simp only [numbered, SeqNumber.resolve, hlo, hhi]

theorem parse_formatUidSet {uids : List Nat} (hne : uids ≠ [])
    (huid : ∀ u ∈ uids, 0 < u ∧ u ≤ maxSafeInteger) :
    ∃ ranges, parseSequenceSet (formatUidSet uids) = some ranges ∧
      ∀ v max, matchSequenceSet ranges v max = true ↔ v ∈ uids := by
  have hruns : uidSetRanges uids ≠ [] := by
    obtain ⟨u, us, rfl⟩ := List.exists_cons_of_ne_nil hne
    intro hnil
    have hin := (inUidSet_uidSetRanges (u :: us) u).mpr List.mem_cons_self
    rw [hnil] at hin
    exact Bool.false_ne_true hin
  have hwritten : ∀ r ∈ uidSetRanges uids, Written r := by
    intro r hr
    obtain ⟨hlo, hhi⟩ := ends_mem hr
    exact ⟨(huid _ hlo).1, uidSetRanges_valid uids r hr, (huid _ hhi).2⟩
  refine ⟨_, parseSequenceSet_uidSetText hruns hwritten, fun v max => ?_⟩
  rw [matchSequenceSet_numbered (uidSetRanges_valid uids)]
  exact inUidSet_uidSetRanges uids v

def SeqRange.hasStar (r : SeqRange) : Bool := r.start = .star || r.stop = .star

/-- The part of a set that has a meaning: in an empty mailbox `*` is no number. -/
def meaningful (ranges : List SeqRange) (max : Nat) : List SeqRange :=
  ranges.filter fun r => 0 < max || !r.hasStar

theorem SeqNumber.Positive.resolve {n : SeqNumber} (h : n.Positive)
    (hmax : 0 < max ∨ n ≠ .star) : 0 < n.resolve max := by
  cases n with
  | num n => exact h
  | star => exact hmax.resolve_right (fun hne => hne rfl)

theorem resolveRange_meaningful (hr : r.Positive)
    (h : (0 < max || !r.hasStar) = true) :
    resolveRange max r = some (Nat.min (r.start.resolve max) (r.stop.resolve max),
      Nat.max (r.start.resolve max) (r.stop.resolve max)) := by
  have hcases : 0 < max ∨ (r.start ≠ .star ∧ r.stop ≠ .star) := by
    simpa [SeqRange.hasStar] using h
  have hstart := hr.1.resolve (hcases.imp_right And.left)
  have hstop := hr.2.resolve (hcases.imp_right And.right)
  have hlo : 0 < Nat.min (r.start.resolve max) (r.stop.resolve max) := Nat.lt_min.mpr ⟨hstart, hstop⟩
  have hhi : 0 < Nat.max (r.start.resolve max) (r.stop.resolve max) :=
    Nat.lt_of_lt_of_le hstart (Nat.le_max_left _ _)
  have hkept : ¬(Nat.max (r.start.resolve max) (r.stop.resolve max) < 1 ∨
      max < 1 ∧ (r.start = .star ∨ r.stop = .star)) := by
    rintro (hsmall | ⟨hempty, hstar⟩)
    · omega
    · rcases hcases with hpos | ⟨hne, hne'⟩
      · omega
      · exact hstar.elim hne hne'
  have hone : Nat.max 1 (Nat.min (r.start.resolve max) (r.stop.resolve max)) =
      Nat.min (r.start.resolve max) (r.stop.resolve max) := Nat.max_eq_right hlo
  rw [resolveRange]
  simp only [if_neg hkept, hone]

theorem resolveRange_star (h : (0 < max || !r.hasStar) = false) :
    resolveRange max r = none := by
  have hcases : max = 0 ∧ (r.start = .star ∨ r.stop = .star) := by
    simpa [SeqRange.hasStar, ← or_iff_not_imp_left] using h
  rw [resolveRange, if_pos (Or.inr ⟨by omega, hcases.2⟩)]

theorem covers_resolved (h : ∀ r ∈ ranges, r.Positive) (max v : Nat) :
    Ranges.Covers (ranges.filterMap (resolveRange max)) v ↔
      matchSequenceSet (meaningful ranges max) v max = true := by
  induction ranges with
  | nil => simp [Ranges.Covers, meaningful, matchSequenceSet]
  | cons r rs ih =>
    obtain ⟨hr, hrs⟩ := List.forall_mem_cons.mp h
    have htail := ih hrs
    cases hmean : (0 < max || !r.hasStar) with
    | false =>
      have hdropped : meaningful (r :: rs) max = meaningful rs max := by
        rw [meaningful, List.filter_cons, if_neg (by rw [hmean]; exact Bool.false_ne_true)]
        rfl
      rw [List.filterMap_cons_none (resolveRange_star hmean), htail, hdropped]
    | true =>
      have hkept : meaningful (r :: rs) max = r :: meaningful rs max := by
        rw [meaningful, List.filter_cons, if_pos hmean]
        rfl
      rw [List.filterMap_cons_some (resolveRange_meaningful hr hmean), Ranges.covers_cons, htail,
        hkept]
      simp [matchSequenceSet]

theorem resolved_valid (max : Nat) :
    ∀ r ∈ ranges.filterMap (resolveRange max), 1 ≤ r.1 ∧ r.1 ≤ r.2 := by
  intro r hr
  obtain ⟨q, -, hq⟩ := List.mem_filterMap.mp hr
  rw [resolveRange] at hq
  split_ifs at hq with hskip
  rw [← Option.some.inj hq]
  have hhi : 1 ≤ Nat.max (q.start.resolve max) (q.stop.resolve max) := by
    have hnot := fun hsmall => hskip (.inl hsmall)
    omega
  have hle : Nat.min (q.start.resolve max) (q.stop.resolve max) ≤
      Nat.max (q.start.resolve max) (q.stop.resolve max) :=
    Nat.le_trans (Nat.min_le_left _ _) (Nat.le_max_left _ _)
  exact ⟨Nat.le_max_left _ _, Nat.max_le.mpr ⟨hhi, hle⟩⟩

section

variable {uids : List Nat} {input : Text} {top : Nat}

/-- A uid-set is read back as its uids. The ranges of a query are ascending with gaps between them,
and cover the numbers the set matches; of an empty mailbox they leave out what names `*`. -/
theorem sequence_set_laws (hne : uids ≠ []) (huid : ∀ u ∈ uids, 0 < u ∧ u ≤ maxSafeInteger)
    (hparse : parseSequenceSet input = some ranges) :
    (∃ ranges, parseSequenceSet (formatUidSet uids) = some ranges ∧
      ∀ v max, matchSequenceSet ranges v max = true ↔ v ∈ uids) ∧
    (∀ r ∈ normalizeRanges ranges top, 1 ≤ r.1 ∧ r.1 ≤ r.2) ∧
    Ranges.Apart (normalizeRanges ranges top) ∧
    (∀ v, Ranges.Covers (normalizeRanges ranges top) v ↔
      matchSequenceSet (meaningful ranges top) v top = true) ∧
    ∀ v, matchSequenceSet ranges v top = true ↔
      ∃ r ∈ ranges, r.start.resolve top ≤ v ∧ v ≤ r.stop.resolve top ∨
        r.stop.resolve top ≤ v ∧ v ≤ r.start.resolve top := by
  have hpos := parseSequenceSet_positive hparse
  have hperm := List.perm_insertionSort (fun a b : Ranges.Range => a.1 ≤ b.1)
    (ranges.filterMap (resolveRange top))
  have hsorted := List.pairwise_insertionSort (fun a b : Ranges.Range => a.1 ≤ b.1)
    (ranges.filterMap (resolveRange top))
  have hvalid : ∀ r ∈ (ranges.filterMap (resolveRange top)).insertionSort fun a b => a.1 ≤ b.1,
      1 ≤ r.1 ∧ r.1 ≤ r.2 := fun r hr => resolved_valid top r (hperm.mem_iff.mp hr)
  refine ⟨parse_formatUidSet hne huid, Ranges.valid_merge hvalid, Ranges.apart_merge hsorted, ?_, ?_⟩
  · intro v
    rw [normalizeRanges, Ranges.covers_merge hsorted (fun r hr => (hvalid r hr).2),
      Ranges.covers_congr hperm, covers_resolved hpos]
  · intro v
    rw [matchSequenceSet, List.any_eq_true]
    refine exists_congr fun r => and_congr_right fun _ => ?_
    simp only [Bool.and_eq_true, decide_eq_true_eq]
    generalize r.start.resolve top = a
    generalize r.stop.resolve top = b
    show (min a b ≤ v ∧ v ≤ max a b) ↔ _
    omega

end

def mixedRanges : List SeqRange := [⟨.num 7, .num 5⟩, ⟨.star, .star⟩, ⟨.num 8, .num 8⟩]

theorem sequence_set_laws_mixed :
    (∃ ranges, parseSequenceSet (formatUidSet [9, 3, 5, 4]) = some ranges ∧
      ∀ v max, matchSequenceSet ranges v max = true ↔ v ∈ [9, 3, 5, 4]) ∧
    (∀ r ∈ normalizeRanges mixedRanges 20, 1 ≤ r.1 ∧ r.1 ≤ r.2) ∧
    Ranges.Apart (normalizeRanges mixedRanges 20) ∧
    (∀ v, Ranges.Covers (normalizeRanges mixedRanges 20) v ↔
      matchSequenceSet (meaningful mixedRanges 20) v 20 = true) ∧
    ∀ v, matchSequenceSet mixedRanges v 20 = true ↔
      ∃ r ∈ mixedRanges, r.start.resolve 20 ≤ v ∧ v ≤ r.stop.resolve 20 ∨
        r.stop.resolve 20 ≤ v ∧ v ≤ r.start.resolve 20 := by
  have hparse : parseSequenceSet "7:5,*,8".toList = some mixedRanges := by decide +kernel
  exact sequence_set_laws (by decide) (by decide) hparse

/-- The empty set has no text that is a sequence set, and a range with `*` matches numbers of an
empty mailbox that no range of a query covers. -/
theorem sequence_set_laws_fails :
    parseSequenceSet (formatUidSet []) = none ∧
    ¬ ∀ input ranges max v, parseSequenceSet input = some ranges →
      (Ranges.Covers (normalizeRanges ranges max) v ↔ matchSequenceSet ranges v max = true) := by
  refine ⟨by decide +kernel, fun h => ?_⟩
  have hparse : parseSequenceSet "5:*".toList = some [⟨.num 5, .star⟩] := by decide +kernel
  obtain ⟨r, hr, -⟩ := (h _ _ 0 3 hparse).mpr (by decide)
  have hnone : normalizeRanges [⟨.num 5, .star⟩] 0 = [] := by decide +kernel
  rw [hnone] at hr
  exact List.not_mem_nil hr

end Ionosphere.Imap
