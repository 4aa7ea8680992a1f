import Ionosphere.Core.AuthThrottle
import Ionosphere.Lib.Schedule
import Mathlib.Data.List.Chain
import Mathlib.Data.List.Induction

/-! When the throttle holds a bucket that fails on and on. The process counts every failure; the
store may miss one, and then the mark of the bucket makes up for it, until the mark is over. -/
namespace Ionosphere.Core

open Ionosphere.Lib

section Bucket

variable {κ : Type} [DecidableEq κ] {p : ThrottlePolicy} {now : Nat} {s : Throttle κ} {key k : κ}
  {n last : Nat} {shared : Option (κ → Option ThrottleCounter)}
  {keys : List κ}

def storeOf (s : Throttle κ) (k : κ) : Option ThrottleCounter :=
  s.shared.bind fun db => Assoc.get db k

/-- A counter of at least `n` failures with the last at `last`. -/
def Holds (c : Option ThrottleCounter) (n last : Nat) : Prop :=
  ∃ c', c = some c' ∧ n ≤ c'.fails ∧ c'.lastFailAt = last

theorem holds_countFailure (c : Option ThrottleCounter) :
    Holds (some (countFailure p c now)) 1 now := by
  refine ⟨_, rfl, ?_⟩
  unfold countFailure
  cases c with
  | none => exact ⟨Nat.le_refl _, rfl⟩
  | some c =>
    dsimp only
    split_ifs
    · exact ⟨Nat.le_refl _, rfl⟩
    · exact ⟨Nat.le_add_left 1 _, rfl⟩

theorem Holds.countFailure {c : Option ThrottleCounter} (h : Holds c n last)
    (hnow : now < last + p.resetAfterMs) :
    Holds (some (countFailure p c now)) (n + 1) now := by
  obtain ⟨c', rfl, hn, rfl⟩ := h
  refine ⟨⟨c'.fails + 1, now⟩, ?_, Nat.succ_le_succ hn, rfl⟩
  rw [Core.countFailure, if_neg (by omega)]

theorem Holds.blocked {c : Option ThrottleCounter} (h : Holds c n last)
    (hn : p.freeFailures ≤ n)
    (hnow : now < last + min (min p.baseDelayMs p.maxDelayMs) p.resetAfterMs) :
    now < blockedUntil c now p := by
  obtain ⟨c', rfl, hc, rfl⟩ := h
  have hpow : 0 < 2 ^ min (c'.fails - p.freeFailures) 30 := Nat.two_pow_pos _
  have hdelay : min p.baseDelayMs p.maxDelayMs ≤ delayOf p c'.fails := by
    have hbase : p.baseDelayMs ≤ p.baseDelayMs * 2 ^ min (c'.fails - p.freeFailures) 30 :=
      Nat.le_mul_of_pos_right _ hpow
    unfold delayOf
    omega
  have htill : now < c'.lastFailAt + delayOf p c'.fails := by omega
  rw [blockedUntil]
  dsimp only
  rw [if_neg (by omega), if_neg (by omega), if_pos htill]
  exact htill

theorem countLocal_fold (hnodup : keys.Nodup) :
    Assoc.get (keys.foldl (countLocal p now) s).counters k =
        (if k ∈ keys then some (countFailure p (Assoc.get s.counters k) now)
          else Assoc.get s.counters k) ∧
      (keys.foldl (countLocal p now) s).shared = s.shared ∧
      (keys.foldl (countLocal p now) s).unsynced = s.unsynced := by
  induction keys generalizing s with
  | nil => exact ⟨rfl, rfl, rfl⟩
  | cons key keys ih =>
    obtain ⟨hkey, hrest⟩ := List.nodup_cons.mp hnodup
    obtain ⟨hcount, hshared, hmarks⟩ := ih (s := countLocal p now s key) hrest
    refine ⟨?_, hshared, hmarks⟩
    rw [List.foldl_cons, hcount, countLocal]
    dsimp only
    rw [Assoc.get_set]
    by_cases hk : key = k
    · rw [← hk, if_neg hkey, if_pos rfl, if_pos (List.mem_cons_self ..)]
    · rw [if_neg hk]
      simp only [List.mem_cons, Ne.symm hk, false_or]

theorem storeOf_writeShared : storeOf (writeShared p now key s) k =
    if key = k ∧ s.shared.isSome then some (countFailure p (storeOf s k) now) else storeOf s k := by
  unfold storeOf writeShared
  cases s.shared with
  | none => simp
  | some db =>
    simp only [Option.map_some, Option.bind_some, Option.isSome_some, and_true, Assoc.get_set]
    split_ifs with hk
    · rw [hk]
    · rfl

theorem unsynced_markUnsynced (hroom : s.unsynced.length < maxBlockCache) :
    (markUnsynced p now key s).unsynced = Assoc.set s.unsynced key (now + p.resetAfterMs) := by
  rw [markUnsynced, if_neg (by omega)]

theorem length_set_le (m : List (κ × Nat)) (x : κ) (w : Nat) :
    (Assoc.set m x w).length ≤ m.length + 1 := by
  induction m with
  | nil => exact Nat.le_refl _
  | cons e m ih =>
    rw [Assoc.set]
    split_ifs
    · exact Nat.le_succ _
    · exact Nat.succ_le_succ ih

/-- What one write does to a bucket, with room for its mark. -/
structure Written (p : ThrottlePolicy) (now : Nat) (outcome : κ → WriteOutcome) (key k : κ)
    (s s' : Throttle κ) : Prop where
  counters : s'.counters = s.counters
  attached : s'.shared.isSome = s.shared.isSome
  store : storeOf s' k = if key = k ∧ outcome key ≠ .lost ∧ s.shared.isSome then
    some (countFailure p (storeOf s k) now) else storeOf s k
  mark : Assoc.get s'.unsynced k = if key = k ∧ outcome key ≠ .done then
    some (now + p.resetAfterMs) else Assoc.get s.unsynced k
  length : s'.unsynced.length ≤ s.unsynced.length + 1

theorem written_writeFailure (outcome : κ → WriteOutcome)
    (hroom : s.unsynced.length < maxBlockCache) :
    Written p now outcome key k s (writeFailure p now outcome s key) := by
  have hattached : (writeShared p now key s).shared.isSome = s.shared.isSome := by
    simp [writeShared]
  unfold writeFailure
  cases hout : outcome key with
  | done =>
    refine ⟨rfl, hattached, ?_, ?_, Nat.le_succ _⟩
    · rw [storeOf_writeShared]
      simp [hout]
    · simp [hout, writeShared]
  | lost =>
    refine ⟨rfl, rfl, ?_, ?_, ?_⟩
    · simp [hout, storeOf, markUnsynced]
    · rw [unsynced_markUnsynced hroom, Assoc.get_set]
      simp [hout]
    · rw [unsynced_markUnsynced hroom]
      exact length_set_le ..
  | doubtful =>
    have hmarks : (writeShared p now key s).unsynced = s.unsynced := rfl
    refine ⟨rfl, hattached, ?_, ?_, ?_⟩
    · have hstore : storeOf (markUnsynced p now key (writeShared p now key s)) k =
          storeOf (writeShared p now key s) k := rfl
      rw [hstore, storeOf_writeShared]
      simp [hout]
    · rw [unsynced_markUnsynced (hmarks ▸ hroom), Assoc.get_set, hmarks]
      simp [hout]
    · rw [unsynced_markUnsynced (hmarks ▸ hroom), hmarks]
      exact length_set_le ..

theorem writeFailure_fold (outcome : κ → WriteOutcome) (hnodup : keys.Nodup)
    (hroom : s.unsynced.length + keys.length ≤ maxBlockCache) :
    (keys.foldl (writeFailure p now outcome) s).counters = s.counters ∧
      (keys.foldl (writeFailure p now outcome) s).shared.isSome = s.shared.isSome ∧
      storeOf (keys.foldl (writeFailure p now outcome) s) k =
        (if k ∈ keys ∧ outcome k ≠ .lost ∧ s.shared.isSome then
          some (countFailure p (storeOf s k) now) else storeOf s k) ∧
      Assoc.get (keys.foldl (writeFailure p now outcome) s).unsynced k =
        if k ∈ keys ∧ outcome k ≠ .done then some (now + p.resetAfterMs)
          else Assoc.get s.unsynced k := by
  induction keys generalizing s with
  | nil => simp
  | cons key keys ih =>
    obtain ⟨hkey, hrest⟩ := List.nodup_cons.mp hnodup
    rw [List.length_cons] at hroom
    have hwrite : Written p now outcome key k s (writeFailure p now outcome s key) :=
      written_writeFailure outcome (by omega)
    have hlen := hwrite.length
    obtain ⟨hcounters, hattached, hstore, hmark⟩ := ih (s := writeFailure p now outcome s key) hrest
      (by omega)
    rw [List.foldl_cons]
    refine ⟨hcounters.trans hwrite.counters, hattached.trans hwrite.attached, ?_, ?_⟩
    · rw [hstore, hwrite.store, hwrite.attached]
      by_cases hk : key = k
      · simp [← hk, hkey]
      · simp [hk, Ne.symm hk]
    · rw [hmark, hwrite.mark]
      by_cases hk : key = k
      · simp [← hk, hkey]
      · simp [hk, Ne.symm hk]

omit [DecidableEq κ] in
theorem sweepLocal_shared : (sweepLocal p now s).shared = s.shared := by
  unfold sweepLocal
  split_ifs <;> rfl

theorem sweepLocal_counter (h : Holds (Assoc.get s.counters k) n last)
    (hnow : now < last + p.resetAfterMs) :
    Holds (Assoc.get (sweepLocal p now s).counters k) n last := by
  obtain ⟨c, hc, hn, rfl⟩ := h
  refine ⟨c, ?_, hn, rfl⟩
  unfold sweepLocal
  split_ifs
  · exact hc
  · exact Assoc.get_filter_of_get hc (by simpa using hnow)

theorem sweepLocal_mark {u : Nat} (h : Assoc.get s.unsynced k = some u) (hnow : now < u) :
    Assoc.get (sweepLocal p now s).unsynced k = some u := by
  unfold sweepLocal
  split_ifs
  · exact h
  · exact Assoc.get_filter_of_get h (by simpa using hnow)

omit [DecidableEq κ] in
theorem sweepLocal_length : (sweepLocal p now s).unsynced.length ≤ s.unsynced.length := by
  unfold sweepLocal
  split_ifs
  · exact Nat.le_refl _
  · exact List.length_filter_le _ _

omit [DecidableEq κ] in
theorem sweepShared_facts (swept : Bool) :
    (sweepShared p now swept s).counters = s.counters ∧
      (sweepShared p now swept s).unsynced = s.unsynced ∧
      (sweepShared p now swept s).shared.isSome = s.shared.isSome := by
  unfold sweepShared
  split_ifs <;> simp

theorem sweepShared_store (swept : Bool) (h : Holds (storeOf s k) n last)
    (hnow : now ≤ last + p.resetAfterMs) : Holds (storeOf (sweepShared p now swept s) k) n last := by
  obtain ⟨c, hc, hn, rfl⟩ := h
  refine ⟨c, ?_, hn, rfl⟩
  obtain ⟨db, hdb, hget⟩ := Option.bind_eq_some_iff.mp hc
  unfold sweepShared storeOf
  split_ifs
  · rw [hdb]
    exact hget
  · rw [hdb]
    exact Assoc.get_filter_of_get hget (by simpa using hnow)
  · rw [hdb]
    exact hget

/-- What a failure does to a bucket, of its subject or not: what it leaves is still there after the
sweeps as long as it counts. -/
structure Recorded (p : ThrottlePolicy) (now : Nat) (keys : List κ) (outcome : κ → WriteOutcome)
    (k : κ) (s s' : Throttle κ) : Prop where
  attached : s'.shared.isSome = s.shared.isSome
  counter : ∀ n last, now < last + p.resetAfterMs →
    Holds (if k ∈ keys then some (countFailure p (Assoc.get s.counters k) now)
      else Assoc.get s.counters k) n last → Holds (Assoc.get s'.counters k) n last
  store : s.shared.isSome → ∀ n last, now < last + p.resetAfterMs →
    Holds (if k ∈ keys ∧ outcome k ≠ .lost then some (countFailure p (storeOf s k) now)
      else storeOf s k) n last → Holds (storeOf s' k) n last
  mark : s.shared.isSome → ∀ u, now < u →
    (if k ∈ keys ∧ outcome k ≠ .done then some (now + p.resetAfterMs)
      else Assoc.get s.unsynced k) = some u → Assoc.get s'.unsynced k = some u

theorem recorded_recordFailure (hnodup : keys.Nodup) (outcome : κ → WriteOutcome) (swept : Bool)
    (hroom : s.unsynced.length + keys.length ≤ maxBlockCache) :
    Recorded p now keys outcome k s (recordFailure p keys now outcome swept s) := by
  obtain ⟨hcount, hshared, hmarks⟩ := @countLocal_fold κ _ p now s k keys hnodup
  unfold recordFailure
  dsimp only
  generalize hs₁ : keys.foldl (countLocal p now) s = s₁ at hcount hshared hmarks
  have hshared₂ : (sweepLocal p now s₁).shared = s.shared := sweepLocal_shared.trans hshared
  have hcounter : ∀ n last, now < last + p.resetAfterMs →
      Holds (if k ∈ keys then some (countFailure p (Assoc.get s.counters k) now)
        else Assoc.get s.counters k) n last →
      Holds (Assoc.get (sweepLocal p now s₁).counters k) n last := fun n last hnow hold =>
    sweepLocal_counter (by rw [hcount]; exact hold) hnow
  have hmark : ∀ u, now < u → Assoc.get s.unsynced k = some u →
      Assoc.get (sweepLocal p now s₁).unsynced k = some u := fun u hu hget =>
    sweepLocal_mark (by rw [hmarks]; exact hget) hu
  split_ifs with hstop
  · rw [hshared₂] at hstop
    refine ⟨congrArg Option.isSome hshared₂, hcounter, fun hs => ?_, fun hs => ?_⟩
    · rcases hstop with hnone | hnil
      · rw [Option.isNone_iff_eq_none.mp hnone] at hs
        cases hs
      · intro n last _ hold
        simp only [hnil, List.not_mem_nil, false_and, if_false] at hold
        rw [storeOf, hshared₂]
        exact hold
    · rcases hstop with hnone | hnil
      · rw [Option.isNone_iff_eq_none.mp hnone] at hs
        cases hs
      · intro u hu hget
        simp only [hnil, List.not_mem_nil, false_and, if_false] at hget
        exact hmark u hu hget
  · have hlen := @sweepLocal_length κ p now s₁
    rw [hmarks] at hlen
    obtain ⟨hc, ha, hst, hm⟩ := @writeFailure_fold κ _ p now _ k keys outcome hnodup
      (show (sweepLocal p now s₁).unsynced.length + keys.length ≤ maxBlockCache by omega)
    have hstore₂ : storeOf (sweepLocal p now s₁) k = storeOf s k := by
      rw [storeOf, hshared₂]
      rfl
    obtain ⟨hc', hm', ha'⟩ := @sweepShared_facts κ p now
      (keys.foldl (writeFailure p now outcome) (sweepLocal p now s₁)) swept
    rw [hshared₂] at ha
    refine ⟨ha'.trans ha, ?_, fun hs n last hnow hold => ?_, fun hs u hu hget => ?_⟩
    · rw [hc', hc]
      exact hcounter
    · refine sweepShared_store swept ?_ (by omega)
      rw [hst, hstore₂, hshared₂]
      simpa [hs] using hold
    · rw [hm', hm]
      split_ifs at hget ⊢
      · exact hget
      · exact hmark u hu hget

/-- The failures that count, the last of them, how many the store has taken since it missed one,
and the last it missed. -/
structure Tally where
  fails : Nat
  last : Nat
  written : Nat
  lost : Option Nat

variable {τ : Option Tally}

/-- The tally a failure adds to: none when the last one is too long ago. -/
def Tally.ongoing (p : ThrottlePolicy) (now : Nat) (τ : Option Tally) : Option Tally :=
  τ.filter fun t => decide (now < t.last + p.resetAfterMs)

def Tally.next (p : ThrottlePolicy) (τ : Option Tally) (f : Nat × WriteOutcome) : Tally :=
  let before := ongoing p f.1 τ
  { fails := before.elim 0 Tally.fails + 1
    last := f.1
    written := if f.2 = .lost then 0 else before.elim 0 Tally.written + 1
    lost := if f.2 = .lost then some f.1 else τ.bind Tally.lost }

theorem Tally.ongoing_some {t : Tally} (h : ongoing p now τ = some t) :
    t ∈ τ ∧ now < t.last + p.resetAfterMs := by
  obtain ⟨ht, hlive⟩ := Option.filter_eq_some_iff.mp h
  exact ⟨ht, of_decide_eq_true hlive⟩

/-- The state at some time has counted at least what the tally has. -/
structure Follows (p : ThrottlePolicy) (k : κ) (τ : Option Tally) (time : Nat)
    (s : Throttle κ) : Prop where
  counted : ∀ t ∈ τ, time < t.last + p.resetAfterMs →
    Holds (Assoc.get s.counters k) t.fails t.last
  stored : s.shared.isSome → ∀ t ∈ τ, time < t.last + p.resetAfterMs → 0 < t.written →
    Holds (storeOf s k) t.written t.last
  marked : s.shared.isSome → ∀ t ∈ τ, ∀ l ∈ t.lost, time < l + p.resetAfterMs →
    ∃ u, Assoc.get s.unsynced k = some u ∧ l + p.resetAfterMs ≤ u
  lost_le : ∀ t ∈ τ, ∀ l ∈ t.lost, l ≤ time

theorem Follows.none (time : Nat) (s : Throttle κ) : Follows p k none time s :=
  ⟨by simp, by simp, by simp, by simp⟩

theorem Follows.mono {time time' : Nat} (h : Follows p k τ time s)
    (hle : time ≤ time') : Follows p k τ time' s :=
  ⟨fun t ht hlive => h.counted t ht (by omega), fun hs t ht hlive => h.stored hs t ht (by omega),
    fun hs t ht l hl hlive => h.marked hs t ht l hl (by omega),
    fun t ht l hl => Nat.le_trans (h.lost_le t ht l hl) hle⟩

theorem Follows.recordFailure {time : Nat} (h : Follows p k τ time s)
    (hle : time ≤ now) (hnodup : keys.Nodup) (outcome : κ → WriteOutcome) (swept : Bool)
    (hroom : s.unsynced.length + keys.length ≤ maxBlockCache) :
    Follows p k (if k ∈ keys then some (Tally.next p τ (now, outcome k)) else τ) now
      (recordFailure p keys now outcome swept s) := by
  have hrec : Recorded p now keys outcome k s (Core.recordFailure p keys now outcome swept s) :=
    recorded_recordFailure hnodup outcome swept hroom
  split_ifs with hk
  · have hfails : Holds (some (countFailure p (Assoc.get s.counters k) now))
        (Tally.next p τ (now, outcome k)).fails now := by
      rw [Tally.next]
      cases hbefore : Tally.ongoing p now τ with
      | none => exact holds_countFailure _
      | some t =>
        obtain ⟨ht, hlive⟩ := Tally.ongoing_some hbefore
        exact (h.counted t ht (by omega)).countFailure hlive
    have hwritten : s.shared.isSome → outcome k ≠ .lost →
        Holds (some (countFailure p (storeOf s k) now))
          (Tally.next p τ (now, outcome k)).written now := by
      intro hs hout
      rw [Tally.next]
      dsimp only
      rw [if_neg hout]
      cases hbefore : Tally.ongoing p now τ with
      | none => exact holds_countFailure _
      | some t =>
        obtain ⟨ht, hlive⟩ := Tally.ongoing_some hbefore
        by_cases hpos : 0 < t.written
        · exact (h.stored hs t ht (by omega) hpos).countFailure hlive
        · obtain hzero : t.written = 0 := by omega
          rw [Option.elim_some, hzero]
          exact holds_countFailure _
    refine ⟨fun t ht hlive => ?_, fun hs t ht hlive hpos => ?_, fun hs t ht l hl hlive => ?_,
      fun t ht l hl => ?_⟩
    all_goals obtain rfl := Option.some.inj ht
    · refine hrec.counter _ _ hlive ?_
      rw [if_pos hk]
      exact hfails
    · rw [hrec.attached] at hs
      have hout : outcome k ≠ .lost := by
        intro hout
        have hzero : (Tally.next p τ (now, outcome k)).written = 0 := if_pos hout
        omega
      refine hrec.store hs _ _ hlive ?_
      rw [if_pos ⟨hk, hout⟩]
      exact hwritten hs hout
    · rw [hrec.attached] at hs
      rw [Tally.next] at hl
      dsimp only at hl
      by_cases hout : outcome k = .lost
      · rw [if_pos hout] at hl
        obtain rfl : now = l := Option.some.inj hl
        refine ⟨now + p.resetAfterMs, hrec.mark hs _ hlive ?_, Nat.le_refl _⟩
        rw [if_pos ⟨hk, by rw [hout]; decide⟩]
      · rw [if_neg hout] at hl
        obtain ⟨t, ht, hl⟩ := Option.bind_eq_some_iff.mp hl
        have hlt := h.lost_le t ht l hl
        by_cases hdone : outcome k = .done
        · obtain ⟨u, hget, hu⟩ := h.marked hs t ht l hl (by omega)
          refine ⟨u, hrec.mark hs u (by omega) ?_, hu⟩
          rw [if_neg fun hboth => hboth.2 hdone]
          exact hget
        · refine ⟨now + p.resetAfterMs, hrec.mark hs _ (by omega) ?_, by omega⟩
          rw [if_pos ⟨hk, hdone⟩]
    · rw [Tally.next] at hl
      dsimp only at hl
      split_ifs at hl with hout
      · obtain rfl : now = l := Option.some.inj hl
        exact Nat.le_refl _
      · obtain ⟨t, ht, hl⟩ := Option.bind_eq_some_iff.mp hl
        exact Nat.le_trans (h.lost_le t ht l hl) hle
  · refine ⟨fun t ht hlive => ?_, fun hs t ht hlive hpos => ?_, fun hs t ht l hl hlive => ?_,
      fun t ht l hl => Nat.le_trans (h.lost_le t ht l hl) hle⟩
    · refine hrec.counter _ _ hlive ?_
      rw [if_neg hk]
      exact h.counted t ht (by omega)
    · rw [hrec.attached] at hs
      refine hrec.store hs _ _ hlive ?_
      rw [if_neg fun hboth => hk hboth.1]
      exact h.stored hs t ht (by omega) hpos
    · rw [hrec.attached] at hs
      obtain ⟨u, hget, hu⟩ := h.marked hs t ht l hl (by omega)
      refine ⟨u, hrec.mark hs u (by omega) ?_, hu⟩
      rw [if_neg fun hboth => hk hboth.1]
      exact hget

/-- Asking changes neither counter and forgets only marks that are over. -/
structure Passed (now : Nat) (k : κ) (s s' : Throttle κ) : Prop where
  counters : s'.counters = s.counters
  shared : s'.shared = s.shared
  mark : ∀ u, now < u → Assoc.get s.unsynced k = some u → Assoc.get s'.unsynced k = some u

theorem Passed.refl (now : Nat) (k : κ) (s : Throttle κ) : Passed now k s s :=
  ⟨rfl, rfl, fun _ _ h => h⟩

theorem Passed.trans {s s' s'' : Throttle κ} (h : Passed now k s s') (h' : Passed now k s' s'') :
    Passed now k s s'' :=
  ⟨h'.counters.trans h.counters, h'.shared.trans h.shared,
    fun u hu hget => h'.mark u hu (h.mark u hu hget)⟩

theorem passed_readCache (keys : List κ) (s : Throttle κ) :
    Passed now k s (readCache now keys s).1 := by
  induction keys generalizing s with
  | nil => exact Passed.refl ..
  | cons key keys ih =>
    rw [readCache]
    cases Assoc.get s.blockCache key with
    | none => exact ih s
    | some u =>
      dsimp only
      split_ifs
      · exact ih s
      · have hrest := ih { s with blockCache := Assoc.erase s.blockCache key }
        exact ⟨hrest.counters, hrest.shared, hrest.mark⟩

theorem passed_readShared (readOk : Bool) : Passed now k s (readShared keys now readOk s).1 := by
  unfold readShared
  cases hs : s.shared with
  | none => exact Passed.refl ..
  | some db =>
    dsimp only
    by_cases hread : readOk = true
    · rw [if_pos hread]
      exact ⟨rfl, hs.symm, fun _ _ h => h⟩
    · rw [if_neg hread]
      exact Passed.refl ..

theorem passed_judge (shared : Option (κ → Option ThrottleCounter)) (key : κ) :
    Passed now k s (judge p now shared s key).1 := by
  unfold judge
  cases shared with
  | none => exact Passed.refl ..
  | some got =>
    dsimp only
    unfold isUnsynced
    cases hget : Assoc.get s.unsynced key with
    | none => exact Passed.refl ..
    | some u =>
      dsimp only
      split_ifs with hlive
      · exact Passed.refl ..
      · refine ⟨rfl, rfl, fun u' hu' hget' => ?_⟩
        dsimp only
        rw [Assoc.get_erase]
        split_ifs with hk
        · rw [← hk, hget] at hget'
          obtain rfl := Option.some.inj hget'
          exact absurd hu' hlive
        · exact hget'

def remembered (now : Nat) (key : κ) (r : Throttle κ × Nat) : Throttle κ :=
  let cache := if maxBlockCache ≤ r.1.blockCache.length then [] else r.1.blockCache
  if now < r.2 then { r.1 with blockCache := Assoc.set cache key r.2 } else r.1

theorem judgeAll_cons (shared : Option (κ → Option ThrottleCounter)) (key : κ) (keys : List κ)
    (s : Throttle κ) : judgeAll p now shared (key :: keys) s =
      ((judgeAll p now shared keys (remembered now key (judge p now shared s key))).1,
        max (judge p now shared s key).2
          (judgeAll p now shared keys (remembered now key (judge p now shared s key))).2) := rfl

theorem passed_remembered (shared : Option (κ → Option ThrottleCounter)) (key : κ) :
    Passed now k s (remembered now key (judge p now shared s key)) := by
  refine Passed.trans (passed_judge (p := p) shared key) ?_
  unfold remembered
  dsimp only
  split_ifs <;> exact ⟨rfl, rfl, fun _ _ h => h⟩

theorem passed_judgeAll (shared : Option (κ → Option ThrottleCounter)) (keys : List κ)
    (s : Throttle κ) : Passed now k s (judgeAll p now shared keys s).1 := by
  induction keys generalizing s with
  | nil => exact Passed.refl ..
  | cons key keys ih =>
    rw [judgeAll_cons]
    exact (passed_remembered shared key).trans (ih _)

theorem passed_retryAfterSeconds (keys : List κ) (readOk : Bool) (s : Throttle κ) :
    Passed now k s (retryAfterSeconds p keys now readOk s).1 := by
  unfold retryAfterSeconds
  split_ifs
  · exact Passed.refl ..
  · dsimp only
    by_cases hcached : now < (readCache now keys s).2
    · rw [if_pos hcached]
      exact passed_readCache keys s
    · rw [if_neg hcached]
      exact (passed_readCache keys s).trans
        ((passed_readShared readOk).trans (passed_judgeAll _ keys _))

theorem Follows.passed {time : Nat} {s' : Throttle κ}
    (h : Follows p k τ time s) (hle : time ≤ now) (hpass : Passed now k s s') :
    Follows p k τ now s' := by
  refine ⟨fun t ht hlive => ?_, fun hs t ht hlive hpos => ?_, fun hs t ht l hl hlive => ?_,
    fun t ht l hl => Nat.le_trans (h.lost_le t ht l hl) hle⟩
  · rw [hpass.counters]
    exact h.counted t ht (by omega)
  · rw [hpass.shared] at hs
    rw [storeOf, hpass.shared]
    exact h.stored hs t ht (by omega) hpos
  · rw [hpass.shared] at hs
    obtain ⟨u, hget, hu⟩ := h.marked hs t ht l hl (by omega)
    exact ⟨u, hpass.mark u (by omega) hget, hu⟩

/-- What blocks a bucket: the counter of the process, when nothing is read of the store or the
bucket is marked, else the counter of the store. -/
def Blocks (p : ThrottlePolicy) (now : Nat) (shared : Option (κ → Option ThrottleCounter)) (k : κ)
    (s : Throttle κ) : Prop :=
  now < blockedUntil (Assoc.get s.counters k) now p ∧
    ∀ got, shared = some got → (∃ u, Assoc.get s.unsynced k = some u ∧ now < u) ∨
      now < blockedUntil (got k) now p

theorem Blocks.passed {s' : Throttle κ}
    (h : Blocks p now shared k s) (hpass : Passed now k s s') : Blocks p now shared k s' := by
  refine ⟨by rw [hpass.counters]; exact h.1, fun got hgot => ?_⟩
  rcases h.2 got hgot with ⟨u, hget, hu⟩ | hblocked
  · exact .inl ⟨u, hpass.mark u hu hget, hu⟩
  · exact .inr hblocked

theorem Blocks.judge (h : Blocks p now shared k s) : now < (judge p now shared s k).2 := by
  unfold Core.judge
  cases shared with
  | none => exact h.1
  | some got =>
    dsimp only
    unfold isUnsynced
    have hown := h.1
    rcases h.2 got rfl with ⟨u, hget, hu⟩ | hblocked
    · rw [hget]
      simp only [hu, if_true]
      omega
    · cases hget : Assoc.get s.unsynced k with
      | none => exact hblocked
      | some u =>
        dsimp only
        split_ifs <;> simp <;> omega

theorem Blocks.judgeAll (h : Blocks p now shared k s) (hk : k ∈ keys) :
    now < (judgeAll p now shared keys s).2 := by
  induction keys generalizing s with
  | nil => cases hk
  | cons key keys ih =>
    rw [judgeAll_cons]
    dsimp only
    by_cases hkey : k = key
    · have hjudge := h.judge
      rw [hkey] at hjudge
      omega
    · have hrest := ih (h.passed (passed_remembered (p := p) shared key))
        ((List.mem_cons.mp hk).resolve_left hkey)
      omega

theorem seconds_pos (ms : Nat) : 0 < seconds ms := by
  unfold seconds
  omega

theorem retryAfterSeconds_pos {readOk : Bool} (hk : k ∈ keys)
    (hown : now < blockedUntil (Assoc.get s.counters k) now p)
    (hshared : readOk = true → s.shared.isSome → (∃ u, Assoc.get s.unsynced k = some u ∧ now < u) ∨
      now < blockedUntil (storeOf s k) now p) :
    0 < (retryAfterSeconds p keys now readOk s).2 := by
  have hne : keys ≠ [] := List.ne_nil_of_mem hk
  unfold retryAfterSeconds
  rw [if_neg hne]
  dsimp only
  by_cases hcached : now < (readCache now keys s).2
  · rw [if_pos hcached]
    exact seconds_pos _
  · rw [if_neg hcached]
    have hpass : Passed now k s (readCache now keys s).1 := passed_readCache keys s
    generalize (readCache now keys s).1 = s₁ at hpass ⊢
    have hblocks : Blocks p now (readShared keys now readOk s₁).2 k
        (readShared keys now readOk s₁).1 := by
      refine Blocks.passed ⟨by rw [hpass.counters]; exact hown, fun got hgot => ?_⟩
        (passed_readShared readOk)
      unfold readShared at hgot
      rw [hpass.shared] at hgot
      cases hs : s.shared with
      | none =>
        rw [hs] at hgot
        cases hgot
      | some db =>
        rw [hs] at hgot
        dsimp only at hgot
        by_cases hread : readOk = true
        · rw [if_pos hread] at hgot
          obtain rfl := Option.some.inj hgot
          rcases hshared hread (by rw [hs]; rfl) with ⟨u, hget, hu⟩ | hblocked
          · exact .inl ⟨u, hpass.mark u hu hget, hu⟩
          · rw [storeOf, hs] at hblocked
            exact .inr hblocked
        · rw [if_neg hread] at hgot
          cases hgot
    dsimp only
    rw [if_pos (hblocks.judgeAll hk)]
    exact seconds_pos _

end Bucket

section Runs

variable {ι : Type} [DecidableEq ι] {p : ThrottlePolicy} {key : AxisName × ι}

omit [DecidableEq ι] in
theorem nodup_axesOf (subject : AuthSubject ι) : (axesOf subject).Nodup := by
  unfold axesOf
  cases subject.ip <;> cases subject.account <;> simp

def callStep (p : ThrottlePolicy) (c : ThrottleCall ι) (s : Throttle (AxisName × ι)) :
    Option (Throttle (AxisName × ι)) := some (c.run p s)

def Room (s : Throttle (AxisName × ι)) : ThrottleCall ι → Prop
  | .recordFailure subject _ _ _ => s.unsynced.length + (axesOf subject).length ≤ maxBlockCache
  | .retryAfterSeconds _ _ _ => True

def failureOf (key : AxisName × ι) : ThrottleCall ι → List (Nat × WriteOutcome)
  | .recordFailure subject now outcome _ =>
    if key ∈ axesOf subject then [(now, outcome key)] else []
  | .retryAfterSeconds _ _ _ => []

def failuresOf (key : AxisName × ι) (calls : List (ThrottleCall ι)) : List (Nat × WriteOutcome) :=
  calls.flatMap (failureOf key)

def tally (p : ThrottlePolicy) (fs : List (Nat × WriteOutcome)) (τ : Option Tally) : Option Tally :=
  fs.foldl (fun τ f => some (Tally.next p τ f)) τ

theorem follows_run {calls : List (ThrottleCall ι)} {s s' : Throttle (AxisName × ι)}
    {τ : Option Tally} {time now : Nat} (h : Follows p key τ time s)
    (hrun : Schedule.run (callStep p) calls s = some s')
    (hroom : Schedule.Always (callStep p) Room calls s)
    (htimes : (time :: (calls.map ThrottleCall.now ++ [now])).IsChain (· ≤ ·)) :
    Follows p key (tally p (failuresOf key calls) τ) now s' := by
  induction calls generalizing s τ time with
  | nil =>
    cases hrun
    exact h.mono (List.isChain_cons_cons.mp htimes).1
  | cons c calls ih =>
    obtain ⟨hle, hrest⟩ := List.isChain_cons_cons.mp htimes
    cases c with
    | recordFailure subject t outcome swept =>
      have hnext := h.recordFailure hle (nodup_axesOf subject) outcome swept hroom.1
      rw [failuresOf, List.flatMap_cons, failureOf]
      by_cases hk : key ∈ axesOf subject
      · rw [if_pos hk] at hnext ⊢
        exact ih hnext hrun (hroom.2 _ rfl) hrest
      · rw [if_neg hk] at hnext ⊢
        exact ih hnext hrun (hroom.2 _ rfl) hrest
    | retryAfterSeconds subject t readOk =>
      have hnext := h.passed hle (passed_retryAfterSeconds (p := p) (axesOf subject) readOk s)
      exact ih hnext hrun (hroom.2 _ rfl) hrest

theorem tally_append (fs gs : List (Nat × WriteOutcome)) (τ : Option Tally) :
    tally p (fs ++ gs) τ = tally p gs (tally p fs τ) := List.foldl_append

theorem tally_concat (fs : List (Nat × WriteOutcome)) (f : Nat × WriteOutcome) (τ : Option Tally) :
    tally p (fs ++ [f]) τ = some (Tally.next p (tally p fs τ) f) := tally_append fs [f] τ

def Close (p : ThrottlePolicy) (f g : Nat × WriteOutcome) : Prop := g.1 < f.1 + p.resetAfterMs

theorem tally_close {fs : List (Nat × WriteOutcome)} (hne : fs ≠ []) (hclose : fs.IsChain (Close p))
    (τ : Option Tally) : ∃ t, tally p fs τ = some t ∧ fs.length ≤ t.fails ∧
      (∀ f ∈ fs.getLast?, t.last = f.1) ∧
      ((∀ f ∈ fs, f.2 ≠ .lost) → fs.length ≤ t.written) := by
  induction fs using List.reverseRecOn with
  | nil => exact absurd rfl hne
  | append_singleton fs f ih =>
    rw [tally_concat, List.length_append, List.length_singleton]
    have hfinal : ∀ f' ∈ (fs ++ [f]).getLast?, f.1 = f'.1 := fun f' hf' =>
      congrArg Prod.fst (Option.some.inj (List.getLast?_concat.symm.trans hf'))
    refine ⟨_, rfl, ?_⟩
    rw [Tally.next]
    dsimp only
    cases fs with
    | nil =>
      refine ⟨Nat.succ_le_succ (Nat.zero_le _), hfinal, fun hwritten => ?_⟩
      rw [if_neg (hwritten f (by simp))]
      exact Nat.succ_le_succ (Nat.zero_le _)
    | cons g fs =>
      obtain ⟨hfs, -, hgap⟩ := List.isChain_append.mp hclose
      obtain ⟨t, ht, hfails, hlast, hwritten⟩ := ih (List.cons_ne_nil g fs) hfs
      obtain ⟨e, he⟩ : ∃ e, (g :: fs).getLast? = some e :=
        ⟨_, List.getLast?_eq_some_getLast (List.cons_ne_nil g fs)⟩
      have hlive : f.1 < t.last + p.resetAfterMs := by
        rw [hlast e he]
        exact hgap e he f rfl
      have hongoing : Tally.ongoing p f.1 (tally p (g :: fs) τ) = some t := by
        rw [ht, Tally.ongoing, Option.filter_some, if_pos (decide_eq_true hlive)]
      rw [hongoing]
      refine ⟨Nat.succ_le_succ hfails, hfinal, fun hall => ?_⟩
      rw [if_neg (hall f (by simp))]
      exact Nat.succ_le_succ (hwritten fun f' hf' => hall f' (List.mem_append_left _ hf'))

theorem tally_lost {fs : List (Nat × WriteOutcome)} {f : Nat × WriteOutcome}
    (htimes : (fs.map Prod.fst).Pairwise (· ≤ ·)) (hf : f ∈ fs) (hlost : f.2 = .lost)
    (τ : Option Tally) : ∃ t l, tally p fs τ = some t ∧ t.lost = some l ∧ f.1 ≤ l := by
  induction fs using List.reverseRecOn with
  | nil => cases hf
  | append_singleton fs g ih =>
    rw [tally_concat]
    rw [List.map_append, List.pairwise_append] at htimes
    obtain ⟨hfs, -, hle⟩ := htimes
    by_cases hg : g.2 = .lost
    · refine ⟨_, g.1, rfl, if_pos hg, ?_⟩
      rcases List.mem_append.mp hf with hf | hf
      · exact hle f.1 (List.mem_map_of_mem hf) g.1 (by simp)
      · exact Nat.le_of_eq (congrArg Prod.fst (List.mem_singleton.mp hf))
    · have hmem : f ∈ fs := by
        rcases List.mem_append.mp hf with hf | hf
        · exact hf
        · rw [← List.mem_singleton.mp hf] at hg
          exact absurd hlost hg
      obtain ⟨t, l, ht, hl, hfl⟩ := ih hfs hmem
      have hnext : (Tally.next p (tally p fs τ) g).lost = (tally p fs τ).bind Tally.lost :=
        if_neg hg
      refine ⟨_, l, rfl, ?_, hfl⟩
      rw [hnext, ht]
      exact hl

theorem times_failuresOf (key : AxisName × ι) (calls : List (ThrottleCall ι)) :
    ((failuresOf key calls).map Prod.fst).Sublist (calls.map ThrottleCall.now) := by
  induction calls with
  | nil => exact List.Sublist.slnil
  | cons c calls ih =>
    rw [failuresOf, List.flatMap_cons, List.map_append, List.map_cons]
    cases c with
    | recordFailure subject now outcome swept =>
      rw [failureOf]
      split_ifs
      · exact ih.cons_cons _
      · exact ih.cons _
    | retryAfterSeconds subject now readOk => exact ih.cons _

/-- A bucket has failed at least `freeFailures` times in a row up to `now`, and the first delay
after the last failure is not over. -/
structure Guessing (p : ThrottlePolicy) (key : AxisName × ι) (calls : List (ThrottleCall ι))
    (now : Nat) (streak : List (Nat × WriteOutcome)) : Prop where
  ordered : (calls.map ThrottleCall.now ++ [now]).IsChain (· ≤ ·)
  suffix : ∃ before, failuresOf key calls = before ++ streak
  ne_nil : streak ≠ []
  close : streak.IsChain (Close p)
  enough : p.freeFailures ≤ streak.length
  right_after : ∀ f ∈ streak.getLast?,
    now < f.1 + min (min p.baseDelayMs p.maxDelayMs) p.resetAfterMs

/-- A failure the store has missed is less than the reset period old, or it has missed none of the
last ones that count. -/
def Remembered (p : ThrottlePolicy) (now : Nat) (streak : List (Nat × WriteOutcome)) : Prop :=
  (∃ f ∈ streak, f.2 = .lost ∧ now < f.1 + p.resetAfterMs) ∨
    ∀ f ∈ streak.drop (streak.length - max 1 p.freeFailures), f.2 ≠ .lost

/-- Whatever state a run begins in and whatever the store misses in it, as long as marks have room
and last, a bucket that fails on and on has to wait. -/
theorem fails_closed (p : ThrottlePolicy) (key : AxisName × ι) (s s' : Throttle (AxisName × ι))
    (calls : List (ThrottleCall ι)) (subject : AuthSubject ι) (now : Nat) (readOk : Bool)
    (streak : List (Nat × WriteOutcome)) (hrun : Schedule.run (callStep p) calls s = some s')
    (hkey : key ∈ axesOf subject) (hguess : Guessing p key calls now streak)
    (hroom : Schedule.Always (callStep p) Room calls s)
    (hremember : readOk = true → s'.shared.isSome → Remembered p now streak) :
    0 < (retryAfterSeconds p (axesOf subject) now readOk s').2 := by
  obtain ⟨hordered, ⟨before, hsplit⟩, hne, hclose, henough, hright⟩ := hguess
  have hfollows := follows_run (Follows.none (k := key) 0 s) hrun hroom
    (List.isChain_cons.mpr ⟨fun _ _ => Nat.zero_le _, hordered⟩)
  obtain ⟨t, ht, hfails, hlast, -⟩ := tally_close hne hclose (tally p before none)
  obtain ⟨e, he⟩ : ∃ e, streak.getLast? = some e :=
    ⟨_, List.getLast?_eq_some_getLast hne⟩
  have htally : tally p (failuresOf key calls) none = some t := by
    rw [hsplit, tally_append, ht]
  have hend := hright e he
  rw [← hlast e he] at hend
  have hlive : now < t.last + p.resetAfterMs := by omega
  rw [htally] at hfollows
  refine retryAfterSeconds_pos hkey ?_ fun hread hshared => ?_
  · exact (hfollows.counted t rfl hlive).blocked (by omega) hend
  rcases hremember hread hshared with ⟨f, hf, hlost, hfresh⟩ | hdone
  · have htimes : (streak.map Prod.fst).Pairwise (· ≤ ·) := by
      have hcalls := (List.isChain_iff_pairwise.mp hordered).sublist (List.sublist_append_left ..)
      have hall := hcalls.sublist (times_failuresOf key calls)
      rw [hsplit, List.map_append] at hall
      exact hall.sublist (List.sublist_append_right ..)
    obtain ⟨t', l, ht', hl, hfl⟩ := tally_lost htimes hf hlost (tally p before none)
    obtain rfl : t = t' := Option.some.inj (ht.symm.trans ht')
    obtain ⟨u, hget, hu⟩ := hfollows.marked hshared t rfl l hl (by omega)
    exact .inl ⟨u, hget, by omega⟩
  · have hcut := List.take_append_drop (streak.length - max 1 p.freeFailures) streak
    have hlength : (streak.drop (streak.length - max 1 p.freeFailures)).length =
        max 1 p.freeFailures := by
      have hpos := List.length_pos_of_ne_nil hne
      rw [List.length_drop]
      omega
    generalize hrest : streak.drop (streak.length - max 1 p.freeFailures) = rest at *
    have hne' : rest ≠ [] := List.ne_nil_of_length_pos (by omega)
    have hclose' : rest.IsChain (Close p) := hrest ▸ hclose.drop _
    obtain ⟨t', ht', -, -, hwritten⟩ := tally_close hne' hclose' (tally p
      (streak.take (streak.length - max 1 p.freeFailures)) (tally p before none))
    rw [← tally_append, hcut, ht] at ht'
    obtain rfl : t = t' := Option.some.inj ht'
    have hcount := hwritten hdone
    exact .inr ((hfollows.stored hshared t rfl hlive (by omega)).blocked (by omega) hend)

theorem run_callStep (calls : List (ThrottleCall ι)) (s : Throttle (AxisName × ι)) :
    Schedule.run (callStep p) calls s = some (calls.foldl (fun s c => c.run p s) s) := by
  induction calls generalizing s with
  | nil => rfl
  | cons c calls ih => exact ih (c.run p s)

instance (s : Throttle (AxisName × ι)) : ∀ c : ThrottleCall ι, Decidable (Room s c)
  | .recordFailure subject _ _ _ =>
    inferInstanceAs (Decidable (s.unsynced.length + (axesOf subject).length ≤ maxBlockCache))
  | .retryAfterSeconds _ _ _ => inferInstanceAs (Decidable True)

instance : DecidableRel (Close p) := fun f g =>
  inferInstanceAs (Decidable (g.1 < f.1 + p.resetAfterMs))

end Runs

/-- Five failures of one account, the first of which the store misses. -/
def guesses (gap : Nat) : List (ThrottleCall Nat) :=
  (List.range 5).map fun i =>
    .recordFailure ⟨none, some 7⟩ (i * gap) (fun _ => if i = 0 then .lost else .done) true

def freshThrottle : Throttle (AxisName × Nat) := { shared := some [] }

def afterGuesses (gap : Nat) : Throttle (AxisName × Nat) :=
  (guesses gap).foldl (fun s c => c.run {} s) freshThrottle

def guessStreak (gap : Nat) : List (Nat × WriteOutcome) :=
  (List.range 5).map fun i => (i * gap, if i = 0 then .lost else .done)

theorem guessing_quick : Guessing {} (.account, 7) (guesses 1) 4 (guessStreak 1) where
  ordered := by decide
  suffix := ⟨[], by decide⟩
  ne_nil := by decide
  close := by decide
  enough := by decide
  right_after := by decide

/-- With the mark still there the account has to wait. -/
theorem fails_closed_quick : 0 < (retryAfterSeconds {} (axesOf ⟨none, some 7⟩) 4 true
    (afterGuesses 1)).2 :=
  fails_closed {} (.account, 7) freshThrottle (afterGuesses 1) (guesses 1) ⟨none, some 7⟩ 4 true
    (guessStreak 1) (run_callStep _ _) (by decide) guessing_quick (by decide +kernel)
    fun _ _ => .inl ⟨(0, .lost), by decide, rfl, by decide⟩

theorem guessing_slow :
    Guessing {} (.account, 7) (guesses 450000) 1800000 (guessStreak 450000) where
  ordered := by decide +kernel
  suffix := ⟨[], by decide +kernel⟩
  ne_nil := by decide +kernel
  close := by decide +kernel
  enough := by decide +kernel
  right_after := by decide +kernel

/-- The mark is over before the fifth failure, and the store has counted four. -/
theorem fails_closed_fails : ¬ ∀ (p : ThrottlePolicy) (key : AxisName × Nat)
    (s' : Throttle (AxisName × Nat)) (calls : List (ThrottleCall Nat)) (subject : AuthSubject Nat)
    (now : Nat) (readOk : Bool) (streak : List (Nat × WriteOutcome)),
    Schedule.run (callStep p) calls freshThrottle = some s' → key ∈ axesOf subject →
    Guessing p key calls now streak →
    0 < (retryAfterSeconds p (axesOf subject) now readOk s').2 := by
  intro hclaim
  have hwait := hclaim {} (.account, 7) (afterGuesses 450000) (guesses 450000) ⟨none, some 7⟩
    1800000 true (guessStreak 450000) (run_callStep _ _) (by decide) guessing_slow
  have hfree : (retryAfterSeconds {} (axesOf ⟨none, some 7⟩) 1800000 true
      (afterGuesses 450000)).2 = 0 := by
    decide +kernel
  omega

end Ionosphere.Core
