import Mathlib.Data.List.Basic
import Mathlib.Logic.Function.Basic

/-! A ledger that is cut off at a floor while rows are still written to it. A sweep reads up
to which number its expired rows go, raises the floor to that and deletes them; several sweeps
may be on their way. Beside the rows there are the rows as they would be without deletions. -/
namespace Ionosphere.Lib.Ledger

/-- How far a sweep is. -/
inductive Stage where
  | waiting
  /-- Expired rows have numbers up to `bound`. -/
  | read (cutoff bound : Nat)
  | raised (cutoff : Nat)
  | done
  deriving DecidableEq

structure State (α : Type) where
  rows : List α
  whole : List α
  floor : Nat
  stages : Nat → Stage

variable {α : Type} (number time : α → Nat)

def Agree (floor : Nat) (t t' : List α) : Prop :=
  (t.filter fun r => floor < number r) = t'.filter fun r => floor < number r

def Covered (cutoff floor : Nat) (t : List α) : Prop :=
  ∀ r ∈ t, time r < cutoff → number r ≤ floor

def Stage.Waits (cutoff : Nat) : Stage → Prop
  | .read c _ => c = cutoff
  | .raised c => c = cutoff
  | _ => False

inductive Step (s : State α) : State α → Prop where
  | same : Step s s
  | write (new : List α)
      (hfresh : ∀ i cutoff, (s.stages i).Waits cutoff → ∀ r ∈ new, cutoff ≤ time r) :
      Step s { s with rows := s.rows ++ new, whole := s.whole ++ new }
  /-- The rows so far go, deleted or not, and the floor is another one's. -/
  | restart (new : List α) (floor : Nat)
      (hfresh : ∀ i cutoff, (s.stages i).Waits cutoff → ∀ r ∈ new, cutoff ≤ time r) :
      Step s { s with rows := new, whole := new, floor := floor }
  | read (i cutoff bound : Nat) (hstage : s.stages i = .waiting)
      (hcovered : Covered number time cutoff bound s.rows) :
      Step s { s with stages := Function.update s.stages i (.read cutoff bound) }
  | raise (i cutoff bound floor : Nat) (hstage : s.stages i = .read cutoff bound)
      (hle : s.floor ≤ floor)
      (hbound : Covered number time cutoff bound s.rows → Covered number time cutoff floor s.rows) :
      Step s { s with floor := floor, stages := Function.update s.stages i (.raised cutoff) }
  | delete (i cutoff : Nat) (hstage : s.stages i = .raised cutoff) :
      Step s { s with
        rows := s.rows.filter fun r => cutoff ≤ time r
        stages := Function.update s.stages i .done }

section

variable {number time} {floor floor' cutoff : Nat} {t t' : List α}

theorem Agree.refl (t : List α) : Agree number floor t t := rfl

theorem Agree.filter (h : Agree number floor t t') {p : α → Bool}
    (hp : ∀ r, p r = true → floor < number r) : t.filter p = t'.filter p := by
  have hall : ∀ t : List α, (t.filter fun r => floor < number r).filter p = t.filter p := by
    intro t
    rw [List.filter_filter]
    apply List.filter_congr
    intro r _
    cases hr : p r with
    | true => simpa using hp r hr
    | false => rfl
  rw [← hall t, ← hall t', h]

theorem Agree.mono (h : Agree number floor t t') (hle : floor ≤ floor') :
    Agree number floor' t t' :=
  h.filter fun r hr => by
    have := of_decide_eq_true hr
    omega

theorem Agree.append (h : Agree number floor t t') (new : List α) :
    Agree number floor (t ++ new) (t' ++ new) := by
  rw [Agree, List.filter_append, List.filter_append, h]

theorem Agree.delete (h : Agree number floor t t') (hcovered : Covered number time cutoff floor t) :
    Agree number floor (t.filter fun r => cutoff ≤ time r) t' := by
  refine Eq.trans ?_ h
  rw [List.filter_filter]
  apply List.filter_congr
  intro r hr
  by_cases hold : time r < cutoff
  · have := hcovered r hr hold
    have hnot : ¬ floor < number r := by omega
    simp [hnot]
  · have hnew : cutoff ≤ time r := by omega
    simp [hnew]

theorem Covered.mono (h : Covered number time cutoff floor t) (hle : floor ≤ floor') :
    Covered number time cutoff floor' t :=
  fun r hr hold => Nat.le_trans (h r hr hold) hle

theorem Covered.subset (h : Covered number time cutoff floor t) (hsub : ∀ r ∈ t', r ∈ t) :
    Covered number time cutoff floor t' :=
  fun r hr hold => h r (hsub r hr) hold

theorem covered_fresh (floor : Nat) (h : ∀ r ∈ t, cutoff ≤ time r) :
    Covered number time cutoff floor t := by
  intro r hr hold
  have := h r hr
  omega

theorem Covered.append (h : Covered number time cutoff floor t) {new : List α}
    (hnew : ∀ r ∈ new, cutoff ≤ time r) : Covered number time cutoff floor (t ++ new) := by
  intro r hr
  rcases List.mem_append.mp hr with hr | hr
  · exact h r hr
  · exact covered_fresh floor hnew r hr

end

variable {number time} {s s' : State α}

/-- What was deleted is below the floor, and what is to be deleted too. -/
structure Kept (number time : α → Nat) (s : State α) : Prop where
  agree : Agree number s.floor s.rows s.whole
  read : ∀ i cutoff bound, s.stages i = .read cutoff bound →
    Covered number time cutoff bound s.rows
  raised : ∀ i cutoff, s.stages i = .raised cutoff → Covered number time cutoff s.floor s.rows

theorem update_cases {stages : Nat → Stage} {i j : Nat} {stage stage' : Stage}
    (h : Function.update stages j stage i = stage') : stage = stage' ∨ stages i = stage' := by
  rw [Function.update_apply] at h
  split at h
  · exact .inl h
  · exact .inr h

theorem Kept.step (h : Kept number time s) (hstep : Step number time s s') :
    Kept number time s' := by
  cases hstep with
  | same => exact h
  | write new hfresh =>
    refine ⟨h.agree.append new, fun i c n hi => ?_, fun i c hi => ?_⟩
    · exact (h.read i c n hi).append (hfresh i c (by rw [hi]; rfl))
    · exact (h.raised i c hi).append (hfresh i c (by rw [hi]; rfl))
  | restart new floor hfresh =>
    refine ⟨.refl new, fun i c n hi => ?_, fun i c hi => ?_⟩
    · exact covered_fresh n (hfresh i c (by rw [hi]; rfl))
    · exact covered_fresh floor (hfresh i c (by rw [hi]; rfl))
  | read j cutoff bound hstage hcovered =>
    refine ⟨h.agree, fun i c n hi => ?_, fun i c hi => ?_⟩
    · rcases update_cases hi with heq | hi
      · cases heq
        exact hcovered
      · exact h.read i c n hi
    · rcases update_cases hi with heq | hi
      · cases heq
      · exact h.raised i c hi
  | raise j cutoff bound floor hstage hle hbound =>
    refine ⟨h.agree.mono hle, fun i c n hi => ?_, fun i c hi => ?_⟩
    · rcases update_cases hi with heq | hi
      · cases heq
      · exact h.read i c n hi
    · rcases update_cases hi with heq | hi
      · cases heq
        exact hbound (h.read j _ _ hstage)
      · exact (h.raised i c hi).mono hle
  | delete j cutoff hstage =>
    refine ⟨h.agree.delete (h.raised j cutoff hstage), fun i c n hi => ?_, fun i c hi => ?_⟩
    · rcases update_cases hi with heq | hi
      · cases heq
      · exact (h.read i c n hi).subset fun r hr => List.mem_of_mem_filter hr
    · rcases update_cases hi with heq | hi
      · cases heq
      · exact (h.raised i c hi).subset fun r hr => List.mem_of_mem_filter hr

/-- A floor read earlier still does, as long as only sweeps of `early` delete. -/
structure Held (number time : α → Nat) (floor : Nat) (early : Nat → Prop) (s : State α) : Prop where
  agree : Agree number floor s.rows s.whole
  early : ∀ i, early i → s.stages i = .done ∨
    ∃ cutoff, s.stages i = .raised cutoff ∧ Covered number time cutoff floor s.rows

def State.Early (s : State α) (i : Nat) : Prop := ∃ cutoff, s.stages i = .raised cutoff

theorem Kept.held (h : Kept number time s) : Held number time s.floor s.Early s :=
  ⟨h.agree, fun i ⟨cutoff, hi⟩ => .inr ⟨cutoff, hi, h.raised i cutoff hi⟩⟩

theorem Held.step {floor : Nat} {early : Nat → Prop} (h : Held number time floor early s)
    (hstep : Step number time s s')
    (hearly : ∀ i cutoff, s.stages i = .raised cutoff → s'.stages i = .done → early i) :
    Held number time floor early s' := by
  -- A stage that moves and is not done yet is not one of `early`.
  have hother : ∀ (i j : Nat) (stage : Stage), early i → (∀ c, s.stages j ≠ .raised c) →
      s.stages j ≠ .done → Function.update s.stages j stage i = s.stages i := by
    intro i j stage hi hnot hdone
    refine Function.update_of_ne ?_ stage s.stages
    rintro rfl
    rcases h.early i hi with hd | ⟨c, hc, -⟩
    · exact hdone hd
    · exact hnot c hc
  cases hstep with
  | same => exact h
  | write new hfresh =>
    refine ⟨h.agree.append new, fun i hi => (h.early i hi).imp id ?_⟩
    rintro ⟨c, hc, hcov⟩
    exact ⟨c, hc, hcov.append (hfresh i c (by rw [hc]; rfl))⟩
  | restart new floor' hfresh =>
    refine ⟨.refl new, fun i hi => (h.early i hi).imp id ?_⟩
    rintro ⟨c, hc, -⟩
    exact ⟨c, hc, covered_fresh floor (hfresh i c (by rw [hc]; rfl))⟩
  | read j cutoff bound hstage hcovered =>
    refine ⟨h.agree, fun i hi => ?_⟩
    have hsame := hother i j (.read cutoff bound) hi (by simp [hstage]) (by simp [hstage])
    simp only [hsame]
    exact h.early i hi
  | raise j cutoff bound floor' hstage hle hbound =>
    refine ⟨h.agree, fun i hi => ?_⟩
    have hsame := hother i j (.raised cutoff) hi (by simp [hstage]) (by simp [hstage])
    simp only [hsame]
    exact h.early i hi
  | delete j cutoff hstage =>
    have hj : early j := hearly j cutoff hstage (by simp)
    have hcov : Covered number time cutoff floor s.rows := by
      rcases h.early j hj with hd | ⟨c, hc, hcov⟩
      · cases hstage.symm.trans hd
      · cases hstage.symm.trans hc
        exact hcov
    refine ⟨h.agree.delete hcov, fun i hi => ?_⟩
    by_cases hij : i = j
    · subst hij
      exact .inl (Function.update_self _ _ _)
    · simp only [Function.update_of_ne hij]
      refine (h.early i hi).imp id ?_
      rintro ⟨c, hc, hcov'⟩
      exact ⟨c, hc, hcov'.subset fun r hr => List.mem_of_mem_filter hr⟩

end Ionosphere.Lib.Ledger
