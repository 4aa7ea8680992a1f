import Mathlib.Data.List.Basic

/-! Runs of a system whose moves may be impossible: a schedule lists the moves in the order
they are made. Conditions on a run are conditions on every move and the state it is made in. -/
namespace Ionosphere.Lib.Schedule

section

variable {σ μ : Type*} (step : μ → σ → Option σ)

def run : List μ → σ → Option σ
  | [], s => some s
  | m :: ms, s => (step m s).bind (run ms)

/-- Every move meets the condition, in the state it is made in. -/
def Always (ok : σ → μ → Prop) : List μ → σ → Prop
  | [], _ => True
  | m :: ms, s => ok s m ∧ ∀ s', step m s = some s' → Always ok ms s'

variable {step} {ok ok' : σ → μ → Prop} {ms ms' : List μ} {s s' : σ}

theorem always_of_all (h : ∀ m ∈ ms, ∀ s, ok s m) (s : σ) : Always step ok ms s := by
  induction ms generalizing s with
  | nil => trivial
  | cons m ms ih =>
    rw [List.forall_mem_cons] at h
    exact ⟨h.1 s, fun s' _ => ih h.2 s'⟩

theorem Always.and (h : Always step ok ms s) (h' : Always step ok' ms s) :
    Always step (fun s m => ok s m ∧ ok' s m) ms s := by
  induction ms generalizing s with
  | nil => trivial
  | cons m ms ih => exact ⟨⟨h.1, h'.1⟩, fun s' hs' => ih (h.2 s' hs') (h'.2 s' hs')⟩

/-- A condition that can be decided can be decided along a run. -/
instance decidableAlways [∀ s m, Decidable (ok s m)] :
    ∀ (ms : List μ) (s : σ), Decidable (Always step ok ms s)
  | [], _ => .isTrue trivial
  | m :: ms, s =>
    match hs : step m s with
    | none => decidable_of_iff (ok s m) ⟨fun h => ⟨h, by simp [hs]⟩, fun h => h.1⟩
    | some s' =>
      have := decidableAlways ms s'
      decidable_of_iff (ok s m ∧ Always step ok ms s')
        ⟨fun h => ⟨h.1, by simpa [hs] using h.2⟩, fun h => ⟨h.1, h.2 s' hs⟩⟩

theorem Always.drop (h : Always step ok (ms ++ ms') s) (hrun : run step ms s = some s') :
    Always step ok ms' s' := by
  induction ms generalizing s with
  | nil =>
    cases hrun
    exact h
  | cons m ms ih =>
    obtain ⟨s₁, hs₁, hrun⟩ := Option.bind_eq_some_iff.mp hrun
    exact ih (h.2 s₁ hs₁) hrun

theorem Always.invariant {P : σ → Prop} (h : Always step ok ms s) (hstart : P s)
    (hstep : ∀ s m s', P s → ok s m → step m s = some s' → P s') (hrun : run step ms s = some s') :
    P s' := by
  induction ms generalizing s with
  | nil =>
    cases hrun
    exact hstart
  | cons m ms ih =>
    obtain ⟨s₁, hs₁, hrun⟩ := Option.bind_eq_some_iff.mp hrun
    exact ih (h.2 s₁ hs₁) (hstep s m s₁ hstart h.1 hs₁) hrun

theorem Always.imp {P : σ → Prop} (h : Always step ok ms s) (hstart : P s)
    (hstep : ∀ s m s', P s → ok s m → step m s = some s' → P s')
    (himp : ∀ s m, P s → ok s m → ok' s m) : Always step ok' ms s := by
  induction ms generalizing s with
  | nil => trivial
  | cons m ms ih =>
    exact ⟨himp s m hstart h.1, fun s' hs' => ih (h.2 s' hs') (hstep s m s' hstart h.1 hs')⟩

end

end Ionosphere.Lib.Schedule
