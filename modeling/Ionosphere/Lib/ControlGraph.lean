import Mathlib.Logic.Relation

/-! Control points and data. A step goes from a point with a datum to another; a run is a walk
to a final configuration. A part of the graph between two points implements a relation on the
data when the runs through it are those that relation allows. -/
namespace Ionosphere.Lib

/-- `n` steps of a relation. -/
def Iterate {δ : Type} (R : δ → δ → Prop) : Nat → δ → δ → Prop
  | 0, d, d' => d = d'
  | n + 1, d, d' => ∃ e, R d e ∧ Iterate R n e d'

theorem iterate_add {δ : Type} {R : δ → δ → Prop} {m n : Nat} {d d' : δ} :
    Iterate R (m + n) d d' ↔ ∃ e, Iterate R m d e ∧ Iterate R n e d' := by
  induction m generalizing d with
  | zero =>
    rw [Nat.zero_add]
    constructor
    · intro h
      exact ⟨d, rfl, h⟩
    · rintro ⟨e, rfl, h⟩
      exact h
  | succ m ih =>
    rw [Nat.succ_add]
    constructor
    · rintro ⟨c, hdc, hrest⟩
      obtain ⟨e, hce, hed⟩ := ih.mp hrest
      exact ⟨e, ⟨c, hdc, hce⟩, hed⟩
    · rintro ⟨e, ⟨c, hdc, hce⟩, hed⟩
      exact ⟨c, hdc, ih.mpr ⟨e, hce, hed⟩⟩

/-- A graph of control points over data of type `δ`. -/
structure ControlGraph (κ δ : Type) where
  next : κ → δ → κ → δ → Prop
  final : κ → δ → Prop

namespace ControlGraph

variable {κ δ : Type} (G : ControlGraph κ δ)

/-- A walk of that many steps to a final configuration. -/
inductive Run : Nat → κ → δ → Prop
  | done {p : κ} {d : δ} : G.final p d → Run 0 p d
  | step {k : Nat} {p q : κ} {d d' : δ} : G.next p d q d' → Run k q d' → Run (k + 1) p d

/-- What can be reached from the configurations of `start`. -/
inductive Reached (start : κ → δ → Prop) : κ → δ → Prop
  | start {p : κ} {d : δ} : start p d → Reached start p d
  | step {p q : κ} {d d' : δ} : Reached start p d → G.next p d q d' → Reached start q d'

theorem exists_run_iff (start : κ → δ → Prop) :
    (∃ p d k, start p d ∧ G.Run k p d) ↔ ∃ p d, G.Reached start p d ∧ G.final p d := by
  constructor
  · rintro ⟨p, d, k, hstart, hrun⟩
    have hall : ∀ {k p d}, G.Run k p d → G.Reached start p d →
        ∃ p d, G.Reached start p d ∧ G.final p d := by
      intro k p d hrun
      induction hrun with
      | done hfinal => exact fun hreached => ⟨_, _, hreached, hfinal⟩
      | step hnext _ ih => exact fun hreached => ih (.step hreached hnext)
    exact hall hrun (.start hstart)
  · rintro ⟨p, d, hreached, hfinal⟩
    have hall : ∀ {p d}, G.Reached start p d → (∃ k, G.Run k p d) →
        ∃ p d k, start p d ∧ G.Run k p d := by
      intro p d hreached
      induction hreached with
      | start hstart => exact fun ⟨k, hrun⟩ => ⟨_, _, k, hstart, hrun⟩
      | step _ hnext ih => exact fun ⟨k, hrun⟩ => ih ⟨k + 1, .step hnext hrun⟩
    exact hall hreached ⟨0, .done hfinal⟩

/-- Runs from `s` pass through `e`, and on the way the data changes by `R`. -/
structure Implements (R : δ → δ → Prop) (s e : κ) : Prop where
  sound : ∀ {k d}, G.Run k s d → ∃ d' k', k' ≤ k ∧ R d d' ∧ G.Run k' e d'
  complete : ∀ {k d d'}, R d d' → G.Run k e d' → ∃ k', G.Run k' s d

variable {G} {R T : δ → δ → Prop} {s m e : κ}

theorem Implements.congr (h : G.Implements R s e) (hRT : ∀ d d', R d d' ↔ T d d') :
    G.Implements T s e := by
  have heq : R = T := by
    funext d d'
    exact propext (hRT d d')
  rwa [heq] at h

theorem Implements.refl (s : κ) : G.Implements Eq s s where
  sound hrun := ⟨_, _, Nat.le_refl _, rfl, hrun⟩
  complete := by
    rintro k d _ rfl hrun
    exact ⟨k, hrun⟩

theorem Implements.comp (h : G.Implements R s m) (h' : G.Implements T m e) :
    G.Implements (Relation.Comp R T) s e where
  sound hrun := by
    obtain ⟨d₁, k₁, hk₁, hR, hmid⟩ := h.sound hrun
    obtain ⟨d₂, k₂, hk₂, hT, hend⟩ := h'.sound hmid
    exact ⟨d₂, k₂, Nat.le_trans hk₂ hk₁, ⟨d₁, hR, hT⟩, hend⟩
  complete := by
    rintro k d d₂ ⟨d₁, hR, hT⟩ hrun
    obtain ⟨k₁, hmid⟩ := h'.complete hT hrun
    exact h.complete hR hmid

theorem Implements.single (hfinal : ∀ d, ¬ G.final s d)
    (hnext : ∀ d q d', G.next s d q d' ↔ q = e ∧ R d d') : G.Implements R s e where
  sound hrun := by
    cases hrun with
    | done h => exact absurd h (hfinal _)
    | step h hrest =>
      obtain ⟨rfl, hR⟩ := (hnext _ _ _).mp h
      exact ⟨_, _, Nat.le_succ _, hR, hrest⟩
  complete hR hrun := ⟨_, .step ((hnext _ _ _).mpr ⟨rfl, hR⟩) hrun⟩

section Branch

variable {a b : κ} (hnext : ∀ d q d', G.next s d q d' ↔ (q = a ∨ q = b) ∧ d' = d)

include hnext

theorem run_left {k : Nat} {d : δ} (hrun : G.Run k a d) : G.Run (k + 1) s d :=
  .step ((hnext _ _ _).mpr ⟨.inl rfl, rfl⟩) hrun

theorem run_right {k : Nat} {d : δ} (hrun : G.Run k b d) : G.Run (k + 1) s d :=
  .step ((hnext _ _ _).mpr ⟨.inr rfl, rfl⟩) hrun

variable (hfinal : ∀ d, ¬ G.final s d)

include hfinal

theorem run_branch {k : Nat} {d : δ} (hrun : G.Run k s d) :
    ∃ k', k = k' + 1 ∧ (G.Run k' a d ∨ G.Run k' b d) := by
  cases hrun with
  | done h => exact absurd h (hfinal _)
  | step h hrest =>
    obtain ⟨rfl | rfl, rfl⟩ := (hnext _ _ _).mp h
    · exact ⟨_, rfl, .inl hrest⟩
    · exact ⟨_, rfl, .inr hrest⟩

theorem Implements.branch (ha : G.Implements R a e) (hb : G.Implements T b e) :
    G.Implements (fun d d' => R d d' ∨ T d d') s e where
  sound hrun := by
    obtain ⟨k', rfl, hleft | hright⟩ := run_branch hnext hfinal hrun
    · obtain ⟨d', k₁, hk₁, hR, hend⟩ := ha.sound hleft
      exact ⟨d', k₁, Nat.le_succ_of_le hk₁, .inl hR, hend⟩
    · obtain ⟨d', k₁, hk₁, hT, hend⟩ := hb.sound hright
      exact ⟨d', k₁, Nat.le_succ_of_le hk₁, .inr hT, hend⟩
  complete := by
    rintro k d d' (hR | hT) hrun
    · obtain ⟨k', hstart⟩ := ha.complete hR hrun
      exact ⟨_, run_left hnext hstart⟩
    · obtain ⟨k', hstart⟩ := hb.complete hT hrun
      exact ⟨_, run_right hnext hstart⟩

/-- A loop: the body begins at `a` and goes back to `s`, and `b` is the way out. Rounds that
leave the data as it was are rounds like any other. -/
theorem Implements.loop (hbody : G.Implements R a s) :
    G.Implements (fun d d' => ∃ n, Iterate R n d d') s b where
  sound := by
    intro k
    induction k using Nat.strongRecOn with
    | ind k ih =>
      intro d hrun
      obtain ⟨k', rfl, hleft | hright⟩ := run_branch hnext hfinal hrun
      · obtain ⟨d₁, k₁, hk₁, hR, hback⟩ := hbody.sound hleft
        obtain ⟨d₂, k₂, hk₂, ⟨n, hn⟩, hend⟩ := ih k₁ (Nat.lt_succ_of_le hk₁) hback
        exact ⟨d₂, k₂, by omega, ⟨n + 1, d₁, hR, hn⟩, hend⟩
      · exact ⟨d, k', Nat.le_succ k', ⟨0, rfl⟩, hright⟩
  complete := by
    rintro k d d' ⟨n, hn⟩ hrun
    induction n generalizing d with
    | zero =>
      obtain rfl := hn
      exact ⟨_, run_right hnext hrun⟩
    | succ n ih =>
      obtain ⟨d₁, hR, hrest⟩ := hn
      obtain ⟨k₁, hround⟩ := ih hrest
      obtain ⟨k₂, hstart⟩ := hbody.complete hR hround
      exact ⟨_, run_left hnext hstart⟩

end Branch

end ControlGraph

end Ionosphere.Lib
