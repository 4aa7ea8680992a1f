import Ionosphere.MailAuth.SpfRules

/-! What a check may cost: every counted term that is let through pays for the questions it leads
to, and nests no deeper than the terms that are left. -/
namespace Ionosphere.MailAuth

open Ionosphere.Js Ionosphere.Lib

/-- The terms let through are the first ten that are counted. -/
def Charged (c : EvalCtx) : Prop := c.carried = min c.lookups 10

/-- At most `k` questions more than the terms let through pay for, thirteen each; and no end of
the bound on nesting where `n` levels and the terms so far make eleven. -/
def Within {α : Type} (k n : Nat) (x : SpfM α) : Prop := ∀ c, Charged c →
  Charged (x c).2 ∧ c.carried ≤ (x c).2.carried ∧
    (x c).2.queries + 13 * c.carried ≤ c.queries + k + 13 * (x c).2.carried ∧
      (11 ≤ n + c.carried → (x c).1 ≠ .error .exhausted)

section

variable {α β : Type} {k l n : Nat}

theorem within_pure (a : α) : Within k n (pure a : SpfM α) :=
  fun c hc => ⟨hc, Nat.le_refl _, by simp, fun _ h => by cases h⟩

theorem within_fail {e : SpfThrown} (h : e ≠ .exhausted) : Within k n (Trial.fail e : SpfM α) :=
  fun c hc => ⟨hc, Nat.le_refl _, by simp, fun _ heq => h (Except.error.inj heq)⟩

theorem within_change {f : EvalCtx → EvalCtx} (hlookups : ∀ c, (f c).lookups = c.lookups)
    (hcarried : ∀ c, (f c).carried = c.carried) (hqueries : ∀ c, (f c).queries ≤ c.queries + k) :
    Within k n (Trial.change f) := by
  intro c hc
  have hc' : Charged (f c) := by rw [Charged, hcarried, hlookups, hc]
  have hmore := hqueries c
  rw [Trial.change_run]
  dsimp only
  rw [hcarried]
  exact ⟨hc', Nat.le_refl _, by omega, fun _ h => by cases h⟩

theorem within_bind {x : SpfM α} {f : α → SpfM β} (hx : Within k n x)
    (hf : ∀ a, Within l n (f a)) : Within (k + l) n (x >>= f) := by
  intro c hc
  obtain ⟨hsound, hmore, hcost, hdeep⟩ := hx c hc
  rw [Trial.bind_run]
  rcases hrun : x c with ⟨e | a, c'⟩
  · rw [hrun] at hsound hmore hcost hdeep
    exact ⟨hsound, hmore, by dsimp only [Trial.andThen] at hcost ⊢; omega,
      fun hn heq => hdeep hn (congrArg Except.error (Except.error.inj heq))⟩
  · rw [hrun] at hsound hmore hcost
    obtain ⟨hsound', hmore', hcost', hdeep'⟩ := hf a c' hsound
    rw [Trial.andThen_ok]
    dsimp only at hmore hcost
    exact ⟨hsound', by omega, by omega, fun hn => hdeep' (by omega)⟩

theorem within_recover {x : SpfM α} {handler : SpfThrown → SpfM α} (hx : Within k n x)
    (hh : ∀ e, Within 0 n (handler e)) : Within k n (Trial.recover x handler) := by
  intro c hc
  obtain ⟨hsound, hmore, hcost, -⟩ := hx c hc
  unfold Trial.recover
  rcases hrun : x c with ⟨e | a, c'⟩
  · rw [hrun] at hsound hmore hcost
    obtain ⟨hsound', hmore', hcost', hdeep'⟩ := hh e c' hsound
    dsimp only at hmore hcost ⊢
    exact ⟨hsound', by omega, by omega, fun hn => hdeep' (by omega)⟩
  · rw [hrun] at hsound hmore hcost
    exact ⟨hsound, hmore, hcost, fun _ h => by cases h⟩

theorem within_state {f : EvalCtx → SpfM β} (hf : ∀ c, Within k n (f c)) :
    Within k n (Trial.state >>= f) := fun c hc => hf c c hc

theorem within_mono {x : SpfM α} (hk : k ≤ l) (h : Within k n x) : Within l n x := by
  intro c hc
  obtain ⟨hsound, hmore, hcost, hdeep⟩ := h c hc
  exact ⟨hsound, hmore, by omega, hdeep⟩

theorem countLookup_run (c : EvalCtx) :
    (10 < c.lookups + 1 ∧ ∃ message, countLookup c =
      (.error (.evalError .permerror message), { c with lookups := c.lookups + 1 })) ∨
    (c.lookups + 1 ≤ 10 ∧ countLookup c =
      (.ok (), { c with lookups := c.lookups + 1, carried := c.carried + 1 })) := by
  unfold countLookup
  rw [Trial.bind_run, Trial.change_run, Trial.andThen_ok, Trial.bind_run, Trial.state_run,
    Trial.andThen_ok]
  dsimp only
  by_cases hover : 10 < c.lookups + 1
  · rw [if_pos hover]
    exact .inl ⟨hover, _, rfl⟩
  · rw [if_neg hover]
    exact .inr ⟨by omega, rfl⟩

theorem within_counted {f : Unit → SpfM β} (hf : Within 13 (n - 1) (f ())) :
    Within 0 n (countLookup >>= f) := by
  intro c hc
  unfold Charged at hc
  rw [Trial.bind_run]
  obtain ⟨hover, message, hrun⟩ | ⟨hunder, hrun⟩ := countLookup_run c
  · rw [hrun, Trial.andThen_error]
    refine ⟨?_, Nat.le_refl _, by simp, fun _ h => by cases h⟩
    simp only [Charged]
    omega
  · rw [hrun, Trial.andThen_ok]
    obtain ⟨hsound, hmore, hcost, hdeep⟩ :=
      hf { c with lookups := c.lookups + 1, carried := c.carried + 1 } (by
        simp only [Charged]
        omega)
    dsimp only at hmore hcost hdeep
    exact ⟨hsound, by omega, by omega, fun hn => hdeep (by omega)⟩

theorem within_anti {m : Nat} {x : SpfM α} (hn : m ≤ n) (h : Within k n x) : Within k m x := by
  intro c hc
  obtain ⟨hsound, hmore, hcost, hdeep⟩ := h c hc
  exact ⟨hsound, hmore, hcost, fun hm => hdeep (by omega)⟩

end

theorem within_rules (n : Nat) : SpfRules fun k x => Within k n x where
  pure := within_pure
  fail := within_fail
  bind := within_bind
  recover := within_recover
  mono := within_mono
  ask answer := within_bind (k := 1) (l := 0) (within_change (fun _ => rfl) (fun _ => rfl)
    fun _ => Nat.le_refl _) fun _ => within_pure answer
  void := by
    refine within_bind (k := 0) (l := 0) (within_change (fun _ => rfl) (fun _ => rfl)
      fun _ => Nat.le_refl _) fun _ => within_state fun c => ?_
    split
    · exact within_fail (by simp)
    · exact within_pure ()
  counted h := within_counted (within_anti (Nat.sub_le _ _) h)
  cached mctx h := by
    refine within_state fun c => ?_
    split
    · exact within_pure _
    · exact within_bind (k := 0) (l := 0) h fun value => within_bind (k := 0) (l := 0)
        (within_change (fun _ => rfl) (fun _ => rfl) fun _ => Nat.le_refl _) fun _ => within_pure _

theorem within_explainFail (n : Nat) (outcome : SpfResultValue) (expSpec : Option Text)
    (mctx : MacroCtx) : Within 1 n (explainFail outcome expSpec mctx) := by
  have R := within_rules n
  unfold explainFail
  split
  · refine R.recover (R.bind (R.expandDomainSpec _ mctx) fun domain =>
      R.bind (l := 0) (R.resolved _) fun txts => ?_) fun _ => R.pure _
    split
    · exact R.pure _
    · refine R.bind (l := 0) (R.expandMacros _ mctx true) fun expanded => ?_
      split
      · exact R.pure _
      · exact within_change (fun _ => rfl) (fun _ => rfl) fun _ => Nat.le_refl _
  · exact R.mono (by decide) (R.pure _)

theorem within_evalMechanisms (u : CaseMap) {n : Nat} {host : Text → SpfM SpfResultValue}
    (hhost : ∀ domain, Within 2 (n - 1) (host domain)) (expSpec : Option Text) (mctx : MacroCtx)
    (mechs : List Mechanism) : Within 1 n (evalMechanisms u host expSpec mctx mechs) := by
  have R := within_rules n
  have S := within_rules (n - 1)
  have hinclude : ∀ arg, Within 0 n (evalMechanism u host (.include arg) mctx) := by
    intro arg
    exact within_counted (S.mono (by decide : 0 + (2 + 0) ≤ 13)
      (S.bind (S.expandDomainSpec arg mctx) fun domain => S.bind (hhost domain) fun _ => S.pure _))
  induction mechs with
  | nil => exact R.mono (by decide) (R.pure _)
  | cons mech mechs ih =>
    refine R.bind (k := 0) (l := 1) (R.evalMechanism u hinclude mech.type) fun matched => ?_
    split
    · exact R.bind (l := 0) (within_explainFail n _ expSpec mctx) fun _ => R.pure _
    · exact ih

theorem within_checkHostInner (u : CaseMap) (n : Nat) (mb : MacroCtx) (domain : Text)
    (isTop : Bool) : Within 2 n (checkHostInner u n mb domain isTop) := by
  induction n generalizing mb domain isTop with
  | zero =>
    intro c hc
    have hten := hc
    unfold Charged at hten
    exact ⟨hc, Nat.le_refl _, by simp [checkHostInner], fun h => by omega⟩
  | succ n ih =>
    have R := within_rules (n + 1)
    have S := within_rules n
    unfold checkHostInner
    split
    · refine R.bind (k := 1) (l := 1) (R.fetchSpfRecord _ _ _) fun record => ?_
      split
      · split
        · exact R.mono (by decide) (R.pure _)
        · exact R.mono (by decide) (R.evalError _ _)
      · unfold evaluateRecord
        dsimp only
        split
        · exact R.mono (by decide) (R.evalError _ _)
        · refine R.bind (k := 1) (l := 0) (within_evalMechanisms u (n := n + 1)
            (fun domain => ih _ _ _) _ _ _)
            fun outcome => ?_
          split
          · exact R.pure _
          · split
            · exact R.pure _
            · exact within_counted (S.mono (by decide : 0 + 2 ≤ 13)
                (S.bind (S.expandDomainSpec _ _) fun domain => ih _ _ _))
    · split
      · exact R.mono (by decide) (R.pure _)
      · exact R.mono (by decide) (R.evalError _ _)

/-- The evaluation that a check is made of ends by itself, lets ten terms through at most and asks
at most 132 questions, whatever the zone answers. -/
theorem spf_budget (u : CaseMap) (mb : MacroCtx) (domain : Text) :
    (checkHostInner u nestingLimit mb domain true {}).1 ≠ .error .exhausted ∧
      (checkHostInner u nestingLimit mb domain true {}).2.carried ≤ 10 ∧
      (checkHostInner u nestingLimit mb domain true {}).2.queries ≤ 132 := by
  obtain ⟨hcharged, -, hcost, hdeep⟩ :=
    within_checkHostInner u nestingLimit mb domain true {} rfl
  unfold Charged at hcharged
  have hstart : ({} : EvalCtx).queries = 0 ∧ ({} : EvalCtx).carried = 0 := ⟨rfl, rfl⟩
  exact ⟨hdeep (by decide), by omega, by omega⟩

end Ionosphere.MailAuth
