import Mathlib.Data.List.Basic

/-! Histories of a machine that moves one step at a time. `act` is the machine, `ok`
says when a move may be made; a history lists each move with the state it is made in. -/
namespace Ionosphere.Lib.Trace

structure Moment (σ μ : Type*) where
  state : σ
  move : μ

section

variable {σ μ α : Type*} (act : μ → σ → σ × List α) (ok : σ → μ → Prop)

inductive Linked : σ → List (Moment σ μ) → σ → Prop
  | nil (e : σ) : Linked e [] e
  | cons {e e' : σ} {m : μ} {ms : List (Moment σ μ)} (hok : ok e m)
      (hrest : Linked (act m e).1 ms e') : Linked e (⟨e, m⟩ :: ms) e'

def outputs (ms : List (Moment σ μ)) : List α := ms.flatMap fun m => (act m.move m.state).2

variable {act ok} {e e' e'' : σ} {ms ms' : List (Moment σ μ)}

theorem Linked.one {m : μ} (hok : ok e m) : Linked act ok e [⟨e, m⟩] (act m e).1 :=
  .cons hok (.nil _)

theorem Linked.append (h : Linked act ok e ms e') (h' : Linked act ok e' ms' e'') :
    Linked act ok e (ms ++ ms') e'' := by
  induction h with
  | nil e => exact h'
  | cons hok _ ih => exact .cons hok (ih h')

theorem Linked.split (h : Linked act ok e (ms ++ ms') e'') :
    ∃ e', Linked act ok e ms e' ∧ Linked act ok e' ms' e'' := by
  induction ms generalizing e with
  | nil => exact ⟨e, .nil e, h⟩
  | cons m ms ih =>
    cases h with
    | cons hok hrest =>
      obtain ⟨e', hfirst, hlast⟩ := ih hrest
      exact ⟨e', .cons hok hfirst, hlast⟩

theorem outputs_append (ms ms' : List (Moment σ μ)) :
    outputs act (ms ++ ms') = outputs act ms ++ outputs act ms' := List.flatMap_append

theorem outputs_cons (m : Moment σ μ) (ms : List (Moment σ μ)) :
    outputs act (m :: ms) = (act m.move m.state).2 ++ outputs act ms := List.flatMap_cons

/-- The moments of a call that returns `r`, in a state and with the outputs so far. -/
structure Cut (act : μ → σ → σ × List α) (ok : σ → μ → Prop) (e : σ) (ms : List (Moment σ μ))
    (r : σ × List α) : Prop where
  linked : Linked act ok e ms r.1
  said : outputs act ms = r.2

theorem Cut.nil (e : σ) : Cut act ok e [] (e, []) := ⟨.nil e, rfl⟩

theorem Cut.cons {m : μ} {r : σ × List α} (hok : ok e m) (h : Cut act ok (act m e).1 ms r) :
    Cut act ok e (⟨e, m⟩ :: ms) (r.1, (act m e).2 ++ r.2) :=
  ⟨.cons hok h.linked, by rw [outputs_cons, h.said]⟩

theorem Cut.one {m : μ} {r : σ × List α} (hok : ok e m) (hact : act m e = r) :
    Cut act ok e [⟨e, m⟩] r := by
  rw [← hact]
  exact ⟨.one hok, List.append_nil _⟩

theorem Cut.append {r r' : σ × List α} (h : Cut act ok e ms r) (h' : Cut act ok r.1 ms' r') :
    Cut act ok e (ms ++ ms') (r'.1, r.2 ++ r'.2) :=
  ⟨h.linked.append h'.linked, by rw [outputs_append, h.said, h'.said]⟩

/-- What cuts each call cuts a run of calls, when the calls keep `P`. -/
theorem Cut.run {ι : Type*} {P : σ → Prop} (step : ι → σ → Option (σ × List α))
    (moments : ι → σ → List (Moment σ μ)) {run : σ → List ι → Option (σ × List (List α))}
    {runMoments : σ → List ι → List (Moment σ μ)} (hnil : ∀ e, run e [] = some (e, []))
    (hcons : ∀ e i is, run e (i :: is) =
      (step i e).bind fun r => (run r.1 is).map fun p => (p.1, r.2 :: p.2))
    (hmnil : ∀ e, runMoments e [] = [])
    (hmcons : ∀ e i is r, step i e = some r →
      runMoments e (i :: is) = moments i e ++ runMoments r.1 is)
    (hstep : ∀ i e r, P e → step i e = some r → Cut act ok e (moments i e) r ∧ P r.1)
    {is : List ι} {acts : List (List α)} (hP : P e) (h : run e is = some (e', acts)) :
    Cut act ok e (runMoments e is) (e', acts.flatten) ∧ P e' := by
  induction is generalizing e acts with
  | nil =>
    rw [hnil] at h
    cases h
    rw [hmnil]
    exact ⟨.nil _, hP⟩
  | cons i is ih =>
    rw [hcons] at h
    obtain ⟨r, hr, h⟩ := Option.bind_eq_some_iff.mp h
    obtain ⟨⟨e₂, acts₂⟩, hrest, heq⟩ := Option.map_eq_some_iff.mp h
    cases heq
    obtain ⟨hfirst, hmid⟩ := hstep i e r hP hr
    obtain ⟨hlast, hend⟩ := ih hmid hrest
    rw [hmcons e i is r hr]
    exact ⟨hfirst.append hlast, hend⟩

theorem first_unique {P : Moment σ μ → Prop} {past past' rest rest' : List (Moment σ μ)}
    {m m' : Moment σ μ} (h : past ++ m :: rest = past' ++ m' :: rest') (hm : P m) (hm' : P m')
    (hpast : ∀ n ∈ past, ¬ P n) (hpast' : ∀ n ∈ past', ¬ P n) :
    past = past' ∧ m = m' ∧ rest = rest' := by
  induction past generalizing past' with
  | nil =>
    cases past' with
    | nil => simpa using h
    | cons n past' =>
      obtain ⟨rfl, -⟩ := List.cons.inj h
      exact absurd hm (hpast' m List.mem_cons_self)
  | cons n past ih =>
    cases past' with
    | nil =>
      obtain ⟨rfl, -⟩ := List.cons.inj h
      exact absurd hm' (hpast n List.mem_cons_self)
    | cons n' past' =>
      obtain ⟨rfl, hrest⟩ := List.cons.inj h
      obtain ⟨rfl, hboth⟩ := ih hrest (fun x hx => hpast x (List.mem_cons_of_mem _ hx))
        fun x hx => hpast' x (List.mem_cons_of_mem _ hx)
      exact ⟨rfl, hboth⟩

theorem Linked.invariant {P : σ → Prop} (h : Linked act ok e ms e') (hstart : P e)
    (hstep : ∀ m ∈ ms, ok m.state m.move → P m.state → P (act m.move m.state).1) :
    (∀ m ∈ ms, ok m.state m.move ∧ P m.state) ∧ P e' := by
  induction h with
  | nil e => exact ⟨by simp, hstart⟩
  | @cons e e' m ms hok hrest ih =>
    have hnext := hstep ⟨e, m⟩ (by simp) hok hstart
    obtain ⟨hlater, hend⟩ := ih hnext fun n hn => hstep n (List.mem_cons_of_mem _ hn)
    refine ⟨fun n hn => ?_, hend⟩
    obtain rfl | hn := List.mem_cons.mp hn
    · exact ⟨hok, hstart⟩
    · exact hlater n hn

theorem Linked.history {P : List (Moment σ μ) → σ → Prop} (h : Linked act ok e ms e')
    (hstart : P [] e)
    (hstep : ∀ past m, m ∈ ms → ok m.state m.move → P past m.state →
      P (past ++ [m]) (act m.move m.state).1) :
    P ms e' := by
  suffices hgen : ∀ past, P past e → P (past ++ ms) e' by
    simpa using hgen [] hstart
  clear hstart
  induction h with
  | nil e => exact fun past hpast => by simpa using hpast
  | @cons e e' m ms hok hrest ih =>
    intro past hpast
    have hnext := hstep past ⟨e, m⟩ (by simp) hok hpast
    have hend := ih (fun past n hn => hstep past n (List.mem_cons_of_mem _ hn)) _ hnext
    rw [List.append_assoc] at hend
    exact hend

end

end Ionosphere.Lib.Trace
