import Mathlib.Data.List.Basic

/-! Computations with a state that may fail. The state survives a failure, so that a caller
that catches it goes on from where the computation stopped. -/
namespace Ionosphere.Lib

def Trial (σ ε α : Type) : Type := σ → Except ε α × σ

namespace Trial

variable {σ τ ε α β γ : Type}

def andThen (r : Except ε α × σ) (f : α → Trial σ ε β) : Except ε β × σ :=
  match r with
  | (.ok a, s) => f a s
  | (.error e, s) => (.error e, s)

instance : Monad (Trial σ ε) where
  pure a := fun s => (.ok a, s)
  bind x f := fun s => andThen (x s) f

def fail (e : ε) : Trial σ ε α := fun s => (.error e, s)

def recover (x : Trial σ ε α) (handler : ε → Trial σ ε α) : Trial σ ε α := fun s =>
  match x s with
  | (.ok a, s') => (.ok a, s')
  | (.error e, s') => handler e s'

def state : Trial σ ε σ := fun s => (.ok s, s)

def change (f : σ → σ) : Trial σ ε Unit := fun s => (.ok (), f s)

@[simp] theorem pure_run (a : α) (s : σ) : (pure a : Trial σ ε α) s = (.ok a, s) := rfl

@[simp] theorem bind_run (x : Trial σ ε α) (f : α → Trial σ ε β) (s : σ) :
    (x >>= f) s = andThen (x s) f := rfl

@[simp] theorem fail_run (e : ε) (s : σ) : (fail e : Trial σ ε α) s = (.error e, s) := rfl

@[simp] theorem state_run (s : σ) : (state : Trial σ ε σ) s = (.ok s, s) := rfl

@[simp] theorem change_run (f : σ → σ) (s : σ) :
    (change f : Trial σ ε Unit) s = (.ok (), f s) := rfl

@[simp] theorem andThen_ok (a : α) (s : σ) (f : α → Trial σ ε β) :
    andThen (.ok a, s) f = f a s := rfl

@[simp] theorem andThen_error (e : ε) (s : σ) (f : α → Trial σ ε β) :
    andThen (.error e, s) f = (.error e, s) := rfl

/-- The change `g` of the state goes through the computation untouched. -/
def Ignores (g : σ → σ) (x : Trial σ ε α) : Prop := ∀ s, x (g s) = ((x s).1, g (x s).2)

section

variable {g : σ → σ}

theorem Ignores.pure (a : α) : Ignores g (Pure.pure a : Trial σ ε α) := fun _ => rfl

theorem Ignores.fail (e : ε) : Ignores g (Trial.fail e : Trial σ ε α) := fun _ => rfl

theorem Ignores.change {f : σ → σ} (h : ∀ s, f (g s) = g (f s)) :
    Ignores g (Trial.change f : Trial σ ε Unit) := by
  intro s
  rw [change_run, change_run, h]

theorem Ignores.bind {x : Trial σ ε α} {f : α → Trial σ ε β} (hx : Ignores g x)
    (hf : ∀ a, Ignores g (f a)) : Ignores g (x >>= f) := by
  intro s
  rw [bind_run, bind_run, hx s]
  rcases x s with ⟨e | a, s'⟩
  · rfl
  · exact hf a s'

theorem Ignores.state_bind {f : σ → Trial σ ε β} (hf : ∀ s, Ignores g (f s))
    (hsame : ∀ s, f (g s) = f s) : Ignores g (Trial.state >>= f) := by
  intro s
  rw [bind_run, bind_run, state_run, state_run, andThen_ok, andThen_ok, hsame]
  exact hf s s

theorem Ignores.recover {x : Trial σ ε α} {handler : ε → Trial σ ε α} (hx : Ignores g x)
    (hh : ∀ e, Ignores g (handler e)) : Ignores g (Trial.recover x handler) := by
  intro s
  unfold Trial.recover
  rw [hx s]
  rcases x s with ⟨e | a, s'⟩
  · exact hh e s'
  · rfl

end

end Trial

end Ionosphere.Lib
