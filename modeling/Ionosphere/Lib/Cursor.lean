import Mathlib.Data.List.Basic

/-! Parsers that hold a whole buffer and read it at an absolute offset. The cursor also
remembers the ranges that were read in place, which no parser looks at. -/
namespace Ionosphere.Lib

structure Cursor where
  offset : Nat
  taken : List (Nat × Nat) := []

/-- A parser over a buffer of `β`, with errors of `ε`. -/
def Parser (β ε α : Type) : Type := List β → Cursor → Except ε (α × Cursor)

namespace Parser

variable {β ε α γ : Type} {view : List β} {c : Cursor}

def pure (a : α) : Parser β ε α := fun _ c => .ok (a, c)

def bind (p : Parser β ε α) (f : α → Parser β ε γ) : Parser β ε γ := fun view c =>
  match p view c with
  | .error e => .error e
  | .ok (a, c) => f a view c

instance : Monad (Parser β ε) where
  pure := Parser.pure
  bind := Parser.bind

def fail (e : ε) : Parser β ε α := fun _ _ => .error e

def offset : Parser β ε Nat := fun _ c => .ok (c.offset, c)

def seek (offset : Nat) : Parser β ε Unit := fun _ c => .ok ((), { c with offset := offset })

/-- The next `n` elements. -/
def take (n : Nat) (e : ε) : Parser β ε (List β) := fun view c =>
  if view.length < c.offset + n then .error e
  else
    .ok ((view.drop c.offset).take n,
      ⟨c.offset + n, c.taken ++ [(c.offset, c.offset + n)]⟩)

def slice (start stop : Nat) : Parser β ε (List β) := fun view c =>
  .ok ((view.drop start).take (stop - start), c)

/-- The ranges a parser reads, kept apart from those read before. -/
def logged (p : Parser β ε α) : Parser β ε (α × List (Nat × Nat)) := fun view c =>
  match p view { c with taken := [] } with
  | .error e => .error e
  | .ok (a, c') => .ok ((a, c'.taken), { c' with taken := c.taken ++ c'.taken })

/-- The same parser `n` times. -/
def times (p : Parser β ε α) : Nat → Parser β ε (List α)
  | 0 => Parser.pure []
  | n + 1 => do
    let a ← p
    let as ← times p n
    Pure.pure (a :: as)

theorem bind_eq_ok {p : Parser β ε α} {f : α → Parser β ε γ}
    {r : γ × Cursor} :
    (p >>= f) view c = .ok r ↔ ∃ a c', p view c = .ok (a, c') ∧ f a view c' = .ok r := by
  change Parser.bind p f view c = .ok r ↔ _
  unfold Parser.bind
  cases hp : p view c with
  | error e => simp
  | ok q =>
    obtain ⟨a, c'⟩ := q
    constructor
    · intro hf
      exact ⟨a, c', rfl, hf⟩
    · rintro ⟨a', c'', hq, hf⟩
      cases hq
      exact hf

theorem pure_eq_ok {a : α} {r : α × Cursor} :
    (Pure.pure a : Parser β ε α) view c = .ok r ↔ r = (a, c) := by
  constructor
  · intro h
    exact (Except.ok.inj h).symm
  · rintro rfl
    rfl

theorem offset_eq_ok {r : Nat × Cursor} :
    (offset : Parser β ε Nat) view c = .ok r ↔ r = (c.offset, c) := by
  constructor
  · intro h
    exact (Except.ok.inj h).symm
  · rintro rfl
    rfl

theorem seek_eq_ok {n : Nat} {r : Unit × Cursor} :
    (seek n : Parser β ε Unit) view c = .ok r ↔ r = ((), { c with offset := n }) := by
  constructor
  · intro h
    exact (Except.ok.inj h).symm
  · rintro rfl
    rfl

theorem slice_eq_ok {start stop : Nat} {r : List β × Cursor} :
    (slice start stop : Parser β ε (List β)) view c = .ok r ↔
      r = ((view.drop start).take (stop - start), c) := by
  constructor
  · intro h
    exact (Except.ok.inj h).symm
  · rintro rfl
    rfl

theorem not_fail {e : ε} {r : α × Cursor} :
    ¬ (fail e : Parser β ε α) view c = .ok r := by
  intro h
  cases h

theorem take_eq_ok {n : Nat} {e : ε} {r : List β × Cursor} :
    take n e view c = .ok r ↔ c.offset + n ≤ view.length ∧
      r = ((view.drop c.offset).take n, ⟨c.offset + n, c.taken ++ [(c.offset, c.offset + n)]⟩) := by
  unfold take
  split_ifs with hshort
  · constructor
    · intro h
      cases h
    · rintro ⟨hle, -⟩
      omega
  · constructor
    · intro h
      exact ⟨Nat.le_of_not_lt hshort, (Except.ok.inj h).symm⟩
    · rintro ⟨-, rfl⟩
      rfl

theorem logged_eq_ok {p : Parser β ε α}
    {r : (α × List (Nat × Nat)) × Cursor} :
    logged p view c = .ok r ↔ ∃ a c', p view { c with taken := [] } = .ok (a, c') ∧
      r = ((a, c'.taken), { c' with taken := c.taken ++ c'.taken }) := by
  unfold logged
  cases hp : p view { c with taken := [] } with
  | error e => simp
  | ok q =>
    obtain ⟨a, c'⟩ := q
    constructor
    · intro h
      exact ⟨a, c', rfl, (Except.ok.inj h).symm⟩
    · rintro ⟨a', c'', hq, rfl⟩
      cases hq
      rfl

/-- Behind `pre` the parser reads `code`, whatever comes after it, and its value is in `P`. -/
def Reads (pre : List β) (p : Parser β ε α) (code : List β) (P : α → Prop) : Prop :=
  ∀ post (c : Cursor), c.offset = pre.length →
    ∃ a c', p (pre ++ code ++ post) c = .ok (a, c') ∧ P a ∧
      c'.offset = pre.length + code.length

variable {pre code code' : List β} {p : Parser β ε α} {f : α → Parser β ε γ} {a : α}
variable {P : α → Prop} {Q : γ → Prop}

theorem Reads.mono {P' : α → Prop} (h : Reads pre p code P) (hP : ∀ a, P a → P' a) :
    Reads pre p code P' := by
  intro post c hc
  obtain ⟨a, c', hread, ha, hend⟩ := h post c hc
  exact ⟨a, c', hread, hP a ha, hend⟩

theorem Reads.pure (ha : P a) : Reads pre (Pure.pure a : Parser β ε α) [] P := by
  intro post c hc
  exact ⟨a, c, rfl, ha, hc⟩

theorem Reads.bind (hp : Reads pre p code P)
    (hf : ∀ a, P a → Reads (pre ++ code) (f a) code' Q) :
    Reads pre (p >>= f) (code ++ code') Q := by
  intro post c hc
  obtain ⟨a, c₁, hfirst, ha, hmid⟩ := hp (code' ++ post) c hc
  obtain ⟨b, c₂, hsecond, hb, hend⟩ := hf a ha post c₁ (by rw [hmid, List.length_append])
  refine ⟨b, c₂, bind_eq_ok.mpr ⟨a, c₁, ?_, ?_⟩, hb, ?_⟩
  · rw [← hfirst]
    simp only [List.append_assoc]
  · rw [← hsecond]
    simp only [List.append_assoc]
  · rw [hend, List.length_append, List.length_append, Nat.add_assoc]

theorem Reads.next (hp : Reads pre p code (· = a)) (hf : Reads (pre ++ code) (f a) code' Q) :
    Reads pre (p >>= f) (code ++ code') Q := by
  apply hp.bind
  rintro _ rfl
  exact hf

theorem Reads.last (hp : Reads pre p code P) (hf : ∀ a, P a → Reads (pre ++ code) (f a) [] Q) :
    Reads pre (p >>= f) code Q := by
  have hboth := hp.bind hf
  rwa [List.append_nil] at hboth

theorem Reads.first (hp : Reads pre p [] (· = a)) (hf : Reads pre (f a) code Q) :
    Reads pre (p >>= f) code Q := by
  have hboth : Reads pre (p >>= f) ([] ++ code) Q := hp.next (by rwa [List.append_nil])
  rwa [List.nil_append] at hboth

theorem Reads.offset : Reads pre (Parser.offset : Parser β ε Nat) [] (· = pre.length) := by
  intro post c hc
  exact ⟨c.offset, c, rfl, hc, hc⟩

theorem Reads.seek {n : Nat} (h : n = pre.length) :
    Reads pre (Parser.seek n : Parser β ε Unit) [] fun _ => True := by
  intro post c hc
  exact ⟨(), { c with offset := n }, rfl, trivial, h⟩

theorem Reads.take {n : Nat} {e : ε} (h : n = code.length) :
    Reads pre (Parser.take n e) code (· = code) := by
  subst h
  intro post c hc
  refine ⟨code, ⟨c.offset + code.length, c.taken ++ [(c.offset, c.offset + code.length)]⟩,
    take_eq_ok.mpr ⟨?_, ?_⟩, rfl, ?_⟩
  · simp only [hc, List.length_append]
    omega
  · rw [hc, List.append_assoc, List.drop_left, List.take_left]
  · rw [hc]

theorem Reads.logged (hp : Reads pre p code P) :
    Reads pre (Parser.logged p) code fun r => P r.1 := by
  intro post c hc
  obtain ⟨a, c', hread, ha, hend⟩ := hp post { c with taken := [] } hc
  exact ⟨_, _, logged_eq_ok.mpr ⟨a, c', hread, rfl⟩, ha, hend⟩

theorem Reads.times {δ : Type} {R : δ → α → Prop} {xs : List δ} {codes : List (List β)}
    (h : List.Forall₂ (fun x code => ∀ pre, Reads pre p code (R x)) xs codes) :
    Reads pre (p.times xs.length) codes.flatten fun as => List.Forall₂ R xs as := by
  induction h generalizing pre with
  | nil => exact Reads.pure .nil
  | cons hx _ ih =>
    refine (hx pre).bind fun a ha => ?_
    refine ih.last fun as has => ?_
    exact Reads.pure (.cons ha has)

end Parser

end Ionosphere.Lib
