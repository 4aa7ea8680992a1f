import Mathlib.Data.List.Basic

/-! Streams of lines ended by a two-symbol delimiter `cr lf`. `cut` takes the
first complete line off a stream; `ending` skips lines up to the first one equal
to a given terminator. A stream is never looked at past its first delimiter, so
both are stable when more symbols arrive. -/
namespace Ionosphere.Lib.Lines

section

variable {α : Type*} [DecidableEq α] (cr lf : α)

/-- The first complete line and what follows its delimiter. -/
def cut : List α → Option (List α × List α)
  | [] => none
  | a :: t =>
    if a = cr ∧ t.head? = some lf then some ([], t.tail)
    else (cut t).map fun p => (a :: p.1, p.2)

def index : List α → Option Nat
  | [] => none
  | a :: t =>
    if a = cr ∧ t.head? = some lf then some 0 else (index t).map (· + 1)

variable {cr lf}

theorem cut_eq_index (s : List α) :
    cut cr lf s = (index cr lf s).map fun i => (s.take i, s.drop (i + 2)) := by
  induction s with
  | nil => rfl
  | cons a t ih =>
    simp only [cut, index]
    split_ifs with h
    · cases t <;> simp
    · rw [ih]
      cases index cr lf t <;> simp

theorem eq_of_cut {s l r : List α} (h : cut cr lf s = some (l, r)) :
    s = l ++ cr :: lf :: r := by
  induction s generalizing l with
  | nil => simp [cut] at h
  | cons a t ih =>
    simp only [cut] at h
    split_ifs at h with hc
    · obtain ⟨rfl, hhead⟩ := hc
      cases t with
      | nil => simp at hhead
      | cons b t =>
        simp only [List.head?_cons, Option.some.injEq] at hhead
        simp only [Option.some.injEq, Prod.mk.injEq, List.tail_cons] at h
        simp [← h.1, ← h.2, hhead]
    · obtain ⟨⟨l', r'⟩, hcut, heq⟩ := Option.map_eq_some_iff.mp h
      obtain ⟨rfl, rfl⟩ := Prod.mk.inj heq
      simp [ih hcut]

theorem length_of_cut {s l r : List α} (h : cut cr lf s = some (l, r)) :
    s.length = l.length + 2 + r.length := by
  rw [eq_of_cut h]
  simp only [List.length_append, List.length_cons]
  omega

theorem cut_append {s l r : List α} (h : cut cr lf s = some (l, r)) (t : List α) :
    cut cr lf (s ++ t) = some (l, r ++ t) := by
  induction s generalizing l with
  | nil => simp [cut] at h
  | cons a u ih =>
    simp only [cut, List.cons_append] at h ⊢
    split_ifs at h with hc
    · have hu : u ≠ [] := by
        rintro rfl
        simp at hc
      have hhead : (u ++ t).head? = some lf := by
        rw [List.head?_append_of_ne_nil _ hu, hc.2]
      rw [if_pos ⟨hc.1, hhead⟩, List.tail_append_of_ne_nil hu]
      simp only [Option.some.injEq, Prod.mk.injEq] at h ⊢
      exact ⟨h.1, by rw [← h.2]⟩
    · obtain ⟨⟨l', r'⟩, hcut, heq⟩ := Option.map_eq_some_iff.mp h
      obtain ⟨rfl, rfl⟩ := Prod.mk.inj heq
      have hc' : ¬(a = cr ∧ (u ++ t).head? = some lf) := by
        intro hh
        cases u with
        | nil => simp [cut] at hcut
        | cons b u => exact hc (by simpa using hh)
      rw [if_neg hc', ih hcut]
      rfl

theorem index_append {s : List α} {i : Nat} (h : index cr lf s = some i) (t : List α) :
    index cr lf (s ++ t) = some i ∧ (s ++ t).take i = s.take i ∧
      (s ++ t).drop (i + 2) = s.drop (i + 2) ++ t := by
  have hcut : cut cr lf s = some (s.take i, s.drop (i + 2)) := by
    rw [cut_eq_index, h]
    rfl
  have hlen := length_of_cut hcut
  have happend := cut_append hcut t
  rw [cut_eq_index] at happend
  obtain ⟨j, hj, heq⟩ := Option.map_eq_some_iff.mp happend
  obtain ⟨htake, hdrop⟩ := Prod.mk.inj heq
  have hlen' := length_of_cut (cut_append hcut t)
  have hij := congrArg List.length htake
  simp only [List.length_take, List.length_append, List.length_drop] at hlen hlen' hij
  obtain rfl : j = i := by omega
  exact ⟨hj, htake, hdrop⟩

theorem cut_isSome (l r : List α) : (cut cr lf (l ++ cr :: lf :: r)).isSome := by
  induction l with
  | nil => simp [cut]
  | cons a l ih =>
    simp only [List.cons_append, cut]
    split_ifs <;> simp [ih]

variable (cr) in
/-- The end of an open line that can still be part of a delimiter. -/
def held (a : List α) : List α := if a.getLast? = some cr then [cr] else []

/-- Of an open line only what is `held` decides where the line will end. -/
theorem cut_append_of_none {a : List α} (h : cut cr lf a = none) :
    ∃ front, a = front ++ held cr a ∧
      ∀ b, cut cr lf (a ++ b) = (cut cr lf (held cr a ++ b)).map fun p => (front ++ p.1, p.2) := by
  induction a with
  | nil => exact ⟨[], rfl, fun b => by simp [held]⟩
  | cons x t ih =>
    cases t with
    | nil =>
      by_cases hx : x = cr
      · exact ⟨[], by simp [held, hx], fun b => by simp [held, hx]⟩
      · refine ⟨[x], by simp [held, hx], fun b => ?_⟩
        simp [held, hx, cut]
    | cons y t =>
      simp only [cut, List.head?_cons, Option.some.injEq] at h
      have hx : ¬(x = cr ∧ y = lf) := by
        intro hc
        simp [hc] at h
      rw [if_neg hx] at h
      have hrest : cut cr lf (y :: t) = none := by
        simpa [cut] using h
      obtain ⟨front, hfront, hcut⟩ := ih hrest
      have hheld : held cr (x :: y :: t) = held cr (y :: t) := by
        simp only [held, List.getLast?_cons_cons]
      refine ⟨x :: front, ?_, fun b => ?_⟩
      · rw [hheld, List.cons_append, ← hfront]
      · rw [hheld, List.cons_append, cut, if_neg (by simpa using hx), hcut b, Option.map_map]
        rfl

variable (cr lf) in
/-- The stream after the first line equal to `term`, within `fuel` lines. -/
def endingAux (term : List α) : Nat → List α → Option (List α)
  | 0, _ => none
  | fuel + 1, s =>
    match cut cr lf s with
    | none => none
    | some (l, r) => if l = term then some r else endingAux term fuel r

variable (cr lf) in
/-- The stream after the first line equal to `term`. -/
def ending (term s : List α) : Option (List α) := endingAux cr lf term (s.length + 1) s

private theorem endingAux_fuel {term : List α} {m n : Nat} {s : List α}
    (hm : s.length < m) (hn : s.length < n) :
    endingAux cr lf term m s = endingAux cr lf term n s := by
  induction m generalizing n s with
  | zero => omega
  | succ m ih =>
    obtain ⟨n, rfl⟩ : ∃ k, n = k + 1 := ⟨n - 1, by omega⟩
    simp only [endingAux]
    cases hcut : cut cr lf s with
    | none => rfl
    | some p =>
      have hlen := length_of_cut hcut
      dsimp only
      split_ifs
      · rfl
      · exact ih (by omega) (by omega)

theorem ending_of_cut_none {term s : List α} (h : cut cr lf s = none) :
    ending cr lf term s = none := by
  simp only [ending, endingAux, h]

theorem ending_of_cut {term s l r : List α} (h : cut cr lf s = some (l, r)) :
    ending cr lf term s = if l = term then some r else ending cr lf term r := by
  have hlen := length_of_cut h
  rw [ending, endingAux, h]
  dsimp only
  rw [ending, endingAux_fuel (m := s.length) (n := r.length + 1) (by omega) (by omega)]

theorem length_of_ending {term s r : List α} (h : ending cr lf term s = some r) :
    r.length + term.length + 2 ≤ s.length := by
  induction hn : s.length using Nat.strongRecOn generalizing s with
  | ind n ih =>
    cases hcut : cut cr lf s with
    | none => simp [ending_of_cut_none hcut] at h
    | some p =>
      obtain ⟨l, rest⟩ := p
      have hlen := length_of_cut hcut
      rw [ending_of_cut hcut] at h
      split_ifs at h with hterm
      · simp only [Option.some.injEq] at h
        subst h hterm
        omega
      · have := ih rest.length (by omega) h rfl
        omega

variable (cr lf) in
/-- The lines before the first one equal to `term` and the stream after it, within `fuel`
lines. -/
def contentAux (term : List α) : Nat → List α → Option (List (List α) × List α)
  | 0, _ => none
  | fuel + 1, s =>
    match cut cr lf s with
    | none => none
    | some (l, r) =>
      if l = term then some ([], r)
      else (contentAux term fuel r).map fun p => (l :: p.1, p.2)

variable (cr lf) in
/-- The lines before the first one equal to `term` and the stream after it. -/
def content (term s : List α) : Option (List (List α) × List α) :=
  contentAux cr lf term (s.length + 1) s

private theorem contentAux_fuel {term : List α} {m n : Nat} {s : List α}
    (hm : s.length < m) (hn : s.length < n) :
    contentAux cr lf term m s = contentAux cr lf term n s := by
  induction m generalizing n s with
  | zero => omega
  | succ m ih =>
    obtain ⟨n, rfl⟩ : ∃ k, n = k + 1 := ⟨n - 1, by omega⟩
    simp only [contentAux]
    cases hcut : cut cr lf s with
    | none => rfl
    | some p =>
      have hlen := length_of_cut hcut
      dsimp only
      rw [ih (n := n) (by omega) (by omega)]

theorem content_of_cut_none {term s : List α} (h : cut cr lf s = none) :
    content cr lf term s = none := by
  simp only [content, contentAux, h]

theorem content_of_cut {term s l r : List α} (h : cut cr lf s = some (l, r)) :
    content cr lf term s =
      if l = term then some ([], r) else (content cr lf term r).map fun p => (l :: p.1, p.2) := by
  have hlen := length_of_cut h
  rw [content, contentAux, h]
  dsimp only
  rw [content, contentAux_fuel (m := s.length) (n := r.length + 1) (by omega) (by omega)]

theorem cut_line (hne : cr ≠ lf) {l : List α} (h : cut cr lf l = none) (r : List α) :
    cut cr lf (l ++ cr :: lf :: r) = some (l, r) := by
  obtain ⟨front, hfront, hcut⟩ := cut_append_of_none h
  rw [hcut]
  unfold held at hfront ⊢
  split_ifs at hfront ⊢
  · conv_rhs => rw [hfront]
    simp [cut, hne]
  · conv_rhs => rw [hfront]
    simp [cut]

theorem content_of_lines (hne : cr ≠ lf) {term : List α} {ls : List (List α)} (r : List α)
    (hlines : ∀ l ∈ ls, cut cr lf l = none ∧ l ≠ term) (hterm : cut cr lf term = none) :
    content cr lf term ((ls.flatMap fun l => l ++ [cr, lf]) ++ (term ++ cr :: lf :: r)) =
      some (ls, r) := by
  induction ls with
  | nil =>
    rw [List.flatMap_nil, List.nil_append, content_of_cut (cut_line hne hterm r), if_pos rfl]
  | cons l ls ih =>
    obtain ⟨hl, hlterm⟩ := hlines l List.mem_cons_self
    have hcut := cut_line hne hl ((ls.flatMap fun l => l ++ [cr, lf]) ++ (term ++ cr :: lf :: r))
    have hshape : ((l :: ls).flatMap fun l => l ++ [cr, lf]) ++ (term ++ cr :: lf :: r) =
        l ++ cr :: lf :: ((ls.flatMap fun l => l ++ [cr, lf]) ++ (term ++ cr :: lf :: r)) := by
      simp
    rw [hshape, content_of_cut hcut, if_neg hlterm,
      ih fun x hx => hlines x (List.mem_cons_of_mem _ hx)]
    rfl

end

end Ionosphere.Lib.Lines
