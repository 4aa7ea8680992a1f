import Mathlib.Data.List.Basic

/-! Texts cut at every two-symbol delimiter `cr lf`, and put together again. -/
namespace Ionosphere.Lib.Pieces

section

variable {α : Type*} (cr lf : α)

def extend (a : α) : List (List α) → List (List α)
  | [] => [[a]]
  | p :: ps => (a :: p) :: ps

def glue : List (List α) → List α
  | [] => []
  | [p] => p
  | p :: q :: ps => p ++ cr :: lf :: glue (q :: ps)

variable {cr lf} {a : α} {p : List α} {ps qs : List (List α)}

theorem extend_append (h : ps ≠ []) : extend a (ps ++ qs) = extend a ps ++ qs := by
  cases ps with
  | nil => exact absurd rfl h
  | cons p ps => rfl

theorem glue_extend (h : ps ≠ []) : glue cr lf (extend a ps) = a :: glue cr lf ps := by
  cases ps with
  | nil => exact absurd rfl h
  | cons p ps =>
    cases ps with
    | nil => rfl
    | cons q ps => rfl

theorem glue_cons (h : ps ≠ []) : glue cr lf (p :: ps) = p ++ cr :: lf :: glue cr lf ps := by
  cases ps with
  | nil => exact absurd rfl h
  | cons q ps => rfl

theorem glue_append (hp : ps ≠ []) (hq : qs ≠ []) :
    glue cr lf (ps ++ qs) = glue cr lf ps ++ cr :: lf :: glue cr lf qs := by
  induction ps with
  | nil => exact absurd rfl hp
  | cons p ps ih =>
    by_cases hps : ps = []
    · rw [hps, List.singleton_append, glue_cons hq]
      rfl
    · rw [List.cons_append, glue_cons (List.append_ne_nil_of_left_ne_nil hps qs), ih hps,
        glue_cons hps, List.append_assoc]
      rfl

theorem mem_glue (h : a ∈ glue cr lf ps) : a = cr ∨ a = lf ∨ ∃ p ∈ ps, a ∈ p := by
  induction ps with
  | nil => cases h
  | cons p ps ih =>
    by_cases hps : ps = []
    · rw [hps] at h
      exact .inr (.inr ⟨p, .head _, h⟩)
    · rw [glue_cons hps, List.mem_append, List.mem_cons, List.mem_cons] at h
      rcases h with hp | rfl | rfl | hrest
      · exact .inr (.inr ⟨p, .head _, hp⟩)
      · exact .inl rfl
      · exact .inr (.inl rfl)
      · exact (ih hrest).imp id (.imp id fun ⟨p', hp', ha⟩ => ⟨p', .tail _ hp', ha⟩)

theorem mem_glue_of_mem (hp : p ∈ ps) (ha : a ∈ p) : a ∈ glue cr lf ps := by
  induction ps with
  | nil => cases hp
  | cons q ps ih =>
    by_cases hps : ps = []
    · rw [hps, List.mem_singleton] at hp
      rw [hps, ← hp]
      exact ha
    · rw [glue_cons hps, List.mem_append, List.mem_cons, List.mem_cons]
      rcases List.mem_cons.mp hp with rfl | hp
      · exact .inl ha
      · exact .inr (.inr (.inr (ih hp)))

end

section

variable {α : Type*} [DecidableEq α] (cr lf : α)

def split : List α → List (List α)
  | [] => [[]]
  | [a] => [[a]]
  | a :: b :: s =>
    if a = cr ∧ b = lf then [] :: split s else extend a (split (b :: s))

variable {cr lf}

theorem split_ne_nil (s : List α) : split cr lf s ≠ [] := by
  fun_induction split cr lf s with
  | case1 => simp
  | case2 a => simp
  | case3 a b s h ih => simp
  | case4 a b s h ih =>
    cases hs : split cr lf (b :: s) with
    | nil => exact absurd hs ih
    | cons p ps => simp [extend]

theorem glue_split (s : List α) : glue cr lf (split cr lf s) = s := by
  fun_induction split cr lf s with
  | case1 => rfl
  | case2 a => rfl
  | case3 a b s h ih =>
    rw [glue_cons (split_ne_nil s), ih, h.1, h.2]
    rfl
  | case4 a b s h ih => rw [glue_extend (split_ne_nil _), ih]

theorem split_append (hne : cr ≠ lf) (x y : List α) :
    split cr lf (x ++ cr :: lf :: y) = split cr lf x ++ split cr lf y := by
  fun_induction split cr lf x with
  | case1 => simp [split]
  | case2 a =>
    rw [List.cons_append, List.nil_append, split, if_neg (fun h => hne h.2), split,
      if_pos ⟨rfl, rfl⟩]
    rfl
  | case3 a b s h ih =>
    rw [List.cons_append, List.cons_append, split, if_pos h, ih]
    rfl
  | case4 a b s h ih =>
    rw [List.cons_append, List.cons_append, split, if_neg h, ← List.cons_append, ih,
      extend_append (split_ne_nil _)]

theorem split_of_notMem {s : List α} (h : cr ∉ s) : split cr lf s = [s] := by
  fun_induction split cr lf s with
  | case1 => rfl
  | case2 a => rfl
  | case3 a b s hc ih => exact absurd (List.Mem.head _) (hc.1 ▸ h)
  | case4 a b s hc ih =>
    rw [ih fun hmem => h (.tail _ hmem)]
    rfl

theorem split_glue (hne : cr ≠ lf) {ps : List (List α)} (hps : ps ≠ [])
    (h : ∀ p ∈ ps, cr ∉ p) : split cr lf (glue cr lf ps) = ps := by
  induction ps with
  | nil => exact absurd rfl hps
  | cons p ps ih =>
    rw [List.forall_mem_cons] at h
    cases ps with
    | nil => exact split_of_notMem h.1
    | cons q ps =>
      rw [glue_cons (by simp), split_append hne, split_of_notMem h.1, ih (by simp) h.2]
      rfl

def Uncut (cr lf : α) (p : List α) : Prop := p.IsChain fun a b => ¬(a = cr ∧ b = lf)

theorem split_of_uncut {p : List α} (h : Uncut cr lf p) : split cr lf p = [p] := by
  fun_induction split cr lf p with
  | case1 => rfl
  | case2 a => rfl
  | case3 a b s hc ih => exact absurd hc (List.isChain_cons_cons.mp h).1
  | case4 a b s hc ih =>
    rw [ih (List.isChain_cons_cons.mp h).2]
    rfl

theorem head_of_split {b d : α} {s q : List α} {qs : List (List α)}
    (h : split cr lf (b :: s) = (d :: q) :: qs) : d = b := by
  have hglue : glue cr lf (split cr lf (b :: s)) = b :: s := glue_split _
  rw [h] at hglue
  cases qs with
  | nil => exact (List.cons.inj hglue).1
  | cons p ps => exact (List.cons.inj hglue).1

theorem uncut_of_mem_split {p s : List α} (hp : p ∈ split cr lf s) : Uncut cr lf p := by
  fun_induction split cr lf s generalizing p with
  | case1 =>
    rw [List.mem_singleton.mp hp]
    exact List.IsChain.nil
  | case2 a =>
    rw [List.mem_singleton.mp hp]
    exact List.IsChain.singleton a
  | case3 a b s hc ih =>
    rcases List.mem_cons.mp hp with heq | hmem
    · rw [heq]
      exact List.IsChain.nil
    · exact ih hmem
  | case4 a b s hc ih =>
    cases hsplit : split cr lf (b :: s) with
    | nil => exact absurd hsplit (split_ne_nil _)
    | cons q qs =>
      rw [hsplit] at hp ih
      rcases List.mem_cons.mp hp with heq | hmem
      · have hq := ih List.mem_cons_self
        rw [heq]
        cases q with
        | nil => exact List.IsChain.singleton a
        | cons d q =>
          -- the first piece goes on with the symbol after `a`
          have hd : d = b := head_of_split hsplit
          exact List.isChain_cons_cons.mpr ⟨by rw [hd]; exact hc, hq⟩
      · exact ih (List.mem_cons_of_mem _ hmem)

theorem split_glue_uncut (hne : cr ≠ lf) {ps : List (List α)} (hps : ps ≠ [])
    (h : ∀ p ∈ ps, Uncut cr lf p) : split cr lf (glue cr lf ps) = ps := by
  induction ps with
  | nil => exact absurd rfl hps
  | cons p ps ih =>
    obtain ⟨hp, hrest⟩ := List.forall_mem_cons.mp h
    cases ps with
    | nil => exact split_of_uncut hp
    | cons q ps =>
      rw [glue_cons (by simp), split_append hne, split_of_uncut hp, ih (by simp) hrest]
      rfl

end

end Ionosphere.Lib.Pieces
