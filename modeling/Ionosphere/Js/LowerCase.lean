import Ionosphere.Js.Text

/-! `String.prototype.toLowerCase` over the Unicode character database. The tables are data
of the runtime; what is said about them here holds of every published version. -/
namespace Ionosphere.Js

def isAsciiLetter (c : Char) : Bool :=
  (65 ≤ c.toNat && c.toNat ≤ 90) || (97 ≤ c.toNat && c.toNat ≤ 122)

/-- The case-ignorable characters of ASCII: the apostrophe, the full stop, the colon, the
circumflex and the grave accent. -/
def ignorableSigns : Text := [0x27, 0x2e, 0x3a, 0x5e, 0x60].map Char.ofNat

def capitalSigma : Char := 'Σ'
def smallSigma : Char := 'σ'
def finalSigma : Char := 'ς'

/-- The lower case of each character, without regard to what stands around it, and the two
properties of the `Final_Sigma` condition. -/
structure CaseData where
  lower : Char → Text
  cased : Char → Bool
  caseIgnorable : Char → Bool
  lower_ascii : ∀ c, isAscii c = true → lower c = [asciiLower c]
  lower_capitalSigma : lower capitalSigma = [smallSigma]
  lower_finalSigma : lower finalSigma = [finalSigma]
  lower_ne_nil : ∀ c, lower c ≠ []
  /-- Lower case is in lower case. -/
  lower_settled : ∀ c, ∀ d ∈ lower c, lower d = [d]
  /-- An ASCII sign is the lower case of itself only. -/
  lower_sign : ∀ c, ∀ d ∈ lower c, isAscii d = true → isAsciiLetter d = false → c = d
  cased_ascii : ∀ c, isAscii c = true → cased c = isAsciiLetter c
  caseIgnorable_ascii : ∀ c, isAscii c = true → caseIgnorable c = ignorableSigns.contains c

namespace CaseData

variable (u : CaseData)

def reachesCased : Text → Bool
  | [] => false
  | c :: cs => u.cased c || (u.caseIgnorable c && reachesCased cs)

/-- The lower case of a character; `before` is read backwards. -/
def lowerAt (before : Text) (c : Char) (after : Text) : Text :=
  if c = capitalSigma then
    if u.reachesCased before && !u.reachesCased after then [finalSigma] else [smallSigma]
  else u.lower c

def lowerFrom : Text → Text → Text
  | _, [] => []
  | before, c :: cs => u.lowerAt before c cs ++ lowerFrom (c :: before) cs

def toLowerCase (s : Text) : Text := u.lowerFrom [] s

/-- A sign that neither is nor hides a cased character. -/
def isBarrier (c : Char) : Bool :=
  isAscii c && !isAsciiLetter c && !ignorableSigns.contains c

variable {u} {c : Char}

theorem isBarrier_iff : isBarrier c = true ↔
    (isAscii c = true ∧ isAsciiLetter c = false) ∧
      ignorableSigns.contains c = false := by
  simp only [isBarrier, Bool.and_eq_true, Bool.not_eq_true']

section

variable (h : isBarrier c = true)

include h

theorem reachesCased_barrier (xs ys : Text) :
    u.reachesCased (xs ++ c :: ys) = u.reachesCased xs := by
  obtain ⟨⟨hascii, hletter⟩, hignored⟩ := isBarrier_iff.mp h
  induction xs with
  | nil =>
    simp only [List.nil_append, reachesCased, u.cased_ascii c hascii, hletter,
      u.caseIgnorable_ascii c hascii, hignored, Bool.false_and, Bool.or_self]
  | cons x xs ih => simp only [List.cons_append, reachesCased, ih]

theorem lower_barrier : u.lower c = [c] := by
  obtain ⟨⟨hascii, hletter⟩, -⟩ := isBarrier_iff.mp h
  have hcapital : ¬ (65 ≤ c.toNat && c.toNat ≤ 90) = true := by
    intro hcap
    simp [isAsciiLetter, hcap] at hletter
  rw [u.lower_ascii c hascii, asciiLower, if_neg hcapital]

theorem barrier_ne_sigma : c ≠ capitalSigma := by
  rintro rfl
  revert h
  decide

theorem lowerFrom_append_before (before rest s : Text) :
    u.lowerFrom (before ++ c :: rest) s = u.lowerFrom before s := by
  induction s generalizing before with
  | nil => rfl
  | cons x xs ih =>
    have hrest := ih (x :: before)
    simp only [lowerFrom, lowerAt, reachesCased_barrier h]
    rw [← List.cons_append, hrest]

theorem lowerFrom_barrier (before xs ys : Text) :
    u.lowerFrom before (xs ++ c :: ys) = u.lowerFrom before xs ++ c :: u.lowerFrom [] ys := by
  induction xs generalizing before with
  | nil =>
    have hsplit := lowerFrom_append_before (u := u) h [] before ys
    rw [List.nil_append] at hsplit
    simp only [List.nil_append, lowerFrom, lowerAt, if_neg (barrier_ne_sigma h), lower_barrier h,
      hsplit, List.cons_append]
  | cons x xs ih =>
    simp only [List.cons_append, lowerFrom, lowerAt, reachesCased_barrier h, ih, List.append_assoc]

theorem toLowerCase_barrier (xs ys : Text) :
    u.toLowerCase (xs ++ c :: ys) = u.toLowerCase xs ++ c :: u.toLowerCase ys :=
  lowerFrom_barrier h [] xs ys

end

theorem settled_of_mem_lowerAt {before after : Text} {x : Char} (h : x ∈ u.lowerAt before c after) :
    u.lower x = [x] ∧ x ≠ capitalSigma := by
  have hsmall : u.lower smallSigma = [smallSigma] := by
    refine u.lower_settled capitalSigma smallSigma ?_
    rw [u.lower_capitalSigma]
    exact List.mem_singleton.mpr rfl
  unfold lowerAt at h
  split_ifs at h
  · rw [List.mem_singleton.mp h]
    exact ⟨u.lower_finalSigma, by decide⟩
  · rw [List.mem_singleton.mp h]
    exact ⟨hsmall, by decide⟩
  · have hfixed := u.lower_settled c x h
    refine ⟨hfixed, ?_⟩
    rintro rfl
    rw [u.lower_capitalSigma] at hfixed
    revert hfixed
    decide

theorem settled_of_mem_lowerFrom {before s : Text} {x : Char} (h : x ∈ u.lowerFrom before s) :
    u.lower x = [x] ∧ x ≠ capitalSigma := by
  induction s generalizing before with
  | nil => cases h
  | cons y ys ih =>
    simp only [lowerFrom, List.mem_append] at h
    obtain hy | hys := h
    · exact settled_of_mem_lowerAt hy
    · exact ih hys

theorem lowerFrom_settled {before s : Text}
    (h : ∀ x ∈ s, u.lower x = [x] ∧ x ≠ capitalSigma) : u.lowerFrom before s = s := by
  induction s generalizing before with
  | nil => rfl
  | cons x xs ih =>
    obtain ⟨hlower, hsigma⟩ := h x (List.mem_cons_self ..)
    have hrest : u.lowerFrom (x :: before) xs = xs :=
      ih fun y hy => h y (List.mem_cons_of_mem _ hy)
    rw [lowerFrom, lowerAt, if_neg hsigma, hlower, hrest]
    rfl

theorem toLowerCase_idem (s : Text) : u.toLowerCase (u.toLowerCase s) = u.toLowerCase s :=
  lowerFrom_settled fun _ hx => settled_of_mem_lowerFrom hx

theorem mem_of_mem_lowerAt (h : isBarrier c = true) {before after : Text} {x : Char}
    (hmem : c ∈ u.lowerAt before x after) : x = c := by
  obtain ⟨⟨hascii, hletter⟩, -⟩ := isBarrier_iff.mp h
  unfold lowerAt at hmem
  split_ifs at hmem
  · rw [List.mem_singleton.mp hmem] at h
    exact absurd h (by decide)
  · rw [List.mem_singleton.mp hmem] at h
    exact absurd h (by decide)
  · exact u.lower_sign x c hmem hascii hletter

theorem mem_of_mem_lowerFrom (h : isBarrier c = true) {before s : Text}
    (hmem : c ∈ u.lowerFrom before s) : c ∈ s := by
  induction s generalizing before with
  | nil => cases hmem
  | cons x xs ih =>
    simp only [lowerFrom, List.mem_append] at hmem
    obtain hx | hxs := hmem
    · rw [mem_of_mem_lowerAt h hx]
      exact List.mem_cons_self ..
    · exact List.mem_cons_of_mem _ (ih hxs)

theorem notMem_toLowerCase (h : isBarrier c = true) {s : Text} (hs : c ∉ s) :
    c ∉ u.toLowerCase s := fun hmem => hs (mem_of_mem_lowerFrom h hmem)

theorem toLowerCase_ne_nil {s : Text} (h : s ≠ []) : u.toLowerCase s ≠ [] := by
  cases s with
  | nil => exact absurd rfl h
  | cons x xs =>
    have hhead : u.lowerAt [] x xs ≠ [] := by
      unfold lowerAt
      split_ifs
      · simp
      · simp
      · exact u.lower_ne_nil x
    intro hnil
    exact hhead (List.append_eq_nil_iff.mp hnil).1

theorem lowerFrom_ascii {before s : Text} (h : s.all isAscii = true) :
    u.lowerFrom before s = s.map asciiLower := by
  induction s generalizing before with
  | nil => rfl
  | cons x xs ih =>
    simp only [List.all_cons, Bool.and_eq_true] at h
    have hsigma : x ≠ capitalSigma := by
      rintro rfl
      exact absurd h.1 (by decide)
    rw [lowerFrom, lowerAt, if_neg hsigma, u.lower_ascii x h.1, ih h.2]
    rfl

theorem toLowerCase_ascii {s : Text} (h : s.all isAscii = true) :
    u.toLowerCase s = s.map asciiLower := lowerFrom_ascii h

theorem asciiLower_cases (c : Char) :
    asciiLower c = c ∧ ¬ (65 ≤ c.toNat ∧ c.toNat ≤ 90) ∨
      (65 ≤ c.toNat ∧ c.toNat ≤ 90) ∧ (asciiLower c).toNat = c.toNat + 32 := by
  unfold asciiLower
  by_cases hcapital : 65 ≤ c.toNat ∧ c.toNat ≤ 90
  · right
    refine ⟨hcapital, ?_⟩
    have hvalid : (c.toNat + 32).isValidChar := .inl (by omega)
    rw [if_pos (by simpa using hcapital), Char.ofNat, dif_pos hvalid]
    rfl
  · left
    exact ⟨if_neg (by simpa using hcapital), hcapital⟩

def ascii : CaseData where
  lower c := if c = capitalSigma then [smallSigma] else [asciiLower c]
  cased := isAsciiLetter
  caseIgnorable c := ignorableSigns.contains c
  lower_ascii := by
    intro c hc
    refine if_neg ?_
    rintro rfl
    exact absurd hc (by decide)
  lower_capitalSigma := rfl
  lower_finalSigma := by decide
  lower_ne_nil := by
    intro c
    split_ifs <;> simp
  lower_settled := by
    intro c d hd
    split_ifs at hd with hsigma
    · rw [List.mem_singleton.mp hd]
      decide
    · have hlow : asciiLower d = d := by
        obtain ⟨hsame, hno⟩ | ⟨hcapital, hshift⟩ := asciiLower_cases c
        · rw [List.mem_singleton.mp hd, hsame, hsame]
        · rw [List.mem_singleton.mp hd]
          unfold asciiLower at hshift ⊢
          exact if_neg (by simp only [hshift]; simp; omega)
      have hne : d ≠ capitalSigma := by
        rintro rfl
        obtain ⟨hsame, -⟩ | ⟨hcapital, hshift⟩ := asciiLower_cases c
        · exact hsigma (hsame.symm.trans (List.mem_singleton.mp hd).symm)
        · rw [← List.mem_singleton.mp hd] at hshift
          have hcode : capitalSigma.toNat = 931 := by decide
          omega
      rw [if_neg hne, hlow]
  lower_sign := by
    intro c d hd hascii hletter
    split_ifs at hd with hsigma
    · rw [List.mem_singleton.mp hd] at hascii
      exact absurd hascii (by decide)
    · rw [List.mem_singleton.mp hd] at hletter ⊢
      obtain ⟨hsame, -⟩ | ⟨hcapital, hshift⟩ := asciiLower_cases c
      · exact hsame.symm
      · simp only [isAsciiLetter, hshift] at hletter
        simp at hletter
        omega
  cased_ascii _ _ := rfl
  caseIgnorable_ascii _ _ := rfl

end CaseData

end Ionosphere.Js
