import Mathlib.Data.List.Induction

/-! Where words occur in a text, and the first place of any of several words. -/
namespace Ionosphere.Lib.Search

section

variable {α : Type*}

def At (needle s : List α) (i : Nat) : Prop := needle <+: s.drop i

/-- The first place at which one of the words stands. -/
structure First (needles : List (List α)) (s : List α) (i : Nat) : Prop where
  stands : ∃ needle ∈ needles, At needle s i
  before : ∀ needle ∈ needles, ∀ j < i, ¬ At needle s j

def Finds (needles : List (List α)) (s : List α) : Option Nat → Prop
  | none => ∀ needle ∈ needles, ∀ j, ¬ At needle s j
  | some i => First needles s i

variable {needle s : List α} {needles : List (List α)} {i j : Nat} {found : Option Nat}

theorem At.lt (h : At needle s i) (hne : needle ≠ []) : i < s.length := by
  by_contra hlt
  rw [At, List.drop_eq_nil_of_le (Nat.le_of_not_lt hlt), List.prefix_nil] at h
  exact hne h

theorem at_append {m : List α} :
    At (needle ++ m) s i ↔ At needle s i ∧ At m s (i + needle.length) := by
  rw [At, At, At, ← List.drop_drop]
  constructor
  · rintro ⟨t, ht⟩
    rw [← ht, List.append_assoc, List.drop_left]
    exact ⟨List.prefix_append _ _, List.prefix_append _ _⟩
  · rintro ⟨⟨t, ht⟩, hm⟩
    rw [← ht, List.drop_left] at hm
    rw [← ht]
    exact (List.prefix_append_right_inj needle).mpr hm

theorem At.getElem? (h : At needle s i) {k : Nat} (hk : k < needle.length) :
    s[i + k]? = needle[k]? := by
  obtain ⟨t, ht⟩ := h
  rw [← List.getElem?_drop, ← ht, List.getElem?_append_left hk]

theorem At.slice (h : At needle s i) : (s.take (i + needle.length)).drop i = needle := by
  rw [List.drop_take, Nat.add_sub_cancel_left]
  exact (List.prefix_iff_eq_take.mp h).symm

theorem at_singleton {c : α} : At [c] s i ↔ s[i]? = some c := by
  rw [At, List.singleton_prefix_iff_head?_eq_some, List.head?_drop]

theorem At.within {m : List α} {k : Nat} (h : At m s i) (hk : At needle s (i + k))
    (hle : k + needle.length ≤ m.length) : At needle m k := by
  obtain ⟨t, ht⟩ := h
  rw [At, ← List.drop_drop, ← ht, List.drop_append_of_le_length (by omega)] at hk
  refine List.prefix_of_prefix_length_le hk (List.prefix_append _ _) ?_
  rw [List.length_drop]
  omega

theorem At.of_within {m : List α} {k : Nat} (h : At m s i) (hk : At needle m k)
    (hle : k ≤ m.length) : At needle s (i + k) := by
  obtain ⟨t, ht⟩ := h
  rw [At, ← List.drop_drop, ← ht, List.drop_append_of_le_length hle]
  exact hk.trans (List.prefix_append _ _)

theorem First.unique (hi : First needles s i) (hj : First needles s j) : i = j := by
  obtain ⟨n, hn, hni⟩ := hi.stands
  obtain ⟨m, hm, hmj⟩ := hj.stands
  by_contra hne
  rcases Nat.lt_or_gt_of_ne hne with hlt | hlt
  · exact hj.before n hn i hlt hni
  · exact hi.before m hm j hlt hmj

theorem Finds.eq_some (h : Finds needles s found) (hi : First needles s i) : found = some i := by
  cases found with
  | none =>
    obtain ⟨n, hn, hni⟩ := hi.stands
    exact absurd hni (h n hn i)
  | some j => rw [First.unique h hi]

theorem Finds.eq_none (h : Finds needles s found)
    (hno : ∀ needle ∈ needles, ∀ j, ¬ At needle s j) : found = none := by
  cases found with
  | none => rfl
  | some j =>
    obtain ⟨n, hn, hnj⟩ := First.stands h
    exact absurd hnj (hno n hn j)

/-- The place of a word and the place found before it, whichever is first. -/
def earlier : Option Nat → Option Nat → Option Nat
  | none, idx => idx
  | found, none => found
  | some i, some idx => if idx < i then some idx else some i

theorem Finds.concat {found idx : Option Nat} (h : Finds needles s found)
    (hidx : Finds [needle] s idx) : Finds (needles ++ [needle]) s (earlier found idx) := by
  cases found with
  | none =>
    cases idx with
    | none =>
      intro n hn
      rcases List.mem_append.mp hn with hn | hn
      · exact h n hn
      · exact hidx n hn
    | some i =>
      obtain ⟨n, hn, hni⟩ := First.stands hidx
      refine ⟨⟨n, List.mem_append_right _ hn, hni⟩, fun m hm j hj => ?_⟩
      rcases List.mem_append.mp hm with hm | hm
      · exact h m hm j
      · exact First.before hidx m hm j hj
  | some i =>
    cases idx with
    | none =>
      obtain ⟨n, hn, hni⟩ := First.stands h
      refine ⟨⟨n, List.mem_append_left _ hn, hni⟩, fun m hm j hj => ?_⟩
      rcases List.mem_append.mp hm with hm | hm
      · exact First.before h m hm j hj
      · exact hidx m hm j
    | some k =>
      rw [earlier]
      split_ifs with hlt
      · obtain ⟨n, hn, hnk⟩ := First.stands hidx
        refine ⟨⟨n, List.mem_append_right _ hn, hnk⟩, fun m hm j hj => ?_⟩
        rcases List.mem_append.mp hm with hm | hm
        · exact First.before h m hm j (Nat.lt_trans hj hlt)
        · exact First.before hidx m hm j hj
      · obtain ⟨n, hn, hni⟩ := First.stands h
        refine ⟨⟨n, List.mem_append_left _ hn, hni⟩, fun m hm j hj => ?_⟩
        rcases List.mem_append.mp hm with hm | hm
        · exact First.before h m hm j hj
        · exact First.before hidx m hm j (by omega)

end

section

variable {α : Type*} [DecidableEq α]

def indexOf (needle : List α) : List α → Option Nat
  | [] => if needle = [] then some 0 else none
  | c :: s => if needle.isPrefixOf (c :: s) then some 0 else (indexOf needle s).map (· + 1)

variable {needle : List α} {needles : List (List α)}

theorem finds_indexOf (hne : needle ≠ []) (s : List α) :
    Finds [needle] s (indexOf needle s) := by
  induction s with
  | nil =>
    rw [indexOf, if_neg hne]
    intro n hn j hj
    rw [List.mem_singleton.mp hn] at hj
    exact absurd (hj.lt hne) (Nat.not_lt_zero j)
  | cons c s ih =>
    rw [indexOf]
    split_ifs with hpre
    · exact ⟨⟨needle, .head _, List.isPrefixOf_iff_prefix.mp hpre⟩, fun _ _ j hj => by omega⟩
    · have hhere : ¬ At needle (c :: s) 0 := fun h => hpre (List.isPrefixOf_iff_prefix.mpr h)
      cases hi : indexOf needle s with
      | none =>
        rw [hi] at ih
        intro n hn j hj
        cases j with
        | zero => exact hhere (List.mem_singleton.mp hn ▸ hj)
        | succ j => exact ih n hn j hj
      | some i =>
        rw [hi] at ih
        obtain ⟨n, hn, hni⟩ := First.stands ih
        refine ⟨⟨n, hn, hni⟩, fun m hm j hlt hj => ?_⟩
        cases j with
        | zero => exact hhere (List.mem_singleton.mp hm ▸ hj)
        | succ j => exact First.before ih m hm j (Nat.lt_of_succ_lt_succ hlt) hj

theorem finds_foldl (hne : ∀ needle ∈ needles, needle ≠ []) (s : List α) :
    Finds needles s (needles.foldl (fun found n => earlier found (indexOf n s)) none) := by
  induction needles using List.reverseRecOn with
  | nil => exact nofun
  | append_singleton ns n ih =>
    rw [List.foldl_append]
    exact (ih fun m hm => hne m (List.mem_append_left _ hm)).concat
      (finds_indexOf (hne n (by simp)) s)

end

end Ionosphere.Lib.Search
