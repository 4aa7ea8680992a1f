import Ionosphere.Mime.PartTree

/-! Where the splitter cuts: at each delimiter that begins a line, and nowhere else. -/
namespace Ionosphere.Mime

open Ionosphere.Js Ionosphere.Lib

variable {bin needle boundary : Text} {start stop cursor room i : Nat} {partStart : Option Nat}

theorem filter_indexOf {s : Text} (hne : needle ≠ [])
    (hs : ∀ j, start + j < stop → (Search.At needle s j ↔ Search.At needle bin (start + j))) :
    match ((Search.indexOf needle s).map (start + ·)).filter (· < stop) with
    | none => ∀ j, start ≤ j → j < stop → ¬ Search.At needle bin j
    | some i => Search.At needle bin i ∧ ∀ j, start ≤ j → j < i → ¬ Search.At needle bin j := by
  have hback : ∀ j, start ≤ j → j < stop → Search.At needle bin j →
      Search.At needle s (j - start) := by
    intro j hj hlt hat
    have heq : start + (j - start) = j := by omega
    exact (hs (j - start) (by omega)).mpr (by rwa [heq])
  have hfinds := Search.finds_indexOf hne s
  cases hi : Search.indexOf needle s with
  | none =>
    rw [hi] at hfinds
    intro j hj hlt hat
    exact hfinds needle (.head _) _ (hback j hj hlt hat)
  | some i =>
    rw [hi] at hfinds
    have hbefore : ∀ j, start ≤ j → j < stop → j < start + i → ¬ Search.At needle bin j := by
      intro j hj hlt hji hat
      exact hfinds.before needle (.head _) (j - start) (by omega) (hback j hj hlt hat)
    rw [Option.map_some, Option.filter_some]
    by_cases hlt : start + i < stop
    · rw [if_pos (decide_eq_true hlt)]
      obtain ⟨n, hn, hat⟩ := hfinds.stands
      obtain rfl := List.mem_singleton.mp hn
      exact ⟨(hs i hlt).mp hat, fun j hj hji => hbefore j hj (by omega) hji⟩
    · rw [if_neg (by simpa using hlt)]
      exact fun j hj hlt' => hbefore j hj hlt' (by omega)

theorem at_slice (needle bin : Text) {j : Nat} (hj : start + j < stop) :
    Search.At needle
        ((bin.take (min (stop + needle.length - 1) bin.length)).drop start) j ↔
      Search.At needle bin (start + j) := by
  rw [Search.At, Search.At, List.drop_drop, List.drop_take, List.prefix_take_iff]
  refine and_iff_left_of_imp fun h => ?_
  have hlen := h.length_le
  rw [List.length_drop] at hlen
  omega

theorem indexOfWithin_spec (hne : needle ≠ []) (bin : Text) (start stop : Nat) :
    match indexOfWithin bin needle start stop with
    | none => ∀ j, start ≤ j → j < stop → ¬ Search.At needle bin j
    | some i => Search.At needle bin i ∧ ∀ j, start ≤ j → j < i → ¬ Search.At needle bin j := by
  rw [indexOfWithin]
  by_cases hle : stop ≤ start
  · rw [if_pos hle]
    exact fun j hj hlt => by omega
  · rw [if_neg hle]
    dsimp only
    by_cases hnear : (min (stop + needle.length - 1) bin.length - start) * 2 < bin.length - start
    · rw [if_pos hnear]
      exact filter_indexOf hne fun j hj => at_slice needle bin hj
    · rw [if_neg hnear]
      refine filter_indexOf hne fun j _ => ?_
      rw [Search.At, Search.At, List.drop_drop]

theorem indexOfWithin_eq_some (hne : needle ≠ []) (hi : start ≤ i ∧ i < stop)
    (hat : Search.At needle bin i)
    (hbefore : ∀ j, start ≤ j → j < i → ¬ Search.At needle bin j) :
    indexOfWithin bin needle start stop = some i := by
  have hspec := indexOfWithin_spec hne bin start stop
  cases hfound : indexOfWithin bin needle start stop with
  | none =>
    rw [hfound] at hspec
    exact absurd hat (hspec i hi.1 hi.2)
  | some j =>
    rw [hfound] at hspec
    have hj := indexOfWithin_bounds hfound
    rcases Nat.lt_trichotomy i j with hlt | heq | hlt
    · exact absurd hat (hspec.2 i hi.1 hlt)
    · rw [heq]
    · exact absurd hspec.1 (hbefore j hj.1 hlt)

def Delimits (bin boundary : Text) (start i : Nat) : Prop :=
  Search.At (delimiter boundary) bin i ∧ AtLineStart bin start i

theorem delimiter_ne_nil (boundary : Text) : delimiter boundary ≠ [] := nofun

theorem not_lineStart_within {j : Nat} (hb : '\n' ∉ boundary)
    (hat : Search.At (delimiter boundary) bin i) (hi : start ≤ i) (hlt : i < j)
    (hj : j ≤ i + (delimiter boundary).length) : ¬ AtLineStart bin start j := by
  rintro (rfl | hnl)
  · omega
  · obtain ⟨k, hk⟩ : ∃ k, j - 1 = i + k := ⟨j - 1 - i, by omega⟩
    have hin : k < (delimiter boundary).length := by omega
    have hget : (bin.drop i)[k]? = (delimiter boundary)[k]? := by
      obtain ⟨t, ht⟩ := hat
      rw [← ht, List.getElem?_append_left hin]
    rw [List.getElem?_drop, ← hk, hnl] at hget
    have hmem : '\n' ∈ delimiter boundary := List.mem_of_getElem? hget.symm
    rw [delimiter, List.mem_cons, List.mem_cons] at hmem
    rcases hmem with h | h | h
    · exact absurd h (by decide)
    · exact absurd h (by decide)
    · exact hb h

theorem exists_splitLoop_eq (hb : '\n' ∉ boundary) (hi : Delimits bin boundary start i)
    (hcursor : start ≤ cursor ∧ cursor ≤ i) (hstop : i < stop) (hroom : room ≠ 0)
    (hbefore : ∀ j, cursor ≤ j → j < i → ¬ Delimits bin boundary start j) :
    ∃ c, indexOfWithin bin (delimiter boundary) c stop = some i ∧
      splitLoop bin boundary start stop cursor partStart room =
        splitLoop bin boundary start stop c partStart room := by
  induction hd : i - cursor using Nat.strong_induction_on generalizing cursor with
  | _ d ih =>
    have hspec := indexOfWithin_spec (delimiter_ne_nil boundary) bin cursor stop
    cases hfound : indexOfWithin bin (delimiter boundary) cursor stop with
    | none =>
      rw [hfound] at hspec
      exact absurd hi.1 (hspec i hcursor.2 hstop)
    | some idx =>
      rw [hfound] at hspec
      have hidx := indexOfWithin_bounds hfound
      have hle : idx ≤ i := by
        by_contra hgt
        exact hspec.2 i hcursor.2 (by omega) hi.1
      rcases Nat.eq_or_lt_of_le hle with rfl | hlt
      · exact ⟨cursor, hfound, rfl⟩
      · have hline : ¬ AtLineStart bin start idx := fun h => hbefore idx hidx.1 hlt ⟨hspec.1, h⟩
        have hafter : idx + (delimiter boundary).length ≤ i := by
          by_contra hgt
          exact not_lineStart_within hb hspec.1 (by omega) hlt (by omega) hi.2
        have hlen := length_delimiter boundary
        obtain ⟨c, hc, heq⟩ := ih (i - (idx + (delimiter boundary).length)) (by omega)
          ⟨by omega, hafter⟩ (fun j hj => hbefore j (by omega)) rfl
        exact ⟨c, hc, by rw [splitLoop_skip hroom hfound hline, heq]⟩

theorem mem_openRange {r : Nat × Nat} (hr : r ∈ openRange partStart stop) :
    ∃ s ∈ partStart, r = (s, stop) := by
  cases partStart with
  | none => cases hr
  | some s =>
    rw [openRange] at hr
    split_ifs at hr
    · exact ⟨s, rfl, List.mem_singleton.mp hr⟩
    · cases hr

theorem partEnd_le (bin : Text) (s idx : Nat) : partEnd bin s idx ≤ idx := by
  dsimp only [partEnd]
  split_ifs <;> omega

theorem splitLoop_clean (hb : '\n' ∉ boundary) (hcursor : start ≤ cursor)
    (hpart : ∀ s ∈ partStart, ∀ j, s ≤ j → j < cursor → ¬ Delimits bin boundary start j)
    {r : Nat × Nat}
    (hr : r ∈ splitLoop bin boundary start stop cursor partStart room) {j : Nat}
    (hj : r.1 ≤ j ∧ j < r.2) : ¬ Delimits bin boundary start j := by
  induction hd : stop - cursor using Nat.strong_induction_on
    generalizing cursor partStart room with
  | _ d ih =>
    rcases Nat.eq_zero_or_pos room with rfl | hroom
    · rw [splitLoop_zero] at hr
      cases hr
    have hroom' : room ≠ 0 := by omega
    have hlen := length_delimiter boundary
    have hspec := indexOfWithin_spec (delimiter_ne_nil boundary) bin cursor stop
    cases h : indexOfWithin bin (delimiter boundary) cursor stop with
    | none =>
      rw [h] at hspec
      rw [splitLoop_none hroom' h] at hr
      obtain ⟨s, hs, hrs⟩ := mem_openRange hr
      rw [hrs] at hj
      by_cases hjc : j < cursor
      · exact hpart s hs j hj.1 hjc
      · exact fun hdel => hspec j (by omega) hj.2 hdel.1
    | some idx =>
      rw [h] at hspec
      have hidx := indexOfWithin_bounds h
      have hupto : ∀ s ∈ partStart, ∀ j, s ≤ j → j < idx → ¬ Delimits bin boundary start j := by
        intro s hs j hsj hji
        by_cases hjc : j < cursor
        · exact hpart s hs j hsj hjc
        · exact fun hdel => hspec.2 j (by omega) hji hdel.1
      have hclosed : r ∈ closedRange bin partStart idx → ¬ Delimits bin boundary start j := by
        intro hr
        obtain ⟨s, hs, rfl⟩ := List.mem_map.mp hr
        have hle := partEnd_le bin s idx
        exact hupto s (Option.mem_toList.mp hs) j hj.1 (Nat.lt_of_lt_of_le hj.2 hle)
      by_cases hline : AtLineStart bin start idx
      · by_cases hfinal : ['-', '-'] <+: bin.drop (idx + (delimiter boundary).length)
        · rw [splitLoop_final hroom' h hline hfinal] at hr
          exact hclosed hr
        · cases hnl : indexOfWithin bin ['\n'] (idx + (delimiter boundary).length) stop with
          | none =>
            rw [splitLoop_cut hroom' h hline hfinal hnl] at hr
            exact hclosed hr
          | some nl =>
            have hnlb := indexOfWithin_bounds hnl
            rw [splitLoop_next hroom' h hline hfinal hnl] at hr
            rcases List.mem_append.mp hr with hr | hr
            · exact hclosed hr
            · refine ih (stop - (nl + 1)) (by omega) (by omega) ?_ hr rfl
              intro s hs j hsj hjn
              cases hs
              omega
      · rw [splitLoop_skip hroom' h hline] at hr
        refine ih (stop - (idx + (delimiter boundary).length)) (by omega) (by omega) ?_ hr rfl
        intro s hs j hsj hjn hdel
        rcases Nat.lt_trichotomy j idx with hlt | rfl | hlt
        · exact hupto s hs j hsj hlt hdel
        · exact hline hdel.2
        · exact not_lineStart_within hb hspec.1 (by omega) hlt (by omega) hdel.2

end Ionosphere.Mime
