import Ionosphere.Mime.Structure

/-! The tree that the parser builds is one and the same whatever the budget; a tree with too many
parts is collapsed as a whole. Its ranges are nested and in order. -/
namespace Ionosphere.Mime

open Ionosphere.Js Ionosphere.Lib Ionosphere.Core

variable {rs : List (Nat × Nat)} {parse : Nat → Nat → PartBudget → MimePartInfo × PartBudget}

mutual

def MimePartInfo.parts : MimePartInfo → List MimePartInfo
  | p@{ children := children, .. } => p :: partsOf children

def partsOf : List MimePartInfo → List MimePartInfo
  | [] => []
  | p :: ps => p.parts ++ partsOf ps

end

mutual

def MimePartInfo.height : MimePartInfo → Nat
  | { children := children, .. } => heightOf children

def heightOf : List MimePartInfo → Nat
  | [] => 0
  | p :: ps => max (p.height + 1) (heightOf ps)

end

variable {p : MimePartInfo} {ps : List MimePartInfo}

theorem parts_eq (p : MimePartInfo) : p.parts = p :: partsOf p.children := by
  cases p
  rfl

theorem mem_partsOf {q : MimePartInfo} : q ∈ partsOf ps ↔ ∃ p ∈ ps, q ∈ p.parts := by
  induction ps with
  | nil => simp [partsOf]
  | cons p ps ih => simp [partsOf, ih]

theorem length_le_partsOf (ps : List MimePartInfo) : ps.length ≤ (partsOf ps).length := by
  induction ps with
  | nil => exact Nat.le_refl 0
  | cons p ps ih =>
    rw [partsOf, List.length_append, parts_eq, List.length_cons, List.length_cons]
    omega

theorem height_eq (p : MimePartInfo) : p.height = heightOf p.children := by
  cases p
  rfl

theorem heightOf_le {n : Nat} (h : ∀ p ∈ ps, p.height + 1 ≤ n) : heightOf ps ≤ n := by
  induction ps with
  | nil => exact Nat.zero_le n
  | cons p ps ih =>
    rw [heightOf]
    exact Nat.max_le.mpr ⟨h p (.head _), ih fun q hq => h q (.tail _ hq)⟩

/-- Ranges one behind the other within `[lo, hi)`. -/
def InOrder : Nat → List (Nat × Nat) → Nat → Prop
  | _, [], _ => True
  | lo, r :: rs, hi => lo ≤ r.1 ∧ r.1 ≤ r.2 ∧ r.2 ≤ hi ∧ InOrder r.2 rs hi

theorem InOrder.within {lo hi : Nat} (h : InOrder lo rs hi)
    {r : Nat × Nat} (hr : r ∈ rs) : lo ≤ r.1 ∧ r.1 ≤ r.2 ∧ r.2 ≤ hi := by
  induction rs generalizing lo with
  | nil => cases hr
  | cons r' rs ih =>
    obtain ⟨hlo, hne, hhi, hrest⟩ := h
    rcases List.mem_cons.mp hr with rfl | hr
    · exact ⟨hlo, hne, hhi⟩
    · have hlater := ih hrest hr
      exact ⟨by omega, hlater.2⟩

theorem InOrder.pairwise {lo hi : Nat} (h : InOrder lo rs hi) :
    rs.Pairwise fun a b => a.2 ≤ b.1 := by
  induction rs generalizing lo with
  | nil => exact .nil
  | cons r rs ih =>
    obtain ⟨-, -, -, hrest⟩ := h
    exact .cons (fun r' hr' => (hrest.within hr').1) (ih hrest)

variable {bin boundary : Text} {start stop cursor room : Nat} {partStart : Option Nat}

section

variable {idx nl : Nat} (hroom : room ≠ 0)

def openRange (partStart : Option Nat) (stop : Nat) : List (Nat × Nat) :=
  match partStart with
  | none => []
  | some s => if s < stop then [(s, stop)] else []

def closedRange (bin : Text) (partStart : Option Nat) (idx : Nat) : List (Nat × Nat) :=
  partStart.toList.map fun s => (s, partEnd bin s idx)

def AtLineStart (bin : Text) (start idx : Nat) : Prop :=
  idx = start ∨ bin[idx - 1]? = some '\n'

theorem splitLoop_zero : splitLoop bin boundary start stop cursor partStart 0 = [] := by
  rw [splitLoop.eq_def bin boundary start stop cursor, if_pos rfl]

include hroom

theorem splitLoop_none (h : indexOfWithin bin (delimiter boundary) cursor stop = none) :
    splitLoop bin boundary start stop cursor partStart room = openRange partStart stop := by
  rw [splitLoop.eq_def bin boundary start stop cursor, if_neg hroom]
  split
  · rfl
  · simp_all

variable (h : indexOfWithin bin (delimiter boundary) cursor stop = some idx)

include h

theorem splitLoop_skip
    (hline : ¬ AtLineStart bin start idx) :
    splitLoop bin boundary start stop cursor partStart room =
      splitLoop bin boundary start stop (idx + (delimiter boundary).length) partStart room := by
  rw [splitLoop.eq_def bin boundary start stop cursor, if_neg hroom]
  split
  · simp_all
  · rename_i i hi
    obtain rfl : idx = i := Option.some.inj (h.symm.trans hi)
    exact if_pos (not_or.mp hline)

theorem splitLoop_final
    (hline : AtLineStart bin start idx)
    (hfinal : ['-', '-'] <+: bin.drop (idx + (delimiter boundary).length)) :
    splitLoop bin boundary start stop cursor partStart room = closedRange bin partStart idx := by
  rw [splitLoop.eq_def bin boundary start stop cursor, if_neg hroom]
  split
  · simp_all
  · rename_i i hi
    obtain rfl : idx = i := Option.some.inj (h.symm.trans hi)
    dsimp only
    rw [if_neg (fun hno => hline.elim hno.1 hno.2), if_pos (List.isPrefixOf_iff_prefix.mpr hfinal)]
    rfl

theorem splitLoop_cut
    (hline : AtLineStart bin start idx)
    (hfinal : ¬ ['-', '-'] <+: bin.drop (idx + (delimiter boundary).length))
    (hnl : indexOfWithin bin ['\n'] (idx + (delimiter boundary).length) stop = none) :
    splitLoop bin boundary start stop cursor partStart room = closedRange bin partStart idx := by
  rw [splitLoop.eq_def bin boundary start stop cursor, if_neg hroom]
  split
  · simp_all
  · rename_i i hi
    obtain rfl : idx = i := Option.some.inj (h.symm.trans hi)
    dsimp only
    rw [if_neg (fun hno => hline.elim hno.1 hno.2),
      if_neg (fun hpre => hfinal (List.isPrefixOf_iff_prefix.mp hpre))]
    split
    · rfl
    · simp_all

theorem splitLoop_next
    (hline : AtLineStart bin start idx)
    (hfinal : ¬ ['-', '-'] <+: bin.drop (idx + (delimiter boundary).length))
    (hnl : indexOfWithin bin ['\n'] (idx + (delimiter boundary).length) stop = some nl) :
    splitLoop bin boundary start stop cursor partStart room = closedRange bin partStart idx ++
      splitLoop bin boundary start stop (nl + 1) (some (nl + 1))
        (room - partStart.toList.length) := by
  rw [splitLoop.eq_def bin boundary start stop cursor, if_neg hroom]
  split
  · simp_all
  · rename_i i hi
    obtain rfl : idx = i := Option.some.inj (h.symm.trans hi)
    dsimp only
    rw [if_neg (fun hno => hline.elim hno.1 hno.2),
      if_neg (fun hpre => hfinal (List.isPrefixOf_iff_prefix.mp hpre))]
    split
    · simp_all
    · rename_i j hj
      obtain rfl : nl = j := Option.some.inj (hnl.symm.trans hj)
      rw [List.length_map]
      rfl

end

theorem partEnd_bounds {s idx : Nat} (bin : Text) (h : s ≤ idx) :
    s ≤ partEnd bin s idx ∧ partEnd bin s idx ≤ idx := by
  dsimp only [partEnd]
  split_ifs <;> omega

theorem inOrder_closed {lo idx : Nat} {rest : List (Nat × Nat)} (hlo : lo ≤ cursor)
    (hstart : ∀ s ∈ partStart, lo ≤ s ∧ s ≤ cursor) (hidx : cursor ≤ idx ∧ idx < stop)
    (hrest : ∀ lo' ≤ idx, InOrder lo' rest stop) :
    InOrder lo ((partStart.toList.map fun s => (s, partEnd bin s idx)) ++ rest) stop := by
  cases partStart with
  | none => exact hrest lo (by omega)
  | some s =>
    have hs := hstart s rfl
    have he := partEnd_bounds bin (show s ≤ idx by omega)
    have hstop : partEnd bin s idx ≤ stop := by omega
    exact ⟨hs.1, he.1, hstop, hrest _ he.2⟩

theorem splitLoop_inOrder {lo : Nat} (hlo : lo ≤ cursor)
    (hstart : ∀ s ∈ partStart, lo ≤ s ∧ s ≤ cursor) :
    InOrder lo (splitLoop bin boundary start stop cursor partStart room) stop := by
  fun_induction splitLoop bin boundary start stop cursor partStart room generalizing lo
  case case1 | case2 | case4 => trivial
  case case3 s hlt =>
    have hs := hstart s rfl
    exact ⟨hs.1, Nat.le_of_lt hlt, Nat.le_refl _, trivial⟩
  case case5 hb _ _ ih =>
    refine ih (by omega) fun s hs => ?_
    have hcur := hstart s hs
    omega
  case case6 hb _ _ ranges _ | case7 hb _ _ ranges _ _ =>
    rw [← List.append_nil ranges]
    exact inOrder_closed hlo hstart hb fun _ _ => trivial
  case case8 hb _ _ ranges _ nl _ hnl ih =>
    refine inOrder_closed hlo hstart hb fun lo' hlo' => ih (by omega) fun s hs => ?_
    cases hs
    omega

theorem splitLoop_length : (splitLoop bin boundary start stop cursor partStart room).length ≤
    partStart.toList.length + (stop - cursor) := by
  fun_induction splitLoop bin boundary start stop cursor partStart room
  case case1 | case2 | case3 | case4 => simp
  case case5 => omega
  case case6 ranges _ | case7 ranges _ _ =>
    simp [ranges]
  case case8 hb _ _ ranges _ nl _ hnl ih =>
    have hone : (some (nl + 1)).toList.length = 1 := rfl
    have hranges : ranges.length = _ := List.length_map _
    rw [List.length_append]
    omega

theorem length_openRange_le (partStart : Option Nat) (stop : Nat) :
    (openRange partStart stop).length ≤ 1 := by
  cases partStart with
  | none => exact Nat.zero_le 1
  | some s =>
    rw [openRange]
    split_ifs <;> simp

theorem length_closedRange (bin : Text) (partStart : Option Nat) (idx : Nat) :
    (closedRange bin partStart idx).length = partStart.toList.length := List.length_map _

theorem length_closedRange_le (bin : Text) (partStart : Option Nat) (idx : Nat) :
    (closedRange bin partStart idx).length ≤ 1 := by
  rw [length_closedRange]
  cases partStart <;> simp

theorem splitLoop_take (n : Nat) :
    (splitLoop bin boundary start stop cursor partStart room).take n =
      splitLoop bin boundary start stop cursor partStart (min n room) := by
  induction hd : stop - cursor using Nat.strong_induction_on
    generalizing cursor partStart room n with
  | _ d ih =>
    rcases Nat.eq_zero_or_pos n with rfl | hn
    · rw [List.take_zero, Nat.zero_min, splitLoop_zero]
    rcases Nat.eq_zero_or_pos room with rfl | hroom
    · rw [Nat.min_zero, splitLoop_zero, List.take_nil]
    have hroom' : room ≠ 0 := by omega
    have hmin : min n room ≠ 0 := by omega
    have hlen := length_delimiter boundary
    cases h : indexOfWithin bin (delimiter boundary) cursor stop with
    | none =>
      have hone := length_openRange_le partStart stop
      rw [splitLoop_none hroom' h, splitLoop_none hmin h, List.take_of_length_le (by omega)]
    | some idx =>
      have hb := indexOfWithin_bounds h
      have hone := length_closedRange_le bin partStart idx
      by_cases hline : AtLineStart bin start idx
      · by_cases hfinal : ['-', '-'] <+: bin.drop (idx + (delimiter boundary).length)
        · rw [splitLoop_final hroom' h hline hfinal, splitLoop_final hmin h hline hfinal,
            List.take_of_length_le (by omega)]
        · cases hnl : indexOfWithin bin ['\n'] (idx + (delimiter boundary).length) stop with
          | none =>
            rw [splitLoop_cut hroom' h hline hfinal hnl, splitLoop_cut hmin h hline hfinal hnl,
              List.take_of_length_le (by omega)]
          | some nl =>
            have hnlb := indexOfWithin_bounds hnl
            have hlt : stop - (nl + 1) < d := by omega
            rw [splitLoop_next hroom' h hline hfinal hnl, splitLoop_next hmin h hline hfinal hnl,
              List.take_append, List.take_of_length_le (by omega), ih _ hlt _ rfl,
              length_closedRange, Nat.sub_min_sub_right]
      · have hlt : stop - (idx + (delimiter boundary).length) < d := by omega
        rw [splitLoop_skip hroom' h hline, splitLoop_skip hmin h hline, ih _ hlt _ rfl]

theorem splitParts_take (bin boundary : Text) (start stop n : Nat) :
    splitParts bin boundary start stop n = (splitParts bin boundary start stop stop).take n := by
  have hlen : (splitLoop bin boundary start stop start none n).length ≤ stop := by
    refine Nat.le_trans splitLoop_length ?_
    simp
  have htake : (splitLoop bin boundary start stop start none n).take stop =
      splitLoop bin boundary start stop start none (min stop n) := splitLoop_take stop
  rw [List.take_of_length_le hlen] at htake
  rw [splitParts, splitParts, splitLoop_take]
  rcases Nat.le_total n stop with hle | hle
  · rw [Nat.min_eq_left hle]
  · rw [Nat.min_eq_right hle, htake, Nat.min_eq_left hle]

variable (u : CaseMap) (cs : Charsets)

def childRanges (bin : Text) (p : MimePartInfo) : List (Nat × Nat) :=
  match p.contentType.boundary with
  | some boundary => splitParts bin boundary p.bodyStart p.stop p.stop
  | none => if p.contentType.isMessage then [(p.bodyStart, p.stop)] else []

def wholePart (bin : Text) : Nat → Nat → Nat → MimePartInfo
  | 0, start, stop => partInfo u cs bin start stop
  | levels + 1, start, stop =>
    let part := partInfo u cs bin start stop
    { part with children := (childRanges bin part).map fun r => wholePart bin levels r.1 r.2 }

def Budgeted (parse : PartBudget → List MimePartInfo × PartBudget) (whole : List MimePartInfo) :
    Prop :=
  ∀ remaining : Nat,
    ((partsOf whole).length ≤ remaining →
      parse ⟨remaining, false⟩ = (whole, ⟨remaining - (partsOf whole).length, false⟩)) ∧
    (remaining < (partsOf whole).length → (parse ⟨remaining, false⟩).2.exceeded = true)

def single (parse : PartBudget → MimePartInfo × PartBudget) (budget : PartBudget) :
    List MimePartInfo × PartBudget := ([(parse budget).1], (parse budget).2)

theorem parseRanges_exceeded (rs : List (Nat × Nat)) {budget : PartBudget}
    (h : budget.exceeded = true) :
    parseRanges parse rs budget = ([], budget) := by
  cases rs with
  | nil => rfl
  | cons r rs => rw [parseRanges, if_pos h]

theorem parseRanges_budgeted {whole : Nat × Nat → MimePartInfo}
    (h : ∀ r ∈ rs, Budgeted (single (parse r.1 r.2)) [whole r]) :
    Budgeted (parseRanges parse rs) (rs.map whole) := by
  induction rs with
  | nil =>
    intro remaining
    simp [partsOf, parseRanges]
  | cons r rs ih =>
    intro remaining
    have hrest := ih fun r' hr' => h r' (.tail _ hr')
    have hchild := h r (.head _) remaining
    have hnot : ¬ (⟨remaining, false⟩ : PartBudget).exceeded = true := by simp
    simp only [List.map_cons, partsOf, List.append_nil, List.length_append] at hchild ⊢
    rw [parseRanges, if_neg hnot]
    dsimp only
    by_cases hfit : (whole r).parts.length ≤ remaining
    · have hone := hchild.1 hfit
      rw [single, Prod.mk.injEq, List.cons.injEq] at hone
      obtain ⟨⟨hpart, -⟩, hbudget⟩ := hone
      have hcast : (⟨(remaining : Int) - ((whole r).parts.length : Nat), false⟩ : PartBudget) =
          ⟨((remaining - (whole r).parts.length : Nat) : Int), false⟩ := by
        rw [Int.ofNat_sub hfit]
      rw [hpart, hbudget, hcast]
      constructor
      · intro hle
        rw [(hrest _).1 (by omega)]
        simp only [Prod.mk.injEq, PartBudget.mk.injEq, and_true, true_and]
        omega
      · intro hlt
        exact (hrest _).2 (by omega)
    · have hover : (parse r.1 r.2 ⟨remaining, false⟩).2.exceeded = true := hchild.2 (by omega)
      rw [parseRanges_exceeded rs hover]
      constructor
      · intro hle
        omega
      · intro _
        exact hover

theorem budgeted_of_take (part : MimePartInfo)
    {parse : PartBudget → MimePartInfo × PartBudget}
    {find : PartBudget → List MimePartInfo × PartBudget} {children : List MimePartInfo}
    (hfind : Budgeted find children)
    (hover : ∀ budget : PartBudget, budget.take.exceeded = true →
      (parse budget).2.exceeded = true)
    (hparse : ∀ budget : PartBudget, budget.take.exceeded = false →
      (parse budget).2 = (find budget.take).2 ∧
        ((find budget.take).2.exceeded = false →
          (parse budget).1 = { part with children := (find budget.take).1 })) :
    Budgeted (single parse) [{ part with children := children }] := by
  intro remaining
  have hcost : (partsOf [{ part with children := children }]).length =
      (partsOf children).length + 1 := by
    rw [partsOf, partsOf, List.append_nil, parts_eq, List.length_cons]
  rw [hcost, single]
  cases remaining with
  | zero =>
    have htake : (PartBudget.take ⟨(0 : Nat), false⟩).exceeded = true := by decide
    exact ⟨fun hle => by omega, fun _ => hover _ htake⟩
  | succ r =>
    have htake : PartBudget.take ⟨(r + 1 : Nat), false⟩ = ⟨(r : Nat), false⟩ := by
      simp [PartBudget.take]
    obtain ⟨hbudget, hpart⟩ := hparse ⟨(r + 1 : Nat), false⟩ (by rw [htake])
    rw [htake] at hbudget hpart
    rw [hbudget]
    constructor
    · intro hle
      have hfound := (hfind r).1 (by omega)
      rw [hfound] at hpart ⊢
      rw [hpart rfl]
      simp only [Prod.mk.injEq, PartBudget.mk.injEq, and_true, true_and]
      omega
    · intro hlt
      exact (hfind r).2 (by omega)

variable {u cs}

theorem budgeted_nil : Budgeted (fun budget => ([], budget)) [] := by
  intro remaining
  simp [partsOf]

theorem budgeted_ranges {whole : Nat × Nat → MimePartInfo} {all : List (Nat × Nat)}
    {cut : Nat → List (Nat × Nat)}
    (h : ∀ r ∈ all, Budgeted (single (parse r.1 r.2)) [whole r])
    (hcut : ∀ n, cut n = all.take n) :
    Budgeted (fun budget =>
      let ranges := cut (budget.remaining + 1).toNat
      parseRanges parse ranges
        (if budget.remaining < ranges.length then { budget with exceeded := true } else budget))
      (all.map whole) := by
  intro remaining
  have hroom : ((remaining : Int) + 1).toNat = remaining + 1 := by omega
  have hlen := length_le_partsOf (all.map whole)
  rw [List.length_map] at hlen
  dsimp only
  rw [hroom, hcut]
  by_cases hfit : all.length ≤ remaining
  · have hnot : ¬ (remaining : Int) < all.length := by omega
    rw [List.take_of_length_le (by omega), if_neg hnot]
    exact parseRanges_budgeted h remaining
  · have hmany : (remaining : Int) < (all.take (remaining + 1)).length := by
      rw [List.length_take]
      omega
    rw [if_pos hmany, parseRanges_exceeded _ rfl]
    exact ⟨fun hle => by omega, fun _ => rfl⟩

theorem parseRange_budgeted (levels start stop : Nat) :
    Budgeted (single (parseRange u cs bin levels start stop))
      [wholePart u cs bin levels start stop] := by
  induction levels generalizing start stop with
  | zero =>
    exact budgeted_of_take (partInfo u cs bin start stop) budgeted_nil (fun _ h => h) fun _ _ => ⟨rfl, fun _ => rfl⟩
  | succ levels ih =>
    rw [wholePart]
    dsimp only [childRanges]
    have hover : ∀ budget : PartBudget, budget.take.exceeded = true →
        (parseRange u cs bin (levels + 1) start stop budget).2.exceeded = true := by
      intro budget h
      rw [parseRange]
      dsimp only
      rw [if_pos h]
      exact h
    cases hb : (partInfo u cs bin start stop).contentType.boundary with
    | none =>
      dsimp only
      by_cases hm : (partInfo u cs bin start stop).contentType.isMessage = true
      · rw [if_pos hm]
        refine budgeted_of_take _ (ih (partInfo u cs bin start stop).bodyStart stop) hover
          fun budget h => ?_
        have hnot : ¬ budget.take.exceeded = true := by simp [h]
        rw [parseRange]
        dsimp only
        rw [if_neg hnot, hb]
        dsimp only
        rw [if_pos hm]
        exact ⟨rfl, fun _ => rfl⟩
      · rw [if_neg hm]
        refine budgeted_of_take _ budgeted_nil hover fun budget h => ?_
        have hnot : ¬ budget.take.exceeded = true := by simp [h]
        rw [parseRange]
        dsimp only
        rw [if_neg hnot, hb]
        dsimp only
        rw [if_neg hm]
        exact ⟨rfl, fun _ => rfl⟩
    | some boundary =>
      refine budgeted_of_take _ (budgeted_ranges (fun r _ => ih r.1 r.2)
        fun n => splitParts_take bin boundary _ stop n) hover fun budget h => ?_
      have hnot : ¬ budget.take.exceeded = true := by simp [h]
      rw [parseRange]
      dsimp only
      rw [if_neg hnot, hb]
      exact ⟨rfl, fun _ => rfl⟩

theorem parseStructure_eq (raw : Bytes) :
    let whole := wholePart u cs (latin1Decode raw) maxMimeDepth 0 raw.length
    parseStructure u cs raw =
      if whole.parts.length ≤ maxMimeParts then whole else collapsedPart (latin1Decode raw) := by
  have h : Budgeted (single (parseRange u cs (latin1Decode raw) maxMimeDepth 0 raw.length))
      [wholePart u cs (latin1Decode raw) maxMimeDepth 0 raw.length] := parseRange_budgeted _ _ _
  replace h := h maxMimeParts
  rw [single, partsOf, partsOf, List.append_nil] at h
  dsimp only
  rw [parseStructure, latin1Decode_length]
  split_ifs with hover hfit hfit
  · have hfound := h.1 hfit
    rw [Prod.mk.injEq] at hfound
    rw [hfound.2] at hover
    exact absurd hover (by simp)
  · rfl
  · have hfound := h.1 hfit
    rw [Prod.mk.injEq, List.cons.injEq] at hfound
    exact hfound.1.1
  · exact absurd (h.2 (by omega)) hover

/-- A part lies in order with its children in its body. -/
structure WellPlaced (p : MimePartInfo) : Prop where
  header : p.start ≤ p.bodyStart
  body : p.bodyStart ≤ p.stop
  inside : ∀ c ∈ p.children, p.bodyStart ≤ c.start ∧ c.stop ≤ p.stop
  inOrder : p.children.Pairwise fun a b => a.stop ≤ b.start

theorem findBodyStart_order (bin : Text) (h : start ≤ stop) :
    start ≤ (findBodyStart bin start stop).headerEnd ∧
      (findBodyStart bin start stop).headerEnd ≤ (findBodyStart bin start stop).bodyStart ∧
      (findBodyStart bin start stop).bodyStart ≤ stop := by
  rw [findBodyStart]
  cases hcrlf : indexOfWithin bin blankCrlf start stop with
  | none =>
    cases hlf : indexOfWithin bin blankLf start stop with
    | none => exact ⟨h, Nat.le_refl _, Nat.le_refl _⟩
    | some j =>
      have hj := indexOfWithin_bounds hlf
      dsimp only [Option.map_none]
      omega
  | some i =>
    have hi := indexOfWithin_bounds hcrlf
    cases hlf : indexOfWithin bin blankLf start stop with
    | none =>
      dsimp only [Option.map_some]
      omega
    | some j =>
      have hj := indexOfWithin_bounds hlf
      dsimp only [Option.map_some]
      by_cases hlt : j < i
      · rw [if_pos hlt]
        dsimp only
        omega
      · rw [if_neg hlt]
        dsimp only
        omega

theorem findBodyStart_bounds (bin : Text) (h : start ≤ stop) :
    start ≤ (findBodyStart bin start stop).bodyStart ∧
      (findBodyStart bin start stop).bodyStart ≤ stop := by
  have horder := findBodyStart_order bin h
  exact ⟨Nat.le_trans horder.1 horder.2.1, horder.2.2⟩

theorem childRanges_inOrder (bin : Text) (p : MimePartInfo) (h : p.bodyStart ≤ p.stop) :
    InOrder p.bodyStart (childRanges bin p) p.stop := by
  rw [childRanges]
  split
  · exact splitLoop_inOrder (Nat.le_refl _) nofun
  · split_ifs
    · exact ⟨Nat.le_refl _, h, Nat.le_refl _, trivial⟩
    · trivial

theorem wholePart_start (levels start stop : Nat) :
    (wholePart u cs bin levels start stop).start = start := by
  cases levels <;> rfl

theorem wholePart_stop (levels start stop : Nat) :
    (wholePart u cs bin levels start stop).stop = stop := by
  cases levels <;> rfl

theorem wholePart_placed {levels : Nat} (h : start ≤ stop) {q : MimePartInfo}
    (hq : q ∈ (wholePart u cs bin levels start stop).parts) : WellPlaced q ∧ q.stop ≤ stop := by
  have hbody := findBodyStart_bounds bin h
  induction levels generalizing start stop with
  | zero =>
    rw [wholePart, parts_eq, List.mem_cons] at hq
    rcases hq with rfl | hq
    · exact ⟨⟨hbody.1, hbody.2, nofun, .nil⟩, Nat.le_refl _⟩
    · cases hq
  | succ levels ih =>
    have horder := childRanges_inOrder bin (partInfo u cs bin start stop) hbody.2
    rw [wholePart, parts_eq, List.mem_cons] at hq
    rcases hq with rfl | hq
    · refine ⟨⟨hbody.1, hbody.2, ?_, ?_⟩, Nat.le_refl _⟩
      · intro c hc
        obtain ⟨r, hr, rfl⟩ := List.mem_map.mp hc
        rw [wholePart_start, wholePart_stop]
        exact ⟨(horder.within hr).1, (horder.within hr).2.2⟩
      · refine List.pairwise_map.mpr (horder.pairwise.imp ?_)
        intro a b hab
        rwa [wholePart_stop, wholePart_start]
    · obtain ⟨c, hc, hqc⟩ := mem_partsOf.mp hq
      obtain ⟨r, hr, rfl⟩ := List.mem_map.mp hc
      have hr' := horder.within hr
      have hchild := ih hr'.2.1 hqc (findBodyStart_bounds bin hr'.2.1)
      exact ⟨hchild.1, Nat.le_trans hchild.2 hr'.2.2⟩

theorem wholePart_height (levels start stop : Nat) :
    (wholePart u cs bin levels start stop).height ≤ levels := by
  induction levels generalizing start stop with
  | zero => exact Nat.le_refl 0
  | succ levels ih =>
    rw [wholePart, height_eq]
    refine heightOf_le fun c hc => ?_
    obtain ⟨r, -, rfl⟩ := List.mem_map.mp hc
    exact Nat.succ_le_succ (ih r.1 r.2)

theorem structure_invariant (u : CaseMap) (cs : Charsets) (raw : Bytes) :
    (∀ p ∈ (parseStructure u cs raw).parts, WellPlaced p ∧ p.stop ≤ raw.length) ∧
      (parseStructure u cs raw).parts.length ≤ maxMimeParts ∧
      (parseStructure u cs raw).height ≤ maxMimeDepth := by
  rw [parseStructure_eq]
  split_ifs with hfit
  · exact ⟨fun p hp => wholePart_placed (Nat.zero_le _) hp, hfit, wholePart_height _ _ _⟩
  · have hone : (collapsedPart (latin1Decode raw)).parts = [collapsedPart (latin1Decode raw)] := rfl
    refine ⟨fun p hp => ?_, ?_, Nat.zero_le _⟩
    · rw [hone] at hp
      obtain rfl := List.mem_singleton.mp hp
      exact ⟨⟨Nat.le_refl 0, Nat.zero_le _, nofun, .nil⟩,
        Nat.le_of_eq (latin1Decode_length raw)⟩
    · rw [hone]
      exact Nat.le_add_left 1 1023

end Ionosphere.Mime
