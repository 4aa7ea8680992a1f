import Ionosphere.Smtp.DataFraming

/-! What `sendSmtp` writes after the 354 reply. The client doubles a dot that follows any LF; the
lines of the server end with CRLF, and it takes one dot off the start of each. -/
namespace Ionosphere.Mta

open Ionosphere.Js Ionosphere.Lib Ionosphere.Smtp

/-- The loop of `dotStuff`. -/
def dotStuffFrom (atLineStart : Bool) : Bytes → Bytes
  | [] => []
  | b :: raw =>
    if atLineStart && b = DOT then DOT :: b :: dotStuffFrom (b = LF) raw
    else b :: dotStuffFrom (b = LF) raw

/-- Where there is nothing to double the source gives `raw` itself. -/
def dotStuff (raw : Bytes) : Bytes := dotStuffFrom true raw

def endsWithCrlf (bytes : Bytes) : Bool :=
  let n := bytes.length
  2 ≤ n && bytes[n - 2]? = some CR && bytes[n - 1]? = some LF

def dataBytes (raw : Bytes) : Bytes :=
  let stuffed := dotStuff raw
  stuffed ++ if endsWithCrlf stuffed then [DOT, CR, LF] else [CR, LF, DOT, CR, LF]

def completed (raw : Bytes) : Bytes := if endsWithCrlf raw then raw else raw ++ [CR, LF]

def BareDot (raw : Bytes) : Prop :=
  ∃ a b, raw = a ++ LF :: DOT :: b ∧ a.getLast? ≠ some CR

def unlines (ls : List Bytes) : Bytes := ls.flatMap fun l => l ++ [CR, LF]

theorem unlines_cons (l : Bytes) (ls : List Bytes) :
    unlines (l :: ls) = l ++ CR :: LF :: unlines ls := by
  rw [unlines, List.flatMap_cons, List.append_assoc]
  rfl

theorem endsWithCrlf_iff {s : Bytes} : endsWithCrlf s = true ↔ ∃ t, s = t ++ [CR, LF] := by
  rw [endsWithCrlf]
  constructor
  · intro h
    simp only [Bool.and_eq_true, decide_eq_true_eq] at h
    obtain ⟨⟨hlen, hcr⟩, hlf⟩ := h
    refine ⟨s.take (s.length - 2), List.ext_getElem? fun i => ?_⟩
    rcases Nat.lt_trichotomy i (s.length - 2) with hi | hi | hi
    · rw [List.getElem?_append_left (by rw [List.length_take]; omega), List.getElem?_take_of_lt hi]
    · rw [List.getElem?_append_right (by rw [List.length_take]; omega), List.length_take, hi, hcr]
      have hzero : s.length - 2 - min (s.length - 2) s.length = 0 := by omega
      rw [hzero]
      rfl
    · rw [List.getElem?_append_right (by rw [List.length_take]; omega), List.length_take]
      by_cases hlast : i = s.length - 1
      · have hone : i - min (s.length - 2) s.length = 1 := by omega
        rw [hone, hlast, hlf]
        rfl
      · rw [List.getElem?_eq_none (by omega), List.getElem?_eq_none]
        simp only [List.length_cons, List.length_nil]
        omega
  · rintro ⟨t, rfl⟩
    simp

theorem completed_eq (raw : Bytes) : ∃ t, completed raw = t ++ [CR, LF] := by
  rw [completed]
  split
  next h => exact endsWithCrlf_iff.mp h
  next => exact ⟨raw, rfl⟩

theorem cut_line_none {s l r : Bytes} (h : Lines.cut CR LF s = some (l, r)) :
    Lines.cut CR LF l = none := by
  induction s generalizing l with
  | nil => cases h
  | cons a t ih =>
    rw [Lines.cut] at h
    split at h
    · cases h
      rfl
    next hne =>
      obtain ⟨⟨l', r'⟩, hcut, heq⟩ := Option.map_eq_some_iff.mp h
      cases heq
      rw [Lines.cut, ih hcut, if_neg]
      · rfl
      · rintro ⟨ha, hhead⟩
        have ht := Lines.eq_of_cut hcut
        cases l' with
        | nil => cases hhead
        | cons b l' =>
          rw [ht] at hne
          exact hne ⟨ha, hhead⟩

theorem exists_lines (s : Bytes) : ∃ ls tail, s = unlines ls ++ tail ∧
    (∀ l ∈ ls, Lines.cut CR LF l = none) ∧ Lines.cut CR LF tail = none := by
  induction hn : s.length using Nat.strongRecOn generalizing s with
  | ind n ih =>
    cases hcut : Lines.cut CR LF s with
    | none => exact ⟨[], s, rfl, nofun, hcut⟩
    | some p =>
      obtain ⟨l, r⟩ := p
      have hlen := Lines.length_of_cut hcut
      obtain ⟨ls, tail, hr, hls, htail⟩ := ih r.length (by omega) r rfl
      refine ⟨l :: ls, tail, ?_, List.forall_mem_cons.mpr ⟨cut_line_none hcut, hls⟩, htail⟩
      rw [Lines.eq_of_cut hcut, hr, unlines_cons, List.append_assoc]
      rfl

theorem unlines_last {ls : List Bytes} (h : ls ≠ []) : (unlines ls).getLast? = some LF := by
  obtain ⟨ls', l, rfl⟩ := (List.eq_nil_or_concat' ls).resolve_left h
  simp [unlines]

theorem exists_unlines {s : Bytes} (h : ∃ t, s = t ++ [CR, LF]) :
    ∃ ls, s = unlines ls ∧ ∀ l ∈ ls, Lines.cut CR LF l = none := by
  obtain ⟨t, ht⟩ := h
  obtain ⟨ls, tail, hs, hls, htail⟩ := exists_lines s
  suffices hnil : tail = [] by
    rw [hnil, List.append_nil] at hs
    exact ⟨ls, hs, hls⟩
  rw [hs] at ht
  have hnot : ∀ m, tail ≠ m ++ [CR, LF] := by
    rintro m rfl
    have hsome : (Lines.cut CR LF (m ++ [CR, LF])).isSome := Lines.cut_isSome m []
    rw [htail] at hsome
    cases hsome
  rcases List.append_eq_append_iff.mp ht with ⟨m, -, hm⟩ | ⟨m, hm, hcrlf⟩
  · exact absurd hm (hnot m)
  · match m with
    | [] => exact absurd hcrlf.symm (hnot [])
    | [c] =>
      obtain ⟨rfl, -⟩ := List.cons.inj hcrlf
      have hls' : ls ≠ [] := by
        rintro rfl
        simp [unlines] at hm
      have hlast := unlines_last hls'
      rw [hm, List.getLast?_concat] at hlast
      exact absurd (Option.some.inj hlast) (by decide)
    | c :: d :: m =>
      have hlen := congrArg List.length hcrlf
      simp only [List.length_cons, List.length_append, List.length_nil] at hlen
      exact List.eq_nil_of_length_eq_zero (by omega)

theorem dotStuffFrom_line (start : Bool) (l rest : Bytes) :
    dotStuffFrom start (l ++ CR :: LF :: rest) =
      dotStuffFrom start l ++ CR :: LF :: dotStuffFrom true rest := by
  induction l generalizing start with
  | nil => simp [dotStuffFrom, CR, LF, DOT]
  | cons b l ih =>
    rw [List.cons_append, dotStuffFrom, dotStuffFrom, ih]
    split <;> rfl

theorem dotStuff_unlines (ls : List Bytes) : dotStuff (unlines ls) = unlines (ls.map dotStuff) := by
  induction ls with
  | nil => rfl
  | cons l ls ih =>
    rw [dotStuff, unlines_cons, dotStuffFrom_line, List.map_cons, unlines_cons, ← dotStuff, ← dotStuff,
      ih]

theorem dotStuffFrom_append (start : Bool) (t u : Bytes) :
    ∃ start', dotStuffFrom start (t ++ u) = dotStuffFrom start t ++ dotStuffFrom start' u := by
  induction t generalizing start with
  | nil => exact ⟨start, rfl⟩
  | cons b t ih =>
    obtain ⟨start', h⟩ := ih (b = LF)
    refine ⟨start', ?_⟩
    rw [List.cons_append, dotStuffFrom, dotStuffFrom, h]
    split <;> rfl

theorem dotStuffFrom_last (start : Bool) (b : UInt8) : ∃ t, dotStuffFrom start [b] = t ++ [b] := by
  rw [dotStuffFrom]
  split
  · exact ⟨[DOT], rfl⟩
  · exact ⟨[], rfl⟩

theorem dotStuffFrom_concat (start : Bool) (t : Bytes) (b : UInt8) :
    ∃ t', dotStuffFrom start (t ++ [b]) = t' ++ [b] := by
  obtain ⟨start', h⟩ := dotStuffFrom_append start t [b]
  obtain ⟨u, hu⟩ := dotStuffFrom_last start' b
  exact ⟨dotStuffFrom start t ++ u, by rw [h, hu, List.append_assoc]⟩

theorem dotStuffFrom_lf (start : Bool) (t : Bytes) (b : UInt8) :
    ∃ t', dotStuffFrom start (t ++ [b, LF]) = t' ++ [b, LF] := by
  obtain ⟨start', h⟩ := dotStuffFrom_append start (t ++ [b]) [LF]
  obtain ⟨t', ht'⟩ := dotStuffFrom_concat start t b
  refine ⟨t', ?_⟩
  rw [List.append_assoc, List.singleton_append] at h
  rw [h, ht', dotStuffFrom, if_neg (by simp [LF, DOT]), dotStuffFrom, List.append_assoc]
  rfl

theorem endsWithCrlf_dotStuff (raw : Bytes) : endsWithCrlf (dotStuff raw) = endsWithCrlf raw := by
  rw [Bool.eq_iff_iff, endsWithCrlf_iff, endsWithCrlf_iff]
  constructor
  · rintro ⟨t, ht⟩
    obtain rfl | ⟨raw, y, rfl⟩ := List.eq_nil_or_concat' raw
    · simp [dotStuff, dotStuffFrom] at ht
    obtain ⟨t', ht'⟩ := dotStuffFrom_concat true raw y
    have hy : y = LF := by
      have hlast := congrArg List.getLast? (ht'.symm.trans ht)
      simpa using hlast
    subst hy
    obtain rfl | ⟨raw, x, rfl⟩ := List.eq_nil_or_concat' raw
    · have hlen := congrArg List.length ht
      simp [dotStuff, dotStuffFrom, LF, DOT] at hlen
    rw [dotStuff, List.append_assoc, List.singleton_append] at ht
    obtain ⟨t', ht'⟩ := dotStuffFrom_lf true raw x
    have hx := (List.append_inj' (ht'.symm.trans ht) rfl).2
    exact ⟨raw, by rw [List.append_assoc, List.singleton_append, hx]⟩
  · rintro ⟨t, rfl⟩
    exact dotStuffFrom_lf true t CR

theorem dataBytes_eq (raw : Bytes) : dataBytes raw = dotStuff (completed raw) ++ [DOT, CR, LF] := by
  rw [dataBytes, completed, endsWithCrlf_dotStuff]
  split
  · rfl
  · have h := dotStuffFrom_line true raw []
    rw [dotStuff, dotStuff, h, List.append_assoc]
    rfl

theorem cut_dotStuffFrom {l : Bytes} (h : Lines.cut CR LF l = none) (start : Bool) :
    Lines.cut CR LF (dotStuffFrom start l) = none := by
  induction l generalizing start with
  | nil => rfl
  | cons b l ih =>
    rw [Lines.cut] at h
    split at h
    · cases h
    next hne =>
      have hhead : (dotStuffFrom (b = LF) l).head? = some LF → l.head? = some LF := by
        cases l with
        | nil => exact id
        | cons c l =>
          rw [dotStuffFrom]
          split
          · intro hdot
            exact absurd (Option.some.inj hdot) (by decide)
          · exact id
      have htail : Lines.cut CR LF (b :: dotStuffFrom (b = LF) l) = none := by
        rw [Lines.cut, if_neg fun hc => hne ⟨hc.1, hhead hc.2⟩,
          ih (Option.map_eq_none_iff.mp h), Option.map_none]
      rw [dotStuffFrom]
      split
      · rw [Lines.cut, if_neg (by simp [DOT, CR]), htail, Option.map_none]
      · exact htail

theorem dotStuff_ne_dot (l : Bytes) : dotStuff l ≠ [DOT] := by
  cases l with
  | nil => nofun
  | cons b l =>
    rw [dotStuff, dotStuffFrom, Bool.true_and]
    split
    · intro h
      cases (List.cons.inj h).2
    next hb =>
      intro h
      exact hb (decide_eq_true (List.cons.inj h).1)

theorem unstuff_dotStuff (l : Bytes) : unstuff (dotStuff l) = dotStuffFrom false l := by
  cases l with
  | nil => rfl
  | cons b l =>
    rw [dotStuff, dotStuffFrom, dotStuffFrom, Bool.true_and, Bool.false_and]
    split
    · rw [unstuff, if_pos rfl]
      rfl
    next hb =>
      rw [unstuff, if_neg (by simpa using hb)]
      rfl

theorem length_dotStuffFrom (start : Bool) (l : Bytes) : l.length ≤ (dotStuffFrom start l).length := by
  induction l generalizing start with
  | nil => exact le_rfl
  | cons b l ih =>
    have hle := ih (b = LF)
    rw [dotStuffFrom]
    split
    · simp only [List.length_cons]
      omega
    · simpa using hle

def NoDotAfterLf (l : Bytes) : Prop := ∀ a b, l ≠ a ++ LF :: DOT :: b

theorem noDotAfterLf_cons (b : UInt8) (l : Bytes) :
    NoDotAfterLf (b :: l) ↔ (b = LF → l.head? ≠ some DOT) ∧ NoDotAfterLf l := by
  constructor
  · intro h
    refine ⟨fun hb hhead => ?_, fun a c hl => h (b :: a) c (by rw [hl]; rfl)⟩
    obtain ⟨l', rfl⟩ := List.head?_eq_some_iff.mp hhead
    exact h [] l' (by rw [hb]; rfl)
  · rintro ⟨hhead, hl⟩ a c hsplit
    cases a with
    | nil =>
      obtain ⟨hb, rfl⟩ := List.cons.inj hsplit
      exact hhead hb rfl
    | cons x a => exact hl a c (List.cons.inj hsplit).2

theorem dotStuffFrom_eq_iff (start : Bool) (l : Bytes) :
    dotStuffFrom start l = l ↔ (start = true → l.head? ≠ some DOT) ∧ NoDotAfterLf l := by
  induction l generalizing start with
  | nil => simp [dotStuffFrom, NoDotAfterLf]
  | cons b l ih =>
    rw [noDotAfterLf_cons, dotStuffFrom]
    split
    next hdot =>
      -- The dot is doubled.
      rw [Bool.and_eq_true, decide_eq_true_iff] at hdot
      refine iff_of_false (fun h => ?_) fun h => h.1 hdot.1 (by rw [hdot.2]; rfl)
      have hlen := congrArg List.length h
      have hle := length_dotStuffFrom (b = LF) l
      simp only [List.length_cons] at hlen
      omega
    next hdot =>
      have hstart : start = true → (b :: l).head? ≠ some DOT := by
        rintro rfl hhead
        exact hdot (by simpa using hhead)
      rw [List.cons.injEq, and_iff_right rfl, ih, and_iff_right hstart, decide_eq_true_iff]

theorem unlines_stuffed_iff (ls : List Bytes) :
    unlines (ls.map (dotStuffFrom false)) = unlines ls ↔ ∀ l ∈ ls, NoDotAfterLf l := by
  induction ls with
  | nil => simp
  | cons l ls ih =>
    have hlen : ∀ ls : List Bytes,
        (unlines ls).length ≤ (unlines (ls.map (dotStuffFrom false))).length := by
      intro ls
      induction ls with
      | nil => exact le_rfl
      | cons l ls ih =>
        have hle := length_dotStuffFrom false l
        rw [List.map_cons, unlines_cons, unlines_cons]
        simp only [List.length_append, List.length_cons]
        omega
    have hl : NoDotAfterLf l ↔ dotStuffFrom false l = l := by simp [dotStuffFrom_eq_iff]
    rw [List.forall_mem_cons, ← ih, hl, List.map_cons, unlines_cons, unlines_cons]
    constructor
    · intro h
      have hle := length_dotStuffFrom false l
      have hlen := hlen ls
      have heq := congrArg List.length h
      simp only [List.length_append, List.length_cons] at heq
      obtain ⟨hfirst, hrest⟩ := List.append_inj h (by omega)
      exact ⟨hfirst, (List.cons.inj (List.cons.inj hrest).2).2⟩
    · rintro ⟨hfirst, hrest⟩
      rw [hfirst, hrest]

theorem bareDot_line {l : Bytes} (hl : Lines.cut CR LF l = none) (rest : Bytes) :
    BareDot (l ++ CR :: LF :: rest) ↔ ¬ NoDotAfterLf l ∨ BareDot rest := by
  constructor
  · rintro ⟨a, b, hsplit, hlast⟩
    rcases List.append_eq_append_iff.mp hsplit with ⟨m, rfl, hm⟩ | ⟨m, rfl, hm⟩
    · -- The LF stands behind the line.
      match m with
      | [] => exact absurd (List.cons.inj hm).1 (by decide)
      | [x] =>
        obtain ⟨rfl, -⟩ := List.cons.inj hm
        exact absurd List.getLast?_concat hlast
      | x :: y :: m =>
        obtain ⟨rfl, htail⟩ := List.cons.inj hm
        obtain ⟨rfl, hrest⟩ := List.cons.inj htail
        refine .inr ⟨m, b, hrest, fun hcr => hlast ?_⟩
        obtain ⟨m', rfl⟩ := List.getLast?_eq_some_iff.mp hcr
        rw [← List.cons_append, ← List.cons_append, ← List.append_assoc]
        exact List.getLast?_concat
    · match m with
      | [] => exact absurd (List.cons.inj hm).1 (by decide)
      | [x] => exact absurd (List.cons.inj (List.cons.inj hm).2).1 (by decide)
      | x :: y :: m =>
        obtain ⟨rfl, htail⟩ := List.cons.inj hm
        obtain ⟨rfl, -⟩ := List.cons.inj htail
        exact .inl fun h => h a m rfl
  · rintro (h | ⟨a, b, rfl, hlast⟩)
    · rw [NoDotAfterLf] at h
      push Not at h
      obtain ⟨a, b, rfl⟩ := h
      refine ⟨a, b ++ CR :: LF :: rest, by simp, fun hcr => ?_⟩
      -- A CR there would end the line.
      obtain ⟨a', rfl⟩ := List.getLast?_eq_some_iff.mp hcr
      have hsome : (Lines.cut CR LF (a' ++ CR :: LF :: DOT :: b)).isSome := Lines.cut_isSome a' _
      rw [List.append_assoc, List.singleton_append] at hl
      rw [hl] at hsome
      cases hsome
    · refine ⟨l ++ CR :: LF :: a, b, by simp, fun hcr => hlast ?_⟩
      cases a with
      | nil =>
        rw [List.getLast?_append] at hcr
        exact absurd (Option.some.inj hcr) (by decide)
      | cons x a => simpa using hcr

theorem bareDot_unlines {ls : List Bytes} (hls : ∀ l ∈ ls, Lines.cut CR LF l = none) :
    BareDot (unlines ls) ↔ ∃ l ∈ ls, ¬ NoDotAfterLf l := by
  induction ls with
  | nil => simp [BareDot, unlines]
  | cons l ls ih =>
    rw [List.forall_mem_cons] at hls
    rw [unlines_cons, bareDot_line hls.1, ih hls.2, List.exists_mem_cons_iff]

theorem bareDot_completed (raw : Bytes) : BareDot (completed raw) ↔ BareDot raw := by
  rw [completed]
  split
  · rfl
  · constructor
    · rintro ⟨a, b, hsplit, hlast⟩
      rcases List.append_eq_append_iff.mp hsplit with ⟨m, rfl, hm⟩ | ⟨m, rfl, hm⟩
      · match m with
        | [] => exact absurd (List.cons.inj hm).1 (by decide)
        | x :: m =>
          have hlen := congrArg List.length hm
          simp only [List.length_cons, List.length_append, List.length_nil] at hlen
          omega
      · match m with
        | [] => exact absurd (List.cons.inj hm).1 (by decide)
        | [x] => exact absurd (List.cons.inj (List.cons.inj hm).2).1 (by decide)
        | x :: y :: m =>
          obtain ⟨rfl, htail⟩ := List.cons.inj hm
          obtain ⟨rfl, -⟩ := List.cons.inj htail
          exact ⟨a, m, rfl, hlast⟩
    · rintro ⟨a, b, rfl, hlast⟩
      exact ⟨a, b ++ [CR, LF], by simp, hlast⟩

end Ionosphere.Mta
