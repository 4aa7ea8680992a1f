import Ionosphere.Regex.Program
import Ionosphere.Lib.ControlGraph

/-! The machine. A list of threads goes over the input unit by unit; threads of one program
counter are merged, and the one that came first stays. -/
namespace Ionosphere.Regex

open Ionosphere.Lib

structure Thread where
  pc : Nat
  slots : List Int
  deriving DecidableEq

/-- A list of threads, and the generation in which each program counter was seen. -/
structure Threads where
  list : List Thread
  seen : List Int
  deriving DecidableEq

def inClass (negate : Bool) (ranges : Ranges) (code : UInt16) : Bool :=
  let hit := ranges.any fun r => r.1 ≤ code && code ≤ r.2
  if negate then !hit else hit

def Inst.accepts (inst : Inst) (code : UInt16) : Bool :=
  match inst with
  | .char ch => ch = code
  | .any => true
  | .cls negate ranges => inClass negate ranges code
  | _ => false

@[simp] theorem accepts_char (ch code : UInt16) :
    (Inst.char ch).accepts code = decide (ch = code) := rfl

@[simp] theorem accepts_any (code : UInt16) : Inst.any.accepts code = true := rfl

@[simp] theorem accepts_cls (negate : Bool) (ranges : Ranges) (code : UInt16) :
    (Inst.cls negate ranges).accepts code = inClass negate ranges code := rfl

@[simp] theorem accepts_split (a b : Nat) (code : UInt16) :
    (Inst.split a b).accepts code = false := rfl

/-- `addThread`, where the stack holds `stack` more calls; `none` is the `RangeError` thrown
when it holds none. -/
def addThread (prog : Program) (hay : Units) (gen : Int) (pos : Nat) :
    Nat → Nat → List Int → Threads → Option Threads
  | 0, _, _, _ => none
  | stack + 1, pc, slots, ts =>
    if ts.seen[pc]? = some gen then some ts
    else
      let ts := { ts with seen := ts.seen.set pc gen }
      match prog[pc]? with
      | none => some ts
      | some (.jmp target) => addThread prog hay gen pos stack target slots ts
      | some (.split a b) =>
        (addThread prog hay gen pos stack a slots ts).bind
          (addThread prog hay gen pos stack b slots)
      | some (.save slot) =>
        addThread prog hay gen pos stack (pc + 1) (slots.set slot pos) ts
      | some .bol =>
        if pos = 0 then addThread prog hay gen pos stack (pc + 1) slots ts else some ts
      | some .eol =>
        if pos = hay.length then addThread prog hay gen pos stack (pc + 1) slots ts else some ts
      | some _ => some { ts with list := ts.list ++ [⟨pc, slots⟩] }

def addThreadAt (stack : Nat) (prog : Program) (hay : Units) (pos pc : Nat) (slots : List Int)
    (ts : Threads) : Option Threads :=
  addThread prog hay pos pos stack pc slots ts

/-- The loop over the threads of a position: those that go on, and the first that matches,
which ends it. -/
def advance (stack : Nat) (prog : Program) (hay : Units) (pos : Nat) :
    List Thread → Threads → Option (Threads × Option (List Int))
  | [], next => some (next, none)
  | th :: ths, next =>
    match prog[th.pc]? with
    | some .matched => some (next, some th.slots)
    | inst =>
      match inst, hay[pos]? with
      | some inst, some ch =>
        if inst.accepts ch then
          (addThreadAt stack prog hay (pos + 1) (th.pc + 1) th.slots next).bind
            (advance stack prog hay pos ths)
        else advance stack prog hay pos ths next
      | _, _ => advance stack prog hay pos ths next

/-- The start of a round: without a match so far a thread begins at this position. -/
def begin (stack : Nat) (re : CompiledRegex) (hay : Units) (pos : Nat) (current : Threads)
    (best : Option (List Int)) : Option Threads :=
  if best = none then
    addThreadAt stack re.prog hay pos 0 (List.replicate ((re.groups + 1) * 2) (-1)) current
  else some current

/-- The main loop, with the rounds that are left. The list of the next round and its marks
begin empty, and take the place of this round's. -/
def run (stack : Nat) (re : CompiledRegex) (hay : Units) :
    Nat → Nat → Threads → Option (List Int) → Option (Option (List Int))
  | 0, _, _, best => some best
  | rounds + 1, pos, current, best =>
    (begin stack re hay pos current best).bind fun current =>
      if current.list = [] ∧ best ≠ none then some best
      else
        (advance stack re.prog hay pos current.list
          ⟨[], List.replicate re.prog.length (-1)⟩).bind fun r =>
            run stack re hay rounds (pos + 1) r.1 (r.2.orElse fun _ => best)

structure RegexMatch where
  matched : Bool
  captures : List Units
  deriving DecidableEq

/-- `${g}`: empty when the group took no part. -/
def capture (input : Units) (slots : List Int) (g : Nat) : Units :=
  let s := slots.getD (g * 2) (-1)
  let e := slots.getD (g * 2 + 1) (-1)
  if 0 ≤ s ∧ s ≤ e then (input.drop s.toNat).take (e.toNat - s.toNat) else []

def execRegex (stack : Nat) (lower : Units → Units) (re : CompiledRegex) (input : Units) :
    Option RegexMatch :=
  let hay := if re.caseInsensitive then lower input else input
  (run stack re hay (hay.length + 1) 0 ⟨[], List.replicate re.prog.length (-1)⟩ none).map
    fun best =>
      match best with
      | none => ⟨false, []⟩
      | some best => ⟨true, (List.range re.groups).map fun g => capture input best (g + 1)⟩

section Graph

variable (prog : Program) (hay : Units)

/-- Where a counter leads without a unit of the input. -/
def successors (pos pc : Nat) : List Nat :=
  match prog[pc]? with
  | some (.jmp target) => [target]
  | some (.split a b) => [a, b]
  | some (.save _) => [pc + 1]
  | some .bol => if pos = 0 then [pc + 1] else []
  | some .eol => if pos = hay.length then [pc + 1] else []
  | _ => []

def Consumes (pos pc : Nat) : Prop :=
  ∃ inst ch, prog[pc]? = some inst ∧ hay[pos]? = some ch ∧ inst.accepts ch = true

def Inst.waits : Inst → Bool
  | .char _ | .any | .cls _ _ | .matched => true
  | _ => false

def Waits (pc : Nat) : Prop := ∃ inst, prog[pc]? = some inst ∧ inst.waits = true

def graph : ControlGraph Nat Nat where
  next pc pos pc' pos' := pos' = pos ∧ pc' ∈ successors prog hay pos pc ∨
    pos' = pos + 1 ∧ pc' = pc + 1 ∧ Consumes prog hay pos pc
  final pc _ := prog[pc]? = some .matched

def Starts (pc pos : Nat) : Prop := pc = 0 ∧ pos ≤ hay.length

end Graph

variable {prog : Program} {hay : Units} {pc : Nat} {re : CompiledRegex}

theorem accepts_waits {inst : Inst} {ch : UInt16} (h : inst.accepts ch = true) :
    inst.waits = true := by
  cases inst with
  | char _ | any | cls _ _ => rfl
  | bol | eol | split _ _ | jmp _ | save _ | matched => cases h

theorem Consumes.waits {pos pc : Nat} (h : Consumes prog hay pos pc) : Waits prog pc := by
  obtain ⟨inst, ch, hinst, -, hacc⟩ := h
  exact ⟨inst, hinst, accepts_waits hacc⟩

theorem lt_of_mem_successors {pos pc pc' : Nat} (h : pc' ∈ successors prog hay pos pc) :
    pc < prog.length := by
  unfold successors at h
  cases hinst : prog[pc]? with
  | none => simp [hinst] at h
  | some inst => exact (List.getElem?_eq_some_iff.mp hinst).1

theorem Waits.lt (h : Waits prog pc) : pc < prog.length := by
  obtain ⟨inst, hinst, -⟩ := h
  exact (List.getElem?_eq_some_iff.mp hinst).1

theorem reached_le {pc pos : Nat} (h : (graph prog hay).Reached (Starts hay) pc pos) :
    pos ≤ hay.length := by
  induction h with
  | start h => exact h.2
  | step _ hnext ih =>
    obtain ⟨rfl, -⟩ | ⟨rfl, -, inst, ch, -, hch, -⟩ := hnext
    · exact ih
    · exact (List.getElem?_eq_some_iff.mp hch).1

def Threads.Marked (ts : Threads) (gen : Int) (pc : Nat) : Prop := ts.seen[pc]? = some gen

def unmarked (gen : Int) (seen : List Int) : Nat := seen.countP (· ≠ gen)

/-- The counters of `roots` were added to `ts`, with all they lead to: what is new is marked
with its successors, is reached from the roots, and is listed if it waits. -/
structure Grows (prog : Program) (hay : Units) (pos : Nat) (gen : Int) (ts : Threads)
    (roots : List Nat) (ts' : Threads) : Prop where
  size : ts'.seen.length = ts.seen.length
  marks : ∀ {pc}, ts.Marked gen pc → ts'.Marked gen pc
  root : ∀ {pc}, pc ∈ roots → pc < prog.length → ts'.Marked gen pc
  closed : ∀ {pc pc'}, ts'.Marked gen pc → ¬ ts.Marked gen pc →
    pc' ∈ successors prog hay pos pc → pc' < prog.length → ts'.Marked gen pc'
  sound : ∀ {P : Nat → Prop}, (∀ pc pc', P pc → pc' ∈ successors prog hay pos pc → P pc') →
    (∀ pc ∈ roots, P pc) → ∀ {pc}, ts'.Marked gen pc → ¬ ts.Marked gen pc → P pc
  listed : ∃ added, ts'.list = ts.list ++ added ∧ ∀ pc, pc ∈ added.map (·.pc) ↔
    ts'.Marked gen pc ∧ ¬ ts.Marked gen pc ∧ Waits prog pc

section Grows

variable {pos : Nat} {gen : Int} {ts ts₁ ts₂ ts' : Threads} {roots roots' : List Nat}

theorem Grows.nil : Grows prog hay pos gen ts [] ts where
  size := rfl
  marks h := h
  root h := by cases h
  closed h hnot := absurd h hnot
  sound _ _ _ h hnot := absurd h hnot
  listed := ⟨[], by simp, by
    intro pc
    constructor
    · intro h
      cases h
    · rintro ⟨h, hnot, -⟩
      exact absurd h hnot⟩

theorem Grows.trans (h : Grows prog hay pos gen ts roots ts₁)
    (h' : Grows prog hay pos gen ts₁ roots' ts₂) :
    Grows prog hay pos gen ts (roots ++ roots') ts₂ where
  size := h'.size.trans h.size
  marks hm := h'.marks (h.marks hm)
  root hr hlt := by
    obtain hr | hr := List.mem_append.mp hr
    · exact h'.marks (h.root hr hlt)
    · exact h'.root hr hlt
  closed := by
    intro pc pc' hm hnot hsucc hlt
    by_cases hmid : ts₁.Marked gen pc
    · exact h'.marks (h.closed hmid hnot hsucc hlt)
    · exact h'.closed hm hmid hsucc hlt
  sound := by
    intro P hP hroots pc hm hnot
    by_cases hmid : ts₁.Marked gen pc
    · exact h.sound hP (fun r hr => hroots r (List.mem_append_left _ hr)) hmid hnot
    · exact h'.sound hP (fun r hr => hroots r (List.mem_append_right _ hr)) hm hmid
  listed := by
    obtain ⟨added, hlist, hadded⟩ := h.listed
    obtain ⟨added', hlist', hadded'⟩ := h'.listed
    refine ⟨added ++ added', by rw [hlist', hlist, List.append_assoc], fun pc => ?_⟩
    rw [List.map_append, List.mem_append, hadded, hadded']
    constructor
    · rintro (⟨hm, hnot, hw⟩ | ⟨hm, hnot, hw⟩)
      · exact ⟨h'.marks hm, hnot, hw⟩
      · exact ⟨hm, fun hm' => hnot (h.marks hm'), hw⟩
    · rintro ⟨hm, hnot, hw⟩
      by_cases hmid : ts₁.Marked gen pc
      · exact .inl ⟨hmid, hnot, hw⟩
      · exact .inr ⟨hm, hmid, hw⟩

theorem Grows.stay (h : ts.Marked gen pc) : Grows prog hay pos gen ts [pc] ts where
  size := rfl
  marks h := h
  root hr _ := by rwa [List.mem_singleton.mp hr]
  closed h hnot := absurd h hnot
  sound _ _ _ h hnot := absurd h hnot
  listed := (@Grows.nil prog hay pos gen ts).listed

theorem marked_set {pc q : Nat} (hlt : pc < ts.seen.length) (list : List Thread) :
    (Threads.mk list (ts.seen.set pc gen)).Marked gen q ↔ q = pc ∨ ts.Marked gen q := by
  unfold Threads.Marked
  by_cases hq : q = pc
  · subst hq
    simp [hlt]
  · simp [hq, Ne.symm hq, List.getElem?_set_ne]

theorem Grows.mark {added : List Thread} (hlt : pc < ts.seen.length)
    (hfresh : ¬ ts.Marked gen pc)
    (hadded : ∀ q, q ∈ added.map (·.pc) ↔ q = pc ∧ Waits prog q)
    (h : Grows prog hay pos gen ⟨ts.list ++ added, ts.seen.set pc gen⟩
      (successors prog hay pos pc) ts') :
    Grows prog hay pos gen ts [pc] ts' where
  size := h.size.trans (List.length_set ..)
  marks hm := h.marks ((marked_set hlt _).mpr (.inr hm))
  root hr _ := by
    rw [List.mem_singleton.mp hr]
    exact h.marks ((marked_set hlt _).mpr (.inl rfl))
  closed := by
    intro q q' hm hnot hsucc hlt'
    by_cases hq : q = pc
    · subst hq
      exact h.root hsucc hlt'
    · refine h.closed hm ?_ hsucc hlt'
      rw [marked_set hlt]
      rintro (hq' | hm')
      · exact hq hq'
      · exact hnot hm'
  sound := by
    intro P hP hroots q hm hnot
    have hpc : P pc := hroots pc (List.mem_singleton_self pc)
    by_cases hq : q = pc
    · rwa [hq]
    · refine h.sound hP (fun r hr => hP pc r hpc hr) hm ?_
      rw [marked_set hlt]
      rintro (hq' | hm')
      · exact hq hq'
      · exact hnot hm'
  listed := by
    obtain ⟨more, hlist, hmore⟩ := h.listed
    refine ⟨added ++ more, by rw [hlist, List.append_assoc], fun q => ?_⟩
    rw [List.map_append, List.mem_append, hadded, hmore, marked_set hlt]
    constructor
    · rintro (⟨rfl, hw⟩ | ⟨hm, hnot, hw⟩)
      · exact ⟨h.marks ((marked_set hlt _).mpr (.inl rfl)), hfresh, hw⟩
      · exact ⟨hm, fun hm' => hnot (.inr hm'), hw⟩
    · rintro ⟨hm, hnot, hw⟩
      by_cases hq : q = pc
      · exact .inl ⟨hq, hw⟩
      · refine .inr ⟨hm, ?_, hw⟩
        rintro (hq' | hm')
        · exact hq hq'
        · exact hnot hm'

theorem unmarked_le {seen seen' : List Int} (hlength : seen'.length = seen.length)
    (h : ∀ i : Nat, seen[i]? = some gen → seen'[i]? = some gen) :
    unmarked gen seen' ≤ unmarked gen seen := by
  unfold unmarked
  induction seen generalizing seen' with
  | nil => simp [List.eq_nil_of_length_eq_zero hlength]
  | cons x seen ih =>
    cases seen' with
    | nil => simp
    | cons y seen' =>
      have hrest := ih (Nat.succ.inj hlength) fun i => h (i + 1)
      have hhead : x = gen → y = gen := by
        intro hx
        exact Option.some.inj (h 0 (congrArg some hx))
      rw [List.countP_cons, List.countP_cons]
      by_cases hx : x = gen
      · simp only [hx, hhead hx]
        simpa using hrest
      · have hy : (if decide (y ≠ gen) = true then 1 else 0) ≤ 1 := by split <;> omega
        simp only [hx, ne_eq, not_false_eq_true, decide_true, if_true] at hy hrest ⊢
        omega

theorem unmarked_set (hlt : pc < ts.seen.length) (hfresh : ¬ ts.Marked gen pc) :
    unmarked gen (ts.seen.set pc gen) + 1 = unmarked gen ts.seen := by
  have hne : ts.seen[pc] ≠ gen := by
    intro heq
    exact hfresh (List.getElem?_eq_some_iff.mpr ⟨hlt, heq⟩)
  have hpos : 0 < ts.seen.countP (· ≠ gen) :=
    List.countP_pos_iff.mpr ⟨ts.seen[pc], List.getElem_mem hlt, by simp [hne]⟩
  unfold unmarked
  rw [List.countP_set hlt]
  simp only [hne, ne_eq, not_false_eq_true, decide_true, not_true_eq_false, decide_false, if_true,
    Bool.false_eq_true, if_false]
  simp only [ne_eq] at hpos
  omega

theorem waits_iff {inst : Inst} (hinst : prog[pc]? = some inst) {added : List Thread}
    {slots : List Int} (h : added = if inst.waits then [⟨pc, slots⟩] else []) (q : Nat) :
    q ∈ added.map (·.pc) ↔ q = pc ∧ Waits prog q := by
  cases hw : inst.waits with
  | true =>
    simp only [h, hw, if_true, List.map_cons, List.map_nil, List.mem_singleton]
    constructor
    · rintro rfl
      exact ⟨rfl, inst, hinst, hw⟩
    · exact fun h => h.1
  | false =>
    simp only [h, hw, Bool.false_eq_true, if_false, List.map_nil, List.not_mem_nil, false_iff]
    rintro ⟨rfl, inst', hinst', hw'⟩
    rw [hinst] at hinst'
    cases hinst'
    rw [hw] at hw'
    cases hw'

theorem Grows.outside (h : prog.length ≤ pc) : Grows prog hay pos gen ts [pc] ts where
  size := rfl
  marks h := h
  root hr hlt := by
    rw [List.mem_singleton.mp hr] at hlt
    omega
  closed h hnot := absurd h hnot
  sound _ _ _ h hnot := absurd h hnot
  listed := (@Grows.nil prog hay pos gen ts).listed

section Fresh

variable {inst : Inst} (hsize : ts.seen.length = prog.length) (hfresh : ¬ ts.Marked gen pc)
  (hinst : prog[pc]? = some inst)

include hsize hfresh hinst

theorem Grows.pass (hw : inst.waits = false)
    (h : Grows prog hay pos gen { ts with seen := ts.seen.set pc gen }
      (successors prog hay pos pc) ts') :
    Grows prog hay pos gen ts [pc] ts' := by
  have hlt : pc < prog.length := (List.getElem?_eq_some_iff.mp hinst).1
  have hnone := @waits_iff prog pc inst hinst [] [] (by simp [hw])
  refine Grows.mark (by omega) hfresh hnone ?_
  rwa [List.append_nil]

theorem Grows.wait {slots : List Int} (hw : inst.waits = true) :
    Grows prog hay pos gen ts [pc] ⟨ts.list ++ [⟨pc, slots⟩], ts.seen.set pc gen⟩ := by
  have hlt : pc < prog.length := (List.getElem?_eq_some_iff.mp hinst).1
  have hsucc : successors prog hay pos pc = [] := by
    cases inst with
    | char _ | any | cls _ _ | matched => simp [successors, hinst]
    | bol | eol | split _ _ | jmp _ | save _ => cases hw
  have hone := @waits_iff prog pc inst hinst [⟨pc, slots⟩] slots (by simp [hw])
  refine Grows.mark (by omega) hfresh hone ?_
  rw [hsucc]
  exact Grows.nil

end Fresh

theorem addThread_grows {stack pc : Nat} {slots : List Int} (hsize : ts.seen.length = prog.length)
    (h : addThread prog hay gen pos stack pc slots ts = some ts') :
    Grows prog hay pos gen ts [pc] ts' := by
  induction stack generalizing pc slots ts ts' with
  | zero => cases h
  | succ stack ih =>
    rw [addThread] at h
    split at h
    · next hmarked =>
      cases h
      exact Grows.stay hmarked
    · next hfresh =>
      have hsize₁ : (ts.seen.set pc gen).length = prog.length := by rw [List.length_set, hsize]
      cases hinst : prog[pc]? with
      | none =>
        have hout : prog.length ≤ pc := List.getElem?_eq_none_iff.mp hinst
        have hset : ts.seen.set pc gen = ts.seen := List.set_eq_of_length_le (by omega)
        simp only [hinst, hset] at h
        cases h
        exact Grows.outside hout
      | some inst =>
        simp only [hinst] at h
        cases inst with
        | jmp target =>
          refine Grows.pass hsize hfresh hinst rfl ?_
          simpa [successors, hinst] using ih hsize₁ h
        | save slot =>
          refine Grows.pass hsize hfresh hinst rfl ?_
          simpa [successors, hinst] using ih hsize₁ h
        | split a b =>
          obtain ⟨mid, hfirst, hsecond⟩ := Option.bind_eq_some_iff.mp h
          refine Grows.pass hsize hfresh hinst rfl ?_
          have hgrows := ih hsize₁ hfirst
          simpa [successors, hinst] using hgrows.trans (ih (hgrows.size.trans hsize₁) hsecond)
        | bol =>
          refine Grows.pass hsize hfresh hinst rfl ?_
          by_cases hpos : pos = 0
          · simpa [successors, hinst, hpos] using ih hsize₁ ((if_pos hpos).symm.trans h)
          · cases (if_neg hpos).symm.trans h
            simpa [successors, hinst, hpos] using Grows.nil
        | eol =>
          refine Grows.pass hsize hfresh hinst rfl ?_
          by_cases hpos : pos = hay.length
          · simpa [successors, hinst, hpos] using ih hsize₁ ((if_pos hpos).symm.trans h)
          · cases (if_neg hpos).symm.trans h
            simpa [successors, hinst, hpos] using Grows.nil
        | char _ | any | cls _ _ | matched =>
          cases h
          exact Grows.wait hsize hfresh hinst rfl

end Grows

theorem unmarked_le_length (gen : Int) (seen : List Int) : unmarked gen seen ≤ seen.length :=
  List.countP_le_length

section Advance

variable {stack pos : Nat} {th : Thread} {ths : List Thread} {next next' : Threads}
  {found : Option (List Int)}

theorem advance_matched (h : prog[th.pc]? = some .matched) :
    advance stack prog hay pos (th :: ths) next = some (next, some th.slots) := by
  rw [advance, h]

theorem advance_consumes (h : Consumes prog hay pos th.pc) :
    advance stack prog hay pos (th :: ths) next =
      (addThreadAt stack prog hay (pos + 1) (th.pc + 1) th.slots next).bind
        (advance stack prog hay pos ths) := by
  obtain ⟨inst, ch, hinst, hch, hacc⟩ := h
  rw [advance, hinst, hch]
  cases inst with
  | matched => cases hacc
  | char _ | any | cls _ _ | bol | eol | split _ _ | jmp _ | save _ => exact if_pos hacc

theorem advance_drops (h : prog[th.pc]? ≠ some .matched) (h' : ¬ Consumes prog hay pos th.pc) :
    advance stack prog hay pos (th :: ths) next = advance stack prog hay pos ths next := by
  rw [advance]
  split
  · next hm => exact absurd hm h
  · split
    · next inst ch hinst hch =>
      refine if_neg fun hacc => h' ⟨inst, ch, hinst, hch, hacc⟩
    · rfl

theorem advance_none (hsize : next.seen.length = prog.length)
    (h : advance stack prog hay pos ths next = some (next', none)) :
    (∀ th ∈ ths, prog[th.pc]? ≠ some .matched) ∧
      ∃ roots, Grows prog hay (pos + 1) (pos + 1 : Nat) next roots next' ∧
        ∀ q, q ∈ roots ↔ ∃ th ∈ ths, q = th.pc + 1 ∧ Consumes prog hay pos th.pc := by
  induction ths generalizing next with
  | nil =>
    cases h
    exact ⟨by simp, [], Grows.nil, by simp⟩
  | cons th ths ih =>
    by_cases hm : prog[th.pc]? = some .matched
    · rw [advance_matched hm] at h
      cases h
    by_cases hc : Consumes prog hay pos th.pc
    · rw [advance_consumes hc] at h
      obtain ⟨mid, hadd, hrest⟩ := Option.bind_eq_some_iff.mp h
      have hfirst := addThread_grows hsize hadd
      obtain ⟨hnone, roots, hgrows, hroots⟩ := ih (hfirst.size.trans hsize) hrest
      refine ⟨?_, _, hfirst.trans hgrows, fun q => ?_⟩
      · simpa [hm] using hnone
      · simp [hroots, hc]
    · rw [advance_drops hm hc] at h
      obtain ⟨hnone, roots, hgrows, hroots⟩ := ih hsize h
      refine ⟨?_, roots, hgrows, fun q => ?_⟩
      · simpa [hm] using hnone
      · simp [hroots, hc]

theorem advance_isSome (h : advance stack prog hay pos ths next = some (next', found)) :
    found.isSome = true ↔ ∃ th ∈ ths, prog[th.pc]? = some .matched := by
  induction ths generalizing next with
  | nil =>
    cases h
    simp
  | cons th ths ih =>
    by_cases hm : prog[th.pc]? = some .matched
    · rw [advance_matched hm] at h
      cases h
      simp [hm]
    by_cases hc : Consumes prog hay pos th.pc
    · rw [advance_consumes hc] at h
      obtain ⟨mid, -, hrest⟩ := Option.bind_eq_some_iff.mp h
      simp [ih hrest, hm]
    · rw [advance_drops hm hc] at h
      simp [ih h, hm]

end Advance

/-- What the threads of a position are before a new one begins there: they were reached, they
are closed, and all that went on from the position before is among them. -/
structure Frontier (prog : Program) (hay : Units) (pos : Nat) (ts : Threads) : Prop where
  size : ts.seen.length = prog.length
  reached : ∀ {pc}, ts.Marked pos pc → (graph prog hay).Reached (Starts hay) pc pos
  closed : ∀ {pc pc'}, ts.Marked pos pc → pc' ∈ successors prog hay pos pc → pc' < prog.length →
    ts.Marked pos pc'
  stepped : ∀ {pc p}, (graph prog hay).Reached (Starts hay) pc p → Consumes prog hay p pc →
    pos = p + 1 → pc + 1 < prog.length → ts.Marked pos (pc + 1)
  listed : ∀ pc, pc ∈ ts.list.map (·.pc) ↔ ts.Marked pos pc ∧ Waits prog pc

theorem Frontier.grow {pos : Nat} {gen : Int} {ts ts' : Threads} {roots : List Nat}
    (hgen : gen = pos) (h : Frontier prog hay pos ts)
    (hg : Grows prog hay pos gen ts roots ts')
    (hroots : ∀ pc ∈ roots, (graph prog hay).Reached (Starts hay) pc pos) :
    Frontier prog hay pos ts' := by
  subst hgen
  have hsplit : ∀ {pc}, ts'.Marked pos pc ↔ ts.Marked pos pc ∨
      ts'.Marked pos pc ∧ ¬ ts.Marked pos pc := by
    intro pc
    constructor
    · intro hm
      by_cases hm' : ts.Marked pos pc
      · exact .inl hm'
      · exact .inr ⟨hm, hm'⟩
    · rintro (hm | ⟨hm, -⟩)
      · exact hg.marks hm
      · exact hm
  refine ⟨hg.size.trans h.size, ?_, ?_, ?_, ?_⟩
  · intro pc hm
    obtain hm' | ⟨hm, hnot⟩ := hsplit.mp hm
    · exact h.reached hm'
    · refine hg.sound (fun q q' hq hsucc => ?_) hroots hm hnot
      exact .step hq (.inl ⟨rfl, hsucc⟩)
  · intro pc pc' hm hsucc hlt
    obtain hm' | ⟨hm, hnot⟩ := hsplit.mp hm
    · exact hg.marks (h.closed hm' hsucc hlt)
    · exact hg.closed hm hnot hsucc hlt
  · intro pc p hreached hc hpos hlt
    exact hg.marks (h.stepped hreached hc hpos hlt)
  · intro pc
    obtain ⟨added, hlist, hadded⟩ := hg.listed
    rw [hlist, List.map_append, List.mem_append, h.listed, hadded]
    constructor
    · rintro (⟨hm, hw⟩ | ⟨hm, -, hw⟩)
      · exact ⟨hg.marks hm, hw⟩
      · exact ⟨hm, hw⟩
    · rintro ⟨hm, hw⟩
      obtain hm' | ⟨hm, hnot⟩ := hsplit.mp hm
      · exact .inl ⟨hm', hw⟩
      · exact .inr ⟨hm, hnot, hw⟩

theorem Frontier.complete {pos : Nat} {ts : Threads} (h : Frontier prog hay pos ts)
    (hstart : 0 < prog.length → ts.Marked pos 0)
    (hreached : (graph prog hay).Reached (Starts hay) pc pos) (hlt : pc < prog.length) :
    ts.Marked pos pc := by
  have hall : ∀ {pc p}, (graph prog hay).Reached (Starts hay) pc p → p = pos → pc < prog.length →
      ts.Marked pos pc := by
    intro pc p hreached
    induction hreached with
    | start hs =>
      intro _ hlt
      rw [hs.1] at hlt ⊢
      exact hstart hlt
    | step hprev hnext ih =>
      intro hp hlt
      obtain ⟨rfl, hsucc⟩ | ⟨rfl, rfl, hc⟩ := hnext
      · subst hp
        exact h.closed (ih rfl (lt_of_mem_successors hsucc)) hsucc hlt
      · exact h.stepped hprev hc hp.symm hlt
  exact hall hreached rfl hlt

def Threads.fresh (n : Nat) : Threads := ⟨[], List.replicate n (-1)⟩

theorem not_marked_fresh (n pos pc : Nat) : ¬ (Threads.fresh n).Marked pos pc := by
  intro h
  have hmem := List.mem_of_getElem? h
  have heq := List.eq_of_mem_replicate hmem
  omega

theorem Frontier.first (prog : Program) (hay : Units) :
    Frontier prog hay 0 (Threads.fresh prog.length) where
  size := List.length_replicate ..
  reached h := absurd h (not_marked_fresh _ _ _)
  closed h := absurd h (not_marked_fresh _ _ _)
  stepped _ _ h := by omega
  listed pc := by
    constructor
    · intro h
      cases h
    · rintro ⟨h, -⟩
      exact absurd h (not_marked_fresh _ _ _)

theorem Frontier.next {stack pos : Nat} {ts next : Threads} (h : Frontier prog hay pos ts)
    (hstart : 0 < prog.length → ts.Marked pos 0)
    (hadvance : advance stack prog hay pos ts.list (Threads.fresh prog.length) =
      some (next, none)) :
    Frontier prog hay (pos + 1) next := by
  obtain ⟨-, roots, hgrows, hroots⟩ := advance_none (List.length_replicate ..) hadvance
  have hnew := not_marked_fresh prog.length (pos + 1)
  refine ⟨hgrows.size.trans (List.length_replicate ..), ?_, ?_, ?_, ?_⟩
  · intro pc hm
    refine hgrows.sound (P := fun q => (graph prog hay).Reached (Starts hay) q (pos + 1))
      (fun q q' hq hsucc => ?_) (fun q hq => ?_) hm (hnew pc)
    · exact .step hq (.inl ⟨rfl, hsucc⟩)
    · obtain ⟨th, hth, rfl, hc⟩ := (hroots q).mp hq
      have hmarked := (h.listed th.pc).mp (List.mem_map_of_mem hth)
      exact .step (h.reached hmarked.1) (.inr ⟨rfl, rfl, hc⟩)
  · intro pc pc' hm hsucc hlt
    exact hgrows.closed hm (hnew pc) hsucc hlt
  · intro pc p hreached hc hpos hlt
    obtain rfl : p = pos := by omega
    have hmarked := h.complete hstart hreached hc.waits.lt
    obtain ⟨th, hth, rfl⟩ := List.mem_map.mp ((h.listed pc).mpr ⟨hmarked, hc.waits⟩)
    exact hgrows.root ((hroots _).mpr ⟨th, hth, rfl, hc⟩) hlt
  · intro pc
    obtain ⟨added, hlist, hadded⟩ := hgrows.listed
    rw [hlist, show (Threads.fresh prog.length).list ++ added = added from rfl, hadded]
    exact ⟨fun ⟨hm, _, hw⟩ => ⟨hm, hw⟩, fun ⟨hm, hw⟩ => ⟨hm, hnew pc, hw⟩⟩

theorem run_some {stack : Nat} {hay : Units} {rounds pos : Nat}
    {current : Threads} {slots : List Int} {best : Option (List Int)}
    (h : run stack re hay rounds pos current (some slots) = some best) : best.isSome = true := by
  induction rounds generalizing pos current slots with
  | zero =>
    cases h
    rfl
  | succ rounds ih =>
    rw [run, begin, if_neg (by simp), Option.bind_some] at h
    split_ifs at h
    · cases h
      rfl
    · obtain ⟨⟨next, found⟩, -, hrest⟩ := Option.bind_eq_some_iff.mp h
      cases found with
      | none => exact ih hrest
      | some found => exact ih hrest

theorem run_isSome {stack : Nat} {rounds pos : Nat} {current : Threads}
    {best : Option (List Int)} (h : Frontier re.prog hay pos current)
    (hrounds : pos + rounds = hay.length + 1)
    (hrun : run stack re hay rounds pos current none = some best) :
    best.isSome = true ↔
      ∃ p pc, pos ≤ p ∧ (graph re.prog hay).Reached (Starts hay) pc p ∧
        (graph re.prog hay).final pc p := by
  induction rounds generalizing pos current with
  | zero =>
    cases hrun
    simp only [Option.isSome_none, Bool.false_eq_true, false_iff]
    rintro ⟨p, pc, hp, hreached, -⟩
    have := reached_le hreached
    omega
  | succ rounds ih =>
    rw [run, begin, if_pos rfl] at hrun
    obtain ⟨ts, hts, hrun⟩ := Option.bind_eq_some_iff.mp hrun
    rw [if_neg (by simp)] at hrun
    obtain ⟨⟨next, found⟩, hadvance, hrun⟩ := Option.bind_eq_some_iff.mp hrun
    have hgrows := addThread_grows h.size hts
    have hfrontier : Frontier re.prog hay pos ts := by
      refine h.grow rfl hgrows fun pc hpc => ?_
      rw [List.mem_singleton.mp hpc]
      exact .start ⟨rfl, by omega⟩
    have hstart : 0 < re.prog.length → ts.Marked pos 0 := fun hlt =>
      hgrows.root (List.mem_singleton_self 0) hlt
    have hfound := advance_isSome hadvance
    cases found with
    | some found =>
      simp only [run_some hrun, true_iff]
      obtain ⟨th, hth, hm⟩ := hfound.mp rfl
      have hmarked := (hfrontier.listed th.pc).mp (List.mem_map_of_mem hth)
      exact ⟨pos, th.pc, le_rfl, hfrontier.reached hmarked.1, hm⟩
    | none =>
      have hnone : ∀ pc, (graph re.prog hay).Reached (Starts hay) pc pos →
          ¬ (graph re.prog hay).final pc pos := by
        intro pc hreached hfinal
        have hw : Waits re.prog pc := ⟨.matched, hfinal, rfl⟩
        have hmarked := hfrontier.complete hstart hreached hw.lt
        obtain ⟨th, hth, rfl⟩ := List.mem_map.mp ((hfrontier.listed pc).mpr ⟨hmarked, hw⟩)
        have hsome := hfound.mpr ⟨th, hth, hfinal⟩
        cases hsome
      rw [ih (hfrontier.next hstart hadvance) (by omega) hrun]
      constructor
      · rintro ⟨p, pc, hp, hreached, hfinal⟩
        exact ⟨p, pc, by omega, hreached, hfinal⟩
      · rintro ⟨p, pc, hp, hreached, hfinal⟩
        refine ⟨p, pc, ?_, hreached, hfinal⟩
        by_contra hlt
        obtain rfl : p = pos := by omega
        exact hnone pc hreached hfinal

theorem execRegex_matched {stack : Nat} {lower : Units → Units}
    (hci : re.caseInsensitive = false) {input : Units} {m : RegexMatch}
    (h : execRegex stack lower re input = some m) :
    m.matched = true ↔ ∃ i k, i ≤ input.length ∧ (graph re.prog input).Run k 0 i := by
  simp only [execRegex, hci, Bool.false_eq_true, if_false] at h
  obtain ⟨best, hbest, hm⟩ := Option.map_eq_some_iff.mp h
  have hrun := run_isSome (Frontier.first re.prog input) (by omega) hbest
  have hsearch := (graph re.prog input).exists_run_iff (Starts input)
  have hmatched : m.matched = best.isSome := by
    rw [← hm]
    cases best with
    | none => rfl
    | some best => rfl
  rw [hmatched, hrun]
  constructor
  · rintro ⟨p, pc, -, hreached, hfinal⟩
    obtain ⟨_, i, k, ⟨rfl, hi⟩, hk⟩ := hsearch.mpr ⟨pc, p, hreached, hfinal⟩
    exact ⟨i, k, hi, hk⟩
  · rintro ⟨i, k, hi, hk⟩
    obtain ⟨pc, p, hreached, hfinal⟩ := hsearch.mp ⟨0, i, k, ⟨rfl, hi⟩, hk⟩
    exact ⟨p, pc, Nat.zero_le p, hreached, hfinal⟩

end Ionosphere.Regex
