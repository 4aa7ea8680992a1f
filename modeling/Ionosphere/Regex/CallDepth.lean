import Ionosphere.Regex.Machine

/-! How deep the calls of `addThread` nest. A program of many instructions that read nothing is
gone through in one chain of calls, and the stack may not hold it. -/
namespace Ionosphere.Regex

/-- The calls that are open at once while `addThread` works, the first among them. -/
def addThreadDepth (prog : Program) (hay : Units) (gen : Int) (pos : Nat) :
    Nat → Nat → List Int → Threads → Nat
  | 0, _, _, _ => 0
  | fuel + 1, pc, slots, ts =>
    (if ts.seen[pc]? = some gen then 0
    else
      let ts := { ts with seen := ts.seen.set pc gen }
      match prog[pc]? with
      | some (.jmp target) => addThreadDepth prog hay gen pos fuel target slots ts
      | some (.split a b) =>
        max (addThreadDepth prog hay gen pos fuel a slots ts)
          ((addThread prog hay gen pos fuel a slots ts).elim 0
            (addThreadDepth prog hay gen pos fuel b slots))
      | some (.save slot) => addThreadDepth prog hay gen pos fuel (pc + 1) (slots.set slot pos) ts
      | some .bol => if pos = 0 then addThreadDepth prog hay gen pos fuel (pc + 1) slots ts else 0
      | some .eol =>
        if pos = hay.length then addThreadDepth prog hay gen pos fuel (pc + 1) slots ts else 0
      | _ => 0) + 1

/-- Each call marks a further counter, so no chain is longer. -/
def maxDepth (prog : Program) : Nat := prog.length + 1

def depthAt (prog : Program) (hay : Units) (pos pc : Nat) (slots : List Int) (ts : Threads) : Nat :=
  addThreadDepth prog hay pos pos (maxDepth prog) pc slots ts

def advanceDepth (prog : Program) (hay : Units) (pos : Nat) : List Thread → Threads → Nat
  | [], _ => 0
  | th :: ths, next =>
    match prog[th.pc]? with
    | some .matched => 0
    | inst =>
      match inst, hay[pos]? with
      | some inst, some ch =>
        if inst.accepts ch then
          max (depthAt prog hay (pos + 1) (th.pc + 1) th.slots next)
            ((addThreadAt (maxDepth prog) prog hay (pos + 1) (th.pc + 1) th.slots next).elim 0
              (advanceDepth prog hay pos ths))
        else advanceDepth prog hay pos ths next
      | _, _ => advanceDepth prog hay pos ths next

def beginDepth (re : CompiledRegex) (hay : Units) (pos : Nat) (current : Threads)
    (best : Option (List Int)) : Nat :=
  if best = none then
    depthAt re.prog hay pos 0 (List.replicate ((re.groups + 1) * 2) (-1)) current
  else 0

def runDepth (re : CompiledRegex) (hay : Units) : Nat → Nat → Threads → Option (List Int) → Nat
  | 0, _, _, _ => 0
  | rounds + 1, pos, current, best =>
    max (beginDepth re hay pos current best)
      ((begin (maxDepth re.prog) re hay pos current best).elim 0 fun current =>
        if current.list = [] ∧ best ≠ none then 0
        else
          max (advanceDepth re.prog hay pos current.list ⟨[], List.replicate re.prog.length (-1)⟩)
            ((advance (maxDepth re.prog) re.prog hay pos current.list
              ⟨[], List.replicate re.prog.length (-1)⟩).elim 0 fun r =>
                runDepth re hay rounds (pos + 1) r.1 (r.2.orElse fun _ => best)))

/-- The longest chain of calls of `addThread`, each made by the one before, over an input. -/
def callDepth (lower : Units → Units) (re : CompiledRegex) (input : Units) : Nat :=
  let hay := if re.caseInsensitive then lower input else input
  runDepth re hay (hay.length + 1) 0 ⟨[], List.replicate re.prog.length (-1)⟩ none

variable {prog : Program} {hay : Units} {gen : Int} {pos pc stack stack' fuel : Nat}
  {slots : List Int} {ts ts' ts'' : Threads}

theorem addThread_unique (h : addThread prog hay gen pos stack pc slots ts = some ts')
    (h' : addThread prog hay gen pos stack' pc slots ts = some ts'') : ts' = ts'' := by
  induction stack generalizing stack' pc slots ts ts' ts'' with
  | zero => cases h
  | succ stack ih =>
    cases stack' with
    | zero => cases h'
    | succ stack' =>
      rw [addThread] at h h'
      by_cases hmarked : ts.seen[pc]? = some gen
      · rw [if_pos hmarked] at h h'
        exact Option.some.inj (h.symm.trans h')
      · rw [if_neg hmarked] at h h'
        cases hinst : prog[pc]? with
        | none =>
          simp only [hinst] at h h'
          exact Option.some.inj (h.symm.trans h')
        | some inst =>
          simp only [hinst] at h h'
          cases inst with
          | jmp target => exact ih h h'
          | save slot => exact ih h h'
          | split a b =>
            obtain ⟨mid, hfirst, hsecond⟩ := Option.bind_eq_some_iff.mp h
            obtain ⟨mid', hfirst', hsecond'⟩ := Option.bind_eq_some_iff.mp h'
            cases ih hfirst hfirst'
            exact ih hsecond hsecond'
          | bol =>
            by_cases hpos : pos = 0
            · exact ih ((if_pos hpos).symm.trans h) ((if_pos hpos).symm.trans h')
            · exact Option.some.inj (((if_neg hpos).symm.trans h).symm.trans
                ((if_neg hpos).symm.trans h'))
          | eol =>
            by_cases hpos : pos = hay.length
            · exact ih ((if_pos hpos).symm.trans h) ((if_pos hpos).symm.trans h')
            · exact Option.some.inj (((if_neg hpos).symm.trans h).symm.trans
                ((if_neg hpos).symm.trans h'))
          | char _ | any | cls _ _ | matched => exact Option.some.inj (h.symm.trans h')

theorem addThreadDepth_le : addThreadDepth prog hay gen pos fuel pc slots ts ≤ fuel := by
  induction fuel generalizing pc slots ts with
  | zero => exact Nat.le_refl 0
  | succ fuel ih =>
    rw [addThreadDepth, Nat.succ_le_succ_iff]
    by_cases hmarked : ts.seen[pc]? = some gen
    · rw [if_pos hmarked]
      omega
    · rw [if_neg hmarked]
      cases hinst : prog[pc]? with
      | none => exact Nat.zero_le fuel
      | some inst =>
        cases inst with
        | jmp target => exact ih
        | save slot => exact ih
        | split a b =>
          refine Nat.max_le.mpr ⟨ih, ?_⟩
          cases addThread prog hay gen pos fuel a slots ⟨ts.list, ts.seen.set pc gen⟩ with
          | none => exact Nat.zero_le fuel
          | some mid => exact ih
        | bol =>
          dsimp only
          split_ifs
          · exact ih
          · omega
        | eol =>
          dsimp only
          split_ifs
          · exact ih
          · omega
        | char _ | any | cls _ _ | matched => exact Nat.zero_le fuel

/-- A call is answered if and only if the stack holds the chain of calls below it. -/
theorem addThread_isSome (hsize : ts.seen.length = prog.length)
    (hfuel : unmarked gen ts.seen < fuel) :
    (addThread prog hay gen pos stack pc slots ts).isSome = true ↔
      addThreadDepth prog hay gen pos fuel pc slots ts ≤ stack := by
  induction fuel generalizing pc slots ts stack with
  | zero => omega
  | succ fuel ih =>
    cases stack with
    | zero => simp [addThread, addThreadDepth]
    | succ stack =>
      rw [addThread, addThreadDepth, Nat.succ_le_succ_iff]
      by_cases hmarked : ts.seen[pc]? = some gen
      · simp [hmarked]
      · rw [if_neg hmarked, if_neg hmarked]
        cases hinst : prog[pc]? with
        | none => simp
        | some inst =>
          have hlt : pc < prog.length := (List.getElem?_eq_some_iff.mp hinst).1
          have hless := unmarked_set (show pc < ts.seen.length by omega) hmarked
          have hsize₁ : (ts.seen.set pc gen).length = prog.length := by
            rw [List.length_set, hsize]
          have hone : ∀ {q : Nat} {slots' : List Int} {stack' : Nat},
              (addThread prog hay gen pos stack' q slots' ⟨ts.list, ts.seen.set pc gen⟩).isSome = true ↔
                addThreadDepth prog hay gen pos fuel q slots' ⟨ts.list, ts.seen.set pc gen⟩ ≤ stack' :=
            fun {q slots' stack'} => ih hsize₁ (by simp only; omega)
          cases inst with
          | jmp target => exact hone
          | save slot => exact hone
          | split a b =>
            obtain ⟨mid, hmid⟩ := Option.isSome_iff_exists.mp (hone.mpr addThreadDepth_le)
            have hgrows := addThread_grows hsize₁ hmid
            have hrest : (addThread prog hay gen pos stack b slots mid).isSome = true ↔
                addThreadDepth prog hay gen pos fuel b slots mid ≤ stack :=
              ih (hgrows.size.trans hsize₁)
                (lt_of_le_of_lt (unmarked_le hgrows.size fun i => hgrows.marks) (by simp only; omega))
            dsimp only
            rw [hmid, Option.elim_some, Nat.max_le, ← hone, ← hrest]
            cases hfirst : addThread prog hay gen pos stack a slots ⟨ts.list, ts.seen.set pc gen⟩ with
            | none => simp
            | some mid' =>
              cases addThread_unique hfirst hmid
              simp
          | bol =>
            dsimp only
            split_ifs
            · exact hone
            · simp
          | eol =>
            dsimp only
            split_ifs
            · exact hone
            · simp
          | char _ | any | cls _ _ | matched => simp

theorem addThreadAt_isSome (hsize : ts.seen.length = prog.length) :
    (addThreadAt stack prog hay pos pc slots ts).isSome = true ↔
      depthAt prog hay pos pc slots ts ≤ stack := by
  have hle := unmarked_le_length pos ts.seen
  exact addThread_isSome hsize (by rw [maxDepth]; omega)

/-- A stack that holds `maxDepth` calls answers as any that answers. -/
theorem addThreadAt_full (hsize : ts.seen.length = prog.length)
    (h : addThreadAt stack prog hay pos pc slots ts = some ts') :
    addThreadAt (maxDepth prog) prog hay pos pc slots ts = some ts' := by
  have hfits : depthAt prog hay pos pc slots ts ≤ maxDepth prog := addThreadDepth_le
  obtain ⟨full, hfull⟩ := Option.isSome_iff_exists.mp ((addThreadAt_isSome hsize).mpr hfits)
  rw [hfull, addThread_unique hfull h]

section Advance

variable {th : Thread} {ths : List Thread} {next : Threads}

theorem advanceDepth_matched (h : prog[th.pc]? = some .matched) :
    advanceDepth prog hay pos (th :: ths) next = 0 := by
  rw [advanceDepth, h]

theorem advanceDepth_consumes (h : Consumes prog hay pos th.pc) :
    advanceDepth prog hay pos (th :: ths) next =
      max (depthAt prog hay (pos + 1) (th.pc + 1) th.slots next)
        ((addThreadAt (maxDepth prog) prog hay (pos + 1) (th.pc + 1) th.slots next).elim 0
          (advanceDepth prog hay pos ths)) := by
  obtain ⟨inst, ch, hinst, hch, hacc⟩ := h
  rw [advanceDepth, hinst, hch]
  cases inst with
  | matched => cases hacc
  | char _ | any | cls _ _ | bol | eol | split _ _ | jmp _ | save _ => exact if_pos hacc

theorem advanceDepth_drops (h : prog[th.pc]? ≠ some .matched) (h' : ¬ Consumes prog hay pos th.pc) :
    advanceDepth prog hay pos (th :: ths) next = advanceDepth prog hay pos ths next := by
  rw [advanceDepth]
  split
  · next hm => exact absurd hm h
  · split
    · next inst ch hinst hch =>
      refine if_neg fun hacc => h' ⟨inst, ch, hinst, hch, hacc⟩
    · rfl

/-- The loop over the threads ends if and only if the stack holds each of its calls; then it ends
as on a stack that holds `maxDepth` of them. -/
theorem advance_depth (hsize : next.seen.length = prog.length) :
    ((advance stack prog hay pos ths next).isSome = true ↔
        advanceDepth prog hay pos ths next ≤ stack) ∧
      ∀ r, advance stack prog hay pos ths next = some r →
        advance (maxDepth prog) prog hay pos ths next = some r := by
  induction ths generalizing next with
  | nil => exact ⟨by simp [advance, advanceDepth], fun r h => h⟩
  | cons th ths ih =>
    by_cases hm : prog[th.pc]? = some .matched
    · simp only [advance_matched hm, advanceDepth_matched hm]
      exact ⟨by simp, fun r h => h⟩
    by_cases hc : Consumes prog hay pos th.pc
    · simp only [advance_consumes hc, advanceDepth_consumes hc, Nat.max_le, ← addThreadAt_isSome hsize]
      cases hadd : addThreadAt stack prog hay (pos + 1) (th.pc + 1) th.slots next with
      | none => exact ⟨by simp, by simp⟩
      | some mid =>
        have hfull := addThreadAt_full hsize hadd
        rw [hfull]
        simpa using ih ((addThread_grows hsize hadd).size.trans hsize)
    · simp only [advance_drops hm hc, advanceDepth_drops hm hc]
      exact ih hsize

theorem advance_size (hsize : next.seen.length = prog.length) {r : Threads × Option (List Int)}
    (h : advance stack prog hay pos ths next = some r) : r.1.seen.length = prog.length := by
  induction ths generalizing next with
  | nil =>
    cases h
    exact hsize
  | cons th ths ih =>
    by_cases hm : prog[th.pc]? = some .matched
    · rw [advance_matched hm] at h
      cases h
      exact hsize
    by_cases hc : Consumes prog hay pos th.pc
    · rw [advance_consumes hc] at h
      obtain ⟨mid, hadd, hrest⟩ := Option.bind_eq_some_iff.mp h
      exact ih ((addThread_grows hsize hadd).size.trans hsize) hrest
    · rw [advance_drops hm hc] at h
      exact ih hsize h

theorem advanceDepth_le : advanceDepth prog hay pos ths next ≤ maxDepth prog := by
  induction ths generalizing next with
  | nil => exact Nat.zero_le _
  | cons th ths ih =>
    by_cases hm : prog[th.pc]? = some .matched
    · rw [advanceDepth_matched hm]
      exact Nat.zero_le _
    by_cases hc : Consumes prog hay pos th.pc
    · rw [advanceDepth_consumes hc]
      refine Nat.max_le.mpr ⟨addThreadDepth_le, ?_⟩
      cases addThreadAt (maxDepth prog) prog hay (pos + 1) (th.pc + 1) th.slots next with
      | none => exact Nat.zero_le _
      | some mid => exact ih
    · rw [advanceDepth_drops hm hc]
      exact ih

end Advance

section Run

variable {re : CompiledRegex} {current : Threads} {best : Option (List Int)} {rounds : Nat}

theorem begin_isSome (hsize : current.seen.length = re.prog.length) :
    (begin stack re hay pos current best).isSome = true ↔
      beginDepth re hay pos current best ≤ stack := by
  unfold begin beginDepth
  split_ifs
  · exact addThreadAt_isSome hsize
  · simp

theorem begin_full (hsize : current.seen.length = re.prog.length)
    (h : begin stack re hay pos current best = some ts) :
    begin (maxDepth re.prog) re hay pos current best = some ts ∧
      ts.seen.length = re.prog.length := by
  unfold begin at h ⊢
  split_ifs at h ⊢
  · exact ⟨addThreadAt_full hsize h, (addThread_grows hsize h).size.trans hsize⟩
  · cases h
    exact ⟨rfl, hsize⟩

theorem run_depth (hsize : current.seen.length = re.prog.length) :
    (run stack re hay rounds pos current best).isSome = true ↔
      runDepth re hay rounds pos current best ≤ stack := by
  induction rounds generalizing pos current best with
  | zero => simp [run, runDepth]
  | succ rounds ih =>
    rw [run, runDepth, Nat.max_le, ← begin_isSome hsize]
    cases hbegin : begin stack re hay pos current best with
    | none => simp
    | some ts =>
      obtain ⟨hfull, hts⟩ := begin_full hsize hbegin
      rw [hfull, Option.bind_some, Option.elim_some]
      split_ifs
      · simp
      · have hfresh : (⟨[], List.replicate re.prog.length (-1)⟩ : Threads).seen.length =
            re.prog.length := List.length_replicate ..
        obtain ⟨hends, hsame⟩ := @advance_depth re.prog hay pos stack ts.list _ hfresh
        rw [Nat.max_le, ← hends]
        cases hadvance : advance stack re.prog hay pos ts.list
            ⟨[], List.replicate re.prog.length (-1)⟩ with
        | none => simp
        | some r =>
          rw [hsame r hadvance]
          simpa using ih (advance_size hfresh hadvance)

theorem runDepth_le : runDepth re hay rounds pos current best ≤ maxDepth re.prog := by
  induction rounds generalizing pos current best with
  | zero => exact Nat.zero_le _
  | succ rounds ih =>
    rw [runDepth]
    refine Nat.max_le.mpr ⟨?_, ?_⟩
    · unfold beginDepth
      split_ifs
      · exact addThreadDepth_le
      · exact Nat.zero_le _
    · cases begin (maxDepth re.prog) re hay pos current best with
      | none => exact Nat.zero_le _
      | some ts =>
        rw [Option.elim_some]
        split_ifs
        · exact Nat.zero_le _
        · refine Nat.max_le.mpr ⟨advanceDepth_le, ?_⟩
          cases advance (maxDepth re.prog) re.prog hay pos ts.list
              ⟨[], List.replicate re.prog.length (-1)⟩ with
          | none => exact Nat.zero_le _
          | some r => exact ih

end Run

theorem execRegex_isSome (stack : Nat) (lower : Units → Units) (re : CompiledRegex)
    (input : Units) :
    (execRegex stack lower re input).isSome = true ↔ callDepth lower re input ≤ stack := by
  simp only [execRegex, callDepth, Option.isSome_map]
  exact run_depth (List.length_replicate ..)

theorem callDepth_le (lower : Units → Units) (re : CompiledRegex) (input : Units) :
    callDepth lower re input ≤ maxDepth re.prog := runDepth_le

end Ionosphere.Regex
