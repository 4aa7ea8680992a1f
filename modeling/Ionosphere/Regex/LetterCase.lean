import Mathlib.Data.List.Forall2
import Ionosphere.Regex.Machine

/-! Matching without regard to letter case. Literals are lower-cased when a pattern is compiled
and the input when it is matched; the ranges of classes stay as they are written. -/
namespace Ionosphere.Regex

def isCapital (u : UInt16) : Bool := 65 ≤ u && u ≤ 90

def asciiFold (u : UInt16) : UInt16 := if isCapital u then u + 32 else u

def SameLetters (x y : Units) : Prop := x.map asciiFold = y.map asciiFold

/-- What `toLowerCase` does with ASCII letters: their case makes no difference. -/
def LowersAscii (lower : Units → Units) : Prop := ∀ x y, SameLetters x y → lower x = lower y

def foldRange (r : UInt16 × UInt16) : UInt16 × UInt16 := (asciiFold r.1, asciiFold r.2)

mutual

/-- The same tree but for the letter case of literals and of the ranges in classes. -/
def Node.recased : Node → Node → Bool
  | .empty, .empty | .any, .any | .bol, .bol | .eol, .eol => true
  | .char a, .char b => decide (asciiFold a = asciiFold b)
  | .cls negate ranges, .cls negate' ranges' =>
    decide (negate = negate' ∧ ranges.map foldRange = ranges'.map foldRange)
  | .cat parts, .cat parts' => partsRecased parts parts'
  | .alt first rest, .alt first' rest' => Node.recased first first' && partsRecased rest rest'
  | .repeated node bounds, .repeated node' bounds' =>
    decide (bounds.min = bounds'.min ∧ bounds.max = bounds'.max) && Node.recased node node'
  | .group node index, .group node' index' => decide (index = index') && Node.recased node node'
  | _, _ => false

def partsRecased : List Node → List Node → Bool
  | [], [] => true
  | part :: parts, part' :: parts' => Node.recased part part' && partsRecased parts parts'
  | _, _ => false

end

def recased (pattern pattern' : Units) : Bool :=
  match parse pattern, parse pattern' with
  | .ok (ast, st), .ok (ast', st') => decide (st.groups = st'.groups) && ast.recased ast'
  | _, _ => false

/-- The same instruction, or two classes. -/
inductive InstAlike : Inst → Inst → Prop
  | same (inst : Inst) : InstAlike inst inst
  | cls (negate : Bool) (ranges ranges' : Ranges) :
    InstAlike (.cls negate ranges) (.cls negate ranges')

abbrev ProgAlike : Program → Program → Prop := List.Forall₂ InstAlike

theorem ProgAlike.append {p p' q q' : Program} (h : ProgAlike p p') (h' : ProgAlike q q') :
    ProgAlike (p ++ q) (p' ++ q') := List.rel_append h h'

section

variable {f f' : Nat → Program} (hf : ∀ s, ProgAlike (f s) (f' s))

include hf

theorem copies_alike (w n s : Nat) : ProgAlike (copies f w n s) (copies f' w n s) := by
  induction n generalizing s with
  | zero => exact .nil
  | succ n ih => exact (hf s).append (ih (s + w))

theorem starCode_alike (w s : Nat) : ProgAlike (starCode f w s) (starCode f' w s) :=
  .cons (.same _) ((hf (s + 1)).append (.cons (.same _) .nil))

theorem optionalCode_alike (w stop n s : Nat) :
    ProgAlike (optionalCode f w stop n s) (optionalCode f' w stop n s) := by
  induction n generalizing s with
  | zero => exact .nil
  | succ n ih => exact .cons (.same _) ((hf (s + 1)).append (ih (s + 1 + w)))

theorem armCode_alike (last : Bool) (w stop s : Nat) :
    ProgAlike (armCode last f w stop s) (armCode last f' w stop s) := by
  cases last with
  | true => exact hf s
  | false => exact .cons (.same _) ((hf (s + 1)).append (.cons (.same _) .nil))

end

mutual

theorem Node.size_recased : ∀ node node' : Node, node.recased node' = true → node.size = node'.size
  | .empty, .empty, _ | .any, .any, _ | .bol, .bol, _ | .eol, .eol, _ | .char _, .char _, _
  | .cls _ _, .cls _ _, _ => rfl
  | .cat parts, .cat parts', h => (partsSize_recased parts parts' h).1
  | .alt first rest, .alt first' rest', h => by
    obtain ⟨hfirst, hrest⟩ := Bool.and_eq_true_iff.mp h
    have hsizes := partsSize_recased rest rest' hrest
    rw [Node.size, Node.size, Node.size_recased first first' hfirst, hsizes.2.1, hsizes.2.2]
  | .repeated node bounds, .repeated node' bounds', h => by
    obtain ⟨hbounds, hnode⟩ := Bool.and_eq_true_iff.mp h
    obtain ⟨hmin, hmax⟩ := of_decide_eq_true hbounds
    rw [Node.size, Node.size, Node.size_recased node node' hnode, hmin, hmax]
  | .group node _, .group node' _, h => by
    obtain ⟨-, hnode⟩ := Bool.and_eq_true_iff.mp h
    rw [Node.size, Node.size, Node.size_recased node node' hnode]

theorem partsSize_recased : ∀ parts parts' : List Node,
    partsRecased parts parts' = true → partsSize parts = partsSize parts' ∧
      parts.isEmpty = parts'.isEmpty ∧ armsSize parts = armsSize parts'
  | [], [], _ => ⟨rfl, rfl, rfl⟩
  | part :: parts, part' :: parts', h => by
    obtain ⟨hhead, hrest⟩ := Bool.and_eq_true_iff.mp h
    have hpart := Node.size_recased part part' hhead
    have hparts := partsSize_recased parts parts' hrest
    refine ⟨?_, rfl, ?_⟩
    · rw [partsSize, partsSize, hpart, hparts.1]
    · rw [armsSize, armsSize, hpart, hparts.2.1, hparts.2.2]

end

section

variable {lower : Units → Units}

mutual

theorem Node.code_recased (hlower : LowersAscii lower) : ∀ (node node' : Node) (s : Nat),
    node.recased node' = true → ProgAlike (node.code lower true s) (node'.code lower true s)
  | .empty, .empty, s, _ => .nil
  | .any, .any, s, _ => .cons (.same _) .nil
  | .bol, .bol, s, _ => .cons (.same _) .nil
  | .eol, .eol, s, _ => .cons (.same _) .nil
  | .char a, .char b, s, h => by
    have hsame : lower [a] = lower [b] :=
      hlower [a] [b] (congrArg (fun u => [u]) (of_decide_eq_true h))
    rw [Node.code, Node.code, if_pos rfl, if_pos rfl, hsame]
    exact .cons (.same _) .nil
  | .cls negate ranges, .cls negate' ranges', s, h => by
    obtain ⟨rfl, -⟩ := of_decide_eq_true h
    exact .cons (.cls negate ranges ranges') .nil
  | .cat parts, .cat parts', s, h => partsCode_recased hlower parts parts' s h
  | .alt first rest, .alt first' rest', s, h => by
    obtain ⟨hfirst, hrest⟩ := Bool.and_eq_true_iff.mp h
    have hsize := Node.size_recased first first' hfirst
    obtain ⟨-, hempty, harms⟩ := partsSize_recased rest rest' hrest
    rw [Node.code, Node.code, hsize, hempty, harms]
    refine ProgAlike.append ?_ (armsCode_recased hlower rest rest' _ _ hrest)
    exact armCode_alike (fun s => Node.code_recased hlower first first' s hfirst) _ _ _ _
  | .group node index, .group node' index', s, h => by
    obtain ⟨hindex, hnode⟩ := Bool.and_eq_true_iff.mp h
    obtain rfl := of_decide_eq_true hindex
    exact .cons (.same _)
      ((Node.code_recased hlower node node' (s + 1) hnode).append (.cons (.same _) .nil))
  | .repeated node ⟨min, max, _⟩, .repeated node' ⟨min', max', _⟩, s, h => by
    obtain ⟨hbounds, hnode⟩ := Bool.and_eq_true_iff.mp h
    obtain ⟨rfl, rfl⟩ := of_decide_eq_true hbounds
    have hbody := fun s => Node.code_recased hlower node node' s hnode
    rw [Node.code, Node.code, Node.size_recased node node' hnode]
    refine ProgAlike.append (copies_alike hbody _ _ _) ?_
    cases max with
    | none => exact starCode_alike hbody _ _
    | some max => exact optionalCode_alike hbody _ _ _ _

theorem partsCode_recased (hlower : LowersAscii lower) : ∀ (parts parts' : List Node) (s : Nat),
    partsRecased parts parts' = true →
    ProgAlike (partsCode lower true parts s) (partsCode lower true parts' s)
  | [], [], s, _ => .nil
  | part :: parts, part' :: parts', s, h => by
    obtain ⟨hhead, hrest⟩ := Bool.and_eq_true_iff.mp h
    rw [partsCode, partsCode, Node.size_recased part part' hhead]
    exact (Node.code_recased hlower part part' s hhead).append
      (partsCode_recased hlower parts parts' _ hrest)

theorem armsCode_recased (hlower : LowersAscii lower) : ∀ (parts parts' : List Node) (stop s : Nat),
    partsRecased parts parts' = true →
    ProgAlike (armsCode lower true stop parts s) (armsCode lower true stop parts' s)
  | [], [], stop, s, _ => .nil
  | part :: parts, part' :: parts', stop, s, h => by
    obtain ⟨hhead, hrest⟩ := Bool.and_eq_true_iff.mp h
    obtain ⟨-, hempty, -⟩ := partsSize_recased parts parts' hrest
    rw [armsCode, armsCode, Node.size_recased part part' hhead, hempty]
    refine ProgAlike.append ?_ (armsCode_recased hlower parts parts' _ _ hrest)
    exact armCode_alike (fun s => Node.code_recased hlower part part' s hhead) _ _ _ _

end

end

/-! ### Two programs over one input -/

section

variable {prog prog' : Program} (h : ProgAlike prog prog')

include h

theorem ProgAlike.get (pc : Nat) :
    prog[pc]? = prog'[pc]? ∨ ∃ negate ranges ranges',
      prog[pc]? = some (.cls negate ranges) ∧ prog'[pc]? = some (.cls negate ranges') := by
  induction h generalizing pc with
  | nil => exact .inl rfl
  | @cons inst inst' prog prog' hinst _ ih =>
    cases pc with
    | zero =>
      cases hinst with
      | same => exact .inl rfl
      | cls negate ranges ranges' => exact .inr ⟨negate, ranges, ranges', rfl, rfl⟩
    | succ pc => exact ih pc

theorem addThread_alike (hay : Units) (gen : Int) (pos stack : Nat) :
    addThread prog hay gen pos stack = addThread prog' hay gen pos stack := by
  induction stack with
  | zero => rfl
  | succ stack ih =>
    funext pc slots ts
    rw [addThread, addThread]
    obtain heq | ⟨negate, ranges, ranges', hleft, hright⟩ := h.get pc
    · rw [heq]
      simp only [ih]
    · rw [hleft, hright]

theorem addThreadAt_alike (stack : Nat) (hay : Units) (pos pc : Nat) (slots : List Int)
    (ts : Threads) :
    addThreadAt stack prog hay pos pc slots ts = addThreadAt stack prog' hay pos pc slots ts := by
  rw [addThreadAt, addThreadAt, addThread_alike h]

end

def Accepts (prog : Program) (pc : Nat) (unit : UInt16) : Bool :=
  (prog[pc]?).any fun inst => inst.accepts unit

/-- The threads whose instruction is tested: those before the first that matches. -/
def tested (prog : Program) (ths : List Thread) : List Thread :=
  ths.takeWhile fun th => prog[th.pc]? ≠ some .matched

/-- In the rounds that are left each test comes out as with the other program. -/
def roundsAgree (stack : Nat) (re re' : CompiledRegex) (hay : Units) :
    Nat → Nat → Threads → Option (List Int) → Bool
  | 0, _, _, _ => true
  | rounds + 1, pos, current, best =>
    (begin stack re hay pos current best).elim true fun current =>
      if current.list = [] ∧ best ≠ none then true
      else
        ((tested re.prog current.list).all fun th =>
          hay[pos]?.all fun unit => Accepts re.prog th.pc unit == Accepts re'.prog th.pc unit) &&
        (advance stack re.prog hay pos current.list
          ⟨[], List.replicate re.prog.length (-1)⟩).elim true fun r =>
            roundsAgree stack re re' hay rounds (pos + 1) r.1 (r.2.orElse fun _ => best)

theorem advance_alike {prog prog' : Program} (h : ProgAlike prog prog') {stack : Nat} {hay : Units}
    {pos : Nat} {ths : List Thread}
    (hagree : ∀ th ∈ tested prog ths, ∀ unit, hay[pos]? = some unit →
      Accepts prog th.pc unit = Accepts prog' th.pc unit) :
    advance stack prog hay pos ths = advance stack prog' hay pos ths := by
  induction ths with
  | nil => rfl
  | cons th ths ih =>
    funext next
    rw [advance, advance]
    obtain heq | ⟨negate, ranges, ranges', hleft, hright⟩ := h.get th.pc
    · by_cases hm : prog[th.pc]? = some .matched
      · rw [← heq, hm]
      · rw [tested, List.takeWhile_cons_of_pos (by simpa using hm)] at hagree
        rw [← heq, ih fun t ht => hagree t (List.mem_cons_of_mem th ht)]
        simp only [addThreadAt_alike h]
    · rw [tested, List.takeWhile_cons_of_pos (by simp [hleft])] at hagree
      have hhead := hagree th List.mem_cons_self
      rw [hleft, hright, ih fun t ht => hagree t (List.mem_cons_of_mem th ht)]
      cases hch : hay[pos]? with
      | none => rfl
      | some unit =>
        have haccepts := hhead unit hch
        rw [Accepts, Accepts, hleft, hright] at haccepts
        change inClass negate ranges unit = inClass negate ranges' unit at haccepts
        change (if inClass negate ranges unit then _ else _) =
          (if inClass negate ranges' unit then _ else _)
        rw [haccepts, addThreadAt_alike h]

theorem run_alike {prog prog' : Program} (h : ProgAlike prog prog') {stack groups : Nat}
    {hay : Units} {rounds pos : Nat} {current : Threads} {best : Option (List Int)}
    (hagree : roundsAgree stack ⟨prog, groups, true⟩ ⟨prog', groups, true⟩ hay rounds pos current
      best = true) :
    run stack ⟨prog, groups, true⟩ hay rounds pos current best =
      run stack ⟨prog', groups, true⟩ hay rounds pos current best := by
  induction rounds generalizing pos current best with
  | zero => rfl
  | succ rounds ih =>
    have hbegin : begin stack ⟨prog', groups, true⟩ hay pos current best =
        begin stack ⟨prog, groups, true⟩ hay pos current best := by
      simp only [begin, addThreadAt_alike h]
    rw [roundsAgree] at hagree
    rw [run, run, hbegin]
    cases hts : begin stack ⟨prog, groups, true⟩ hay pos current best with
    | none => rfl
    | some ts =>
      rw [hts, Option.elim_some] at hagree
      rw [Option.bind_some, Option.bind_some]
      split_ifs at hagree ⊢
      · rfl
      · obtain ⟨htests, hrest⟩ := Bool.and_eq_true_iff.mp hagree
        have hadvance : advance stack prog hay pos ts.list = advance stack prog' hay pos ts.list := by
          refine advance_alike h fun th hth unit hunit => ?_
          have htest := List.all_eq_true.mp htests th hth
          rwa [hunit, Option.all_some, beq_iff_eq] at htest
        simp only [← hadvance, ← List.Forall₂.length_eq h]
        cases hr : advance stack prog hay pos ts.list ⟨[], List.replicate prog.length (-1)⟩ with
        | none => rfl
        | some r =>
          simp only [hr, Option.elim_some] at hrest
          exact ih hrest

def positions (stack : Nat) (lower : Units → Units) (re : CompiledRegex) (input : Units) :
    Option (Option (List Int)) :=
  run stack re (lower input) ((lower input).length + 1) 0
    ⟨[], List.replicate re.prog.length (-1)⟩ none

/-- Each test of the run comes out as with the other pattern. -/
def testsAgree (stack : Nat) (lower : Units → Units) (re re' : CompiledRegex) (input : Units) :
    Bool :=
  roundsAgree stack re re' (lower input) ((lower input).length + 1) 0
    ⟨[], List.replicate re.prog.length (-1)⟩ none

def LowersUnits (lower : Units → Units) (input : Units) : Prop :=
  (lower input).map (fun u => [u]) = input.map fun u => lower [u]

def CapturesOriginal (stack : Nat) (lower : Units → Units) (re : CompiledRegex) (input : Units) :
    Prop :=
  ∀ slots, positions stack lower re input = some (some slots) →
    (execRegex stack lower re input).map (·.captures) =
        some ((List.range re.groups).map fun g => capture input slots (g + 1)) ∧
      ∀ g, (capture (lower input) slots g).map (fun u => [u]) =
        (capture input slots g).map fun u => lower [u]

theorem execRegex_positions (stack : Nat) (lower : Units → Units) {re : CompiledRegex}
    (hre : re.caseInsensitive = true) (input : Units) :
    execRegex stack lower re input = (positions stack lower re input).map fun best =>
      match best with
      | none => ⟨false, []⟩
      | some best => ⟨true, (List.range re.groups).map fun g => capture input best (g + 1)⟩ := by
  unfold execRegex positions
  rw [hre]
  rfl

theorem compileRegex_caseInsensitive {lower : Units → Units} {ci : Bool} {pattern : Units}
    {re : CompiledRegex} (h : compileRegex lower ci pattern = .ok re) : re.caseInsensitive = ci := by
  obtain ⟨ast, st, -, -, rfl⟩ := compileRegex_eq lower ci h
  rfl

theorem positions_recased {stack : Nat} {lower : Units → Units} (hlower : LowersAscii lower)
    {pattern pattern' : Units} {re re' : CompiledRegex}
    (hre : compileRegex lower true pattern = .ok re)
    (hre' : compileRegex lower true pattern' = .ok re') (h : recased pattern pattern' = true)
    {input input' : Units} (hinput : SameLetters input input')
    (htests : testsAgree stack lower re re' input = true) :
    positions stack lower re input = positions stack lower re' input' := by
  obtain ⟨ast, st, hparse, -, rfl⟩ := compileRegex_eq lower true hre
  obtain ⟨ast', st', hparse', -, rfl⟩ := compileRegex_eq lower true hre'
  rw [recased, hparse, hparse'] at h
  obtain ⟨hgroups, hnode⟩ := Bool.and_eq_true_iff.mp h
  have hprog : ProgAlike (Inst.save 0 :: (ast.code lower true 1 ++ [Inst.save 1, .matched]))
      (.save 0 :: (ast'.code lower true 1 ++ [Inst.save 1, .matched])) := by
    refine .cons (.same _) (ProgAlike.append (Node.code_recased hlower ast ast' 1 hnode) ?_)
    exact .cons (.same _) (.cons (.same _) .nil)
  unfold positions
  rw [testsAgree, ← of_decide_eq_true hgroups] at htests
  rw [← hlower input input' hinput, ← of_decide_eq_true hgroups, ← List.Forall₂.length_eq hprog]
  exact run_alike hprog htests

theorem capture_map {α : Type} (f : UInt16 → α) (input : Units) (slots : List Int) (g : Nat)
    {input' : Units} {f' : UInt16 → α} (h : input'.map f' = input.map f) :
    (capture input' slots g).map f' = (capture input slots g).map f := by
  unfold capture
  dsimp only
  split
  · rw [List.map_take, List.map_drop, h, List.map_take, List.map_drop]
  · rfl

theorem capturesOriginal {stack : Nat} {lower : Units → Units} {re : CompiledRegex}
    (hre : re.caseInsensitive = true) {input : Units} (h : LowersUnits lower input) :
    CapturesOriginal stack lower re input := by
  intro slots hslots
  refine ⟨?_, fun g => capture_map (fun u => lower [u]) input slots g h⟩
  rw [execRegex_positions stack lower hre, hslots]
  rfl

/-- `toLowerCase` on ASCII and on the dotted capital I, whose lower case is two units. -/
def lowerLong (s : Units) : Units :=
  (s.map asciiFold).flatMap fun u => if u = 0x130 then [0x69, 0x307] else [u]

theorem lowerLong_lowers : LowersAscii lowerLong := by
  intro x y h
  rw [lowerLong, lowerLong, h]

theorem compile_ok {p : Compile CompiledRegex} (h : p.isOk = true) : ∃ re, p = .ok re := by
  cases p with
  | error e => cases h
  | ok re => exact ⟨re, rfl⟩

def matchesLong (pattern input : Units) : Option Bool :=
  match compileRegex lowerLong true pattern with
  | .ok re => (execRegex 50 lowerLong re input).map (·.matched)
  | .error _ => none

theorem matchesLong_eq {pattern : Units} {re : CompiledRegex}
    (h : compileRegex lowerLong true pattern = .ok re) (input : Units) :
    (execRegex 50 lowerLong re input).map (·.matched) = matchesLong pattern input := by
  rw [matchesLong, h]

def shifted (pattern input : Units) : Bool :=
  match compileRegex lowerLong true pattern with
  | .ok re =>
    match positions 50 lowerLong re input with
    | some (some slots) =>
      decide (capture input slots 1 = [] ∧ capture (lowerLong input) slots 1 ≠ [])
    | _ => false
  | .error _ => false

end Ionosphere.Regex
