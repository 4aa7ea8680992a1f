import Ionosphere.Regex.CallDepth

/-! What a pattern stands for. A tree relates the position where it begins to those where it
may end; the anchors hold at the ends of the whole input. The code of a tree implements that
relation, and so the machine finds what the tree describes. -/
namespace Ionosphere.Regex

open Ionosphere.Lib

variable {inst : Inst} {R : Nat → Nat → Prop}

section Matches

variable (hay : Units)

mutual

def Node.Matches : Node → Nat → Nat → Prop
  | .empty, i, j => i = j
  | .char ch, i, j => j = i + 1 ∧ hay[i]? = some ch
  | .any, i, j => j = i + 1 ∧ i < hay.length
  | .cls negate ranges, i, j => j = i + 1 ∧ ∃ ch, hay[i]? = some ch ∧
      ((∃ r ∈ ranges, r.1 ≤ ch ∧ ch ≤ r.2) ↔ negate = false)
  | .bol, i, j => i = j ∧ i = 0
  | .eol, i, j => i = j ∧ i = hay.length
  | .cat parts, i, j => partsMatch parts i j
  | .alt first rest, i, j => Node.Matches first i j ∨ armsMatch rest i j
  | .group node _, i, j => Node.Matches node i j
  | .repeated node bounds, i, j =>
    ∃ n, bounds.min ≤ n ∧ (∀ m ∈ bounds.max, n ≤ m) ∧ Iterate (Node.Matches node) n i j

def partsMatch : List Node → Nat → Nat → Prop
  | [], i, j => i = j
  | part :: parts, i, j => ∃ k, Node.Matches part i k ∧ partsMatch parts k j

def armsMatch : List Node → Nat → Nat → Prop
  | [], _, _ => False
  | part :: parts, i, j => Node.Matches part i j ∨ armsMatch parts i j

end

end Matches

def Forward (length : Nat) (R : Nat → Nat → Prop) : Prop :=
  ∀ i j, R i j → i ≤ j ∧ (i ≤ length → j ≤ length)

theorem Forward.iterate {length : Nat} (h : Forward length R) (n : Nat) :
    Forward length (Iterate R n) := by
  induction n with
  | zero =>
    rintro i _ rfl
    exact ⟨le_rfl, id⟩
  | succ n ih =>
    rintro i j ⟨k, hik, hkj⟩
    have hfirst := h i k hik
    have hrest := ih k j hkj
    exact ⟨hfirst.1.trans hrest.1, fun hi => hrest.2 (hfirst.2 hi)⟩

theorem forward_unit {hay : Units} {i j : Nat} {ch : UInt16} (h : hay[i]? = some ch)
    (hj : j = i + 1) : i ≤ j ∧ (i ≤ hay.length → j ≤ hay.length) := by
  have hlt : i < hay.length := (List.getElem?_eq_some_iff.mp h).1
  exact ⟨by omega, fun _ => by omega⟩

section Forward

variable (hay : Units)

mutual

theorem Node.forward : ∀ node : Node, Forward hay.length (node.Matches hay)
  | .empty => by
    rintro i _ rfl
    exact ⟨le_rfl, id⟩
  | .char ch => by
    rintro i j ⟨hj, hch⟩
    exact forward_unit hch hj
  | .any => by
    rintro i j ⟨hj, hlt⟩
    exact forward_unit (List.getElem?_eq_getElem hlt) hj
  | .cls negate ranges => by
    rintro i j ⟨hj, ch, hch, -⟩
    exact forward_unit hch hj
  | .bol => by
    rintro i _ ⟨rfl, -⟩
    exact ⟨le_rfl, id⟩
  | .eol => by
    rintro i _ ⟨rfl, -⟩
    exact ⟨le_rfl, id⟩
  | .cat parts => partsMatch_forward parts
  | .alt first rest => by
    rintro i j (h | h)
    · exact Node.forward first i j h
    · exact armsMatch_forward rest i j h
  | .group node _ => Node.forward node
  | .repeated node bounds => by
    rintro i j ⟨n, -, -, h⟩
    exact (Node.forward node).iterate n i j h

theorem partsMatch_forward : ∀ parts : List Node, Forward hay.length (partsMatch hay parts)
  | [] => by
    rintro i _ rfl
    exact ⟨le_rfl, id⟩
  | part :: parts => by
    rintro i j ⟨k, hik, hkj⟩
    have hfirst := Node.forward part i k hik
    have hrest := partsMatch_forward parts k j hkj
    exact ⟨hfirst.1.trans hrest.1, fun hi => hrest.2 (hfirst.2 hi)⟩

theorem armsMatch_forward : ∀ parts : List Node, Forward hay.length (armsMatch hay parts)
  | [] => by
    rintro i j h
    cases h
  | part :: parts => by
    rintro i j (h | h)
    · exact Node.forward part i j h
    · exact armsMatch_forward parts i j h

end

end Forward

def CodeAt (prog : Program) (s : Nat) (code : Program) : Prop :=
  ∃ pre post, prog = pre ++ (code ++ post) ∧ pre.length = s

variable {prog : Program} {hay : Units} {s : Nat}

theorem CodeAt.append {code code' : Program} (h : CodeAt prog s (code ++ code')) :
    CodeAt prog s code ∧ CodeAt prog (s + code.length) code' := by
  obtain ⟨pre, post, rfl, rfl⟩ := h
  refine ⟨⟨pre, code' ++ post, by simp, rfl⟩, pre ++ code, post, by simp, by simp⟩

theorem CodeAt.cons {code : Program} (h : CodeAt prog s (inst :: code)) :
    prog[s]? = some inst ∧ CodeAt prog (s + 1) code := by
  obtain ⟨pre, post, rfl, rfl⟩ := h
  refine ⟨by simp, pre ++ [inst], post, by simp, by simp⟩

section Instruction

variable (hinst : prog[s]? = some inst)

include hinst

theorem next_iff (i q j : Nat) : (graph prog hay).next s i q j ↔
    j = i ∧ q ∈ successors prog hay i s ∨
      j = i + 1 ∧ q = s + 1 ∧ ∃ ch, hay[i]? = some ch ∧ inst.accepts ch = true := by
  have hconsumes : Consumes prog hay i s ↔ ∃ ch, hay[i]? = some ch ∧ inst.accepts ch = true := by
    constructor
    · rintro ⟨inst', ch, hinst', hch, hacc⟩
      rw [hinst] at hinst'
      cases hinst'
      exact ⟨ch, hch, hacc⟩
    · rintro ⟨ch, hch, hacc⟩
      exact ⟨inst, ch, hinst, hch, hacc⟩
  change _ ∨ _ ∧ _ ∧ Consumes prog hay i s ↔ _
  rw [hconsumes]

theorem not_final (h : inst ≠ .matched) (i : Nat) : ¬ (graph prog hay).final s i := by
  intro hfinal
  have heq := hinst.symm.trans hfinal
  exact h (Option.some.inj heq)

end Instruction

theorem implements_unit (hinst : prog[s]? = some inst) (hm : inst ≠ .matched)
    (hw : inst.waits = true) :
    (graph prog hay).Implements
      (fun i j => j = i + 1 ∧ ∃ ch, hay[i]? = some ch ∧ inst.accepts ch = true) s (s + 1) := by
  refine ControlGraph.Implements.single (not_final hinst hm) fun i q j => ?_
  have hsucc : successors prog hay i s = [] := by
    cases inst with
    | char _ | any | cls _ _ | matched => simp [successors, hinst]
    | bol | eol | split _ _ | jmp _ | save _ => cases hw
  rw [next_iff hinst, hsucc]
  simp only [List.not_mem_nil, and_false, false_or]
  tauto

theorem implements_pass {e : Nat} {P : Nat → Prop} (hinst : prog[s]? = some inst)
    (hw : inst.waits = false) (hsucc : ∀ i q, q ∈ successors prog hay i s ↔ q = e ∧ P i) :
    (graph prog hay).Implements (fun i j => i = j ∧ P i) s e := by
  have hm : inst ≠ .matched := by
    rintro rfl
    cases hw
  refine ControlGraph.Implements.single (not_final hinst hm) fun i q j => ?_
  rw [next_iff hinst, hsucc]
  constructor
  · rintro (⟨rfl, rfl, hP⟩ | ⟨-, -, ch, -, hacc⟩)
    · exact ⟨rfl, rfl, hP⟩
    · rw [accepts_waits hacc] at hw
      cases hw
  · rintro ⟨rfl, rfl, hP⟩
    exact .inl ⟨rfl, rfl, hP⟩

theorem implements_jmp {e : Nat} (hinst : prog[s]? = some (.jmp e)) :
    (graph prog hay).Implements Eq s e := by
  refine (implements_pass hinst rfl (P := fun _ => True) fun i q => ?_).congr (by simp)
  simp [successors, hinst]

theorem implements_save {slot : Nat} (hinst : prog[s]? = some (.save slot)) :
    (graph prog hay).Implements Eq s (s + 1) := by
  refine (implements_pass hinst rfl (P := fun _ => True) fun i q => ?_).congr (by simp)
  simp [successors, hinst]

theorem implements_bol (hinst : prog[s]? = some .bol) :
    (graph prog hay).Implements (Node.bol.Matches hay) s (s + 1) := by
  refine implements_pass hinst rfl fun i q => ?_
  by_cases hi : i = 0 <;> simp [successors, hinst, hi]

theorem implements_eol (hinst : prog[s]? = some .eol) :
    (graph prog hay).Implements (Node.eol.Matches hay) s (s + 1) := by
  refine implements_pass hinst rfl fun i q => ?_
  by_cases hi : i = hay.length <;> simp [successors, hinst, hi]

theorem split_next {a b : Nat} (hinst : prog[s]? = some (.split a b)) (i q j : Nat) :
    (graph prog hay).next s i q j ↔ (q = a ∨ q = b) ∧ j = i := by
  rw [next_iff hinst]
  simp [successors, hinst, and_comm]

theorem inClass_iff (negate : Bool) (ranges : Ranges) (ch : UInt16) :
    inClass negate ranges ch = true ↔
      ((∃ r ∈ ranges, r.1 ≤ ch ∧ ch ≤ r.2) ↔ negate = false) := by
  have hhit : (ranges.any fun r => r.1 ≤ ch && ch ≤ r.2) = true ↔
      ∃ r ∈ ranges, r.1 ≤ ch ∧ ch ≤ r.2 := by
    simp [List.any_eq_true]
  unfold inClass
  rw [← hhit]
  cases negate <;> simp

section Body

variable {f : Nat → Program} {w : Nat} (hf : ∀ s, (f s).length = w)
  (hbody : ∀ s, CodeAt prog s (f s) → (graph prog hay).Implements R s (s + w))

include hf hbody

theorem implements_copies {n : Nat} (h : CodeAt prog s (copies f w n s)) :
    (graph prog hay).Implements (Iterate R n) s (s + n * w) := by
  induction n generalizing s with
  | zero =>
    rw [Nat.zero_mul]
    exact ControlGraph.Implements.refl s
  | succ n ih =>
    rw [copies] at h
    obtain ⟨hfirst, hrest⟩ := h.append
    rw [hf] at hrest
    have hboth := (hbody s hfirst).comp (ih hrest)
    rw [show s + w + n * w = s + (n + 1) * w by rw [Nat.succ_mul]; omega] at hboth
    exact hboth

theorem implements_star (h : CodeAt prog s (starCode f w s)) :
    (graph prog hay).Implements (fun i j => ∃ n, Iterate R n i j) s (s + w + 2) := by
  rw [starCode] at h
  obtain ⟨hsplit, h⟩ := h.cons
  obtain ⟨hfirst, hrest⟩ := h.append
  rw [hf] at hrest
  obtain ⟨hjmp, -⟩ := hrest.cons
  refine ControlGraph.Implements.loop (split_next hsplit) (not_final hsplit (by simp)) ?_
  refine ((hbody (s + 1) hfirst).comp (implements_jmp hjmp)).congr fun i j => ?_
  rw [Relation.comp_eq]

theorem implements_optional {n stop : Nat} (hstop : stop = s + n * (w + 1))
    (h : CodeAt prog s (optionalCode f w stop n s)) :
    (graph prog hay).Implements (fun i j => ∃ k, k ≤ n ∧ Iterate R k i j) s stop := by
  induction n generalizing s with
  | zero =>
    rw [Nat.zero_mul, Nat.add_zero] at hstop
    subst hstop
    refine (ControlGraph.Implements.refl stop).congr fun i j => ?_
    constructor
    · rintro rfl
      exact ⟨0, le_rfl, rfl⟩
    · rintro ⟨k, hk, hik⟩
      obtain rfl : k = 0 := by omega
      exact hik
  | succ n ih =>
    rw [optionalCode] at h
    obtain ⟨hsplit, h⟩ := h.cons
    obtain ⟨hfirst, hrest⟩ := h.append
    rw [hf] at hrest
    have htail := ih (by rw [hstop, Nat.succ_mul]; omega) hrest
    have hround := (hbody (s + 1) hfirst).comp htail
    have hall := ControlGraph.Implements.branch (split_next hsplit) (not_final hsplit (by simp)) hround
      (ControlGraph.Implements.refl stop)
    refine hall.congr fun i j => ?_
    constructor
    · rintro (⟨m, him, k, hk, hmj⟩ | rfl)
      · exact ⟨k + 1, Nat.succ_le_succ hk, m, him, hmj⟩
      · exact ⟨0, Nat.zero_le _, rfl⟩
    · rintro ⟨k, hk, hij⟩
      cases k with
      | zero => exact .inr hij
      | succ k =>
        obtain ⟨m, him, hmj⟩ := hij
        exact .inl ⟨m, him, k, Nat.le_of_succ_le_succ hk, hmj⟩

theorem implements_arm {T : Nat → Nat → Prop} {stop : Nat}
    (h : CodeAt prog s (armCode false f w stop s))
    (hT : (graph prog hay).Implements T (s + w + 2) stop) :
    (graph prog hay).Implements (fun i j => R i j ∨ T i j) s stop := by
  rw [armCode, if_neg (by simp)] at h
  obtain ⟨hsplit, h⟩ := h.cons
  obtain ⟨hfirst, hrest⟩ := h.append
  rw [hf] at hrest
  obtain ⟨hjmp, -⟩ := hrest.cons
  have hleft := (hbody (s + 1) hfirst).comp (implements_jmp hjmp)
  rw [Relation.comp_eq] at hleft
  exact ControlGraph.Implements.branch (split_next hsplit) (not_final hsplit (by simp)) hleft hT

end Body

theorem iterate_bounds {min max : Nat} (h : min ≤ max) (i j : Nat) :
    Relation.Comp (Iterate R min) (fun i j => ∃ k, k ≤ max - min ∧ Iterate R k i j) i j ↔
      ∃ n, min ≤ n ∧ n ≤ max ∧ Iterate R n i j := by
  constructor
  · rintro ⟨m, him, k, hk, hmj⟩
    exact ⟨min + k, by omega, by omega, iterate_add.mpr ⟨m, him, hmj⟩⟩
  · rintro ⟨n, hmin, hmax, hij⟩
    obtain ⟨k, rfl⟩ := Nat.exists_eq_add_of_le hmin
    obtain ⟨m, him, hmj⟩ := iterate_add.mp hij
    exact ⟨m, him, k, by omega, hmj⟩

theorem iterate_unbounded {min : Nat} (i j : Nat) :
    Relation.Comp (Iterate R min) (fun i j => ∃ k, Iterate R k i j) i j ↔
      ∃ n, min ≤ n ∧ Iterate R n i j := by
  constructor
  · rintro ⟨m, him, k, hmj⟩
    exact ⟨min + k, by omega, iterate_add.mpr ⟨m, him, hmj⟩⟩
  · rintro ⟨n, hmin, hij⟩
    obtain ⟨k, rfl⟩ := Nat.exists_eq_add_of_le hmin
    obtain ⟨m, him, hmj⟩ := iterate_add.mp hij
    exact ⟨m, him, k, hmj⟩

section Implements

variable (prog : Program) (hay : Units) (lower : Units → Units)

mutual

theorem Node.implements : ∀ (node : Node) (s : Nat), CodeAt prog s (node.code lower false s) →
    (graph prog hay).Implements (node.Matches hay) s (s + node.size)
  | .empty, s, _ => ControlGraph.Implements.refl s
  | .char ch, s, h => by
    refine (implements_unit h.cons.1 (by simp) rfl).congr fun i j => ?_
    simp [Node.Matches]
  | .any, s, h => by
    refine (implements_unit h.cons.1 (by simp) rfl).congr fun i j => ?_
    simp [Node.Matches, List.getElem?_eq_some_iff]
  | .cls negate ranges, s, h => by
    refine (implements_unit h.cons.1 (by simp) rfl).congr fun i j => ?_
    simp only [accepts_cls, Node.Matches, inClass_iff]
  | .bol, s, h => implements_bol h.cons.1
  | .eol, s, h => implements_eol h.cons.1
  | .cat parts, s, h => partsImplements parts s h
  | .alt first rest, s, h => by
    have hf := Node.code_length lower false first
    rw [Node.code] at h
    obtain ⟨hfirst, hrest⟩ := h.append
    rw [armCode_length hf] at hrest
    by_cases hne : rest = []
    · subst hne
      refine (Node.implements first s hfirst).congr fun i j => ?_
      simp [Node.Matches, armsMatch]
    · have hlast : rest.isEmpty = false := by simp [hne]
      rw [hlast] at hfirst
      have htail := armsImplements rest hne _ _ (by rw [Nat.add_assoc]) hrest
      rw [hlast] at htail
      simp only [Node.size, hlast]
      exact implements_arm hf (fun s => Node.implements first s) hfirst htail
  | .group node index, s, h => by
    have hf := Node.code_length lower false node
    simp only [Node.code] at h
    obtain ⟨hopen, h⟩ := h.cons
    obtain ⟨hbody, hrest⟩ := h.append
    rw [hf] at hrest
    have hall := ((implements_save hopen).comp (Node.implements node (s + 1) hbody)).comp
      (implements_save hrest.cons.1)
    rw [Relation.comp_eq, Relation.eq_comp] at hall
    rw [show s + 1 + node.size + 1 = s + (node.size + 2) by omega] at hall
    exact hall
  | .repeated node ⟨min, none, hordered⟩, s, h => by
    have hf := Node.code_length lower false node
    simp only [Node.code] at h
    obtain ⟨hcopies, hrest⟩ := h.append
    rw [copies_length hf] at hrest
    have hbody := fun s => Node.implements node s
    have hall := (implements_copies hf hbody hcopies).comp (implements_star hf hbody hrest)
    have hmatches := hall.congr (T := Node.Matches hay (.repeated node ⟨min, none, hordered⟩))
      fun i j => (iterate_unbounded i j).trans (by simp [Node.Matches])
    simpa only [Node.size, ← Nat.add_assoc] using hmatches
  | .repeated node ⟨min, some max, hordered⟩, s, h => by
    have hf := Node.code_length lower false node
    simp only [Node.code] at h
    obtain ⟨hcopies, hrest⟩ := h.append
    rw [copies_length hf] at hrest
    have hbody := fun s => Node.implements node s
    have hall := (implements_copies hf hbody hcopies).comp
      (implements_optional hf hbody rfl hrest)
    have hmatches := hall.congr (T := Node.Matches hay (.repeated node ⟨min, some max, hordered⟩))
      fun i j => (iterate_bounds (hordered max rfl) i j).trans (by simp [Node.Matches])
    simpa only [Node.size, ← Nat.add_assoc] using hmatches

theorem partsImplements : ∀ (parts : List Node) (s : Nat),
    CodeAt prog s (partsCode lower false parts s) →
    (graph prog hay).Implements (partsMatch hay parts) s (s + partsSize parts)
  | [], s, _ => ControlGraph.Implements.refl s
  | part :: parts, s, h => by
    rw [partsCode] at h
    obtain ⟨hfirst, hrest⟩ := h.append
    rw [Node.code_length] at hrest
    have hall := (Node.implements part s hfirst).comp (partsImplements parts _ hrest)
    rw [Nat.add_assoc] at hall
    exact hall

theorem armsImplements : ∀ (parts : List Node), parts ≠ [] → ∀ s stop : Nat,
    stop = s + armsSize parts → CodeAt prog s (armsCode lower false stop parts s) →
    (graph prog hay).Implements (armsMatch hay parts) s stop
  | [], hne, _, _, _, _ => absurd rfl hne
  | part :: parts, _, s, stop, hstop, h => by
    have hf := Node.code_length lower false part
    rw [armsCode] at h
    obtain ⟨hfirst, hrest⟩ := h.append
    rw [armCode_length hf] at hrest
    rw [armsSize, ← Nat.add_assoc] at hstop
    by_cases hne : parts = []
    · subst hne
      have hend : stop = s + part.size := hstop
      rw [hend]
      refine (Node.implements part s hfirst).congr fun i j => ?_
      simp [armsMatch]
    · have hlast : parts.isEmpty = false := by simp [hne]
      have htail := armsImplements parts hne _ stop hstop hrest
      rw [hlast] at hfirst htail
      exact implements_arm hf (fun s => Node.implements part s) hfirst htail

end

end Implements

/-- A report is right; one is made if and only if the stack holds the calls of `addThread`. -/
theorem regex_language (stack : Nat) (lower : Units → Units) (pattern : Units) (re : CompiledRegex)
    (h : compileRegex lower false pattern = .ok re) :
    ∃ ast st, parse pattern = .ok (ast, st) ∧ st.rest = [] ∧ ∀ input : Units,
      (∃ m, execRegex stack lower re input = some m ∧
        (m.matched = true ↔ ∃ i j, i ≤ j ∧ j ≤ input.length ∧ ast.Matches input i j)) ↔
      callDepth lower re input ≤ stack := by
  obtain ⟨ast, st, hparse, hrest, rfl⟩ := compileRegex_eq lower false h
  refine ⟨ast, st, hparse, hrest, fun input => ?_⟩
  rw [← execRegex_isSome, Option.isSome_iff_exists]
  refine exists_congr fun m => and_iff_left_of_imp fun hm => ?_
  rw [execRegex_matched rfl hm]
  simp only
  generalize hprog : Inst.save 0 :: (ast.code lower false 1 ++ [Inst.save 1, .matched]) = prog
  have hcode : CodeAt prog 0 (Inst.save 0 :: (ast.code lower false 1 ++ [Inst.save 1, .matched])) :=
    ⟨[], [], by simp [hprog], rfl⟩
  obtain ⟨hsave, hcode⟩ := hcode.cons
  obtain ⟨hast, hend⟩ := hcode.append
  rw [Node.code_length] at hend
  obtain ⟨hsave', hlast⟩ := hend.cons
  have hmatched := hlast.cons.1
  have hall := ((implements_save hsave).comp (Node.implements prog input lower ast 1 hast)).comp
    (implements_save hsave')
  rw [Relation.comp_eq, Relation.eq_comp] at hall
  constructor
  · rintro ⟨i, k, hi, hrun⟩
    obtain ⟨j, -, -, hm, -⟩ := hall.sound hrun
    have hforward := Node.forward input ast i j hm
    exact ⟨i, j, hforward.1, hforward.2 hi, hm⟩
  · rintro ⟨i, j, hij, hj, hm⟩
    obtain ⟨k, hrun⟩ := hall.complete hm (.done hmatched)
    exact ⟨i, k, hij.trans hj, hrun⟩

/-- An empty body in a loop, a counted group and both anchors; the program is short. -/
theorem regex_language_loop :
    ∃ re, compileRegex id false (units "^(a?|b*)*c\x7b2,3\x7d$") = .ok re ∧
      ∃ ast st, parse (units "^(a?|b*)*c\x7b2,3\x7d$") = .ok (ast, st) ∧ st.rest = [] ∧
        ∀ input : Units, ∃ m, execRegex 100 id re input = some m ∧
          (m.matched = true ↔ ∃ i j, i ≤ j ∧ j ≤ input.length ∧ ast.Matches input i j) := by
  have hok : (compileRegex id false (units "^(a?|b*)*c\x7b2,3\x7d$")).toOption.any
      (fun re => maxDepth re.prog ≤ 100) = true := by decide +kernel
  cases h : compileRegex id false (units "^(a?|b*)*c\x7b2,3\x7d$") with
  | error e =>
    rw [h] at hok
    cases hok
  | ok re =>
    rw [h] at hok
    obtain ⟨ast, st, hparse, hrest, hall⟩ :=
      regex_language 100 id (units "^(a?|b*)*c\x7b2,3\x7d$") re h
    exact ⟨re, rfl, ast, st, hparse, hrest, fun input =>
      (hall input).mpr ((callDepth_le id re input).trans (of_decide_eq_true hok))⟩

/-! ### A program of anchors -/

theorem compileTimes_replicate {body : Program → Compile Program} {w : Nat}
    (hbody : ∀ prog : Program, prog.length + w ≤ MAX_PROGRAM_SIZE →
      body prog = .ok (prog ++ List.replicate w inst)) (n : Nat) (prog : Program)
    (hfits : prog.length + n * w ≤ MAX_PROGRAM_SIZE) :
    compileTimes body n prog = .ok (prog ++ List.replicate (n * w) inst) := by
  induction n generalizing prog with
  | zero => simp [compileTimes]
  | succ n ih =>
    rw [Nat.succ_mul] at hfits
    rw [compileTimes, hbody prog (by omega)]
    refine (ih _ (by rw [List.length_append, List.length_replicate]; omega)).trans ?_
    rw [List.append_assoc, ← List.replicate_add, Nat.succ_mul, Nat.add_comm w]

theorem addThread_anchors {prog : Program} {hay : Units} {gen : Int} {stack pc : Nat}
    {slots : List Int} {ts : Threads} (hbol : ∀ i < stack, prog[pc + i]? = some .bol)
    (hfresh : ∀ i < stack, ts.seen[pc + i]? ≠ some gen) :
    addThread prog hay gen 0 stack pc slots ts = none := by
  induction stack generalizing pc ts with
  | zero => rfl
  | succ stack ih =>
    have hhead := hfresh 0 (Nat.succ_pos stack)
    have hinst := hbol 0 (Nat.succ_pos stack)
    rw [Nat.add_zero] at hhead hinst
    rw [addThread, if_neg hhead, hinst]
    refine (if_pos rfl).trans (ih (fun i hi => ?_) fun i hi => ?_)
    · have hnext := hbol (i + 1) (by omega)
      rwa [show pc + (i + 1) = pc + 1 + i by omega] at hnext
    · have hnext := hfresh (i + 1) (by omega)
      rw [show pc + (i + 1) = pc + 1 + i by omega] at hnext
      rwa [List.getElem?_set_ne (by omega)]

def anchors (count : Nat) : Program := .save 0 :: List.replicate count .bol

theorem length_anchors {count : Nat} : (anchors count).length = count + 1 := by
  rw [anchors, List.length_cons, List.length_replicate]

def isAnchors (pattern : Units) (n m : Nat) : Bool :=
  match parse pattern with
  | .ok (.repeated (.repeated .bol inner) outer, st) =>
    decide (inner.min = n ∧ inner.max = some n ∧ outer.min = m ∧ outer.max = some m ∧
      st.rest = [] ∧ st.groups = 0)
  | _ => false

theorem compileRegex_anchors {lower : Units → Units} {pattern : Units} {n m : Nat}
    (h : isAnchors pattern n m = true) (hlength : pattern.length ≤ MAX_PATTERN_CHARS)
    (hfits : m * n + 3 ≤ MAX_PROGRAM_SIZE) :
    compileRegex lower false pattern =
      .ok ⟨anchors (m * n) ++ [Inst.save 1, Inst.matched], 0, false⟩ := by
  unfold isAnchors at h
  split at h
  · next inner outer st hparse =>
    obtain ⟨min, max, hb⟩ := inner
    obtain ⟨min', max', hb'⟩ := outer
    obtain ⟨rest, groups⟩ := st
    have hbounds := of_decide_eq_true h
    dsimp only at hbounds
    obtain ⟨rfl, rfl, rfl, rfl, rfl, rfl⟩ := hbounds
    have hone : ∀ prog : Program, prog.length + 1 ≤ MAX_PROGRAM_SIZE →
        compileNode lower false .bol prog = .ok (prog ++ List.replicate 1 Inst.bol) :=
      fun prog hle => if_neg (by omega)
    have hinner : ∀ prog : Program, prog.length + min ≤ MAX_PROGRAM_SIZE →
        compileNode lower false (.repeated .bol ⟨min, some min, hb⟩) prog =
          .ok (prog ++ List.replicate min Inst.bol) := by
      intro prog hle
      have htimes := compileTimes_replicate hone min prog (by omega)
      rw [compileNode]
      simp only [htimes, Nat.sub_self, compileOptional, patchAll, Nat.mul_one]
      rfl
    have houter : compileNode lower false
        (.repeated (.repeated .bol ⟨min, some min, hb⟩) ⟨min', some min', hb'⟩) [.save 0] =
          .ok (anchors (min' * min)) := by
      have htimes := compileTimes_replicate hinner min' [.save 0] (by
        rw [List.length_singleton]
        omega)
      rw [compileNode]
      simp only [htimes, Nat.sub_self, compileOptional, patchAll]
      rfl
    rw [compileRegex, if_neg (by omega), hparse]
    have hemit : emit [] (.save 0) = .ok [.save 0] := rfl
    have hsave : emit (anchors (min' * min)) (.save 1) =
        .ok (anchors (min' * min) ++ [Inst.save 1]) :=
      if_neg (by rw [length_anchors]; omega)
    have hlast : emit (anchors (min' * min) ++ [Inst.save 1]) .matched =
        .ok (anchors (min' * min) ++ [Inst.save 1] ++ [Inst.matched]) :=
      if_neg (by rw [List.length_append, length_anchors, List.length_singleton]; omega)
    simp only [hemit, houter, hsave, hlast, bind, Except.bind, List.append_assoc]
    rfl
  · cases h

theorem execRegex_anchors {count stack : Nat} (hstack : stack ≤ count + 1)
    (lower : Units → Units) :
    execRegex stack lower ⟨anchors count ++ [Inst.save 1, Inst.matched], 0, false⟩ [] = none := by
  have hbegin : ∀ slots : List Int,
      addThread (anchors count ++ [Inst.save 1, Inst.matched]) [] 0 0 stack 0 slots
        ⟨[], List.replicate (count + 3) (-1)⟩ = none := by
    intro slots
    have hseen : ∀ i : Nat, (List.replicate (count + 3) (-1 : Int))[i]? ≠ some 0 := by
      intro i hi
      have heq := List.eq_of_mem_replicate (List.mem_of_getElem? hi)
      omega
    cases stack with
    | zero => rfl
    | succ stack =>
      rw [anchors, List.cons_append, addThread, if_neg (hseen 0)]
      refine addThread_anchors (fun i hi => ?_) fun i hi => ?_
      · rw [Nat.add_comm, List.getElem?_cons_succ,
          List.getElem?_append_left (by rw [List.length_replicate]; omega),
          List.getElem?_replicate, if_pos (by omega)]
      · rw [List.getElem?_set_ne (by omega)]
        exact hseen _
  simp only [execRegex, Bool.false_eq_true, if_false]
  rw [run, begin, if_pos rfl, addThreadAt]
  simp only [List.length_cons, List.length_append, length_anchors, List.length_nil]
  rw [show ((0 : Nat) : Int) = 0 from rfl, hbegin]
  rfl

/-- `^{1000}{19}` on a stack that does not hold the calls for its 19003 instructions. -/
theorem regex_language_fails :
    ∃ re, compileRegex id false (units "^\x7b1000\x7d\x7b19\x7d") = .ok re ∧
      ∀ stack ≤ 19001, ¬ ∃ ast st, parse (units "^\x7b1000\x7d\x7b19\x7d") = .ok (ast, st) ∧
        ∀ input : Units, ∃ m, execRegex stack id re input = some m ∧
          (m.matched = true ↔ ∃ i j, i ≤ j ∧ j ≤ input.length ∧ ast.Matches input i j) := by
  have hanchors : isAnchors (units "^\x7b1000\x7d\x7b19\x7d") 1000 19 = true := by decide +kernel
  refine ⟨_, compileRegex_anchors hanchors (by decide) (by decide), ?_⟩
  rintro stack hstack ⟨ast, st, -, hall⟩
  obtain ⟨m, hm, -⟩ := hall []
  have hnone := @execRegex_anchors 19000 stack hstack id
  rw [show 19 * 1000 = 19000 from rfl, hnone] at hm
  cases hm

end Ionosphere.Regex
