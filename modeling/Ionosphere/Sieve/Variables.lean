import Ionosphere.Lib.Assoc
import Ionosphere.Sieve.Lexer

/-! The expansion of variables. The code goes from an opening to the next closing brace and copies
the whole chunk when no name is in it; an opening inside such a chunk is not seen. -/
namespace Ionosphere.Sieve

open Ionosphere.Js Ionosphere.Lib

def isIdentifier (s : Text) : Bool :=
  match s with
  | [] => false
  | c :: s => isIdentStart c && s.all fun c => isIdentStart c || isDigit c

/-- `VAR_NAME.test(name)`. -/
def isValidVariableName (name : Text) : Bool := (name.splitOn '.').all isIdentifier

/-- `/^\d+$/.test(name)`. -/
def isNumber (name : Text) : Bool := name != [] && name.all isDigit

structure SieveVariables where
  vars : List (Text × Text) := []
  captures : List Text := []

variable (u : CaseMap)

def SieveVariables.get (v : SieveVariables) (name : Text) : Text :=
  let lower := toLowerCase u name
  if isNumber lower then (v.captures[digitsValue 10 lower]?).getD []
  else (Assoc.get v.vars lower).getD []

def cutOpening : Text → Option (Text × Text)
  | '$' :: '\x7b' :: s => some ([], s)
  | c :: s => (cutOpening s).map fun p => (c :: p.1, p.2)
  | [] => none

def opening (name : Text) : Text := '$' :: '\x7b' :: name

def nextChunk (text : Text) : Option (Text × Text × Text) :=
  (cutOpening text).bind fun p => (splitFirst '\x7d' p.2).map fun q => (p.1, q.1, q.2)

theorem eq_of_cutOpening {s before rest : Text} (h : cutOpening s = some (before, rest)) :
    s = before ++ opening rest := by
  fun_induction cutOpening s generalizing before with
  | case1 s =>
    cases h
    rfl
  | case2 c s _ ih =>
    obtain ⟨⟨b, r⟩, hcut, hp⟩ := Option.map_eq_some_iff.mp h
    cases hp
    rw [ih hcut]
    rfl
  | case3 => cases h

theorem eq_of_nextChunk {text before name after : Text}
    (h : nextChunk text = some (before, name, after)) :
    cutOpening text = some (before, name ++ '\x7d' :: after) ∧ '\x7d' ∉ name ∧
      after.length < text.length := by
  obtain ⟨⟨b, rest⟩, hcut, hmap⟩ := Option.bind_eq_some_iff.mp h
  obtain ⟨⟨n, a⟩, hsplit, hp⟩ := Option.map_eq_some_iff.mp hmap
  cases hp
  obtain ⟨hrest, hname⟩ := eq_of_splitFirst hsplit
  dsimp only at hrest
  rw [hrest] at hcut
  refine ⟨hcut, hname, ?_⟩
  rw [eq_of_cutOpening hcut]
  simp only [List.length_append, List.length_cons, opening]
  omega

def isExpanded (name : Text) : Bool := isNumber name || isValidVariableName name

def SieveVariables.expand (v : SieveVariables) (text : Text) : Text :=
  match _h : nextChunk text with
  | none => text
  | some (before, name, after) =>
    before ++ (if isExpanded name then v.get u name else opening name ++ ['\x7d']) ++
      SieveVariables.expand v after
termination_by text.length
decreasing_by exact (eq_of_nextChunk _h).2.2

def isVariableRef (name : Text) : Bool :=
  isNumber name ||
    match name.splitOn '.' with
    | [] => false
    | first :: rest => isIdentifier first && rest.all fun s => isIdentifier s || isNumber s

def afterOpening : Text → Option Text
  | c :: d :: s => if c = '$' ∧ d = '\x7b' then some s else none
  | _ => none

/-- The name of a reference that the text begins with, and what follows the reference. -/
def refAt (s : Text) : Option (Text × Text) :=
  (afterOpening s).bind fun r => (splitFirst '\x7d' r).filter fun p => isVariableRef p.1

theorem eq_of_afterOpening {s r : Text} (h : afterOpening s = some r) : s = opening r := by
  unfold afterOpening at h
  split at h
  · split_ifs at h with hopen
    cases h
    rw [hopen.1, hopen.2]
    rfl
  · cases h

theorem refAt_length {s name after : Text} (h : refAt s = some (name, after)) :
    after.length < s.length := by
  obtain ⟨r, hopen, hfilter⟩ := Option.bind_eq_some_iff.mp h
  obtain ⟨hsplit, -⟩ := Option.filter_eq_some_iff.mp hfilter
  rw [eq_of_afterOpening hopen, (eq_of_splitFirst hsplit).1]
  simp only [List.length_append, List.length_cons, opening]
  omega

def SieveVariables.scan (v : SieveVariables) : Text → Text
  | [] => []
  | c :: s =>
    match _h : refAt (c :: s) with
    | some (name, after) => v.get u name ++ SieveVariables.scan v after
    | none => c :: SieveVariables.scan v s
termination_by text => text.length
decreasing_by
  · exact refAt_length _h
  · exact Nat.lt_succ_self _

/-- A reference opens somewhere in a chunk and ends where the chunk ends. -/
def hidesRef : Text → Bool
  | [] => false
  | c :: w => (refAt (c :: w ++ ['\x7d'])).isSome || hidesRef w

def Clear (text : Text) : Prop :=
  match _h : nextChunk text with
  | none => True
  | some (_, name, after) => (isExpanded name ∨ hidesRef (opening name) = false) ∧ Clear after
termination_by text.length
decreasing_by exact (eq_of_nextChunk _h).2.2

section

variable {u} {v : SieveVariables} {text before name after : Text}

theorem scan_ref {c : Char} {s : Text} (h : refAt (c :: s) = some (name, after)) :
    v.scan u (c :: s) = v.get u name ++ v.scan u after := by
  rw [SieveVariables.scan]
  split
  · rename_i heq
    rw [h] at heq
    cases heq
    rfl
  · rename_i heq
    rw [h] at heq
    cases heq

theorem scan_copy {c : Char} {s : Text} (h : refAt (c :: s) = none) :
    v.scan u (c :: s) = c :: v.scan u s := by
  rw [SieveVariables.scan]
  split
  · rename_i heq
    rw [h] at heq
    cases heq
  · rfl

theorem afterOpening_append {w : Text} (hw : '\x7d' ∉ w) (tail : Text) :
    afterOpening (w ++ '\x7d' :: tail) = (afterOpening w).map (· ++ '\x7d' :: tail) := by
  match w, hw with
  | [], _ => cases tail <;> rfl
  | [c], _ =>
    refine if_neg fun h => ?_
    exact absurd h.2 (by decide)
  | c :: d :: w, _ =>
    rw [List.cons_append, List.cons_append, afterOpening, afterOpening]
    split_ifs <;> rfl

theorem refAt_chunk {w : Text} (hw : '\x7d' ∉ w) (tail : Text) :
    refAt (w ++ '\x7d' :: tail) =
      ((afterOpening w).filter isVariableRef).map fun name => (name, tail) := by
  rw [refAt, afterOpening_append hw]
  cases hopen : afterOpening w with
  | none => rfl
  | some name =>
    have hname : '\x7d' ∉ name := by
      rw [eq_of_afterOpening hopen] at hw
      exact fun h => hw (List.mem_cons_of_mem _ (List.mem_cons_of_mem _ h))
    rw [Option.map_some, Option.bind_some, splitFirst_of_notMem hname]
    cases hvalid : isVariableRef name <;> simp [Option.filter, hvalid]

theorem scan_chunk (u : CaseMap) (after : Text) {w : Text} (hw : '\x7d' ∉ w) :
    (hidesRef w = false → ∀ v : SieveVariables,
      v.scan u (w ++ '\x7d' :: after) = w ++ '\x7d' :: v.scan u after) ∧
      (hidesRef w = true → (SieveVariables.scan u {} (w ++ '\x7d' :: after)).length ≤
        w.length + (SieveVariables.scan u {} after).length) := by
  induction w with
  | nil =>
    refine ⟨fun _ v => scan_copy ?_, fun h => absurd h Bool.false_ne_true⟩
    exact refAt_chunk hw after
  | cons c w ih =>
    obtain ⟨hclear, hhides⟩ := ih fun h => hw (List.mem_cons_of_mem _ h)
    rw [hidesRef, refAt_chunk hw, List.length_cons]
    cases hname : (afterOpening (c :: w)).filter isVariableRef with
    | some name =>
      refine ⟨fun h => absurd h.symm Bool.false_ne_true, fun _ => ?_⟩
      have hat : refAt (c :: (w ++ '\x7d' :: after)) = some (name, after) := by
        rw [← List.cons_append, refAt_chunk hw, hname]
        rfl
      have hempty : SieveVariables.get u {} name = [] := by
        unfold SieveVariables.get
        dsimp only
        split <;> simp
      rw [List.cons_append, scan_ref hat, hempty, List.nil_append]
      omega
    | none =>
      have hat : refAt (c :: (w ++ '\x7d' :: after)) = none := by
        rw [← List.cons_append, refAt_chunk hw, hname]
        rfl
      rw [Option.map_none, Option.isSome_none, Bool.false_or, List.cons_append]
      refine ⟨fun h v => ?_, fun h => ?_⟩
      · rw [scan_copy hat, hclear h]
        rfl
      · have hrest := hhides h
        rw [scan_copy hat, List.length_cons]
        omega

theorem isVariableRef_of_isExpanded (h : isExpanded name = true) : isVariableRef name = true := by
  unfold isExpanded isValidVariableName at h
  unfold isVariableRef
  cases hsplit : name.splitOn '.' with
  | nil => exact absurd hsplit (List.splitOn_ne_nil _ _)
  | cons first rest =>
    rw [hsplit, List.all_cons] at h
    simp only [Bool.or_eq_true, Bool.and_eq_true, List.all_eq_true] at h ⊢
    exact h.imp_right fun h => ⟨h.1, fun s hs => .inl (h.2 s hs)⟩

theorem refAt_closed {c : Char} {s : Text}
    (h : ∀ r, c = '$' → s = '\x7b' :: r → False) : refAt (c :: s) = none := by
  have hnone : afterOpening (c :: s) = none := by
    cases s with
    | nil => rfl
    | cons d s => exact if_neg fun hopen => h s hopen.1 (by rw [hopen.2])
  rw [refAt, hnone, Option.bind_none]

theorem scan_before {rest : Text} (h : cutOpening text = some (before, rest)) :
    v.scan u text = before ++ v.scan u (opening rest) := by
  fun_induction cutOpening text generalizing before with
  | case1 s =>
    cases h
    rfl
  | case2 c s hno ih =>
    obtain ⟨⟨b, r⟩, hcut, hp⟩ := Option.map_eq_some_iff.mp h
    cases hp
    rw [scan_copy (refAt_closed hno), ih hcut, List.cons_append]
  | case3 => cases h

theorem scan_unopened (h : cutOpening text = none) : v.scan u text = text := by
  fun_induction cutOpening text with
  | case1 s => cases h
  | case2 c s hno ih => rw [scan_copy (refAt_closed hno), ih (Option.map_eq_none_iff.mp h)]
  | case3 => rw [SieveVariables.scan]

theorem scan_unclosed (h : '\x7d' ∉ text) : v.scan u text = text := by
  induction text with
  | nil => rw [SieveVariables.scan]
  | cons c s ih =>
    have hnone : refAt (c :: s) = none := by
      by_contra hsome
      obtain ⟨p, hp⟩ := Option.ne_none_iff_exists'.mp hsome
      obtain ⟨r, hopen, hfilter⟩ := Option.bind_eq_some_iff.mp hp
      obtain ⟨hsplit, -⟩ := Option.filter_eq_some_iff.mp hfilter
      rw [eq_of_afterOpening hopen, (eq_of_splitFirst hsplit).1] at h
      exact h (by simp [opening])
    rw [scan_copy hnone, ih fun hs => h (List.mem_cons_of_mem _ hs)]

theorem scan_text (h : nextChunk text = none) : v.scan u text = text := by
  cases hcut : cutOpening text with
  | none => exact scan_unopened hcut
  | some p =>
    obtain ⟨before, rest⟩ := p
    rw [nextChunk, hcut, Option.bind_some, Option.map_eq_none_iff] at h
    have hclosed : '\x7d' ∉ opening rest := by
      intro hmem
      have hrest : '\x7d' ∈ rest := by simpa [opening] using hmem
      obtain ⟨x, y, rfl, hx⟩ := List.eq_append_cons_of_mem hrest
      rw [splitFirst_of_notMem hx] at h
      cases h
    rw [scan_before hcut, scan_unclosed hclosed, ← eq_of_cutOpening hcut]

theorem scan_expand (u : CaseMap) (text : Text) :
    (Clear text → ∀ v : SieveVariables, v.expand u text = v.scan u text) ∧
      (SieveVariables.scan u {} text).length ≤ (SieveVariables.expand u {} text).length ∧
      (¬ Clear text →
        (SieveVariables.scan u {} text).length < (SieveVariables.expand u {} text).length) := by
  fun_induction Clear text with
  | case1 text hnone =>
    have hsame : ∀ v : SieveVariables, v.expand u text = v.scan u text := by
      intro v
      rw [SieveVariables.expand, scan_text hnone]
      split
      · rfl
      · rename_i heq
        rw [hnone] at heq
        cases heq
    exact ⟨fun _ => hsame, by rw [hsame], fun h => absurd trivial h⟩
  | case2 text before name after hchunk ih =>
    obtain ⟨hclear, hle, hlt⟩ := ih
    obtain ⟨hcut, hname, -⟩ := eq_of_nextChunk hchunk
    have hexpand : ∀ v : SieveVariables, v.expand u text = before ++
        (if isExpanded name then v.get u name else opening name ++ ['\x7d']) ++
          v.expand u after := by
      intro v
      rw [SieveVariables.expand]
      split
      · rename_i heq
        rw [hchunk] at heq
        cases heq
      · rename_i heq
        rw [hchunk] at heq
        cases heq
        rfl
    have hscan : ∀ v : SieveVariables, v.scan u text =
        before ++ v.scan u (opening name ++ '\x7d' :: after) := fun v => scan_before hcut
    have hopening : '\x7d' ∉ opening name := by simpa [opening] using hname
    obtain ⟨hcopied, hhidden⟩ := scan_chunk u after hopening
    by_cases hexpanded : isExpanded name = true
    · have hat : refAt (opening name ++ '\x7d' :: after) = some (name, after) := by
        rw [refAt_chunk hopening, show afterOpening (opening name) = some name from rfl]
        simp [Option.filter, isVariableRef_of_isExpanded hexpanded]
      have hstep : ∀ v : SieveVariables, v.scan u text = before ++ v.get u name ++
          v.scan u after := by
        intro v
        rw [hscan, List.append_assoc]
        exact congrArg (before ++ ·) (scan_ref hat)
      simp only [hexpand, hstep, if_pos hexpanded, List.length_append]
      refine ⟨fun h v => by rw [hclear h.2], by omega, fun h => ?_⟩
      have hlater := hlt fun hafter => h ⟨.inl hexpanded, hafter⟩
      omega
    · cases hhides : hidesRef (opening name) with
      | false =>
        simp only [hexpand, hscan, hcopied hhides, if_neg hexpanded, List.length_append,
          List.length_cons, List.length_nil]
        refine ⟨fun h v => ?_, by omega, fun h => ?_⟩
        · rw [hclear h.2]
          simp only [List.append_assoc, List.singleton_append]
        · have hlater := hlt fun hafter => h ⟨.inr trivial, hafter⟩
          omega
      | true =>
        have hshort : (SieveVariables.scan u {} text).length <
            (SieveVariables.expand u {} text).length := by
          have hcount := hhidden hhides
          simp only [hexpand, hscan, if_neg hexpanded, List.length_append, List.length_singleton]
          omega
        refine ⟨fun h => ?_, hshort.le, fun _ => hshort⟩
        rcases h.1 with hname | hcopy
        · exact absurd hname hexpanded
        · cases hcopy

/-- The expansion is the scan exactly when no chunk that is copied has a reference in it. -/
theorem expansion_scan (u : CaseMap) (text : Text) :
    (∀ v : SieveVariables, v.expand u text = v.scan u text) ↔ Clear text := by
  obtain ⟨hclear, -, hlt⟩ := scan_expand u text
  refine ⟨fun h => ?_, hclear⟩
  by_contra hnot
  have hshort := hlt hnot
  rw [h] at hshort
  exact Nat.lt_irrefl _ hshort

end

theorem expansion_scan_fails : ¬ ∀ (u : CaseMap) (v : SieveVariables) (text : Text),
    v.expand u text = v.scan u text := by
  intro h
  exact absurd (h ⟨id, id⟩ ⟨[("b".toList, "x".toList)], []⟩ "$\x7ba$\x7bb\x7d".toList) (by decide +kernel)

end Ionosphere.Sieve
