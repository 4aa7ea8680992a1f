import Ionosphere.Regex.Syntax

/-! Patterns to programs. Jumps are emitted before their targets are known and patched later;
counted repetitions are unrolled. -/
namespace Ionosphere.Regex

def MAX_PROGRAM_SIZE : Nat := 20000

inductive Inst where
  | char (ch : UInt16)
  | any
  | cls (negate : Bool) (ranges : Ranges)
  | bol
  | eol
  | split (a b : Nat)
  | jmp (target : Nat)
  | save (slot : Nat)
  | matched
  deriving DecidableEq

abbrev Program : Type := List Inst

structure CompiledRegex where
  prog : Program
  groups : Nat
  caseInsensitive : Bool
  deriving DecidableEq

abbrev Compile (α : Type) : Type := Except RegexSyntaxError α

def emit (prog : Program) (inst : Inst) : Compile Program :=
  if MAX_PROGRAM_SIZE ≤ prog.length then
    .error ⟨units "pattern too complex (max " ++ natUnits MAX_PROGRAM_SIZE ++
      units " instructions)"⟩
  else .ok (prog ++ [inst])

def Inst.setA (a : Nat) : Inst → Inst
  | .split _ b => .split a b
  | inst => inst

def Inst.setB (b : Nat) : Inst → Inst
  | .split a _ => .split a b
  | inst => inst

def Inst.setTo (target : Nat) : Inst → Inst
  | .jmp _ => .jmp target
  | inst => inst

/-- `(prog[i] as …).field = value`. -/
def patch (prog : Program) (i : Nat) (f : Inst → Inst) : Program := prog.modify i f

def patchAll (f : Inst → Inst) (prog : Program) (is : List Nat) : Program :=
  is.foldl (fun prog i => patch prog i f) prog

/-- A split whose first way goes on behind it. -/
def emitSplit (prog : Program) : Compile Program := do
  let sp := prog.length
  let prog ← emit prog (.split 0 0)
  return patch prog sp (Inst.setA prog.length)

/-- `for (let i = 0; i < n; i++) compileNode(node)`. -/
def compileTimes (body : Program → Compile Program) : Nat → Program → Compile Program
  | 0, prog => .ok prog
  | n + 1, prog => do
    let prog ← body prog
    compileTimes body n prog

/-- `x*`: the split's first way is the body, so it is greedy. -/
def compileStar (body : Program → Compile Program) (prog : Program) : Compile Program := do
  let start := prog.length
  let prog ← emitSplit prog
  let prog ← body prog
  let prog ← emit prog (.jmp start)
  return patch prog start (Inst.setB prog.length)

/-- The optional rounds of `x{n,m}`, and where their splits are. -/
def compileOptional (body : Program → Compile Program) :
    Nat → Program → List Nat → Compile (Program × List Nat)
  | 0, prog, splits => .ok (prog, splits)
  | n + 1, prog, splits => do
    let sp := prog.length
    let prog ← emitSplit prog
    let prog ← body prog
    compileOptional body n prog (splits ++ [sp])

def compileArm (last : Bool) (body : Program → Compile Program) (prog : Program)
    (jumps : List Nat) : Compile (Program × List Nat) :=
  if last then do
    let prog ← body prog
    return (prog, jumps)
  else do
    let sp := prog.length
    let prog ← emitSplit prog
    let prog ← body prog
    let j := prog.length
    let prog ← emit prog (.jmp 0)
    return (patch prog sp (Inst.setB prog.length), jumps ++ [j])

section Compile

-- `lower` is `toLowerCase`, whose tables are not in the source.
variable (lower : Units → Units) (ci : Bool)

mutual

def compileNode : Node → Program → Compile Program
  | .empty, prog => .ok prog
  | .char ch, prog => emit prog (.char ((if ci then lower [ch] else [ch]).headD 0))
  | .any, prog => emit prog .any
  | .cls negate ranges, prog => emit prog (.cls negate ranges)
  | .bol, prog => emit prog .bol
  | .eol, prog => emit prog .eol
  | .cat parts, prog => compileParts parts prog
  | .alt first rest, prog => do
    let (prog, jumps) ← compileArm rest.isEmpty (compileNode first) prog []
    let (prog, jumps) ← compileArms rest prog jumps
    return patchAll (Inst.setTo prog.length) prog jumps
  | .group node index, prog => do
    let prog ← emit prog (.save (index * 2))
    let prog ← compileNode node prog
    emit prog (.save (index * 2 + 1))
  | .repeated node bounds, prog => do
    let prog ← compileTimes (compileNode node) bounds.min prog
    match bounds.max with
    | none => compileStar (compileNode node) prog
    | some max => do
      let (prog, splits) ← compileOptional (compileNode node) (max - bounds.min) prog []
      return patchAll (Inst.setB prog.length) prog splits

def compileParts : List Node → Program → Compile Program
  | [], prog => .ok prog
  | part :: parts, prog => do
    let prog ← compileNode part prog
    compileParts parts prog

def compileArms : List Node → Program → List Nat → Compile (Program × List Nat)
  | [], prog, jumps => .ok (prog, jumps)
  | part :: parts, prog, jumps => do
    let (prog, jumps) ← compileArm parts.isEmpty (compileNode part) prog jumps
    compileArms parts prog jumps

end

def compileRegex (pattern : Units) : Compile CompiledRegex :=
  if MAX_PATTERN_CHARS < pattern.length then
    .error ⟨units "pattern too long (max " ++ natUnits MAX_PATTERN_CHARS ++ units ")"⟩
  else
    match parse pattern with
    | .error (.syntaxError e) => .error e
    | .error .outOfFuel => .error ⟨[]⟩
    | .ok (ast, st) =>
      match st.rest with
      | ch :: _ => .error ⟨units "unexpected " ++ [ch] ++ units " at " ++
          natUnits (pattern.length - st.rest.length)⟩
      | [] => do
        let prog ← emit [] (.save 0)
        let prog ← compileNode lower ci ast prog
        let prog ← emit prog (.save 1)
        let prog ← emit prog .matched
        return ⟨prog, st.groups, ci⟩

end Compile

/-! ### The code of a tree

The code at a position, with every target in place. `f` gives the code of the body and `w` its
length. -/

def copies (f : Nat → Program) (w : Nat) : Nat → Nat → Program
  | 0, _ => []
  | n + 1, s => f s ++ copies f w n (s + w)

def starCode (f : Nat → Program) (w s : Nat) : Program :=
  .split (s + 1) (s + w + 2) :: (f (s + 1) ++ [Inst.jmp s])

def optionalCode (f : Nat → Program) (w stop : Nat) : Nat → Nat → Program
  | 0, _ => []
  | n + 1, s => .split (s + 1) stop :: (f (s + 1) ++ optionalCode f w stop n (s + 1 + w))

def armSize (last : Bool) (w : Nat) : Nat := if last then w else w + 2

def armCode (last : Bool) (f : Nat → Program) (w stop s : Nat) : Program :=
  if last then f s else .split (s + 1) (s + w + 2) :: (f (s + 1) ++ [Inst.jmp stop])

mutual

def Node.size : Node → Nat
  | .empty => 0
  | .char _ | .any | .cls _ _ | .bol | .eol => 1
  | .cat parts => partsSize parts
  | .alt first rest => armSize rest.isEmpty first.size + armsSize rest
  | .group node _ => node.size + 2
  | .repeated node bounds =>
    bounds.min * node.size + match bounds.max with
      | none => node.size + 2
      | some max => (max - bounds.min) * (node.size + 1)

def partsSize : List Node → Nat
  | [] => 0
  | part :: parts => part.size + partsSize parts

def armsSize : List Node → Nat
  | [] => 0
  | part :: parts => armSize parts.isEmpty part.size + armsSize parts

end

section Code

variable (lower : Units → Units) (ci : Bool)

mutual

def Node.code : Node → Nat → Program
  | .empty, _ => []
  | .char ch, _ => [.char ((if ci then lower [ch] else [ch]).headD 0)]
  | .any, _ => [.any]
  | .cls negate ranges, _ => [.cls negate ranges]
  | .bol, _ => [.bol]
  | .eol, _ => [.eol]
  | .cat parts, s => partsCode parts s
  | .alt first rest, s =>
    let stop := s + (armSize rest.isEmpty first.size + armsSize rest)
    armCode rest.isEmpty (Node.code first) first.size stop s ++
      armsCode stop rest (s + armSize rest.isEmpty first.size)
  | .group node index, s => .save (index * 2) :: (Node.code node (s + 1) ++ [Inst.save (index * 2 + 1)])
  | .repeated node bounds, s =>
    copies (Node.code node) node.size bounds.min s ++ match bounds.max with
      | none => starCode (Node.code node) node.size (s + bounds.min * node.size)
      | some max => optionalCode (Node.code node) node.size
          (s + bounds.min * node.size + (max - bounds.min) * (node.size + 1)) (max - bounds.min)
          (s + bounds.min * node.size)

def partsCode : List Node → Nat → Program
  | [], _ => []
  | part :: parts, s => Node.code part s ++ partsCode parts (s + part.size)

def armsCode (stop : Nat) : List Node → Nat → Program
  | [], _ => []
  | part :: parts, s =>
    armCode parts.isEmpty (Node.code part) part.size stop s ++
      armsCode stop parts (s + armSize parts.isEmpty part.size)

end

end Code

section Length

variable {f : Nat → Program} {w : Nat} (hf : ∀ s, (f s).length = w)

include hf

theorem copies_length (n s : Nat) : (copies f w n s).length = n * w := by
  induction n generalizing s with
  | zero => simp [copies]
  | succ n ih =>
    rw [copies, List.length_append, hf, ih, Nat.succ_mul]
    omega

theorem starCode_length (s : Nat) : (starCode f w s).length = w + 2 := by
  simp [starCode, hf]

theorem optionalCode_length (stop n s : Nat) :
    (optionalCode f w stop n s).length = n * (w + 1) := by
  induction n generalizing s with
  | zero => simp [optionalCode]
  | succ n ih =>
    rw [optionalCode, List.length_cons, List.length_append, hf, ih, Nat.succ_mul]
    omega

theorem armCode_length (last : Bool) (stop s : Nat) :
    (armCode last f w stop s).length = armSize last w := by
  cases last
  · simp [armCode, armSize, hf]
  · simp [armCode, armSize, hf]

end Length

section Length

variable (lower : Units → Units) (ci : Bool)

mutual

theorem Node.code_length : ∀ (node : Node) (s : Nat), (node.code lower ci s).length = node.size
  | .empty, s => rfl
  | .char _, s => rfl
  | .any, s => rfl
  | .cls _ _, s => rfl
  | .bol, s => rfl
  | .eol, s => rfl
  | .cat parts, s => partsCode_length parts s
  | .alt first rest, s => by
    simp only [Node.code, Node.size, List.length_append]
    rw [armCode_length (Node.code_length first), armsCode_length]
  | .group node index, s => by
    simp only [Node.code, Node.size, List.length_cons, List.length_append, Node.code_length node,
      List.length_nil]
  | .repeated node ⟨min, none, _⟩, s => by
    simp only [Node.code, Node.size, List.length_append]
    rw [copies_length (Node.code_length node), starCode_length (Node.code_length node)]
  | .repeated node ⟨min, some max, _⟩, s => by
    simp only [Node.code, Node.size, List.length_append]
    rw [copies_length (Node.code_length node), optionalCode_length (Node.code_length node)]

theorem partsCode_length : ∀ (parts : List Node) (s : Nat),
    (partsCode lower ci parts s).length = partsSize parts
  | [], s => rfl
  | part :: parts, s => by
    rw [partsCode, partsSize, List.length_append, Node.code_length part, partsCode_length parts]

theorem armsCode_length : ∀ (parts : List Node) (stop s : Nat),
    (armsCode lower ci stop parts s).length = armsSize parts
  | [], stop, s => rfl
  | part :: parts, stop, s => by
    rw [armsCode, armsSize, List.length_append, armCode_length (Node.code_length part),
      armsCode_length parts]

end

end Length

/-! ### The compiler writes that code -/

theorem compile_bind {α β : Type} {p : Compile α} {f : α → Compile β} {b : β} :
    (p >>= f) = .ok b ↔ ∃ a, p = .ok a ∧ f a = .ok b := by
  cases p with
  | error e =>
    constructor
    · intro h
      cases h
    · rintro ⟨a, h, -⟩
      cases h
  | ok a =>
    constructor
    · intro h
      exact ⟨a, rfl, h⟩
    · rintro ⟨a', h, hf⟩
      cases h
      exact hf

theorem patch_append (pre post : Program) (inst : Inst) (f : Inst → Inst) :
    patch (pre ++ inst :: post) pre.length f = pre ++ f inst :: post := by
  induction pre with
  | nil => rfl
  | cons x pre ih => exact congrArg (x :: ·) ih

theorem emit_eq {prog prog' : Program} {inst : Inst} (h : emit prog inst = .ok prog') :
    prog' = prog ++ [inst] := by
  unfold emit at h
  split at h
  · cases h
  · exact (Except.ok.inj h).symm

theorem emitSplit_eq {prog prog' : Program} (h : emitSplit prog = .ok prog') :
    prog' = prog ++ [Inst.split (prog.length + 1) 0] := by
  obtain ⟨mid, hemit, hpatch⟩ := compile_bind.mp h
  obtain rfl := emit_eq hemit
  have heq := (Except.ok.inj hpatch).symm
  rw [patch_append, List.length_append] at heq
  exact heq

/-- A part of the compiler that appends `f`. -/
def Emits (body : Program → Compile Program) (f : Nat → Program) : Prop :=
  ∀ prog prog', body prog = .ok prog' → prog' = prog ++ f prog.length

section Emits

variable {body : Program → Compile Program} {f : Nat → Program} {w : Nat}
variable (hbody : Emits body f) (hf : ∀ s, (f s).length = w)

include hbody hf

theorem compileTimes_emits (n : Nat) : Emits (compileTimes body n) (copies f w n) := by
  induction n with
  | zero =>
    intro prog prog' h
    simp [copies, (Except.ok.inj h).symm]
  | succ n ih =>
    intro prog prog' h
    obtain ⟨mid, hmid, hrest⟩ := compile_bind.mp h
    obtain rfl := hbody _ _ hmid
    rw [ih _ _ hrest, copies, List.length_append, hf, List.append_assoc]

theorem compileStar_emits : Emits (compileStar body) (starCode f w) := by
  intro prog prog' h
  obtain ⟨p₁, h₁, h⟩ := compile_bind.mp h
  obtain rfl := emitSplit_eq h₁
  obtain ⟨p₂, h₂, h⟩ := compile_bind.mp h
  obtain rfl := hbody _ _ h₂
  obtain ⟨p₃, h₃, h⟩ := compile_bind.mp h
  obtain rfl := emit_eq h₃
  have heq := (Except.ok.inj h).symm
  simp only [List.append_assoc, List.cons_append, List.nil_append, patch_append] at heq
  rw [heq, starCode]
  simp only [Inst.setB, List.length_append, List.length_cons, List.length_nil, hf]
  congr 3

def optionalSplits (w : Nat) : Nat → Nat → List Nat
  | 0, _ => []
  | n + 1, s => s :: optionalSplits w n (s + 1 + w)

theorem compileOptional_eq {n : Nat} {prog prog' : Program} {splits splits' : List Nat}
    (h : compileOptional body n prog splits = .ok (prog', splits')) :
    prog' = prog ++ optionalCode f w 0 n prog.length ∧
      splits' = splits ++ optionalSplits w n prog.length := by
  induction n generalizing prog splits with
  | zero =>
    cases Except.ok.inj h
    simp [optionalCode, optionalSplits]
  | succ n ih =>
    obtain ⟨p₁, h₁, h⟩ := compile_bind.mp h
    obtain rfl := emitSplit_eq h₁
    obtain ⟨p₂, h₂, h⟩ := compile_bind.mp h
    obtain rfl := hbody _ _ h₂
    obtain ⟨hprog, hsplits⟩ := ih h
    simp only [List.length_append, List.length_singleton, hf] at hprog hsplits
    rw [hprog, hsplits, optionalCode, optionalSplits]
    simp only [List.append_assoc, List.cons_append, List.nil_append]
    exact ⟨trivial, trivial⟩

omit hbody in
theorem patchAll_optional (stop n : Nat) (pre post : Program) :
    patchAll (Inst.setB stop) (pre ++ (optionalCode f w 0 n pre.length ++ post))
        (optionalSplits w n pre.length) =
      pre ++ (optionalCode f w stop n pre.length ++ post) := by
  induction n generalizing pre with
  | zero => rfl
  | succ n ih =>
    have hrest := ih (pre ++ .split (pre.length + 1) stop :: f (pre.length + 1))
    simp only [List.length_append, List.length_cons, hf] at hrest
    rw [show pre.length + (w + 1) = pre.length + 1 + w by omega] at hrest
    rw [optionalCode, optionalSplits, patchAll, List.foldl_cons, List.cons_append, patch_append]
    rw [optionalCode]
    simp only [List.append_assoc, List.cons_append] at hrest ⊢
    exact hrest

def armJumps (last : Bool) (w s : Nat) : List Nat := if last then [] else [s + 1 + w]

theorem compileArm_eq {last : Bool} {prog prog' : Program} {jumps jumps' : List Nat}
    (h : compileArm last body prog jumps = .ok (prog', jumps')) :
    prog' = prog ++ armCode last f w 0 prog.length ∧
      jumps' = jumps ++ armJumps last w prog.length := by
  cases last with
  | true =>
    obtain ⟨p₁, h₁, h⟩ := compile_bind.mp h
    obtain rfl := hbody _ _ h₁
    cases Except.ok.inj h
    simp [armCode, armJumps]
  | false =>
    obtain ⟨p₁, h₁, h⟩ := compile_bind.mp h
    obtain rfl := emitSplit_eq h₁
    obtain ⟨p₂, h₂, h⟩ := compile_bind.mp h
    obtain rfl := hbody _ _ h₂
    obtain ⟨p₃, h₃, h⟩ := compile_bind.mp h
    obtain rfl := emit_eq h₃
    cases Except.ok.inj h
    simp only [List.append_assoc, List.cons_append, List.nil_append, patch_append]
    simp [armCode, armJumps, Inst.setB, hf]
    omega

omit hbody in
theorem patchAll_arm (last : Bool) (stop : Nat) (pre post : Program) :
    patchAll (Inst.setTo stop) (pre ++ (armCode last f w 0 pre.length ++ post))
        (armJumps last w pre.length) =
      pre ++ (armCode last f w stop pre.length ++ post) := by
  cases last with
  | true => rfl
  | false =>
    have hpatch := patch_append
      (pre ++ .split (pre.length + 1) (pre.length + w + 2) :: f (pre.length + 1)) post (.jmp 0)
      (Inst.setTo stop)
    simp only [List.length_append, List.length_cons, hf] at hpatch
    rw [show pre.length + (w + 1) = pre.length + 1 + w by omega] at hpatch
    simp only [List.append_assoc, List.cons_append] at hpatch
    simpa [armCode, armJumps, patchAll, Inst.setTo] using hpatch

end Emits

theorem patchAll_append (f : Inst → Inst) (prog : Program) (is js : List Nat) :
    patchAll f prog (is ++ js) = patchAll f (patchAll f prog is) js :=
  List.foldl_append

def armsJumps : List Node → Nat → List Nat
  | [], _ => []
  | part :: parts, s =>
    armJumps parts.isEmpty part.size s ++ armsJumps parts (s + armSize parts.isEmpty part.size)

section Node

variable (lower : Units → Units) (ci : Bool)

theorem patchAll_arms (stop : Nat) (parts : List Node) (pre post : Program) :
    patchAll (Inst.setTo stop) (pre ++ (armsCode lower ci 0 parts pre.length ++ post))
        (armsJumps parts pre.length) =
      pre ++ (armsCode lower ci stop parts pre.length ++ post) := by
  induction parts generalizing pre with
  | nil => rfl
  | cons part parts ih =>
    have hf := Node.code_length lower ci part
    have hrest := ih (pre ++ armCode parts.isEmpty (part.code lower ci) part.size stop pre.length)
    rw [List.length_append, armCode_length hf] at hrest
    rw [armsCode, armsJumps, patchAll_append, List.append_assoc, patchAll_arm hf]
    rw [armsCode]
    simp only [List.append_assoc] at hrest ⊢
    exact hrest

theorem patchAll_alt (stop : Nat) (first : Node) (rest : List Node) (pre : Program) :
    patchAll (Inst.setTo stop)
        (pre ++ (armCode rest.isEmpty (first.code lower ci) first.size 0 pre.length ++
          armsCode lower ci 0 rest (pre.length + armSize rest.isEmpty first.size)))
        (armJumps rest.isEmpty first.size pre.length ++
          armsJumps rest (pre.length + armSize rest.isEmpty first.size)) =
      pre ++ (armCode rest.isEmpty (first.code lower ci) first.size stop pre.length ++
        armsCode lower ci stop rest (pre.length + armSize rest.isEmpty first.size)) := by
  have hf := Node.code_length lower ci first
  have hrest := patchAll_arms lower ci stop rest
    (pre ++ armCode rest.isEmpty (first.code lower ci) first.size stop pre.length) []
  simp only [List.append_nil, List.length_append, armCode_length hf, List.append_assoc] at hrest
  rw [patchAll_append, patchAll_arm hf, hrest]

mutual

theorem compileNode_emits : ∀ node : Node, Emits (compileNode lower ci node) (node.code lower ci)
  | .empty => by
    intro prog prog' h
    simp [Node.code, (Except.ok.inj h).symm]
  | .char ch => fun _ _ h => emit_eq h
  | .any => fun _ _ h => emit_eq h
  | .cls negate ranges => fun _ _ h => emit_eq h
  | .bol => fun _ _ h => emit_eq h
  | .eol => fun _ _ h => emit_eq h
  | .cat parts => compileParts_emits parts
  | .alt first rest => by
    intro prog prog' h
    have hf := Node.code_length lower ci first
    rw [compileNode] at h
    obtain ⟨⟨p₁, j₁⟩, h₁, h⟩ := compile_bind.mp h
    obtain ⟨rfl, rfl⟩ := compileArm_eq (compileNode_emits first) hf h₁
    obtain ⟨⟨p₂, j₂⟩, h₂, h⟩ := compile_bind.mp h
    obtain ⟨rfl, rfl⟩ := compileArms_eq rest h₂
    have heq := (Except.ok.inj h).symm
    rw [List.nil_append, List.append_assoc] at heq
    have hstop : (prog ++ (armCode rest.isEmpty (first.code lower ci) first.size 0 prog.length ++
        armsCode lower ci 0 rest
          (prog ++ armCode rest.isEmpty (first.code lower ci) first.size 0 prog.length).length)).length
        = prog.length + (armSize rest.isEmpty first.size + armsSize rest) := by
      simp only [List.length_append, armCode_length hf, armsCode_length]
    rw [hstop, List.length_append, armCode_length hf] at heq
    rw [heq, patchAll_alt]
    rfl
  | .group node index => by
    intro prog prog' h
    rw [compileNode] at h
    obtain ⟨p₁, h₁, h⟩ := compile_bind.mp h
    obtain rfl := emit_eq h₁
    obtain ⟨p₂, h₂, h⟩ := compile_bind.mp h
    obtain rfl := compileNode_emits node _ _ h₂
    rw [emit_eq h]
    simp [Node.code]
  | .repeated node ⟨min, none, hordered⟩ => by
    intro prog prog' h
    have hf := Node.code_length lower ci node
    rw [compileNode] at h
    obtain ⟨p₁, h₁, h⟩ := compile_bind.mp h
    obtain rfl := compileTimes_emits (compileNode_emits node) hf min _ _ h₁
    rw [compileStar_emits (compileNode_emits node) hf _ _ h]
    simp [Node.code, copies_length hf]
  | .repeated node ⟨min, some max, hordered⟩ => by
    intro prog prog' h
    have hf := Node.code_length lower ci node
    rw [compileNode] at h
    obtain ⟨p₁, h₁, h⟩ := compile_bind.mp h
    obtain rfl := compileTimes_emits (compileNode_emits node) hf min _ _ h₁
    obtain ⟨⟨p₂, splits⟩, h₂, h⟩ := compile_bind.mp h
    obtain ⟨rfl, rfl⟩ := compileOptional_eq (compileNode_emits node) hf h₂
    have heq := (Except.ok.inj h).symm
    rw [List.nil_append, List.length_append] at heq
    have hpatch := patchAll_optional hf
      (prog.length + min * node.size + (max - min) * (node.size + 1)) (max - min)
      (prog ++ copies (node.code lower ci) node.size min prog.length) []
    simp only [List.append_nil, List.length_append, copies_length hf, optionalCode_length hf]
      at heq hpatch
    rw [heq, hpatch, List.append_assoc]
    rfl

theorem compileParts_emits : ∀ parts : List Node,
    Emits (compileParts lower ci parts) (partsCode lower ci parts)
  | [] => by
    intro prog prog' h
    simp [partsCode, (Except.ok.inj h).symm]
  | part :: parts => by
    intro prog prog' h
    rw [compileParts] at h
    obtain ⟨p₁, h₁, h⟩ := compile_bind.mp h
    obtain rfl := compileNode_emits part _ _ h₁
    rw [compileParts_emits parts _ _ h, partsCode, List.length_append, Node.code_length,
      List.append_assoc]

theorem compileArms_eq : ∀ (parts : List Node) {prog prog' : Program} {jumps jumps' : List Nat},
    compileArms lower ci parts prog jumps = .ok (prog', jumps') →
    prog' = prog ++ armsCode lower ci 0 parts prog.length ∧
      jumps' = jumps ++ armsJumps parts prog.length
  | [], prog, prog', jumps, jumps' => by
    intro h
    cases Except.ok.inj h
    simp [armsCode, armsJumps]
  | part :: parts, prog, prog', jumps, jumps' => by
    intro h
    have hf := Node.code_length lower ci part
    rw [compileArms] at h
    obtain ⟨⟨p₁, j₁⟩, h₁, h⟩ := compile_bind.mp h
    obtain ⟨rfl, rfl⟩ := compileArm_eq (compileNode_emits part) hf h₁
    obtain ⟨hprog, hjumps⟩ := compileArms_eq parts h
    rw [hprog, hjumps, armsCode, armsJumps, List.length_append, armCode_length hf]
    simp only [List.append_assoc]
    exact ⟨trivial, trivial⟩

end

theorem compileRegex_eq {pattern : Units} {re : CompiledRegex}
    (h : compileRegex lower ci pattern = .ok re) :
    ∃ ast st, parse pattern = .ok (ast, st) ∧ st.rest = [] ∧
      re = ⟨.save 0 :: (ast.code lower ci 1 ++ [Inst.save 1, .matched]), st.groups, ci⟩ := by
  unfold compileRegex at h
  split at h
  · cases h
  split at h
  · cases h
  · cases h
  · next ast st hparse =>
    split at h
    · cases h
    · next hrest =>
      obtain ⟨p₁, h₁, h⟩ := compile_bind.mp h
      obtain rfl := emit_eq h₁
      obtain ⟨p₂, h₂, h⟩ := compile_bind.mp h
      obtain rfl := compileNode_emits lower ci ast _ _ h₂
      obtain ⟨p₃, h₃, h⟩ := compile_bind.mp h
      obtain rfl := emit_eq h₃
      obtain ⟨p₄, h₄, h⟩ := compile_bind.mp h
      obtain rfl := emit_eq h₄
      refine ⟨ast, st, hparse, hrest, ?_⟩
      rw [(Except.ok.inj h).symm]
      simp

end Node

end Ionosphere.Regex
