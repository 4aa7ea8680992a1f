import Mathlib.Data.List.Forall2
import Mathlib.Data.List.GetD
import Mathlib.Data.List.Infix
import Ionosphere.Regex.Syntax

/-! Wildcard patterns, shared by IMAP `LIST` and the Sieve `:matches` test. Matching is a
table of positions, one row for each token; captures are read off a second table that is
filled from the back. Strings are UTF-16 code units, and `lower` is `toLowerCase`. -/
namespace Ionosphere.Core

open Ionosphere.Regex

variable {i : Nat} {j : Nat} {v : UInt16}

structure GlobSyntax where
  star : Units
  starWithin : Option Units := none
  boundary : Option Units := none
  single : Option Units := none
  escape : Option Units := none
  caseInsensitive : Bool

def imapListSyntax (delimiter : Units) : GlobSyntax :=
  { star := units "*", starWithin := some (units "%"), boundary := some delimiter
    caseInsensitive := false }

def SIEVE_MATCH_SYNTAX : GlobSyntax :=
  { star := units "*", single := some (units "?"), escape := some (units "\\")
    caseInsensitive := true }

inductive Token where
  | literal (ch : UInt16)
  | star
  | starWithin
  | single
  deriving DecidableEq

/-- The loop of `tokenize`, with the tokens so far. -/
def tokenizeFrom (g : GlobSyntax) : Units → List Token → List Token
  | [], out => out
  | ch :: rest, out =>
    if g.escape = some [ch] then
      match rest with
      | [] => out
      | next :: rest => tokenizeFrom g rest (out ++ [.literal next])
    else if [ch] = g.star then
      tokenizeFrom g rest (if out.getLast? = some .star then out else out ++ [.star])
    else if g.starWithin = some [ch] then tokenizeFrom g rest (out ++ [.starWithin])
    else if g.single = some [ch] then tokenizeFrom g rest (out ++ [.single])
    else tokenizeFrom g rest (out ++ [.literal ch])

def tokenize (pattern : Units) (g : GlobSyntax) : List Token := tokenizeFrom g pattern []

abbrev Row : Type := List Bool

def Row.at (row : Row) (j : Nat) : Bool := row.getD j false

/-- `hay[j] === s`. -/
def unitIs (hay : Units) (j : Nat) (s : Units) : Bool :=
  match hay[j]? with
  | some u => [u] = s
  | none => false

/-- `*`: the or of all entries so far. -/
def starRow : Bool → Row → Row
  | _, [] => []
  | run, x :: row => (run || x) :: starRow (run || x) row

/-- `%` after the first entry: the or begins anew behind a boundary. -/
def withinRow (boundaryAt : Nat → Bool) : Nat → Bool → Row → Row
  | _, _, [] => []
  | j, run, here :: row =>
    let run := if boundaryAt j then here else run || here
    run :: withinRow boundaryAt (j + 1) run row

def starBack : Row → Row
  | [] => []
  | x :: row =>
    let rest := starBack row
    (Row.at rest 0 || x) :: rest

def withinBack (boundaryAt : Nat → Bool) : Nat → Row → Row
  | _, [] => []
  | _, [x] => [x]
  | j, x :: y :: row =>
    let rest := withinBack boundaryAt (j + 1) (y :: row)
    (if boundaryAt j then x else Row.at rest 0 || x) :: rest

section

variable (lower : Units → Units) (g : GlobSyntax) (value : Units)

def hayOf : Units := if g.caseInsensitive then lower value else value

def literalOf (ch : UInt16) : Units := if g.caseInsensitive then lower [ch] else [ch]

/-- `boundary !== undefined && hay[j] === boundary`. -/
def isBoundary (j : Nat) : Bool :=
  match g.boundary with
  | some b => unitIs (hayOf lower g value) j b
  | none => false

def Token.row : Token → Row → Row
  | literal ch, prev => false :: (List.range value.length).map fun j =>
    prev.at j && unitIs (hayOf lower g value) j (literalOf lower g ch)
  | single, prev => false :: (List.range value.length).map prev.at
  | star, prev => starRow false prev
  | starWithin, prev => prev.at 0 :: withinRow (isBoundary lower g value) 0 (prev.at 0) prev.tail

def matchFrom : List Token → Row → Bool
  | [], prev => prev.at value.length
  | tok :: tokens, prev =>
    let cur := tok.row lower g value prev
    -- no position is left, so no token can go on
    if cur.any id then matchFrom tokens cur else false

def matchTokens (tokens : List Token) : Bool :=
  matchFrom lower g value tokens (true :: List.replicate value.length false)

def globMatch (pattern : Units) : Bool := matchTokens lower g value (tokenize pattern g)

def MAX_CAPTURE_CELLS : Nat := 1000000

structure GlobCaptureResult where
  matched : Bool
  captures : List Units
  deriving DecidableEq

/-- The row of a token in `canFinish`, from the row behind it. -/
def Token.backRow : Token → Row → Row
  | literal ch, next => (List.range value.length).map (fun j =>
    unitIs (hayOf lower g value) j (literalOf lower g ch) && next.at (j + 1)) ++ [false]
  | single, next => (List.range value.length).map (fun j => next.at (j + 1)) ++ [false]
  | star, next => starBack next
  | starWithin, next => withinBack (isBoundary lower g value) 0 next

/-- `canFinish`: the row of each token, and the last one behind them. -/
def finishRows : List Token → List Row
  | [] => [List.replicate value.length false ++ [true]]
  | tok :: tokens =>
    let rows := finishRows tokens
    tok.backRow lower g value (rows.headD []) :: rows

/-- A stretch `%` may not take. -/
def crosses (tok : Token) (j k : Nat) : Bool :=
  match tok, g.boundary with
  | .starWithin, some b => decide (b <:+: ((hayOf lower g value).drop j).take (k - j))
  | _, _ => false

/-- The farthest end from which the rest can finish, looking from `j + n` down to `j`. -/
def farthest (tok : Token) (next : Row) (j : Nat) : Nat → Nat
  | 0 => j
  | n + 1 =>
    if next.at (j + n) && !crosses lower g value tok j (j + n) then j + n
    else farthest tok next j n

def slice (s : Units) (j k : Nat) : Units := (s.drop j).take (k - j)

/-- The walk from the front; `rows` are those behind the tokens. -/
def captureFrom : List Token → List Row → Nat → List Units
  | [], _, _ => []
  | .literal _ :: tokens, rows, j => captureFrom tokens rows.tail (j + 1)
  | .single :: tokens, rows, j => slice value j (j + 1) :: captureFrom tokens rows.tail (j + 1)
  | tok :: tokens, rows, j =>
    let last := farthest lower g value tok (rows.headD []) j (value.length + 1 - j)
    slice value j last :: captureFrom tokens rows.tail last

def globCaptures (pattern : Units) : GlobCaptureResult :=
  let tokens := tokenize pattern g
  if MAX_CAPTURE_CELLS < (tokens.length + 1) * (value.length + 1) then
    ⟨matchTokens lower g value tokens, []⟩
  else
    let rows := finishRows lower g value tokens
    if (rows.headD []).at 0 then ⟨true, captureFrom lower g value tokens rows.tail 0⟩
    else ⟨false, []⟩

end

/-! ### Routes

Both tables say which positions a list of tokens can lead to: forward from the beginning, or
backward from the end. -/

section

variable (lower : Units → Units) (g : GlobSyntax) (value : Units)

/-- The token takes the units from `i` to `j`, as the tables see them. -/
def Token.Spans : Token → Nat → Nat → Prop
  | literal ch, i, j =>
    j = i + 1 ∧ j ≤ value.length ∧ unitIs (hayOf lower g value) i (literalOf lower g ch) = true
  | single, i, j => j = i + 1 ∧ j ≤ value.length
  | star, i, j => i ≤ j ∧ j ≤ value.length
  | starWithin, i, j => i ≤ j ∧ j ≤ value.length ∧
    ∀ k, i ≤ k → k < j → isBoundary lower g value k = false

def Route : List Token → Nat → Nat → Prop
  | [], i, j => i = j
  | tok :: tokens, i, j => ∃ k, tok.Spans lower g value i k ∧ Route tokens k j

end

theorem Row.at_cons_zero (x : Bool) (row : Row) : Row.at (x :: row) 0 = x := rfl

theorem Row.at_cons_succ (x : Bool) (row : Row) (j : Nat) : Row.at (x :: row) (j + 1) = row.at j :=
  rfl

theorem Row.at_map_range {n j : Nat} (f : Nat → Bool) (h : j < n) :
    Row.at ((List.range n).map f) j = f j := by
  simp [Row.at, List.getD_eq_getElem?_getD, h]

theorem Row.at_append_left {row row' : Row} (h : j < row.length) :
    Row.at (row ++ row') j = row.at j := by
  simp [Row.at, List.getD_eq_getElem?_getD, List.getElem?_append_left h]

theorem forward_or {c p b : Nat → Bool} {m : Nat} (hzero : c 0 = p 0)
    (hsucc : ∀ j < m, c (j + 1) = if b j then p (j + 1) else c j || p (j + 1))
    (hj : j ≤ m) :
    c j = true ↔ ∃ i ≤ j, p i = true ∧ ∀ k, i ≤ k → k < j → b k = false := by
  induction j with
  | zero =>
    rw [hzero]
    constructor
    · intro h
      exact ⟨0, le_rfl, h, fun k _ hk => absurd hk (Nat.not_lt_zero k)⟩
    · rintro ⟨i, hi, h, -⟩
      rwa [Nat.le_zero.mp hi] at h
  | succ j ih =>
    have hlast : p (j + 1) = true → ∃ i ≤ j + 1, p i = true ∧
        ∀ k, i ≤ k → k < j + 1 → b k = false :=
      fun h => ⟨j + 1, le_rfl, h, fun k hk hk' => absurd hk' (Nat.not_lt.mpr hk)⟩
    rw [hsucc j hj]
    cases hb : b j with
    | true =>
      rw [if_pos rfl]
      refine ⟨hlast, ?_⟩
      rintro ⟨i, hi, h, hfree⟩
      rcases Nat.lt_or_ge j i with hlt | hge
      · rwa [Nat.le_antisymm hi hlt] at h
      · rw [hfree j hge (Nat.lt_succ_self j)] at hb
        cases hb
    | false =>
      rw [if_neg (by simp), Bool.or_eq_true, ih (Nat.le_of_succ_le hj)]
      constructor
      · rintro (⟨i, hi, h, hfree⟩ | h)
        · refine ⟨i, Nat.le_succ_of_le hi, h, fun k hk hk' => ?_⟩
          rcases Nat.lt_succ_iff_lt_or_eq.mp hk' with hlt | rfl
          · exact hfree k hk hlt
          · exact hb
        · exact hlast h
      · rintro ⟨i, hi, h, hfree⟩
        rcases Nat.lt_or_ge j i with hlt | hge
        · exact .inr (by rwa [Nat.le_antisymm hi hlt] at h)
        · exact .inl ⟨i, hge, h, fun k hk hk' => hfree k hk (Nat.lt_succ_of_lt hk')⟩

theorem backward_or {c p b : Nat → Bool} {m : Nat} (hlast : c m = p m)
    (hstep : ∀ i < m, c i = if b i then p i else c (i + 1) || p i) (hi : i ≤ m) :
    c i = true ↔ ∃ j, i ≤ j ∧ j ≤ m ∧ p j = true ∧ ∀ k, i ≤ k → k < j → b k = false := by
  induction hn : m - i generalizing i with
  | zero =>
    have him : i = m := by omega
    subst him
    rw [hlast]
    constructor
    · intro h
      exact ⟨i, le_rfl, le_rfl, h, fun k hk hk' => absurd hk' (Nat.not_lt.mpr hk)⟩
    · rintro ⟨j, hij, hj, h, -⟩
      rwa [Nat.le_antisymm hj hij] at h
  | succ n ih =>
    have hlt : i < m := by omega
    have hhere : p i = true → ∃ j, i ≤ j ∧ j ≤ m ∧ p j = true ∧
        ∀ k, i ≤ k → k < j → b k = false :=
      fun h => ⟨i, le_rfl, hi, h, fun k hk hk' => absurd hk' (Nat.not_lt.mpr hk)⟩
    rw [hstep i hlt]
    cases hb : b i with
    | true =>
      rw [if_pos rfl]
      refine ⟨hhere, ?_⟩
      rintro ⟨j, hij, hj, h, hfree⟩
      rcases Nat.lt_or_ge i j with hcut | hge
      · rw [hfree i le_rfl hcut] at hb
        cases hb
      · rwa [Nat.le_antisymm hge hij] at h
    | false =>
      rw [if_neg (by simp), Bool.or_eq_true, ih (i := i + 1) hlt (by omega)]
      constructor
      · rintro (⟨j, hij, hj, h, hfree⟩ | h)
        · refine ⟨j, Nat.le_of_succ_le hij, hj, h, fun k hk hk' => ?_⟩
          rcases Nat.eq_or_lt_of_le hk with rfl | hlt'
          · exact hb
          · exact hfree k hlt' hk'
        · exact hhere h
      · rintro ⟨j, hij, hj, h, hfree⟩
        rcases Nat.eq_or_lt_of_le hij with rfl | hlt'
        · exact .inr h
        · exact .inl ⟨j, hlt', hj, h, fun k hk hk' => hfree k (Nat.le_of_succ_le hk) hk'⟩

theorem starRow_length (run : Bool) (row : Row) : (starRow run row).length = row.length := by
  induction row generalizing run with
  | nil => rfl
  | cons x row ih => simp [starRow, ih]

theorem starRow_succ (run : Bool) (row : Row) (j : Nat) (h : j + 1 < row.length) :
    (starRow run row).at (j + 1) = ((starRow run row).at j || row.at (j + 1)) := by
  induction row generalizing run j with
  | nil => simp at h
  | cons x row ih =>
    rw [List.length_cons] at h
    cases j with
    | zero =>
      obtain ⟨y, row, rfl⟩ := List.exists_cons_of_length_pos (Nat.lt_of_succ_lt_succ h)
      rfl
    | succ j => exact ih (run || x) j (Nat.lt_of_succ_lt_succ h)

theorem withinRow_length (boundaryAt : Nat → Bool) (j : Nat) (run : Bool) (row : Row) :
    (withinRow boundaryAt j run row).length = row.length := by
  induction row generalizing j run with
  | nil => rfl
  | cons x row ih => simp [withinRow, ih]

theorem withinRow_at (boundaryAt : Nat → Bool) (j : Nat) (run : Bool) (row : Row) (n : Nat)
    (h : n < row.length) :
    (withinRow boundaryAt j run row).at n =
      if boundaryAt (j + n) then row.at n
      else Row.at (run :: withinRow boundaryAt j run row) n || row.at n := by
  induction row generalizing j run n with
  | nil => simp at h
  | cons here row ih =>
    rw [List.length_cons] at h
    cases n with
    | zero => rfl
    | succ n =>
      have hstep := ih (j + 1) (if boundaryAt j then here else run || here) n
        (Nat.lt_of_succ_lt_succ h)
      rw [Nat.add_right_comm, Nat.add_assoc] at hstep
      exact hstep

theorem starBack_length (row : Row) : (starBack row).length = row.length := by
  induction row with
  | nil => rfl
  | cons x row ih => simp [starBack, ih]

theorem starBack_at (row : Row) (i : Nat) (h : i < row.length) :
    (starBack row).at i = ((starBack row).at (i + 1) || row.at i) := by
  induction row generalizing i with
  | nil => simp at h
  | cons x row ih =>
    cases i with
    | zero => rfl
    | succ i => exact ih i (Nat.lt_of_succ_lt_succ h)

theorem withinBack_length (boundaryAt : Nat → Bool) (j : Nat) (row : Row) :
    (withinBack boundaryAt j row).length = row.length := by
  fun_induction withinBack boundaryAt j row with
  | case1 => rfl
  | case2 => rfl
  | case3 j x y row rest ih => simp [rest, ih]

theorem withinBack_last (boundaryAt : Nat → Bool) (j : Nat) (row : Row) (n : Nat)
    (h : row.length = n + 1) : (withinBack boundaryAt j row).at n = row.at n := by
  fun_induction withinBack boundaryAt j row generalizing n with
  | case1 => simp at h
  | case2 j x =>
    rfl
  | case3 j x y row rest ih =>
    cases n with
    | zero => simp at h
    | succ n => exact ih n (by simpa using h)

theorem withinBack_at (boundaryAt : Nat → Bool) (j : Nat) (row : Row) (i : Nat)
    (h : i + 1 < row.length) :
    (withinBack boundaryAt j row).at i =
      if boundaryAt (j + i) then row.at i
      else (withinBack boundaryAt j row).at (i + 1) || row.at i := by
  fun_induction withinBack boundaryAt j row generalizing i with
  | case1 => simp at h
  | case2 => simp at h
  | case3 j x y row rest ih =>
    cases i with
    | zero => rfl
    | succ i =>
      have hstep := ih i (by simpa using h)
      rw [Nat.add_right_comm, Nat.add_assoc] at hstep
      exact hstep

section

variable {lower : Units → Units} {g : GlobSyntax} {value : Units}

theorem Token.row_length (tok : Token) {prev : Row} (h : prev.length = value.length + 1) :
    (tok.row lower g value prev).length = value.length + 1 := by
  cases tok with
  | literal ch => simp [Token.row]
  | star => rw [Token.row, starRow_length, h]
  | starWithin => simp [Token.row, withinRow_length, h]
  | single => simp [Token.row]

theorem Token.Spans.bounds {tok : Token} {i j : Nat} (h : tok.Spans lower g value i j) :
    i ≤ j ∧ j ≤ value.length := by
  cases tok with
  | literal ch => exact ⟨by rw [h.1]; exact Nat.le_succ i, h.2.1⟩
  | star => exact h
  | starWithin => exact ⟨h.1, h.2.1⟩
  | single => exact ⟨by rw [h.1]; exact Nat.le_succ i, h.2⟩

theorem Token.row_at (tok : Token) {prev : Row} (h : prev.length = value.length + 1)
    (hj : j ≤ value.length) :
    (tok.row lower g value prev).at j = true ↔
      ∃ i, prev.at i = true ∧ tok.Spans lower g value i j := by
  cases tok with
  | literal ch =>
    cases j with
    | zero => simp [Token.row, Row.at_cons_zero, Token.Spans]
    | succ j =>
      rw [Token.row, Row.at_cons_succ, Row.at_map_range _ hj, Bool.and_eq_true]
      constructor
      · rintro ⟨hprev, hunit⟩
        exact ⟨j, hprev, rfl, hj, hunit⟩
      · rintro ⟨i, hprev, hij, -, hunit⟩
        obtain rfl : j = i := Nat.succ.inj hij
        exact ⟨hprev, hunit⟩
  | single =>
    cases j with
    | zero => simp [Token.row, Row.at_cons_zero, Token.Spans]
    | succ j =>
      rw [Token.row, Row.at_cons_succ, Row.at_map_range _ hj]
      constructor
      · intro hprev
        exact ⟨j, hprev, rfl, hj⟩
      · rintro ⟨i, hprev, hij, -⟩
        obtain rfl : j = i := Nat.succ.inj hij
        exact hprev
  | star =>
    have hrow := forward_or (b := fun _ => false) (c := (starRow false prev).at) (p := prev.at)
      (m := value.length) (by cases prev <;> rfl)
      (fun j hj => by simpa using starRow_succ false prev j (by omega)) hj
    rw [Token.row, hrow]
    constructor
    · rintro ⟨i, hi, hprev, -⟩
      exact ⟨i, hprev, hi, hj⟩
    · rintro ⟨i, hprev, hi, -⟩
      exact ⟨i, hi, hprev, fun _ _ _ => rfl⟩
  | starWithin =>
    obtain ⟨p, rest, rfl⟩ := List.exists_cons_of_length_eq_add_one h
    have hrow := forward_or (b := isBoundary lower g value) (p := Row.at (p :: rest))
      (c := Row.at (p :: withinRow (isBoundary lower g value) 0 p rest)) (m := value.length) rfl
      (fun j hj => by
        have hstep := withinRow_at (isBoundary lower g value) 0 p rest j
          (by rw [List.length_cons] at h; omega)
        rwa [Nat.zero_add] at hstep) hj
    change Row.at (p :: withinRow (isBoundary lower g value) 0 p rest) j = true ↔ _
    rw [hrow]
    constructor
    · rintro ⟨i, hi, hprev, hfree⟩
      exact ⟨i, hprev, hi, hj, hfree⟩
    · rintro ⟨i, hprev, hi, -, hfree⟩
      exact ⟨i, hi, hprev, hfree⟩

theorem Token.backRow_length (tok : Token) {next : Row} (h : next.length = value.length + 1) :
    (tok.backRow lower g value next).length = value.length + 1 := by
  cases tok with
  | literal ch => simp [Token.backRow]
  | star => rw [Token.backRow, starBack_length, h]
  | starWithin => rw [Token.backRow, withinBack_length, h]
  | single => simp [Token.backRow]

theorem at_units_append (f : Nat → Bool) (hi : i ≤ value.length) :
    Row.at ((List.range value.length).map f ++ [false]) i = true ↔ i < value.length ∧ f i = true := by
  rcases Nat.lt_or_eq_of_le hi with hlt | rfl
  · rw [Row.at_append_left (by simpa using hlt), Row.at_map_range _ hlt]
    exact (and_iff_right hlt).symm
  · simp [Row.at, List.getD_eq_getElem?_getD]

theorem Token.backRow_at (tok : Token) {next : Row} (h : next.length = value.length + 1)
    (hi : i ≤ value.length) :
    (tok.backRow lower g value next).at i = true ↔
      ∃ j, tok.Spans lower g value i j ∧ next.at j = true := by
  cases tok with
  | literal ch =>
    rw [Token.backRow, at_units_append _ hi, Bool.and_eq_true]
    constructor
    · rintro ⟨hlt, hunit, hnext⟩
      exact ⟨i + 1, ⟨rfl, hlt, hunit⟩, hnext⟩
    · rintro ⟨j, ⟨rfl, hlt, hunit⟩, hnext⟩
      exact ⟨hlt, hunit, hnext⟩
  | single =>
    rw [Token.backRow, at_units_append _ hi]
    constructor
    · rintro ⟨hlt, hnext⟩
      exact ⟨i + 1, ⟨rfl, hlt⟩, hnext⟩
    · rintro ⟨j, ⟨rfl, hlt⟩, hnext⟩
      exact ⟨hlt, hnext⟩
  | star =>
    have hlast : (starBack next).at value.length = next.at value.length := by
      have hbeyond : (starBack next).at (value.length + 1) = false := by
        rw [Row.at, List.getD_eq_default _ _ (by rw [starBack_length, h])]
      rw [starBack_at next _ (by omega), hbeyond, Bool.false_or]
    have hrow := backward_or (b := fun _ => false) (c := (starBack next).at) (p := next.at)
      (m := value.length) hlast (fun i hi => by simpa using starBack_at next i (by omega)) hi
    rw [Token.backRow, hrow]
    constructor
    · rintro ⟨j, hij, hj, hnext, -⟩
      exact ⟨j, ⟨hij, hj⟩, hnext⟩
    · rintro ⟨j, ⟨hij, hj⟩, hnext⟩
      exact ⟨j, hij, hj, hnext, fun _ _ _ => rfl⟩
  | starWithin =>
    have hrow := backward_or (b := isBoundary lower g value)
      (c := (withinBack (isBoundary lower g value) 0 next).at) (p := next.at)
      (m := value.length) (withinBack_last _ 0 next _ h)
      (fun i hi => by
        have hstep := withinBack_at (isBoundary lower g value) 0 next i (by omega)
        rwa [Nat.zero_add] at hstep) hi
    rw [Token.backRow, hrow]
    constructor
    · rintro ⟨j, hij, hj, hnext, hfree⟩
      exact ⟨j, ⟨hij, hj, hfree⟩, hnext⟩
    · rintro ⟨j, ⟨hij, hj, hfree⟩, hnext⟩
      exact ⟨j, hij, hj, hnext, hfree⟩

theorem matchFrom_iff (tokens : List Token) {prev : Row} (h : prev.length = value.length + 1) :
    matchFrom lower g value tokens prev = true ↔
      ∃ i, prev.at i = true ∧ Route lower g value tokens i value.length := by
  induction tokens generalizing prev with
  | nil => simp [matchFrom, Route]
  | cons tok tokens ih =>
    have hlen : (tok.row lower g value prev).length = value.length + 1 := tok.row_length h
    have hroute : (∃ j, (tok.row lower g value prev).at j = true ∧
        Route lower g value tokens j value.length) ↔
        ∃ i, prev.at i = true ∧ Route lower g value (tok :: tokens) i value.length := by
      constructor
      · rintro ⟨j, hcur, hrest⟩
        have hj : j ≤ value.length := by
          by_contra hgt
          rw [Row.at, List.getD_eq_default _ _ (by omega)] at hcur
          cases hcur
        obtain ⟨i, hprev, hspan⟩ := (tok.row_at h hj).mp hcur
        exact ⟨i, hprev, j, hspan, hrest⟩
      · rintro ⟨i, hprev, j, hspan, hrest⟩
        exact ⟨j, (tok.row_at h hspan.bounds.2).mpr ⟨i, hprev, hspan⟩, hrest⟩
    rw [← hroute, matchFrom]
    split
    · exact ih hlen
    · rename_i hdead
      refine ⟨fun hfalse => absurd hfalse (by simp), ?_⟩
      rintro ⟨j, hcur, -⟩
      refine absurd (List.any_eq_true.mpr ⟨true, ?_, rfl⟩) hdead
      rw [Row.at, List.getD_eq_getElem?_getD] at hcur
      cases hget : (tok.row lower g value prev)[j]? with
      | none => simp [hget] at hcur
      | some x =>
        rw [hget, Option.getD_some] at hcur
        exact List.mem_of_getElem? (hcur ▸ hget)

theorem matchTokens_iff (tokens : List Token) :
    matchTokens lower g value tokens = true ↔ Route lower g value tokens 0 value.length := by
  rw [matchTokens, matchFrom_iff tokens (by simp)]
  constructor
  · rintro ⟨i, hi, hroute⟩
    cases i with
    | zero => exact hroute
    | succ i =>
      rw [Row.at_cons_succ, Row.at, List.getD_eq_getElem?_getD] at hi
      simp only [List.getElem?_replicate] at hi
      split at hi <;> simp at hi
  · intro hroute
    exact ⟨0, rfl, hroute⟩

theorem finishRows_length (tokens : List Token) :
    ((finishRows lower g value tokens).headD []).length = value.length + 1 := by
  induction tokens with
  | nil => simp [finishRows]
  | cons tok tokens ih => exact tok.backRow_length ih

theorem finishRows_iff (tokens : List Token) (hi : i ≤ value.length) :
    ((finishRows lower g value tokens).headD []).at i = true ↔
      Route lower g value tokens i value.length := by
  induction tokens generalizing i with
  | nil =>
    rw [finishRows, Route]
    constructor
    · intro hat
      by_contra hne
      rw [List.headD_cons, Row.at_append_left (by rw [List.length_replicate]; omega), Row.at,
        List.getD_eq_getElem?_getD] at hat
      simp only [List.getElem?_replicate] at hat
      split at hat <;> simp at hat
    · rintro rfl
      simp [Row.at, List.getD_eq_getElem?_getD]
  | cons tok tokens ih =>
    rw [finishRows, List.headD_cons, tok.backRow_at (finishRows_length tokens) hi]
    constructor
    · rintro ⟨j, hspan, hnext⟩
      exact ⟨j, hspan, (ih hspan.bounds.2).mp hnext⟩
    · rintro ⟨j, hspan, hrest⟩
      exact ⟨j, hspan, (ih hspan.bounds.2).mpr hrest⟩

theorem captures_matched (pattern : Units) :
    (globCaptures lower g value pattern).matched = globMatch lower g value pattern := by
  have hrows : ((finishRows lower g value (tokenize pattern g)).headD []).at 0 = true ↔
      Route lower g value (tokenize pattern g) 0 value.length := finishRows_iff _ (Nat.zero_le _)
  rw [← matchTokens_iff] at hrows
  rw [globCaptures, globMatch]
  dsimp only
  split
  · rfl
  · split
    · rename_i hat
      exact (hrows.mp hat).symm
    · rename_i hat
      rw [hrows, Bool.not_eq_true] at hat
      exact hat.symm

end

section

variable (lower : Units → Units) (g : GlobSyntax)

def Same (a b : Units) : Prop := if g.caseInsensitive then lower a = lower b else a = b

def Token.Eats : Token → Units → Prop
  | literal ch, s => ∃ v, s = [v] ∧ Same lower g [v] [ch]
  | star, _ => True
  | starWithin, s => ∀ b, g.boundary = some b → ∀ v ∈ s, ¬ Same lower g [v] b
  | single, s => ∃ v, s = [v]

def Meaning (tokens : List Token) (value : Units) : Prop :=
  ∃ pieces, List.Forall₂ (Token.Eats lower g) tokens pieces ∧ pieces.flatten = value

/-- The lower case of the value is that of its units, and a unit that is the boundary but for
case is the boundary. Without `caseInsensitive` there is nothing to ask. -/
structure Unitwise (value : Units) : Prop where
  unit : ∀ j v, value[j]? = some v → unitIs (hayOf lower g value) j (literalOf lower g v) = true
  boundary : ∀ v ∈ value, ∀ b, g.boundary = some b →
    (literalOf lower g v = b ↔ Same lower g [v] b)

/-- Every token can be written, `%` if there is a boundary. -/
structure Spells : Prop where
  single : ∃ e q, g.escape = some [e] ∧ g.single = some [q] ∧ e ≠ q ∧ g.star ≠ [q] ∧
    g.starWithin ≠ some [q]
  within : g.boundary = none ∨ ∃ w, g.starWithin = some [w] ∧ g.escape ≠ some [w] ∧ g.star ≠ [w]

end

section

variable {lower : Units → Units} {g : GlobSyntax} {value : Units}

theorem meaning_nil (v : Units) : Meaning lower g [] v ↔ v = [] := by
  simp [Meaning, eq_comm]

theorem meaning_cons (tok : Token) (tokens : List Token) (v : Units) :
    Meaning lower g (tok :: tokens) v ↔
      ∃ p q, v = p ++ q ∧ tok.Eats lower g p ∧ Meaning lower g tokens q := by
  constructor
  · rintro ⟨pieces, hall, hflat⟩
    cases hall with
    | @cons _ p _ pieces heats hrest =>
      exact ⟨p, pieces.flatten, by rw [← hflat, List.flatten_cons], heats, pieces, hrest, rfl⟩
  · rintro ⟨p, q, rfl, heats, pieces, hrest, rfl⟩
    exact ⟨p :: pieces, .cons heats hrest, List.flatten_cons⟩

theorem meaning_append (as bs : List Token) (v : Units) :
    Meaning lower g (as ++ bs) v ↔
      ∃ p q, v = p ++ q ∧ Meaning lower g as p ∧ Meaning lower g bs q := by
  induction as generalizing v with
  | nil => simp [meaning_nil]
  | cons tok as ih =>
    rw [List.cons_append, meaning_cons]
    constructor
    · rintro ⟨p, q, rfl, heats, hrest⟩
      obtain ⟨q, r, rfl, has, hbs⟩ := (ih _).mp hrest
      exact ⟨p ++ q, r, (List.append_assoc p q r).symm, (meaning_cons ..).mpr ⟨p, q, rfl, heats, has⟩,
        hbs⟩
    · rintro ⟨_, r, rfl, has, hbs⟩
      obtain ⟨p, q, rfl, heats, has⟩ := (meaning_cons ..).mp has
      exact ⟨p, q ++ r, List.append_assoc p q r, heats, (ih _).mpr ⟨q, r, rfl, has, hbs⟩⟩

theorem meaning_singles (n : Nat) (v : Units) :
    Meaning lower g (List.replicate n .single) v ↔ v.length = n := by
  induction n generalizing v with
  | zero => simp [meaning_nil]
  | succ n ih =>
    rw [List.replicate_succ, meaning_cons]
    constructor
    · rintro ⟨p, q, rfl, ⟨u, rfl⟩, hrest⟩
      rw [List.length_append, (ih q).mp hrest]
      exact Nat.add_comm 1 n
    · intro hlen
      obtain ⟨u, v, rfl⟩ := List.exists_cons_of_length_eq_add_one hlen
      exact ⟨[u], v, rfl, ⟨u, rfl⟩, (ih v).mpr (by simpa using hlen)⟩

theorem unitIs_congr {hay s t : Units} (h : unitIs hay j s = true) :
    unitIs hay j t = true ↔ s = t := by
  unfold unitIs at h ⊢
  cases hget : hay[j]? with
  | none => simp [hget] at h
  | some u =>
    simp only [hget, decide_eq_true_eq] at h ⊢
    rw [h]

theorem literalOf_eq_iff (v ch : UInt16) :
    literalOf lower g v = literalOf lower g ch ↔ Same lower g [v] [ch] := by
  unfold literalOf Same
  split <;> rfl

theorem Unitwise.literal (h : Unitwise lower g value)
    (hv : value[j]? = some v) (ch : UInt16) :
    unitIs (hayOf lower g value) j (literalOf lower g ch) = true ↔ Same lower g [v] [ch] := by
  rw [unitIs_congr (h.unit j v hv), literalOf_eq_iff]

theorem Unitwise.isBoundary (h : Unitwise lower g value)
    (hv : value[j]? = some v) :
    isBoundary lower g value j = false ↔ ∀ b, g.boundary = some b → ¬ Same lower g [v] b := by
  rw [Core.isBoundary]
  cases hb : g.boundary with
  | none => simp
  | some b =>
    have hat := (unitIs_congr (t := b) (h.unit j v hv)).trans
      (h.boundary v (List.mem_of_getElem? hv) b hb)
    simp only [← Bool.not_eq_true, hat, Option.some.injEq, forall_eq']

theorem slice_succ (h : value[i]? = some v) : slice value i (i + 1) = [v] := by
  obtain ⟨hlt, rfl⟩ := List.getElem?_eq_some_iff.mp h
  rw [slice, List.drop_eq_getElem_cons hlt, Nat.add_sub_cancel_left]
  rfl

theorem mem_slice {i j : Nat} :
    v ∈ slice value i j ↔ ∃ k, i ≤ k ∧ k < j ∧ value[k]? = some v := by
  rw [slice, List.mem_iff_getElem?]
  constructor
  · rintro ⟨n, hn⟩
    rw [List.getElem?_take] at hn
    split at hn
    · rw [List.getElem?_drop] at hn
      exact ⟨i + n, Nat.le_add_right i n, by omega, hn⟩
    · cases hn
  · rintro ⟨k, hik, hkj, hk⟩
    refine ⟨k - i, ?_⟩
    rw [List.getElem?_take, if_pos (by omega), List.getElem?_drop, Nat.add_sub_cancel' hik, hk]

theorem spans_iff (h : Unitwise lower g value) (tok : Token) (i j : Nat) :
    tok.Spans lower g value i j ↔
      i ≤ j ∧ j ≤ value.length ∧ tok.Eats lower g (slice value i j) := by
  -- a token that takes one unit
  have hone : i ≤ j → j ≤ value.length → ∀ v, slice value i j = [v] → j = i + 1 := by
    intro hij hj v hv
    have hlen : (slice value i j).length = 1 := by rw [hv]; rfl
    rw [slice, List.length_take, List.length_drop] at hlen
    omega
  have hget : j = i + 1 → j ≤ value.length → ∃ v, value[i]? = some v ∧ slice value i j = [v] := by
    rintro rfl hj
    have hv : value[i]? = some value[i] := List.getElem?_eq_getElem hj
    exact ⟨_, hv, slice_succ hv⟩
  cases tok with
  | star => simp [Token.Spans, Token.Eats]
  | single =>
    constructor
    · rintro ⟨hij, hj⟩
      obtain ⟨v, -, hs⟩ := hget hij hj
      exact ⟨by omega, hj, v, hs⟩
    · rintro ⟨hij, hj, v, hs⟩
      exact ⟨hone hij hj v hs, hj⟩
  | literal ch =>
    constructor
    · rintro ⟨hij, hj, hunit⟩
      obtain ⟨v, hv, hs⟩ := hget hij hj
      exact ⟨by omega, hj, v, hs, (h.literal hv ch).mp hunit⟩
    · rintro ⟨hij, hj, v, hs, hsame⟩
      have hnext := hone hij hj v hs
      obtain ⟨u, hu, hs'⟩ := hget hnext hj
      obtain rfl : u = v := by
        rw [hs] at hs'
        exact (List.cons.inj hs').1.symm
      exact ⟨hnext, hj, (h.literal hu ch).mpr hsame⟩
  | starWithin =>
    rw [Token.Spans]
    apply and_congr_right
    intro hij
    apply and_congr_right
    intro hj
    constructor
    · intro hfree b hb v hv
      obtain ⟨k, hik, hkj, hk⟩ := mem_slice.mp hv
      exact (h.isBoundary hk).mp (hfree k hik hkj) b hb
    · intro heats k hik hkj
      have hk : value[k]? = some value[k] := List.getElem?_eq_getElem (Nat.lt_of_lt_of_le hkj hj)
      exact (h.isBoundary hk).mpr fun b hb => heats b hb _ (mem_slice.mpr ⟨k, hik, hkj, hk⟩)

theorem route_iff (h : Unitwise lower g value) (tokens : List Token)
    (hi : i ≤ value.length) :
    Route lower g value tokens i value.length ↔ Meaning lower g tokens (value.drop i) := by
  induction tokens generalizing i with
  | nil =>
    rw [Route, meaning_nil, List.drop_eq_nil_iff]
    omega
  | cons tok tokens ih =>
    rw [Route, meaning_cons]
    constructor
    · rintro ⟨k, hspan, hrest⟩
      obtain ⟨hik, hk, heats⟩ := (spans_iff h tok i k).mp hspan
      refine ⟨slice value i k, value.drop k, ?_, heats, (ih hk).mp hrest⟩
      have hdrop : value.drop k = (value.drop i).drop (k - i) := by
        rw [List.drop_drop, Nat.add_sub_cancel' hik]
      rw [hdrop, slice, List.take_append_drop]
    · rintro ⟨p, q, hpq, heats, hrest⟩
      have hlen : value.length - i = p.length + q.length := by
        rw [← List.length_drop, hpq, List.length_append]
      have hslice : slice value i (i + p.length) = p := by
        rw [slice, Nat.add_sub_cancel_left, hpq, List.take_left']
        rfl
      have hq : value.drop (i + p.length) = q := by
        rw [← List.drop_drop, hpq, List.drop_left']
        rfl
      refine ⟨i + p.length, (spans_iff h tok i _).mpr ⟨Nat.le_add_right i _, by omega, ?_⟩, ?_⟩
      · rwa [hslice]
      · rw [ih (by omega), hq]
        exact hrest

theorem tokenize_singles {q : UInt16} (hsingle : g.single = some [q]) (hescape : g.escape ≠ some [q])
    (hstar : g.star ≠ [q]) (hwithin : g.starWithin ≠ some [q]) (n : Nat) (rest : Units)
    (out : List Token) :
    tokenizeFrom g (List.replicate n q ++ rest) out =
      tokenizeFrom g rest (out ++ List.replicate n Token.single) := by
  induction n generalizing out with
  | zero => simp
  | succ n ih =>
    rw [List.replicate_succ, List.cons_append, tokenizeFrom.eq_def]
    dsimp only
    rw [if_neg hescape, if_neg (Ne.symm hstar), if_neg hwithin, if_pos hsingle, ih,
      List.replicate_succ, List.append_assoc]
    rfl

theorem route_append (as bs : List Token) (i j : Nat) :
    Route lower g value (as ++ bs) i j ↔
      ∃ k, Route lower g value as i k ∧ Route lower g value bs k j := by
  induction as generalizing i with
  | nil => simp [Route]
  | cons tok as ih =>
    simp only [List.cons_append, Route, ih]
    constructor
    · rintro ⟨k, hspan, l, has, hbs⟩
      exact ⟨l, ⟨k, hspan, has⟩, hbs⟩
    · rintro ⟨l, ⟨k, hspan, has⟩, hbs⟩
      exact ⟨k, hspan, l, has, hbs⟩

theorem route_singles {n i j : Nat} (hj : j ≤ value.length) :
    Route lower g value (List.replicate n .single) i j ↔ j = i + n := by
  induction n generalizing i with
  | zero => simp [Route, eq_comm]
  | succ n ih =>
    rw [List.replicate_succ, Route]
    constructor
    · rintro ⟨k, ⟨rfl, -⟩, hrest⟩
      rw [ih] at hrest
      omega
    · rintro rfl
      exact ⟨i + 1, ⟨rfl, by omega⟩, ih.mpr (by omega)⟩

/-- The token between as many `?` as leave it the unit `v`. -/
def around (a : Units) (tok : Token) (b : Units) : List Token :=
  List.replicate a.length Token.single ++ tok :: List.replicate b.length Token.single

theorem route_around {a b : Units} (tok : Token) (hvalue : value = a ++ v :: b) :
    Route lower g value (around a tok b) 0 value.length ↔
      tok.Spans lower g value a.length (a.length + 1) := by
  have hlen : value.length = a.length + 1 + b.length := by
    rw [hvalue, List.length_append, List.length_cons]
    omega
  rw [around, route_append]
  constructor
  · rintro ⟨k, hbefore, l, hspan, hafter⟩
    have hbound := hspan.bounds
    rw [route_singles le_rfl] at hafter
    rw [route_singles (hbound.1.trans hbound.2), Nat.zero_add] at hbefore
    have hl : l = a.length + 1 := by omega
    rwa [hbefore, hl] at hspan
  · intro hspan
    exact ⟨a.length, (route_singles (by omega)).mpr (Nat.zero_add _).symm, a.length + 1, hspan,
      (route_singles le_rfl).mpr hlen⟩

theorem meaning_around (a b : Units) (v : UInt16) (tok : Token) :
    Meaning lower g (around a tok b) (a ++ v :: b) ↔ tok.Eats lower g [v] := by
  rw [around, meaning_append]
  constructor
  · rintro ⟨p, r, hpr, hbefore, hrest⟩
    obtain ⟨q, r, rfl, heats, hafter⟩ := (meaning_cons ..).mp hrest
    rw [meaning_singles] at hbefore hafter
    obtain ⟨rfl, hrest⟩ := List.append_inj hpr hbefore.symm
    have hq : q = [v] := by
      have hsplit : [v] ++ b = q ++ r := hrest
      exact (List.append_inj_left' hsplit hafter.symm).symm
    rwa [hq] at heats
  · intro heats
    exact ⟨a, v :: b, rfl, (meaning_singles ..).mpr rfl,
      (meaning_cons ..).mpr ⟨[v], b, rfl, heats, (meaning_singles ..).mpr rfl⟩⟩

theorem within_one (hi : i + 1 ≤ value.length) :
    Token.starWithin.Spans lower g value i (i + 1) ↔ isBoundary lower g value i = false := by
  constructor
  · rintro ⟨-, -, hfree⟩
    exact hfree i le_rfl (Nat.lt_succ_self _)
  · intro hfalse
    refine ⟨Nat.le_succ _, hi, fun k hk hk' => ?_⟩
    rwa [Nat.le_antisymm (Nat.lt_succ_iff.mp hk') hk]

theorem exists_literal_pattern (hspells : Spells g) (a b : Units) (v : UInt16) :
    ∃ pattern, tokenize pattern g = around a (.literal v) b := by
  obtain ⟨e, q, hescape, hsingle, hne, hstar, hwithin⟩ := hspells.single
  have hq : g.escape ≠ some [q] := by
    rw [hescape]
    simpa using hne
  have hrest := tokenize_singles hsingle hq hstar hwithin b.length []
    ([] ++ List.replicate a.length Token.single ++ [Token.literal v])
  rw [List.append_nil] at hrest
  refine ⟨List.replicate a.length q ++ (e :: v :: List.replicate b.length q), ?_⟩
  rw [tokenize, tokenize_singles hsingle hq hstar hwithin, tokenizeFrom, if_pos hescape, hrest,
    tokenizeFrom, around]
  simp

theorem exists_within_pattern (hspells : Spells g) (hb : g.boundary ≠ none) (a b : Units) :
    ∃ pattern, tokenize pattern g = around a .starWithin b := by
  obtain ⟨e, q, hescape, hsingle, hne, hstar, hwithin⟩ := hspells.single
  obtain ⟨w, hw, hwescape, hwstar⟩ := hspells.within.resolve_left hb
  have hq : g.escape ≠ some [q] := by
    rw [hescape]
    simpa using hne
  have hrest := tokenize_singles hsingle hq hstar hwithin b.length []
    ([] ++ List.replicate a.length Token.single ++ [Token.starWithin])
  rw [List.append_nil] at hrest
  refine ⟨List.replicate a.length q ++ (w :: List.replicate b.length q), ?_⟩
  rw [tokenize, tokenize_singles hsingle hq hstar hwithin, tokenizeFrom.eq_def]
  dsimp only
  rw [if_neg hwescape, if_neg (Ne.symm hwstar), if_pos hw, hrest, tokenizeFrom, around]
  simp

theorem unitwise_of_agree (hspells : Spells g)
    (hagree : ∀ pattern, globMatch lower g value pattern = true ↔
      Meaning lower g (tokenize pattern g) value) : Unitwise lower g value := by
  have hspan : ∀ (a : Units) v b tok, value = a ++ v :: b →
      (∃ pattern, tokenize pattern g = around a tok b) →
      (tok.Spans lower g value a.length (a.length + 1) ↔ tok.Eats lower g [v]) := by
    rintro a v b tok hvalue ⟨pattern, htokens⟩
    have hpattern := hagree pattern
    rw [globMatch, matchTokens_iff, htokens, route_around tok hvalue] at hpattern
    rw [hpattern]
    conv_lhs => rw [hvalue]
    exact meaning_around a b v tok
  have hunit : ∀ a v b, value = a ++ v :: b →
      unitIs (hayOf lower g value) a.length (literalOf lower g v) = true := by
    intro a v b hvalue
    have hliteral := hspan a v b (.literal v) hvalue (exists_literal_pattern hspells a b v)
    have hsame : Same lower g [v] [v] := by
      unfold Same
      split <;> rfl
    exact (hliteral.mpr ⟨v, rfl, hsame⟩).2.2
  constructor
  · intro j v hv
    obtain ⟨hlt, rfl⟩ := List.getElem?_eq_some_iff.mp hv
    have hvalue : value = value.take j ++ value[j] :: value.drop (j + 1) := by
      rw [← List.drop_eq_getElem_cons hlt, List.take_append_drop]
    have hat := hunit _ _ _ hvalue
    rwa [List.length_take, Nat.min_eq_left (Nat.le_of_lt hlt)] at hat
  · intro v hv b hb
    obtain ⟨a, c, hvalue⟩ := List.append_of_mem hv
    have hpercent := hspan a v c .starWithin hvalue
      (exists_within_pattern hspells (by simp [hb]) a c)
    have hlen : a.length + 1 ≤ value.length := by
      rw [hvalue, List.length_append, List.length_cons]
      omega
    have hat : isBoundary lower g value a.length = true ↔ literalOf lower g v = b := by
      rw [isBoundary, hb]
      exact unitIs_congr (hunit a v c hvalue)
    have heats : Token.starWithin.Eats lower g [v] ↔ ¬ Same lower g [v] b := by
      simp [Token.Eats, hb]
    rw [← hat, ← not_iff_not, ← heats, ← hpercent, within_one hlen, Bool.not_eq_true]

end

/-- A pattern matches what its tokens mean, if the lower case of the value is that of its
units; where every token can be written, only then. Captures are found for the same values. -/
theorem glob_correct (lower : Units → Units) (g : GlobSyntax) (value : Units) :
    (Unitwise lower g value → ∀ pattern, globMatch lower g value pattern = true ↔
      Meaning lower g (tokenize pattern g) value) ∧
    (Spells g → (∀ pattern, globMatch lower g value pattern = true ↔
      Meaning lower g (tokenize pattern g) value) → Unitwise lower g value) ∧
    ∀ pattern, (globCaptures lower g value pattern).matched = globMatch lower g value pattern := by
  refine ⟨fun h pattern => ?_, unitwise_of_agree, captures_matched⟩
  rw [globMatch, matchTokens_iff, route_iff h _ (Nat.zero_le _), List.drop_zero]

/-- `toLowerCase` on ASCII and on the dotted capital I, whose lower case is two units. -/
def lowerDotted (s : Units) : Units :=
  s.flatMap fun u => if u = 0x130 then [0x69, 0x307] else if 65 ≤ u ∧ u ≤ 90 then [u + 32] else [u]

theorem glob_correct_fails :
    ¬ ∀ (lower : Units → Units) (g : GlobSyntax) (value pattern : Units),
      globMatch lower g value pattern = true ↔ Meaning lower g (tokenize pattern g) value := by
  intro h
  have hmeaning : Meaning lowerDotted SIEVE_MATCH_SYNTAX (tokenize [0x130] SIEVE_MATCH_SYNTAX)
      [0x130] := by
    have htokens : tokenize [0x130] SIEVE_MATCH_SYNTAX = [.literal 0x130] := by decide
    rw [htokens]
    exact ⟨[[0x130]], .cons ⟨0x130, rfl, rfl⟩ .nil, rfl⟩
  have hmatch := (h lowerDotted SIEVE_MATCH_SYNTAX [0x130] [0x130]).mpr hmeaning
  revert hmatch
  decide

end Ionosphere.Core
