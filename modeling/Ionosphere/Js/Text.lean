import Mathlib.Data.List.Basic
import Mathlib.Data.List.DropRight

/-! Strings and byte strings of an ECMAScript host, as lists. A decoded line is
a list of Unicode scalar values; only code points of the basic plane reach the
places where a program takes `.length`, so list length is the host's length
there. The case mappings outside ASCII are Unicode data: they are a parameter
(`CaseMap`) and every result below holds for all of them. -/
namespace Ionosphere.Js

abbrev Text := List Char
abbrev Bytes := List UInt8

instance lawfulBEqText : LawfulBEq Text := inferInstance

section

variable {α : Type} (l : List α) (p : α → Prop) [DecidablePred p]

/-! A quantifier over a list visits its elements, not all of a finite type. -/

instance (priority := 2000) decidableForall : Decidable (∀ a ∈ l, p a) := List.decidableBAll p l

instance (priority := 2000) decidableExists : Decidable (∃ a ∈ l, p a) := List.decidableBEx p l

end

/-- `WhiteSpace` and `LineTerminator` of ECMA-262: what `trim` and `\s` accept. -/
def isWhiteSpace (c : Char) : Bool :=
  let n := c.toNat
  (9 ≤ n && n ≤ 13) || n == 0x20 || n == 0xa0 || n == 0x1680 ||
    (0x2000 ≤ n && n ≤ 0x200a) || n == 0x2028 || n == 0x2029 || n == 0x202f ||
    n == 0x205f || n == 0x3000 || n == 0xfeff

/-- What `.` does not match in a regular expression without the `s` flag. -/
def isLineTerminator (c : Char) : Bool :=
  let n := c.toNat
  n == 0x0a || n == 0x0d || n == 0x2028 || n == 0x2029

def isDigit (c : Char) : Bool := 48 ≤ c.toNat && c.toNat ≤ 57

def isHexDigit (c : Char) : Bool :=
  isDigit c || (65 ≤ c.toNat && c.toNat ≤ 70) || (97 ≤ c.toNat && c.toNat ≤ 102)

def trimStart (s : Text) : Text := s.dropWhile isWhiteSpace

def trim (s : Text) : Text := (trimStart s).rdropWhile isWhiteSpace

/-- The text before the first `c` and the text after it. -/
def splitFirst (c : Char) : Text → Option (Text × Text)
  | [] => none
  | x :: xs =>
    if x = c then some ([], xs)
    else (splitFirst c xs).map fun p => (x :: p.1, p.2)

theorem splitFirst_of_notMem {c : Char} {xs : Text} (h : c ∉ xs) (ys : Text) :
    splitFirst c (xs ++ c :: ys) = some (xs, ys) := by
  induction xs with
  | nil => simp [splitFirst]
  | cons x xs ih =>
    have hx : x ≠ c := fun hxc => h (hxc ▸ List.mem_cons_self ..)
    have hrest := ih fun hmem => h (List.mem_cons_of_mem _ hmem)
    simp only [List.cons_append, splitFirst, if_neg hx, hrest, Option.map_some]

theorem eq_of_splitFirst {c : Char} {s xs ys : Text} (h : splitFirst c s = some (xs, ys)) :
    s = xs ++ c :: ys ∧ c ∉ xs := by
  induction s generalizing xs with
  | nil => cases h
  | cons x s ih =>
    rw [splitFirst] at h
    split_ifs at h with hx
    · cases h
      simp [hx]
    · obtain ⟨⟨xs', ys'⟩, hrest, heq⟩ := Option.map_eq_some_iff.mp h
      obtain ⟨rfl, rfl⟩ := Prod.mk.inj heq
      obtain ⟨rfl, hmem⟩ := ih hrest
      exact ⟨rfl, by simp [hmem, Ne.symm hx]⟩

theorem trim_of_ends {s : Text} (hhead : ∀ c, s.head? = some c → isWhiteSpace c = false)
    (hlast : ∀ c, s.getLast? = some c → isWhiteSpace c = false) : trim s = s := by
  have hstart : trimStart s = s := by
    cases s with
    | nil => rfl
    | cons c s => exact List.dropWhile_cons_of_neg (by simp [hhead c rfl])
  rw [trim, hstart]
  rcases List.eq_nil_or_concat' s with rfl | ⟨t, c, rfl⟩
  · rfl
  · exact List.rdropWhile_concat_neg _ _ _ (by simp [hlast c (by simp)])

theorem trim_of_all {s : Text} (h : ∀ c ∈ s, isWhiteSpace c = false) : trim s = s :=
  trim_of_ends (fun c hc => h c (List.mem_of_head? hc))
    fun c hc => h c (List.mem_of_getLast? hc)

theorem trim_cons_white {c : Char} (h : isWhiteSpace c) (s : Text) : trim (c :: s) = trim s := by
  rw [trim, trimStart, List.dropWhile_cons_of_pos h, trim, trimStart]

theorem mem_of_mem_trim {c : Char} {s : Text} (h : c ∈ trim s) : c ∈ s :=
  (List.dropWhile_sublist _).mem ((List.rdropWhile_prefix _ _).mem h)

def splitWhiteGo : Text → Text → Bool → List Text
  | [], cur, _ => [cur]
  | c :: cs, cur, skipping =>
    if isWhiteSpace c then
      if skipping then splitWhiteGo cs cur true else cur :: splitWhiteGo cs [] true
    else splitWhiteGo cs (cur ++ [c]) false

/-- `s.split(/\s+/)`. -/
def splitWhite (s : Text) : List Text := splitWhiteGo s [] false

/-- `a.join(sep)`. -/
def join (sep : Text) (xs : List Text) : Text := sep.intercalate xs

theorem mem_join {sep : Char} {ns : List Text} {c : Char} (h : c ∈ join [sep] ns) :
    c = sep ∨ ∃ n ∈ ns, c ∈ n := by
  induction ns with
  | nil => cases h
  | cons n ns ih =>
    by_cases hnil : ns = []
    · rw [hnil, join, List.intercalate_singleton] at h
      exact .inr ⟨n, .head _, h⟩
    · rw [join, List.intercalate_cons_of_ne_nil hnil, List.mem_append, List.mem_append,
        List.mem_singleton] at h
      rcases h with (hn | hsep) | hrest
      · exact .inr ⟨n, .head _, hn⟩
      · exact .inl hsep
      · exact (ih hrest).imp id fun ⟨m, hm, hc⟩ => ⟨m, .tail _ hm, hc⟩

/-- A decimal rendering of a natural number, as in a template literal. -/
def natText (n : Nat) : Text := Nat.toDigits 10 n

def isAscii (c : Char) : Bool := c.toNat < 128

def asciiUpper (c : Char) : Char :=
  if 97 ≤ c.toNat && c.toNat ≤ 122 then Char.ofNat (c.toNat - 32) else c

def asciiLower (c : Char) : Char :=
  if 65 ≤ c.toNat && c.toNat ≤ 90 then Char.ofNat (c.toNat + 32) else c

/-- Unicode's full case mappings, used only for text that is not all ASCII. -/
structure CaseMap where
  upper : Text → Text
  lower : Text → Text

def toUpperCase (u : CaseMap) (s : Text) : Text :=
  if s.all isAscii then s.map asciiUpper else u.upper s

def toLowerCase (u : CaseMap) (s : Text) : Text :=
  if s.all isAscii then s.map asciiLower else u.lower s

theorem toUpperCase_ascii (u : CaseMap) {s : Text} (h : s.all isAscii = true) :
    toUpperCase u s = s.map asciiUpper := if_pos h

/-- A literal matched under the `i` flag without `u`: ASCII letters fold, and no
character outside ASCII matches an ASCII one. -/
def matchPrefixI (lit : Text) (s : Text) : Option Text :=
  match lit, s with
  | [], s => some s
  | _ :: _, [] => none
  | l :: ls, c :: cs => if asciiLower c = l then matchPrefixI ls cs else none

section Utf8

/-- The decoder state of the Encoding standard: bytes still needed, the code
point so far and the bounds on the next byte. -/
structure Utf8State where
  needed : Nat
  codePoint : Nat
  lower : Nat
  upper : Nat

def utf8Idle : Utf8State := ⟨0, 0, 0x80, 0xbf⟩

def replacement : Char := Char.ofNat 0xfffd

def utf8Start (b : Nat) : Utf8State × Text :=
  if b < 0x80 then (utf8Idle, [Char.ofNat b])
  else if 0xc2 ≤ b ∧ b ≤ 0xdf then (⟨1, b - 0xc0, 0x80, 0xbf⟩, [])
  else if 0xe0 ≤ b ∧ b ≤ 0xef then
    (⟨2, b - 0xe0, if b = 0xe0 then 0xa0 else 0x80, if b = 0xed then 0x9f else 0xbf⟩, [])
  else if 0xf0 ≤ b ∧ b ≤ 0xf4 then
    (⟨3, b - 0xf0, if b = 0xf0 then 0x90 else 0x80, if b = 0xf4 then 0x8f else 0xbf⟩, [])
  else (utf8Idle, [replacement])

def utf8Step (s : Utf8State) (b : Nat) : Utf8State × Text :=
  if s.needed = 0 then utf8Start b
  else if s.lower ≤ b ∧ b ≤ s.upper then
    let cp := s.codePoint * 64 + b % 64
    if s.needed = 1 then (utf8Idle, [Char.ofNat cp])
    else (⟨s.needed - 1, cp, 0x80, 0xbf⟩, [])
  else
    -- the offending byte is read again from the idle state
    let r := utf8Start b
    (r.1, replacement :: r.2)

def utf8Go : Utf8State → Bytes → Text
  | s, [] => if s.needed = 0 then [] else [replacement]
  | s, b :: bs => let r := utf8Step s b.toNat; r.2 ++ utf8Go r.1 bs

/-- `new TextDecoder().decode(bytes)`: replacement on error, a leading byte order
mark is dropped. -/
def utf8Decode (bytes : Bytes) : Text :=
  match bytes with
  | 0xef :: 0xbb :: 0xbf :: rest => utf8Go utf8Idle rest
  | _ => utf8Go utf8Idle bytes

/-- `new TextEncoder().encode(s)`. -/
def utf8Encode (s : Text) : Bytes := s.flatMap String.utf8EncodeChar

end Utf8

/-- `Buffer.toString("latin1")`. -/
def latin1Decode (bytes : Bytes) : Text := bytes.map fun b => Char.ofNat b.toNat

theorem latin1Decode_length (bytes : Bytes) : (latin1Decode bytes).length = bytes.length := by
  simp [latin1Decode]

/-- `Buffer.from(s, "latin1")` of characters of one unit: the low byte of each. -/
def latin1Encode (s : Text) : Bytes := s.map fun c => UInt8.ofNat c.toNat

theorem toNat_ofNat_lt {n : Nat} (h : n < 256) : (Char.ofNat n).toNat = n := by
  have hvalid : n.isValidChar := .inl (by omega)
  rw [Char.ofNat, dif_pos hvalid]
  rfl

theorem latin1Decode_lt (bytes : Bytes) : ∀ c ∈ latin1Decode bytes, c.toNat < 256 := by
  intro c hc
  obtain ⟨b, -, rfl⟩ := List.mem_map.mp hc
  rw [toNat_ofNat_lt b.toNat_lt]
  exact b.toNat_lt

theorem latin1Encode_latin1Decode (bytes : Bytes) : latin1Encode (latin1Decode bytes) = bytes := by
  rw [latin1Encode, latin1Decode, List.map_map]
  refine (List.map_congr_left fun b _ => ?_).trans (List.map_id bytes)
  rw [Function.comp_apply, toNat_ofNat_lt b.toNat_lt, UInt8.ofNat_toNat]
  rfl

theorem latin1Decode_latin1Encode {s : Text} (h : ∀ c ∈ s, c.toNat < 256) :
    latin1Decode (latin1Encode s) = s := by
  rw [latin1Encode, latin1Decode, List.map_map]
  refine (List.map_congr_left fun c hc => ?_).trans (List.map_id s)
  rw [Function.comp_apply, UInt8.toNat_ofNat_of_lt' (h c hc), Char.ofNat_toNat]
  rfl

theorem latin1Decode_append (a b : Bytes) :
    latin1Decode (a ++ b) = latin1Decode a ++ latin1Decode b := List.map_append
section Base64

def base64Char (n : Nat) : Char :=
  if n < 26 then Char.ofNat (65 + n)
  else if n < 52 then Char.ofNat (97 + (n - 26))
  else if n < 62 then Char.ofNat (48 + (n - 52))
  else if n = 62 then '+' else '/'

def base64Value (c : Char) : Option Nat :=
  let n := c.toNat
  if 65 ≤ n ∧ n ≤ 90 then some (n - 65)
  else if 97 ≤ n ∧ n ≤ 122 then some (n - 97 + 26)
  else if 48 ≤ n ∧ n ≤ 57 then some (n - 48 + 52)
  else if n = 43 then some 62
  else if n = 47 then some 63
  else none

/-- `Buffer.toString("base64")`. -/
def base64Encode : Bytes → Text
  | [] => []
  | [a] =>
    [base64Char (a.toNat / 4), base64Char (a.toNat % 4 * 16), '=', '=']
  | [a, b] =>
    [base64Char (a.toNat / 4), base64Char (a.toNat % 4 * 16 + b.toNat / 16),
      base64Char (b.toNat % 16 * 4), '=']
  | a :: b :: c :: rest =>
    base64Char (a.toNat / 4) :: base64Char (a.toNat % 4 * 16 + b.toNat / 16) ::
      base64Char (b.toNat % 16 * 4 + c.toNat / 64) :: base64Char (c.toNat % 64) ::
      base64Encode rest

/-- The bytes of a run of base64 digits, four digits to three bytes. -/
def base64Bytes : List Nat → Bytes
  | a :: b :: c :: d :: rest =>
    UInt8.ofNat (a * 4 + b / 16) :: UInt8.ofNat (b % 16 * 16 + c / 4) ::
      UInt8.ofNat (c % 4 * 64 + d) :: base64Bytes rest
  | [a, b, c] => [UInt8.ofNat (a * 4 + b / 16), UInt8.ofNat (b % 16 * 16 + c / 4)]
  | [a, b] => [UInt8.ofNat (a * 4 + b / 16)]
  | _ => []

end Base64

end Ionosphere.Js
