import Mathlib.Data.List.GetD
import Ionosphere.Js.LowerCase

/-! The sender rewriting scheme: the envelope sender of a forwarded message as an address of
the forwarder, and back. Times are what `Date.now()` returns, whole milliseconds since the
epoch; HMAC is any function of the secret and the data. -/
namespace Ionosphere.Srs

open Ionosphere.Js

local instance : Coe String Text := ⟨String.toList⟩

def B32 : Text := "ABCDEFGHIJKLMNOPQRSTUVWXYZ234567"
def tsPrecisionDays : Nat := 1024
def msPerDay : Nat := 86400000
def hashLen : Nat := 12
def defaultMaxAgeDays : Int := 21

/-- The options of a call; `now` is already the given time or that of the clock. -/
structure SrsOptions where
  secret : Text
  maxAgeDays : Option Int := none
  now : Nat

def b32Char (n : Nat) : Char := B32.getD n 'A'

/-- One character; `none` is a character outside of the alphabet. -/
def normalizeB32Char (c : Char) : Option Char :=
  let n := if 97 ≤ c.toNat ∧ c.toNat ≤ 122 then c.toNat - 32 else c.toNat
  if (65 ≤ n ∧ n ≤ 90) ∨ (50 ≤ n ∧ n ≤ 55) then some (Char.ofNat n) else none

def normalizeB32 (s : Text) : Option Text := s.mapM normalizeB32Char

/-- The characters the bits read so far are good for, up to `len` of them. -/
def emitBits (len acc : Nat) : Nat → Text → Nat × Text
  | bits + 5, out =>
    let out := out ++ [b32Char ((acc >>> bits) &&& 31)]
    if out.length = len then (bits, out) else emitBits len acc bits out
  | bits, out => (bits, out)

def base32Go (len : Nat) : Nat → Nat → Text → Bytes → Text
  | _, _, out, [] => out
  | acc, bits, out, b :: bs =>
    let acc := (acc <<< 8) ||| b.toNat
    let r := emitBits len acc (bits + 8) out
    if r.2.length = len then r.2
    else base32Go len (acc &&& ((1 <<< r.1) - 1)) r.1 r.2 bs

def base32Encode (bytes : Bytes) (len : Nat) : Text := base32Go len 0 0 [] bytes

def dayOf (nowMs : Nat) : Nat := nowMs / msPerDay

def encodeTimestamp (nowMs : Nat) : Text :=
  let days := dayOf nowMs % tsPrecisionDays
  [b32Char ((days >>> 5) &&& 31), b32Char (days &&& 31)]

def timestampAgeDays (tt : Text) (nowMs : Nat) : Option Int :=
  if tt.length ≠ 2 then none
  else
    match normalizeB32 tt with
    | some [hi, lo] =>
      match B32.idxOf? hi, B32.idxOf? lo with
      | some hi, some lo =>
        let stamped := (hi <<< 5) ||| lo
        let age : Int := (dayOf nowMs % tsPrecisionDays : Nat) - (stamped : Nat)
        some (if age < 0 then age + tsPrecisionDays else age)
      | _, _ => none
    | _ => none

inductive AgeCheck where
  | ok
  | expired
  | badFormat
  deriving DecidableEq

def checkAge (tt : Text) (nowMs : Nat) (maxAgeDays : Int) : AgeCheck :=
  match timestampAgeDays tt nowMs with
  | none => .badFormat
  | some age => if maxAgeDays < age then .expired else .ok

/-- The parts before and after the last `@`; none of them is empty. -/
def splitAddress (addr : Text) : Option (Text × Text) :=
  match addr.reverse.dropWhile (· ≠ '@') with
  | [] => none
  | _ :: rest =>
    let domain := (addr.reverse.takeWhile (· ≠ '@')).reverse
    if rest = [] ∨ domain = [] then none else some (rest.reverse, domain)

inductive SrsReason where
  | notSrs
  | badFormat
  | badHash
  | expired
  deriving DecidableEq

inductive SrsReverseResult where
  | ok (address : Text)
  | refused (reason : SrsReason)
  deriving DecidableEq

def AgeCheck.guard : AgeCheck → SrsReverseResult → SrsReverseResult
  | .ok, r => r
  | .expired, _ => .refused .expired
  | .badFormat, _ => .refused .badFormat

def srs0 : Text := "SRS0="
def srs1 : Text := "SRS1="

/-- `/^SRS0=/i` and `/^SRS1=/i`, with what stands behind the match. -/
def afterSrs0 (s : Text) : Option Text := matchPrefixI "srs0=" s
def afterSrs1 (s : Text) : Option Text := matchPrefixI "srs1=" s

section

variable (u : CaseData) (hmac : Text → Text → Bytes)

def computeHash (secret data : Text) : Text :=
  base32Encode (hmac secret (u.toLowerCase data)) hashLen

def hashEquals (expected actual : Text) : Bool :=
  actual.length = expected.length && normalizeB32 actual = some expected

def signed (tag secret forwarderDomain payload : Text) : Text :=
  tag ++ computeHash u hmac secret (forwarderDomain ++ '=' :: payload) ++ '=' :: payload ++
    '@' :: forwarderDomain

/-- `none` is the exception for a sender that is no address. -/
def srsForward (origSender forwarderDomain : Text) (opts : SrsOptions) : Option Text :=
  match splitAddress origSender with
  | none => none
  | some (localPart, domain) =>
    match afterSrs1 localPart with
    | some guts =>
      -- without a second `=` the source's `slice(0)` is the whole local part
      let rest := match splitFirst '=' guts with
        | some (_, rest) => rest
        | none => localPart
      some (signed u hmac srs1 opts.secret forwarderDomain rest)
    | none =>
      match afterSrs0 localPart with
      | some guts =>
        some (signed u hmac srs1 opts.secret forwarderDomain
          (encodeTimestamp opts.now ++ '=' :: domain ++ '=' :: guts))
      | none =>
        some (signed u hmac srs0 opts.secret forwarderDomain
          (encodeTimestamp opts.now ++ '=' :: domain ++ '=' :: localPart))

def signedBy (opts : SrsOptions) (forwarderDomain payload hash : Text) : Bool :=
  hashEquals (computeHash u hmac opts.secret (forwarderDomain ++ '=' :: payload)) hash

def reverseSrs0 (guts forwarderDomain : Text) (opts : SrsOptions) : SrsReverseResult :=
  match guts.splitOn '=' with
  | hash :: tt :: origDomain :: l :: ls =>
    let origLocal := join ['='] (l :: ls)
    let payload := tt ++ '=' :: origDomain ++ '=' :: origLocal
    if !signedBy u hmac opts forwarderDomain payload hash then .refused .badHash
    else
      (checkAge tt opts.now (opts.maxAgeDays.getD defaultMaxAgeDays)).guard
        (.ok (origLocal ++ '@' :: origDomain))
  | _ => .refused .badFormat

def reverseSrs1 (rest forwarderDomain : Text) (opts : SrsOptions) : SrsReverseResult :=
  match splitFirst '=' rest with
  | none => .refused .badFormat
  | some (hash, payload) =>
    if !signedBy u hmac opts forwarderDomain payload hash then .refused .badHash
    else
      match payload.splitOn '=' with
      | tt :: srsDomain :: g :: gs =>
        let guts := join ['='] (g :: gs)
        let maxAge := opts.maxAgeDays.getD defaultMaxAgeDays
        (checkAge tt opts.now maxAge).guard
          (match guts.splitOn '=' with
          | _ :: inner :: _ :: _ :: _ =>
            (checkAge inner opts.now maxAge).guard (.ok (srs0 ++ guts ++ '@' :: srsDomain))
          | _ => .refused .badFormat)
      | _ => .refused .badFormat

def srsReverse (srsAddress : Text) (opts : SrsOptions) : SrsReverseResult :=
  match splitAddress srsAddress with
  | none => .refused .badFormat
  | some (localPart, forwarderDomain) =>
    match afterSrs0 localPart with
    | some guts => reverseSrs0 u hmac guts forwarderDomain opts
    | none =>
      match afterSrs1 localPart with
      | some rest => reverseSrs1 u hmac rest forwarderDomain opts
      | none => .refused .notSrs

end

/-- A character of the alphabet, in its own case. -/
def isB32 (c : Char) : Bool := B32.contains c

theorem b32Char_isB32 (n : Nat) : isB32 (b32Char n) = true := by
  unfold b32Char
  by_cases hn : n < B32.length
  · have hmem : B32.getD n 'A' ∈ B32 := by
      rw [List.getD_eq_getElem _ _ hn]
      exact List.getElem_mem hn
    exact List.contains_iff_mem.mpr hmem
  · rw [List.getD_eq_default _ _ (Nat.le_of_not_lt hn)]
    decide

theorem b32_normal : ∀ c ∈ B32, normalizeB32Char c = some c ∧
    normalizeB32Char (asciiLower c) = some c ∧ isAscii c = true ∧ c ≠ '=' ∧ asciiLower c ≠ '=' := by
  have hall : (B32.all fun c => decide (normalizeB32Char c = some c ∧
      normalizeB32Char (asciiLower c) = some c ∧ isAscii c = true ∧ c ≠ '=' ∧
      asciiLower c ≠ '=')) = true := by decide
  intro c hc
  exact of_decide_eq_true (List.all_eq_true.mp hall c hc)

theorem normalizeB32_of_isB32 {s : Text} (h : ∀ c ∈ s, isB32 c = true) :
    normalizeB32 s = some s ∧ normalizeB32 (s.map asciiLower) = some s := by
  induction s with
  | nil => exact ⟨rfl, rfl⟩
  | cons c cs ih =>
    obtain ⟨hfirst, hfirst', -⟩ := b32_normal c (List.contains_iff_mem.mp (h c (List.mem_cons_self ..)))
    obtain ⟨hrest, hrest'⟩ := ih fun d hd => h d (List.mem_cons_of_mem _ hd)
    unfold normalizeB32 at hrest hrest' ⊢
    rw [List.map_cons, List.mapM_cons, List.mapM_cons, hfirst, hfirst', hrest, hrest']
    exact ⟨rfl, rfl⟩

theorem emitBits_isB32 (len acc bits : Nat) {out : Text} (h : ∀ c ∈ out, isB32 c = true) :
    ∀ c ∈ (emitBits len acc bits out).2, isB32 c = true := by
  fun_induction emitBits len acc bits out with
  | case1 out bits out' hlen =>
    intro c hc
    obtain hc | hc := List.mem_append.mp hc
    · exact h c hc
    · rw [List.mem_singleton.mp hc]
      exact b32Char_isB32 _
  | case2 out bits out' hlen ih =>
    refine ih fun c hc => ?_
    obtain hc | hc := List.mem_append.mp hc
    · exact h c hc
    · rw [List.mem_singleton.mp hc]
      exact b32Char_isB32 _
  | case3 bits out => exact h

theorem base32Go_isB32 {len acc bits : Nat} {out : Text} (bs : Bytes)
    (h : ∀ c ∈ out, isB32 c = true) : ∀ c ∈ base32Go len acc bits out bs, isB32 c = true := by
  induction bs generalizing acc bits out with
  | nil => exact h
  | cons b bs ih =>
    have hout := emitBits_isB32 len ((acc <<< 8) ||| b.toNat) (bits + 8) h
    unfold base32Go
    dsimp only
    split_ifs
    · exact hout
    · exact ih hout

theorem computeHash_isB32 (u : CaseData) (hmac : Text → Text → Bytes) (secret data : Text) :
    ∀ c ∈ computeHash u hmac secret data, isB32 c = true :=
  base32Go_isB32 _ (by simp)

end Ionosphere.Srs
