import Ionosphere.Dns.Address

/-! Addresses as SPF reads, writes and compares them. -/
namespace Ionosphere.MailAuth

open Ionosphere.Js Ionosphere.Dns

inductive IpVersion where
  | v4
  | v6
  deriving DecidableEq

def IpVersion.octets : IpVersion → Nat
  | .v4 => 4
  | .v6 => 16

structure ParsedIp where
  version : IpVersion
  bytes : Bytes
  size : bytes.length = version.octets

/-- `/^\d{1,limit}$/`. -/
def isDigits (limit : Nat) (s : Text) : Bool := s ≠ [] && s.length ≤ limit && s.all isDigit

def parseHextet (s : Text) : Option Bytes :=
  if s ≠ [] && s.length ≤ 4 && s.all isHexDigit then
    let v := digitsValue 16 s
    some [UInt8.ofNat (v / 256), UInt8.ofNat (v % 256)]
  else none

def ipv4Octet (part : Text) : Option UInt8 :=
  if isDigits 3 part && digitsValue 10 part ≤ 255 then some (UInt8.ofNat (digitsValue 10 part))
  else none

/-- Four parts are four bytes, so the length is read off the bytes. -/
def parseSpfIpv4 (s : Text) : Option ParsedIp :=
  match (s.splitOn '.').mapM ipv4Octet with
  | none => none
  | some bytes => if h : bytes.length = 4 then some ⟨.v4, bytes, h⟩ else none

def hextets (groups : List Text) : Option ParsedIp :=
  match groups.mapM parseHextet with
  | none => none
  | some words => if h : words.flatten.length = 16 then some ⟨.v6, words.flatten, h⟩ else none

def parseSpfIpv6 (s : Text) : Option ParsedIp :=
  if ':' ∉ s then none
  else
    match splitDouble s with
    | [whole] => hextets (whole.splitOn ':')
    | [h, t] =>
      let head := toGroups h
      let tail := toGroups t
      if 8 < head.length + tail.length then none
      else hextets (head ++ List.replicate (8 - head.length - tail.length) ['0'] ++ tail)
    | _ => none

/-- The dotted part of `::ffff:a.b.c.d`. -/
def mappedIpv4 (s : Text) : Option Text :=
  (matchPrefixI "::ffff:".toList s).filter fun rest =>
    (rest.splitOn '.').length = 4 && (rest.splitOn '.').all (isDigits 3)

def parseIp (raw : Text) : Option ParsedIp :=
  let s := trim raw
  let candidate := (mappedIpv4 s).getD s
  if '.' ∈ candidate ∧ ':' ∉ candidate then parseSpfIpv4 candidate
  else if ':' ∈ candidate then parseSpfIpv6 candidate
  else none

def presentIp (ip : ParsedIp) : Text :=
  match ip.version with
  | .v4 => join ['.'] (ip.bytes.map fun b => natText b.toNat)
  | .v6 => join [':'] ((groupsOf ip.bytes).map hexText)

/-- The nibbles of an address, as the `i` macro writes a version 6 one. -/
def nibbleForm (ip : ParsedIp) : Text :=
  join ['.'] (ip.bytes.flatMap fun b => [hexText (b.toNat / 16), hexText (b.toNat % 16)])

def ipInCidr (ip network : ParsedIp) (prefixLen : Nat) : Bool :=
  let fullBytes := prefixLen / 8
  let remBits := prefixLen % 8
  let mask := UInt8.ofNat ((0xff <<< (8 - remBits)) % 256)
  ip.version = network.version && prefixLen ≤ 8 * ip.version.octets &&
    ip.bytes.take fullBytes = network.bytes.take fullBytes &&
    (remBits = 0 || ip.bytes.getD fullBytes 0 &&& mask = network.bytes.getD fullBytes 0 &&& mask)

def isDomainChar (c : Char) : Bool :=
  ('A' ≤ c && c ≤ 'Z') || ('a' ≤ c && c ≤ 'z') || isDigit c || c = '_' || c = '-'

def isValidDomain (d : Text) : Bool :=
  d ≠ [] && d.length ≤ 253 &&
    (d.splitOn '.').all fun label => 0 < label.length && label.length ≤ 63 && label.all isDomainChar

end Ionosphere.MailAuth
