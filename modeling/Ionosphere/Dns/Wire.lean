import Ionosphere.Dns.Address
import Ionosphere.Js.Utf8
import Ionosphere.Lib.Cursor

/-! The DNS wire format: messages to bytes and back. The encoder writes whole names; the
decoder follows compression pointers. Beside each record the decoder notes where its RDATA
lay and which ranges were read in place, which nothing of it looks at. -/
namespace Ionosphere.Dns

open Ionosphere.Js Ionosphere.Lib

local instance : Coe String Text := ⟨String.toList⟩

inductive RRType where
  | A | NS | CNAME | SOA | PTR | MX | TXT | AAAA | DS | RRSIG | DNSKEY | TLSA
  deriving DecidableEq

def RRType.code : RRType → Nat
  | .A => 1
  | .NS => 2
  | .CNAME => 5
  | .SOA => 6
  | .PTR => 12
  | .MX => 15
  | .TXT => 16
  | .AAAA => 28
  | .DS => 43
  | .RRSIG => 46
  | .DNSKEY => 48
  | .TLSA => 52

def RRType.all : List RRType :=
  [.A, .NS, .CNAME, .SOA, .PTR, .MX, .TXT, .AAAA, .DS, .RRSIG, .DNSKEY, .TLSA]

def RRType.ofCode (code : Nat) : Option RRType := RRType.all.find? fun t => t.code = code

inductive RData where
  | a (address : Text)
  | aaaa (address : Text)
  | ns (target : Text)
  | cname (target : Text)
  | ptr (target : Text)
  | mx (preference : Nat) (exchange : Text)
  | txt (text : Text) (chunks : List Text)
  | soa (mname rname : Text) (serial refresh retry expire minimum : Nat)
  | ds (keyTag algorithm digestType : Nat) (digest : Bytes)
  | dnskey (flags protocol algorithm : Nat) (publicKey : Bytes)
  | rrsig (typeCovered algorithm labels originalTtl expiration inception keyTag : Nat)
      (signerName : Text) (signature rdataPrefix : Bytes)
  | tlsa (usage selector matchingType : Nat) (data : Bytes)
  | unknown (type : Nat) (data : Bytes)
  deriving DecidableEq

structure DnsQuestion where
  name : Text
  type : Nat
  cls : Nat
  deriving DecidableEq

structure DnsRecord where
  name : Text
  type : Nat
  cls : Nat
  ttl : Nat
  rdata : RData
  deriving DecidableEq

structure DnsHeader where
  id : Nat
  qr : Bool
  opcode : Nat
  aa : Bool
  tc : Bool
  rd : Bool
  ra : Bool
  rcode : Nat
  deriving DecidableEq

structure DnsMessage where
  header : DnsHeader
  questions : List DnsQuestion
  answers : List DnsRecord
  authorities : List DnsRecord
  additionals : List DnsRecord
  deriving DecidableEq

structure DnsWireError where
  message : Text
  deriving DecidableEq

namespace ByteWriter

def u8 (n : Nat) : Bytes := [UInt8.ofNat (n &&& 0xff)]

def u16 (n : Nat) : Bytes := [UInt8.ofNat ((n >>> 8) &&& 0xff), UInt8.ofNat (n &&& 0xff)]

def u32 (n : Nat) : Bytes :=
  [UInt8.ofNat ((n >>> 24) &&& 0xff), UInt8.ofNat ((n >>> 16) &&& 0xff),
    UInt8.ofNat ((n >>> 8) &&& 0xff), UInt8.ofNat (n &&& 0xff)]

/-- `n.replace(/\.$/, "")`. -/
def trimDot (n : Text) : Text := if n.getLast? = some '.' then n.dropLast else n

def label (n l : Text) : Except DnsWireError Bytes :=
  let bytes := utf8Encode l
  if bytes.length = 0 then .error ⟨"빈 라벨: " ++ n⟩
  else if 63 < bytes.length then .error ⟨"라벨 길이 초과(>63): " ++ l⟩
  else .ok (u8 bytes.length ++ bytes)

def name (n : Text) : Except DnsWireError Bytes :=
  if trimDot n = [] then .ok (u8 0)
  else do
    let labels ← ((trimDot n).splitOn '.').mapM (label n)
    return labels.flatten ++ u8 0

def sized (bytes : Bytes) : Bytes := u16 bytes.length ++ bytes

end ByteWriter

open ByteWriter in
def encodeChunk (chunk : Text) : Except DnsWireError Bytes :=
  let b := utf8Encode chunk
  if 255 < b.length then .error ⟨"TXT 조각 길이 초과(>255)"⟩ else .ok (u8 b.length ++ b)

def address (what : Text) (parse : Text → Option Bytes) (s : Text) : Except DnsWireError Bytes :=
  match parse s with
  | none => .error ⟨"잘못된 " ++ what ++ ": " ++ s⟩
  | some b => .ok b

open ByteWriter in
/-- The length and the RDATA. The source's `switch` has no case for the four kinds at the
end, and writes not even a length for them. -/
def encodeRdata : RData → Except DnsWireError Bytes
  | .a s => do return sized (← address "IPv4" parseIpv4 s)
  | .aaaa s => do return sized (← address "IPv6" parseIpv6 s)
  | .ns target => do return sized (← name target)
  | .cname target => do return sized (← name target)
  | .ptr target => do return sized (← name target)
  | .mx preference exchange => do return sized (u16 preference ++ (← name exchange))
  | .txt _ chunks => do return sized (← chunks.mapM encodeChunk).flatten
  | .soa mname rname serial refresh retry expire minimum => do
    let mname ← name mname
    let rname ← name rname
    return sized (mname ++ rname ++ u32 serial ++ u32 refresh ++ u32 retry ++ u32 expire ++
      u32 minimum)
  | .unknown _ data => return sized data
  | .ds .. | .dnskey .. | .rrsig .. | .tlsa .. => return []

open ByteWriter in
def encodeRecord (r : DnsRecord) : Except DnsWireError Bytes := do
  let n ← name r.name
  let rdata ← encodeRdata r.rdata
  return n ++ u16 r.type ++ u16 r.cls ++ u32 r.ttl ++ rdata

open ByteWriter in
def encodeQuestion (q : DnsQuestion) : Except DnsWireError Bytes := do
  let n ← name q.name
  return n ++ u16 q.type ++ u16 q.cls

def headerFlags (h : DnsHeader) : Nat :=
  (if h.qr then 0x8000 else 0) ||| ((h.opcode &&& 0x0f) <<< 11) ||| (if h.aa then 0x0400 else 0) |||
    (if h.tc then 0x0200 else 0) ||| (if h.rd then 0x0100 else 0) ||| (if h.ra then 0x0080 else 0) |||
    (h.rcode &&& 0x0f)

open ByteWriter in
def encodeMessage (m : DnsMessage) : Except DnsWireError Bytes := do
  let questions ← m.questions.mapM encodeQuestion
  let answers ← m.answers.mapM encodeRecord
  let authorities ← m.authorities.mapM encodeRecord
  let additionals ← m.additionals.mapM encodeRecord
  return u16 m.header.id ++ u16 (headerFlags m.header) ++ u16 m.questions.length ++
    u16 m.answers.length ++ u16 m.authorities.length ++ u16 m.additionals.length ++
    questions.flatten ++ answers.flatten ++ authorities.flatten ++ additionals.flatten

abbrev DnsParser (α : Type) : Type := Parser UInt8 DnsWireError α

namespace ByteReader

def outOfRange : DnsWireError := ⟨"버퍼 범위 초과"⟩

def bigEndian (bytes : Bytes) : Nat := bytes.foldl (fun acc b => acc * 256 + b.toNat) 0

def bytes (n : Nat) : DnsParser Bytes := Parser.take n outOfRange

def uint (width : Nat) : DnsParser Nat := do
  let b ← bytes width
  return bigEndian b

def u8 : DnsParser Nat := uint 1

def u16 : DnsParser Nat := uint 2

def u32 : DnsParser Nat := uint 4

/-- `bytes(stop - offset)`. A negative length passes the check, is an empty subarray and
moves the offset back. -/
def bytesTo (stop : Nat) : DnsParser Bytes := do
  let o ← Parser.offset
  if o ≤ stop then bytes (stop - o)
  else do
    Parser.seek stop
    return []

def maxNameSteps : Nat := 128

/-- The labels of a name and the offset behind it; `next` is set at the first pointer. The
source checks its counter before it counts, which lets one more round through. -/
def nameLoop (view : Bytes) : Nat → Nat → Option Nat → List Text →
    Except DnsWireError (List Text × Nat)
  | 0, _, _, _ => .error ⟨"이름 압축 루프"⟩
  | steps + 1, pos, next, labels =>
    match view[pos]? with
    | none => .error ⟨"이름 범위 초과"⟩
    | some b =>
      let len := b.toNat
      if len = 0 then .ok (labels, next.getD (pos + 1))
      else if len &&& 0xc0 = 0xc0 then
        match view[pos + 1]? with
        | none => .error ⟨"압축 포인터 범위 초과"⟩
        | some low =>
          nameLoop view steps (((len &&& 0x3f) <<< 8) ||| low.toNat) (some (next.getD (pos + 2)))
            labels
      else if len &&& 0xc0 ≠ 0 then .error ⟨"알 수 없는 라벨 타입"⟩
      else if view.length < pos + 1 + len then .error ⟨"라벨 범위 초과"⟩
      else
        nameLoop view steps (pos + 1 + len) next
          (labels ++ [utf8Decode ((view.drop (pos + 1)).take len)])

def name : DnsParser Text := fun view c =>
  match nameLoop view (maxNameSteps + 1) c.offset none [] with
  | .error e => .error e
  | .ok (labels, next) =>
    .ok (join ['.'] labels, ⟨next, c.taken ++ [(c.offset, next)]⟩)

end ByteReader

open ByteReader in
/-- The strings up to `stop`. Each takes a byte at least, so the RDATA length bounds the
number of rounds. -/
def txtChunks : Nat → Nat → DnsParser (List Text)
  | 0, _ => return []
  | fuel + 1, stop => do
    let o ← Parser.offset
    if o < stop then do
      let len ← u8
      let b ← bytes len
      let rest ← txtChunks fuel stop
      return utf8Decode b :: rest
    else return []

open ByteReader in
def decodeSoa (stop : Nat) : DnsParser RData := do
  let mname ← name
  let rname ← name
  let serial ← u32
  let refresh ← u32
  let retry ← u32
  let expire ← u32
  let minimum ← u32
  Parser.seek stop
  return .soa mname rname serial refresh retry expire minimum

open ByteReader in
def decodeRrsig (start stop : Nat) : DnsParser RData := do
  let typeCovered ← u16
  let algorithm ← u8
  let labels ← u8
  let originalTtl ← u32
  let expiration ← u32
  let inception ← u32
  let keyTag ← u16
  let signerName ← name
  let prefixEnd ← Parser.offset
  let signature ← bytesTo stop
  let rdataPrefix ← Parser.slice start prefixEnd
  return .rrsig typeCovered algorithm labels originalTtl expiration inception keyTag signerName
    signature rdataPrefix

open ByteReader in
def decodeTarget (kind : Text → RData) (stop : Nat) : DnsParser RData := do
  let target ← name
  Parser.seek stop
  return kind target

open ByteReader in
/-- DS and DNSKEY: a number of two bytes, two of one, and the rest. -/
def decodeKey (kind : Nat → Nat → Nat → Bytes → RData) (stop : Nat) : DnsParser RData := do
  let a ← u16
  let b ← u8
  let c ← u8
  let rest ← bytesTo stop
  return kind a b c rest

open ByteReader in
def decodeRdata (type rdlength : Nat) : DnsParser RData := do
  let start ← Parser.offset
  let stop := start + rdlength
  match RRType.ofCode type with
  | some .DS =>
    if rdlength < 5 then Parser.fail ⟨"DS RDATA 길이 오류"⟩ else decodeKey .ds stop
  | some .DNSKEY =>
    if rdlength < 5 then Parser.fail ⟨"DNSKEY RDATA 길이 오류"⟩ else decodeKey .dnskey stop
  | some .RRSIG =>
    if rdlength < 18 then Parser.fail ⟨"RRSIG RDATA 길이 오류"⟩ else decodeRrsig start stop
  | some .TLSA =>
    if rdlength < 4 then Parser.fail ⟨"TLSA RDATA 길이 오류"⟩
    else do
      let usage ← u8
      let selector ← u8
      let matchingType ← u8
      let data ← bytesTo stop
      return .tlsa usage selector matchingType data
  | some .A => do
    let b ← bytes rdlength
    if b.length ≠ 4 then Parser.fail ⟨"A RDATA 길이 오류"⟩ else return .a (formatIpv4 b)
  | some .AAAA => do
    let b ← bytes rdlength
    if b.length ≠ 16 then Parser.fail ⟨"AAAA RDATA 길이 오류"⟩ else return .aaaa (formatIpv6 b)
  | some .NS => decodeTarget .ns stop
  | some .CNAME => decodeTarget .cname stop
  | some .PTR => decodeTarget .ptr stop
  | some .MX => do
    let preference ← u16
    let exchange ← name
    Parser.seek stop
    return .mx preference exchange
  | some .TXT => do
    let chunks ← txtChunks rdlength stop
    Parser.seek stop
    return .txt chunks.flatten chunks
  | some .SOA => decodeSoa stop
  | none => do
    let data ← bytes rdlength
    return .unknown type data

/-- Where the RDATA of a record lay, the ranges its decoder read in place and where decoding
went on. -/
structure Span where
  type : Nat
  start : Nat
  rdlength : Nat
  taken : List (Nat × Nat)
  next : Nat

open ByteReader in
def decodeRecord : DnsParser (DnsRecord × Span) := do
  let n ← name
  let type ← u16
  let cls ← u16
  let ttl ← u32
  let rdlength ← u16
  let start ← Parser.offset
  let (rdata, taken) ← Parser.logged (decodeRdata type rdlength)
  let next ← Parser.offset
  return (⟨n, type, cls, ttl, rdata⟩, ⟨type, start, rdlength, taken, next⟩)

open ByteReader in
def decodeQuestion : DnsParser DnsQuestion := do
  let n ← name
  let type ← u16
  let cls ← u16
  return ⟨n, type, cls⟩

def decodeHeader (id flags : Nat) : DnsHeader :=
  { id := id
    qr := decide (flags &&& 0x8000 ≠ 0)
    opcode := (flags >>> 11) &&& 0x0f
    aa := decide (flags &&& 0x0400 ≠ 0)
    tc := decide (flags &&& 0x0200 ≠ 0)
    rd := decide (flags &&& 0x0100 ≠ 0)
    ra := decide (flags &&& 0x0080 ≠ 0)
    rcode := flags &&& 0x0f }

open ByteReader in
def decodeSpans : DnsParser (DnsMessage × List Span) := do
  let id ← u16
  let flags ← u16
  let qd ← u16
  let an ← u16
  let ns ← u16
  let ar ← u16
  let questions ← decodeQuestion.times qd
  let answers ← decodeRecord.times an
  let authorities ← decodeRecord.times ns
  let additionals ← decodeRecord.times ar
  return (⟨decodeHeader id flags, questions, answers.map (·.1), authorities.map (·.1),
    additionals.map (·.1)⟩, (answers ++ authorities ++ additionals).map (·.2))

def decodeTraced (buf : Bytes) : Except DnsWireError (DnsMessage × List Span) :=
  match decodeSpans buf ⟨0, []⟩ with
  | .error e => .error e
  | .ok (m, _) => .ok m

def decodeMessage (buf : Bytes) : Except DnsWireError DnsMessage :=
  match decodeTraced buf with
  | .error e => .error e
  | .ok (m, _) => .ok m

end Ionosphere.Dns
