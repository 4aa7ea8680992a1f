import Ionosphere.Dns.Wire
import Mathlib.Data.List.Forall2

/-! Encoding a message and decoding it again. Names come back without their final dot; all
else comes back as it was, but for the four kinds of RDATA the encoder has no case for. -/
namespace Ionosphere.Dns

open Ionosphere.Js Ionosphere.Lib

variable {n : Nat} {pre : Bytes} {q : DnsQuestion} {h : DnsHeader}

def labelsOf (n : Text) : List Text :=
  if ByteWriter.trimDot n = [] then [] else (ByteWriter.trimDot n).splitOn '.'

/-- Each label fits its length byte, and the decoder's counter allows for all of them. A byte
order mark at the start of a label is lost on `TextDecoder`. -/
structure NameFits (n : Text) : Prop where
  label : ∀ l ∈ labelsOf n, l ≠ [] ∧ (utf8Encode l).length ≤ 63 ∧ l.head? ≠ some byteOrderMark
  count : (labelsOf n).length ≤ ByteReader.maxNameSteps

def RData.mapNames (f : Text → Text) : RData → RData
  | .ns target => .ns (f target)
  | .cname target => .cname (f target)
  | .ptr target => .ptr (f target)
  | .mx preference exchange => .mx preference (f exchange)
  | .soa mname rname serial refresh retry expire minimum =>
    .soa (f mname) (f rname) serial refresh retry expire minimum
  | .rrsig typeCovered algorithm labels originalTtl expiration inception keyTag signerName
      signature rdataPrefix =>
    .rrsig typeCovered algorithm labels originalTtl expiration inception keyTag (f signerName)
      signature rdataPrefix
  | rd => rd

def RData.names : RData → List Text
  | .ns target | .cname target | .ptr target => [target]
  | .mx _ exchange => [exchange]
  | .soa mname rname .. => [mname, rname]
  | .rrsig _ _ _ _ _ _ _ signerName _ _ => [signerName]
  | _ => []

def DnsQuestion.mapNames (f : Text → Text) (q : DnsQuestion) : DnsQuestion :=
  { q with name := f q.name }

def DnsRecord.mapNames (f : Text → Text) (r : DnsRecord) : DnsRecord :=
  { r with name := f r.name, rdata := r.rdata.mapNames f }

def DnsMessage.mapNames (f : Text → Text) (m : DnsMessage) : DnsMessage :=
  { m with
    questions := m.questions.map (DnsQuestion.mapNames f)
    answers := m.answers.map (DnsRecord.mapNames f)
    authorities := m.authorities.map (DnsRecord.mapNames f)
    additionals := m.additionals.map (DnsRecord.mapNames f) }

def DnsMessage.records (m : DnsMessage) : List DnsRecord :=
  m.answers ++ m.authorities ++ m.additionals

def DnsMessage.names (m : DnsMessage) : List Text :=
  m.questions.map (·.name) ++ m.records.flatMap fun r => r.name :: r.rdata.names

def DnsMessage.Same (m m' : DnsMessage) : Prop :=
  ∃ f : Text → Text, m' = m.mapNames f ∧ ∀ n ∈ m.names, labelsOf (f n) = labelsOf n

def RData.type : RData → Nat
  | .a .. => RRType.A.code
  | .aaaa .. => RRType.AAAA.code
  | .ns .. => RRType.NS.code
  | .cname .. => RRType.CNAME.code
  | .ptr .. => RRType.PTR.code
  | .mx .. => RRType.MX.code
  | .txt .. => RRType.TXT.code
  | .soa .. => RRType.SOA.code
  | .ds .. => RRType.DS.code
  | .dnskey .. => RRType.DNSKEY.code
  | .rrsig .. => RRType.RRSIG.code
  | .tlsa .. => RRType.TLSA.code
  | .unknown type _ => type

def RData.Encoded : RData → Prop
  | .ds .. | .dnskey .. | .rrsig .. | .tlsa .. => False
  | _ => True

/-- Numbers fit their fields, addresses are written as the decoder writes them, and the text
of a TXT record is that of its strings. -/
def RData.Fits : RData → Prop
  | .a s => ∃ b : Bytes, b.length = 4 ∧ s = formatIpv4 b
  | .aaaa s => ∃ b : Bytes, b.length = 16 ∧ s = formatIpv6 b
  | .mx preference _ => preference < 2 ^ 16
  | .txt text chunks => text = chunks.flatten ∧
      (∀ chunk ∈ chunks, (utf8Encode chunk).length ≤ 255 ∧ chunk.head? ≠ some byteOrderMark) ∧
      (chunks.map fun chunk => 1 + (utf8Encode chunk).length).sum < 2 ^ 16
  | .soa _ _ serial refresh retry expire minimum =>
    serial < 2 ^ 32 ∧ refresh < 2 ^ 32 ∧ retry < 2 ^ 32 ∧ expire < 2 ^ 32 ∧ minimum < 2 ^ 32
  | .unknown type data => RRType.ofCode type = none ∧ data.length < 2 ^ 16
  | _ => True

structure DnsRecord.Fits (r : DnsRecord) : Prop where
  kind : r.type = r.rdata.type
  type : r.type < 2 ^ 16
  cls : r.cls < 2 ^ 16
  ttl : r.ttl < 2 ^ 32
  rdata : r.rdata.Fits

structure DnsMessage.Fits (m : DnsMessage) : Prop where
  id : m.header.id < 2 ^ 16
  opcode : m.header.opcode < 16
  rcode : m.header.rcode < 16
  names : ∀ n ∈ m.names, NameFits n
  questions : ∀ q ∈ m.questions, q.type < 2 ^ 16 ∧ q.cls < 2 ^ 16
  records : ∀ r ∈ m.records, r.Fits
  questionCount : m.questions.length < 2 ^ 16
  answerCount : m.answers.length < 2 ^ 16
  authorityCount : m.authorities.length < 2 ^ 16
  additionalCount : m.additionals.length < 2 ^ 16

theorem bigEndian_u8 (h : n < 2 ^ 8) : ByteReader.bigEndian (ByteWriter.u8 n) = n := by
  have hmask : n &&& 0xff = n := by
    rw [show (0xff : Nat) = 2 ^ 8 - 1 from rfl, Nat.and_two_pow_sub_one_eq_mod, Nat.mod_eq_of_lt h]
  simp only [ByteReader.bigEndian, ByteWriter.u8, List.foldl_cons, List.foldl_nil, hmask]
  rw [toNat_ofNat_byte h]
  omega

theorem toNat_byte (n k : Nat) :
    (UInt8.ofNat ((n >>> k) &&& 0xff)).toNat = n / 2 ^ k % 256 := by
  rw [show (0xff : Nat) = 2 ^ 8 - 1 from rfl, Nat.and_two_pow_sub_one_eq_mod,
    Nat.shiftRight_eq_div_pow, toNat_ofNat_byte (Nat.mod_lt _ (by decide))]

theorem bigEndian_u16 (h : n < 2 ^ 16) : ByteReader.bigEndian (ByteWriter.u16 n) = n := by
  have hlow := toNat_byte n 0
  rw [Nat.shiftRight_zero] at hlow
  simp only [ByteReader.bigEndian, ByteWriter.u16, List.foldl_cons, List.foldl_nil, toNat_byte, hlow]
  omega

theorem bigEndian_u32 (h : n < 2 ^ 32) : ByteReader.bigEndian (ByteWriter.u32 n) = n := by
  have hlow := toNat_byte n 0
  rw [Nat.shiftRight_zero] at hlow
  simp only [ByteReader.bigEndian, ByteWriter.u32, List.foldl_cons, List.foldl_nil, toNat_byte, hlow]
  omega

theorem reads_uint {pre code : Bytes} {width n : Nat} (hwidth : width = code.length)
    (hvalue : ByteReader.bigEndian code = n) :
    Parser.Reads pre (ByteReader.uint width) code (· = n) := by
  refine (Parser.Reads.take hwidth).last ?_
  rintro _ rfl
  exact Parser.Reads.pure hvalue

theorem reads_u8 (h : n < 2 ^ 8) :
    Parser.Reads pre ByteReader.u8 (ByteWriter.u8 n) (· = n) :=
  reads_uint rfl (bigEndian_u8 h)

theorem reads_u16 (h : n < 2 ^ 16) :
    Parser.Reads pre ByteReader.u16 (ByteWriter.u16 n) (· = n) :=
  reads_uint rfl (bigEndian_u16 h)

theorem reads_u32 (h : n < 2 ^ 32) :
    Parser.Reads pre ByteReader.u32 (ByteWriter.u32 n) (· = n) :=
  reads_uint rfl (bigEndian_u32 h)

theorem join_labelsOf (n : Text) : join ['.'] (labelsOf n) = ByteWriter.trimDot n := by
  unfold labelsOf
  split_ifs with hroot
  · rw [hroot]
    rfl
  · exact List.intercalate_splitOn '.'

theorem labelsOf_trimDot {n : Text} (h : NameFits n) :
    labelsOf (ByteWriter.trimDot n) = labelsOf n := by
  have hlast : (ByteWriter.trimDot n).getLast? ≠ some '.' := by
    intro hdot
    obtain ⟨front, hfront⟩ := List.getLast?_eq_some_iff.mp hdot
    have hempty : [] ∈ labelsOf n := by
      unfold labelsOf
      rw [hfront, if_neg (by simp), List.splitOn_append_cons_self]
      simp
    exact (h.label [] hempty).1 rfl
  have htrim : ByteWriter.trimDot (ByteWriter.trimDot n) = ByteWriter.trimDot n := if_neg hlast
  unfold labelsOf
  rw [htrim]

def labelCode (l : Text) : Bytes := ByteWriter.u8 (utf8Encode l).length ++ utf8Encode l

def nameCode (n : Text) : Bytes := (labelsOf n).flatMap labelCode ++ [0]

theorem utf8EncodeChar_length_pos (c : Char) : 0 < (String.utf8EncodeChar c).length := by
  rw [String.length_utf8EncodeChar]
  exact Char.utf8Size_pos c

theorem utf8Encode_length_pos {l : Text} (h : l ≠ []) : 0 < (utf8Encode l).length := by
  cases l with
  | nil => exact absurd rfl h
  | cons c cs =>
    have hc := utf8EncodeChar_length_pos c
    simp only [utf8Encode, List.flatMap_cons, List.length_append]
    omega

theorem label_eq {n l : Text} (h : NameFits n) (hl : l ∈ labelsOf n) :
    ByteWriter.label n l = .ok (labelCode l) := by
  obtain ⟨hne, hlen, -⟩ := h.label l hl
  have hpos := utf8Encode_length_pos hne
  unfold ByteWriter.label labelCode
  rw [if_neg (by omega), if_neg (by omega)]

theorem mapM_ok {α β ε : Type} {f : α → Except ε β} {g : α → β} {xs : List α}
    (h : ∀ x ∈ xs, f x = .ok (g x)) : xs.mapM f = .ok (xs.map g) := by
  induction xs with
  | nil => rfl
  | cons x xs ih =>
    rw [List.mapM_cons, h x (List.mem_cons_self ..), ih fun y hy => h y (List.mem_cons_of_mem x hy)]
    rfl

theorem name_eq {n : Text} (h : NameFits n) : ByteWriter.name n = .ok (nameCode n) := by
  unfold ByteWriter.name nameCode
  split_ifs with hroot
  · rw [labelsOf, if_pos hroot]
    rfl
  · have hlabels : labelsOf n = (ByteWriter.trimDot n).splitOn '.' := if_neg hroot
    rw [← hlabels, mapM_ok fun l hl => label_eq h hl]
    rfl

theorem and_c0 : ∀ len < 64, len &&& 0xc0 = 0 := by decide

theorem nameLoop_label {pre code post : Bytes} {steps len : Nat} {acc : List Text} (hpos : 0 < len)
    (hlen : len ≤ 63) (hcode : code.length = len) :
    ByteReader.nameLoop (pre ++ ByteWriter.u8 len ++ code ++ post) (steps + 1) pre.length none acc =
      ByteReader.nameLoop (pre ++ ByteWriter.u8 len ++ code ++ post) steps
        (pre ++ ByteWriter.u8 len ++ code).length none (acc ++ [utf8Decode code]) := by
  have hbyte : (pre ++ ByteWriter.u8 len ++ code ++ post)[pre.length]? = some (UInt8.ofNat len) := by
    have hmask : len &&& 0xff = len := by
      rw [show (0xff : Nat) = 2 ^ 8 - 1 from rfl, Nat.and_two_pow_sub_one_eq_mod,
        Nat.mod_eq_of_lt (by omega)]
    simp [ByteWriter.u8, hmask]
  have hvalue : (UInt8.ofNat len).toNat = len := toNat_ofNat_byte (by omega)
  have hzero := and_c0 len (by omega)
  rw [ByteReader.nameLoop, hbyte]
  simp only [hvalue]
  rw [if_neg (by omega), if_neg (by omega), if_neg (by omega), if_neg]
  · congr 2
    · simp [ByteWriter.u8, hcode]
      omega
    · simp [ByteWriter.u8, hcode]
  · simp [ByteWriter.u8, hcode]
    omega

theorem nameLoop_labels {ls : List Text} {pre post : Bytes} {steps : Nat} {acc : List Text}
    (hls : ∀ l ∈ ls, l ≠ [] ∧ (utf8Encode l).length ≤ 63 ∧ l.head? ≠ some byteOrderMark)
    (hsteps : ls.length < steps) :
    ByteReader.nameLoop (pre ++ ls.flatMap labelCode ++ [0] ++ post) steps pre.length none acc =
      .ok (acc ++ ls, (pre ++ ls.flatMap labelCode ++ [0]).length) := by
  induction ls generalizing pre steps acc with
  | nil =>
    obtain ⟨steps, rfl⟩ : ∃ k, steps = k + 1 := ⟨steps - 1, by simp at hsteps; omega⟩
    simp [ByteReader.nameLoop]
  | cons l ls ih =>
    obtain ⟨steps, rfl⟩ : ∃ k, steps = k + 1 := ⟨steps - 1, by simp at hsteps; omega⟩
    obtain ⟨hne, hlen, hmark⟩ := hls l (List.mem_cons_self ..)
    have hstep := @nameLoop_label pre (utf8Encode l) (ls.flatMap labelCode ++ [0] ++ post) steps
      (utf8Encode l).length acc (utf8Encode_length_pos hne) hlen rfl
    rw [utf8Decode_encode hmark] at hstep
    have hrest := @ih (pre ++ labelCode l) steps (acc ++ [l])
      (fun l' hl' => hls l' (List.mem_cons_of_mem l hl')) (by simp at hsteps; omega)
    simp only [List.flatMap_cons, labelCode, List.append_assoc, List.cons_append,
      List.nil_append] at hstep hrest ⊢
    rw [hstep, hrest]

theorem reads_name {n : Text} (h : NameFits n) :
    Parser.Reads pre ByteReader.name (nameCode n) (· = ByteWriter.trimDot n) := by
  intro post c hc
  have hloop := @nameLoop_labels (labelsOf n) pre post (ByteReader.maxNameSteps + 1) []
    h.label (Nat.lt_succ_of_le h.count)
  refine ⟨join ['.'] (labelsOf n),
    ⟨(pre ++ nameCode n).length, c.taken ++ [(c.offset, (pre ++ nameCode n).length)]⟩, ?_,
    join_labelsOf n, ?_⟩
  · unfold ByteReader.name
    rw [hc]
    simp only [nameCode, List.append_assoc] at hloop ⊢
    rw [hloop]
    rfl
  · simp

def chunkCode (chunk : Text) : Bytes := ByteWriter.u8 (utf8Encode chunk).length ++ utf8Encode chunk

def rdataCode : RData → Bytes
  | .a s => (parseIpv4 s).getD []
  | .aaaa s => (parseIpv6 s).getD []
  | .ns target | .cname target | .ptr target => nameCode target
  | .mx preference exchange => ByteWriter.u16 preference ++ nameCode exchange
  | .txt _ chunks => chunks.flatMap chunkCode
  | .soa mname rname serial refresh retry expire minimum =>
    nameCode mname ++ (nameCode rname ++ (ByteWriter.u32 serial ++ (ByteWriter.u32 refresh ++
      (ByteWriter.u32 retry ++ (ByteWriter.u32 expire ++ ByteWriter.u32 minimum)))))
  | .unknown _ data => data
  | .ds .. | .dnskey .. | .rrsig .. | .tlsa .. => []

variable {rd : RData}

theorem encodeRdata_eq (henc : rd.Encoded) (hfits : rd.Fits) (hnames : ∀ n ∈ rd.names, NameFits n) :
    encodeRdata rd = .ok (ByteWriter.sized (rdataCode rd)) := by
  cases rd with
  | a s =>
    obtain ⟨b, hb, rfl⟩ := hfits
    simp only [encodeRdata, address, rdataCode, parseIpv4_format hb]
    rfl
  | aaaa s =>
    obtain ⟨b, hb, rfl⟩ := hfits
    simp only [encodeRdata, address, rdataCode, parseIpv6_format hb]
    rfl
  | ns n | cname n | ptr n =>
    simp only [encodeRdata, name_eq (hnames n (by simp [RData.names]))]
    rfl
  | mx preference n =>
    simp only [encodeRdata, name_eq (hnames n (by simp [RData.names]))]
    rfl
  | txt text chunks =>
    have hchunks : chunks.mapM encodeChunk = .ok (chunks.map chunkCode) := by
      refine mapM_ok fun chunk hchunk => ?_
      have hlen := (hfits.2.1 chunk hchunk).1
      unfold encodeChunk chunkCode
      rw [if_neg (by omega)]
    simp only [encodeRdata, hchunks]
    rfl
  | soa mname rname serial refresh retry expire minimum =>
    simp only [encodeRdata, name_eq (hnames mname (by simp [RData.names])),
      name_eq (hnames rname (by simp [RData.names])), rdataCode]
    change Except.ok _ = _
    simp only [List.append_assoc]
  | unknown type data => rfl
  | ds | dnskey | rrsig | tlsa => exact absurd henc id

theorem reads_seek {code : Bytes} {stop : Nat} {a : RData} (h : stop = pre.length + code.length) :
    Parser.Reads (pre ++ code) (do
      Parser.seek stop
      return a : DnsParser RData) [] (· = a) := by
  refine (Parser.Reads.seek (by rw [h, List.length_append])).last fun _ _ => ?_
  exact Parser.Reads.pure rfl

theorem reads_target {kind : Text → RData} {n : Text} {stop : Nat} (h : NameFits n)
    (hstop : stop = pre.length + (nameCode n).length) :
    Parser.Reads pre (decodeTarget kind stop) (nameCode n) (· = kind (ByteWriter.trimDot n)) := by
  refine (reads_name h).last ?_
  rintro _ rfl
  exact reads_seek hstop

theorem chunkCode_length (chunk : Text) :
    (chunkCode chunk).length = 1 + (utf8Encode chunk).length := by
  rw [chunkCode, List.length_append]
  rfl

theorem reads_chunks {chunks : List Text} {fuel stop : Nat}
    (hfits : ∀ chunk ∈ chunks, (utf8Encode chunk).length ≤ 255 ∧
      chunk.head? ≠ some byteOrderMark)
    (hfuel : chunks.length ≤ fuel)
    (hstop : stop = pre.length + (chunks.flatMap chunkCode).length) :
    Parser.Reads pre (txtChunks fuel stop) (chunks.flatMap chunkCode) (· = chunks) := by
  induction fuel generalizing chunks pre with
  | zero =>
    have hnil : chunks = [] := List.eq_nil_of_length_eq_zero (by omega)
    subst hnil
    exact Parser.Reads.pure rfl
  | succ fuel ih =>
    refine Parser.Reads.offset.first ?_
    cases chunks with
    | nil =>
      rw [if_neg (by simp [hstop])]
      exact Parser.Reads.pure rfl
    | cons chunk chunks =>
      obtain ⟨hlen, hmark⟩ := hfits chunk (List.mem_cons_self ..)
      have hsize := chunkCode_length chunk
      rw [List.flatMap_cons] at hstop ⊢
      rw [List.length_append] at hstop
      rw [if_pos (by omega), chunkCode, List.append_assoc]
      refine (reads_u8 (by omega)).next ?_
      refine (Parser.Reads.take rfl).next ?_
      have hrest := @ih (pre ++ chunkCode chunk) chunks
        (fun chunk' h => hfits chunk' (List.mem_cons_of_mem chunk h))
        (by simp only [List.length_cons] at hfuel; omega)
        (by rw [List.length_append]; omega)
      rw [chunkCode, ← List.append_assoc] at hrest
      refine hrest.last ?_
      rintro _ rfl
      rw [utf8Decode_encode hmark]
      exact Parser.Reads.pure rfl

theorem length_le_chunks (chunks : List Text) :
    chunks.length ≤ (chunks.flatMap chunkCode).length := by
  induction chunks with
  | nil => simp
  | cons chunk chunks ih =>
    have hsize := chunkCode_length chunk
    simp only [List.flatMap_cons, List.length_append, List.length_cons]
    omega

theorem reads_rdata (henc : rd.Encoded) (hfits : rd.Fits) (hnames : ∀ n ∈ rd.names, NameFits n) :
    Parser.Reads pre (decodeRdata rd.type (rdataCode rd).length) (rdataCode rd)
      (· = rd.mapNames ByteWriter.trimDot) := by
  refine Parser.Reads.offset.first ?_
  cases rd with
  | a s =>
    obtain ⟨b, hb, rfl⟩ := hfits
    simp only [rdataCode, parseIpv4_format hb, Option.getD_some]
    refine (Parser.Reads.take rfl).last ?_
    rintro _ rfl
    rw [if_neg (by simp [hb])]
    exact Parser.Reads.pure rfl
  | aaaa s =>
    obtain ⟨b, hb, rfl⟩ := hfits
    simp only [rdataCode, parseIpv6_format hb, Option.getD_some]
    refine (Parser.Reads.take rfl).last ?_
    rintro _ rfl
    rw [if_neg (by simp [hb])]
    exact Parser.Reads.pure rfl
  | ns n | cname n | ptr n => exact reads_target (hnames n (by simp [RData.names])) rfl
  | mx preference n =>
    refine (reads_u16 hfits).next ?_
    refine (reads_name (hnames n (by simp [RData.names]))).last ?_
    rintro _ rfl
    rw [List.append_assoc]
    exact reads_seek rfl
  | txt text chunks =>
    obtain ⟨rfl, hchunks, -⟩ := hfits
    refine (reads_chunks hchunks (length_le_chunks chunks) rfl).last ?_
    rintro _ rfl
    exact reads_seek rfl
  | soa mname rname serial refresh retry expire minimum =>
    obtain ⟨hserial, hrefresh, hretry, hexpire, hminimum⟩ := hfits
    refine (reads_name (hnames mname (by simp [RData.names]))).next ?_
    refine (reads_name (hnames rname (by simp [RData.names]))).next ?_
    refine (reads_u32 hserial).next ?_
    refine (reads_u32 hrefresh).next ?_
    refine (reads_u32 hretry).next ?_
    refine (reads_u32 hexpire).next ?_
    refine (reads_u32 hminimum).last ?_
    rintro _ rfl
    simp only [List.append_assoc]
    exact reads_seek rfl
  | unknown type data =>
    simp only [RData.type, hfits.1]
    refine (Parser.Reads.take rfl).last ?_
    rintro _ rfl
    exact Parser.Reads.pure rfl
  | ds | dnskey | rrsig | tlsa => exact absurd henc id

theorem labelCodes_length {ls : List Text} (h : ∀ l ∈ ls, (utf8Encode l).length ≤ 63) :
    (ls.flatMap labelCode).length ≤ 64 * ls.length := by
  induction ls with
  | nil => simp
  | cons l ls ih =>
    have hl := h l (List.mem_cons_self ..)
    have hls := ih fun l' h' => h l' (List.mem_cons_of_mem l h')
    have hsize : (labelCode l).length = 1 + (utf8Encode l).length := by
      rw [labelCode, List.length_append]
      rfl
    simp only [List.flatMap_cons, List.length_append, List.length_cons]
    omega

theorem nameCode_length {n : Text} (h : NameFits n) : (nameCode n).length ≤ 64 * 128 + 1 := by
  have hlabels := labelCodes_length fun l hl => (h.label l hl).2.1
  have hcount : (labelsOf n).length ≤ 128 := h.count
  simp only [nameCode, List.length_append, List.length_singleton]
  omega

theorem rdataCode_length (hfits : rd.Fits) (hnames : ∀ n ∈ rd.names, NameFits n) :
    (rdataCode rd).length < 2 ^ 16 := by
  cases rd with
  | a s =>
    obtain ⟨b, hb, rfl⟩ := hfits
    simp [rdataCode, parseIpv4_format hb, hb]
  | aaaa s =>
    obtain ⟨b, hb, rfl⟩ := hfits
    simp [rdataCode, parseIpv6_format hb, hb]
  | ns n | cname n | ptr n =>
    have hn := nameCode_length (hnames n (by simp [RData.names]))
    simp only [rdataCode]
    omega
  | mx preference n =>
    have hn := nameCode_length (hnames n (by simp [RData.names]))
    simp only [rdataCode, ByteWriter.u16, List.length_append, List.length_cons, List.length_nil]
    omega
  | txt text chunks =>
    have hsum := hfits.2.2
    simp only [rdataCode, List.length_flatMap, chunkCode_length]
    exact hsum
  | soa mname rname serial refresh retry expire minimum =>
    have hm := nameCode_length (hnames mname (by simp [RData.names]))
    have hr := nameCode_length (hnames rname (by simp [RData.names]))
    simp only [rdataCode, ByteWriter.u32, List.length_append, List.length_cons, List.length_nil]
    omega
  | unknown type data => exact hfits.2
  | ds | dnskey | rrsig | tlsa => exact Nat.two_pow_pos 16

def recordCode (r : DnsRecord) : Bytes :=
  nameCode r.name ++ (ByteWriter.u16 r.type ++ (ByteWriter.u16 r.cls ++ (ByteWriter.u32 r.ttl ++
    (ByteWriter.u16 (rdataCode r.rdata).length ++ rdataCode r.rdata))))

def questionCode (q : DnsQuestion) : Bytes :=
  nameCode q.name ++ (ByteWriter.u16 q.type ++ ByteWriter.u16 q.cls)

section Record

variable {r : DnsRecord} (hfits : r.Fits) (henc : r.rdata.Encoded)
  (hnames : ∀ n ∈ r.name :: r.rdata.names, NameFits n)

include hfits henc hnames

theorem encodeRecord_eq : encodeRecord r = .ok (recordCode r) := by
  have hname := name_eq (hnames r.name (List.mem_cons_self ..))
  have hrdata := encodeRdata_eq henc hfits.rdata fun n hn => hnames n (List.mem_cons_of_mem _ hn)
  unfold encodeRecord
  rw [hname, hrdata]
  change Except.ok _ = _
  simp only [recordCode, ByteWriter.sized, List.append_assoc]

theorem reads_record :
    Parser.Reads pre decodeRecord (recordCode r) (·.1 = r.mapNames ByteWriter.trimDot) := by
  have hrest : ∀ n ∈ r.rdata.names, NameFits n := fun n hn => hnames n (List.mem_cons_of_mem _ hn)
  refine (reads_name (hnames r.name (List.mem_cons_self ..))).next ?_
  refine (reads_u16 hfits.type).next ?_
  refine (reads_u16 hfits.cls).next ?_
  refine (reads_u32 hfits.ttl).next ?_
  refine (reads_u16 (rdataCode_length hfits.rdata hrest)).next ?_
  refine Parser.Reads.offset.first ?_
  have hrdata := @reads_rdata (pre ++ nameCode r.name ++ ByteWriter.u16 r.type ++
    ByteWriter.u16 r.cls ++ ByteWriter.u32 r.ttl ++ ByteWriter.u16 (rdataCode r.rdata).length)
    r.rdata henc hfits.rdata hrest
  rw [← hfits.kind] at hrdata
  refine hrdata.logged.last fun q hq => ?_
  refine Parser.Reads.offset.first ?_
  apply Parser.Reads.pure
  rw [hq]
  rfl

end Record

theorem encodeQuestion_eq (h : NameFits q.name) :
    encodeQuestion q = .ok (questionCode q) := by
  unfold encodeQuestion
  rw [name_eq h]
  change Except.ok _ = _
  simp only [questionCode, List.append_assoc]

theorem reads_question (h : NameFits q.name)
    (hfits : q.type < 2 ^ 16 ∧ q.cls < 2 ^ 16) :
    Parser.Reads pre decodeQuestion (questionCode q) (· = q.mapNames ByteWriter.trimDot) := by
  refine (reads_name h).next ?_
  refine (reads_u16 hfits.1).next ?_
  refine (reads_u16 hfits.2).last ?_
  rintro _ rfl
  exact Parser.Reads.pure rfl

theorem opcode_bits : ∀ n < 16, (n &&& 0x0f) <<< 11 < 2 ^ 16 ∧
    (n &&& 0x0f) <<< 11 &&& 0x8000 = 0 ∧ (n &&& 0x0f) <<< 11 &&& 0x0400 = 0 ∧
    (n &&& 0x0f) <<< 11 &&& 0x0200 = 0 ∧ (n &&& 0x0f) <<< 11 &&& 0x0100 = 0 ∧
    (n &&& 0x0f) <<< 11 &&& 0x0080 = 0 ∧ (n &&& 0x0f) <<< 11 &&& 0x0f = 0 ∧
    (n &&& 0x0f) <<< 11 >>> 11 &&& 0x0f = n := by decide

theorem rcode_bits : ∀ n < 16, n &&& 0x0f < 2 ^ 16 ∧ n &&& 0x0f &&& 0x8000 = 0 ∧
    n &&& 0x0f &&& 0x0400 = 0 ∧ n &&& 0x0f &&& 0x0200 = 0 ∧ n &&& 0x0f &&& 0x0100 = 0 ∧
    n &&& 0x0f &&& 0x0080 = 0 ∧ (n &&& 0x0f) >>> 11 &&& 0x0f = 0 ∧ n &&& 0x0f &&& 0x0f = n := by
  decide

theorem flag_lt (b : Bool) (h : n < 2 ^ 16) : (if b then n else 0) < 2 ^ 16 := by
  cases b
  · exact Nat.two_pow_pos 16
  · exact h

theorem headerFlags_lt (hopcode : h.opcode < 16) (hrcode : h.rcode < 16) :
    headerFlags h < 2 ^ 16 := by
  unfold headerFlags
  repeat' apply Nat.or_lt_two_pow
  · exact flag_lt _ (by decide)
  · exact (opcode_bits h.opcode hopcode).1
  · exact flag_lt _ (by decide)
  · exact flag_lt _ (by decide)
  · exact flag_lt _ (by decide)
  · exact flag_lt _ (by decide)
  · exact (rcode_bits h.rcode hrcode).1

theorem decodeHeader_headerFlags (hopcode : h.opcode < 16) (hrcode : h.rcode < 16) :
    decodeHeader h.id (headerFlags h) = h := by
  obtain ⟨id, qr, opcode, aa, tc, rd, ra, rcode⟩ := h
  obtain ⟨-, ho1, ho2, ho3, ho4, ho5, ho6, ho7⟩ := opcode_bits opcode hopcode
  obtain ⟨-, hr1, hr2, hr3, hr4, hr5, hr6, hr7⟩ := rcode_bits rcode hrcode
  -- each field of the header is a mask of the seven parts, and all but one of them vanish
  simp only [headerFlags, decodeHeader, Nat.and_or_distrib_right, Nat.shiftRight_or_distrib,
    ho1, ho2, ho3, ho4, ho5, ho6, ho7, hr1, hr2, hr3, hr4, hr5, hr6, hr7]
  cases qr <;> cases aa <;> cases tc <;> cases rd <;> cases ra <;> simp

theorem decodeHeader_flags (hopcode : h.opcode < 16) (hrcode : h.rcode < 16) :
    headerFlags h < 2 ^ 16 ∧ decodeHeader h.id (headerFlags h) = h :=
  ⟨headerFlags_lt hopcode hrcode, decodeHeader_headerFlags hopcode hrcode⟩

theorem reads_section {rs : List DnsRecord} (hfits : ∀ r ∈ rs, r.Fits)
    (henc : ∀ r ∈ rs, r.rdata.Encoded) (hnames : ∀ r ∈ rs, ∀ n ∈ r.name :: r.rdata.names, NameFits n) :
    rs.mapM encodeRecord = .ok (rs.map recordCode) ∧
      Parser.Reads pre (decodeRecord.times rs.length) (rs.map recordCode).flatten
        (fun out => out.map (·.1) = rs.map (DnsRecord.mapNames ByteWriter.trimDot)) := by
  constructor
  · exact mapM_ok fun r hr => encodeRecord_eq (hfits r hr) (henc r hr) (hnames r hr)
  · have hall : List.Forall₂ (fun (r : DnsRecord) code => ∀ pre, Parser.Reads pre decodeRecord code
        (·.1 = r.mapNames ByteWriter.trimDot)) rs (rs.map recordCode) := by
      rw [List.forall₂_map_right_iff, List.forall₂_same]
      intro r hr pre
      exact reads_record (hfits r hr) (henc r hr) (hnames r hr)
    refine (Parser.Reads.times hall).mono fun out hout => ?_
    rw [eq_comm, ← List.forall₂_eq_eq_eq]
    rw [List.forall₂_map_left_iff, List.forall₂_map_right_iff]
    exact hout.imp fun _ _ h => h.symm

theorem reads_questions {qs : List DnsQuestion} (hfits : ∀ q ∈ qs, q.type < 2 ^ 16 ∧ q.cls < 2 ^ 16)
    (hnames : ∀ q ∈ qs, NameFits q.name) :
    qs.mapM encodeQuestion = .ok (qs.map questionCode) ∧
      Parser.Reads pre (decodeQuestion.times qs.length) (qs.map questionCode).flatten
        (· = qs.map (DnsQuestion.mapNames ByteWriter.trimDot)) := by
  constructor
  · exact mapM_ok fun q hq => encodeQuestion_eq (hnames q hq)
  · have hall : List.Forall₂ (fun (q : DnsQuestion) code => ∀ pre, Parser.Reads pre decodeQuestion
        code (· = q.mapNames ByteWriter.trimDot)) qs (qs.map questionCode) := by
      rw [List.forall₂_map_right_iff, List.forall₂_same]
      intro q hq pre
      exact reads_question (hnames q hq) (hfits q hq)
    refine (Parser.Reads.times hall).mono fun out hout => ?_
    rw [eq_comm, ← List.forall₂_eq_eq_eq, List.forall₂_map_left_iff]
    exact hout.imp fun _ _ h => h.symm

def messageCode (m : DnsMessage) : Bytes :=
  ByteWriter.u16 m.header.id ++ (ByteWriter.u16 (headerFlags m.header) ++
    (ByteWriter.u16 m.questions.length ++ (ByteWriter.u16 m.answers.length ++
      (ByteWriter.u16 m.authorities.length ++ (ByteWriter.u16 m.additionals.length ++
        ((m.questions.map questionCode).flatten ++ ((m.answers.map recordCode).flatten ++
          ((m.authorities.map recordCode).flatten ++ (m.additionals.map recordCode).flatten))))))))

section Message

variable {m : DnsMessage} (hfits : m.Fits)

include hfits

theorem DnsMessage.Fits.questionName (hq : q ∈ m.questions) : NameFits q.name := by
  apply hfits.names
  exact List.mem_append_left _ (List.mem_map_of_mem hq)

theorem DnsMessage.Fits.recordName {r : DnsRecord} (hr : r ∈ m.records) {n : Text}
    (hn : n ∈ r.name :: r.rdata.names) : NameFits n := by
  apply hfits.names
  exact List.mem_append_right _ (List.mem_flatMap.mpr ⟨r, hr, hn⟩)

variable (henc : ∀ r ∈ m.records, r.rdata.Encoded)

include henc

theorem reads_sections {rs : List DnsRecord} (hsub : ∀ r ∈ rs, r ∈ m.records) :
    rs.mapM encodeRecord = .ok (rs.map recordCode) ∧
      Parser.Reads pre (decodeRecord.times rs.length) (rs.map recordCode).flatten
        (fun out => out.map (·.1) = rs.map (DnsRecord.mapNames ByteWriter.trimDot)) :=
  reads_section (fun r hr => hfits.records r (hsub r hr)) (fun r hr => henc r (hsub r hr))
    fun r hr _ hn => hfits.recordName (hsub r hr) hn

theorem encodeMessage_eq : encodeMessage m = .ok (messageCode m) := by
  have hquestions := (@reads_questions [] m.questions hfits.questions
    fun q hq => hfits.questionName hq).1
  have hanswers := (@reads_sections [] m hfits henc m.answers
    fun r hr => by simp [DnsMessage.records, hr]).1
  have hauthorities := (@reads_sections [] m hfits henc m.authorities
    fun r hr => by simp [DnsMessage.records, hr]).1
  have hadditionals := (@reads_sections [] m hfits henc m.additionals
    fun r hr => by simp [DnsMessage.records, hr]).1
  unfold encodeMessage
  rw [hquestions, hanswers, hauthorities, hadditionals]
  change Except.ok _ = _
  simp only [messageCode, List.append_assoc]

theorem reads_message :
    Parser.Reads [] decodeSpans (messageCode m) (·.1 = m.mapNames ByteWriter.trimDot) := by
  obtain ⟨hflags, hheader⟩ := decodeHeader_flags hfits.opcode hfits.rcode
  refine (reads_u16 hfits.id).next ?_
  refine (reads_u16 hflags).next ?_
  refine (reads_u16 hfits.questionCount).next ?_
  refine (reads_u16 hfits.answerCount).next ?_
  refine (reads_u16 hfits.authorityCount).next ?_
  refine (reads_u16 hfits.additionalCount).next ?_
  refine (reads_questions hfits.questions fun q hq => hfits.questionName hq).2.next ?_
  refine (reads_sections hfits henc fun r hr => by simp [DnsMessage.records, hr]).2.bind
    fun answers hanswers => ?_
  refine (reads_sections hfits henc fun r hr => by simp [DnsMessage.records, hr]).2.bind
    fun authorities hauthorities => ?_
  refine (reads_sections hfits henc fun r hr => by simp [DnsMessage.records, hr]).2.last
    fun additionals hadditionals => ?_
  apply Parser.Reads.pure
  simp only [hheader, hanswers, hauthorities, hadditionals]
  rfl

end Message

/-- What the encoder has a case for comes back as it was. -/
theorem message_round_trip (m : DnsMessage) (hfits : m.Fits)
    (henc : ∀ r ∈ m.records, r.rdata.Encoded) :
    ∃ bytes m', encodeMessage m = .ok bytes ∧ decodeMessage bytes = .ok m' ∧ m.Same m' := by
  obtain ⟨r, c, hread, hr, -⟩ := reads_message hfits henc [] ⟨0, []⟩ rfl
  rw [List.nil_append, List.append_nil] at hread
  refine ⟨messageCode m, m.mapNames ByteWriter.trimDot, encodeMessage_eq hfits henc, ?_, ?_⟩
  · simp only [decodeMessage, decodeTraced, hread, hr]
  · exact ⟨ByteWriter.trimDot, rfl, fun n hn => labelsOf_trimDot (hfits.names n hn)⟩

local instance : Coe String Text := ⟨String.toList⟩

def mailAnswer : DnsMessage :=
  { header := ⟨7, true, 0, true, false, true, false, 0⟩
    questions := [⟨"a.kr.", 15, 1⟩]
    answers := [⟨"a.kr.", 15, 1, 300, .mx 10 "mx.a.kr"⟩]
    authorities := [⟨"kr", 6, 1, 60, .soa "n.kr" "h.kr" 1 2 3 4 5⟩]
    additionals := [⟨"mx.a.kr", 1, 1, 300, .a (formatIpv4 [192, 0, 2, 1])⟩,
      ⟨"a.kr", 16, 1, 300, .txt "v=spf1 -all" ["v=spf1", " -all"]⟩,
      ⟨"", 41, 1232, 0, .unknown 41 []⟩] }

theorem nameFits_iff (n : Text) :
    NameFits n ↔ (∀ l ∈ labelsOf n, l ≠ [] ∧ (utf8Encode l).length ≤ 63 ∧
      l.head? ≠ some byteOrderMark) ∧ (labelsOf n).length ≤ ByteReader.maxNameSteps :=
  ⟨fun h => ⟨h.label, h.count⟩, fun h => ⟨h.1, h.2⟩⟩

instance (n : Text) : Decidable (NameFits n) := decidable_of_iff _ (nameFits_iff n).symm

theorem mailAnswer_fits : mailAnswer.Fits where
  id := by decide
  opcode := by decide
  rcode := by decide
  names := by decide +kernel
  questions := by decide
  records := by
    intro r hr
    simp only [DnsMessage.records, mailAnswer, List.cons_append, List.nil_append, List.mem_cons,
      List.not_mem_nil, or_false] at hr
    obtain rfl | rfl | rfl | rfl | rfl := hr
    · exact ⟨rfl, by decide, by decide, by decide, by simp [RData.Fits]⟩
    · exact ⟨rfl, by decide, by decide, by decide, by simp [RData.Fits]⟩
    · exact ⟨rfl, by decide, by decide, by decide, [192, 0, 2, 1], rfl, rfl⟩
    · exact ⟨rfl, by decide, by decide, by decide, by simp only [RData.Fits]; decide +kernel⟩
    · exact ⟨rfl, by decide, by decide, by decide, rfl, by decide⟩
  questionCount := by decide
  answerCount := by decide
  authorityCount := by decide
  additionalCount := by decide

theorem message_round_trip_mail :
    ∃ bytes m', encodeMessage mailAnswer = .ok bytes ∧ decodeMessage bytes = .ok m' ∧
      mailAnswer.Same m' := by
  refine message_round_trip mailAnswer mailAnswer_fits ?_
  intro r hr
  simp only [DnsMessage.records, mailAnswer, List.cons_append, List.nil_append, List.mem_cons,
    List.not_mem_nil, or_false] at hr
  obtain rfl | rfl | rfl | rfl | rfl := hr <;> trivial

def certificateAnswer : DnsMessage :=
  { header := ⟨7, true, 0, true, false, true, false, 0⟩
    questions := []
    answers := [⟨"_25._tcp.a.kr", 52, 1, 300, .tlsa 3 1 1 [7]⟩]
    authorities := []
    additionals := [] }

theorem certificateAnswer_fits : certificateAnswer.Fits where
  id := by decide
  opcode := by decide
  rcode := by decide
  names := by decide +kernel
  questions := by decide
  records := by
    intro r hr
    obtain rfl := List.mem_singleton.mp hr
    exact ⟨rfl, by decide, by decide, by decide, trivial⟩
  questionCount := by decide
  answerCount := by decide
  authorityCount := by decide
  additionalCount := by decide

theorem message_round_trip_fails :
    ¬ ∀ m : DnsMessage, m.Fits →
      ∃ bytes m', encodeMessage m = .ok bytes ∧ decodeMessage bytes = .ok m' ∧ m.Same m' := by
  intro hall
  obtain ⟨bytes, m', hbytes, hdecoded, -⟩ := hall certificateAnswer certificateAnswer_fits
  have hshort : ((encodeMessage certificateAnswer).bind decodeMessage).isOk = false := by
    decide +kernel
  rw [hbytes] at hshort
  change (decodeMessage bytes).isOk = false at hshort
  rw [hdecoded] at hshort
  cases hshort

end Ionosphere.Dns
