import Ionosphere.Dns.Wire

/-! Which bytes the decoder reads for the RDATA of a record. Names and strings are read with
the whole buffer in view, and only then is the offset put at the end the record gives. -/
namespace Ionosphere.Dns

open Ionosphere.Js Ionosphere.Lib

variable {view : Bytes} {c : Cursor} {fin : Nat} {n : Nat}

def uintAt (view : Bytes) (width pos : Nat) : Nat :=
  ByteReader.bigEndian ((view.drop pos).take width)

/-- The end of a name where it stands: behind its zero, or behind its first pointer. -/
def nameEndGo (view : Bytes) : Nat → Nat → Nat
  | 0, pos => pos
  | steps + 1, pos =>
    match view[pos]? with
    | none => pos
    | some b =>
      if b.toNat = 0 then pos + 1
      else if b.toNat &&& 0xc0 = 0xc0 then pos + 2
      else nameEndGo view steps (pos + 1 + b.toNat)

def nameEnd (view : Bytes) (pos : Nat) : Nat := nameEndGo view (ByteReader.maxNameSteps + 1) pos

/-- The end of the strings that begin before `stop`. -/
def stringsEnd (view : Bytes) : Nat → Nat → Nat → Nat
  | 0, pos, _ => pos
  | fuel + 1, pos, stop =>
    if pos < stop then stringsEnd view fuel (pos + 1 + uintAt view 1 pos) stop else pos

/-- The type of a record, and the place of its RDATA. -/
structure Head where
  type : Nat
  start : Nat
  rdlength : Nat
  deriving DecidableEq

def Head.stop (h : Head) : Nat := h.start + h.rdlength

def headAt (view : Bytes) (pos : Nat) : Head :=
  let p := nameEnd view pos
  ⟨uintAt view 2 p, p + 10, uintAt view 2 (p + 8)⟩

def headsFrom (view : Bytes) : Nat → Nat → List Head
  | 0, _ => []
  | n + 1, pos => headAt view pos :: headsFrom view n (headAt view pos).stop

/-- The position behind `n` records. -/
def headsEnd (view : Bytes) : Nat → Nat → Nat
  | 0, pos => pos
  | n + 1, pos => headsEnd view n (headAt view pos).stop

def questionsEnd (view : Bytes) : Nat → Nat → Nat
  | 0, pos => pos
  | n + 1, pos => questionsEnd view n (nameEnd view pos + 4)

def heads (view : Bytes) : List Head :=
  headsFrom view (uintAt view 2 6 + uintAt view 2 8 + uintAt view 2 10)
    (questionsEnd view (uintAt view 2 4) 12)

/-- The RDATA is long enough for the names, strings and numbers that stand in it, and short
enough for the buffer. The other types are read by their length alone. -/
def Head.Fits (view : Bytes) (h : Head) : Prop :=
  match RRType.ofCode h.type with
  | some .NS | some .CNAME | some .PTR => nameEnd view h.start ≤ h.stop ∧ h.stop ≤ view.length
  | some .MX => nameEnd view (h.start + 2) ≤ h.stop ∧ h.stop ≤ view.length
  | some .SOA => nameEnd view (nameEnd view h.start) + 20 ≤ h.stop ∧ h.stop ≤ view.length
  | some .TXT => stringsEnd view h.rdlength h.start h.stop ≤ h.stop
  | some .RRSIG => nameEnd view (h.start + 18) ≤ h.stop
  | _ => True

def Span.head (sp : Span) : Head := ⟨sp.type, sp.start, sp.rdlength⟩

/-- The RDATA lies in the buffer, all that was read in place lies in it, and decoding goes
on behind it. -/
def Span.Contained (view : Bytes) (sp : Span) : Prop :=
  sp.start + sp.rdlength ≤ view.length ∧
    (∀ r ∈ sp.taken, sp.start ≤ r.1 ∧ r.2 ≤ sp.start + sp.rdlength) ∧
    sp.next = sp.start + sp.rdlength

instance (view : Bytes) (sp : Span) : Decidable (sp.Contained view) := by
  unfold Span.Contained
  infer_instance

/-- The ranges lie between two positions and reach up to the second. -/
structure Covers (start fin : Nat) (taken : List (Nat × Nat)) : Prop where
  le : start ≤ fin
  inside : ∀ r ∈ taken, start ≤ r.1 ∧ r.2 ≤ fin
  last : fin = start ∨ ∃ r ∈ taken, r.2 = fin

theorem Covers.nil (start : Nat) : Covers start start [] := ⟨le_rfl, by simp, .inl rfl⟩

theorem Covers.snoc {start mid fin : Nat} {taken : List (Nat × Nat)} (h : Covers start mid taken)
    (hle : mid ≤ fin) : Covers start fin (taken ++ [(mid, fin)]) := by
  refine ⟨h.le.trans hle, fun r hr => ?_, .inr ⟨(mid, fin), by simp, rfl⟩⟩
  obtain hr | hr := List.mem_append.mp hr
  · exact ⟨(h.inside r hr).1, (h.inside r hr).2.trans hle⟩
  · rw [List.mem_singleton.mp hr]
    exact ⟨h.le, le_rfl⟩

theorem Covers.within_iff {start fin stop : Nat} {taken : List (Nat × Nat)}
    (h : Covers start fin taken) (hstop : start ≤ stop) :
    (∀ r ∈ taken, start ≤ r.1 ∧ r.2 ≤ stop) ↔ fin ≤ stop := by
  constructor
  · intro hall
    obtain hnone | ⟨r, hr, hfin⟩ := h.last
    · rw [hnone]
      exact hstop
    · rw [← hfin]
      exact (hall r hr).2
  · intro hle r hr
    exact ⟨(h.inside r hr).1, (h.inside r hr).2.trans hle⟩

namespace ByteReader

theorem uint_eq_ok {width : Nat} {r : Nat × Cursor}
    (h : uint width view c = .ok r) :
    c.offset + width ≤ view.length ∧
      r = (uintAt view width c.offset,
        ⟨c.offset + width, c.taken ++ [(c.offset, c.offset + width)]⟩) := by
  obtain ⟨b, c', htake, hpure⟩ := Parser.bind_eq_ok.mp h
  obtain ⟨hle, hb⟩ := Parser.take_eq_ok.mp htake
  rw [Parser.pure_eq_ok] at hpure
  cases hb
  exact ⟨hle, hpure⟩

theorem nameLoop_jumped {steps pos next : Nat} {labels : List Text}
    {r : List Text × Nat} (h : nameLoop view steps pos (some next) labels = .ok r) : r.2 = next := by
  induction steps generalizing pos labels with
  | zero => cases h
  | succ steps ih =>
    unfold nameLoop at h
    cases hb : view[pos]? with
    | none => simp [hb] at h
    | some b =>
      simp only [hb, Option.getD_some] at h
      split at h
      · cases h
        rfl
      · split at h
        · split at h
          · cases h
          · exact ih h
        · split at h
          · cases h
          · split at h
            · cases h
            · exact ih h

theorem nameLoop_next {steps pos : Nat} {labels : List Text}
    {r : List Text × Nat} (h : nameLoop view steps pos none labels = .ok r) :
    r.2 = nameEndGo view steps pos ∧ pos ≤ r.2 ∧ r.2 ≤ view.length := by
  induction steps generalizing pos labels with
  | zero => cases h
  | succ steps ih =>
    unfold nameLoop at h
    unfold nameEndGo
    cases hb : view[pos]? with
    | none => simp [hb] at h
    | some b =>
      have hpos : pos < view.length := (List.getElem?_eq_some_iff.mp hb).1
      simp only [hb, Option.getD_none] at h ⊢
      by_cases hzero : b.toNat = 0
      · rw [if_pos hzero] at h ⊢
        cases h
        exact ⟨rfl, Nat.le_succ pos, hpos⟩
      · rw [if_neg hzero] at h ⊢
        by_cases hpointer : b.toNat &&& 0xc0 = 0xc0
        · rw [if_pos hpointer] at h ⊢
          cases hlow : view[pos + 1]? with
          | none => simp [hlow] at h
          | some low =>
            have hpos' : pos + 1 < view.length := (List.getElem?_eq_some_iff.mp hlow).1
            simp only [hlow] at h
            have hnext := nameLoop_jumped h
            exact ⟨hnext, by omega, by omega⟩
        · rw [if_neg hpointer] at h ⊢
          split at h
          · cases h
          · split at h
            · cases h
            · obtain ⟨hnext, hge, hle⟩ := ih h
              exact ⟨hnext, by omega, hle⟩

theorem name_eq_ok {r : Text × Cursor} (h : name view c = .ok r) :
    c.offset ≤ nameEnd view c.offset ∧ nameEnd view c.offset ≤ view.length ∧
      r.2 = ⟨nameEnd view c.offset, c.taken ++ [(c.offset, nameEnd view c.offset)]⟩ := by
  unfold name at h
  cases hloop : nameLoop view (maxNameSteps + 1) c.offset none [] with
  | error e => simp [hloop] at h
  | ok q =>
    obtain ⟨hnext, hge, hle⟩ := nameLoop_next hloop
    simp only [hloop] at h
    cases h
    rw [hnext] at hge hle
    exact ⟨hge, hle, by rw [hnext]; rfl⟩

/-- Up to `stop`; nothing when that lies behind. -/
theorem bytesTo_eq_ok {stop : Nat} {r : Bytes × Cursor}
    (h : bytesTo stop view c = .ok r) :
    r.2.offset = stop ∧
      (c.offset ≤ stop ∧ stop ≤ view.length ∧ r.2.taken = c.taken ++ [(c.offset, stop)] ∨
        stop < c.offset ∧ r.2.taken = c.taken) := by
  obtain ⟨o, c₁, ho, hrest⟩ := Parser.bind_eq_ok.mp h
  rw [Parser.offset_eq_ok] at ho
  cases ho
  split_ifs at hrest with hle
  · obtain ⟨hfits, hr⟩ := Parser.take_eq_ok.mp hrest
    have hend : c.offset + (stop - c.offset) = stop := by omega
    rw [hend] at hfits hr
    cases hr
    exact ⟨rfl, .inl ⟨hle, hfits, rfl⟩⟩
  · obtain ⟨u, c₂, hseek, hpure⟩ := Parser.bind_eq_ok.mp hrest
    rw [Parser.seek_eq_ok] at hseek
    rw [Parser.pure_eq_ok] at hpure
    cases hseek
    cases hpure
    exact ⟨rfl, .inr ⟨by omega, rfl⟩⟩

variable {α : Type} {view : Bytes} {c : Cursor} {r : α × Cursor}

theorem uint_bind {width : Nat} {f : Nat → DnsParser α}
    (h : (uint width >>= f) view c = .ok r) :
    c.offset + width ≤ view.length ∧
      f (uintAt view width c.offset) view
        ⟨c.offset + width, c.taken ++ [(c.offset, c.offset + width)]⟩ = .ok r := by
  obtain ⟨n, c', hread, hrest⟩ := Parser.bind_eq_ok.mp h
  obtain ⟨hle, hn⟩ := uint_eq_ok hread
  cases hn
  exact ⟨hle, hrest⟩

theorem name_bind {f : Text → DnsParser α} (h : (name >>= f) view c = .ok r) :
    c.offset ≤ nameEnd view c.offset ∧ nameEnd view c.offset ≤ view.length ∧
      ∃ n, f n view ⟨nameEnd view c.offset, c.taken ++ [(c.offset, nameEnd view c.offset)]⟩ =
        .ok r := by
  obtain ⟨n, c', hread, hrest⟩ := Parser.bind_eq_ok.mp h
  obtain ⟨hge, hle, hc⟩ := name_eq_ok hread
  simp only at hc
  subst hc
  exact ⟨hge, hle, n, hrest⟩

theorem offset_bind {f : Nat → DnsParser α} (h : (Parser.offset >>= f) view c = .ok r) :
    f c.offset view c = .ok r := by
  obtain ⟨o, c', hread, hrest⟩ := Parser.bind_eq_ok.mp h
  rw [Parser.offset_eq_ok] at hread
  cases hread
  exact hrest

theorem seek_pure {stop : Nat} {a : α}
    (h : (Parser.seek stop >>= fun _ => pure a : DnsParser α) view c = .ok r) :
    r = (a, ⟨stop, c.taken⟩) := by
  obtain ⟨u, c', hseek, hpure⟩ := Parser.bind_eq_ok.mp h
  rw [Parser.seek_eq_ok] at hseek
  rw [Parser.pure_eq_ok] at hpure
  cases hseek
  exact hpure

end ByteReader

/-- A parser that puts the offset at the end of the RDATA and reads up to `fin` for it. -/
structure Decoded (view : Bytes) (h : Head) (fin : Nat) (c : Cursor) : Prop where
  covers : Covers h.start fin c.taken
  offset : c.offset = h.stop

variable {view : Bytes} {h : Head} {rd : RData} {c : Cursor}

open ByteReader

theorem decodeTarget_decoded {kind : Text → RData}
    (hok : decodeTarget kind h.stop view ⟨h.start, []⟩ = .ok (rd, c)) :
    Decoded view h (nameEnd view h.start) c := by
  obtain ⟨hge, hle, n, hrest⟩ := name_bind hok
  have hc := seek_pure hrest
  cases hc
  exact ⟨(Covers.nil h.start).snoc hge, rfl⟩

theorem decodeSoa_decoded (hok : decodeSoa h.stop view ⟨h.start, []⟩ = .ok (rd, c)) :
    Decoded view h (nameEnd view (nameEnd view h.start) + 20) c := by
  obtain ⟨hmname, -, mname, hok⟩ := name_bind hok
  obtain ⟨hrname, -, rname, hok⟩ := name_bind hok
  obtain ⟨-, hok⟩ := uint_bind hok
  obtain ⟨-, hok⟩ := uint_bind hok
  obtain ⟨-, hok⟩ := uint_bind hok
  obtain ⟨-, hok⟩ := uint_bind hok
  obtain ⟨-, hok⟩ := uint_bind hok
  have hc := seek_pure hok
  cases hc
  have hnames := ((Covers.nil h.start).snoc hmname).snoc hrname
  have hall := ((((hnames.snoc (Nat.le_add_right _ 4)).snoc (Nat.le_add_right _ 4)).snoc
    (Nat.le_add_right _ 4)).snoc (Nat.le_add_right _ 4)).snoc (Nat.le_add_right _ 4)
  exact ⟨hall, rfl⟩

theorem decodeMx_decoded {kind : Nat → Text → RData}
    (hok : (do
      let preference ← ByteReader.u16
      let exchange ← name
      Parser.seek h.stop
      return kind preference exchange : DnsParser RData) view ⟨h.start, []⟩ = .ok (rd, c)) :
    Decoded view h (nameEnd view (h.start + 2)) c := by
  obtain ⟨-, hok⟩ := uint_bind hok
  obtain ⟨hname, -, n, hok⟩ := name_bind hok
  have hc := seek_pure hok
  cases hc
  exact ⟨((Covers.nil h.start).snoc (Nat.le_add_right _ 2)).snoc hname, rfl⟩

theorem txtChunks_covers {start fuel stop : Nat} {c c' : Cursor} {chunks : List Text}
    (hok : txtChunks fuel stop view c = .ok (chunks, c')) (hc : Covers start c.offset c.taken)
    (hfuel : stop ≤ c.offset + fuel) (hle : c.offset ≤ view.length) :
    Covers start (stringsEnd view fuel c.offset stop) c'.taken ∧
      stop ≤ stringsEnd view fuel c.offset stop ∧
        stringsEnd view fuel c.offset stop ≤ view.length := by
  induction fuel generalizing c chunks with
  | zero =>
    have hend := Parser.pure_eq_ok.mp hok
    cases hend
    exact ⟨hc, hfuel, hle⟩
  | succ fuel ih =>
    have hround := offset_bind hok
    unfold stringsEnd
    split_ifs at hround ⊢ with hbefore
    · obtain ⟨hbyte, hround⟩ := uint_bind hround
      obtain ⟨b, c₁, hbytes, hround⟩ := Parser.bind_eq_ok.mp hround
      obtain ⟨rest, c₂, hrest, hpure⟩ := Parser.bind_eq_ok.mp hround
      obtain ⟨hstring, hb⟩ := Parser.take_eq_ok.mp hbytes
      have hend := Parser.pure_eq_ok.mp hpure
      cases hb
      cases hend
      have hcovers := (hc.snoc (Nat.le_add_right _ 1)).snoc
        (Nat.le_add_right _ (uintAt view 1 c.offset))
      exact ih hrest hcovers (by simp only; omega) hstring
    · have hend := Parser.pure_eq_ok.mp hround
      cases hend
      exact ⟨hc, by omega, hle⟩

theorem decodeTxt_decoded (hle : h.start ≤ view.length)
    (hok : (do
      let chunks ← txtChunks h.rdlength h.stop
      Parser.seek h.stop
      return RData.txt chunks.flatten chunks : DnsParser RData) view ⟨h.start, []⟩ = .ok (rd, c)) :
    Decoded view h (stringsEnd view h.rdlength h.start h.stop) c ∧ h.stop ≤ view.length := by
  obtain ⟨chunks, c₁, hchunks, hok⟩ := Parser.bind_eq_ok.mp hok
  obtain ⟨hcovers, hstop, hend⟩ := txtChunks_covers hchunks (Covers.nil h.start) le_rfl hle
  have hc := seek_pure hok
  cases hc
  exact ⟨⟨hcovers, rfl⟩, hstop.trans hend⟩

theorem bytesTo_decoded {c₁ : Cursor} {f : Bytes → RData}
    (hc : Covers h.start c₁.offset c₁.taken) (hfin : c₁.offset ≤ h.stop)
    (hok : (do
      let rest ← bytesTo h.stop
      return f rest : DnsParser RData) view c₁ = .ok (rd, c)) :
    Decoded view h h.stop c ∧ h.stop ≤ view.length := by
  obtain ⟨rest, c₂, hread, hpure⟩ := Parser.bind_eq_ok.mp hok
  have hend := Parser.pure_eq_ok.mp hpure
  cases hend
  obtain ⟨hoffset, ⟨-, hle, htaken⟩ | ⟨hlt, -⟩⟩ := bytesTo_eq_ok hread
  · refine ⟨⟨?_, hoffset⟩, hle⟩
    rw [htaken]
    exact hc.snoc hfin
  · omega

theorem decodeKey_decoded {kind : Nat → Nat → Nat → Bytes → RData} (hlength : ¬ h.rdlength < 5)
    (hok : decodeKey kind h.stop view ⟨h.start, []⟩ = .ok (rd, c)) :
    Decoded view h h.stop c ∧ h.stop ≤ view.length := by
  obtain ⟨-, hok⟩ := uint_bind hok
  obtain ⟨-, hok⟩ := uint_bind hok
  obtain ⟨-, hok⟩ := uint_bind hok
  have hcovers := (((Covers.nil h.start).snoc (Nat.le_add_right _ 2)).snoc
    (Nat.le_add_right _ 1)).snoc (Nat.le_add_right _ 1)
  exact bytesTo_decoded hcovers (by simp only [Head.stop]; omega) hok

theorem decodeTlsa_decoded (hlength : ¬ h.rdlength < 4)
    (hok : (do
      let usage ← ByteReader.u8
      let selector ← ByteReader.u8
      let matchingType ← ByteReader.u8
      let data ← bytesTo h.stop
      return RData.tlsa usage selector matchingType data : DnsParser RData) view ⟨h.start, []⟩ =
        .ok (rd, c)) :
    Decoded view h h.stop c ∧ h.stop ≤ view.length := by
  obtain ⟨-, hok⟩ := uint_bind hok
  obtain ⟨-, hok⟩ := uint_bind hok
  obtain ⟨-, hok⟩ := uint_bind hok
  have hcovers := (((Covers.nil h.start).snoc (Nat.le_add_right _ 1)).snoc
    (Nat.le_add_right _ 1)).snoc (Nat.le_add_right _ 1)
  exact bytesTo_decoded hcovers (by simp only [Head.stop]; omega) hok

theorem bytes_decoded {f : Bytes → DnsParser RData}
    (hf : ∀ b c₁ r, f b view c₁ = .ok r → r.2 = c₁)
    (hok : (bytes h.rdlength >>= f) view ⟨h.start, []⟩ = .ok (rd, c)) :
    Decoded view h h.stop c ∧ h.stop ≤ view.length := by
  obtain ⟨b, c₁, htake, hrest⟩ := Parser.bind_eq_ok.mp hok
  obtain ⟨hle, hb⟩ := Parser.take_eq_ok.mp htake
  have hc := hf b c₁ _ hrest
  cases hb
  simp only at hc
  subst hc
  exact ⟨⟨(Covers.nil h.start).snoc (Nat.le_add_right _ h.rdlength), rfl⟩, hle⟩

theorem decodeRrsig_decoded (hok : decodeRrsig h.start h.stop view ⟨h.start, []⟩ = .ok (rd, c)) :
    Decoded view h (max (nameEnd view (h.start + 18)) h.stop) c ∧ h.stop ≤ view.length := by
  obtain ⟨-, hok⟩ := uint_bind hok
  obtain ⟨-, hok⟩ := uint_bind hok
  obtain ⟨-, hok⟩ := uint_bind hok
  obtain ⟨-, hok⟩ := uint_bind hok
  obtain ⟨-, hok⟩ := uint_bind hok
  obtain ⟨-, hok⟩ := uint_bind hok
  obtain ⟨-, hok⟩ := uint_bind hok
  obtain ⟨hname, hnameLe, signer, hok⟩ := name_bind hok
  have hok := offset_bind hok
  obtain ⟨signature, c₁, hread, hok⟩ := Parser.bind_eq_ok.mp hok
  obtain ⟨rdataPrefix, c₂, hslice, hpure⟩ := Parser.bind_eq_ok.mp hok
  have hprefix := Parser.slice_eq_ok.mp hslice
  have hend := Parser.pure_eq_ok.mp hpure
  cases hprefix
  cases hend
  have hnumbers := (((((((Covers.nil h.start).snoc (Nat.le_add_right _ 2)).snoc
    (Nat.le_add_right _ 1)).snoc (Nat.le_add_right _ 1)).snoc (Nat.le_add_right _ 4)).snoc
    (Nat.le_add_right _ 4)).snoc (Nat.le_add_right _ 4)).snoc (Nat.le_add_right _ 2)
  have hcovers := hnumbers.snoc hname
  obtain ⟨hoffset, ⟨hbefore, hle, htaken⟩ | ⟨hlt, htaken⟩⟩ := bytesTo_eq_ok hread
  · rw [max_eq_right hbefore]
    refine ⟨⟨?_, hoffset⟩, hle⟩
    rw [htaken]
    exact hcovers.snoc hbefore
  · rw [max_eq_left hlt.le]
    refine ⟨⟨?_, hoffset⟩, hlt.le.trans hnameLe⟩
    rw [htaken]
    exact hcovers

theorem Decoded.contained_iff (hd : Decoded view h fin c) :
    (∀ r ∈ c.taken, h.start ≤ r.1 ∧ r.2 ≤ h.stop) ↔ fin ≤ h.stop :=
  hd.covers.within_iff (Nat.le_add_right _ _)

def Within (view : Bytes) (h : Head) (taken : List (Nat × Nat)) : Prop :=
  h.stop ≤ view.length ∧ ∀ r ∈ taken, h.start ≤ r.1 ∧ r.2 ≤ h.stop

theorem Decoded.within_iff (hd : Decoded view h fin c) :
    Within view h c.taken ↔ fin ≤ h.stop ∧ h.stop ≤ view.length := by
  unfold Within
  rw [hd.contained_iff, and_comm]

theorem Decoded.within_iff_le (hd : Decoded view h fin c ∧ h.stop ≤ view.length) :
    Within view h c.taken ↔ fin ≤ h.stop := by
  rw [hd.1.within_iff, and_iff_left hd.2]

theorem Decoded.within (hd : Decoded view h h.stop c ∧ h.stop ≤ view.length) :
    Within view h c.taken ↔ True := by
  rw [Decoded.within_iff_le hd, iff_true]

theorem address_decoded {e : DnsWireError} {f : Bytes → RData}
    (hok : (do
      let b ← bytes h.rdlength
      if b.length ≠ n then Parser.fail e else return f b : DnsParser RData) view ⟨h.start, []⟩ =
        .ok (rd, c)) :
    Decoded view h h.stop c ∧ h.stop ≤ view.length := by
  refine bytes_decoded (fun b c₁ r hr => ?_) hok
  split_ifs at hr
  · exact absurd hr Parser.not_fail
  · rw [Parser.pure_eq_ok.mp hr]

theorem decodeRdata_spec (hle : h.start ≤ view.length)
    (hok : decodeRdata h.type h.rdlength view ⟨h.start, []⟩ = .ok (rd, c)) :
    c.offset = h.stop ∧ (Within view h c.taken ↔ h.Fits view) := by
  have hbranch := offset_bind hok
  unfold Head.Fits
  rw [show h.start + h.rdlength = h.stop from rfl] at hbranch
  cases htype : RRType.ofCode h.type with
  | none =>
    simp only [htype] at hbranch
    have hd := bytes_decoded (fun b c₁ r hr => by rw [Parser.pure_eq_ok.mp hr]) hbranch
    exact ⟨hd.1.offset, Decoded.within hd⟩
  | some t =>
    cases t with
    | A | AAAA =>
      simp only [htype] at hbranch
      have hd := address_decoded hbranch
      exact ⟨hd.1.offset, Decoded.within hd⟩
    | NS | CNAME | PTR =>
      simp only [htype] at hbranch
      have hd := decodeTarget_decoded hbranch
      exact ⟨hd.offset, hd.within_iff⟩
    | MX =>
      simp only [htype] at hbranch
      have hd := decodeMx_decoded hbranch
      exact ⟨hd.offset, hd.within_iff⟩
    | SOA =>
      simp only [htype] at hbranch
      have hd := decodeSoa_decoded hbranch
      exact ⟨hd.offset, hd.within_iff⟩
    | TXT =>
      simp only [htype] at hbranch
      have hd := decodeTxt_decoded hle hbranch
      exact ⟨hd.1.offset, Decoded.within_iff_le hd⟩
    | DS | DNSKEY =>
      simp only [htype] at hbranch
      split_ifs at hbranch with hlength
      · exact absurd hbranch Parser.not_fail
      · have hd := decodeKey_decoded hlength hbranch
        exact ⟨hd.1.offset, Decoded.within hd⟩
    | TLSA =>
      simp only [htype] at hbranch
      split_ifs at hbranch with hlength
      · exact absurd hbranch Parser.not_fail
      · have hd := decodeTlsa_decoded hlength hbranch
        exact ⟨hd.1.offset, Decoded.within hd⟩
    | RRSIG =>
      simp only [htype] at hbranch
      split_ifs at hbranch with hlength
      · exact absurd hbranch Parser.not_fail
      · have hd := decodeRrsig_decoded hbranch
        refine ⟨hd.1.offset, (Decoded.within_iff_le hd).trans ?_⟩
        exact Nat.max_le.trans (and_iff_left le_rfl)

theorem decodeRecord_spec {r : (DnsRecord × Span) × Cursor} (hok : decodeRecord view c = .ok r) :
    r.1.2.head = headAt view c.offset ∧ r.2.offset = (headAt view c.offset).stop ∧
      (r.1.2.Contained view ↔ (headAt view c.offset).Fits view) := by
  obtain ⟨-, -, n, hok⟩ := name_bind hok
  obtain ⟨-, hok⟩ := uint_bind hok
  obtain ⟨-, hok⟩ := uint_bind hok
  obtain ⟨-, hok⟩ := uint_bind hok
  obtain ⟨hle, hok⟩ := uint_bind hok
  have hok := offset_bind hok
  obtain ⟨q, c₁, hlogged, hok⟩ := Parser.bind_eq_ok.mp hok
  obtain ⟨rdata, c₂, hrdata, hq⟩ := Parser.logged_eq_ok.mp hlogged
  cases hq
  simp only at hok
  have hok := offset_bind hok
  have hpure := Parser.pure_eq_ok.mp hok
  cases hpure
  obtain ⟨hoffset, hfits⟩ := @decodeRdata_spec view (headAt view c.offset) rdata c₂ hle hrdata
  refine ⟨rfl, hoffset, Iff.trans ?_ hfits⟩
  constructor
  · rintro ⟨hlength, hinside, -⟩
    exact ⟨hlength, hinside⟩
  · rintro ⟨hlength, hinside⟩
    exact ⟨hlength, hinside, hoffset⟩

/-- The heads of the records, and for each whether it kept to its RDATA. -/
structure Listed (view : Bytes) (pos : Nat) (n : Nat) (spans : List Span) (c : Cursor) : Prop where
  heads : spans.map Span.head = headsFrom view n pos
  offset : c.offset = headsEnd view n pos
  contained : (∀ sp ∈ spans, sp.Contained view) ↔ ∀ hd ∈ headsFrom view n pos, hd.Fits view

theorem records_listed {c' : Cursor} {rs : List (DnsRecord × Span)}
    (hok : decodeRecord.times n view c = .ok (rs, c')) :
    Listed view c.offset n (rs.map (·.2)) c' := by
  induction n generalizing c rs with
  | zero =>
    have hend := Parser.pure_eq_ok.mp hok
    cases hend
    exact ⟨rfl, rfl, by simp [headsFrom]⟩
  | succ n ih =>
    obtain ⟨r, c₁, hfirst, hok⟩ := Parser.bind_eq_ok.mp hok
    obtain ⟨rest, c₂, hrest, hpure⟩ := Parser.bind_eq_ok.mp hok
    have hend := Parser.pure_eq_ok.mp hpure
    cases hend
    obtain ⟨hhead, hoffset, hfits⟩ := decodeRecord_spec hfirst
    have hlisted := ih hrest
    rw [show c₁.offset = (headAt view c.offset).stop from hoffset] at hlisted
    refine ⟨?_, hlisted.offset, ?_⟩
    · simp only [List.map_cons, headsFrom]
      rw [hlisted.heads]
      exact congrArg (· :: _) hhead
    · simp only [List.map_cons, headsFrom, List.forall_mem_cons]
      exact and_congr hfits hlisted.contained

theorem headsFrom_add (view : Bytes) (m n pos : Nat) :
    headsFrom view (m + n) pos = headsFrom view m pos ++ headsFrom view n (headsEnd view m pos) := by
  induction m generalizing pos with
  | zero => simp [headsFrom, headsEnd]
  | succ m ih =>
    rw [Nat.succ_add]
    simp only [headsFrom, headsEnd, ih, List.cons_append]

theorem headsEnd_add (view : Bytes) (m n pos : Nat) :
    headsEnd view (m + n) pos = headsEnd view n (headsEnd view m pos) := by
  induction m generalizing pos with
  | zero => simp [headsEnd]
  | succ m ih =>
    rw [Nat.succ_add]
    simp only [headsEnd, ih]

theorem Listed.append {pos m n : Nat} {as bs : List Span} {c₁ c₂ : Cursor}
    (ha : Listed view pos m as c₁) (hb : Listed view c₁.offset n bs c₂) :
    Listed view pos (m + n) (as ++ bs) c₂ := by
  have hheads := hb.heads
  have hoffset := hb.offset
  have hcontained := hb.contained
  rw [ha.offset] at hheads hoffset hcontained
  refine ⟨?_, ?_, ?_⟩
  · rw [List.map_append, ha.heads, hheads, headsFrom_add]
  · rw [hoffset, headsEnd_add]
  · rw [headsFrom_add]
    simp only [List.forall_mem_append]
    exact and_congr ha.contained hcontained

theorem questions_offset {c' : Cursor} {qs : List DnsQuestion}
    (hok : decodeQuestion.times n view c = .ok (qs, c')) :
    c'.offset = questionsEnd view n c.offset := by
  induction n generalizing c qs with
  | zero =>
    have hend := Parser.pure_eq_ok.mp hok
    cases hend
    rfl
  | succ n ih =>
    obtain ⟨q, c₁, hfirst, hok⟩ := Parser.bind_eq_ok.mp hok
    obtain ⟨rest, c₂, hrest, hpure⟩ := Parser.bind_eq_ok.mp hok
    have hend := Parser.pure_eq_ok.mp hpure
    cases hend
    obtain ⟨-, -, name, hfirst⟩ := name_bind hfirst
    obtain ⟨-, hfirst⟩ := uint_bind hfirst
    obtain ⟨-, hfirst⟩ := uint_bind hfirst
    have hq := Parser.pure_eq_ok.mp hfirst
    cases hq
    exact ih hrest

theorem decodeSpans_listed {r : (DnsMessage × List Span) × Cursor}
    (hok : decodeSpans view ⟨0, []⟩ = .ok r) :
    Listed view (questionsEnd view (uintAt view 2 4) 12)
      (uintAt view 2 6 + uintAt view 2 8 + uintAt view 2 10) r.1.2 r.2 := by
  obtain ⟨-, hok⟩ := uint_bind hok
  obtain ⟨-, hok⟩ := uint_bind hok
  obtain ⟨-, hok⟩ := uint_bind hok
  obtain ⟨-, hok⟩ := uint_bind hok
  obtain ⟨-, hok⟩ := uint_bind hok
  obtain ⟨-, hok⟩ := uint_bind hok
  obtain ⟨qs, c₁, hquestions, hok⟩ := Parser.bind_eq_ok.mp hok
  obtain ⟨as, c₂, hanswers, hok⟩ := Parser.bind_eq_ok.mp hok
  obtain ⟨ns, c₃, hauthorities, hok⟩ := Parser.bind_eq_ok.mp hok
  obtain ⟨rs, c₄, hadditionals, hpure⟩ := Parser.bind_eq_ok.mp hok
  have hend := Parser.pure_eq_ok.mp hpure
  cases hend
  have hstart := questions_offset hquestions
  have hall := ((records_listed hanswers).append (records_listed hauthorities)).append
    (records_listed hadditionals)
  rw [hstart] at hall
  simpa only [List.map_append] using hall

/-- A message that decodes keeps the RDATA of its records apart exactly when each record's
length reaches over what stands in it; every other buffer is an error of the codec. -/
theorem rdata_contained (buf : Bytes) :
    (∃ e : DnsWireError, decodeMessage buf = .error e) ∨
      ∃ m spans, decodeMessage buf = .ok m ∧ decodeTraced buf = .ok (m, spans) ∧
        spans.map Span.head = heads buf ∧
        ((∀ sp ∈ spans, sp.Contained buf) ↔ ∀ hd ∈ heads buf, hd.Fits buf) := by
  cases hok : decodeSpans buf ⟨0, []⟩ with
  | error e =>
    left
    exact ⟨e, by simp only [decodeMessage, decodeTraced, hok]⟩
  | ok r =>
    obtain ⟨⟨m, spans⟩, c⟩ := r
    right
    have hlisted := decodeSpans_listed hok
    refine ⟨m, spans, ?_, ?_, hlisted.heads, hlisted.contained⟩
    · simp only [decodeMessage, decodeTraced, hok]
    · simp only [decodeTraced, hok]

/-- Two answers. The first is an NS record with no RDATA: its target is read from the name of
the second, `a`. -/
def strayTarget : Bytes :=
  [0, 0, 0, 0, 0, 0, 0, 2, 0, 0, 0, 0] ++
    [0, 0, 2, 0, 1, 0, 0, 0, 0, 0, 0] ++
    [1, 97, 0, 0, 1, 0, 1, 0, 0, 0, 0, 0, 4, 1, 2, 3, 4]

theorem rdata_contained_fails :
    ¬ ∀ buf m spans, decodeMessage buf = .ok m → decodeTraced buf = .ok (m, spans) →
      ∀ sp ∈ spans, sp.Contained buf := by
  intro hall
  have hstray : (decodeTraced strayTarget).toOption.any
      (fun r => decide (¬ ∀ sp ∈ r.2, sp.Contained strayTarget)) = true := by
    decide +kernel
  cases hok : decodeTraced strayTarget with
  | error e =>
    rw [hok] at hstray
    cases hstray
  | ok r =>
    rw [hok] at hstray
    have hmessage : decodeMessage strayTarget = .ok r.1 := by
      simp only [decodeMessage, hok]
    exact of_decide_eq_true hstray (hall strayTarget r.1 r.2 hmessage hok)

end Ionosphere.Dns
