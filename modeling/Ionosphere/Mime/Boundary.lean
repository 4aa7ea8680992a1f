import Ionosphere.Mime.Blank
import Ionosphere.Mime.Records
import Mathlib.Data.List.Infix

/-! One message, one header: when the scanners of the header's end agree. They do on messages
whose first blank line is made of CRLF, and on those that are bare LF throughout; not where
line ends of two kinds meet, nor where a bounce finds a CRLF blank line behind an LF one. With
one header its fields are the same when every name is a plain one. -/
namespace Ionosphere.Mime

open Ionosphere.Js Ionosphere.Lib Ionosphere.MailAuth

/-- The first two line ends in a row are two CRLFs, or two bare LFs in a message without any
CRLF blank line; or there are none. -/
def PlainBlank (bin : Text) : Prop :=
  match cutBlank bin with
  | none => True
  | some (x, y) =>
    if crlf <:+ x then crlf <+: y
    else x.getLast? = some '\n' ∧ y.head? = some '\n' ∧ ¬ blankCrlf <:+: bin

instance (bin : Text) : Decidable (PlainBlank bin) := by
  unfold PlainBlank
  split <;> infer_instance

/-- Every scanner ends the header where the parser does. The authentication code sees the
message with other line ends: it has to find those of the parser's header. -/
structure OneBoundary (raw : Bytes) : Prop where
  body_start : (findBodyStart (latin1Decode raw) 0 (latin1Decode raw).length).headerEnd =
    (splitHeaderBody (latin1Decode raw)).headerText.length
  notice : headerBlockOf raw = (splitHeaderBody (latin1Decode raw)).headerText
  authenticated : (splitMessage (normalizeLineEndings (latin1Decode raw))).headerBlock =
    normalizeLineEndings (splitHeaderBody (latin1Decode raw)).headerText

variable {bin front lineEnd rest : Text} {raw : Bytes} {i : Nat}

theorem headerBlockOf_crlf (h : Search.indexOf blankCrlf (latin1Decode raw) = some i) :
    headerBlockOf raw = (latin1Decode raw).take i := by
  simp only [headerBlockOf, List.findSome?_cons, h]

theorem headerBlockOf_lf (hcrlf : Search.indexOf blankCrlf (latin1Decode raw) = none)
    (h : Search.indexOf blankLf (latin1Decode raw) = some i) :
    headerBlockOf raw = (latin1Decode raw).take i := by
  simp only [headerBlockOf, List.findSome?_cons, hcrlf, h]

theorem headerBlockOf_none (h : ∀ n ∈ blankWords, Search.indexOf n (latin1Decode raw) = none) :
    headerBlockOf raw = latin1Decode raw := by
  have hnone : [blankCrlf, blankLf, blankCr].findSome?
      (fun sep => Search.indexOf sep (latin1Decode raw)) = none :=
    List.findSome?_eq_none_iff.mpr h
  simp only [headerBlockOf, hnone]

section

variable (hb : Blank bin front lineEnd rest)

include hb

theorem Blank.crlf_suffix :
    crlf <:+ front ++ lineEnd ↔ lineEnd = crlf := by
  constructor
  · intro h
    rcases hb.lineEnd_eq with hl | hl | hl
    · exact hl
    · rw [hl] at h
      have hlast := h.getLast (by simp [crlf])
      simp [crlf] at hlast
    · rw [hl] at h
      obtain ⟨t, ht⟩ := h
      have happ : front ++ ['\n'] = (t ++ ['\r']) ++ ['\n'] := by
        rw [← ht, List.append_assoc]
        rfl
      have hfront : front = t ++ ['\r'] := List.append_cancel_right happ
      exact absurd rfl (hb.plain '\r' (by rw [hfront, List.getLast?_concat])).1
  · intro h
    rw [h]
    exact List.suffix_append _ _

theorem Blank.plainBlank
    (hcut : cutBlank bin = some (front ++ lineEnd, rest)) :
    PlainBlank bin ↔ (lineEnd = crlf ∧ crlf <+: rest) ∨
      (lineEnd = ['\n'] ∧ rest.head? = some '\n' ∧ ¬ blankCrlf <:+: bin) := by
  rw [PlainBlank, hcut]
  dsimp only
  rcases hb.lineEnd_eq with hl | hl | hl
  · rw [if_pos (hb.crlf_suffix.mpr hl)]
    simp [hl, crlf]
  · have hno : ¬ crlf <:+ front ++ lineEnd := fun h => by
      rw [hb.crlf_suffix, hl] at h
      exact absurd h (by decide)
    rw [if_neg hno]
    simp [hl, crlf]
  · have hno : ¬ crlf <:+ front ++ lineEnd := fun h => by
      rw [hb.crlf_suffix, hl] at h
      exact absurd h (by decide)
    rw [if_neg hno]
    simp [hl, crlf]

theorem Blank.word {n : Text} (hn : n ∈ [blankCrlf, blankLf])
    (hpre : n <+: lineEnd ++ rest) :
    (lineEnd = crlf ∧ crlf <+: rest) ∨ (lineEnd = ['\n'] ∧ rest.head? = some '\n') := by
  rcases List.mem_pair.mp hn with rfl | rfl
  · rcases hb.lineEnd_eq with hl | hl | hl
    · rw [hl, blankCrlf, List.prefix_append_right_inj] at hpre
      exact .inl ⟨hl, hpre⟩
    · rw [hl, blankCrlf, crlf] at hpre
      obtain ⟨t, ht⟩ := hpre
      have hrest : '\n' :: '\r' :: '\n' :: t = rest := (List.cons.inj ht).2
      rcases hb.next with h | ⟨-, h⟩
      · rw [← hrest] at h
        cases h
      · exact absurd hl h
    · rw [hl, blankCrlf, crlf] at hpre
      obtain ⟨t, ht⟩ := hpre
      exact absurd (List.cons.inj ht).1 (by decide)
  · rcases hb.lineEnd_eq with hl | hl | hl
    · rw [hl, blankLf, crlf] at hpre
      obtain ⟨t, ht⟩ := hpre
      exact absurd (List.cons.inj ht).1 (by decide)
    · rw [hl, blankLf] at hpre
      obtain ⟨t, ht⟩ := hpre
      exact absurd (List.cons.inj ht).1 (by decide)
    · rw [hl, blankLf] at hpre
      obtain ⟨t, ht⟩ := hpre
      have hrest : '\n' :: t = rest := (List.cons.inj ht).2
      exact .inr ⟨hl, by rw [← hrest]; rfl⟩

theorem Blank.eq_nil {t : Text} (ht : t <+: lineEnd ++ rest)
    (h : normalizeLineEndings front = normalizeLineEndings (front ++ t)) : t = [] := by
  cases t with
  | nil => rfl
  | cons c t =>
    rw [hb.normalize_front] at h
    have hempty : normalizeLineEndings (c :: t) = [] := List.self_eq_append_right.mp h
    have hc : c = '\r' ∨ c = '\n' := by
      obtain ⟨z, hz⟩ := ht
      rcases hb.lineEnd_eq with hl | hl | hl <;> rw [hl] at hz <;>
        [left; left; right] <;> exact (List.cons.inj hz).1
    rcases hc with rfl | rfl <;> cases hempty

theorem Blank.headerText
    (h : normalizeLineEndings front = normalizeLineEndings (splitHeaderBody bin).headerText) :
    (splitHeaderBody bin).headerText = front := by
  obtain ⟨found, hfinds, hhead⟩ := finds_splitHeaderBody bin
  have hlong : ∃ t, t <+: lineEnd ++ rest ∧ (splitHeaderBody bin).headerText = front ++ t := by
    rw [hhead]
    cases found with
    | none => exact ⟨_, List.prefix_rfl, by rw [← List.append_assoc]; exact hb.cut⟩
    | some i =>
      obtain ⟨n, hn, hat⟩ := Search.First.stands hfinds
      have hle : front.length ≤ i := hb.le_of_at hn hat
      refine ⟨_, List.take_prefix (i - front.length) _, ?_⟩
      dsimp only [Option.elim_some]
      rw [hb.cut, List.append_assoc, List.take_append, List.take_of_length_le hle]
  obtain ⟨t, ht, heq⟩ := hlong
  rw [heq] at h ⊢
  rw [hb.eq_nil ht h, List.append_nil]

theorem Blank.headerText_of_word {n : Text}
    (hn : n ∈ blankWords) (hpre : n <+: lineEnd ++ rest) :
    (splitHeaderBody bin).headerText = front := by
  obtain ⟨found, hfinds, hhead⟩ := finds_splitHeaderBody bin
  rw [hhead, hfinds.eq_some (hb.first (fun _ h => h) hn hpre)]
  dsimp only [Option.elim_some]
  rw [hb.cut, List.append_assoc, List.take_left]

theorem Blank.headerEnd_of_word {n : Text}
    (hn : n ∈ [blankCrlf, blankLf]) (hpre : n <+: lineEnd ++ rest) :
    (findBodyStart bin 0 bin.length).headerEnd = front.length := by
  obtain ⟨found, hfinds, hend⟩ := finds_findBodyStart bin
  rw [hend, hfinds.eq_some (hb.first (by decide) hn hpre)]
  rfl

end

theorem oneBoundary_of_unbroken (h : Unbroken (latin1Decode raw)) : OneBoundary raw := by
  obtain ⟨found, hfinds, hhead⟩ := finds_splitHeaderBody (latin1Decode raw)
  obtain ⟨found', hfinds', hend⟩ := finds_findBodyStart (latin1Decode raw)
  have hno : ∀ n ∈ blankWords, ∀ j, ¬ Search.At n (latin1Decode raw) j :=
    fun n hn _ => not_at_of_unbroken h hn
  have hwhole : (splitHeaderBody (latin1Decode raw)).headerText = latin1Decode raw := by
    rw [hhead, hfinds.eq_none hno]
    rfl
  refine ⟨?_, ?_, ?_⟩
  · rw [hwhole, hend, hfinds'.eq_none fun n hn => hno n (by revert n; decide)]
    rfl
  · rw [hwhole]
    exact headerBlockOf_none fun n hn =>
      (Search.finds_indexOf (blankWords_ne_nil n hn) _).eq_none fun m hm =>
        hno m (List.mem_singleton.mp hm ▸ hn)
  · rw [hwhole]
    exact headerBlock_of_unbroken h

theorem Blank.oneBoundary (hb : Blank (latin1Decode raw) front lineEnd rest) :
    OneBoundary raw ↔ (lineEnd = crlf ∧ crlf <+: rest) ∨
      (lineEnd = ['\n'] ∧ rest.head? = some '\n' ∧ ¬ blankCrlf <:+: latin1Decode raw) := by
  have hcrlf := Search.finds_indexOf (by decide : blankCrlf ≠ []) (latin1Decode raw)
  have htake : (latin1Decode raw).take front.length = front := by
    rw [hb.cut, List.append_assoc, List.take_left]
  constructor
  · rintro ⟨hstart, hnotice, hauth⟩
    have hhead := hb.headerText (by rw [← hb.headerBlock, hauth])
    rw [hhead] at hstart hnotice
    obtain ⟨found, hfinds, hend⟩ := finds_findBodyStart (latin1Decode raw)
    rw [hstart] at hend
    have hlen : front.length < (latin1Decode raw).length := by
      rw [hb.cut]
      rcases hb.lineEnd_eq with h | h | h <;> simp [h, crlf]
    cases found with
    | none =>
      rw [Option.getD_none] at hend
      omega
    | some i =>
      obtain rfl : front.length = i := hend
      obtain ⟨n, hn, hat⟩ := Search.First.stands hfinds
      rw [Search.At, hb.cut, List.append_assoc, List.drop_left] at hat
      refine (hb.word hn hat).imp id fun h => ⟨h.1, h.2, fun hword => ?_⟩
      -- The bounce cuts at the CRLF blank line, and an LF stands where the header ends.
      cases hi : Search.indexOf blankCrlf (latin1Decode raw) with
      | none =>
        rw [hi] at hcrlf
        obtain ⟨s, t, hst⟩ := hword
        refine hcrlf blankCrlf (.head _) s.length ?_
        rw [Search.At, ← hst, List.append_assoc, List.drop_left]
        exact List.prefix_append _ _
      | some i =>
        rw [hi] at hcrlf
        obtain ⟨m, hm, hat'⟩ := Search.First.stands hcrlf
        obtain rfl := List.mem_singleton.mp hm
        rw [headerBlockOf_crlf hi] at hnotice
        have hi' : i = front.length := by
          have hlt := hat'.lt (by decide)
          rw [← hnotice, List.length_take]
          omega
        rw [hi', Search.At, hb.cut, List.append_assoc, List.drop_left, h.1] at hat'
        obtain ⟨t, ht⟩ := hat'
        exact absurd (List.cons.inj ht).1 (by decide)
  · rintro (⟨hl, hrest⟩ | ⟨hl, hrest, hno⟩)
    · have hpre : blankCrlf <+: lineEnd ++ rest := by
        rw [hl]
        exact (List.prefix_append_right_inj crlf).mpr hrest
      have hhead := hb.headerText_of_word (by decide) hpre
      refine ⟨?_, ?_, ?_⟩
      · rw [hhead, hb.headerEnd_of_word (by decide) hpre]
      · rw [hhead, headerBlockOf_crlf (hcrlf.eq_some (hb.first (by decide) (.head _) hpre)), htake]
      · rw [hhead, hb.headerBlock]
    · have hpre : blankLf <+: lineEnd ++ rest := by
        obtain ⟨t, rfl⟩ := List.head?_eq_some_iff.mp hrest
        rw [hl]
        exact ⟨t, rfl⟩
      have hhead := hb.headerText_of_word (by decide) hpre
      have hnone : Search.indexOf blankCrlf (latin1Decode raw) = none := by
        refine hcrlf.eq_none fun n hn j hat => hno ?_
        rw [List.mem_singleton.mp hn] at hat
        exact hat.isInfix.trans (List.drop_suffix j _).isInfix
      have hlf := Search.finds_indexOf (by decide : blankLf ≠ []) (latin1Decode raw)
      refine ⟨?_, ?_, ?_⟩
      · rw [hhead, hb.headerEnd_of_word (by decide) hpre]
      · rw [hhead, headerBlockOf_lf hnone (hlf.eq_some (hb.first (by decide) (.head _) hpre)),
          htake]
      · rw [hhead, hb.headerBlock]

theorem oneBoundary_iff (raw : Bytes) : OneBoundary raw ↔ PlainBlank (latin1Decode raw) := by
  cases hcut : cutBlank (latin1Decode raw) with
  | none =>
    rw [PlainBlank, hcut]
    exact iff_true_intro (oneBoundary_of_unbroken (unbroken_of_cutBlank hcut))
  | some p =>
    obtain ⟨front, lineEnd, hx, hb⟩ := exists_blank (x := p.1) (y := p.2) hcut
    rw [hb.oneBoundary, hb.plainBlank (by rw [hcut, ← hx])]

/-- What stands before the first two line ends in a row. -/
def headerOf (bin : Text) : Text :=
  match cutBlank bin with
  | none => bin
  | some (x, _) => if crlf <:+ x then x.dropLast.dropLast else x.dropLast

/-- Every scanner ends the header at one place, and the parser's records are the fields of the
authentication code. -/
structure OneReading (u : CaseMap) (raw : Bytes) : Prop extends OneBoundary raw where
  fields : (splitHeaderRecords u (splitHeaderBody (latin1Decode raw)).headerText).filterMap
      recordField =
    (parseHeaderFields (splitMessage (normalizeLineEndings (latin1Decode raw))).headerBlock).map
      (authField u)

theorem Blank.headerOf (hb : Blank bin front lineEnd rest)
    (hcut : cutBlank bin = some (front ++ lineEnd, rest)) : headerOf bin = front := by
  rw [Mime.headerOf, hcut]
  dsimp only
  rcases hb.lineEnd_eq with hl | hl | hl
  · rw [if_pos (hb.crlf_suffix.mpr hl), hl]
    simp [crlf]
  · have hno : ¬ crlf <:+ front ++ lineEnd := fun h => by
      rw [hb.crlf_suffix, hl] at h
      exact absurd h (by decide)
    rw [if_neg hno, hl, List.dropLast_concat]
  · have hno : ¬ crlf <:+ front ++ lineEnd := fun h => by
      rw [hb.crlf_suffix, hl] at h
      exact absurd h (by decide)
    rw [if_neg hno, hl, List.dropLast_concat]

theorem OneBoundary.headerText (h : OneBoundary raw) :
    (splitHeaderBody (latin1Decode raw)).headerText = headerOf (latin1Decode raw) := by
  cases hcut : cutBlank (latin1Decode raw) with
  | none =>
    obtain ⟨found, hfinds, hhead⟩ := finds_splitHeaderBody (latin1Decode raw)
    have hno : ∀ n ∈ blankWords, ∀ j, ¬ Search.At n (latin1Decode raw) j :=
      fun n hn _ => not_at_of_unbroken (unbroken_of_cutBlank hcut) hn
    rw [hhead, hfinds.eq_none hno, headerOf, hcut]
    rfl
  | some p =>
    obtain ⟨front, lineEnd, hx, hb⟩ := exists_blank (x := p.1) (y := p.2) hcut
    rw [hb.headerOf (by rw [hcut, ← hx]), hb.headerText (by rw [← hb.headerBlock, h.authenticated])]

variable {u : CaseMap}

theorem one_reading (hu : KeepsHigh u) (raw : Bytes) :
    OneReading u raw ↔ PlainBlank (latin1Decode raw) ∧
      ∀ g ∈ folded (lines (headerOf (latin1Decode raw))), Straight g := by
  have hfields : OneBoundary raw →
      ((splitHeaderRecords u (splitHeaderBody (latin1Decode raw)).headerText).filterMap
          recordField =
        (parseHeaderFields
          (splitMessage (normalizeLineEndings (latin1Decode raw))).headerBlock).map (authField u) ↔
        ∀ g ∈ folded (lines (headerOf (latin1Decode raw))), Straight g) := by
    intro h
    have hbytes : ∀ c ∈ (splitHeaderBody (latin1Decode raw)).headerText, c.toNat < 256 := by
      obtain ⟨found, -, hhead⟩ := finds_splitHeaderBody (latin1Decode raw)
      intro c hc
      rw [hhead] at hc
      cases found with
      | none => exact latin1Decode_lt raw c hc
      | some i => exact latin1Decode_lt raw c (List.mem_of_mem_take hc)
    rw [h.authenticated, fields_iff hu hbytes, h.headerText]
  rw [← oneBoundary_iff]
  constructor
  · exact fun h => ⟨h.toOneBoundary, (hfields h.toOneBoundary).mp h.fields⟩
  · exact fun ⟨h, hg⟩ => ⟨h, (hfields h).mpr hg⟩

/-- The mapping of a runtime on ASCII; what it makes of other characters is left in place. -/
def asciiCaseMap : CaseMap := ⟨id, id⟩

theorem one_reading_witness :
    OneReading asciiCaseMap (latin1Encode "Subject: a\r\n b\r\n\r\nc\n\nd".toList) ↔
      PlainBlank (latin1Decode (latin1Encode "Subject: a\r\n b\r\n\r\nc\n\nd".toList)) ∧
        ∀ g ∈ folded (lines (headerOf
          (latin1Decode (latin1Encode "Subject: a\r\n b\r\n\r\nc\n\nd".toList)))), Straight g :=
  one_reading (fun _ _ h => h) _

/-- A bounce of a message with an LF blank line and a CRLF one behind it encloses some of its
body. -/
theorem one_reading_fails :
    ¬ ∀ (u : CaseMap) (raw : Bytes), KeepsHigh u → OneReading u raw := by
  intro h
  have hnotice := (h asciiCaseMap (latin1Encode "A: b\n\nc\r\n\r\nd".toList)
    fun _ _ h => h).notice
  have hblock : headerBlockOf (latin1Encode "A: b\n\nc\r\n\r\nd".toList) = "A: b\n\nc".toList := by
    decide +kernel
  have hhead : (splitHeaderBody (latin1Decode
      (latin1Encode "A: b\n\nc\r\n\r\nd".toList))).headerText = "A: b".toList := by
    decide +kernel
  rw [hblock, hhead] at hnotice
  exact absurd hnotice (by decide)

end Ionosphere.Mime
