import Ionosphere.Mime.Boundary
import Ionosphere.Mime.Siblings

/-! When the parser finds the tree that was written out. -/
namespace Ionosphere.Mime

open Ionosphere.Js Ionosphere.Lib Ionosphere.Core Ionosphere.MailAuth

variable {bin body boundary : Text} {header : List Text} {start stop i k : Nat}

theorem headerBlock_eq (h : header ≠ []) :
    headerBlock header = Pieces.glue '\r' '\n' header ++ (crlf ++ crlf) := by
  rw [headerBlock, ← List.append_assoc]
  refine congrArg (· ++ crlf) ?_
  induction header with
  | nil => exact absurd rfl h
  | cons l ls ih =>
    rw [List.flatMap_cons]
    by_cases hnil : ls = []
    · rw [hnil, List.flatMap_nil, List.append_nil]
      rfl
    · rw [Pieces.glue_cons hnil, ih hnil]
      simp [crlf]

theorem unbroken_line {l t : Text} (hl : Plain l) (ht : Unbroken ('\r' :: '\n' :: t)) :
    Unbroken (l ++ '\r' :: '\n' :: t) := by
  induction l with
  | nil => exact ht
  | cons c l ih =>
    obtain ⟨hc, hl⟩ := List.forall_mem_cons.mp hl
    refine List.isChain_cons.mpr ⟨fun b _ => ?_, ih hl⟩
    rintro (⟨h, -⟩ | ⟨h, -⟩)
    · exact hc.1 h
    · exact hc.2 h

theorem glue_head {c : Char} {l : Text} (ls : List Text) :
    ∃ t, Pieces.glue '\r' '\n' ((c :: l) :: ls) = c :: t := by
  cases ls with
  | nil => exact ⟨l, rfl⟩
  | cons l' ls => exact ⟨_, rfl⟩

theorem unbroken_header (h : HeaderLines header) (hne : header ≠ []) :
    Unbroken (Pieces.glue '\r' '\n' header ++ crlf) := by
  have hend : Unbroken crlf := List.isChain_pair.mpr (by decide)
  induction header with
  | nil => exact absurd rfl hne
  | cons l ls ih =>
    obtain ⟨⟨-, hl⟩, hls⟩ := List.forall_mem_cons.mp h
    by_cases hnil : ls = []
    · rw [hnil]
      exact unbroken_line hl hend
    · have hrest := ih hls hnil
      obtain ⟨l', ls', rfl⟩ := List.exists_cons_of_ne_nil hnil
      obtain ⟨hne', hplain⟩ := hls l' (.head _)
      obtain ⟨c, l'', rfl⟩ := List.exists_cons_of_ne_nil hne'
      have hc := hplain c (.head _)
      obtain ⟨t, ht⟩ := glue_head (c := c) (l := l'') ls'
      rw [Pieces.glue_cons hnil, List.append_assoc]
      rw [ht] at hrest ⊢
      refine unbroken_line hl (List.isChain_cons_cons.mpr ⟨by decide, ?_⟩)
      refine List.isChain_cons_cons.mpr ⟨?_, hrest⟩
      rintro (⟨h, -⟩ | ⟨-, h | h⟩)
      · exact absurd h (by decide)
      · exact hc.1 h
      · exact hc.2 h

theorem glue_getLast (h : HeaderLines header) {c : Char}
    (hc : (Pieces.glue '\r' '\n' header).getLast? = some c) : c ≠ '\r' ∧ c ≠ '\n' := by
  induction header with
  | nil => cases hc
  | cons l ls ih =>
    obtain ⟨⟨-, hl⟩, hls⟩ := List.forall_mem_cons.mp h
    by_cases hnil : ls = []
    · rw [hnil] at hc
      exact hl c (List.mem_of_getLast? hc)
    · obtain ⟨l', ls', rfl⟩ := List.exists_cons_of_ne_nil hnil
      obtain ⟨hne', -⟩ := hls l' (.head _)
      obtain ⟨c', l'', rfl⟩ := List.exists_cons_of_ne_nil hne'
      obtain ⟨t, ht⟩ := glue_head (c := c') (l := l'') ls'
      have hcut : l ++ '\r' :: '\n' :: c' :: t = (l ++ crlf) ++ c' :: t := by
        rw [List.append_assoc]
        rfl
      rw [Pieces.glue_cons hnil, ht, hcut, List.getLast?_append_of_ne_nil _ (by simp)] at hc
      exact ih hls (by rw [ht, hc])

theorem blank_header (h : HeaderLines header) (hne : header ≠ []) (rest : Text) :
    Blank (headerBlock header ++ rest) (Pieces.glue '\r' '\n' header) crlf (crlf ++ rest) where
  cut := by
    rw [headerBlock_eq hne]
    simp only [List.append_assoc]
  lineEnd_eq := .inl rfl
  next := .inl rfl
  plain := fun _ hc => glue_getLast h hc
  unbroken := unbroken_header h hne

theorem findBodyStart_header (h : HeaderLines header) (hne : header ≠ [])
    (hat : Search.At (headerBlock header) bin start)
    (hstop : start + (headerBlock header).length ≤ stop) :
    findBodyStart bin start stop =
      ⟨start + (Pieces.glue '\r' '\n' header).length, start + (headerBlock header).length⟩ := by
  have hlen : (headerBlock header).length = (Pieces.glue '\r' '\n' header).length + 4 := by
    rw [headerBlock_eq hne, List.length_append]
    rfl
  have hblankAt : Search.At blankCrlf bin
      (start + (Pieces.glue '\r' '\n' header).length) := by
    rw [headerBlock_eq hne, Search.at_append] at hat
    exact hat.2
  obtain ⟨rest, hrest⟩ := hat
  have hblank := blank_header h hne rest
  rw [hrest] at hblank
  have hfirst : Search.First [blankCrlf, blankLf] (bin.drop start)
      (Pieces.glue '\r' '\n' header).length :=
    hblank.first (by decide) (.head _)
      ((List.prefix_append_right_inj crlf).mpr (List.prefix_append crlf rest))
  generalize (Pieces.glue '\r' '\n' header).length = n at hfirst hlen hblankAt ⊢
  have hbefore : ∀ m ∈ [blankCrlf, blankLf], ∀ j, start ≤ j → j < start + n →
      ¬ Search.At m bin j := by
    intro m hm j hj hlt hat
    refine hfirst.before m hm (j - start) (by omega) ?_
    have heq : start + (j - start) = j := by omega
    rw [Search.At, List.drop_drop, heq]
    exact hat
  have hcrlf : indexOfWithin bin blankCrlf start stop = some (start + n) := by
    exact indexOfWithin_eq_some (by decide) (by omega) hblankAt (hbefore _ (by decide))
  rw [findBodyStart, hcrlf]
  have hend : min (start + n + 4) stop = start + (headerBlock header).length := by omega
  cases hlf : indexOfWithin bin blankLf start stop with
  | none =>
    dsimp only [Option.map_some]
    rw [hend]
  | some j =>
    have hspec := indexOfWithin_spec (by decide : blankLf ≠ []) bin start stop
    rw [hlf] at hspec
    have hj := indexOfWithin_bounds hlf
    have hnot : ¬ j < start + n := fun hlt => hbefore blankLf (by decide) j hj.1 hlt hspec.1
    dsimp only [Option.map_some]
    rw [if_neg hnot]
    dsimp only
    rw [hend]

/-- A part that begins with the empty line: the parser looks for one behind it. -/
theorem findBodyStart_bare (hat : Search.At crlf bin start) :
    (findBodyStart bin start stop).bodyStart = start + 2 ↔ stop = start + 2 := by
  have hfirst : bin[start]? = some '\r' := hat.getElem? (k := 0) (by decide)
  have hlf : ∀ j, indexOfWithin bin blankLf start stop = some j → start < j := by
    intro j hj
    have hspec := indexOfWithin_spec (by decide : blankLf ≠ []) bin start stop
    rw [hj] at hspec
    rcases Nat.eq_or_lt_of_le (indexOfWithin_bounds hj).1 with rfl | hlt
    · have hget : bin[start]? = some '\n' := hspec.1.getElem? (k := 0) (by decide)
      rw [hfirst] at hget
      exact absurd hget (by decide)
    · exact hlt
  rw [findBodyStart]
  cases hcrlf : indexOfWithin bin blankCrlf start stop with
  | none =>
    cases hj : indexOfWithin bin blankLf start stop with
    | none => exact Iff.rfl
    | some j =>
      have hb := indexOfWithin_bounds hj
      have hlt := hlf j hj
      dsimp only [Option.map_none]
      omega
  | some i =>
    have hi := indexOfWithin_bounds hcrlf
    cases hj : indexOfWithin bin blankLf start stop with
    | none =>
      dsimp only [Option.map_some]
      omega
    | some j =>
      have hb := indexOfWithin_bounds hj
      have hlt := hlf j hj
      dsimp only [Option.map_some]
      by_cases hji : j < i
      · rw [if_pos hji]
        dsimp only
        omega
      · rw [if_neg hji]
        dsimp only
        omega

variable {u : CaseMap} {cs : Charsets}

theorem parseHeaders_crlf (n : Nat) : parseHeaders u cs (crlf.take n) = [] := by
  match n with
  | 0 => rfl
  | 1 => rfl
  | n + 2 =>
    rw [List.take_of_length_le (by simp [crlf])]
    rfl

theorem countLines_at (hat : Search.At body bin start) :
    countLines bin start (start + body.length) = body.count '\n' := by
  rw [countLines, hat.slice]

theorem readHeader_bare (hat : Search.At crlf bin start) :
    readHeader u cs bin start (findBodyStart bin start (start + 2)).headerEnd = [] := by
  have horder := findBodyStart_order bin (Nat.le_add_right start 2)
  obtain ⟨t, ht⟩ := hat
  have hlen : (findBodyStart bin start (start + 2)).headerEnd - start ≤ crlf.length := by
    rw [show crlf.length = 2 from rfl]
    omega
  rw [readHeader, List.drop_take, ← ht, List.take_append_of_le_length hlen, parseHeaders_crlf]

theorem bodyStart_bare (hat : Search.At (headerBlock [] ++ body) bin start) :
    (partInfo u cs bin start (start + (headerBlock [] ++ body).length)).bodyStart = start + 2 ↔
      body = [] := by
  have hlen : (headerBlock [] ++ body).length = 2 + body.length := by
    rw [List.length_append]
    rfl
  have hbare := @findBodyStart_bare bin start (start + (2 + body.length)) (Search.at_append.mp hat).1
  rw [hlen]
  refine hbare.trans ⟨fun h => List.eq_nil_of_length_eq_zero (by omega), ?_⟩
  rintro rfl
  rfl

theorem partInfo_bare (hat : Search.At crlf bin start) :
    partInfo u cs bin start (start + 2) = partAt u cs [] [] [] start := by
  have hbody : (findBodyStart bin start (start + 2)).bodyStart = start + 2 :=
    (findBodyStart_bare hat).mpr rfl
  have hlines : countLines bin (start + 2) (start + 2) = 0 := by
    rw [countLines, List.drop_of_length_le (by rw [List.length_take]; omega)]
    rfl
  rw [partInfo, readHeader_bare hat, hbody, hlines]
  rfl

theorem partInfo_header (h : HeaderLines header) (hne : header ≠ [])
    (hat : Search.At (headerBlock header ++ body) bin start) :
    partInfo u cs bin start (start + (headerBlock header ++ body).length) =
      partAt u cs header body [] start := by
  have hparts := Search.at_append.mp hat
  have hglue : Search.At (Pieces.glue '\r' '\n' header) bin start := by
    rw [headerBlock_eq hne, Search.at_append] at hparts
    exact hparts.1.1
  have hlen : start + (headerBlock header ++ body).length =
      start + (headerBlock header).length + body.length := by
    rw [List.length_append, Nat.add_assoc]
  rw [hlen, partInfo, findBodyStart_header h hne hparts.1 (by omega)]
  rw [readHeader, hglue.slice, countLines_at hparts.2]
  rfl

theorem typeOf_nil : typeOf u cs [] = textPlain [] := rfl

theorem contentType_partAt (header : List Text) (body : Text) (children : List MimePartInfo)
    (start : Nat) : (partAt u cs header body children start).contentType = typeOf u cs header := rfl

theorem wholePart_bodyStart (levels : Nat) :
    (wholePart u cs bin levels start stop).bodyStart =
      (partInfo u cs bin start stop).bodyStart := by
  cases levels <;> rfl

theorem wholePart_childless {levels : Nat}
    (h : childRanges bin (partInfo u cs bin start stop) = []) :
    wholePart u cs bin levels start stop = partInfo u cs bin start stop := by
  cases levels with
  | zero => rfl
  | succ levels =>
    rw [wholePart, h]
    rfl

theorem wholePart_iff {levels : Nat} {children : List MimePartInfo} (h : HeaderLines header)
    (hne : header ≠ []) (hat : Search.At (headerBlock header ++ body) bin start) :
    wholePart u cs bin (levels + 1) start (start + (headerBlock header ++ body).length) =
        partAt u cs header body children start ↔
      (childRanges bin (partAt u cs header body [] start)).map
        (fun r => wholePart u cs bin levels r.1 r.2) = children := by
  rw [wholePart, partInfo_header h hne hat]
  constructor
  · exact fun heq => congrArg MimePartInfo.children heq
  · rintro rfl
    rfl

theorem leaf_iff {levels : Nat} (h : HeaderLines header)
    (hboundary : (typeOf u cs header).boundary = none)
    (hmessage : (typeOf u cs header).isMessage = false)
    (hat : Search.At (headerBlock header ++ body) bin start) :
    wholePart u cs bin levels start (start + (headerBlock header ++ body).length) =
      partAt u cs header body [] start ↔ (header = [] → body = []) := by
  have hno : childRanges bin (partAt u cs header body [] start) = [] := by
    rw [childRanges, contentType_partAt, hboundary, hmessage]
    rfl
  by_cases hne : header = []
  · subst hne
    have hbody : (partInfo u cs bin start (start + (headerBlock [] ++ body).length)).bodyStart =
        start + 2 ↔ body = [] := bodyStart_bare hat
    constructor
    · intro heq _
      refine hbody.mp ?_
      rw [← wholePart_bodyStart levels, heq]
      rfl
    · intro himp
      obtain rfl := himp rfl
      have hinfo : partInfo u cs bin start (start + 2) = partAt u cs [] [] [] start :=
        partInfo_bare (Search.at_append.mp hat).1
      rw [← hinfo] at hno ⊢
      exact wholePart_childless hno
  · have hinfo : partInfo u cs bin start (start + (headerBlock header ++ body).length) =
        partAt u cs header body [] start := partInfo_header h hne hat
    rw [← hinfo] at hno ⊢
    exact iff_of_true (wholePart_childless hno) fun heq => absurd heq hne

theorem info_place (t : MimeTree) (start : Nat) :
    (t.info u cs start).start = start ∧ (t.info u cs start).stop = start + t.text.length := by
  cases t with
  | leaf header body =>
    refine ⟨rfl, ?_⟩
    rw [MimeTree.text, List.length_append, ← Nat.add_assoc]
    rfl
  | message header inner =>
    refine ⟨rfl, ?_⟩
    rw [MimeTree.text, List.length_append, ← Nat.add_assoc]
    rfl
  | multipart header boundary siblings =>
    refine ⟨rfl, ?_⟩
    rw [MimeTree.text, List.length_append, ← Nat.add_assoc]
    rfl

theorem infos_places (boundary : Text) : ∀ (ss : Siblings) (d : Nat),
    (ss.infos u cs boundary d).map (fun p => (p.start, p.stop)) = ss.ranges boundary d
  | .closing _ => fun _ => rfl
  | .cons padding part rest => by
    intro d
    rw [Siblings.infos, Siblings.ranges, List.map_cons, infos_places boundary rest, (info_place part _).1, (info_place part _).2]

theorem map_wholePart_places (levels : Nat) (rs : List (Nat × Nat)) :
    (rs.map fun r => wholePart u cs bin levels r.1 r.2).map (fun p => (p.start, p.stop)) = rs := by
  rw [List.map_map]
  refine (List.map_congr_left fun r _ => ?_).trans (List.map_id rs)
  rw [Function.comp_apply, wholePart_start, wholePart_stop]
  rfl

theorem boundary_of_isMessage {ct : ContentTypeInfo} (h : ct.isMessage = true) :
    ct.boundary = none := by
  rw [ContentTypeInfo.isMessage, Bool.and_eq_true, decide_eq_true_eq] at h
  rw [ContentTypeInfo.boundary, h.1]
  exact if_neg (by decide)

theorem header_ne_nil (h : typeOf u cs header ≠ textPlain []) : header ≠ [] := by
  rintro rfl
  exact h typeOf_nil

theorem padded_of_valid {enclosing : List Text} : ∀ ss : Siblings,
    ss.Valid u cs enclosing → ss.Padded
  | .closing _ => id
  | .cons _ _ rest => fun h => ⟨h.1, padded_of_valid rest h.2.2⟩

mutual

theorem MimeTree.whole_iff : ∀ (t : MimeTree) (enclosing : List Text) (levels start : Nat),
    t.Valid u cs enclosing → Search.At t.text bin start →
    (t.info u cs start).height ≤ levels →
    (wholePart u cs bin levels start (start + t.text.length) = t.info u cs start ↔ t.Unmistaken)
  | .leaf header body => by
    intro enclosing levels start hvalid hat _
    exact leaf_iff hvalid.1 hvalid.2.1 hvalid.2.2.1 hat
  | .message header inner => by
    intro enclosing levels start hvalid hat hheight
    obtain ⟨hlines, hmessage, hinner⟩ := hvalid
    have hne : header ≠ [] := header_ne_nil fun h => by
      rw [h] at hmessage
      exact absurd hmessage (by decide)
    rw [MimeTree.info, height_eq] at hheight
    rw [MimeTree.text] at hat ⊢
    obtain ⟨-, hbody⟩ := Search.at_append.mp hat
    cases levels with
    | zero => exact absurd (Nat.le_trans (Nat.le_max_left _ _) hheight) (Nat.not_succ_le_zero _)
    | succ levels =>
      have hinfo : (inner.info u cs (start + (headerBlock header).length)).height ≤ levels :=
        Nat.le_of_succ_le_succ (Nat.le_trans (Nat.le_max_left _ _) hheight)
      have hranges : childRanges bin (partAt u cs header inner.text [] start) =
          [(start + (headerBlock header).length,
            start + (headerBlock header).length + inner.text.length)] := by
        rw [childRanges, contentType_partAt, boundary_of_isMessage hmessage, hmessage]
        rfl
      rw [MimeTree.info, wholePart_iff hlines hne hat, hranges, List.map_singleton,
        List.cons.injEq, eq_self, and_true]
      exact MimeTree.whole_iff inner enclosing levels _ hinner hbody hinfo
  | .multipart header boundary siblings => by
    intro enclosing levels start hvalid hat hheight
    obtain ⟨hlines, hboundary, hb, hsiblings⟩ := hvalid
    have hne : header ≠ [] := header_ne_nil fun h => by
      rw [h] at hboundary
      exact absurd hboundary nofun
    rw [MimeTree.info, height_eq] at hheight
    rw [MimeTree.text] at hat ⊢
    obtain ⟨-, hbody⟩ := Search.at_append.mp hat
    cases levels with
    | zero =>
      cases siblings with
      | closing padding =>
        exact iff_of_true (partInfo_header hlines hne hat) ⟨trivial, trivial⟩
      | cons padding part rest =>
        exact absurd (Nat.le_trans (Nat.le_max_left _ _) hheight) (Nat.not_succ_le_zero _)
    | succ levels =>
      have hranges : childRanges bin (partAt u cs header (siblings.text boundary) [] start) =
          splitParts bin boundary (start + (headerBlock header).length)
            (start + (headerBlock header).length + (siblings.text boundary).length)
            (start + (headerBlock header).length + (siblings.text boundary).length) := by
        rw [childRanges, contentType_partAt, hboundary]
        rfl
      have hcut := splitParts_iff hb.plain (padded_of_valid siblings hsiblings) hbody
      have hwhole := Siblings.whole_iff siblings _ boundary levels _ hsiblings hbody hheight
      rw [MimeTree.info, wholePart_iff hlines hne hat, hranges, MimeTree.Unmistaken]
      constructor
      · intro heq
        have hplaces := congrArg (List.map fun p : MimePartInfo => (p.start, p.stop)) heq
        rw [map_wholePart_places, infos_places] at hplaces
        rw [hplaces] at heq
        exact ⟨hcut.mp hplaces, hwhole.mp heq⟩
      · rintro ⟨hclean, hparts⟩
        rw [hcut.mpr hclean]
        exact hwhole.mpr hparts

theorem Siblings.whole_iff : ∀ (ss : Siblings) (enclosing : List Text) (boundary : Text)
    (levels d : Nat), ss.Valid u cs enclosing → Search.At (ss.text boundary) bin d →
    heightOf (ss.infos u cs boundary d) ≤ levels + 1 →
    ((ss.ranges boundary d).map (fun r => wholePart u cs bin levels r.1 r.2) =
      ss.infos u cs boundary d ↔ ss.Unmistaken)
  | .closing _ => fun _ _ _ _ _ _ _ => iff_of_true rfl trivial
  | .cons padding part rest => by
    intro enclosing boundary levels d hvalid hat hheight
    obtain ⟨-, hpart, hrest⟩ := hvalid
    have hcr : crlf.length = 2 := rfl
    rw [Siblings.text, Search.at_append, Search.at_append, Search.at_append, hcr] at hat
    obtain ⟨-, -, -, hat⟩ := hat
    rw [Siblings.infos] at hheight
    rw [Siblings.infos, Siblings.ranges]
    generalize d + (delimiter boundary).length + padding.length + 2 = s at hat hheight ⊢
    rw [Search.at_append, Search.at_append, hcr] at hat
    obtain ⟨hthis, -, hnext⟩ := hat
    have hfirst := Nat.le_of_succ_le_succ (Nat.le_trans (Nat.le_max_left _ _) hheight)
    have hlater := Nat.le_trans (Nat.le_max_right _ _) hheight
    rw [List.map_cons, List.cons.injEq, Siblings.Unmistaken]
    exact and_congr (MimeTree.whole_iff part enclosing levels s hpart hthis hfirst)
      (Siblings.whole_iff rest enclosing boundary levels _ hrest hnext hlater)

end

theorem info_bodyStart_pos (t : MimeTree) (start : Nat) :
    0 < (t.info u cs start).bodyStart := by
  have hblock : ∀ header, 0 < start + (headerBlock header).length := by
    intro header
    rw [headerBlock, List.length_append, show crlf.length = 2 from rfl]
    omega
  cases t with
  | leaf header body => exact hblock header
  | message header inner => exact hblock header
  | multipart header boundary siblings => exact hblock header

/-- A tree within the limits is read back if and only if nothing in it is mistaken for the end of
a header or for a delimiter. -/
theorem composition_round_trip (u : CaseMap) (cs : Charsets) (t : MimeTree) (raw : Bytes)
    (hvalid : t.Valid u cs []) (hraw : latin1Decode raw = t.text)
    (hheight : (t.info u cs 0).height ≤ maxMimeDepth)
    (hparts : (t.info u cs 0).parts.length ≤ maxMimeParts) :
    parseStructure u cs raw = t.info u cs 0 ↔ t.Unmistaken := by
  have hlen : raw.length = t.text.length := by rw [← hraw, latin1Decode_length]
  have hat : Search.At t.text t.text 0 := List.prefix_rfl
  have hwhole := MimeTree.whole_iff t [] maxMimeDepth 0 hvalid hat hheight
  rw [Nat.zero_add] at hwhole
  rw [parseStructure_eq, hraw, hlen]
  split_ifs with hfit
  · exact hwhole
  · have hbig : wholePart u cs t.text maxMimeDepth 0 t.text.length ≠ t.info u cs 0 := by
      intro h
      rw [h] at hfit
      exact hfit hparts
    refine iff_of_false (fun h => ?_) (fun h => hbig (hwhole.mpr h))
    have hstart : 0 = (t.info u cs 0).bodyStart := congrArg MimePartInfo.bodyStart h
    exact absurd hstart (Nat.ne_of_lt (info_bodyStart_pos t 0))

def plainCharsets : Charsets := ⟨fun _ _ => none⟩

/-- A multipart of a leaf and a multipart. -/
def nested (header : List Text) (body : Text) : MimeTree :=
  .multipart ["Content-Type: multipart/mixed; boundary=b".toList] "b".toList
    (.cons [' '] (.leaf header body) (.cons []
      (.multipart ["Content-Type: multipart/mixed; boundary=c".toList] "c".toList
        (.cons [] (.leaf ["C: d".toList] "y".toList) (.closing []))) (.closing [])))

instance (s boundary : Text) (i : Nat) : Decidable (Delimits s boundary 0 i) :=
  inferInstanceAs (Decidable ((delimiter boundary <+: s.drop i) ∧ (i = 0 ∨ s[i - 1]? = some '\n')))

theorem delimited_iff (boundary s : Text) :
    Delimited boundary s ↔ ∃ i, i < s.length ∧ Delimits s boundary 0 i :=
  ⟨fun ⟨i, h⟩ => ⟨i, h.1.lt (delimiter_ne_nil boundary), h⟩, fun ⟨i, _, h⟩ => ⟨i, h⟩⟩

instance (boundary s : Text) : Decidable (Delimited boundary s) :=
  decidable_of_iff _ (delimited_iff boundary s).symm

theorem leaf_valid {header enclosing : List Text} {body : Text} (hlines : HeaderLines header)
    (hboundary : (typeOf asciiCaseMap plainCharsets header).boundary = none)
    (hmessage : (typeOf asciiCaseMap plainCharsets header).isMessage = false)
    (hbody : Pieces.split '\r' '\n' body = [body]) (hdash : body.head? ≠ some '-') :
    (MimeTree.leaf header body).Valid asciiCaseMap plainCharsets enclosing := by
  refine ⟨hlines, hboundary, hmessage, ?_⟩
  intro line hline b _ hdel
  rw [hbody, List.mem_singleton] at hline
  obtain ⟨padding, -, h | h⟩ := hdel
  · rw [hline] at h
    exact hdash (by rw [h]; rfl)
  · rw [hline] at h
    exact hdash (by rw [h]; rfl)

theorem nested_valid {header : List Text} {body : Text}
    (hleaf : (MimeTree.leaf header body).Valid asciiCaseMap plainCharsets ["b".toList]) :
    (nested header body).Valid asciiCaseMap plainCharsets [] := by
  have hboundary : ∀ b ∈ ["b".toList, "c".toList], ValidBoundary b := by
    intro b hb
    simp only [List.mem_cons, List.not_mem_nil, or_false] at hb
    obtain rfl | rfl := hb
    · exact ⟨by decide, by decide, by decide⟩
    · exact ⟨by decide, by decide, by decide⟩
  have hpadding : Padding [] := by decide
  refine ⟨by decide, by decide +kernel, hboundary _ (by simp), by decide, hleaf, hpadding,
    ⟨by decide, by decide +kernel, hboundary _ (by simp), hpadding, ?_, hpadding⟩, hpadding⟩
  exact leaf_valid (by decide) (by decide +kernel) (by decide +kernel) (by decide) (by decide)

theorem composition_round_trip_nested :
    parseStructure asciiCaseMap plainCharsets
        (latin1Encode (nested ["A: b".toList] "x".toList).text) =
      (nested ["A: b".toList] "x".toList).info asciiCaseMap plainCharsets 0 :=
  (composition_round_trip _ _ _ _
    (nested_valid
      (leaf_valid (by decide) (by decide +kernel) (by decide +kernel) (by decide) (by decide)))
    (by decide +kernel) (by decide +kernel) (by decide +kernel)).mpr
    ⟨⟨by decide +kernel, by decide +kernel, trivial⟩, fun h => absurd h (by decide),
      ⟨⟨by decide +kernel, trivial⟩, fun h => absurd h (by decide), trivial⟩, trivial⟩

/-- The text of a part without a header is taken for the header. -/
theorem composition_round_trip_fails :
    ¬ ∀ (u : CaseMap) (cs : Charsets) (t : MimeTree) (raw : Bytes), t.Valid u cs [] →
      latin1Decode raw = t.text → (t.info u cs 0).height ≤ maxMimeDepth →
      (t.info u cs 0).parts.length ≤ maxMimeParts → parseStructure u cs raw = t.info u cs 0 := by
  intro h
  have hparse := h asciiCaseMap plainCharsets (nested [] "x".toList)
    (latin1Encode (nested [] "x".toList).text)
    (nested_valid
      (leaf_valid (by decide) (by decide +kernel) (by decide +kernel) (by decide) (by decide)))
    (by decide +kernel) (by decide +kernel) (by decide +kernel)
  have hsizes := congrArg (fun p : MimePartInfo => p.children.map (·.size)) hparse
  exact absurd hsizes (by decide +kernel)

end Ionosphere.Mime
