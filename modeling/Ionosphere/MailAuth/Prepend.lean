import Ionosphere.Js.Utf8
import Ionosphere.MailAuth.Fields
import Ionosphere.MailAuth.Sign

/-! A header in front of a message: it is read as its fields and then the message's, and the body is
the same. -/
namespace Ionosphere.MailAuth

open Ionosphere.Js Ionosphere.Lib

variable {raw : Bytes} {rs : List (List Text)}

def linesOf (raw : Bytes) : List Text :=
  Pieces.split '\r' '\n' (normalizeLineEndings (latin1Decode raw))

def StartsWithField (raw : Bytes) : Prop := (toField ((linesOf raw).headD [])).isSome

instance (raw : Bytes) : Decidable (StartsWithField raw) :=
  inferInstanceAs (Decidable (_ = true))

/-- The lines of a header that can stand in front of a message. -/
structure HeaderLines (rs : List (List Text)) : Prop where
  ne_nil : rs ≠ []
  folded : ∀ ls ∈ rs, Folded ls
  lines : ∀ l ∈ rs.flatten, l ≠ []
  ascii : ∀ l ∈ rs.flatten, ∀ c ∈ l, c.toNat < 128

theorem plainLines_linesOf (raw : Bytes) : ∀ l ∈ linesOf raw, Plain l := by
  obtain ⟨ls, hne, heq, hplain⟩ := normalizeFrom_eq_glue false (latin1Decode raw)
  rw [linesOf, normalizeLineEndings, heq,
    Pieces.split_glue (by decide) hne fun l hl => (hplain l hl).notMem]
  exact hplain

theorem splitBlank_eq {s a b : Text} (h : splitBlank s = some (a, b)) :
    s = a ++ '\r' :: '\n' :: '\r' :: '\n' :: b := by
  induction s generalizing a with
  | nil => cases h
  | cons c s ih =>
    rw [splitBlank] at h
    split_ifs at h with hpre
    · obtain ⟨t, ht⟩ := List.isPrefixOf_iff_prefix.mp hpre
      obtain ⟨rfl, rfl⟩ := List.cons.inj ht
      cases h
      rfl
    · obtain ⟨⟨a', b'⟩, hrest, heq⟩ := Option.map_eq_some_iff.mp h
      obtain ⟨rfl, rfl⟩ := Prod.mk.inj heq
      rw [ih hrest]
      rfl

theorem splitBlank_glue {ls : List Text} (hne : ls ≠ []) (hplain : ∀ l ∈ ls, Plain l)
    (hlines : ∀ l ∈ ls, l ≠ []) {m : Text} (hm : m.head? ≠ some '\r') :
    splitBlank (Pieces.glue '\r' '\n' ls ++ '\r' :: '\n' :: m) =
      (splitBlank m).map fun p => (Pieces.glue '\r' '\n' ls ++ '\r' :: '\n' :: p.1, p.2) := by
  induction ls with
  | nil => exact absurd rfl hne
  | cons l ls ih =>
    obtain ⟨hl, hls⟩ := List.forall_mem_cons.mp hplain
    by_cases hnil : ls = []
    · rw [hnil]
      exact splitBlank_append hl hm
    · obtain ⟨l', ls', rfl⟩ := List.exists_cons_of_ne_nil hnil
      have hl' := (List.forall_mem_cons.mp hls).1
      have hhead : (Pieces.glue '\r' '\n' (l' :: ls') ++ '\r' :: '\n' :: m).head? ≠ some '\r' := by
        cases hcase : l' with
        | nil => exact absurd hcase (hlines l' (by simp))
        | cons c l'' =>
          have hc : c ≠ '\r' := (hl' c (by simp [hcase])).1
          cases ls' <;> simpa [Pieces.glue] using hc
      rw [Pieces.glue_cons hnil, List.append_assoc]
      change splitBlank (l ++ '\r' :: '\n' :: (Pieces.glue '\r' '\n' (l' :: ls') ++ '\r' :: '\n' :: m)) = _
      rw [splitBlank_append hl hhead,
        ih hnil hls fun x hx => hlines x (List.mem_cons_of_mem _ hx), Option.map_map]
      refine congrArg (fun f => Option.map f (splitBlank m)) (funext fun p => ?_)
      simp

theorem head_linesOf (h : StartsWithField raw) :
    ∃ c s, (linesOf raw).headD [] = c :: s ∧ isFieldNameChar c := by
  obtain ⟨f, hf⟩ := Option.isSome_iff_exists.mp h
  obtain ⟨-, hname, value, heq⟩ := toField_eq_some hf
  obtain ⟨c, s, hcs, hc⟩ := head_of_isFieldName hname
  rw [hcs] at heq
  exact ⟨c, _, heq, hc⟩

theorem headD_split_headerBlock (s : Text) :
    (Pieces.split '\r' '\n' (splitMessage s).headerBlock).headD [] =
      (Pieces.split '\r' '\n' s).headD [] := by
  rw [splitMessage]
  cases h : splitBlank s with
  | none => rfl
  | some p =>
    obtain ⟨a, b⟩ := p
    rw [splitBlank_eq h, Pieces.split_append (by decide)]
    have hne : Pieces.split '\r' '\n' a ≠ [] := Pieces.split_ne_nil a
    obtain ⟨l, ls, hsplit⟩ := List.exists_cons_of_ne_nil hne
    dsimp only
    rw [hsplit]
    rfl

theorem head_of_headD_split {s l : Text} {c : Char}
    (h : (Pieces.split '\r' '\n' s).headD [] = c :: l) : s.head? = some c := by
  have hne : Pieces.split '\r' '\n' s ≠ [] := Pieces.split_ne_nil s
  have hglue : Pieces.glue '\r' '\n' (Pieces.split '\r' '\n' s) = s := Pieces.glue_split s
  obtain ⟨p, ps, hsplit⟩ := List.exists_cons_of_ne_nil hne
  rw [hsplit, List.headD_cons] at h
  rw [← hglue, hsplit, h]
  cases ps <;> rfl

theorem splitMessage_prepend (hrs : HeaderLines rs) {m : Text}
    (hm : m.head? ≠ some '\r') :
    splitMessage (Pieces.glue '\r' '\n' rs.flatten ++ '\r' :: '\n' :: m) =
      ⟨Pieces.glue '\r' '\n' rs.flatten ++ '\r' :: '\n' :: (splitMessage m).headerBlock,
        (splitMessage m).body⟩ := by
  rw [splitMessage, splitBlank_glue (flatten_ne_nil hrs.folded hrs.ne_nil)
    (plain_flatten hrs.folded) hrs.lines hm, splitMessage]
  cases splitBlank m <;> rfl

theorem normalize_prepend (hrs : HeaderLines rs) :
    normalizeLineEndings (latin1Decode (prependHeader raw (Pieces.glue '\r' '\n' rs.flatten))) =
      Pieces.glue '\r' '\n' rs.flatten ++
        '\r' :: '\n' :: normalizeLineEndings (latin1Decode raw) := by
  have hascii : ∀ c ∈ Pieces.glue '\r' '\n' rs.flatten ++ crlf, c.toNat < 128 := by
    refine List.forall_mem_append.mpr ⟨fun c hc => ?_, by decide⟩
    rcases Pieces.mem_glue hc with rfl | rfl | ⟨l, hl, hmem⟩
    · decide
    · decide
    · exact hrs.ascii l hl c hmem
  rw [prependHeader, utf8Encode_ascii hascii, latin1Decode_append,
    latin1Decode_latin1Encode fun c hc => (hascii c hc).trans (by decide), List.append_assoc]
  change normalizeLineEndings (_ ++ '\r' :: '\n' :: latin1Decode raw) = _
  rw [normalizeLineEndings_append, normalizeLineEndings_glue (plain_flatten hrs.folded)]

theorem readMessage_prepend (hstart : StartsWithField raw)
    (hrs : HeaderLines rs) :
    readMessage (prependHeader raw (Pieces.glue '\r' '\n' rs.flatten)) =
      ((rs.map (Pieces.glue '\r' '\n')).filterMap toField ++ (readMessage raw).1,
        (readMessage raw).2) := by
  obtain ⟨c, s, hhead, hc⟩ := head_linesOf hstart
  obtain ⟨hfirst, hcr⟩ := notContinuation_of_isFieldNameChar hc s
  have hm : (normalizeLineEndings (latin1Decode raw)).head? ≠ some '\r' := by
    rw [head_of_headD_split hhead]
    simpa using hcr
  have hblock : isContinuation ((Pieces.split '\r' '\n'
      (splitMessage (normalizeLineEndings (latin1Decode raw))).headerBlock).headD []) = false := by
    rw [headD_split_headerBlock]
    exact (congrArg isContinuation hhead).trans hfirst
  rw [readMessage, normalize_prepend hrs, splitMessage_prepend hrs hm]
  dsimp only
  rw [parseHeaderFields_prepend hrs.folded hrs.ne_nil hblock]
  rfl

theorem wellFormed_readMessage (raw : Bytes) : ∀ f ∈ (readMessage raw).1, WellFormed f := by
  refine wellFormed_of_mem fun l hl => ?_
  refine plainLines_linesOf raw l ?_
  rw [splitMessage] at hl
  cases h : splitBlank (normalizeLineEndings (latin1Decode raw)) with
  | none =>
    rw [h] at hl
    exact hl
  | some p =>
    obtain ⟨a, b⟩ := p
    rw [h] at hl
    rw [linesOf, splitBlank_eq h, Pieces.split_append (by decide)]
    exact List.mem_append_left _ hl

end Ionosphere.MailAuth
