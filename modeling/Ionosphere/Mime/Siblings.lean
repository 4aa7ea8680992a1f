import Ionosphere.Mime.Composition

/-! The ranges that the splitter cuts out of a written multipart. -/
namespace Ionosphere.Mime

open Ionosphere.Js Ionosphere.Lib Ionosphere.MailAuth

/-- Where the parts of a multipart stand, its body beginning at a place. -/
def Siblings.ranges (boundary : Text) (start : Nat) : Siblings → List (Nat × Nat)
  | .closing _ => []
  | .cons padding part rest =>
    let s := start + (delimiter boundary).length + padding.length + 2
    (s, s + part.text.length) :: rest.ranges boundary (s + part.text.length + 2)

def Siblings.Padded : Siblings → Prop
  | .closing padding => Padding padding
  | .cons padding _ rest => Padding padding ∧ rest.Padded

variable {bin boundary padding t : Text} {start stop cursor room d s i : Nat}
  {partStart : Option Nat}

theorem length_ranges_le (boundary : Text) (d : Nat) :
    ∀ ss : Siblings, (ss.ranges boundary d).length ≤ (ss.text boundary).length
  | .closing _ => Nat.zero_le _
  | .cons padding part rest => by
    have hrest := length_ranges_le boundary
      (d + (delimiter boundary).length + padding.length + 2 + part.text.length + 2) rest
    have hlen := length_delimiter boundary
    simp only [Siblings.ranges, Siblings.text, List.length_cons, List.length_append]
    omega

theorem ValidBoundary.plain (h : ValidBoundary boundary) : Plain boundary := by
  intro c hc
  have hchar := h.chars c hc
  constructor
  · rintro rfl
    exact absurd hchar (by decide)
  · rintro rfl
    exact absurd hchar (by decide)

theorem plain_delimiter (h : Plain boundary) : Plain (delimiter boundary) :=
  List.forall_mem_cons.mpr ⟨by decide, List.forall_mem_cons.mpr ⟨by decide, h⟩⟩

theorem delimited_of_delimits (hb : Plain boundary) (hat : Search.At (t ++ crlf) bin s)
    (hs : start < s) (hi : i < t.length + 2) (hdel : Delimits bin boundary start (s + i)) :
    Delimited boundary t := by
  obtain ⟨htext, hcrlf⟩ := Search.at_append.mp hat
  have hplain := plain_delimiter hb
  have hcr : bin[s + t.length]? = some '\r' := hcrlf.getElem? (k := 0) (by decide)
  have hlf : bin[s + t.length + 1]? = some '\n' := hcrlf.getElem? (k := 1) (by decide)
  -- The delimiter has no line end, so it ends in front of the one behind the part.
  have hend : i + (delimiter boundary).length ≤ t.length := by
    by_contra hover
    have hlen := length_delimiter boundary
    rcases Nat.lt_or_ge t.length i with hlt | hge
    · have hi' : s + i + 0 = s + t.length + 1 := by omega
      have hget := hdel.1.getElem? (k := 0) (by omega)
      rw [hi', hlf] at hget
      exact (hplain _ (List.mem_of_getElem? hget.symm)).2 rfl
    · have hi' : s + i + (t.length - i) = s + t.length := by omega
      have hget := hdel.1.getElem? (k := t.length - i) (by omega)
      rw [hi', hcr] at hget
      exact (hplain _ (List.mem_of_getElem? hget.symm)).1 rfl
  refine ⟨i, htext.within hdel.1 hend, ?_⟩
  rcases hdel.2 with hstart | hline
  · omega
  · cases i with
    | zero => exact .inl rfl
    | succ k =>
      refine .inr ?_
      have hk : s + (k + 1) - 1 = s + k := by omega
      rw [hk, htext.getElem? (by omega)] at hline
      rwa [Nat.add_sub_cancel]

theorem exists_delimits (hat : Search.At t bin s) (hline : AtLineStart bin start s)
    (hdel : Delimited boundary t) :
    ∃ j, s ≤ j ∧ j < s + t.length ∧ Delimits bin boundary start j := by
  obtain ⟨i, hi, hstart⟩ := hdel
  have hlt : i < t.length := hi.lt (delimiter_ne_nil boundary)
  refine ⟨s + i, by omega, by omega, hat.of_within hi (by omega), ?_⟩
  rcases hstart with rfl | hnl
  · exact hline
  · cases i with
    | zero => exact hline
    | succ k =>
      refine .inr ?_
      have hk : s + (k + 1) - 1 = s + k := by omega
      rw [Nat.add_sub_cancel] at hnl
      rw [hk, hat.getElem? (by omega), hnl]

theorem partEnd_crlf (hat : Search.At crlf bin i) (hs : s ≤ i) : partEnd bin s (i + 2) = i := by
  have hcr : bin[i]? = some '\r' := hat.getElem? (k := 0) (by decide)
  have hlf : bin[i + 1]? = some '\n' := hat.getElem? (k := 1) (by decide)
  have hnear : s < i + 2 ∧ bin[i + 2 - 1]? = some '\n' := ⟨by omega, hlf⟩
  have hnext : s < i + 2 - 1 ∧ bin[i + 2 - 1 - 1]? = some '\r' := ⟨by omega, hcr⟩
  dsimp only [partEnd]
  rw [if_pos hnear, if_pos hnext]
  omega

theorem padding_char (hpad : Padding padding) (hat : Search.At (padding ++ crlf) bin s)
    (hi : i ≤ padding.length) :
    ∃ c, bin[s + i]? = some c ∧ (c = ' ' ∨ c = '\t' ∨ c = '\r') := by
  obtain ⟨hpadding, hcrlf⟩ := Search.at_append.mp hat
  rcases Nat.eq_or_lt_of_le hi with rfl | hlt
  · exact ⟨'\r', hcrlf.getElem? (k := 0) (by decide), .inr (.inr rfl)⟩
  · refine ⟨padding[i], ?_, ?_⟩
    · rw [hpadding.getElem? hlt, List.getElem?_eq_getElem hlt]
    · exact (hpad _ (List.getElem_mem hlt)).imp_right .inl

theorem not_final (hpad : Padding padding) (hat : Search.At (padding ++ crlf) bin s) :
    ¬ ['-', '-'] <+: bin.drop s := by
  intro h
  obtain ⟨c, hc, hcases⟩ := padding_char hpad hat (Nat.zero_le _)
  have hdash : bin[s + 0]? = some '-' := Search.At.getElem? h (k := 0) (by decide)
  rw [hc] at hdash
  obtain rfl := Option.some.inj hdash
  exact absurd hcases (by decide)

theorem lineEnd_found (hpad : Padding padding) (hat : Search.At (padding ++ crlf) bin s)
    (hstop : s + padding.length + 1 < stop) :
    indexOfWithin bin ['\n'] s stop = some (s + padding.length + 1) := by
  have hcrlf := (Search.at_append.mp hat).2
  refine indexOfWithin_eq_some (by decide) ⟨by omega, hstop⟩
    (Search.at_singleton.mpr (hcrlf.getElem? (k := 1) (by decide))) ?_
  intro j hj hlt hnl
  obtain ⟨c, hc, hcases⟩ := padding_char hpad hat (i := j - s) (by omega)
  have hj' : s + (j - s) = j := by omega
  rw [hj', Search.at_singleton.mp hnl] at hc
  obtain rfl := Option.some.inj hc
  exact absurd hcases (by decide)

/-- A line start that a scan from the cursor gets to without a delimiter on the way. -/
structure Ahead (bin boundary : Text) (start cursor d : Nat) : Prop where
  line : AtLineStart bin start d
  lower : start ≤ cursor
  upper : cursor ≤ d
  clear : ∀ j, cursor ≤ j → j < d → ¬ Delimits bin boundary start j

theorem splitLoop_siblings (hb : Plain boundary) : ∀ (ss : Siblings) (d cursor room : Nat)
    (partStart : Option Nat), ss.Padded → ss.Undelimited boundary →
    Search.At (ss.text boundary) bin d → stop = d + (ss.text boundary).length →
    Ahead bin boundary start cursor d →
    (ss.ranges boundary d).length + partStart.toList.length ≤ room → room ≠ 0 →
    splitLoop bin boundary start stop cursor partStart room =
      closedRange bin partStart d ++ ss.ranges boundary d
  | .closing padding => by
    intro d cursor room partStart _ _ hat hstop hahead _ hroom
    rw [Siblings.text, Search.at_append, Search.at_append] at hat
    have hlen := length_delimiter boundary
    have hd : d < stop := by
      rw [hstop, Siblings.text, List.length_append]
      omega
    obtain ⟨c, hc, heq⟩ := exists_splitLoop_eq (fun h => (hb _ h).2 rfl) ⟨hat.1, hahead.line⟩
      ⟨hahead.lower, hahead.upper⟩ hd hroom hahead.clear
    rw [heq, splitLoop_final hroom hc hahead.line hat.2.1, Siblings.ranges, List.append_nil]
  | .cons padding part rest => by
    intro d cursor room partStart hpad hclean hat hstop hahead hcount hroom
    obtain ⟨hpadding, hrest⟩ := hpad
    obtain ⟨hpart, hclean⟩ := hclean
    have hnlb : '\n' ∉ boundary := fun h => (hb _ h).2 rfl
    have hlen := length_delimiter boundary
    simp only [Siblings.text, List.length_append] at hstop
    have hcr : crlf.length = 2 := rfl
    -- the places of the line end, the part, the line end behind it and the next delimiter
    rw [Siblings.text, Search.at_append] at hat
    obtain ⟨hdelim, hat⟩ := hat
    have hline : Search.At (padding ++ crlf) bin (d + (delimiter boundary).length) := by
      rw [← List.append_assoc, Search.at_append] at hat
      exact hat.1
    rw [Search.at_append, Search.at_append] at hat
    obtain ⟨-, hcrlf, hat⟩ := hat
    rw [hcr] at hat
    rw [Siblings.ranges, List.length_cons] at hcount
    rw [Siblings.ranges]
    generalize hs : d + (delimiter boundary).length + padding.length + 2 = s at hat hcount ⊢
    have hbody : Search.At (part.text ++ crlf) bin s := by
      rw [← List.append_assoc, Search.at_append] at hat
      exact hat.1
    rw [Search.at_append, Search.at_append, hcr] at hat
    obtain ⟨-, hend, hnext⟩ := hat
    have hdstop : d < stop := by omega
    have hnlstop : d + (delimiter boundary).length + padding.length + 1 < stop := by omega
    obtain ⟨c, hc, heq⟩ := exists_splitLoop_eq hnlb ⟨hdelim, hahead.line⟩
      ⟨hahead.lower, hahead.upper⟩ hdstop hroom hahead.clear
    have hnl := lineEnd_found hpadding hline hnlstop
    have hs' : d + (delimiter boundary).length + padding.length + 1 + 1 = s := by omega
    have hlow := hahead.lower
    have hupp := hahead.upper
    have hnewline : bin[s + part.text.length + 2 - 1]? = some '\n' :=
      hend.getElem? (k := 1) (by decide)
    have hroom' : room - partStart.toList.length ≠ 0 := by omega
    have hahead' : Ahead bin boundary start s (s + part.text.length + 2) := by
      refine ⟨.inr hnewline, by omega, by omega, fun j hj hlt hdel => hpart ?_⟩
      have hj' : s + (j - s) = j := by omega
      exact delimited_of_delimits hb hbody (by omega) (by omega) (hj' ▸ hdel)
    rw [heq, splitLoop_next hroom hc hahead.line (not_final hpadding hline) hnl, hs',
      splitLoop_siblings hb rest (s + part.text.length + 2) s _ (some s) hrest hclean hnext
        (by omega) hahead' (by simp only [Option.toList_some, List.length_singleton]; omega) hroom']
    have hclosed : closedRange bin (some s) (s + part.text.length + 2) =
        [(s, s + part.text.length)] := by
      rw [closedRange, Option.toList_some, List.map_singleton, partEnd_crlf hend (by omega)]
    rw [hclosed]
    rfl

theorem splitParts_siblings (hb : Plain boundary) {ss : Siblings} (hpad : ss.Padded)
    (hclean : ss.Undelimited boundary) (hat : Search.At (ss.text boundary) bin start) :
    splitParts bin boundary start (start + (ss.text boundary).length)
      (start + (ss.text boundary).length) = ss.ranges boundary start := by
  have hcount := length_ranges_le boundary start ss
  have hpos : start + (ss.text boundary).length ≠ 0 := by
    cases ss with
    | closing => simp [Siblings.text, delimiter]
    | cons => simp [Siblings.text, delimiter]
  rw [splitParts, splitLoop_siblings hb ss start start _ none hpad hclean hat rfl
    ⟨.inl rfl, Nat.le_refl _, Nat.le_refl _, fun j hj hlt => by omega⟩
    (by simp only [Option.toList_none, List.length_nil]; omega) hpos]
  rfl

theorem undelimited_of_clear : ∀ (ss : Siblings) (d : Nat),
    Search.At (ss.text boundary) bin d →
    (∀ r ∈ ss.ranges boundary d, ∀ j, r.1 ≤ j ∧ j < r.2 → ¬ Delimits bin boundary start j) →
    ss.Undelimited boundary
  | .closing _ => fun _ _ _ => trivial
  | .cons padding part rest => by
    intro d hat hclear
    have hcr : crlf.length = 2 := rfl
    rw [Siblings.text, Search.at_append, Search.at_append, Search.at_append, hcr] at hat
    obtain ⟨-, -, hcrlf, hat⟩ := hat
    rw [Siblings.ranges] at hclear
    have hline : bin[d + (delimiter boundary).length + padding.length + 2 - 1]? = some '\n' :=
      hcrlf.getElem? (k := 1) (by decide)
    generalize d + (delimiter boundary).length + padding.length + 2 = s at hat hclear hline
    rw [Search.at_append, Search.at_append, hcr] at hat
    obtain ⟨hpart, -, hnext⟩ := hat
    refine ⟨fun hdel => ?_, undelimited_of_clear rest _ hnext fun r hr => hclear r (.tail _ hr)⟩
    obtain ⟨j, hj, hlt, hdelim⟩ := exists_delimits hpart (.inr hline) hdel
    exact hclear _ (.head _) j ⟨hj, hlt⟩ hdelim

theorem splitParts_iff (hb : Plain boundary) {ss : Siblings} (hpad : ss.Padded)
    (hat : Search.At (ss.text boundary) bin start) :
    splitParts bin boundary start (start + (ss.text boundary).length)
        (start + (ss.text boundary).length) = ss.ranges boundary start ↔
      ss.Undelimited boundary := by
  constructor
  · intro h
    have hclear : ∀ r ∈ ss.ranges boundary start, ∀ j, r.1 ≤ j ∧ j < r.2 →
        ¬ Delimits bin boundary start j := by
      intro r hr j hj
      rw [← h] at hr
      exact splitLoop_clean (fun hmem => (hb _ hmem).2 rfl) (Nat.le_refl _)
        (fun s hs => absurd hs (Option.not_mem_none s)) hr hj
    exact undelimited_of_clear ss start hat hclear
  · exact fun h => splitParts_siblings hb hpad h hat

end Ionosphere.Mime
