import Mathlib.Data.List.Chain
import Mathlib.Tactic.FinCases
import Ionosphere.Mime.Headers

/-! The end of the header as each scanner finds it. Two line ends in a row are a blank line to
the authentication code, which makes every line end a CRLF first. The other scanners look for
three words only, each in its own order. -/
namespace Ionosphere.Mime

open Ionosphere.Js Ionosphere.Lib Ionosphere.MailAuth

/-- The last symbol of one line end and the first one of another. -/
def Adjoin (a b : Char) : Prop := (a = '\r' ∧ b = '\r') ∨ (a = '\n' ∧ (b = '\r' ∨ b = '\n'))

instance (a b : Char) : Decidable (Adjoin a b) := inferInstanceAs (Decidable (_ ∨ _))

def Unbroken (s : Text) : Prop := s.IsChain fun a b => ¬ Adjoin a b

/-- The text through the first line end that another one follows, and the text from there. -/
def cutBlank : Text → Option (Text × Text)
  | a :: b :: s =>
    if Adjoin a b then some ([a], b :: s) else (cutBlank (b :: s)).map fun p => (a :: p.1, p.2)
  | _ => none

/-- What surrounds the first two line ends in a row: `front` is what stands before the first
of them, `lineEnd`, and `rest` begins with the second. -/
structure Blank (bin front lineEnd rest : Text) : Prop where
  cut : bin = front ++ lineEnd ++ rest
  lineEnd_eq : lineEnd = crlf ∨ lineEnd = ['\r'] ∨ lineEnd = ['\n']
  next : rest.head? = some '\r' ∨ (rest.head? = some '\n' ∧ lineEnd ≠ ['\r'])
  plain : ∀ c, front.getLast? = some c → c ≠ '\r' ∧ c ≠ '\n'
  unbroken : Unbroken (front ++ lineEnd)

variable {bin front lineEnd rest x y : Text}

theorem unbroken_of_cutBlank (h : cutBlank bin = none) : Unbroken bin := by
  induction bin with
  | nil => exact .nil
  | cons a s ih =>
    cases s with
    | nil => exact .singleton a
    | cons b s =>
      rw [cutBlank] at h
      split_ifs at h with hab
      exact .cons_cons hab (ih (Option.map_eq_none_iff.mp h))

theorem eq_of_cutBlank (h : cutBlank bin = some (x, y)) :
    ∃ t a b s, x = t ++ [a] ∧ y = b :: s ∧ bin = t ++ a :: b :: s ∧ Adjoin a b ∧
      Unbroken (t ++ [a]) := by
  induction bin generalizing x with
  | nil => cases h
  | cons a s ih =>
    cases s with
    | nil => cases h
    | cons b s =>
      rw [cutBlank] at h
      split_ifs at h with hab
      · cases h
        exact ⟨[], a, b, s, rfl, rfl, rfl, hab, .singleton a⟩
      · obtain ⟨⟨x', y'⟩, hrest, heq⟩ := Option.map_eq_some_iff.mp h
        obtain ⟨rfl, rfl⟩ := Prod.mk.inj heq
        obtain ⟨t, a', b', s', rfl, rfl, hs, hadj, hchain⟩ := ih hrest
        refine ⟨a :: t, a', b', s', rfl, rfl, by rw [hs]; rfl, hadj, ?_⟩
        cases t with
        | nil =>
          obtain ⟨rfl, -⟩ := List.cons.inj hs
          exact .cons_cons hab hchain
        | cons c t =>
          obtain ⟨rfl, -⟩ := List.cons.inj hs
          exact .cons_cons hab hchain

theorem plain_of_unbroken {t : Text} {a : Char} (h : Unbroken (t ++ [a])) (ha : a = '\r' ∨ a = '\n')
    (hcr : a = '\n' → t.getLast? ≠ some '\r') :
    ∀ c, t.getLast? = some c → c ≠ '\r' ∧ c ≠ '\n' := by
  intro c hc
  obtain ⟨t, rfl⟩ := List.getLast?_eq_some_iff.mp hc
  have hpair : ¬ Adjoin c a := by
    rw [Unbroken, List.append_assoc] at h
    exact (List.isChain_cons_cons.mp (List.IsChain.right_of_append h)).1
  rcases ha with rfl | rfl
  · exact ⟨fun h => hpair (.inl ⟨h, rfl⟩), fun h => hpair (.inr ⟨h, .inl rfl⟩)⟩
  · exact ⟨fun h => hcr rfl (by rw [hc, h]), fun h => hpair (.inr ⟨h, .inr rfl⟩)⟩

theorem exists_blank (h : cutBlank bin = some (x, y)) :
    ∃ front lineEnd, x = front ++ lineEnd ∧ Blank bin front lineEnd y := by
  obtain ⟨t, a, b, s, rfl, rfl, hbin, hadj, hchain⟩ := eq_of_cutBlank h
  rw [← List.singleton_append, ← List.append_assoc] at hbin
  rcases hadj with ⟨rfl, rfl⟩ | ⟨rfl, hb⟩
  · exact ⟨t, _, rfl, hbin, .inr (.inl rfl), .inl rfl,
      plain_of_unbroken hchain (.inl rfl) nofun, hchain⟩
  · have hnext : (b :: s).head? = some '\r' ∨ (b :: s).head? = some '\n' :=
      hb.imp (congrArg some) (congrArg some)
    by_cases hcr : t.getLast? = some '\r'
    · obtain ⟨t, rfl⟩ := List.getLast?_eq_some_iff.mp hcr
      have happ : t ++ ['\r'] ++ ['\n'] = t ++ crlf := List.append_assoc ..
      rw [happ] at hbin hchain
      have hlong : Unbroken (t ++ ['\r'] ++ ['\n']) := by rwa [happ]
      have hfront : Unbroken (t ++ ['\r']) := List.IsChain.left_of_append hlong
      exact ⟨t, crlf, happ, hbin, .inl rfl, hnext.imp_right fun h => ⟨h, nofun⟩,
        plain_of_unbroken hfront (.inl rfl) nofun, hchain⟩
    · exact ⟨t, _, rfl, hbin, .inr (.inr rfl), hnext.imp_right fun h => ⟨h, by decide⟩,
        plain_of_unbroken hchain (.inr rfl) fun _ => hcr, hchain⟩

def blankWords : List Text := [blankCrlf, blankLf, blankCr]

theorem blankWords_ne_nil : ∀ n ∈ blankWords, n ≠ [] := by decide

theorem blankWords_lineEnds : ∀ n ∈ blankWords, ∀ c ∈ n, c = '\r' ∨ c = '\n' := by decide

theorem blankWords_broken : ∀ n ∈ blankWords, ¬ Unbroken n := by
  intro n hn
  fin_cases hn <;> simp [Unbroken, blankCrlf, blankLf, blankCr, crlf, Adjoin]

variable {n : Text} {i : Nat}

theorem not_at_of_unbroken (h : Unbroken bin) (hn : n ∈ blankWords) : ¬ Search.At n bin i := by
  intro hat
  have hword : n <:+: bin := hat.isInfix.trans (List.drop_suffix i bin).isInfix
  exact blankWords_broken n hn ( List.IsChain.infix h hword)

theorem Blank.le_of_at (hb : Blank bin front lineEnd rest) (hn : n ∈ blankWords)
    (hat : Search.At n bin i) : front.length ≤ i := by
  by_contra hlt
  rcases List.eq_nil_or_concat' (front.drop i) with hnil | ⟨g, c, hg⟩
  · exact hlt (List.drop_eq_nil_iff.mp hnil)
  · have hfront : front = front.take i ++ (g ++ [c]) := by rw [← hg, List.take_append_drop]
    have hc := hb.plain c (by rw [hfront, ← List.append_assoc, List.getLast?_concat])
    have hdrop : bin.drop i = (g ++ [c]) ++ (lineEnd ++ rest) := by
      rw [hb.cut, List.append_assoc, List.drop_append_of_le_length (by omega), hg]
    rw [Search.At, hdrop] at hat
    rcases List.prefix_or_prefix_of_prefix hat (List.prefix_append _ _) with hpre | hpre
    · have hword : n <:+: front := by
        refine hpre.isInfix.trans ?_
        rw [hfront]
        exact (List.suffix_append _ _).isInfix
      exact blankWords_broken n hn
        ( List.IsChain.infix hb.unbroken (hword.trans (List.prefix_append _ _).isInfix))
    · have hmem : c ∈ n := hpre.subset (by simp)
      exact (blankWords_lineEnds n hn c hmem).elim hc.1 hc.2

theorem Blank.first (hb : Blank bin front lineEnd rest) {needles : List Text}
    (hsub : ∀ n ∈ needles, n ∈ blankWords) (hn : n ∈ needles) (hpre : n <+: lineEnd ++ rest) :
    Search.First needles bin front.length := by
  refine ⟨⟨n, hn, ?_⟩, fun m hm j hj hat => absurd (hb.le_of_at (hsub m hm) hat) (by omega)⟩
  rw [Search.At, hb.cut, List.append_assoc, List.drop_left]
  exact hpre

theorem closer_fst (str sep : Text) (found : Option (Nat × Nat)) :
    (closer str found sep).map Prod.fst =
      Search.earlier (found.map Prod.fst) (Search.indexOf sep str) := by
  cases hi : Search.indexOf sep str with
  | none =>
    simp only [closer, hi]
    cases found <;> rfl
  | some idx =>
    cases found with
    | none => simp only [closer, hi, Option.map_some, Option.map_none, Search.earlier]
    | some p =>
      simp only [closer, hi, Option.map_some, Search.earlier]
      split_ifs <;> rfl

theorem foldl_closer_fst (str : Text) (seps : List Text) (found : Option (Nat × Nat)) :
    (seps.foldl (closer str) found).map Prod.fst =
      seps.foldl (fun found sep => Search.earlier found (Search.indexOf sep str))
        (found.map Prod.fst) := by
  induction seps generalizing found with
  | nil => rfl
  | cons sep seps ih => rw [List.foldl_cons, ih, closer_fst, List.foldl_cons]

theorem finds_splitHeaderBody (str : Text) :
    ∃ found, Search.Finds blankWords str found ∧
      (splitHeaderBody str).headerText = found.elim str (str.take ·) := by
  refine ⟨_, Search.finds_foldl blankWords_ne_nil str, ?_⟩
  rw [← Option.map_none Prod.fst, ← foldl_closer_fst, splitHeaderBody, ← blankWords]
  cases blankWords.foldl (closer str) none <;> rfl

theorem indexOfWithin_whole (bin : Text) {needle : Text} (hne : needle ≠ []) :
    indexOfWithin bin needle 0 bin.length = Search.indexOf needle bin := by
  have hlen : 0 < needle.length := List.length_pos_of_ne_nil hne
  have hfinds := Search.finds_indexOf hne bin
  rw [indexOfWithin]
  split_ifs with hnil
  · rw [List.length_eq_zero_iff.mp (by omega : bin.length = 0), Search.indexOf, if_neg hne]
  · have hscan : ¬ (min (bin.length + needle.length - 1) bin.length - 0) * 2 < bin.length - 0 := by
      omega
    dsimp only
    rw [if_neg hscan, List.drop_zero]
    cases hi : Search.indexOf needle bin with
    | none => rfl
    | some i =>
      rw [hi] at hfinds
      obtain ⟨m, hm, hat⟩ := Search.First.stands hfinds
      have hlt : i < bin.length := hat.lt (List.mem_singleton.mp hm ▸ hne)
      simp [hlt]

theorem finds_findBodyStart (bin : Text) :
    ∃ found, Search.Finds [blankCrlf, blankLf] bin found ∧
      (findBodyStart bin 0 bin.length).headerEnd = found.getD bin.length := by
  refine ⟨_, Search.finds_foldl (by decide) bin, ?_⟩
  rw [findBodyStart, indexOfWithin_whole bin (by decide), indexOfWithin_whole bin (by decide)]
  simp only [List.foldl_cons, List.foldl_nil]
  cases Search.indexOf blankCrlf bin with
  | none => cases Search.indexOf blankLf bin <;> rfl
  | some idx =>
    cases Search.indexOf blankLf bin with
    | none => rfl
    | some lf =>
      simp only [Option.map_some, Search.earlier]
      split_ifs <;> rfl

def endsCr : Bool → Text → Bool
  | b, [] => b
  | _, c :: s => endsCr (c = '\r') s

theorem endsCr_concat (b : Bool) (s : Text) (c : Char) :
    endsCr b (s ++ [c]) = decide (c = '\r') := by
  induction s generalizing b with
  | nil => rfl
  | cons d s ih => exact ih _

theorem normalizeFrom_split (b : Bool) (s t : Text) :
    normalizeFrom b (s ++ t) = normalizeFrom b s ++ normalizeFrom (endsCr b s) t := by
  induction s generalizing b with
  | nil => rfl
  | cons c s ih =>
    rw [List.cons_append, normalizeFrom, normalizeFrom, endsCr]
    by_cases hcr : c = '\r'
    · rw [if_pos hcr, if_pos hcr, ih, List.append_assoc, decide_eq_true hcr]
    · rw [if_neg hcr, if_neg hcr, decide_eq_false hcr, ih]
      split_ifs <;> simp

theorem Blank.endsCr_front (hb : Blank bin front lineEnd rest) : endsCr false front = false := by
  rcases List.eq_nil_or_concat' front with hnil | ⟨t, c, hc⟩
  · rw [hnil]
    rfl
  · rw [hc, endsCr_concat]
    exact decide_eq_false (hb.plain c (by rw [hc, List.getLast?_concat])).1

theorem Blank.normalize_front (hb : Blank bin front lineEnd rest) (t : Text) :
    normalizeLineEndings (front ++ t) = normalizeLineEndings front ++ normalizeLineEndings t := by
  rw [normalizeLineEndings, normalizeFrom_split, hb.endsCr_front]
  rfl

theorem Blank.normalize (hb : Blank bin front lineEnd rest) :
    normalizeLineEndings (front ++ lineEnd) = normalizeLineEndings front ++ crlf ∧
      ∃ z, normalizeLineEndings bin = normalizeLineEndings front ++ crlf ++ (crlf ++ z) := by
  have hend : normalizeLineEndings lineEnd = crlf := by
    rcases hb.lineEnd_eq with h | h | h <;> rw [h] <;> rfl
  have hfront : normalizeLineEndings (front ++ lineEnd) = normalizeLineEndings front ++ crlf := by
    rw [hb.normalize_front, hend]
  have hrest : ∃ z, normalizeFrom (endsCr false (front ++ lineEnd)) rest = crlf ++ z := by
    cases rest with
    | nil => rcases hb.next with h | ⟨h, -⟩ <;> cases h
    | cons c rest =>
      rcases hb.next with h | ⟨h, hne⟩
      · obtain rfl := Option.some.inj h
        exact ⟨_, if_pos rfl⟩
      · obtain rfl := Option.some.inj h
        have hno : endsCr false (front ++ lineEnd) = false := by
          rcases hb.lineEnd_eq with h | h | h
          · rw [h, crlf, ← List.singleton_append, ← List.append_assoc, endsCr_concat]
            rfl
          · exact absurd h hne
          · rw [h, endsCr_concat]
            rfl
        rw [hno]
        exact ⟨_, rfl⟩
  obtain ⟨z, hz⟩ := hrest
  refine ⟨hfront, z, ?_⟩
  rw [hb.cut, normalizeLineEndings, normalizeFrom_split, hz, ← normalizeLineEndings, hfront]

theorem splitBlank_crlf {z : Text} (hz : z.head? ≠ some '\r') :
    splitBlank (crlf ++ z) = (splitBlank z).map fun p => (crlf ++ p.1, p.2) :=
  splitBlank_append (l := []) nofun hz

/-- After a CR that a CR does not follow, or an LF that nothing of a line end follows, no line
end comes next. -/
theorem normalizeFrom_head {b : Bool} {c : Char} {s : Text} (h : Unbroken (c :: s))
    (hc : (b = true ∧ c = '\r') ∨ (b = false ∧ c = '\n')) :
    (normalizeFrom b s).head? ≠ some '\r' := by
  cases s with
  | nil => exact (Option.some_ne_none _).symm
  | cons d s =>
    have hpair := (List.isChain_cons_cons.mp h).1
    rcases hc with ⟨rfl, rfl⟩ | ⟨rfl, rfl⟩
    · have hcr : d ≠ '\r' := fun h => hpair (.inl ⟨rfl, h⟩)
      rw [normalizeFrom, if_neg hcr]
      by_cases hlf : d = '\n'
      · rw [if_pos hlf, if_pos rfl, List.nil_append]
        cases s with
        | nil => exact (Option.some_ne_none _).symm
        | cons e s =>
          have hnext := (List.isChain_cons_cons.mp h.tail).1
          have hcr' : e ≠ '\r' := fun h => hnext (.inr ⟨hlf, .inl h⟩)
          have hlf' : e ≠ '\n' := fun h => hnext (.inr ⟨hlf, .inr h⟩)
          rw [normalizeFrom, if_neg hcr', if_neg hlf']
          exact fun h => hcr' (Option.some.inj h)
      · rw [if_neg hlf]
        exact fun h => hcr (Option.some.inj h)
    · have hcr : d ≠ '\r' := fun h => hpair (.inr ⟨rfl, .inl h⟩)
      have hlf : d ≠ '\n' := fun h => hpair (.inr ⟨rfl, .inr h⟩)
      rw [normalizeFrom, if_neg hcr, if_neg hlf]
      exact fun h => hcr (Option.some.inj h)

theorem splitBlank_of_unbroken {s : Text} (b : Bool) (h : Unbroken s) :
    splitBlank (normalizeFrom b s) = none := by
  induction s generalizing b with
  | nil => rfl
  | cons c s ih =>
    have hs : Unbroken s := h.tail
    rw [normalizeFrom]
    split_ifs with hcr hlf hb
    · rw [splitBlank_crlf (normalizeFrom_head h (.inl ⟨rfl, hcr⟩)), ih true hs]
      rfl
    · exact ih false hs
    · rw [splitBlank_crlf (normalizeFrom_head h (.inr ⟨rfl, hlf⟩)), ih false hs]
      rfl
    · have hpre : List.isPrefixOf (crlf ++ crlf) (c :: normalizeFrom false s) = false := by
        have hne : ('\r' == c) = false := beq_eq_false_iff_ne.mpr (Ne.symm hcr)
        simp [crlf, List.isPrefixOf, hne]
      rw [splitBlank, hpre, if_neg Bool.false_ne_true, ih false hs]
      rfl

theorem splitBlank_of_none {a : Text} (h : splitBlank (a ++ crlf) = none) (z : Text) :
    splitBlank (a ++ crlf ++ (crlf ++ z)) = some (a, z) := by
  induction a with
  | nil => rfl
  | cons c a ih =>
    rw [List.cons_append, splitBlank] at h
    split_ifs at h with hpre
    have hrest := ih (Option.map_eq_none_iff.mp h)
    have hno : ¬ List.isPrefixOf (crlf ++ crlf) (c :: (a ++ crlf ++ (crlf ++ z))) = true := by
      intro hyes
      rw [List.isPrefixOf_iff_prefix] at hpre hyes
      have hlong : crlf ++ crlf <+: c :: (a ++ crlf) ∨ c :: (a ++ crlf) <+: crlf ++ crlf :=
        List.prefix_or_prefix_of_prefix hyes ⟨crlf ++ z, by simp⟩
      rcases hlong with hlong | ⟨t, ht⟩
      · exact hpre hlong
      · obtain - | ⟨d, - | ⟨e, a⟩⟩ := a
        · simp [crlf] at ht
        · refine hpre ⟨[], ?_⟩
          have ht : c :: d :: (crlf ++ t) = crlf ++ crlf := ht
          simp only [crlf, List.cons_append, List.nil_append, List.cons.injEq] at ht
          obtain ⟨rfl, rfl, -, -, rfl⟩ := ht
          rfl
        · have hlen := congrArg List.length ht
          simp [crlf] at hlen
          omega
    rw [List.cons_append, List.cons_append, splitBlank, if_neg hno, hrest]
    rfl

theorem Blank.headerBlock (hb : Blank bin front lineEnd rest) :
    (splitMessage (normalizeLineEndings bin)).headerBlock = normalizeLineEndings front := by
  obtain ⟨hfront, z, hz⟩ := hb.normalize
  have hnone : splitBlank (normalizeLineEndings front ++ crlf) = none := by
    rw [← hfront]
    exact splitBlank_of_unbroken false hb.unbroken
  rw [splitMessage, hz, splitBlank_of_none hnone]

theorem headerBlock_of_unbroken (h : Unbroken bin) :
    (splitMessage (normalizeLineEndings bin)).headerBlock = normalizeLineEndings bin := by
  rw [splitMessage, normalizeLineEndings, splitBlank_of_unbroken false h]

end Ionosphere.Mime
