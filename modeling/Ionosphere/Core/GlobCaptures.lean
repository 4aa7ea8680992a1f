import Ionosphere.Core.Glob
import Mathlib.Data.List.Lex

/-! What the captures are: the pieces of the value that the wildcards take, each as long as the
wildcards in front of it leave it. -/
namespace Ionosphere.Core

open Ionosphere.Regex

variable {tok : Token} {i k : Nat} {tokens : List Token}

def Token.isWildcard : Token → Bool
  | literal _ => false
  | _ => true

def captured : List Token → List Units → List Units
  | tok :: tokens, p :: pieces => (if tok.isWildcard then [p] else []) ++ captured tokens pieces
  | _, _ => []

section

variable (lower : Units → Units) (g : GlobSyntax)

/-- One piece for each token; together they are the value. -/
structure Splits (tokens : List Token) (value : Units) (pieces : List Units) : Prop where
  eats : List.Forall₂ (Token.Eats lower g) tokens pieces
  whole : pieces.flatten = value

/-- The captures of a match, the longest ones from the left. -/
structure Captures (tokens : List Token) (value : Units) (caps : List Units) : Prop where
  count : caps.length = tokens.countP Token.isWildcard
  pieces : ∃ pieces, Splits lower g tokens value pieces ∧ caps = captured tokens pieces
  longest : ∀ other, Splits lower g tokens value other →
    (captured tokens other).map List.length ≤ caps.map List.length

def CaptureLaw (value pattern : Units) : Prop :=
  (globCaptures lower g value pattern).matched = true →
    ((tokenize pattern g).length + 1) * (value.length + 1) ≤ MAX_CAPTURE_CELLS →
    Captures lower g (tokenize pattern g) value (globCaptures lower g value pattern).captures

/-- What lower case is known to do to the value: it takes no unit away, and leaves alone what is
in lower case. -/
structure Lowers (value : Units) : Prop where
  length : value.length ≤ (lower value).length
  unit : ∀ u ∈ lower value, lower [u] = [u]
  again : ∀ v ∈ value, lower (lower [v]) = lower [v]

def BoundaryUnit : Prop := ∀ b, g.boundary = some b → ∃ u, b = [u]

end

section

variable {lower : Units → Units} {g : GlobSyntax} {value : Units}

theorem Splits.meaning {v : Units} {pieces : List Units}
    (h : Splits lower g tokens v pieces) : Meaning lower g tokens v := ⟨pieces, h.eats, h.whole⟩

theorem slice_append_drop (hik : i ≤ k) :
    slice value i k ++ value.drop k = value.drop i := by
  have hdrop : value.drop k = (value.drop i).drop (k - i) := by
    rw [List.drop_drop, Nat.add_sub_cancel' hik]
  rw [hdrop, slice, List.take_append_drop]

theorem slice_length (hk : k ≤ value.length) : (slice value i k).length = k - i := by
  rw [slice, List.length_take, List.length_drop]
  omega

theorem slice_of_append {i : Nat} {p q : Units} (hpq : p ++ q = value.drop i) :
    slice value i (i + p.length) = p ∧ value.drop (i + p.length) = q := by
  constructor
  · rw [slice, Nat.add_sub_cancel_left, ← hpq, List.take_left']
    rfl
  · rw [← List.drop_drop, ← hpq, List.drop_left']
    rfl

theorem Captures.cons (h : Unitwise lower g value)
    {caps : List Units} (hspan : tok.Spans lower g value i k)
    (hrest : Captures lower g tokens (value.drop k) caps)
    (hfar : ∀ l, tok.Spans lower g value i l → Route lower g value tokens l value.length → l ≤ k) :
    Captures lower g (tok :: tokens) (value.drop i)
      ((if tok.isWildcard then [slice value i k] else []) ++ caps) := by
  obtain ⟨hik, hk, heats⟩ := (spans_iff h tok i k).mp hspan
  obtain ⟨pieces, hsplits, hcaps⟩ := hrest.pieces
  refine ⟨?_, ⟨slice value i k :: pieces, ⟨.cons heats hsplits.eats, ?_⟩, ?_⟩, ?_⟩
  · rw [List.length_append, hrest.count, List.countP_cons]
    split_ifs <;> simp [Nat.add_comm]
  · rw [List.flatten_cons, hsplits.whole, slice_append_drop hik]
  · rw [hcaps, captured]
  · rintro other ⟨hother, hwhole⟩
    cases hother with
    | @cons _ p _ others hp hothers =>
      rw [List.flatten_cons] at hwhole
      obtain ⟨hslice, hdrop⟩ := slice_of_append hwhole
      have hlen := congrArg List.length hwhole
      rw [List.length_append, List.length_drop] at hlen
      have hl : i + p.length ≤ value.length := by
        have hi := hik.trans hk
        omega
      have hlspan : tok.Spans lower g value i (i + p.length) := by
        refine (spans_iff h tok i _).mpr ⟨Nat.le_add_right i _, hl, ?_⟩
        rwa [hslice]
      have hsplit : Splits lower g tokens (value.drop (i + p.length)) others :=
        ⟨hothers, hdrop.symm⟩
      have hle := hfar _ hlspan ((route_iff h tokens hl).mpr hsplit.meaning)
      have hsame : i + p.length = k →
          (captured tokens others).map List.length ≤ caps.map List.length := by
        intro heq
        rw [heq] at hsplit
        exact hrest.longest others hsplit
      rw [captured]
      split_ifs with hwild
      · rw [List.singleton_append, List.singleton_append, List.map_cons, List.map_cons,
          slice_length hk]
        rcases Nat.lt_or_eq_of_le hle with hlt | heq
        · exact le_of_lt (List.Lex.rel (by omega))
        · rw [show p.length = k - i by omega]
          exact List.cons_le_cons _ (hsame heq)
      · refine hsame ?_
        cases tok with
        | literal ch => rw [hlspan.1, hspan.1]
        | star | starWithin | single => exact absurd rfl hwild

theorem farthest_spec {next : Row} {j n k : Nat} (hjk : j ≤ k) (hkn : k < j + n)
    (hnext : next.at k = true) (hcross : crosses lower g value tok j k = false) :
    let last := farthest lower g value tok next j n
    k ≤ last ∧ last < j + n ∧ next.at last = true ∧ crosses lower g value tok j last = false := by
  induction n with
  | zero => exact absurd hkn (Nat.not_lt.mpr hjk)
  | succ n ih =>
    simp only [farthest]
    split_ifs with hlast
    · rw [Bool.and_eq_true, Bool.not_eq_true'] at hlast
      exact ⟨by omega, by omega, hlast.1, hlast.2⟩
    · have hne : k ≠ j + n := by
        rintro rfl
        simp [hnext, hcross] at hlast
      obtain ⟨hle, hlt, hat⟩ := ih (by omega)
      exact ⟨hle, by omega, hat⟩

/-- What `*` and `%` take, as the walk sees it. -/
theorem spans_crosses (hb : BoundaryUnit g) (hwide : tok = .star ∨ tok = .starWithin)
    (i k : Nat) : tok.Spans lower g value i k ↔
      i ≤ k ∧ k ≤ value.length ∧ crosses lower g value tok i k = false := by
  obtain rfl | rfl := hwide
  · simp [Token.Spans, crosses]
  · rw [Token.Spans]
    refine and_congr_right fun hik => and_congr_right fun hk => ?_
    unfold crosses Core.isBoundary
    cases hbound : g.boundary with
    | none => simp
    | some b =>
      obtain ⟨u, rfl⟩ := hb b hbound
      have hmem : [u] <:+: ((hayOf lower g value).drop i).take (k - i) ↔
          u ∈ slice (hayOf lower g value) i k := List.singleton_infix_iff u _
      simp only [decide_eq_false_iff_not, hmem, mem_slice]
      constructor
      · rintro hfree ⟨l, hil, hlk, hl⟩
        have hfalse := hfree l hil hlk
        simp [unitIs, hl] at hfalse
      · intro hnone l hil hlk
        unfold unitIs
        cases hl : (hayOf lower g value)[l]? with
        | none => rfl
        | some v =>
          refine decide_eq_false fun heq => hnone ⟨l, hil, hlk, ?_⟩
          rw [hl, (List.cons.inj heq).1]

/-- `*` and `%` go to the farthest end from which the rest can finish. -/
theorem captures_wide (h : Unitwise lower g value) (hb : BoundaryUnit g)
    (hwide : tok = .star ∨ tok = .starWithin)
    (hspan : tok.Spans lower g value i k) (hroute : Route lower g value tokens k value.length)
    {caps : Nat → List Units}
    (hrest : ∀ j ≤ value.length, Route lower g value tokens j value.length →
      Captures lower g tokens (value.drop j) (caps j)) :
    let last := farthest lower g value tok ((finishRows lower g value tokens).headD []) i
      (value.length + 1 - i)
    Captures lower g (tok :: tokens) (value.drop i) (slice value i last :: caps last) := by
  intro last
  have hfar : ∀ l, tok.Spans lower g value i l → Route lower g value tokens l value.length →
      l ≤ last ∧ last < i + (value.length + 1 - i) ∧
        ((finishRows lower g value tokens).headD []).at last = true ∧
        crosses lower g value tok i last = false := by
    intro l hl hfinish
    obtain ⟨hil, hle, hcross⟩ := (spans_crosses hb hwide i l).mp hl
    exact farthest_spec hil (by omega) ((finishRows_iff tokens hle).mpr hfinish) hcross
  obtain ⟨hkl, hlt, hat, hcross⟩ := hfar k hspan hroute
  have hik := hspan.bounds.1
  have hlast : last ≤ value.length := by omega
  have hfinish := (finishRows_iff tokens hlast).mp hat
  have hspan' : tok.Spans lower g value i last :=
    (spans_crosses hb hwide i last).mpr ⟨hik.trans hkl, hlast, hcross⟩
  have hcaps := Captures.cons h hspan' (hrest last hlast hfinish)
    fun l hl hfinish => (hfar l hl hfinish).1
  have hwild : tok.isWildcard = true := by
    obtain rfl | rfl := hwide <;> rfl
  rwa [if_pos hwild] at hcaps

theorem captureFrom_captures (h : Unitwise lower g value) (hb : BoundaryUnit g)
    (tokens : List Token) {i : Nat} (hroute : Route lower g value tokens i value.length) :
    Captures lower g tokens (value.drop i)
      (captureFrom lower g value tokens (finishRows lower g value tokens).tail i) := by
  induction tokens generalizing i with
  | nil =>
    have hend : value.drop i = [] := List.drop_eq_nil_of_le (Nat.le_of_eq hroute.symm)
    exact ⟨rfl, ⟨[], ⟨.nil, hend.symm⟩, rfl⟩, fun _ _ => le_refl _⟩
  | cons tok tokens ih =>
    obtain ⟨k, hspan, hrest⟩ := hroute
    cases tok with
    | literal ch =>
      obtain rfl : k = i + 1 := hspan.1
      exact Captures.cons h hspan (ih hrest) fun l hl _ => Nat.le_of_eq hl.1
    | single =>
      obtain rfl : k = i + 1 := hspan.1
      exact Captures.cons h hspan (ih hrest) fun l hl _ => Nat.le_of_eq hl.1
    | star => exact captures_wide h hb (.inl rfl) hspan hrest fun _ _ => ih
    | starWithin => exact captures_wide h hb (.inr rfl) hspan hrest fun _ _ => ih

theorem captureLaw_of_unitwise (h : Unitwise lower g value) (hb : BoundaryUnit g)
    (pattern : Units) : CaptureLaw lower g value pattern := by
  intro hmatched hcells
  unfold globCaptures at hmatched ⊢
  dsimp only at hmatched ⊢
  rw [if_neg (Nat.not_lt_of_le hcells)] at hmatched ⊢
  split_ifs at hmatched ⊢ with hat
  exact captureFrom_captures h hb _ ((finishRows_iff _ (Nat.zero_le _)).mp hat)

theorem unitwise_of_sensitive (h : g.caseInsensitive = false) : Unitwise lower g value := by
  have hliteral : ∀ v, literalOf lower g v = [v] := fun v => if_neg (by simp [h])
  refine ⟨fun j v hv => ?_, fun v _ b _ => ?_⟩
  · rw [hliteral, hayOf, if_neg (by simp [h]), unitIs, hv]
    exact decide_eq_true rfl
  · rw [hliteral, Same, if_neg (by simp [h])]

theorem CaptureLaw.eats {pattern a b : Units} {v : UInt16}
    (h : CaptureLaw lower g value pattern) (hvalue : value = a ++ v :: b)
    (htokens : tokenize pattern g = around a tok b)
    (hcells : (value.length + 1) * (value.length + 1) ≤ MAX_CAPTURE_CELLS)
    (hspan : tok.Spans lower g value a.length (a.length + 1)) : tok.Eats lower g [v] := by
  have hmatched : (globCaptures lower g value pattern).matched = true := by
    rw [captures_matched, globMatch, matchTokens_iff, htokens, route_around tok hvalue]
    exact hspan
  have hlen : (tokenize pattern g).length = value.length := by
    rw [htokens, around, hvalue]
    simp
  obtain ⟨pieces, hsplits, -⟩ := (h hmatched (by rwa [hlen])).pieces
  rw [htokens, hvalue] at hsplits
  exact (meaning_around a b v tok).mp hsplits.meaning

theorem unitwise_of_captureLaw (hspells : Spells g) (hlowers : Lowers lower value)
    (hcells : (value.length + 1) * (value.length + 1) ≤ MAX_CAPTURE_CELLS)
    (hlaw : ∀ pattern, CaptureLaw lower g value pattern) : Unitwise lower g value := by
  cases hcase : g.caseInsensitive with
  | false => exact unitwise_of_sensitive hcase
  | true =>
    have hhay : hayOf lower g value = lower value := if_pos hcase
    have hliteral : ∀ v, literalOf lower g v = lower [v] := fun v => if_pos hcase
    have hsame : ∀ s t, Same lower g s t ↔ lower s = lower t := fun s t => by
      rw [Same, if_pos hcase]
    have hunit : ∀ (a : Units) v b, value = a ++ v :: b →
        unitIs (hayOf lower g value) a.length (literalOf lower g v) = true := by
      intro a v b hvalue
      have hlt : a.length < value.length := by
        rw [hvalue, List.length_append, List.length_cons]
        omega
      obtain ⟨u, hget⟩ : ∃ u, (lower value)[a.length]? = some u :=
        ⟨_, List.getElem?_eq_getElem (Nat.lt_of_lt_of_le hlt hlowers.length)⟩
      have hu := hlowers.unit u (List.mem_of_getElem? hget)
      obtain ⟨pattern, htokens⟩ := exists_literal_pattern hspells a b u
      have hhere : unitIs (hayOf lower g value) a.length (literalOf lower g u) = true := by
        rw [hhay, hliteral, hu, unitIs, hget]
        exact decide_eq_true rfl
      obtain ⟨w, hw, heq⟩ := (hlaw pattern).eats hvalue htokens hcells ⟨rfl, hlt, hhere⟩
      rw [← (List.cons.inj hw).1, hsame] at heq
      rwa [hliteral, heq, ← hliteral]
    constructor
    · intro j v hv
      obtain ⟨hlt, rfl⟩ := List.getElem?_eq_some_iff.mp hv
      have hvalue : value = value.take j ++ value[j] :: value.drop (j + 1) := by
        rw [← List.drop_eq_getElem_cons hlt, List.take_append_drop]
      have hat := hunit _ _ _ hvalue
      rwa [List.length_take, Nat.min_eq_left (Nat.le_of_lt hlt)] at hat
    · intro v hv b hb
      rw [hliteral, hsame]
      constructor
      · rintro rfl
        exact (hlowers.again v hv).symm
      · intro heq
        by_contra hne
        obtain ⟨a, c, hvalue⟩ := List.append_of_mem hv
        obtain ⟨pattern, htokens⟩ := exists_within_pattern hspells (by simp [hb]) a c
        have hlen : a.length + 1 ≤ value.length := by
          rw [hvalue, List.length_append, List.length_cons]
          omega
        have hfree : isBoundary lower g value a.length = false := by
          rw [isBoundary, hb, ← Bool.not_eq_true]
          refine fun hat => hne ?_
          rw [← hliteral]
          exact (unitIs_congr (hunit a v c hvalue)).mp hat
        have heats := (hlaw pattern).eats hvalue htokens hcells ((within_one hlen).mpr hfree)
        exact heats b hb v (List.mem_singleton_self v) ((hsame _ _).mpr heq)

end

/-- One capture for each wildcard, and the pieces of the value they and the literals fall into;
no assignment has a longer capture before all those in front of it are shorter. This holds where
the lower case of the value is that of its units, and of short values nowhere else. -/
theorem captures_longest (lower : Units → Units) (g : GlobSyntax) (value : Units) :
    (Unitwise lower g value → BoundaryUnit g → ∀ pattern, CaptureLaw lower g value pattern) ∧
    (Spells g → Lowers lower value →
      (value.length + 1) * (value.length + 1) ≤ MAX_CAPTURE_CELLS →
      (∀ pattern, CaptureLaw lower g value pattern) → Unitwise lower g value) :=
  ⟨captureLaw_of_unitwise, unitwise_of_captureLaw⟩

/-- The combining dot of the lower case of the first letter stands where the second letter is. -/
theorem captures_longest_fails :
    ¬ ∀ (lower : Units → Units) (g : GlobSyntax) (value pattern : Units),
      CaptureLaw lower g value pattern := by
  intro h
  have htokens : tokenize [0x3f, 0x307] SIEVE_MATCH_SYNTAX = [.single, .literal 0x307] := by decide
  have hlaw := h lowerDotted SIEVE_MATCH_SYNTAX [0x130, 0x78] [0x3f, 0x307] (by decide)
    (by rw [htokens]; decide)
  rw [htokens] at hlaw
  obtain ⟨pieces, ⟨heats, hwhole⟩, -⟩ := hlaw.pieces
  cases heats with
  | cons hfirst hrest =>
    cases hrest with
    | cons hsecond hnil =>
      cases hnil
      obtain ⟨v, rfl⟩ := hfirst
      obtain ⟨w, rfl, hsame⟩ := hsecond
      obtain ⟨-, hw⟩ := List.cons.inj hwhole
      rw [(List.cons.inj hw).1] at hsame
      revert hsame
      unfold Same
      decide

end Ionosphere.Core
