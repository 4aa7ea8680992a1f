import Ionosphere.Sieve.Sound

/-! The loops of the lexer and of the parser end: the fuel they are given is never used up. What
stops a script from being read is then a syntax error, or a test too deep for the stack. -/
namespace Ionosphere.Sieve

open Ionosphere.Js

theorem afterComment_length {s rest : Text} (h : afterComment s = some rest) :
    rest.length ≤ s.length := by
  fun_induction afterComment s with
  | case1 => cases h
  | case2 s =>
    cases h
    exact (Nat.le_succ _).trans (Nat.le_succ _)
  | case3 _ s _ ih => exact (ih h).trans (Nat.le_succ _)

theorem quoted_length {s value rest : Text} (h : quoted s = some (value, rest)) :
    rest.length ≤ s.length := by
  fun_induction quoted s generalizing value rest with
  | case1 => cases h
  | case2 s =>
    cases h
    exact Nat.le_succ _
  | case3 => cases h
  | case4 c s ih =>
    obtain ⟨⟨v, r⟩, hq, heq⟩ := Option.map_eq_some_iff.mp h
    cases heq
    exact (ih hq).trans ((Nat.le_succ _).trans (Nat.le_succ _))
  | case5 c s _ _ _ ih =>
    obtain ⟨⟨v, r⟩, hq, heq⟩ := Option.map_eq_some_iff.mp h
    cases heq
    exact (ih hq).trans (Nat.le_succ _)

theorem multiline_length {line s value rest : Text} (h : multiline line s = .ok (value, rest)) :
    rest.length ≤ s.length := by
  induction s generalizing line value rest with
  | nil =>
    rw [multiline] at h
    split_ifs at h
    cases h
    exact le_rfl
  | cons c s ih =>
    rw [multiline] at h
    split_ifs at h with hlf hend hnil
    · cases h
      exact Nat.le_succ _
    · cases hm : multiline [] s with
      | error e =>
        rw [hm] at h
        cases h
      | ok p =>
        obtain ⟨v, r⟩ := p
        rw [hm] at h
        cases h
        exact (ih hm).trans (Nat.le_succ _)
    · exact (ih h).trans (Nat.le_succ _)

theorem length_dropWhile_le (p : Char → Bool) (s : Text) : (s.dropWhile p).length ≤ s.length :=
  (List.dropWhile_sublist p).length_le

/-- There is a syntax error, or no more is left than there was. -/
def Scans (s : Text) : Except Stop (Option Lexeme × Text) → Prop
  | .ok (_, rest) => rest.length ≤ s.length
  | .error (.thrown _) => True
  | .error _ => False

theorem scans_ite {s : Text} {p : Prop} [Decidable p] {a b : Except Stop (Option Lexeme × Text)}
    (ha : Scans s a) (hb : Scans s b) : Scans s (if p then a else b) := by
  split <;> assumption

theorem scans_scan (start : Nat) (c : Char) (s : Text) : Scans s (scan start c s) := by
  have hdigits := length_dropWhile_le isDigit s
  rw [scan]
  dsimp only
  refine scans_ite (le_refl s.length) (scans_ite (length_dropWhile_le _ s) (scans_ite ?comment
    (scans_ite (le_refl s.length) (scans_ite (scans_ite trivial (length_dropWhile_le _ s))
      (scans_ite ?number (scans_ite ?quoted (scans_ite ?text
        (scans_ite (length_dropWhile_le _ s) trivial))))))))
  case comment =>
    cases ha : afterComment s.tail with
    | none => trivial
    | some r => exact (afterComment_length ha).trans (List.tail_sublist s).length_le
  case number =>
    cases (s.dropWhile isDigit).head?.bind unitOf with
    | none => exact hdigits
    | some mult => exact (List.tail_sublist _).length_le.trans hdigits
  case quoted =>
    cases hq : quoted s with
    | none => trivial
    | some p => exact quoted_length hq
  case text =>
    cases hm : multiline [] ((s.drop 4).dropWhile (· ≠ '\n')).tail with
    | error line => trivial
    | ok p =>
      exact (multiline_length hm).trans ((List.tail_sublist _).length_le.trans
        ((length_dropWhile_le _ _).trans (List.drop_sublist 4 s).length_le))

theorem tokenizeFrom_ends (n : Nat) {fuel : Nat} {s : Text} (h : s.length ≤ fuel) :
    Ends False (tokenizeFrom n fuel s) := by
  induction fuel generalizing s with
  | zero =>
    rw [List.length_eq_zero_iff.mp (Nat.le_zero.mp h)]
    trivial
  | succ fuel ih =>
    cases s with
    | nil => trivial
    | cons c s =>
      have hscan := scans_scan (n - unitLength (c :: s)) c s
      rw [tokenizeFrom]
      cases hs : scan (n - unitLength (c :: s)) c s with
      | error stop =>
        rw [hs] at hscan
        cases stop <;> exact hscan
      | ok p =>
        obtain ⟨l, rest⟩ := p
        rw [hs] at hscan
        have hrest := ih (Nat.le_trans hscan (Nat.le_of_succ_le_succ h))
        cases l with
        | none => exact hrest
        | some l =>
          dsimp only
          cases ht : tokenizeFrom n fuel rest with
          | error stop =>
            rw [ht] at hrest
            cases stop <;> exact hrest
          | ok toks => trivial

theorem tokenize_ends (src : Text) : Ends False (tokenize src) := tokenizeFrom_ends _ le_rfl

variable {fuel stack depth : Nat} {c c' d : Cursor} {α : Type} {deep : Prop}

theorem length_of_lexemes {ts : List Lexeme} (h : c.lexemes = ts ++ d.lexemes) :
    c.rest.length = ts.length + d.rest.length := by
  rw [← c.length_lexemes, h, List.length_append, d.length_lexemes]

theorem length_of_cons {l : Lexeme} (h : c.lexemes = l :: d.lexemes) :
    c.rest.length = 1 + d.rest.length := by
  have happ : c.lexemes = [l] ++ d.lexemes := h
  exact length_of_lexemes happ

theorem length_next {t : Token} (h : next c = .ok (t, d)) : c.rest.length = 1 + d.rest.length :=
  length_of_cons (next_ok h)

theorem length_expectIdentifier {name : Text} (h : expectIdentifier c = .ok (name, d)) :
    c.rest.length = 1 + d.rest.length := length_of_cons (expectIdentifier_ok h)

theorem length_expectString {v : Text} (h : expectString c = .ok (v, d)) :
    c.rest.length = 1 + d.rest.length := length_of_cons (expectString_ok h)

theorem length_expectMark {m : Char} {u : Unit} (h : expectMark m c = .ok (u, d)) :
    c.rest.length = 1 + d.rest.length := length_of_cons (expectMark_ok h)

theorem peek_bind_ends {f : Option Lexeme → Parse α} (h : Ends deep (f c.lexemes.head? c)) :
    Ends deep ((peek >>= f) c) := by
  rw [bind_of_ok (peek_apply c)]
  exact h

theorem moreStrings_ends (h : c.rest.length < fuel) : Ends deep (moreStrings fuel c) := by
  induction fuel generalizing c with
  | zero => omega
  | succ fuel ih =>
    rw [moreStrings]
    refine peek_bind_ends ?_
    split_ifs with hcomma
    · refine .bind next_ends fun t d ht => ?_
      refine .bind expect_ends fun v e hv => ?_
      have := length_next ht
      have := length_expectString hv
      exact .bind (ih (by omega)) fun _ _ _ => trivial
    · trivial

theorem parseStringList_ends (h : c.rest.length ≤ fuel) : Ends deep (parseStringList fuel c) := by
  refine .bind expect_ends fun _ d hd => ?_
  have hlen := length_expectMark hd
  refine .bind (peek_bind_ends ?_) fun _ e _ => .bind expect_ends fun _ _ _ => trivial
  split_ifs
  · trivial
  · refine .bind expect_ends fun v e hv => ?_
    have := length_expectString hv
    exact .bind (moreStrings_ends (by omega)) fun _ _ _ => trivial

theorem parseArgs_ends (h : c.rest.length < fuel) : Ends deep (parseArgs fuel c) := by
  induction fuel generalizing c with
  | zero => omega
  | succ fuel ih =>
    have htake : ∀ arg : SieveArg, Ends deep
        ((do let _ ← next
             let args ← parseArgs fuel
             pure (arg :: args) : Parse (List SieveArg)) c) := by
      intro arg
      refine .bind next_ends fun t d ht => ?_
      have := length_next ht
      exact .bind (ih (by omega)) fun _ _ _ => trivial
    rw [parseArgs]
    refine peek_bind_ends ?_
    cases c.lexemes.head? with
    | none => trivial
    | some l =>
      cases l with
      | tag name => exact htake _
      | number value => exact htake _
      | string value => exact htake _
      | identifier name => trivial
      | mark m =>
        dsimp only
        split_ifs with hm
        · refine .bind (parseStringList_ends (by omega)) fun vs d hvs => ?_
          have hlist : c.lexemes = (Lexeme.mark '[' :: (listed vs ++ [Lexeme.mark ']'])) ++ d.lexemes := by
            rw [parseStringList_ok hvs]
            simp
          have hlen := length_of_lexemes hlist
          rw [List.length_cons] at hlen
          exact .bind (ih (by omega)) fun _ _ _ => trivial
        · trivial

/-- Where the stack runs out, the tokens from the beginning of the test nest so deep: what was read
before goes into the derivation as it is read. -/
theorem parseTests_ends (fuel : Nat) :
    (∀ {stack : Nat} {c : Cursor}, c.rest.length < fuel →
      Ends (DeepTest stack c.lexemes) (parseTest fuel stack c)) ∧
    ∀ {stack : Nat} {c : Cursor}, c.rest.length < fuel →
      Ends (DeepMore stack c.lexemes) (moreTests fuel stack c) := by
  induction fuel with
  | zero => exact ⟨fun h => absurd h (Nat.not_lt_zero _), fun h => absurd h (Nat.not_lt_zero _)⟩
  | succ fuel ih =>
    obtain ⟨ihtest, ihmore⟩ := ih
    constructor
    · intro stack c hlen
      obtain _ | stack := stack
      · exact .called _
      rw [parseTest]
      refine .bind expect_ends fun name d hname => ?_
      have hd := length_expectIdentifier hname
      rw [expectIdentifier_ok hname]
      split_ifs with hlist hinner
      · refine .bind expect_ends fun _ e he => ?_
        have := length_expectMark he
        rw [expectMark_ok he]
        refine .bind (peek_bind_ends ?_) fun _ _ _ => .bind expect_ends fun _ _ _ => trivial
        split_ifs with hend
        · trivial
        · refine .bind ((ihtest (by omega)).imp (.first hlist hend)) fun t g ht => ?_
          obtain ⟨ts, hts, hw⟩ := (parseTests_ok fuel).1 ht
          have := length_of_lexemes hts
          rw [hts]
          exact .bind ((ihmore (by omega)).imp (.later hlist hw)) fun _ _ _ => trivial
      · exact .bind ((ihtest (by omega)).imp (.inner hlist hinner)) fun _ _ _ => trivial
      · exact .bind (parseArgs_ends (by omega)) fun _ _ _ => trivial
    · intro stack c hlen
      rw [moreTests]
      refine peek_bind_ends ?_
      split_ifs with hcomma
      · refine .bind next_ends fun t d hnext => ?_
        have := length_next hnext
        rw [next_of_head hcomma hnext]
        refine .bind ((ihtest (by omega)).imp .first) fun test e ht => ?_
        obtain ⟨ts, hts, hw⟩ := (parseTests_ok fuel).1 ht
        have := length_of_lexemes hts
        rw [hts]
        exact .bind ((ihmore (by omega)).imp (.later hw)) fun _ _ _ => trivial
      · trivial

theorem CommandWritten.ne_nil {cmd : SieveCommand} {ts : List Lexeme}
    (h : CommandWritten depth cmd ts) : 0 < ts.length := by
  cases h <;> simp

theorem parseCondition_ends {name : Text} (h : c.rest.length < fuel) :
    Ends (name ∈ CONTROL_WITH_TEST ∧ DeepTest stack c.lexemes) (parseCondition stack fuel name c) := by
  rw [parseCondition]
  split_ifs with hname
  · exact .bind (((parseTests_ends fuel).1 h).imp (.intro hname)) fun _ _ _ => trivial
  · trivial

theorem parseCommandsAll_ends (stack fuel : Nat) :
    (∀ {depth : Nat} {c : Cursor}, depth ≤ MAX_BLOCK_DEPTH → 2 * c.rest.length < fuel →
      Ends (DeepCommands stack (MAX_BLOCK_DEPTH - depth) c.lexemes)
        (parseCommands stack fuel depth c)) ∧
    ∀ {depth : Nat} {c : Cursor}, depth ≤ MAX_BLOCK_DEPTH → 2 * c.rest.length ≤ fuel → 0 < fuel →
      Ends (DeepCommand stack (MAX_BLOCK_DEPTH - depth) c.lexemes)
        (parseCommand stack fuel depth c) := by
  induction fuel with
  | zero =>
    exact ⟨fun _ h => absurd h (Nat.not_lt_zero _), fun _ _ h => absurd h (Nat.lt_irrefl _)⟩
  | succ fuel ih =>
    obtain ⟨ihcmds, ihcmd⟩ := ih
    constructor
    · intro depth c hdepth hlen
      rw [parseCommands]
      refine peek_bind_ends ?_
      cases hhead : c.lexemes.head? with
      | none => trivial
      | some l =>
        dsimp only
        split_ifs
        · trivial
        · have hpos : 0 < c.rest.length := by
            rw [← c.length_lexemes]
            exact List.length_pos_of_mem (List.mem_of_mem_head? hhead)
          refine .bind ((ihcmd hdepth (by omega) (by omega)).imp .first) fun cmd d hcmd => ?_
          obtain ⟨ts, hts, hw⟩ := (parseCommandsAll_ok stack fuel).2 hdepth hcmd
          have := length_of_lexemes hts
          have := hw.ne_nil
          rw [hts]
          exact .bind ((ihcmds hdepth (by omega)).imp (.later hw)) fun _ _ _ => trivial
    · intro depth c hdepth hlen _
      rw [parseCommand]
      refine .bind expect_ends fun name d hname => ?_
      have hd := length_expectIdentifier hname
      rw [expectIdentifier_ok hname]
      refine .bind (parseArgs_ends (by omega)) fun args e hargs => ?_
      obtain ⟨ts, hts, haw, hend⟩ := parseArgs_ok hargs
      have hlargs := length_of_lexemes hts
      rw [hts]
      refine .bind ((parseCondition_ends (by omega)).imp fun h => .test haw hend h.1 h.2)
        fun test g htest => ?_
      obtain ⟨us, hus, hcw⟩ := parseCondition_ok htest
      have hltest := length_of_lexemes hus
      rw [hus]
      refine peek_bind_ends ?_
      by_cases hbrace : g.lexemes.head? = some (.mark '\x7b')
      · rw [if_pos hbrace]
        refine .bind (x := peekPos) trivial fun pos i hi => ?_
        cases hi
        by_cases hblock : name ∉ CONTROL_WITH_BLOCK
        · rw [if_pos hblock]
          trivial
        · rw [if_neg hblock]
          refine .bind next_ends fun t j hnext => ?_
          have hj := length_next hnext
          refine .bind (x := peekPos) trivial fun pos k hk => ?_
          cases hk
          by_cases hdeep : MAX_BLOCK_DEPTH < depth + 1
          · rw [if_pos hdeep]
            trivial
          · rw [if_neg hdeep]
            have hroom : MAX_BLOCK_DEPTH - depth = MAX_BLOCK_DEPTH - (depth + 1) + 1 := by omega
            rw [next_of_head hbrace hnext, hroom]
            exact .bind ((ihcmds (Nat.le_of_not_lt hdeep) (by omega)).imp
              (.block (not_not.mp hblock) haw hcw)) fun _ _ _ => .bind expect_ends fun _ _ _ => trivial
      · rw [if_neg hbrace]
        exact .bind expect_ends fun _ _ _ => trivial

theorem parseSieve_ends (stack : Nat) (src : Text) :
    Ends (∃ toks, tokenize src = .ok toks ∧
      DeepCommands stack MAX_BLOCK_DEPTH (toks.map Token.lexeme)) (parseSieve stack src) := by
  have htokens := tokenize_ends src
  rw [parseSieve]
  cases ht : tokenize src with
  | error stop =>
    rw [ht] at htokens
    cases stop with
    | thrown e => trivial
    | rangeError => exact htokens.elim
    | fuel => exact htokens
  | ok toks =>
    have hparse := (parseCommandsAll_ends stack (2 * toks.length + 2)).1 (c := ⟨0, toks⟩)
      (Nat.zero_le MAX_BLOCK_DEPTH) (by dsimp only; omega)
    dsimp only
    cases hp : parseCommands stack (2 * toks.length + 2) 0 ⟨0, toks⟩ with
    | error stop =>
      rw [hp] at hparse
      cases stop with
      | thrown e => trivial
      | rangeError => exact ⟨toks, rfl, hparse⟩
      | fuel => exact hparse
    | ok p => trivial

end Ionosphere.Sieve
