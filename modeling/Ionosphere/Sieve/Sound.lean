import Ionosphere.Sieve.Grammar

/-! What the parser takes is written as the grammar says: each production takes the tokens of
the tree it returns, in order, and leaves the rest. -/
namespace Ionosphere.Sieve

open Ionosphere.Js

variable {fuel stack depth : Nat} {c c' d : Cursor} {α β : Type}

theorem exists_of_peek_ok {f : Option Lexeme → Parse β} {b : β}
    (h : (peek >>= f) c = .ok (b, c')) : f c.lexemes.head? c = .ok (b, c') := by
  obtain ⟨l, e, hpeek, h⟩ := exists_of_bind_ok h
  rw [peek_apply] at hpeek
  cases hpeek
  exact h

theorem next_of_head {l : Lexeme} {t : Token} (hhead : c.lexemes.head? = some l)
    (h : next c = .ok (t, d)) : c.lexemes = l :: d.lexemes := by
  rw [next_ok h] at hhead ⊢
  rw [Option.some.inj hhead]

theorem items_ok {close : Char} {first : Parse α} {more : Parse (List α)} {as : List α}
    (h : items close first more c = .ok (as, c')) :
    (as = [] ∧ c' = c) ∨
      ∃ a rest d, as = a :: rest ∧ first c = .ok (a, d) ∧ more d = .ok (rest, c') := by
  have h := exists_of_peek_ok h
  split_ifs at h with hend
  · cases h
    exact .inl ⟨rfl, rfl⟩
  · obtain ⟨a, d, ha, h⟩ := exists_of_bind_ok h
    obtain ⟨rest, e, hrest, h⟩ := exists_of_bind_ok h
    cases h
    exact .inr ⟨a, rest, d, rfl, ha, hrest⟩

theorem moreStrings_ok {vs : List Text} (h : moreStrings fuel c = .ok (vs, c')) :
    c.lexemes = (vs.flatMap fun v => [Lexeme.mark ',', .string v]) ++ c'.lexemes := by
  induction fuel generalizing c vs with
  | zero => cases h
  | succ fuel ih =>
    have h := exists_of_peek_ok h
    split_ifs at h with hcomma
    · obtain ⟨t, d, hnext, h⟩ := exists_of_bind_ok h
      obtain ⟨v, e, hv, h⟩ := exists_of_bind_ok h
      obtain ⟨ws, g, hws, h⟩ := exists_of_bind_ok h
      cases h
      rw [next_of_head hcomma hnext, expectString_ok hv, ih hws]
      rfl
    · cases h
      rfl

theorem parseStringList_ok {vs : List Text} (h : parseStringList fuel c = .ok (vs, c')) :
    c.lexemes = .mark '[' :: (listed vs ++ .mark ']' :: c'.lexemes) := by
  obtain ⟨_, d, hopen, h⟩ := exists_of_bind_ok h
  obtain ⟨out, e, hout, h⟩ := exists_of_bind_ok h
  obtain ⟨_, g, hclose, h⟩ := exists_of_bind_ok h
  cases h
  have hlist : d.lexemes = listed vs ++ e.lexemes := by
    rcases items_ok hout with ⟨rfl, rfl⟩ | ⟨v, ws, i, rfl, hv, hws⟩
    · rfl
    · rw [expectString_ok hv, moreStrings_ok hws]
      rfl
  rw [expectMark_ok hopen, hlist, expectMark_ok hclose]

theorem parseArgs_ok {args : List SieveArg} (h : parseArgs fuel c = .ok (args, c')) :
    ∃ ts, c.lexemes = ts ++ c'.lexemes ∧ ArgsWritten args ts ∧ NoArg c'.lexemes := by
  induction fuel generalizing c args with
  | zero => cases h
  | succ fuel ih =>
    have h := exists_of_peek_ok h
    have htake : ∀ {l : Lexeme} {arg : SieveArg}, c.lexemes.head? = some l → ArgWritten arg [l] →
        (do let _ ← next
            let args ← parseArgs fuel
            pure (arg :: args) : Parse (List SieveArg)) c = .ok (args, c') →
        ∃ ts, c.lexemes = ts ++ c'.lexemes ∧ ArgsWritten args ts ∧ NoArg c'.lexemes := by
      intro l arg hhead hw h
      obtain ⟨t, d, hnext, h⟩ := exists_of_bind_ok h
      obtain ⟨rest, e, hrest, h⟩ := exists_of_bind_ok h
      cases h
      obtain ⟨ts, hts, hargs, hend⟩ := ih hrest
      exact ⟨l :: ts, by rw [next_of_head hhead hnext, hts]; rfl, .cons hw hargs, hend⟩
    cases hhead : c.lexemes.head? with
    | none =>
      rw [hhead] at h
      cases h
      exact ⟨[], rfl, .nil, by rw [NoArg, hhead]; trivial⟩
    | some l =>
      rw [hhead] at h
      cases l with
      | tag name => exact htake hhead (.tag name) h
      | number value => exact htake hhead (.number value) h
      | string value => exact htake hhead (.string value) h
      | identifier name =>
        cases h
        exact ⟨[], rfl, .nil, by rw [NoArg, hhead]; trivial⟩
      | mark m =>
        dsimp only at h
        split_ifs at h with hm
        · subst hm
          obtain ⟨vs, d, hvs, h⟩ := exists_of_bind_ok h
          obtain ⟨rest, e, hrest, h⟩ := exists_of_bind_ok h
          cases h
          obtain ⟨ts, hts, hargs, hend⟩ := ih hrest
          refine ⟨_, ?_, .cons (.strings vs) hargs, hend⟩
          rw [parseStringList_ok hvs, hts]
          simp
        · cases h
          exact ⟨[], rfl, .nil, by rw [NoArg, hhead]; exact hm⟩

theorem parseTests_ok (fuel : Nat) :
    (∀ {stack : Nat} {c c' : Cursor} {test : SieveTest}, parseTest fuel stack c = .ok (test, c') →
      ∃ ts, c.lexemes = ts ++ c'.lexemes ∧ TestWritten test ts) ∧
    (∀ {stack : Nat} {c c' : Cursor} {tests : List SieveTest},
      moreTests fuel stack c = .ok (tests, c') → ∃ ts, c.lexemes = ts ++ c'.lexemes ∧ MoreWritten tests ts) := by
  induction fuel with
  | zero => exact ⟨nofun, nofun⟩
  | succ fuel ih =>
    obtain ⟨ihtest, ihmore⟩ := ih
    constructor
    · intro stack c c' test h
      obtain _ | stack := stack
      · cases h
      rw [parseTest] at h
      obtain ⟨name, d, hname, h⟩ := exists_of_bind_ok h
      split_ifs at h with hlist hinner
      · obtain ⟨_, e, hopen, h⟩ := exists_of_bind_ok h
        obtain ⟨tests, g, htests, h⟩ := exists_of_bind_ok h
        obtain ⟨_, i, hclose, h⟩ := exists_of_bind_ok h
        cases h
        rcases items_ok htests with ⟨rfl, rfl⟩ | ⟨t, us, i, rfl, ht, hus⟩
        · refine ⟨_, ?_, .none hlist⟩
          rw [expectIdentifier_ok hname, expectMark_ok hopen, expectMark_ok hclose]
          rfl
        · obtain ⟨ts, hts, htw⟩ := ihtest ht
          obtain ⟨vs, hvs, hmw⟩ := ihmore hus
          refine ⟨_, ?_, .list hlist htw hmw⟩
          rw [expectIdentifier_ok hname, expectMark_ok hopen, hts, hvs, expectMark_ok hclose]
          simp
      · obtain ⟨t, e, ht, h⟩ := exists_of_bind_ok h
        cases h
        obtain ⟨ts, hts, htw⟩ := ihtest ht
        refine ⟨_, ?_, .inner hlist hinner htw⟩
        rw [expectIdentifier_ok hname, hts]
        rfl
      · obtain ⟨args, e, hargs, h⟩ := exists_of_bind_ok h
        cases h
        obtain ⟨ts, hts, hw, -⟩ := parseArgs_ok hargs
        refine ⟨_, ?_, .plain hlist hinner hw⟩
        rw [expectIdentifier_ok hname, hts]
        rfl
    · intro stack c c' tests h
      rw [moreTests] at h
      have h := exists_of_peek_ok h
      split_ifs at h with hcomma
      · obtain ⟨t, d, hnext, h⟩ := exists_of_bind_ok h
        obtain ⟨test, e, ht, h⟩ := exists_of_bind_ok h
        obtain ⟨rest, g, hrest, h⟩ := exists_of_bind_ok h
        cases h
        obtain ⟨ts, hts, htw⟩ := ihtest ht
        obtain ⟨us, hus, hmw⟩ := ihmore hrest
        refine ⟨_, ?_, .cons htw hmw⟩
        rw [next_of_head hcomma hnext, hts, hus]
        simp
      · cases h
        exact ⟨[], rfl, .nil⟩

theorem parseCondition_ok {name : Text} {test : Option SieveTest}
    (h : parseCondition stack fuel name c = .ok (test, c')) :
    ∃ ts, c.lexemes = ts ++ c'.lexemes ∧ ConditionWritten name test ts := by
  rw [parseCondition] at h
  split_ifs at h with hcontrol
  · obtain ⟨t, i, ht, h⟩ := exists_of_bind_ok h
    cases h
    obtain ⟨ts, hts, htw⟩ := (parseTests_ok fuel).1 ht
    exact ⟨ts, hts, .some hcontrol htw⟩
  · cases h
    exact ⟨[], rfl, .none hcontrol⟩

theorem parseCommandsAll_ok (stack fuel : Nat) :
    (∀ {depth : Nat} {c c' : Cursor} {cmds : List SieveCommand}, depth ≤ MAX_BLOCK_DEPTH →
      parseCommands stack fuel depth c = .ok (cmds, c') →
      (c'.lexemes = [] ∨ c'.lexemes.head? = some (.mark '}')) ∧
        ∃ ts, c.lexemes = ts ++ c'.lexemes ∧ CommandsWritten (MAX_BLOCK_DEPTH - depth) cmds ts) ∧
    (∀ {depth : Nat} {c c' : Cursor} {cmd : SieveCommand}, depth ≤ MAX_BLOCK_DEPTH →
      parseCommand stack fuel depth c = .ok (cmd, c') →
        ∃ ts, c.lexemes = ts ++ c'.lexemes ∧ CommandWritten (MAX_BLOCK_DEPTH - depth) cmd ts) := by
  induction fuel with
  | zero => exact ⟨fun _ => nofun, fun _ => nofun⟩
  | succ fuel ih =>
    obtain ⟨ihcmds, ihcmd⟩ := ih
    constructor
    · intro depth c c' cmds hdepth h
      rw [parseCommands] at h
      have h := exists_of_peek_ok h
      cases hhead : c.lexemes.head? with
      | none =>
        rw [hhead] at h
        cases h
        exact ⟨.inl (List.head?_eq_none_iff.mp hhead), [], rfl, .nil⟩
      | some l =>
        rw [hhead] at h
        dsimp only at h
        split_ifs at h with hend
        · subst hend
          cases h
          exact ⟨.inr hhead, [], rfl, .nil⟩
        · obtain ⟨cmd, d, hcmd, h⟩ := exists_of_bind_ok h
          obtain ⟨rest, e, hrest, h⟩ := exists_of_bind_ok h
          cases h
          obtain ⟨ts, hts, hw⟩ := ihcmd hdepth hcmd
          obtain ⟨hend, us, hus, hws⟩ := ihcmds hdepth hrest
          exact ⟨hend, _, by rw [hts, hus, List.append_assoc], .cons hw hws⟩
    · intro depth c c' cmd hdepth h
      rw [parseCommand] at h
      obtain ⟨name, d, hname, h⟩ := exists_of_bind_ok h
      obtain ⟨args, e, hargs, h⟩ := exists_of_bind_ok h
      obtain ⟨test, g, htest, h⟩ := exists_of_bind_ok h
      obtain ⟨ts, hts, haw, -⟩ := parseArgs_ok hargs
      obtain ⟨us, hus, hcw⟩ := parseCondition_ok htest
      have h := exists_of_peek_ok h
      by_cases hbrace : g.lexemes.head? = some (.mark '{')
      · rw [if_pos hbrace] at h
        obtain ⟨pos, i, hpos, h⟩ := exists_of_bind_ok h
        cases hpos
        by_cases hblock : name ∉ CONTROL_WITH_BLOCK
        · rw [if_pos hblock] at h
          cases h
        · rw [if_neg hblock] at h
          obtain ⟨t, j, hnext, h⟩ := exists_of_bind_ok h
          obtain ⟨pos, k, hpos, h⟩ := exists_of_bind_ok h
          cases hpos
          by_cases hdeep : MAX_BLOCK_DEPTH < depth + 1
          · rw [if_pos hdeep] at h
            cases h
          · rw [if_neg hdeep] at h
            obtain ⟨block, m, hb, h⟩ := exists_of_bind_ok h
            obtain ⟨_, n, hclose, h⟩ := exists_of_bind_ok h
            cases h
            obtain ⟨-, vs, hvs, hbw⟩ := ihcmds (Nat.le_of_not_lt hdeep) hb
            have hroom : MAX_BLOCK_DEPTH - depth = MAX_BLOCK_DEPTH - (depth + 1) + 1 := by omega
            rw [hroom]
            refine ⟨_, ?_, .block (not_not.mp hblock) haw hcw hbw⟩
            rw [expectIdentifier_ok hname, hts, hus, next_of_head hbrace hnext, hvs,
              expectMark_ok hclose]
            simp
      · rw [if_neg hbrace] at h
        obtain ⟨_, i, hsemi, h⟩ := exists_of_bind_ok h
        cases h
        refine ⟨_, ?_, .simple haw hcw⟩
        rw [expectIdentifier_ok hname, hts, hus, expectMark_ok hsemi]
        simp

end Ionosphere.Sieve
