import Ionosphere.Sieve.Total

/-! The tokens of a script are taken as that script, whatever closing brace or end follows, unless
the stack does not hold its tests. With it the parser's two faults are exact: it stops at a closing
brace that closes nothing, and what stands behind it is lost; and it does not limit how deep tests
nest. -/
namespace Ionosphere.Sieve

open Ionosphere.Js

variable {fuel stack depth : Nat} {c : Cursor} {α β : Type} {us vs : List Lexeme} {ts : List Lexeme}
  {name : Text} {src : Text} {test : Option SieveTest} {toks : List Token}

/-- What is read as `a`, with `us` left, unless the stack does not hold it. -/
def Reads (r : Except Stop (α × Cursor)) (a : α) (us : List Lexeme) : Prop :=
  r = .error .rangeError ∨ ∃ d, r = .ok (a, d) ∧ d.lexemes = us

theorem Reads.bind {x : Parse α} {f : α → Parse β} {a : α} {b : β} (h : Reads (x c) a us)
    (hf : ∀ d, x c = .ok (a, d) → d.lexemes = us → Reads (f a d) b vs) :
    Reads ((x >>= f) c) b vs := by
  rcases h with h | ⟨d, h, hd⟩
  · exact .inl (bind_of_error h)
  · rw [bind_of_ok h]
    exact hf d h hd

theorem Reads.bind_error {x : Parse α} {f : α → Parse β} {a : α} (h : Reads (x c) a us)
    (hf : ∀ d, x c = .ok (a, d) → d.lexemes = us → f a d = .error .rangeError) :
    (x >>= f) c = .error .rangeError := by
  rcases h with h | ⟨d, h, hd⟩
  · exact bind_of_error h
  · rw [bind_of_ok h]
    exact hf d h hd

theorem peek_bind {f : Option Lexeme → Parse β} (c : Cursor) :
    (peek >>= f) c = f c.lexemes.head? c := bind_of_ok (peek_apply c)

theorem moreStrings_of_listed {vs : List Text} (h : c.lexemes =
      (vs.flatMap fun v => [Lexeme.mark ',', .string v]) ++ us)
    (hend : us.head? ≠ some (.mark ',')) (hfuel : c.rest.length < fuel) :
    ∃ d, moreStrings fuel c = .ok (vs, d) ∧ d.lexemes = us := by
  induction fuel generalizing c vs with
  | zero => omega
  | succ fuel ih =>
    rw [moreStrings, peek_bind]
    cases vs with
    | nil =>
      rw [h, List.flatMap_nil, List.nil_append, if_neg hend]
      exact ⟨c, rfl, h⟩
    | cons v vs =>
      have hc : c.lexemes = .mark ',' :: .string v ::
          ((vs.flatMap fun v => [Lexeme.mark ',', .string v]) ++ us) := h
      obtain ⟨t, d, hnext, -, hd⟩ := next_of_cons hc
      obtain ⟨e, hv, he⟩ := expectString_of_cons hd
      have hld := length_next hnext
      have hle := length_expectString hv
      obtain ⟨g, hg, hus⟩ := ih he (by omega)
      refine ⟨g, ?_, hus⟩
      rw [hc, List.head?_cons, if_pos rfl, bind_of_ok hnext, bind_of_ok hv, bind_of_ok hg]
      rfl

theorem parseStringList_of_listed {vs : List Text}
    (h : c.lexemes = .mark '[' :: (listed vs ++ .mark ']' :: us)) (hfuel : c.rest.length ≤ fuel) :
    ∃ d, parseStringList fuel c = .ok (vs, d) ∧ d.lexemes = us := by
  obtain ⟨d, hopen, hd⟩ := expectMark_of_cons h
  have hld := length_expectMark hopen
  have hitems : ∃ e, items ']' expectString (moreStrings fuel) d = .ok (vs, e) ∧
      e.lexemes = .mark ']' :: us := by
    rw [items, peek_bind, hd]
    cases vs with
    | nil => exact ⟨d, congrFun (if_pos rfl) d, hd⟩
    | cons v vs =>
      have hd : d.lexemes = .string v :: ((vs.flatMap fun v => [Lexeme.mark ',', .string v]) ++
          .mark ']' :: us) := hd
      obtain ⟨e, hv, he⟩ := expectString_of_cons hd
      have hle := length_expectString hv
      obtain ⟨g, hg, hus⟩ := moreStrings_of_listed he (by simp) (by omega : e.rest.length < fuel)
      refine ⟨g, ?_, hus⟩
      rw [if_neg (by simp [listed]), bind_of_ok hv, bind_of_ok hg]
      rfl
  obtain ⟨e, he, hle⟩ := hitems
  obtain ⟨g, hclose, hg⟩ := expectMark_of_cons hle
  refine ⟨g, ?_, hg⟩
  rw [parseStringList, bind_of_ok hopen, bind_of_ok he, bind_of_ok hclose]
  rfl

theorem parseArgs_of_written {args : List SieveArg} (hw : ArgsWritten args ts)
    (h : c.lexemes = ts ++ us) (hend : NoArg us) (hfuel : c.rest.length < fuel) :
    ∃ d, parseArgs fuel c = .ok (args, d) ∧ d.lexemes = us := by
  induction fuel generalizing c args ts with
  | zero => omega
  | succ fuel ih =>
    rw [parseArgs, peek_bind, h]
    cases hw with
    | nil =>
      refine ⟨c, ?_, h⟩
      rw [NoArg] at hend
      cases hus : us.head? with
      | none =>
        rw [List.nil_append, hus]
        rfl
      | some l =>
        rw [hus] at hend
        rw [List.nil_append, hus]
        cases l with
        | identifier name => rfl
        | mark m => exact congrFun (if_neg hend) c
        | tag name => exact hend.elim
        | number value => exact hend.elim
        | string value => exact hend.elim
    | cons harg hargs =>
      rename_i arg args ts' ts
      rw [List.append_assoc] at h
      have htake : ∀ l, c.lexemes = l :: (ts ++ us) → ∃ d,
          (do let _ ← next
              let args ← parseArgs fuel
              pure (arg :: args) : Parse (List SieveArg)) c = .ok (arg :: args, d) ∧
            d.lexemes = us := by
        intro l hl
        obtain ⟨t, d, hnext, -, hd⟩ := next_of_cons hl
        have hld := length_next hnext
        obtain ⟨e, he, hus⟩ := ih hargs hd (by omega)
        refine ⟨e, ?_, hus⟩
        rw [bind_of_ok hnext, bind_of_ok he]
        rfl
      cases harg with
      | tag name => exact htake _ h
      | number value => exact htake _ h
      | string value => exact htake _ h
      | strings vs =>
        have hc : c.lexemes = .mark '[' :: (listed vs ++ .mark ']' :: (ts ++ us)) := by
          rw [h]
          simp
        obtain ⟨d, hvs, hd⟩ := parseStringList_of_listed hc (by omega : c.rest.length ≤ fuel)
        have hlist : c.lexemes = (Lexeme.mark '[' :: (listed vs ++ [Lexeme.mark ']'])) ++ d.lexemes := by
          rw [parseStringList_ok hvs]
          simp
        have hlen := length_of_lexemes hlist
        rw [List.length_cons] at hlen
        obtain ⟨e, he, hus⟩ := ih hargs hd (by omega)
        refine ⟨e, ?_, hus⟩
        change (if '[' = '[' then _ else _ : Parse (List SieveArg)) c = _
        rw [if_pos rfl, bind_of_ok hvs, bind_of_ok he]
        rfl

theorem noArg_mark {m : Char} (hm : m ≠ '[') (us : List Lexeme) : NoArg (.mark m :: us) := hm

theorem MoreWritten.noArg {tests : List SieveTest} (hw : MoreWritten tests ts)
    (hus : NoArg us) : NoArg (ts ++ us) := by
  cases hw with
  | nil => exact hus
  | cons _ _ => exact noArg_mark (by decide) _

theorem DeepMore.noArg (h : DeepMore stack us) : NoArg us := by
  cases h <;> exact noArg_mark (by decide) _

theorem TestWritten.head?_ne {test : SieveTest} (hw : TestWritten test ts)
    (h : c.lexemes = ts ++ us) : c.lexemes.head? ≠ some (.mark ')') := by
  rw [h]
  cases hw <;> simp

theorem parseTests_of_written (fuel : Nat) :
    (∀ {stack : Nat} {c : Cursor} {test : SieveTest} {ts us : List Lexeme}, TestWritten test ts →
      c.lexemes = ts ++ us → NoArg us → c.rest.length < fuel →
        Reads (parseTest fuel stack c) test us) ∧
    ∀ {stack : Nat} {c : Cursor} {tests : List SieveTest} {ts us : List Lexeme},
      MoreWritten tests ts → c.lexemes = ts ++ us → NoArg us → us.head? ≠ some (.mark ',') →
        c.rest.length < fuel → Reads (moreTests fuel stack c) tests us := by
  induction fuel with
  | zero => exact ⟨fun _ _ _ h => absurd h (Nat.not_lt_zero _),
      fun _ _ _ _ h => absurd h (Nat.not_lt_zero _)⟩
  | succ fuel ih =>
    obtain ⟨ihtest, ihmore⟩ := ih
    constructor
    · intro stack c test ts us hw h hend hfuel
      obtain _ | stack := stack
      · exact .inl rfl
      rw [parseTest]
      cases hw with
      | plain hlist hinner hargs =>
        obtain ⟨d, hname, hd⟩ := expectIdentifier_of_cons h
        have hld := length_expectIdentifier hname
        obtain ⟨e, he, hus⟩ := parseArgs_of_written hargs hd hend (by omega : d.rest.length < fuel)
        rw [bind_of_ok hname, if_neg hlist, if_neg hinner, bind_of_ok he]
        exact .inr ⟨e, rfl, hus⟩
      | inner hlist hinner ht =>
        obtain ⟨d, hname, hd⟩ := expectIdentifier_of_cons h
        have hld := length_expectIdentifier hname
        rw [bind_of_ok hname, if_neg hlist, if_pos hinner]
        exact .bind (ihtest ht hd hend (by omega)) fun e _ hus => .inr ⟨e, rfl, hus⟩
      | none hlist =>
        rename_i name
        have h' : c.lexemes = .identifier name :: .mark '(' :: .mark ')' :: us := h
        obtain ⟨d, hname, hd⟩ := expectIdentifier_of_cons h'
        obtain ⟨e, hopen, he⟩ := expectMark_of_cons hd
        obtain ⟨g, hclose, hg⟩ := expectMark_of_cons he
        have hitems : items ')' (parseTest fuel stack) (moreTests fuel stack) e = .ok ([], e) := by
          rw [items, peek_bind, he, List.head?_cons, if_pos rfl]
          rfl
        rw [bind_of_ok hname, if_pos hlist, bind_of_ok hopen, bind_of_ok hitems, bind_of_ok hclose]
        exact .inr ⟨g, rfl, hg⟩
      | list hlist ht hmore =>
        rename_i name test tests ts vs
        have h' : c.lexemes = .identifier name :: .mark '(' :: (ts ++ (vs ++ .mark ')' :: us)) := by
          rw [h]
          simp
        obtain ⟨d, hname, hd⟩ := expectIdentifier_of_cons h'
        obtain ⟨e, hopen, he⟩ := expectMark_of_cons hd
        have hld := length_expectIdentifier hname
        have hle := length_expectMark hopen
        have hclose : NoArg (.mark ')' :: us) := noArg_mark (by decide) us
        have hitems : Reads (items ')' (parseTest fuel stack) (moreTests fuel stack) e)
            (test :: tests) (.mark ')' :: us) := by
          rw [items, peek_bind, if_neg (ht.head?_ne he)]
          refine .bind (ihtest ht he (hmore.noArg hclose) (by omega)) fun g _ hlg => ?_
          have hlen := length_of_lexemes (he.trans (by rw [hlg]))
          exact .bind (ihmore hmore hlg hclose (by simp) (by omega)) fun i _ hli =>
            .inr ⟨i, rfl, hli⟩
        rw [bind_of_ok hname, if_pos hlist, bind_of_ok hopen]
        refine .bind hitems fun i _ hli => ?_
        obtain ⟨j, hclose, hj⟩ := expectMark_of_cons hli
        rw [bind_of_ok hclose]
        exact .inr ⟨j, rfl, hj⟩
    · intro stack c tests ts us hw h hend hcomma hfuel
      rw [moreTests, peek_bind]
      cases hw with
      | nil =>
        rw [h, List.nil_append, if_neg hcomma]
        exact .inr ⟨c, rfl, h⟩
      | cons ht hmore =>
        rename_i test tests ts vs
        have h' : c.lexemes = .mark ',' :: (ts ++ (vs ++ us)) := by
          rw [h]
          simp
        obtain ⟨t, d, hnext, -, hd⟩ := next_of_cons h'
        have hld := length_next hnext
        rw [h', List.head?_cons, if_pos rfl, bind_of_ok hnext]
        refine .bind (ihtest ht hd (hmore.noArg hend) (by omega)) fun e _ hle => ?_
        have hlen := length_of_lexemes (hd.trans (by rw [hle]))
        exact .bind (ihmore hmore hle hend hcomma (by omega)) fun g _ hus => .inr ⟨g, rfl, hus⟩

/-- A test that nests too deep is given up, after what stands before it was read. -/
theorem parseTests_of_deep (fuel : Nat) :
    (∀ {stack : Nat} {c : Cursor} {ts : List Lexeme}, DeepTest stack ts → c.lexemes = ts →
      c.rest.length < fuel → parseTest fuel stack c = .error .rangeError) ∧
    ∀ {stack : Nat} {c : Cursor} {ts : List Lexeme}, DeepMore stack ts → c.lexemes = ts →
      c.rest.length < fuel → moreTests fuel stack c = .error .rangeError := by
  induction fuel with
  | zero => exact ⟨fun _ _ h => absurd h (Nat.not_lt_zero _), fun _ _ h => absurd h (Nat.not_lt_zero _)⟩
  | succ fuel ih =>
    obtain ⟨ihtest, ihmore⟩ := ih
    constructor
    · intro stack c ts hdeep h hfuel
      cases hdeep with
      | called => rfl
      | inner hlist hinner hdeep =>
        obtain ⟨d, hname, hd⟩ := expectIdentifier_of_cons h
        have hld := length_expectIdentifier hname
        rw [parseTest, bind_of_ok hname, if_neg hlist, if_pos hinner]
        exact bind_of_error (ihtest hdeep hd (by omega))
      | first hlist hsome hdeep =>
        obtain ⟨d, hname, hd⟩ := expectIdentifier_of_cons h
        obtain ⟨e, hopen, rfl⟩ := expectMark_of_cons hd
        have hld := length_expectIdentifier hname
        have hle := length_expectMark hopen
        rw [parseTest, bind_of_ok hname, if_pos hlist, bind_of_ok hopen]
        refine bind_of_error ?_
        rw [items, peek_bind, if_neg hsome]
        exact bind_of_error (ihtest hdeep rfl (by omega))
      | later hlist ht hdeep =>
        obtain ⟨d, hname, hd⟩ := expectIdentifier_of_cons h
        obtain ⟨e, hopen, he⟩ := expectMark_of_cons hd
        have hld := length_expectIdentifier hname
        have hle := length_expectMark hopen
        have hsep := hdeep.noArg
        rw [parseTest, bind_of_ok hname, if_pos hlist, bind_of_ok hopen]
        refine bind_of_error ?_
        rw [items, peek_bind, if_neg (ht.head?_ne he)]
        refine ((parseTests_of_written fuel).1 ht he hsep (by omega)).bind_error fun g _ hg => ?_
        have hlen := length_of_lexemes (he.trans (by rw [hg]))
        exact bind_of_error (ihmore hdeep hg (by omega))
    · intro stack c ts hdeep h hfuel
      have hcomma : c.lexemes.head? = some (.mark ',') := by
        rw [h]
        cases hdeep <;> rfl
      rw [moreTests, peek_bind, if_pos hcomma]
      cases hdeep with
      | first hdeep =>
        obtain ⟨t, d, hnext, -, hd⟩ := next_of_cons h
        have hld := length_next hnext
        rw [bind_of_ok hnext]
        exact bind_of_error (ihtest hdeep hd (by omega))
      | later ht hdeep =>
        obtain ⟨t, d, hnext, -, hd⟩ := next_of_cons h
        have hld := length_next hnext
        have hsep := hdeep.noArg
        rw [bind_of_ok hnext]
        refine ((parseTests_of_written fuel).1 ht hd hsep (by omega)).bind_error fun e _ he => ?_
        have hlen := length_of_lexemes (hd.trans (by rw [he]))
        exact bind_of_error (ihmore hdeep he (by omega))

theorem parseCondition_of_written (hw : ConditionWritten name test ts) (h : c.lexemes = ts ++ us)
    (hend : NoArg us)
    (hfuel : c.rest.length < fuel) : Reads (parseCondition stack fuel name c) test us := by
  rw [parseCondition]
  cases hw with
  | none hname =>
    rw [if_neg hname]
    exact .inr ⟨c, rfl, h⟩
  | some hname ht =>
    rw [if_pos hname]
    exact .bind ((parseTests_of_written fuel).1 ht h hend hfuel) fun d _ hus => .inr ⟨d, rfl, hus⟩

theorem ConditionWritten.noArg {ts us : List Lexeme}
    (hw : ConditionWritten name test ts) (hus : NoArg us) : NoArg (ts ++ us) := by
  cases hw with
  | none _ => exact hus
  | some _ ht => cases ht <;> exact trivial

theorem peekPos_bind {f : Nat → Parse β} (c : Cursor) :
    (peekPos >>= f) c = f ((c.rest.head?.map Token.pos).getD 0) c := rfl

theorem CommandWritten.head? {cmd : SieveCommand}
    (hw : CommandWritten depth cmd ts) (h : c.lexemes = ts ++ us) :
    ∃ name, c.lexemes.head? = some (.identifier name) := by
  rw [h]
  cases hw <;> exact ⟨_, rfl⟩

theorem parseCommands_cons (h : c.lexemes.head? = some (.identifier name)) :
    parseCommands stack (fuel + 1) depth c = (do
      let cmd ← parseCommand stack fuel depth
      let cmds ← parseCommands stack fuel depth
      pure (cmd :: cmds) : Parse (List SieveCommand)) c := by
  rw [parseCommands, peek_bind, h]
  exact congrFun (if_neg (by simp)) c

/-- A command is read up to its block, unless the stack does not hold its test. -/
theorem parseCommand_block (stack : Nat) {args : List SieveArg}
    {ts us vs : List Lexeme} (hblock : name ∈ CONTROL_WITH_BLOCK) (ha : ArgsWritten args ts)
    (ht : ConditionWritten name test us) (hdepth : depth < MAX_BLOCK_DEPTH)
    (h : c.lexemes = .identifier name :: (ts ++ (us ++ .mark '\x7b' :: vs)))
    (hfuel : 2 * c.rest.length ≤ fuel + 1) :
    parseCommand stack (fuel + 1) depth c = .error .rangeError ∨
      ∃ d, d.lexemes = vs ∧ 2 * d.rest.length < fuel ∧
        parseCommand stack (fuel + 1) depth c = (do
          let block ← parseCommands stack fuel (depth + 1)
          expectMark '\x7d'
          pure (.mk name args test (some block)) : Parse SieveCommand) d := by
  obtain ⟨d, hname, hd⟩ := expectIdentifier_of_cons h
  have hld := length_expectIdentifier hname
  have hbrace : NoArg (.mark '\x7b' :: vs) := noArg_mark (by decide) _
  obtain ⟨e, he, hle⟩ := parseArgs_of_written ha hd (ht.noArg hbrace)
    (by omega : d.rest.length < fuel)
  have hlargs := length_of_lexemes (hd.trans (by rw [hle]))
  rw [parseCommand, bind_of_ok hname, bind_of_ok he]
  have hle' : e.rest.length < fuel := by omega
  rcases parseCondition_of_written ht hle hbrace hle' with hover | ⟨g, hg, hlg⟩
  · exact .inl (bind_of_error hover)
  · have hltest := length_of_lexemes (hle.trans (by rw [hlg]))
    obtain ⟨t, i, hnext, -, hi⟩ := next_of_cons hlg
    have hli := length_next hnext
    refine .inr ⟨i, hi, by omega, ?_⟩
    rw [bind_of_ok hg, peek_bind, hlg, List.head?_cons, if_pos rfl, peekPos_bind,
      if_neg (not_not.mpr hblock), bind_of_ok hnext, peekPos_bind, if_neg (Nat.not_lt.mpr hdepth)]

theorem parseCommandsAll_of_written (stack fuel : Nat) :
    (∀ {n depth : Nat} {c : Cursor} {cmds : List SieveCommand} {ts us : List Lexeme},
      n + depth ≤ MAX_BLOCK_DEPTH → CommandsWritten n cmds ts →
      c.lexemes = ts ++ us → us = [] ∨ us.head? = some (.mark '}') → 2 * c.rest.length < fuel →
        Reads (parseCommands stack fuel depth c) cmds us) ∧
    ∀ {n depth : Nat} {c : Cursor} {cmd : SieveCommand} {ts us : List Lexeme},
      n + depth ≤ MAX_BLOCK_DEPTH → CommandWritten n cmd ts →
      c.lexemes = ts ++ us → 2 * c.rest.length ≤ fuel →
        Reads (parseCommand stack fuel depth c) cmd us := by
  induction fuel with
  | zero =>
    refine ⟨fun _ _ _ _ h => absurd h (Nat.not_lt_zero _), fun _ hw h hfuel => ?_⟩
    have hlen := congrArg List.length h
    rw [Cursor.length_lexemes, List.length_append] at hlen
    have := hw.ne_nil
    omega
  | succ fuel ih =>
    obtain ⟨ihcmds, ihcmd⟩ := ih
    constructor
    · intro n depth c cmds ts us hdepth hw h hend hfuel
      cases hw with
      | nil =>
        refine .inr ⟨c, ?_, h⟩
        rw [parseCommands, peek_bind, h, List.nil_append]
        rcases hend with hend | hend
        · rw [hend]
          rfl
        · rw [hend]
          exact congrFun (if_pos rfl) c
      | cons hcmd hcmds =>
        rename_i cmd cmds ts vs
        rw [List.append_assoc] at h
        obtain ⟨name, hhead⟩ := hcmd.head? h
        rw [parseCommands_cons hhead]
        refine .bind (ihcmd hdepth hcmd h (by omega)) fun d _ hld => ?_
        have hlen := length_of_lexemes (h.trans (by rw [hld]))
        have hpos := hcmd.ne_nil
        exact .bind (ihcmds hdepth hcmds hld hend (by omega)) fun e _ hus => .inr ⟨e, rfl, hus⟩
    · intro n depth c cmd ts us hdepth hw h hfuel
      cases hw with
      | simple ha ht =>
        rename_i name args test ts vs
        have h' : c.lexemes = .identifier name :: (ts ++ (vs ++ .mark ';' :: us)) := by
          rw [h]
          simp
        obtain ⟨d, hname, hd⟩ := expectIdentifier_of_cons h'
        have hld := length_expectIdentifier hname
        have hsemi : NoArg (.mark ';' :: us) := noArg_mark (by decide) us
        obtain ⟨e, he, hle⟩ := parseArgs_of_written ha hd (ht.noArg hsemi)
          (by omega : d.rest.length < fuel)
        have hlargs := length_of_lexemes (hd.trans (by rw [hle]))
        rw [parseCommand, bind_of_ok hname, bind_of_ok he]
        refine .bind (parseCondition_of_written ht hle hsemi (by omega)) fun g _ hlg => ?_
        obtain ⟨i, hi, hus⟩ := expectMark_of_cons hlg
        rw [peek_bind, hlg, List.head?_cons, if_neg (by simp), bind_of_ok hi]
        exact .inr ⟨i, rfl, hus⟩
      | block hblock ha ht hb =>
        rename_i n name args test cmds ts vs ws
        have h' : c.lexemes = .identifier name ::
            (ts ++ (vs ++ .mark '\x7b' :: (ws ++ .mark '\x7d' :: us))) := by
          rw [h]
          simp
        have hroom : depth < MAX_BLOCK_DEPTH := by omega
        rcases parseCommand_block stack hblock ha ht hroom h' hfuel with hover | ⟨d, hd, hld, hcmd⟩
        · exact .inl hover
        rw [hcmd]
        refine .bind (ihcmds (by omega : n + (depth + 1) ≤ MAX_BLOCK_DEPTH) hb hd (.inr rfl) hld)
          fun j _ hlj => ?_
        obtain ⟨k, hk, hus⟩ := expectMark_of_cons hlj
        rw [bind_of_ok hk]
        exact .inr ⟨k, rfl, hus⟩

theorem parseCommandsAll_of_deep (stack fuel : Nat) :
    (∀ {n depth : Nat} {c : Cursor} {ts : List Lexeme}, n + depth ≤ MAX_BLOCK_DEPTH →
      DeepCommands stack n ts → c.lexemes = ts → 2 * c.rest.length < fuel →
        parseCommands stack fuel depth c = .error .rangeError) ∧
    ∀ {n depth : Nat} {c : Cursor} {ts : List Lexeme}, n + depth ≤ MAX_BLOCK_DEPTH →
      DeepCommand stack n ts → c.lexemes = ts → 2 * c.rest.length ≤ fuel →
        parseCommand stack fuel depth c = .error .rangeError := by
  induction fuel with
  | zero =>
    refine ⟨fun _ _ _ h => absurd h (Nat.not_lt_zero _), fun _ hdeep h hfuel => ?_⟩
    have hlen := congrArg List.length h
    rw [Cursor.length_lexemes] at hlen
    cases hdeep <;> simp at hlen <;> omega
  | succ fuel ih =>
    obtain ⟨ihcmds, ihcmd⟩ := ih
    constructor
    · intro n depth c ts hdepth hdeep h hfuel
      cases hdeep with
      | first hdeep =>
        have hhead : ∃ name, c.lexemes.head? = some (.identifier name) := by
          rw [h]
          cases hdeep <;> exact ⟨_, rfl⟩
        obtain ⟨name, hhead⟩ := hhead
        rw [parseCommands_cons hhead]
        exact bind_of_error (ihcmd hdepth hdeep h (by omega))
      | later hcmd hdeep =>
        obtain ⟨name, hhead⟩ := hcmd.head? h
        rw [parseCommands_cons hhead]
        refine ((parseCommandsAll_of_written stack fuel).2 hdepth hcmd h (by omega)).bind_error
          fun d _ hd => ?_
        have hlen := length_of_lexemes (h.trans (by rw [hd]))
        have hpos := hcmd.ne_nil
        exact bind_of_error (ihcmds hdepth hdeep hd (by omega))
    · intro n depth c ts hdepth hdeep h hfuel
      cases hdeep with
      | test ha hend hname hdeep =>
        obtain ⟨d, hid, hd⟩ := expectIdentifier_of_cons h
        have hld := length_expectIdentifier hid
        obtain ⟨e, he, hle⟩ := parseArgs_of_written ha hd hend (by omega : d.rest.length < fuel)
        have hlargs := length_of_lexemes (hd.trans (by rw [hle]))
        rw [parseCommand, bind_of_ok hid, bind_of_ok he]
        refine bind_of_error ?_
        rw [parseCondition, if_pos hname]
        exact bind_of_error ((parseTests_of_deep fuel).1 hdeep hle (by omega))
      | block hblock ha ht hdeep =>
        rename_i n name args test ts vs ws
        have hroom : depth < MAX_BLOCK_DEPTH := by omega
        rcases parseCommand_block stack hblock ha ht hroom h hfuel with hover | ⟨d, hd, hld, hcmd⟩
        · exact hover
        rw [hcmd]
        exact bind_of_error (ihcmds (by omega : n + (depth + 1) ≤ MAX_BLOCK_DEPTH) hdeep hd hld)

def IsScript (ts : List Lexeme) : Prop := ∃ cmds, CommandsWritten MAX_BLOCK_DEPTH cmds ts

def ParsesAll (stack : Nat) (src : Text) : Prop :=
  match parseSieve stack src with
  | .ok cmds => ∃ toks, tokenize src = .ok toks ∧
      CommandsWritten MAX_BLOCK_DEPTH cmds (toks.map Token.lexeme)
  | .error stop => ∃ e, stop = .thrown e

theorem parseSieve_tokens (h : tokenize src = .ok toks) :
    parseSieve stack src = (parseCommands stack (2 * toks.length + 2) 0 ⟨0, toks⟩).map Prod.fst := by
  rw [parseSieve, h]

theorem parsesAll_ne_rangeError (h : ParsesAll stack src) :
    parseSieve stack src ≠ .error .rangeError := by
  intro hrange
  rw [ParsesAll, hrange] at h
  obtain ⟨e, he⟩ := h
  cases he

theorem parseSieve_of_script {cmds : List SieveCommand}
    {ts us : List Lexeme} (htoks : tokenize src = .ok toks) (hall : ParsesAll stack src)
    (hw : CommandsWritten MAX_BLOCK_DEPTH cmds ts) (h : toks.map Token.lexeme = ts ++ us)
    (hend : us = [] ∨ us.head? = some (.mark '\x7d')) :
    ∃ d, parseCommands stack (2 * toks.length + 2) 0 ⟨0, toks⟩ = .ok (cmds, d) ∧ d.lexemes = us := by
  have hnot := parsesAll_ne_rangeError hall
  rw [parseSieve_tokens htoks] at hnot
  refine ((parseCommandsAll_of_written stack (2 * toks.length + 2)).1 (c := ⟨0, toks⟩) le_rfl hw h
    hend (by dsimp only; omega)).resolve_left fun hrange => hnot ?_
  rw [hrange]
  rfl

/-- A script is read to its end or refused with a syntax error exactly when no closing brace
follows a sequence of complete commands at its beginning, and no test nests deeper than the stack
holds. -/
theorem parser_complete (stack : Nat) (src : Text) :
    ParsesAll stack src ↔ ∀ toks, tokenize src = .ok toks →
      (∀ ts us, toks.map Token.lexeme = ts ++ Lexeme.mark '\x7d' :: us → ¬ IsScript ts) ∧
        ¬ DeepCommands stack MAX_BLOCK_DEPTH (toks.map Token.lexeme) := by
  constructor
  · intro hall toks htoks
    constructor
    · rintro ts us hsplit ⟨cmds, hw⟩
      obtain ⟨d, hparse, hd⟩ := parseSieve_of_script htoks hall hw hsplit (.inr rfl)
      have hwhole := hall
      rw [ParsesAll, parseSieve_tokens htoks, hparse] at hwhole
      obtain ⟨toks', htoks', hwhole⟩ := hwhole
      rw [htoks] at htoks'
      cases htoks'
      obtain ⟨e, hparse', he⟩ := parseSieve_of_script htoks hall hwhole (List.append_nil _).symm
        (.inl rfl)
      rw [hparse] at hparse'
      cases hparse'
      rw [hd] at he
      cases he
    · intro hdeep
      refine parsesAll_ne_rangeError hall ?_
      rw [parseSieve_tokens htoks, (parseCommandsAll_of_deep stack _).1 (c := ⟨0, toks⟩) le_rfl hdeep
        rfl (by dsimp only; omega)]
      rfl
  · intro hno
    have hends := parseSieve_ends stack src
    rw [ParsesAll]
    cases hsrc : parseSieve stack src with
    | error stop =>
      rw [hsrc] at hends
      cases stop with
      | thrown e => exact ⟨e, rfl⟩
      | rangeError =>
        obtain ⟨toks, htoks, hdeep⟩ := hends
        exact absurd hdeep (hno toks htoks).2
      | fuel => exact hends.elim
    | ok cmds =>
      cases htoks : tokenize src with
      | error e =>
        rw [parseSieve, htoks] at hsrc
        cases hsrc
      | ok toks =>
        rw [parseSieve_tokens htoks] at hsrc
        cases hparse : parseCommands stack (2 * toks.length + 2) 0 ⟨0, toks⟩ with
        | error e =>
          rw [hparse] at hsrc
          cases hsrc
        | ok p =>
          rw [hparse] at hsrc
          cases hsrc
          obtain ⟨hend, ts, hts, hw⟩ :=
            (parseCommandsAll_ok stack _).1 (Nat.zero_le MAX_BLOCK_DEPTH) hparse
          have hts : toks.map Token.lexeme = ts ++ p.2.lexemes := hts
          rcases hend with hnil | hbrace
          · rw [hnil, List.append_nil] at hts
            exact ⟨toks, rfl, hts ▸ hw⟩
          · obtain ⟨us, hus⟩ := List.head?_eq_some_iff.mp hbrace
            rw [hus] at hts
            exact absurd ⟨_, hw⟩ ((hno toks htoks).1 ts us hts)

theorem not_parsesAll {n : Nat} (htoks : tokenize src = .ok toks)
    (hrest : (parseCommands stack (2 * toks.length + 2) 0 ⟨0, toks⟩).toOption.map
      (·.2.rest.length) = some (n + 1)) : ¬ ParsesAll stack src := by
  intro hall
  cases hparse : parseCommands stack (2 * toks.length + 2) 0 ⟨0, toks⟩ with
  | error e =>
    rw [hparse] at hrest
    cases hrest
  | ok p =>
    obtain ⟨cmds, c⟩ := p
    rw [hparse] at hrest
    have hwhole := hall
    rw [ParsesAll, parseSieve_tokens htoks, hparse] at hwhole
    obtain ⟨toks', htoks', hw⟩ := hwhole
    rw [htoks] at htoks'
    cases htoks'
    obtain ⟨d, hparse', hd⟩ := parseSieve_of_script htoks hall hw (List.append_nil _).symm (.inl rfl)
    rw [hparse] at hparse'
    cases hparse'
    rw [Cursor.lexemes, List.map_eq_nil_iff] at hd
    rw [Except.toOption, Option.map_some, hd] at hrest
    cases hrest

/-- A closing brace too many: the rule behind it is lost. -/
def strayBrace : Text := "keep; \x7d discard;".toList

def strayTokens : List Token :=
  [⟨.identifier "keep".toList, 0⟩, ⟨.mark ';', 4⟩, ⟨.mark '\x7d', 6⟩,
    ⟨.identifier "discard".toList, 8⟩, ⟨.mark ';', 15⟩]

theorem tokenize_strayBrace : (tokenize strayBrace).toOption = some strayTokens := by
  decide +kernel

theorem rest_strayBrace : (parseCommands 100 (2 * strayTokens.length + 2) 0
    ⟨0, strayTokens⟩).toOption.map (·.2.rest.length) = some (2 + 1) := by
  decide +kernel

theorem not_parsesAll_strayBrace : ¬ ParsesAll 100 strayBrace := by
  refine @not_parsesAll 100 strayBrace strayTokens 2 ?_ rest_strayBrace
  have heval := tokenize_strayBrace
  cases hs : tokenize strayBrace with
  | error e =>
    rw [hs] at heval
    cases heval
  | ok toks =>
    rw [hs] at heval
    exact congrArg Except.ok (Option.some.inj heval)

theorem parser_complete_fails : ¬ ∀ stack src, ParsesAll stack src :=
  not_forall_of_exists_not ⟨100, not_forall_of_exists_not ⟨strayBrace, not_parsesAll_strayBrace⟩⟩

end Ionosphere.Sieve
