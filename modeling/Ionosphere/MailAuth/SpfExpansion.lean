import Ionosphere.MailAuth.MacroString
import Ionosphere.MailAuth.SpfMacro

/-! The expansion of macros beside section 7 of RFC 7208. The two read the same pieces; they
differ in what they refuse, in the escaping of capital letters and in names that are too long. -/
namespace Ionosphere.MailAuth

open Ionosphere.Js Ionosphere.Lib

variable {p : MacroPiece} {values : MacroLetter → Text}

variable {pieces : List MacroPiece} {forExp : Bool}

/-- What the letters stand for, `p` apart, which takes lookups. -/
def sectionValue (mctx : MacroCtx) (p : Text) : MacroLetter → Text
  | .s => mctx.senderFull
  | .l => mctx.senderLocal
  | .o => mctx.senderDomain
  | .d => mctx.currentDomain
  | .i =>
    match mctx.clientIp.version with
    | .v4 => presentIp mctx.clientIp
    | .v6 => nibbleForm mctx.clientIp
  | .p => p
  | .h => mctx.helo
  | .c => presentIp mctx.clientIp
  | .r => unknown
  | .t => natText mctx.now
  | .v =>
    match mctx.clientIp.version with
    | .v4 => "in-addr".toList
    | .v6 => "ip6".toList

/-- The value that `p` has, or gets, in a context. -/
def pValue (mctx : MacroCtx) (ctx : EvalCtx) : Text :=
  match (pMacro mctx ctx).1 with
  | .ok value => value
  | .error _ => unknown

theorem resolvePMacro_ok (mctx : MacroCtx) (ctx : EvalCtx) :
    ∃ value ctx', resolvePMacro mctx ctx = (.ok value, ctx') := by
  unfold resolvePMacro Trial.recover
  split
  · exact ⟨_, _, rfl⟩
  · exact ⟨_, _, rfl⟩

theorem pMacro_run (mctx : MacroCtx) (ctx : EvalCtx) :
    ∃ ctx', pMacro mctx ctx = (.ok (pValue mctx ctx), ctx') ∧
      ctx'.pMacroValue = some (pValue mctx ctx) := by
  have hrun : ∃ value ctx', pMacro mctx ctx = (.ok value, ctx') ∧
      ctx'.pMacroValue = some value := by
    rw [pMacro, Trial.bind_run, Trial.state_run, Trial.andThen_ok]
    rcases hcached : ctx.pMacroValue with - | value
    · obtain ⟨value, ctx', hvalue⟩ := resolvePMacro_ok mctx ctx
      refine ⟨value, { ctx' with pMacroValue := some value }, ?_, rfl⟩
      simp only [Trial.bind_run, hvalue, Trial.andThen_ok, Trial.change_run, Trial.pure_run]
    · exact ⟨value, ctx, rfl, hcached⟩
  obtain ⟨value, ctx', hvalue, hcached⟩ := hrun
  have hp : pValue mctx ctx = value := by
    unfold pValue
    rw [hvalue]
  rw [hp]
  exact ⟨ctx', hvalue, hcached⟩

theorem pValue_cached {mctx : MacroCtx} {ctx : EvalCtx} {value : Text}
    (h : ctx.pMacroValue = some value) : pValue mctx ctx = value := by
  unfold pValue
  rw [pMacro, Trial.bind_run, Trial.state_run, Trial.andThen_ok, h]
  rfl

/-- The code's value of a letter; whatever it looks up, `p` keeps its value. -/
theorem macroValue_run (letter : MacroLetter) (mctx : MacroCtx) (forExp : Bool) (ctx : EvalCtx) :
    ∃ ctx', macroValue letter.char mctx forExp ctx =
        (.ok (if letter.expOnly && !forExp then none
          else some (sectionValue mctx (pValue mctx ctx) letter)), ctx') ∧
      pValue mctx ctx' = pValue mctx ctx := by
  cases letter with
  | p =>
    obtain ⟨ctx', hrun, hcached⟩ := pMacro_run mctx ctx
    refine ⟨ctx', ?_, pValue_cached hcached⟩
    simp only [MacroLetter.char, macroValue, Trial.bind_run, hrun, Trial.andThen_ok]
    rfl
  | i =>
    refine ⟨ctx, ?_, rfl⟩
    simp only [MacroLetter.char, macroValue, sectionValue, MacroLetter.expOnly]
    cases mctx.clientIp.version <;> rfl
  | v =>
    refine ⟨ctx, ?_, rfl⟩
    simp only [MacroLetter.char, macroValue, sectionValue, MacroLetter.expOnly]
    cases mctx.clientIp.version <;> rfl
  | c => cases forExp <;> exact ⟨ctx, rfl, rfl⟩
  | r => cases forExp <;> exact ⟨ctx, rfl, rfl⟩
  | t => cases forExp <;> exact ⟨ctx, rfl, rfl⟩
  | s => exact ⟨ctx, rfl, rfl⟩
  | l => exact ⟨ctx, rfl, rfl⟩
  | o => exact ⟨ctx, rfl, rfl⟩
  | d => exact ⟨ctx, rfl, rfl⟩
  | h => exact ⟨ctx, rfl, rfl⟩

theorem isMacroLetter_eq (c : Char) : isMacroLetter c = (MacroLetter.ofChar c).isSome := by
  have hletters : "slodiphcrtv".toList = MacroLetter.all.map MacroLetter.char := by decide
  unfold isMacroLetter MacroLetter.ofChar
  rw [Bool.eq_iff_iff, decide_eq_true_eq, List.find?_isSome, hletters, List.mem_map]
  simp only [decide_eq_true_eq]

theorem asciiLower_spelling (m : MacroExpand) : asciiLower m.letterSpelling = m.letter.char := by
  have hall : ∀ (letter : MacroLetter) (capital : Bool),
      asciiLower (if capital then asciiUpper letter.char else letter.char) = letter.char := by
    intro letter capital
    cases letter <;> cases capital <;> decide
  exact hall m.letter m.capital

def MacroExpand.parts (m : MacroExpand) : MacroParts :=
  ⟨m.letterSpelling, m.digits, m.reverser = .small, m.delimiters⟩

/-- The code reads what the grammar reads, but for a capital `R`. -/
theorem parseMacro_eq (inner : Text) :
    parseMacro inner =
      (readMacro inner).bind fun m => if m.reverser = .capital then none else some m.parts := by
  cases inner with
  | nil => rfl
  | cons c rest =>
    unfold parseMacro readMacro
    dsimp only
    rw [isMacroLetter_eq]
    rcases hletter : MacroLetter.ofChar c with - | letter
    · simp
    · have hc : (if c ≠ asciiLower c then asciiUpper letter.char else letter.char) = c :=
        spelling_ofChar hletter
      simp only [Option.isSome_some, Bool.true_and, Option.bind_some]
      unfold readReverser
      rcases rest.dropWhile isDigit with - | ⟨x, tail⟩
      · simp [MacroExpand.parts, MacroExpand.letterSpelling, hc]
      · by_cases hr : x = 'r'
        · subst hr
          by_cases hdelims : tail.all isDelimiter = true
          · have hdelims' : tail.all isMacroDelimiter = true := hdelims
            simp [hdelims, hdelims', MacroExpand.parts, MacroExpand.letterSpelling, hc]
          · have hdelims' : ¬ tail.all isMacroDelimiter = true := hdelims
            simp [hdelims, hdelims']
        · by_cases hR : x = 'R'
          · subst hR
            have hcapital : isDelimiter 'R' = false := by decide
            by_cases hdelims : tail.all isMacroDelimiter = true
            · simp [hcapital, hdelims]
            · simp [hcapital, hdelims]
          · by_cases hdelims : (x :: tail).all isDelimiter = true
            · have hdelims' : (x :: tail).all isMacroDelimiter = true := hdelims
              simp [hr, hR, hdelims, hdelims', MacroExpand.parts, MacroExpand.letterSpelling, hc]
            · have hdelims' : ¬ (x :: tail).all isMacroDelimiter = true := hdelims
              simp [hr, hR, hdelims, hdelims']

theorem transform_parts {m : MacroExpand} (h : m.reverser ≠ .capital)
    (values : MacroLetter → Text) : m.parts.transform (values m.letter) = m.value values := by
  have hreversed : (if m.parts.reversed = true then
        (splitByDelims (values m.letter) (if m.delimiters = [] then ['.'] else m.delimiters)).reverse
      else splitByDelims (values m.letter) (if m.delimiters = [] then ['.'] else m.delimiters)) =
      if m.reverser = .absent then
        splitByDelims (values m.letter) (if m.delimiters = [] then ['.'] else m.delimiters)
      else
        (splitByDelims (values m.letter) (if m.delimiters = [] then ['.'] else m.delimiters)).reverse := by
    unfold MacroExpand.parts
    rcases hr : m.reverser with - | - | -
    · rfl
    · rfl
    · exact absurd hr h
  have hcut : ∀ (n : Nat) (parts : List Text),
      (if 0 < n ∧ n < parts.length then parts.drop (parts.length - n) else parts) =
        rightmost n parts := by
    intro n parts
    unfold rightmost
    by_cases hn : n = 0
    · rw [if_pos hn, if_neg (by omega)]
    · rw [if_neg hn]
      by_cases hlt : n < parts.length
      · rw [if_pos ⟨by omega, hlt⟩]
      · rw [if_neg (by omega), show parts.length - n = 0 by omega, List.drop_zero]
  unfold MacroParts.transform MacroExpand.value
  dsimp only
  rw [hcut]
  exact congrArg (fun parts => join ['.'] (rightmost (digitsValue 10 m.digits) parts)) hreversed

/-- The code takes no capital `R`, and the letters of explanations nowhere else. -/
def MacroPiece.refusedByCode (forExp : Bool) : MacroPiece → Bool
  | .expand m => m.reverser = .capital || (m.letter.expOnly && !forExp)
  | _ => false

/-- The grammar takes no other literals than visible ones, and no zero for a number. -/
def MacroPiece.refusedByGrammar (forExp : Bool) : MacroPiece → Bool
  | .literal c => !isMacroLiteral forExp c
  | .expand m =>
    (m.digits ≠ [] && digitsValue 10 m.digits = 0) || (m.letter.expOnly && !forExp)
  | _ => false

theorem wellFormed_iff (h : p.Shaped) :
    p.WellFormed forExp ↔ p.refusedByGrammar forExp = false := by
  cases p with
  | literal c => simp [MacroPiece.WellFormed, MacroPiece.refusedByGrammar]
  | expand m =>
    have hshaped : m.Shaped := h
    simp [MacroPiece.WellFormed, MacroExpand.WellFormed, MacroPiece.refusedByGrammar, hshaped,
      Nat.pos_iff_ne_zero]
  | _ => simp [MacroPiece.WellFormed, MacroPiece.refusedByGrammar]

/-- What the code puts in the place of a piece: no escapes for a capital letter. -/
def MacroPiece.plain (values : MacroLetter → Text) : MacroPiece → Text
  | .expand m => m.value values
  | p => p.expansion values

theorem expandMacro_run (mctx : MacroCtx) (forExp : Bool) (inner : Text) (ctx : EvalCtx) :
    ∃ ctx', expandMacro mctx forExp inner ctx =
        (.ok ((readMacro inner).bind fun m =>
          if (MacroPiece.expand m).refusedByCode forExp then none
          else some (m.value (sectionValue mctx (pValue mctx ctx)))), ctx') ∧
      pValue mctx ctx' = pValue mctx ctx := by
  unfold expandMacro
  rw [parseMacro_eq]
  rcases readMacro inner with - | m
  · exact ⟨ctx, rfl, rfl⟩
  · simp only [Option.bind_some]
    by_cases hcapital : m.reverser = .capital
    · rw [if_pos hcapital]
      refine ⟨ctx, ?_, rfl⟩
      simp [MacroPiece.refusedByCode, hcapital]
    · rw [if_neg hcapital]
      have hletter : asciiLower m.parts.letter = m.letter.char := asciiLower_spelling m
      obtain ⟨ctx', hrun, hp⟩ := macroValue_run m.letter mctx forExp ctx
      refine ⟨ctx', ?_, hp⟩
      simp only [hletter, Trial.bind_run, hrun, Trial.andThen_ok]
      by_cases hexp : (m.letter.expOnly && !forExp) = true
      · simp [MacroPiece.refusedByCode, hexp]
      · simp [MacroPiece.refusedByCode, hexp, hcapital, transform_parts hcapital]

def MacroScan.reader : MacroScan → MacroReader
  | .plain => .plain
  | .percent => .percent
  | .braces inner => .braces inner

/-- The text of pieces as the code expands them behind `out`. -/
def codeExpansion (forExp : Bool) (values : MacroLetter → Text) (out : Text)
    (pieces : List MacroPiece) : Option Text :=
  if pieces.any (MacroPiece.refusedByCode forExp) then none
  else some (out ++ pieces.flatMap (MacroPiece.plain values))

theorem codeExpansion_cons (h : p.refusedByCode forExp = false) (out : Text)
    (pieces : List MacroPiece) :
    codeExpansion forExp values out (p :: pieces) =
      codeExpansion forExp values (out ++ p.plain values) pieces := by
  unfold codeExpansion
  rw [List.any_cons, h, Bool.false_or, List.flatMap_cons, List.append_assoc]

theorem bind_codeExpansion_cons (h : p.refusedByCode forExp = false) (out : Text)
    (read : Option (List MacroPiece)) :
    (read.map (p :: ·)).bind (codeExpansion forExp values out) =
      read.bind (codeExpansion forExp values (out ++ p.plain values)) := by
  cases read with
  | none => rfl
  | some pieces => exact codeExpansion_cons h out pieces

theorem expandFrom_run (mctx : MacroCtx) (forExp : Bool) (scan : MacroScan) (out rest : Text)
    (ctx : EvalCtx) :
    ∃ ctx', expandFrom mctx forExp scan out rest ctx =
      (.ok ((readFrom scan.reader rest).bind
        (codeExpansion forExp (sectionValue mctx (pValue mctx ctx)) out)), ctx') := by
  fun_induction expandFrom mctx forExp scan out rest generalizing ctx with
  | case1 out => exact ⟨ctx, by simp [MacroScan.reader, readFrom, codeExpansion]⟩
  | case2 out rest ih => exact ih ctx
  | case3 out c rest hc ih =>
    obtain ⟨ctx', hrun⟩ := ih ctx
    refine ⟨ctx', hrun.trans ?_⟩
    rw [MacroScan.reader, readFrom, if_neg hc, bind_codeExpansion_cons rfl]
    rfl
  | case4 => exact ⟨ctx, rfl⟩
  | case5 out rest ih =>
    obtain ⟨ctx', hrun⟩ := ih ctx
    refine ⟨ctx', hrun.trans ?_⟩
    rw [MacroScan.reader, MacroScan.reader, readFrom, if_pos rfl, bind_codeExpansion_cons rfl]
    rfl
  | case6 out rest _ ih =>
    obtain ⟨ctx', hrun⟩ := ih ctx
    refine ⟨ctx', hrun.trans ?_⟩
    rw [MacroScan.reader, MacroScan.reader, readFrom, if_neg (by decide), if_pos rfl,
      bind_codeExpansion_cons rfl]
    rfl
  | case7 out rest _ _ ih =>
    obtain ⟨ctx', hrun⟩ := ih ctx
    refine ⟨ctx', hrun.trans ?_⟩
    rw [MacroScan.reader, MacroScan.reader, readFrom, if_neg (by decide), if_neg (by decide),
      if_pos rfl, bind_codeExpansion_cons rfl]
    rfl
  | case8 out rest _ _ _ ih => exact ih ctx
  | case9 out c rest hpercent hspace hurl hbrace =>
    refine ⟨ctx, ?_⟩
    rw [MacroScan.reader, readFrom, if_neg hpercent, if_neg hspace, if_neg hurl, if_neg hbrace]
    rfl
  | case10 => exact ⟨ctx, rfl⟩
  | case11 inner out rest ih =>
    obtain ⟨ctx₁, hmacro, hp⟩ := expandMacro_run mctx forExp inner ctx
    rw [MacroScan.reader, readFrom, if_pos rfl]
    simp only [Trial.bind_run, hmacro, Trial.andThen_ok]
    rcases readMacro inner with - | m
    · exact ⟨ctx₁, rfl⟩
    · simp only [Option.bind_some]
      by_cases hrefused : (MacroPiece.expand m).refusedByCode forExp = true
      · refine ⟨ctx₁, ?_⟩
        rw [if_pos hrefused]
        cases readFrom .plain rest with
        | none => rfl
        | some pieces =>
          have hany : codeExpansion forExp (sectionValue mctx (pValue mctx ctx)) out
              (.expand m :: pieces) = none := if_pos (by rw [List.any_cons, hrefused, Bool.true_or])
          simp only [Option.map_some, Option.bind_some, hany]
          rfl
      · rw [if_neg hrefused]
        obtain ⟨ctx', hrun⟩ := ih (m.value (sectionValue mctx (pValue mctx ctx))) ctx₁
        refine ⟨ctx', hrun.trans ?_⟩
        rw [hp, bind_codeExpansion_cons (by simpa using hrefused)]
        rfl
  | case12 inner out c rest hc ih =>
    obtain ⟨ctx', hrun⟩ := ih ctx
    refine ⟨ctx', hrun.trans ?_⟩
    rw [MacroScan.reader, MacroScan.reader, readFrom, if_neg hc]

theorem expandMacros_run (t : Text) (mctx : MacroCtx) (forExp : Bool) (ctx : EvalCtx) :
    ∃ ctx', expandMacros t mctx forExp ctx =
      (.ok ((readPieces t).bind
        (codeExpansion forExp (sectionValue mctx (pValue mctx ctx)) [])), ctx') :=
  expandFrom_run mctx forExp .plain [] t ctx

theorem urlEscape_cons (c : Char) (s : Text) :
    urlEscape (c :: s) =
      (if isUnreserved c then [c] else (utf8Encode [c]).flatMap percentByte) ++ urlEscape s :=
  List.flatMap_cons

theorem urlEscape_of_all {s : Text} (h : s.all isUnreserved = true) : urlEscape s = s := by
  induction s with
  | nil => rfl
  | cons c s ih =>
    rw [List.all_cons, Bool.and_eq_true] at h
    rw [urlEscape_cons, if_pos h.1, ih h.2]
    rfl

theorem percentBytes_length (bytes : Bytes) :
    (bytes.flatMap percentByte).length = 3 * bytes.length := by
  induction bytes with
  | nil => rfl
  | cons b bytes ih =>
    rw [List.flatMap_cons, List.length_append, ih, List.length_cons]
    have hbyte : (percentByte b).length = 3 := rfl
    omega

theorem urlEscape_length (s : Text) :
    s.length ≤ (urlEscape s).length ∧
      ((urlEscape s).length = s.length → s.all isUnreserved = true) := by
  induction s with
  | nil => exact ⟨le_refl _, fun _ => rfl⟩
  | cons c s ih =>
    obtain ⟨hle, heq⟩ := ih
    rw [urlEscape_cons, List.length_append, List.length_cons, List.all_cons]
    by_cases hc : isUnreserved c = true
    · rw [if_pos hc, hc, Bool.true_and, List.length_singleton]
      exact ⟨by omega, fun h => heq (by omega)⟩
    · have hpos : 0 < (utf8Encode [c]).length := by
        have hbytes : utf8Encode [c] = String.utf8EncodeChar c := List.append_nil _
        rw [hbytes]
        exact List.length_pos_of_ne_nil String.utf8EncodeChar_ne_nil
      rw [if_neg hc, percentBytes_length]
      exact ⟨by omega, fun h => by omega⟩

def MacroPiece.unescaped (values : MacroLetter → Text) : MacroPiece → Bool
  | .expand m => !m.capital || (m.value values).all isUnreserved
  | _ => true

theorem plain_of_unescaped (h : p.unescaped values = true) : p.plain values = p.expansion values := by
  cases p with
  | expand m =>
    simp only [MacroPiece.unescaped, Bool.or_eq_true, Bool.not_eq_true'] at h
    simp only [MacroPiece.plain, MacroPiece.expansion, MacroExpand.expansion]
    rcases h with hsmall | hall
    · rw [hsmall, if_neg (by decide)]
    · split
      · exact (urlEscape_of_all hall).symm
      · rfl
  | _ => rfl

theorem plain_length (values : MacroLetter → Text) (p : MacroPiece) :
    (p.plain values).length ≤ (p.expansion values).length ∧
      (p.plain values = p.expansion values → p.unescaped values = true) := by
  cases p with
  | expand m =>
    obtain ⟨hle, heq⟩ := urlEscape_length (m.value values)
    simp only [MacroPiece.plain, MacroPiece.expansion, MacroExpand.expansion,
      MacroPiece.unescaped, Bool.or_eq_true, Bool.not_eq_true']
    cases m.capital with
    | false => exact ⟨le_refl _, fun _ => .inl rfl⟩
    | true =>
      rw [if_pos rfl]
      exact ⟨hle, fun h => .inr (heq (congrArg List.length h.symm))⟩
  | _ => exact ⟨le_refl _, fun _ => rfl⟩

/-- Where no part is longer than its counterpart, the whole is equal only part by part. -/
theorem flatMap_eq_iff {α β : Type} {f g : α → List β}
    (h : ∀ a, (f a).length ≤ (g a).length) (xs : List α) :
    xs.flatMap f = xs.flatMap g ↔ ∀ a ∈ xs, f a = g a := by
  have hle : ∀ xs : List α, (xs.flatMap f).length ≤ (xs.flatMap g).length := by
    intro xs
    induction xs with
    | nil => exact le_refl _
    | cons a xs ih =>
      rw [List.flatMap_cons, List.flatMap_cons, List.length_append, List.length_append]
      exact Nat.add_le_add (h a) ih
  induction xs with
  | nil => simp
  | cons a xs ih =>
    rw [List.flatMap_cons, List.flatMap_cons, List.forall_mem_cons]
    constructor
    · intro heq
      have hlength := congrArg List.length heq
      rw [List.length_append, List.length_append] at hlength
      have ha := h a
      have hxs := hle xs
      obtain ⟨hhead, htail⟩ := List.append_inj heq (by omega)
      exact ⟨hhead, ih.mp htail⟩
    · rintro ⟨hhead, htail⟩
      rw [hhead, ih.mpr htail]

theorem unreserved_of_domainChar {c : Char} (h : isDomainChar c = true) : isUnreserved c = true := by
  simp only [isDomainChar, Bool.or_eq_true, decide_eq_true_eq] at h
  unfold isUnreserved
  rcases h with (((hupper | hlower) | hdigit) | rfl) | rfl
  · simp [hupper]
  · simp [hlower]
  · simp [hdigit]
  · decide
  · decide

theorem unreserved_of_validDomain {d : Text} (h : isValidDomain d = true) :
    d.length ≤ 253 ∧ d.all isUnreserved = true := by
  simp only [isValidDomain, Bool.and_eq_true, decide_eq_true_eq, List.all_eq_true] at h
  obtain ⟨⟨-, hlength⟩, hlabels⟩ := h
  refine ⟨hlength, List.all_eq_true.mpr fun c hc => ?_⟩
  have hjoin : join ['.'] (d.splitOn '.') = d := List.intercalate_splitOn '.'
  rw [← hjoin] at hc
  rcases mem_join hc with rfl | ⟨label, hlabel, hmem⟩
  · decide
  · exact unreserved_of_domainChar ((hlabels label hlabel).2 c hmem)

theorem unreserved_of_dropFinalDot {t : Text} (h : (dropFinalDot t).all isUnreserved = true) :
    t.all isUnreserved = true := by
  unfold dropFinalDot at h
  split at h
  case isTrue hlast =>
    have hne : t ≠ [] := by
      rintro rfl
      cases hlast
    have hdot : t.getLast hne = '.' :=
      Option.some.inj ((List.getLast?_eq_getLast_of_ne_nil hne).symm.trans hlast)
    rw [← List.dropLast_append_getLast hne, List.all_append, h, hdot]
    decide
  case isFalse => exact h

theorem unescaped_of_validDomain
    (h : isValidDomain (dropFinalDot (pieces.flatMap (MacroPiece.plain values))) = true) :
    ∀ p ∈ pieces, p.unescaped values = true := by
  have hall := unreserved_of_dropFinalDot (unreserved_of_validDomain h).2
  intro p hp
  cases p with
  | expand m =>
    have hvalue : (m.value values).all isUnreserved = true := by
      refine List.all_eq_true.mpr fun c hc => ?_
      exact List.all_eq_true.mp hall c (List.mem_flatMap.mpr ⟨.expand m, hp, hc⟩)
    simp [MacroPiece.unescaped, hvalue]
  | _ => rfl

section

variable (mctx : MacroCtx) (ctx : EvalCtx) (t : Text)

/-- The text of an explanation is what section 7 makes of it, and there is none exactly where the
grammar is violated. -/
def ExplanationMeets : Prop :=
  (∀ pieces, IsMacroString true t pieces →
    (expandMacros t mctx true ctx).1 =
      .ok (some (macroExpansion (sectionValue mctx (pValue mctx ctx)) pieces))) ∧
  ((∀ pieces, ¬ IsMacroString true t pieces) → (expandMacros t mctx true ctx).1 = .ok none)

/-- A domain is what section 7 makes of it, cut to the length of a name, and the error is
permanent exactly where the grammar is violated. -/
def DomainMeets : Prop :=
  (∀ pieces, IsMacroString false t pieces →
    (expandDomainSpec t mctx ctx).1 =
      .ok (fitDomain (dropFinalDot
        (macroExpansion (sectionValue mctx (pValue mctx ctx)) pieces)))) ∧
  ((∀ pieces, ¬ IsMacroString false t pieces) →
    ∃ message, (expandDomainSpec t mctx ctx).1 = .error (.evalError .permerror message))

/-- Both refuse a piece, or neither does and no capital letter has anything to escape. -/
def ExplanationAgrees (values : MacroLetter → Text) (pieces : List MacroPiece) : Prop :=
  if pieces.any (MacroPiece.refusedByGrammar true) then
    pieces.any (MacroPiece.refusedByCode true) = true
  else
    pieces.any (MacroPiece.refusedByCode true) = false ∧
      pieces.all (MacroPiece.unescaped values) = true

/-- Both refuse, or neither refuses a piece and the text is a host name that fits. -/
def DomainAgrees (values : MacroLetter → Text) (pieces : List MacroPiece) : Prop :=
  let accepted := !pieces.any (MacroPiece.refusedByCode false) &&
    isValidDomain (dropFinalDot (pieces.flatMap (MacroPiece.plain values)))
  pieces.any (MacroPiece.refusedByGrammar false) = !accepted

variable {mctx ctx t}

theorem isMacroString_of_read (forExp : Bool)
    (h : readPieces t = some pieces) (other : List MacroPiece) :
    IsMacroString forExp t other ↔
      other = pieces ∧ pieces.any (MacroPiece.refusedByGrammar forExp) = false := by
  have hshaped := (readFrom_sound .plain t h).2
  have hwell : (∀ p ∈ pieces, p.WellFormed forExp) ↔
      pieces.any (MacroPiece.refusedByGrammar forExp) = false := by
    rw [List.any_eq_false]
    exact forall₂_congr fun p hp => by rw [wellFormed_iff (hshaped p hp), Bool.not_eq_true]
  rw [isMacroString_iff, h, ← hwell]
  constructor
  · rintro ⟨hother, hall⟩
    cases hother
    exact ⟨rfl, hall⟩
  · rintro ⟨rfl, hall⟩
    exact ⟨rfl, hall⟩

theorem not_isMacroString (forExp : Bool) (h : readPieces t = none) (pieces : List MacroPiece) :
    ¬ IsMacroString forExp t pieces := by
  rw [isMacroString_iff, h]
  exact fun hread => by cases hread.1

theorem expandMacros_result (forExp : Bool) :
    (expandMacros t mctx forExp ctx).1 =
      .ok ((readPieces t).bind
        (codeExpansion forExp (sectionValue mctx (pValue mctx ctx)) [])) := by
  obtain ⟨ctx', hrun⟩ := expandMacros_run t mctx forExp ctx
  rw [hrun]

theorem codeExpansion_refused (h : pieces.any (MacroPiece.refusedByCode forExp) = true)
    (values : MacroLetter → Text) :
    codeExpansion forExp values [] pieces = none := if_pos h

theorem codeExpansion_accepted (h : pieces.any (MacroPiece.refusedByCode forExp) = false)
    (values : MacroLetter → Text) :
    codeExpansion forExp values [] pieces = some (pieces.flatMap (MacroPiece.plain values)) :=
  if_neg (by rw [h]; exact Bool.false_ne_true)

theorem plain_eq_expansion_iff (values : MacroLetter → Text) (pieces : List MacroPiece) :
    pieces.flatMap (MacroPiece.plain values) = macroExpansion values pieces ↔
      pieces.all (MacroPiece.unescaped values) = true := by
  unfold macroExpansion
  rw [flatMap_eq_iff (fun p => (plain_length values p).1), List.all_eq_true]
  exact forall₂_congr fun p _ => ⟨(plain_length values p).2, plain_of_unescaped⟩

/-- A macro string has one reading, so what is asked of all its readings is asked of that one. -/
theorem readings_iff (forExp : Bool) {P A : List MacroPiece → Prop} {Q : Prop}
    (hnone : readPieces t = none → Q)
    (hsome : ∀ pieces, readPieces t = some pieces →
      ((if pieces.any (MacroPiece.refusedByGrammar forExp) then Q else P pieces) ↔ A pieces)) :
    ((∀ pieces, IsMacroString forExp t pieces → P pieces) ∧
        ((∀ pieces, ¬ IsMacroString forExp t pieces) → Q)) ↔
      ∀ pieces, readPieces t = some pieces → A pieces := by
  rcases hread : readPieces t with - | pieces
  · have hnot := not_isMacroString forExp hread
    constructor
    · intro _ pieces h
      cases h
    · exact fun _ => ⟨fun pieces h => absurd h (hnot pieces), fun _ => hnone hread⟩
  have hspelled := isMacroString_of_read forExp hread
  have hone : (∀ ps, some pieces = some ps → A ps) ↔ A pieces := by simp
  rw [hone, ← hsome pieces hread]
  split
  next hgrammar =>
    have hnot : ∀ ps, ¬ IsMacroString forExp t ps := fun ps hps => by
      have hfalse := ((hspelled ps).mp hps).2
      rw [hgrammar] at hfalse
      cases hfalse
    exact ⟨fun h => h.2 hnot, fun hq => ⟨fun ps hps => absurd hps (hnot ps), fun _ => hq⟩⟩
  next hgrammar =>
    have hpieces : IsMacroString forExp t pieces :=
      (hspelled pieces).mpr ⟨rfl, by simpa using hgrammar⟩
    refine ⟨fun h => h.1 pieces hpieces, fun hp => ⟨fun ps hps => ?_, fun h => absurd hpieces (h pieces)⟩⟩
    obtain ⟨rfl, -⟩ := (hspelled ps).mp hps
    exact hp

theorem explanationMeets_iff :
    ExplanationMeets mctx ctx t ↔ ∀ pieces, readPieces t = some pieces →
      ExplanationAgrees (sectionValue mctx (pValue mctx ctx)) pieces := by
  refine readings_iff true (fun hread => by rw [expandMacros_result, hread]; rfl) fun pieces hread => ?_
  rw [expandMacros_result, hread, Option.bind_some, ExplanationAgrees]
  by_cases hcode : pieces.any (MacroPiece.refusedByCode true) = true
  · rw [codeExpansion_refused hcode, hcode]
    split
    · exact iff_of_true rfl rfl
    · exact iff_of_false (fun h => by cases h) fun h => by cases h.1
  · rw [Bool.not_eq_true] at hcode
    rw [codeExpansion_accepted hcode, hcode]
    split
    · exact iff_of_false (fun h => by cases h) fun h => by cases h
    · rw [← plain_eq_expansion_iff]
      simp

theorem expandDomainSpec_result :
    (expandDomainSpec t mctx ctx).1 =
      match (readPieces t).bind
        (codeExpansion false (sectionValue mctx (pValue mctx ctx)) []) with
      | none => .error (.evalError .permerror ("매크로 확장 실패: ".toList ++ t))
      | some expanded =>
        if isValidDomain (dropFinalDot expanded) then .ok (dropFinalDot expanded)
        else .error (.evalError .permerror
          ("잘못된 도메인(매크로 확장 후): ".toList ++ dropFinalDot expanded)) := by
  obtain ⟨ctx', hrun⟩ := expandMacros_run t mctx false ctx
  rw [expandDomainSpec, Trial.bind_run, hrun, Trial.andThen_ok]
  rcases (readPieces t).bind
    (codeExpansion false (sectionValue mctx (pValue mctx ctx)) []) with - | expanded
  · rfl
  · dsimp only
    by_cases hvalid : isValidDomain (dropFinalDot expanded) = true
    · rw [if_pos hvalid, if_pos hvalid]
      rfl
    · rw [if_neg hvalid, if_neg hvalid]
      rfl

theorem expandDomainSpec_accepted (hread : readPieces t = some pieces)
    (hcode : pieces.any (MacroPiece.refusedByCode false) = false)
    (hvalid : isValidDomain (dropFinalDot (pieces.flatMap
      (MacroPiece.plain (sectionValue mctx (pValue mctx ctx))))) = true) :
    (expandDomainSpec t mctx ctx).1 = .ok (dropFinalDot (pieces.flatMap
      (MacroPiece.plain (sectionValue mctx (pValue mctx ctx))))) := by
  rw [expandDomainSpec_result, hread, Option.bind_some, codeExpansion_accepted hcode]
  exact if_pos hvalid

theorem expandDomainSpec_refused (hread : readPieces t = some pieces)
    (h : (!pieces.any (MacroPiece.refusedByCode false) && isValidDomain (dropFinalDot
      (pieces.flatMap (MacroPiece.plain (sectionValue mctx (pValue mctx ctx)))))) = false) :
    ∃ message, (expandDomainSpec t mctx ctx).1 = .error (.evalError .permerror message) := by
  rw [expandDomainSpec_result, hread, Option.bind_some]
  by_cases hcode : pieces.any (MacroPiece.refusedByCode false) = true
  · rw [codeExpansion_refused hcode]
    exact ⟨_, rfl⟩
  · have haccepted : pieces.any (MacroPiece.refusedByCode false) = false := by simpa using hcode
    rw [haccepted, Bool.not_false, Bool.true_and] at h
    rw [codeExpansion_accepted haccepted]
    exact ⟨_, if_neg (by rw [h]; exact Bool.false_ne_true)⟩

theorem domainMeets_iff :
    DomainMeets mctx ctx t ↔ ∀ pieces, readPieces t = some pieces →
      DomainAgrees (sectionValue mctx (pValue mctx ctx)) pieces := by
  refine readings_iff false (fun hread => ?_) fun pieces hread => ?_
  · rw [expandDomainSpec_result, hread]
    exact ⟨_, rfl⟩
  unfold DomainAgrees
  dsimp only
  rcases haccepted : (!pieces.any (MacroPiece.refusedByCode false) && isValidDomain (dropFinalDot
      (pieces.flatMap (MacroPiece.plain (sectionValue mctx (pValue mctx ctx)))))) with - | -
  · obtain ⟨message, herror⟩ := expandDomainSpec_refused hread haccepted
    rw [herror, Bool.not_false]
    split
    next hgrammar => exact iff_of_true ⟨message, rfl⟩ hgrammar
    next hgrammar => exact iff_of_false (fun h => by cases h) hgrammar
  · rw [Bool.and_eq_true, Bool.not_eq_true'] at haccepted
    obtain ⟨hcode, hvalid⟩ := haccepted
    rw [expandDomainSpec_accepted hread hcode hvalid, Bool.not_true]
    split
    next hgrammar => exact iff_of_false (fun h => by cases h.choose_spec) (by simp [hgrammar])
    next hgrammar =>
      have hplain := (plain_eq_expansion_iff _ pieces).mpr
        (List.all_eq_true.mpr (unescaped_of_validDomain hvalid))
      rw [hplain] at hvalid ⊢
      rw [fitDomain_of_le (unreserved_of_validDomain hvalid).1]
      exact iff_of_true rfl (by simpa using hgrammar)

end

/-- Where the expansion of macros is that of section 7: an explanation wherever both sides refuse,
or both accept and no capital letter has anything to escape; a domain wherever both sides refuse,
or the grammar is kept and what it gives is a host name that needs no cutting. -/
theorem macro_expansion (mctx : MacroCtx) (ctx : EvalCtx) (t : Text) :
    (ExplanationMeets mctx ctx t ↔ ∀ pieces, readPieces t = some pieces →
      ExplanationAgrees (sectionValue mctx (pValue mctx ctx)) pieces) ∧
    (DomainMeets mctx ctx t ↔ ∀ pieces, readPieces t = some pieces →
      DomainAgrees (sectionValue mctx (pValue mctx ctx)) pieces) :=
  ⟨explanationMeets_iff, domainMeets_iff⟩

/-! A capital letter whose value has something to escape. -/

def plusCtx : MacroCtx where
  senderFull := "a+b@a.example".toList
  senderLocal := "a+b".toList
  senderDomain := "a.example".toList
  helo := "a.example".toList
  clientIp := ⟨.v4, [192, 0, 2, 1], rfl⟩
  currentDomain := "a.example".toList
  resolver := ⟨fun _ => .notFound, fun _ => .notFound, fun _ => .notFound, fun _ => .notFound,
    fun _ => .notFound⟩
  now := 0

theorem macro_expansion_fails :
    ¬ ∀ mctx ctx t, ExplanationMeets mctx ctx t ∧ DomainMeets mctx ctx t := by
  intro hall
  have hspelled : IsMacroString true "%\x7bL\x7d".toList [.expand ⟨.l, true, [], .absent, []⟩] := by
    rw [isMacroString_iff]
    refine ⟨by decide, fun p hp => ?_⟩
    rw [List.mem_singleton.mp hp]
    exact ⟨⟨List.forall_mem_nil _, List.forall_mem_nil _⟩, fun h => absurd rfl h,
      fun h => Bool.noConfusion h⟩
  have hmeets := (hall plusCtx {} "%\x7bL\x7d".toList).1.1 _ hspelled
  have hcode : (expandMacros "%\x7bL\x7d".toList plusCtx true {}).1 = .ok (some "a+b".toList) := by
    decide +kernel
  have hgrammar : macroExpansion (sectionValue plusCtx (pValue plusCtx {}))
      [.expand ⟨.l, true, [], .absent, []⟩] = "a%2Bb".toList := by
    decide +kernel
  rw [hcode, hgrammar] at hmeets
  exact absurd hmeets (by decide)

end Ionosphere.MailAuth
