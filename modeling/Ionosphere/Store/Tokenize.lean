import Ionosphere.Js.Decoder
import Ionosphere.Store.Attempt
import Mathlib.Data.List.Dedup

/-! The search tokenizer: NFKC, lower case, then bigrams of CJK runs and words cut to
sixteen units. The index and the query go through the same function. Tokens are UTF-16. -/
namespace Ionosphere.Store.Search
open Ionosphere.Js

def maxTokenLength : Nat := 16
def maxIndexTextChars : Nat := 64 * 1024
def maxQueryChars : Nat := 4096

/-- What the run time knows of Unicode: `normalize("NFKC")`, `toLowerCase()` and the two
property escapes `CJK_CHAR_RE` and `WORD_CHAR_RE`. -/
structure Unicode where
  nfkc : Text → Text
  lower : Text → Text
  isCjk : Char → Bool
  isWord : Char → Bool

inductive CharKind where
  | cjk | word | other
  deriving DecidableEq

abbrev Token : Type := List UInt16

def utf16Char (c : Char) : Token :=
  if c.toNat < 0x10000 then [UInt16.ofNat c.toNat]
  else
    [UInt16.ofNat (0xd800 + (c.toNat - 0x10000) / 0x400),
      UInt16.ofNat (0xdc00 + (c.toNat - 0x10000) % 0x400)]

def utf16 (s : Text) : Token := s.flatMap utf16Char

/-- `s.slice(0, n)`. Half a surrogate pair at the cut is no letter, and is left out. -/
def takeUnits : Nat → Text → Text
  | _, [] => []
  | n, c :: s =>
    let width := (utf16Char c).length
    if width ≤ n then c :: takeUnits (n - width) s else []

def bigrams : Text → List Text
  | a :: b :: s => [a, b] :: bigrams (b :: s)
  | _ => []

def runTokens : CharKind → Text → List Token
  | .cjk, run => if run.length = 1 then [utf16 run] else (bigrams run).map utf16
  | .word, run =>
    let word := (utf16 run).take maxTokenLength
    if 0 < word.length then [word] else []
  | .other, _ => []

section
variable (u : Unicode)

def classify (ch : Char) : CharKind :=
  if u.isCjk ch then .cjk else if u.isWord ch then .word else .other

/-- The runs the loop of `tokenize` cuts the characters into. -/
def runs : Text → List (CharKind × Text)
  | [] => []
  | ch :: chars =>
    let kind := classify u ch
    if kind = .other then runs chars
    else
      (kind, ch :: chars.takeWhile (classify u · = kind)) ::
        runs (chars.dropWhile (classify u · = kind))
termination_by chars => chars.length
decreasing_by
  · exact Nat.lt_succ_self _
  · exact Nat.lt_succ_of_le (List.length_dropWhile_le _ _)

def normalize (text : Text) : Text :=
  let sliced :=
    if maxIndexTextChars < utf16Length text then takeUnits maxIndexTextChars text else text
  u.lower (u.nfkc sliced)

/-- `new Set` keeps the first of equal tokens. -/
def tokenize (text : Text) : List Token :=
  let all := normalize u text
  let chars := if maxIndexTextChars < all.length then all.take maxIndexTextChars else all
  ((runs u chars).flatMap fun run => runTokens run.1 run.2).eraseDups

def tokenizeQuery (query : Text) : Except StoreError (List Token) :=
  if maxQueryChars < utf16Length query then
    .error (.store ("search query too long (max ".toList ++ natText maxQueryChars ++
      " chars)".toList))
  else .ok (tokenize u query)

end

section
variable {u : Unicode} {kind : CharKind} {pre run post text : Text}

/-- A longest stretch of characters of one kind. -/
structure IsRun (u : Unicode) (kind : CharKind) (pre run post : Text) : Prop where
  nonempty : run ≠ []
  all : ∀ c ∈ run, classify u c = kind
  before : ∀ c, pre.getLast? = some c → classify u c ≠ kind
  after : ∀ c, post.head? = some c → classify u c ≠ kind

theorem takeWhile_run (run : Text) {p : Char → Bool} (hrun : ∀ c ∈ run, p c = true)
    (hpost : ∀ c, post.head? = some c → p c = false) :
    (run ++ post).takeWhile p = run ∧ (run ++ post).dropWhile p = post := by
  induction run with
  | nil =>
    cases post with
    | nil => exact ⟨rfl, rfl⟩
    | cons c post =>
      have hc := hpost c rfl
      simp [hc]
  | cons c run ih =>
    have hc := hrun c List.mem_cons_self
    have ih := ih fun d hd => hrun d (List.mem_cons_of_mem c hd)
    simp [hc, ih]

theorem mem_runs (hkind : kind ≠ .other) (h : IsRun u kind pre run post) :
    (kind, run) ∈ runs u (pre ++ run ++ post) := by
  induction hn : pre.length using Nat.strong_induction_on generalizing pre with
  | _ n ih =>
  subst hn
  cases pre with
  | nil =>
    cases run with
    | nil => exact absurd rfl h.nonempty
    | cons c run =>
      have hc : classify u c = kind := h.all c List.mem_cons_self
      have hcut := takeWhile_run run
        (p := fun d => decide (classify u d = kind))
        (fun d hd => decide_eq_true (h.all d (List.mem_cons_of_mem c hd)))
        fun d hd => decide_eq_false (h.after d hd)
      simp only [List.nil_append, List.cons_append]
      rw [runs, hc, if_neg hkind, hcut.1]
      exact List.mem_cons_self
  | cons c pre =>
    have hlast : ∀ s d, s <:+ pre → s.getLast? = some d → classify u d ≠ kind := by
      intro s d hs hd
      obtain ⟨t, rfl⟩ := hs
      have hne : s ≠ [] := by
        rintro rfl
        simp at hd
      exact h.before d (by rw [← List.cons_append, List.getLast?_append_of_ne_nil _ hne, hd])
    have hsuffix : ∀ s, s <:+ pre → IsRun u kind s run post := fun s hs =>
      ⟨h.nonempty, h.all, fun d hd => hlast s d hs hd, h.after⟩
    simp only [List.cons_append]
    rw [runs]
    split_ifs with hother
    · exact ih pre.length (Nat.lt_succ_self _) (hsuffix pre List.suffix_rfl) rfl
    · refine List.mem_cons_of_mem _ ?_
      rw [List.append_assoc, List.dropWhile_append]
      split_ifs with hall
      · -- the characters before the run are all of one kind, which is not the run's
        have hpre : ∀ d ∈ pre, classify u d = classify u c := by
          simpa [List.dropWhile_eq_nil_iff] using hall
        have hne : classify u c ≠ kind := by
          rcases List.eq_nil_or_concat' pre with rfl | ⟨s, d, rfl⟩
          · exact h.before c rfl
          · have hd := hpre d (by simp)
            exact hd ▸ hlast [d] d ⟨s, rfl⟩ rfl
        have hstop : ∀ d, (run ++ post).head? = some d →
            decide (classify u d = classify u c) = false := by
          intro d hd
          cases run with
          | nil => exact absurd rfl h.nonempty
          | cons e run =>
            cases hd
            exact decide_eq_false (h.all d List.mem_cons_self ▸ hne.symm)
        have hcut := (takeWhile_run [] (fun d hd => absurd hd List.not_mem_nil) hstop).2
        rw [List.nil_append] at hcut
        rw [hcut]
        exact ih 0 (Nat.succ_pos _) (hsuffix [] List.nil_suffix) rfl
      · have hs := List.dropWhile_suffix (fun d => decide (classify u d = classify u c)) (l := pre)
        rw [← List.append_assoc]
        exact ih _ (Nat.lt_succ_of_le hs.length_le) (hsuffix _ hs) rfl

theorem runs_of_run (hkind : kind ≠ .other) (hne : run ≠ [])
    (hall : ∀ c ∈ run, classify u c = kind) : runs u run = [(kind, run)] := by
  cases run with
  | nil => exact absurd rfl hne
  | cons c run =>
    have hc : classify u c = kind := hall c List.mem_cons_self
    have hcut := takeWhile_run run
      (p := fun d => decide (classify u d = kind))
      (fun d hd => decide_eq_true (hall d (List.mem_cons_of_mem c hd)))
      (fun d (hd : ([] : Text).head? = some d) => nomatch hd)
    rw [List.append_nil] at hcut
    rw [runs, hc, if_neg hkind, hcut.1, hcut.2, runs]

theorem mem_bigrams {s t : Text} : t ∈ bigrams s ↔ t.length = 2 ∧ t <:+: s := by
  fun_induction bigrams s with
  | case1 a b s ih =>
    have hcons : t <:+: a :: b :: s ↔ t <+: a :: b :: s ∨ t <:+: b :: s := List.infix_cons_iff
    rw [List.mem_cons, ih, hcons]
    constructor
    · rintro (rfl | ⟨hlen, hin⟩)
      · exact ⟨rfl, .inl ⟨s, rfl⟩⟩
      · exact ⟨hlen, .inr hin⟩
    · rintro ⟨hlen, hpre | hin⟩
      · left
        obtain ⟨x, y, rfl⟩ := List.length_eq_two.mp hlen
        simpa using hpre
      · exact .inr ⟨hlen, hin⟩
  | case2 s hs =>
    refine iff_of_false List.not_mem_nil fun ⟨hlen, hin⟩ => ?_
    have hle := hin.length_le
    match s, hs with
    | [], _ => rw [hlen, List.length_nil] at hle; exact absurd hle (by decide)
    | [_], _ => rw [hlen, List.length_singleton] at hle; exact absurd hle (by decide)
    | a :: b :: s, hs => exact hs a b s rfl

theorem runTokens_infix {part : Text} (hin : part <:+: run) (hlen : part.length ≠ 1 ∨ part = run) :
    ∀ token ∈ runTokens .cjk part, token ∈ runTokens .cjk run := by
  rcases hlen with hlen | rfl
  · intro token htoken
    rw [runTokens, if_neg hlen] at htoken
    obtain ⟨pair, hpair, rfl⟩ := List.mem_map.mp htoken
    have hpair := mem_bigrams.mp hpair
    have hle := (hpair.2.trans hin).length_le
    rw [runTokens, if_neg (by omega)]
    exact List.mem_map_of_mem (mem_bigrams.mpr ⟨hpair.1, hpair.2.trans hin⟩)
  · exact fun token htoken => htoken

end

/-- A row of `search_index`. -/
structure Posting (κ : Type) where
  accountId : κ
  token : Token
  field : Nat
  messageId : κ

section
variable {κ : Type} [DecidableEq κ] (u : Unicode)

/-- The rows `indexSearchText` writes for a message; empty fields have none. -/
def indexRows (accountId messageId : κ) (fields : List (Nat × Text)) : List (Posting κ) :=
  fields.flatMap fun f =>
    if f.2 = [] then [] else (tokenize u f.2).map (⟨accountId, ·, f.1, messageId⟩)

/-- `si.token IN (…) GROUP BY si.message_id HAVING COUNT(DISTINCT si.token) = ?`. -/
def having (searchIndex : List (Posting κ)) (accountId : κ) (tokens : List Token)
    (messageId : κ) : Bool :=
  let rows := searchIndex.filter fun si =>
    si.accountId = accountId ∧ si.messageId = messageId ∧ si.token ∈ tokens
  (rows.map (·.token)).dedup.length = tokens.length

variable {u}

theorem nodup_eraseDups (tokens : List Token) : tokens.eraseDups.Nodup := by
  induction hn : tokens.length using Nat.strong_induction_on generalizing tokens with
  | _ n ih =>
  subst hn
  cases tokens with
  | nil => exact List.nodup_nil
  | cons token tokens =>
    rw [List.eraseDups_cons, List.nodup_cons, List.mem_eraseDups]
    refine ⟨by simp, ih _ (Nat.lt_succ_of_le (List.length_filter_le _ _)) _ rfl⟩

theorem having_of_mem {searchIndex : List (Posting κ)} {accountId messageId : κ}
    {tokens : List Token} (hnodup : tokens.Nodup)
    (hrows : ∀ token ∈ tokens, ∃ field, ⟨accountId, token, field, messageId⟩ ∈ searchIndex) :
    having searchIndex accountId tokens messageId = true := by
  refine decide_eq_true (List.Perm.length_eq ?_)
  rw [List.perm_ext_iff_of_nodup (List.nodup_dedup _) hnodup]
  intro token
  simp only [List.mem_dedup, List.mem_map, List.mem_filter, decide_eq_true_eq]
  constructor
  · rintro ⟨si, ⟨-, -, -, hsi⟩, rfl⟩
    exact hsi
  · intro htoken
    obtain ⟨field, hrow⟩ := hrows token htoken
    exact ⟨_, ⟨hrow, rfl, rfl, htoken⟩, rfl⟩

end

section
variable {u : Unicode} {text query : Text}

/-- Neither cut of `tokenize` takes anything away. -/
def WithinLimit (u : Unicode) (text : Text) : Prop :=
  utf16Length text ≤ maxIndexTextChars ∧ (u.lower (u.nfkc text)).length ≤ maxIndexTextChars

/-- The query is a word of the text, or of one of its CJK runs a part of more than one
character or the whole; both as the tokenizer normalizes them. -/
def Occurs (u : Unicode) (query text : Text) : Prop :=
  ∃ pre run post, u.lower (u.nfkc text) = pre ++ run ++ post ∧
    (IsRun u .word pre run post ∧ normalize u query = run ∨
      IsRun u .cjk pre run post ∧ normalize u query <:+: run ∧
        ((normalize u query).length ≠ 1 ∨ normalize u query = run))

theorem tokenize_of_within (h : WithinLimit u text) :
    tokenize u text =
      ((runs u (u.lower (u.nfkc text))).flatMap fun run => runTokens run.1 run.2).eraseDups := by
  simp only [tokenize, normalize, if_neg (Nat.not_lt.mpr h.1), if_neg (Nat.not_lt.mpr h.2)]

theorem tokens_of_occurs (hlimit : WithinLimit u text) (hoccurs : Occurs u query text)
    (hquery : utf16Length query ≤ maxQueryChars) :
    ∀ token ∈ tokenize u query, token ∈ tokenize u text := by
  obtain ⟨pre, run, post, htext, hcase⟩ := hoccurs
  have hfits : utf16Length query ≤ maxIndexTextChars := le_trans hquery (by decide)
  have hnormal : normalize u query = u.lower (u.nfkc query) := by
    rw [normalize, if_neg (Nat.not_lt.mpr hfits)]
  have hpart : normalize u query <:+: run := by
    rcases hcase with ⟨-, heq⟩ | ⟨-, hin, -⟩
    · exact heq ▸ List.infix_rfl
    · exact hin
  have hlen : (normalize u query).length ≤ maxIndexTextChars := by
    refine le_trans (hpart.trans ⟨pre, post, rfl⟩).length_le ?_
    exact htext ▸ hlimit.2
  intro token htoken
  rw [tokenize_of_within ⟨hfits, hnormal ▸ hlen⟩, List.mem_eraseDups, ← hnormal] at htoken
  rw [tokenize_of_within hlimit, List.mem_eraseDups, htext, List.mem_flatMap]
  rcases hcase with ⟨hrun, heq⟩ | ⟨hrun, hin, hone⟩
  · refine ⟨_, mem_runs (by decide) hrun, ?_⟩
    rwa [heq, runs_of_run (by decide) hrun.nonempty hrun.all, List.flatMap_singleton] at htoken
  · refine ⟨_, mem_runs (by decide) hrun, ?_⟩
    by_cases hnil : normalize u query = []
    · rw [hnil, runs] at htoken
      exact absurd htoken List.not_mem_nil
    · rw [@runs_of_run u .cjk _ (by decide) hnil fun c hc => hrun.all c (hin.subset hc),
        List.flatMap_singleton] at htoken
      exact runTokens_infix hin hone token htoken

/-- Index and query cut the text alike: what occurs in a message has every token in the
index, and the index finds the message. -/
theorem search_complete {κ : Type} [DecidableEq κ] (u : Unicode) (text query : Text)
    (tokens : List Token) (hlimit : WithinLimit u text) (hoccurs : Occurs u query text)
    (hquery : tokenizeQuery u query = .ok tokens) :
    (∀ token ∈ tokens, token ∈ tokenize u text) ∧
      ∀ (searchIndex : List (Posting κ)) (accountId messageId : κ) (fields : List (Nat × Text))
        (field : Nat), (field, text) ∈ fields → text ≠ [] →
        (∀ si ∈ indexRows u accountId messageId fields, si ∈ searchIndex) →
        having searchIndex accountId tokens messageId = true := by
  rw [tokenizeQuery] at hquery
  split_ifs at hquery with hlong
  cases hquery
  have hmem := tokens_of_occurs hlimit hoccurs (Nat.not_lt.mp hlong)
  refine ⟨hmem, fun searchIndex accountId messageId fields field hfield htext hrows => ?_⟩
  refine having_of_mem (nodup_eraseDups _) fun token htoken => ⟨field, hrows _ ?_⟩
  refine List.mem_flatMap.mpr ⟨_, hfield, ?_⟩
  rw [if_neg htext]
  exact List.mem_map_of_mem (hmem token htoken)

end

def plainUnicode : Unicode where
  nfkc s := s
  lower s := s.map asciiLower
  isCjk c :=
    (0x3041 ≤ c.toNat && c.toNat ≤ 0x3096) || (0x30a1 ≤ c.toNat && c.toNat ≤ 0x30fa) ||
      (0x4e00 ≤ c.toNat && c.toNat ≤ 0x9fff) || (0xac00 ≤ c.toNat && c.toNat ≤ 0xd7a3)
  isWord c := isAscii c && (isDigit c || (97 ≤ (asciiLower c).toNat && (asciiLower c).toNat ≤ 122))

theorem search_complete_bigram :
    having (indexRows plainUnicode 1 7 [(0, "Hello, 안녕하세".toList)]) 1
      [utf16 "녕하".toList] 7 = true :=
  (search_complete plainUnicode "Hello, 안녕하세".toList "녕하".toList [utf16 "녕하".toList]
    ⟨by decide +kernel, by decide +kernel⟩
    ⟨"hello, ".toList, "안녕하세".toList, [], by decide +kernel, .inr
      ⟨⟨by decide, by decide +kernel, fun c hc => by
        rw [← Option.some.inj (show some ' ' = some c from hc)]
        decide +kernel, nofun⟩,
        ⟨"안".toList, "세".toList, by decide +kernel⟩, .inl (by decide +kernel)⟩⟩
    (by decide +kernel)).2 _ 1 7 _ 0 List.mem_cons_self (by decide) fun _ hsi => hsi

/-- One character of a longer CJK run is in no bigram of its own. -/
theorem search_complete_fails :
    ¬ ∀ (text query : Text) (tokens : List Token), WithinLimit plainUnicode text →
      (∃ pre run post, plainUnicode.lower (plainUnicode.nfkc text) = pre ++ run ++ post ∧
        (IsRun plainUnicode .word pre run post ∧ normalize plainUnicode query = run ∨
          IsRun plainUnicode .cjk pre run post ∧ normalize plainUnicode query <:+: run)) →
      tokenizeQuery plainUnicode query = .ok tokens →
      ∀ token ∈ tokens, token ∈ tokenize plainUnicode text := by
  intro h
  have hall := h "안녕".toList "안".toList [utf16 "안".toList]
    ⟨by decide +kernel, by decide +kernel⟩
    ⟨[], "안녕".toList, [], by decide +kernel, .inr
      ⟨⟨by decide, by decide +kernel, nofun, nofun⟩, [], ['녕'], by decide +kernel⟩⟩
    (by decide +kernel) _ List.mem_cons_self
  exact absurd hall (by decide +kernel)

end Ionosphere.Store.Search
