import Ionosphere.Imap.MessageCommands
import Ionosphere.Lib.Assoc
import Mathlib.Data.List.Infix

/-! SEARCH criteria: the program of a command, and what a message is asked. The parts of a message
that the criteria read, its header fields and its Date, are those of the MIME parser, which is a
parameter. -/
namespace Ionosphere.Imap

open Ionosphere.Js Ionosphere.Lib

structure ParsedMessage where
  headers : List (Text × List Text)
  sentAt : Option Int

def flagKeys : List (Text × Text) :=
  [("ANSWERED".toList, "\\Answered".toList), ("DELETED".toList, "\\Deleted".toList),
    ("DRAFT".toList, "\\Draft".toList), ("FLAGGED".toList, "\\Flagged".toList),
    ("SEEN".toList, "\\Seen".toList)]

def headerShortcuts : List Text :=
  ["FROM".toList, "TO".toList, "CC".toList, "BCC".toList, "SUBJECT".toList]

def monthIndex : List (Text × Nat) :=
  [("jan".toList, 0), ("feb".toList, 1), ("mar".toList, 2), ("apr".toList, 3), ("may".toList, 4),
    ("jun".toList, 5), ("jul".toList, 6), ("aug".toList, 7), ("sep".toList, 8), ("oct".toList, 9),
    ("nov".toList, 10), ("dec".toList, 11)]

def daysToMonth (year : Int) (month : Nat) : Int :=
  let y := if month < 2 then year - 1 else year
  let era := y / 400
  let yoe := y - era * 400
  let mp := (month + 10) % 12
  era * 146097 + (yoe * 365 + yoe / 4 - yoe / 100) + (153 * mp + 2) / 5 - 719468

/-- `Date.UTC(year, month, day)`: a year below 100 is one of the twentieth century, and a day past
the end of the month goes on. -/
def dateUtc (year month day : Nat) : Int :=
  let y : Int := if year < 100 then 1900 + year else year
  (daysToMonth y month + (day - 1)) * 86400000

/-- `^"?(\d{1,2})-([A-Za-z]{3})-(\d{4})"?$`. -/
def parseSearchDate (u : CaseMap) (s : Text) : Option Int :=
  let s := if s.head? = some '"' then s.tail else s
  let s := if s.getLast? = some '"' then s.dropLast else s
  match s.splitOn '-' with
  | [day, month, year] =>
    if isDigits day ∧ day.length ≤ 2 ∧ isDigits year ∧ year.length = 4 then
      (Assoc.get monthIndex (toLowerCase u month)).map fun m =>
        dateUtc (digitsValue 10 year) m (digitsValue 10 day)
    else none
  | _ => none

theorem sizeOf_lt_cons (v : ImapValue) (rest : List ImapValue) :
    sizeOf rest < sizeOf (v :: rest) := by
  simp only [List.cons.sizeOf_spec]
  omega

theorem sizeOf_le_cons (v w : ImapValue) (rest : List ImapValue) :
    sizeOf rest ≤ sizeOf (v :: w :: rest) :=
  ((sizeOf_lt_cons w rest).trans (sizeOf_lt_cons v (w :: rest))).le

abbrev Unread (values : List ImapValue) : Type := { rest : List ImapValue // sizeOf rest < sizeOf values }

def Unread.more {values : List ImapValue} {v : ImapValue} (rest : Unread values) :
    Unread (v :: values) :=
  ⟨rest.1, by have h := rest.2; simp only [List.cons.sizeOf_spec]; omega⟩

def argText : (values : List ImapValue) → Option (Text × Unread values)
  | [] => none
  | v :: rest => (valueText v).map fun t => (t, ⟨rest, sizeOf_lt_cons v rest⟩)

def argNumber (values : List ImapValue) : Option (Nat × Unread values) :=
  (argText values).bind fun r => if isDigits r.1 then some (digitsNumber r.1, r.2) else none

def textKey (values : List ImapValue) (key : Text → Option SearchKey) :
    Option (SearchKey × Unread values) :=
  (argText values).bind fun r => (key r.1).map fun k => (k, r.2)

/-- An entry name and an entry type may stand before the number, and are skipped. -/
def modseqKey (values : List ImapValue) : Option (SearchKey × Unread values) :=
  match argText values with
  | none => none
  | some (t, rest) =>
    if isDigits t then some (.modseq (digitsNumber t), rest)
    else
      match hname : rest.1 with
      | _ :: more =>
        (argNumber more).map fun r => (.modseq r.1, ⟨r.2.1, by
          have hrest := rest.2
          have hmore := r.2.2
          rw [hname] at hrest
          simp only [List.cons.sizeOf_spec] at hrest
          omega⟩)
      | [] => none

def headerKey (u : CaseMap) (values : List ImapValue) : Option (SearchKey × Unread values) :=
  match argText values with
  | none => none
  | some (field, rest) =>
    (argText rest.1).map fun r => (.header (toUpperCase u field) r.1, ⟨r.2.1, by
      have hrest := rest.2
      have hmore := r.2.2
      omega⟩)

inductive DateKind where
  | internal
  | sent
  | saved
  deriving DecidableEq

def DateKind.key : DateKind → DateOp → Int → SearchKey
  | .internal => .internalDate
  | .sent => .sentDate
  | .saved => .saveDate

def dateKeys : List (Text × (DateKind × DateOp)) :=
  [("BEFORE".toList, .internal, .before), ("ON".toList, .internal, .on),
    ("SINCE".toList, .internal, .since), ("SENTBEFORE".toList, .sent, .before),
    ("SENTON".toList, .sent, .on), ("SENTSINCE".toList, .sent, .since),
    ("SAVEDBEFORE".toList, .saved, .before), ("SAVEDON".toList, .saved, .on),
    ("SAVEDSINCE".toList, .saved, .since)]

/-- The keys whose name alone, or with `UN` before it, is about a system flag. -/
def flagKey (upper : Text) : Option SearchKey :=
  match Assoc.get flagKeys upper with
  | some flag => some (.flag flag false)
  | none =>
    if "UN".toList.isPrefixOf upper then
      (Assoc.get flagKeys (upper.drop 2)).map fun flag => .flag flag true
    else none

/-- The keys without keys in them; `rest` is what follows the name. -/
def plainKey (u : CaseMap) (text upper : Text) (rest : List ImapValue) :
    Option (SearchKey × { more : List ImapValue // sizeOf more ≤ sizeOf rest }) :=
  let after : Option (SearchKey × Unread rest) →
      Option (SearchKey × { more : List ImapValue // sizeOf more ≤ sizeOf rest }) := fun r =>
    r.map fun r => (r.1, ⟨r.2.1, Nat.le_of_lt r.2.2⟩)
  let alone : SearchKey →
      Option (SearchKey × { more : List ImapValue // sizeOf more ≤ sizeOf rest }) := fun key =>
    some (key, ⟨rest, Nat.le_refl _⟩)
  match flagKey upper with
  | some key => alone key
  | none =>
    if upper = "ALL".toList ∨ upper = "OLD".toList then alone .all
    else if upper = "RECENT".toList ∨ upper = "NEW".toList then alone .none
    else if upper = "KEYWORD".toList then after (textKey rest fun t => some (.flag t false))
    else if upper = "UNKEYWORD".toList then after (textKey rest fun t => some (.flag t true))
    else if upper = "LARGER".toList then after ((argNumber rest).map fun r => (.larger r.1, r.2))
    else if upper = "SMALLER".toList then after ((argNumber rest).map fun r => (.smaller r.1, r.2))
    else if upper = "UID".toList then after (textKey rest fun t => (parseSequenceSet t).map .uid)
    else if upper = "HEADER".toList then after (headerKey u rest)
    else if upper = "BODY".toList then after (textKey rest fun t => some (.text t false))
    else if upper = "TEXT".toList then after (textKey rest fun t => some (.text t true))
    else if upper = "MODSEQ".toList then after (modseqKey rest)
    else
      match Assoc.get dateKeys upper with
      | some (kind, op) => after (textKey rest fun t => (parseSearchDate u t).map (kind.key op))
      | none =>
        if upper ∈ headerShortcuts then after (textKey rest fun t => some (.header upper t))
        else
          match parseSequenceSet text with
          | some ranges => alone (.seq ranges)
          | none => none

def searchCharset (u : CaseMap) (values : List ImapValue) :
    Option { rest : List ImapValue // sizeOf rest ≤ sizeOf values } :=
  match values with
  | kw :: more =>
    if (valueText kw).map (toUpperCase u) = some "CHARSET".toList then
      match more with
      | name :: rest =>
        let charset := (valueText name).map (toUpperCase u)
        if charset = some "UTF-8".toList ∨ charset = some "US-ASCII".toList then
          some ⟨rest, sizeOf_le_cons kw name rest⟩
        else none
      | [] => none
    else some ⟨kw :: more, Nat.le_refl _⟩
  | [] => some ⟨[], Nat.le_refl _⟩

mutual

def parseKey (u : CaseMap) (values : List ImapValue) : Option (SearchKey × Unread values) :=
  match values with
  | [] => none
  | .list items :: rest =>
    match parseSearchProgram u items with
    | .ok key => some (key, ⟨rest, by simp only [List.cons.sizeOf_spec]; omega⟩)
    | .error _ => none
  | v :: rest =>
    match valueText v with
    | none => none
    | some text =>
      let upper := toUpperCase u text
      if upper = "NOT".toList then
        match parseKey u rest with
        | some (key, more) => some (.not key, more.more)
        | none => none
      else if upper = "OR".toList then
        match parseKey u rest with
        | some (a, ⟨more, _⟩) =>
          match parseKey u more with
          | some (b, ⟨last, _⟩) =>
            some (.or a b, ⟨last, by simp only [List.cons.sizeOf_spec]; omega⟩)
          | none => none
        | none => none
      else
        (plainKey u text upper rest).map fun r => (r.1, ⟨r.2.1, by
          have h := r.2.2
          simp only [List.cons.sizeOf_spec]
          omega⟩)
termination_by (sizeOf values, 0)
decreasing_by all_goals simp_wf; omega

def parseKeys (u : CaseMap) (values : List ImapValue) : Option (List SearchKey) :=
  match values with
  | [] => some []
  | v :: rest =>
    match parseKey u (v :: rest) with
    | some (key, more) => (parseKeys u more.1).map (key :: ·)
    | none => none
termination_by (sizeOf values, 1)
decreasing_by
  · exact Prod.Lex.right _ (by decide)
  · exact Prod.Lex.left _ _ more.2

def parseSearchProgram (u : CaseMap) (values : List ImapValue) : Except Bool SearchKey :=
  match searchCharset u values with
  | none => .error true
  | some rest =>
    match parseKeys u rest.1 with
    | some [key] => .ok key
    | some (key :: keys) => .ok (.and (key :: keys))
    | _ => .error false
termination_by (sizeOf values, 2)
decreasing_by
  have h := rest.2
  rcases Nat.lt_or_eq_of_le h with hlt | heq
  · exact Prod.Lex.left _ _ hlt
  · rw [heq]
    exact Prod.Lex.right _ (by decide)

end

theorem parseKey_atom (u : CaseMap) {t : Text} (hnot : toUpperCase u t ≠ "NOT".toList)
    (hor : toUpperCase u t ≠ "OR".toList) (rest : List ImapValue) :
    (parseKey u (.atom t :: rest)).map (fun r => (r.1, r.2.1)) =
      (plainKey u t (toUpperCase u t) rest).map fun r => (r.1, r.2.1) := by
  rw [parseKey]
  · simp only [valueText, if_neg hnot, if_neg hor, Option.map_map]
    rfl
  · intro items h
    cases h

theorem parseSearchProgram_atom (u : CaseMap) {t : Text}
    (hcharset : toUpperCase u t ≠ "CHARSET".toList) (hnot : toUpperCase u t ≠ "NOT".toList)
    (hor : toUpperCase u t ≠ "OR".toList) :
    parseSearchProgram u [.atom t] =
      match plainKey u t (toUpperCase u t) [] with
      | some r => .ok r.1
      | none => .error false := by
  have hsearch : searchCharset u [.atom t] = some ⟨[.atom t], Nat.le_refl _⟩ := by
    have hne : ¬ (valueText (.atom t)).map (toUpperCase u) = some "CHARSET".toList := by
      simpa [valueText] using hcharset
    rw [searchCharset, if_neg hne]
  have hkey := parseKey_atom u hnot hor []
  rw [parseSearchProgram, hsearch]
  dsimp only
  rw [parseKeys]
  cases hplain : plainKey u t (toUpperCase u t) [] with
  | none =>
    rw [hplain, Option.map_none, Option.map_eq_none_iff] at hkey
    rw [hkey]
  | some r =>
    rw [hplain] at hkey
    obtain ⟨⟨key, more⟩, hparse, heq⟩ := Option.map_eq_some_iff.mp hkey
    have hnil : more.1 = [] := by
      obtain ⟨k, l, hl⟩ := r
      cases l with
      | nil => exact (Prod.mk.inj heq).2
      | cons v vs =>
        have hvs : 0 < sizeOf vs := by
          cases vs <;> simp only [List.nil.sizeOf_spec, List.cons.sizeOf_spec] <;> omega
        have hnil : sizeOf ([] : List ImapValue) = 1 := rfl
        rw [hnil, List.cons.sizeOf_spec] at hl
        omega
    rw [hparse]
    dsimp only
    rw [hnil, parseKeys, ← (Prod.mk.inj heq).1]
    rfl

mutual

def searchNeedsRaw : SearchKey → Bool
  | .sentDate _ _ | .header _ _ | .text _ _ => true
  | .not key => searchNeedsRaw key
  | .or a b => searchNeedsRaw a || searchNeedsRaw b
  | .and keys => someNeedsRaw keys
  | _ => false

def someNeedsRaw : List SearchKey → Bool
  | [] => false
  | key :: keys => searchNeedsRaw key || someNeedsRaw keys

end

def dayNum (ms : Int) : Int := ms / 86400000

def dateMatch (op : DateOp) (targetMs valueMs : Int) : Bool :=
  match op with
  | .before => dayNum valueMs < dayNum targetMs
  | .on => dayNum valueMs = dayNum targetMs
  | .since => dayNum targetMs ≤ dayNum valueMs

def includes (s needle : Text) : Bool := decide (needle <:+: s)

/-- `\r?\n\r?\n` at the start. -/
def startsBlank (s : Text) : Bool :=
  let skip : Text → Text := fun s => if s.head? = some '\r' then s.tail else s
  match skip s with
  | '\n' :: rest => (skip rest).head? = some '\n'
  | _ => false

def fromBlank : Text → Text
  | [] => []
  | c :: s => if startsBlank (c :: s) then c :: s else fromBlank s

section

variable (u : CaseMap) (parseMessage : Bytes → ParsedMessage)

def headerMatches (field value : Text) (raw : Bytes) : Bool :=
  let vals := (Assoc.get (parseMessage raw).headers (toLowerCase u field)).getD []
  if value = [] then vals ≠ []
  else vals.any fun h => includes (toLowerCase u h) (toLowerCase u value)

/-- `Buffer.toString("utf8")` keeps a byte order mark. -/
def textMatches (value : Text) (includeHeaders : Bool) (raw : Bytes) : Bool :=
  let full := toLowerCase u (utf8Go utf8Idle raw)
  includes (if includeHeaders then full else fromBlank full) (toLowerCase u value)

mutual

def evaluateSearch (key : SearchKey) (msg : SearchMessage) (maxSeq maxUid : Nat) : Bool :=
  match key with
  | .all => true
  | .none => false
  | .flag flag negate =>
    let has := msg.flags.any fun f => toUpperCase u f = toUpperCase u flag
    if negate then !has else has
  | .larger n => n < msg.size
  | .smaller n => msg.size < n
  | .uid ranges => matchSequenceSet ranges msg.uid maxUid
  | .seq ranges => matchSequenceSet ranges msg.seq maxSeq
  | .internalDate op ms => dateMatch op ms msg.internalDateMs
  | .saveDate op ms => dateMatch op ms (msg.saveDateMs.getD msg.internalDateMs)
  | .sentDate op ms =>
    match msg.raw with
    | none => false
    | some raw =>
      match (parseMessage raw).sentAt with
      | none => false
      | some sentAt => dateMatch op ms sentAt
  | .header field value =>
    match msg.raw with
    | none => false
    | some raw => headerMatches u parseMessage field value raw
  | .text value includeHeaders =>
    match msg.raw with
    | none => false
    | some raw => textMatches u value includeHeaders raw
  | .modseq n => n ≤ msg.modseq
  | .not key => !evaluateSearch key msg maxSeq maxUid
  | .or a b => evaluateSearch a msg maxSeq maxUid || evaluateSearch b msg maxSeq maxUid
  | .and keys => evaluateAll keys msg maxSeq maxUid

def evaluateAll (keys : List SearchKey) (msg : SearchMessage) (maxSeq maxUid : Nat) : Bool :=
  match keys with
  | [] => true
  | key :: keys => evaluateSearch key msg maxSeq maxUid && evaluateAll keys msg maxSeq maxUid

end

def SearchMessage.withRaw (msg : SearchMessage) (raw : Option Bytes) : SearchMessage :=
  { msg with raw := raw }

mutual

theorem evaluateSearch_raw (key : SearchKey) (hraw : searchNeedsRaw key = false)
    (msg : SearchMessage) (raw : Option Bytes) (maxSeq maxUid : Nat) :
    evaluateSearch u parseMessage key (msg.withRaw raw) maxSeq maxUid =
      evaluateSearch u parseMessage key msg maxSeq maxUid := by
  cases key with
  | all | none | flag | larger | smaller | uid | seq | internalDate | saveDate | modseq => rfl
  | sentDate | header | text => exact absurd hraw (by simp [searchNeedsRaw])
  | not key =>
    rw [searchNeedsRaw] at hraw
    rw [evaluateSearch, evaluateSearch, evaluateSearch_raw key hraw]
  | or a b =>
    rw [searchNeedsRaw, Bool.or_eq_false_iff] at hraw
    rw [evaluateSearch, evaluateSearch, evaluateSearch_raw a hraw.1, evaluateSearch_raw b hraw.2]
  | and keys =>
    rw [searchNeedsRaw] at hraw
    rw [evaluateSearch, evaluateSearch, evaluateAll_raw keys hraw]

theorem evaluateAll_raw (keys : List SearchKey) (hraw : someNeedsRaw keys = false)
    (msg : SearchMessage) (raw : Option Bytes) (maxSeq maxUid : Nat) :
    evaluateAll u parseMessage keys (msg.withRaw raw) maxSeq maxUid =
      evaluateAll u parseMessage keys msg maxSeq maxUid := by
  cases keys with
  | nil => rfl
  | cons key keys =>
    rw [someNeedsRaw, Bool.or_eq_false_iff] at hraw
    rw [evaluateAll, evaluateAll, evaluateSearch_raw key hraw.1, evaluateAll_raw keys hraw.2]

end

end

end Ionosphere.Imap
