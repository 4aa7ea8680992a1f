import Ionosphere.Imap.MessageCommands

/-! SEARCH, SORT and THREAD: the mailbox is read in batches and only the hits are
kept between them. -/
namespace Ionosphere.Imap

open Ionosphere.Js Ionosphere.Core

section

variable (s : Setup)

def Esearch.onlySave (o : Esearch) : Bool := o.save && !o.min && !o.max && !o.count && !o.all

def esearchOption (o : Esearch) (it : ImapValue) : Option Esearch :=
  let t := ((valueText it).map (toUpperCase s.host.cases)).getD []
  if t = "MIN".toList then some { o with min := true }
  else if t = "MAX".toList then some { o with max := true }
  else if t = "COUNT".toList then some { o with count := true }
  else if t = "ALL".toList then some { o with all := true }
  else if t = "SAVE".toList then some { o with save := true }
  else none

/-- The RETURN options, if any, and the criteria. An empty list is `ALL`, and after
`ENABLE IMAP4rev2` no RETURN is `ALL` too. -/
def searchReturn (rev2 : Bool) (args : List ImapValue) :
    Option (Option Esearch × List ImapValue) :=
  let plain := some (if rev2 then some { all := true } else none, args)
  match args with
  | kw :: .list items :: rest =>
    if (valueText kw).map (toUpperCase s.host.cases) = some "RETURN".toList then
      (items.foldlM (esearchOption s) {}).map fun o =>
        (some (if items = [] then { o with all := true } else o), rest)
    else plain
  | _ => plain

/-- `SAVE` alone suppresses the response. -/
def searchReply (tag : Text) (uidMode : Bool) (esearch : Option Esearch) (hits : List Nat) :
    List Text :=
  match esearch with
  | none => [join " " ("* SEARCH".toList :: hits.map natText)]
  | some o =>
    if o.onlySave then []
    else
      let parts : List Text := ["(TAG \"" ++ tag ++ "\")"] ++
        (if uidMode then ["UID".toList] else []) ++
        (match hits with
          | [] => []
          | n :: ns =>
            (if o.min then ["MIN " ++ natText (ns.foldl Nat.min n)] else []) ++
              (if o.max then ["MAX " ++ natText (ns.foldl Nat.max n)] else []) ++
              (if o.all then ["ALL " ++ formatUidSet (n :: ns)] else [])) ++
        (if o.count then ["COUNT " ++ natText hits.length] else [])
      ["* ESEARCH " ++ join " " parts]

/-- What `$` keeps: with MIN or MAX and neither ALL nor COUNT, only those. -/
def savedFor (o : Esearch) (hitUids : List Nat) : List Nat :=
  match hitUids with
  | [] => []
  | u :: us =>
    if (o.min || o.max) && !o.all && !o.count then
      let last := (u :: us).getLast?.getD u
      sortUids ((if o.min then [u] else []) ++
        (if o.max ∧ !(o.min ∧ last = u) then [last] else []))
    else u :: us

def searchDone (tag verb : Text) (uidMode : Bool) (esearch : Option Esearch)
    (hits hitUids : List Nat) : Answer :=
  { lines (searchReply tag uidMode esearch hits ++ [completed tag verb]) with
    saved := esearch.bind fun o => if o.save then some (savedFor o hitUids) else none }

def searchFrom (plan : SearchPlan) (offset : Nat) (hits hitUids uids : List Nat) : Answer :=
  let batchUids := (uids.drop offset).take (batchSize plan.needRaw)
  call (.fetchMessages plan.name batchUids plan.needRaw false false)
    (.search plan offset batchUids hits hitUids)

def searchProgramError (tag verb : Text) (badCharset : Bool) : Answer :=
  if badCharset then lines [no tag "[BADCHARSET (UTF-8 US-ASCII)] unsupported charset"]
  else refuse tag (verb ++ " invalid search criteria")

def searchPlan (tag verb : Text) (uidMode : Bool) (esearch : Option Esearch) (key : SearchKey)
    (view : SelectedView) : SearchPlan :=
  { tag := tag
    verb := verb
    uidMode := uidMode
    esearch := esearch
    key := key
    name := view.name
    needRaw := s.formats.searchNeedsRaw key
    maxSeq := view.uids.length
    maxUid := view.uids.getLast?.getD 0 }

def cmdSearch (cmd : ParsedCommand) (uidMode : Bool) (view : SelectedView) (e : Engine) : Answer :=
  let verb := uidVerb uidMode "SEARCH"
  match searchReturn s e.enabled.imap4rev2 cmd.args with
  | none => refuse cmd.tag "unknown RETURN option"
  | some (esearch, critArgs) =>
    match s.formats.parseSearchProgram critArgs with
    | .error badCharset => searchProgramError cmd.tag verb badCharset
    | .ok key =>
      if view.uids = [] then searchDone cmd.tag verb uidMode esearch [] []
      else searchFrom (searchPlan s cmd.tag verb uidMode esearch key view) 0 [] [] view.uids

def matches? (plan : SearchPlan) (offset : Nat) (batchUids : List Nat)
    (messages : List ImapFetchData) : List (Nat × ImapFetchData) :=
  batchUids.zipIdx.filterMap fun p =>
    match byUid messages p.1 with
    | none => none
    | some data =>
      let i := offset + p.2
      if s.formats.evaluateSearch plan.key
          ⟨i + 1, p.1, data.flags, data.size, data.internalDateMs, data.saveDateMs, data.modseq,
            data.raw⟩ plan.maxSeq plan.maxUid then some (i + 1, { data with uid := p.1 })
      else none

def searchAnswer (plan : SearchPlan) (offset : Nat) (batchUids hits hitUids : List Nat)
    (e : Engine) : ImapBackendResponse → Answer
  | .messages messages =>
    let found := matches? s plan offset batchUids messages
    let hits := hits ++ found.map fun p => if plan.uidMode then p.2.uid else p.1
    let hitUids := hitUids ++ found.map fun p => p.2.uid
    if offset + batchSize plan.needRaw < (viewUids e).length then
      searchFrom plan (offset + batchSize plan.needRaw) hits hitUids (viewUids e)
    else searchDone plan.tag plan.verb plan.uidMode plan.esearch hits hitUids
  | res => lines [noOrFailed plan.tag plan.verb res]

/-- The minimum and the maximum are taken by calls with an argument for each hit. -/
def searchThrows (plan : SearchPlan) (offset : Nat) (batchUids hits : List Nat) (e : Engine)
    (messages : List ImapFetchData) : Bool :=
  !(offset + batchSize plan.needRaw < (viewUids e).length) &&
    plan.esearch.any (fun o => o.min || o.max) &&
    s.host.argumentLimit < hits.length + (matches? s plan offset batchUids messages).length

inductive SortVerb where
  | sort
  | thread
  deriving DecidableEq

def SortVerb.text : SortVerb → Text
  | .sort => "SORT"
  | .thread => "THREAD"

def sortThreadMode (verb : SortVerb) (arg : Option ImapValue) : Except Text SortOrThread :=
  match verb with
  | .sort =>
    match arg with
    | some (.list items) =>
      match s.formats.parseSortSpec items with
      | some spec => .ok (.sort spec)
      | none => .error "invalid sort criteria"
    | _ => .error "expects a sort criteria list"
  | .thread =>
    let alg := (upperText s.host.cases arg).getD []
    if alg = "ORDEREDSUBJECT".toList then .ok (.thread .orderedsubject)
    else if alg = "REFERENCES".toList then .ok (.thread .references)
    else .error "unsupported threading algorithm"

def sortThreadFrom (plan : SearchPlan) (mode : SortOrThread) (offset : Nat)
    (hits : List SortItem) (sortMeta : List SortMeta) (uids : List Nat) : Answer :=
  let batchUids := (uids.drop offset).take (batchSize plan.needRaw)
  call (.fetchMessages plan.name batchUids plan.needRaw false true)
    (.sortThread plan mode offset batchUids hits sortMeta)

def cmdSortThread (cmd : ParsedCommand) (uidMode : Bool) (verb : SortVerb) (view : SelectedView) :
    Answer :=
  let text := uidVerb uidMode verb.text
  match sortThreadMode s verb cmd.args[0]? with
  | .error why => refuse cmd.tag (text ++ " " ++ why)
  | .ok mode =>
    match (cmd.args[1]?.getD (.atom [])) with
    | .list _ => refuse cmd.tag (text ++ " expects a charset")
    | v =>
      let charset := toUpperCase s.host.cases ((valueText v).getD [])
      if charset ≠ "UTF-8".toList ∧ charset ≠ "US-ASCII".toList then
        lines [no cmd.tag "[BADCHARSET (UTF-8 US-ASCII)] unsupported charset"]
      else
        match s.formats.parseSearchProgram (cmd.args.drop 2) with
        | .error badCharset => searchProgramError cmd.tag text badCharset
        | .ok key =>
          if view.uids = [] then lines ["* " ++ verb.text, completed cmd.tag text]
          else
            sortThreadFrom (searchPlan s cmd.tag text uidMode none key view) mode 0 [] []
              view.uids

def sortThreadAnswer (plan : SearchPlan) (mode : SortOrThread) (offset : Nat)
    (batchUids : List Nat) (hits : List SortItem) (sortMeta : List SortMeta) (e : Engine) :
    ImapBackendResponse → Answer
  | .messages messages =>
    let found := matches? s plan offset batchUids messages
    let hits := hits ++ found.map fun p =>
      ⟨if plan.uidMode then p.2.uid else p.1, p.1, p.2.uid, p.2.sortKeys.getD {}⟩
    let sortMeta := sortMeta ++ found.map fun p => ⟨p.2.uid, p.2.internalDateMs, p.2.size⟩
    if offset + batchSize plan.needRaw < (viewUids e).length then
      sortThreadFrom plan mode (offset + batchSize plan.needRaw) hits sortMeta (viewUids e)
    else
      let line := match mode with
        | .sort spec => s.formats.formatSortLine hits spec sortMeta
        | .thread algorithm => s.formats.formatThreadLine hits algorithm
      lines [line, completed plan.tag plan.verb]
  | res => lines [noOrFailed plan.tag plan.verb res]

end

end Ionosphere.Imap
