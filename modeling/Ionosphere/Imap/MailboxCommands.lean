import Ionosphere.Imap.Engine

/-! Commands on mailboxes: LIST and LSUB, STATUS, CREATE, DELETE, RENAME,
SUBSCRIBE, ACL, QUOTA. None of them touches the selected view. -/
namespace Ionosphere.Imap

open Ionosphere.Js Ionosphere.Core

section

variable (s : Setup)

def statusItemNames : List Text :=
  ["MESSAGES", "RECENT", "UIDNEXT", "UIDVALIDITY", "UNSEEN", "DELETED", "SIZE",
    "HIGHESTMODSEQ", "MAILBOXID", "DELETED-STORAGE"]

def statusListRequest (items : List Text) : ImapBackendRequest :=
  .listMailboxes true (items.contains "DELETED".toList || items.contains "DELETED-STORAGE".toList)

def parseStatusItem (u : CaseMap) (it : ImapValue) : Except Text Text :=
  match (valueText it).map (toUpperCase u) with
  | none => .error "invalid STATUS item"
  | some t =>
    if t = [] then .error "invalid STATUS item"
    else if statusItemNames.contains t then .ok t
    else .error "unknown STATUS item"

def parseStatusItems (u : CaseMap) : ImapValue → Except Text (List Text)
  | .list items => items.mapM (parseStatusItem u)
  | _ => .error "STATUS expects item list"

/-- `Math.ceil(n / 1024)`. -/
def kib (n : Nat) : Nat := (n + 1023) / 1024

def statusField (m : ImapMailbox) (item : Text) : Option Text :=
  if item = "MESSAGES".toList then some ("MESSAGES " ++ natText m.totalCount)
  else if item = "RECENT".toList then some "RECENT 0"
  else if item = "MAILBOXID".toList then m.mailboxId.map fun id => "MAILBOXID (" ++ id ++ ")"
  else if item = "UIDNEXT".toList then some ("UIDNEXT " ++ natText m.uidnext)
  else if item = "UIDVALIDITY".toList then some ("UIDVALIDITY " ++ natText m.uidvalidity)
  else if item = "UNSEEN".toList then some ("UNSEEN " ++ natText m.unreadCount)
  else if item = "SIZE".toList then some ("SIZE " ++ natText m.totalBytes)
  else if item = "HIGHESTMODSEQ".toList then some ("HIGHESTMODSEQ " ++ natText m.highestmodseq)
  else if item = "DELETED".toList then some ("DELETED " ++ natText (m.deletedCount.getD 0))
  else if item = "DELETED-STORAGE".toList then
    some ("DELETED-STORAGE " ++ natText (kib (m.deletedBytes.getD 0)))
  else none

def statusLine (m : ImapMailbox) (wanted : List Text) : Text :=
  "* STATUS " ++ quoteMailboxName m.name ++ " (" ++ join " " (wanted.filterMap (statusField m)) ++ ")"

def cmdStatus (cmd : ParsedCommand) : Answer :=
  match mailboxArg s.host.cases cmd 0, cmd.args with
  | some name, [_, .list items] =>
    match parseStatusItems s.host.cases (.list items) with
    | .error why => refuse cmd.tag why
    | .ok wanted =>
      if wanted = [] then refuse cmd.tag "empty STATUS item list"
      else call (statusListRequest wanted) (.status cmd.tag name wanted)
  | _, _ => refuse cmd.tag "STATUS expects mailbox name and item list"

def statusAnswer (tag name : Text) (wanted : List Text) : ImapBackendResponse → Answer
  | .mailboxes mailboxes =>
    match mailboxes.find? (·.name = name) with
    | none => lines [no tag "[NONEXISTENT] STATUS no such mailbox"]
    | some m =>
      if m.readable = some false then lines [no tag "[NOPERM] STATUS no read access"]
      else lines [statusLine m wanted, completed tag "STATUS"]
  | res => lines [noOrFailed tag "STATUS" res]

def ListVerb.text : ListVerb → Text
  | .list => "LIST"
  | .lsub => "LSUB"

def listSelectOption (u : CaseMap) (sel : ListSelect) (it : ImapValue) : Except Text ListSelect :=
  let o := ((valueText it).map (toUpperCase u)).getD []
  if o = "SUBSCRIBED".toList then .ok { sel with subscribed := true }
  else if o = "REMOTE".toList then .ok sel
  else if o = "RECURSIVEMATCH".toList then .ok { sel with recursivematch := true }
  else if o = "SPECIAL-USE".toList then .ok { sel with specialUse := true }
  else .error "unknown selection option"

def listSelection (u : CaseMap) (verb : ListVerb) (args : List ImapValue) :
    Except Text (ListSelect × List ImapValue × Bool) :=
  match verb, args with
  | .list, .list items :: rest =>
    match items.foldlM (listSelectOption u) {} with
    | .error why => .error why
    | .ok sel =>
      if sel.recursivematch ∧ !sel.subscribed ∧ !sel.specialUse then
        .error "RECURSIVEMATCH requires another selection option"
      else .ok (sel, rest, true)
  | _, _ => .ok ({}, args, false)

def listPatterns (verb : ListVerb) : ImapValue → Option (List Text × Bool)
  | .list items =>
    if verb = .list then
      match items.mapM valueText with
      | some (p :: ps) => some (p :: ps, true)
      | _ => none
    else none
  | v => (valueText v).map fun p => ([p], false)

structure ListReturn where
  subscribed : Bool := false
  statusItems : Option (List Text) := none

def listReturnOptions (u : CaseMap) : ListReturn → List ImapValue → Except Text ListReturn
  | ret, [] => .ok ret
  | ret, it :: rest =>
    let opt := ((valueText it).map (toUpperCase u)).getD []
    if opt = "SUBSCRIBED".toList then listReturnOptions u { ret with subscribed := true } rest
    else if opt = "CHILDREN".toList ∨ opt = "SPECIAL-USE".toList then listReturnOptions u ret rest
    else if opt = "STATUS".toList then
      match rest with
      | [] => .error "RETURN STATUS expects item list"
      | list :: rest =>
        match parseStatusItems u list with
        | .error why => .error why
        | .ok items => listReturnOptions u { ret with statusItems := some items } rest
    else .error "unknown RETURN option"

def listReturn (u : CaseMap) (verb : ListVerb) (rest : List ImapValue) : Except Text ListReturn :=
  match rest with
  | [] => .ok {}
  | [kw, .list opts] =>
    if verb = .list ∧ (valueText kw).map (toUpperCase u) = some "RETURN".toList then
      listReturnOptions u {} opts
    else .error "invalid arguments"
  | _ => .error "invalid arguments"

def cmdList (cmd : ParsedCommand) (verb : ListVerb) : Answer :=
  let bad (why : Text) : Answer := refuse cmd.tag (verb.text ++ " " ++ why)
  let u := s.host.cases
  match listSelection u verb cmd.args with
  | .error why => bad why
  | .ok (sel, args, selecting) =>
    match (args[0]?.bind valueText), args[1]?.bind (listPatterns verb) with
    | some ref, some (patterns, patternList) =>
      match listReturn u verb (args.drop 2) with
      | .error why => bad why
      | .ok ret =>
        let extended := selecting || patternList || !(args.drop 2).isEmpty
        if !extended ∧ patterns = [[]] then
          lines ["* " ++ verb.text ++ " (\\Noselect) \"/\" \"\"", completed cmd.tag verb.text]
        else
          let matchers := (patterns.filter (· ≠ [])).map fun p =>
            normalizeMailboxName u (joinListPattern ref p)
          call (match ret.statusItems with
              | some items => statusListRequest items
              | none => .listMailboxes false false)
            (.list ⟨cmd.tag, verb, sel, matchers, ret.subscribed || sel.subscribed,
              ret.statusItems⟩)
    | _, _ => bad "expects reference and pattern"

def passesSelection (sel : ListSelect) (m : ImapMailbox) : Bool :=
  (!sel.subscribed || m.subscribed ≠ some false) &&
    (!sel.specialUse || (roleToAttribute s.host.cases m.role).isSome)

def listAttributes (parents : List Text) (m : ImapMailbox) (subscribedFlag : Bool) : Text :=
  join " " ((roleToAttribute s.host.cases m.role).toList ++
    [if parents.contains m.name then "\\HasChildren".toList else "\\HasNoChildren".toList] ++
    (if m.readable = some false then ["\\NoSelect".toList] else []) ++
    (if subscribedFlag then ["\\Subscribed".toList] else []))

/-- The lines of one mailbox. A mailbox that is not selected is listed with
`CHILDINFO` when a selected one below it is outside the patterns. -/
def listMailbox (plan : ListPlan) (mailboxes : List ImapMailbox) (m : ImapMailbox) : List Text :=
  let hit (name : Text) : Bool := plan.patterns.any fun p => s.formats.matchesListPattern p name
  let parents := mailboxes.flatMap fun m => ancestors m.name
  let chosen := mailboxes.filter (passesSelection s plan.select)
  let childInfo := plan.select.recursivematch && plan.select.subscribed
  let suffix : Text := " (\"CHILDINFO\" (\"SUBSCRIBED\"))"
  let row (subscribed info : Bool) : Text :=
    "* " ++ plan.verb.text ++ " (" ++ listAttributes s parents m subscribed ++ ") \"/\" " ++
      quoteMailboxName m.name ++ (if info then suffix else [])
  if !hit m.name then []
  else if plan.verb = .lsub ∧ m.subscribed = some false then []
  else if !passesSelection s plan.select m then
    if childInfo && ((chosen.filter fun c => !hit c.name).flatMap fun c =>
        ancestors c.name).contains m.name then [row false true]
    else []
  else
    row (plan.returnSubscribed && m.subscribed ≠ some false)
        (childInfo && (chosen.flatMap fun c => ancestors c.name).contains m.name) ::
      match plan.statusItems with
      | none => []
      | some items => if m.readable = some false then [] else [statusLine m items]

def listAnswer (plan : ListPlan) : ImapBackendResponse → Answer
  | .mailboxes mailboxes =>
    lines (mailboxes.flatMap (listMailbox s plan mailboxes) ++
      [completed plan.tag plan.verb.text])
  | res => lines [noOrFailed plan.tag plan.verb.text res]

/-- A command whose answer is `ok` or a refusal; no request is wrong arguments. -/
def cmdSimple (cmd : ParsedCommand) (verb expects : Text) (req : Option ImapBackendRequest) :
    Answer :=
  match req with
  | none => refuse cmd.tag (verb ++ " expects " ++ expects)
  | some req => call req (.okOrNo cmd.tag verb)

def cmdSubscribe (cmd : ParsedCommand) (verb : Text) (subscribed : Bool) : Answer :=
  cmdSimple cmd verb "mailbox name"
    (match mailboxArg s.host.cases cmd 0, cmd.args with
      | some name, [_] => some (.setSubscribed name subscribed)
      | _, _ => none)

def cmdCreate (cmd : ParsedCommand) : Answer :=
  match mailboxArg s.host.cases cmd 0, cmd.args with
  | some name, [_] =>
    let name := if name.getLast? = some hierarchyDelimiter then name.dropLast else name
    if name = [] ∨ name = "INBOX".toList then lines [no cmd.tag "CREATE invalid mailbox name"]
    else call (.createMailbox name) (.okOrNo cmd.tag "CREATE")
  | _, _ => refuse cmd.tag "CREATE expects mailbox name"

def cmdDelete (cmd : ParsedCommand) : Answer :=
  match mailboxArg s.host.cases cmd 0, cmd.args with
  | some name, [_] =>
    if name = "INBOX".toList then lines [no cmd.tag "DELETE INBOX is not allowed"]
    else call (.deleteMailbox name) (.okOrNo cmd.tag "DELETE")
  | _, _ => refuse cmd.tag "DELETE expects mailbox name"

def cmdRename (cmd : ParsedCommand) : Answer :=
  match mailboxArg s.host.cases cmd 0, mailboxArg s.host.cases cmd 1, cmd.args with
  | some src, some dst, [_, _] =>
    if dst = "INBOX".toList then lines [no cmd.tag "RENAME destination INBOX is not allowed"]
    else call (.renameMailbox src dst) (.okOrNo cmd.tag "RENAME")
  | _, _, _ => refuse cmd.tag "RENAME expects source and destination"

def cmdGetAcl (cmd : ParsedCommand) : Answer :=
  match mailboxArg s.host.cases cmd 0, cmd.args with
  | some name, [_] => call (.getAcl name) (.getAcl cmd.tag)
  | _, _ => refuse cmd.tag "GETACL expects mailbox name"

def cmdSetAcl (cmd : ParsedCommand) : Answer :=
  cmdSimple cmd "SETACL" "mailbox identifier rights"
    (match mailboxArg s.host.cases cmd 0, textArg cmd 1, textArg cmd 2, cmd.args with
      | some name, some identifier, some rights, [_, _, _] => some (.setAcl name identifier rights)
      | _, _, _, _ => none)

def cmdDeleteAcl (cmd : ParsedCommand) : Answer :=
  cmdSimple cmd "DELETEACL" "mailbox identifier"
    (match mailboxArg s.host.cases cmd 0, textArg cmd 1, cmd.args with
      | some name, some identifier, [_, _] => some (.deleteAcl name identifier)
      | _, _, _ => none)

def cmdListRights (cmd : ParsedCommand) : Answer :=
  match mailboxArg s.host.cases cmd 0, textArg cmd 1, cmd.args with
  | some name, some identifier, [_, _] =>
    call (.listRights name identifier) (.listRights cmd.tag)
  | _, _, _ => refuse cmd.tag "LISTRIGHTS expects mailbox identifier"

def cmdMyRights (cmd : ParsedCommand) : Answer :=
  match mailboxArg s.host.cases cmd 0, cmd.args with
  | some name, [_] => call (.myRights name) (.myRights cmd.tag)
  | _, _ => refuse cmd.tag "MYRIGHTS expects mailbox name"

def okOrNoAnswer (tag verb : Text) : ImapBackendResponse → Answer
  | .ok => lines [completed tag verb]
  | res => lines [noOrFailed tag verb res]

def getAclAnswer (tag : Text) : ImapBackendResponse → Answer
  | .acl mailbox entries =>
    lines ["* ACL " ++ quoteMailboxName mailbox ++ " " ++
        join " " (entries.flatMap fun entry => [entry.1, entry.2]),
      completed tag "GETACL"]
  | res => lines [noOrFailed tag "GETACL" res]

def listRightsAnswer (tag : Text) : ImapBackendResponse → Answer
  | .rights mailbox identifier rights =>
    lines ["* LISTRIGHTS " ++ quoteMailboxName mailbox ++ " " ++ identifier ++ " \"\" " ++ rights,
      completed tag "LISTRIGHTS"]
  | res => lines [noOrFailed tag "LISTRIGHTS" res]

def myRightsAnswer (tag : Text) : ImapBackendResponse → Answer
  | .rights mailbox _ rights =>
    lines ["* MYRIGHTS " ++ quoteMailboxName mailbox ++ " " ++ rights, completed tag "MYRIGHTS"]
  | res => lines [noOrFailed tag "MYRIGHTS" res]

def QuotaVerb.text : QuotaVerb → Text
  | .getquota => "GETQUOTA"
  | .getquotaroot => "GETQUOTAROOT"

def quotaRoot : Text := []

def cmdGetQuota (cmd : ParsedCommand) (verb : QuotaVerb) : Answer :=
  match textArg cmd 0, cmd.args with
  | some arg, [_] =>
    let mailbox := normalizeMailboxName s.host.cases arg
    if verb = .getquota ∧ mailbox ≠ quotaRoot then
      lines [no cmd.tag "[NONEXISTENT] no such quota root"]
    else call .getQuota (.quota cmd.tag verb mailbox)
  | _, _ => refuse cmd.tag (verb.text ++ " expects one argument")

def quotaResources (usedBytes limitBytes : Nat) : Text :=
  if limitBytes = 0 then []
  else "STORAGE " ++ natText (kib usedBytes) ++ " " ++ natText (kib limitBytes)

def quotaAnswer (tag : Text) (verb : QuotaVerb) (mailbox : Text) : ImapBackendResponse → Answer
  | .quota usedBytes limitBytes _ =>
    lines ((if verb = .getquotaroot then
        ["* QUOTAROOT " ++ quoteMailboxName mailbox ++ " " ++ quoteMailboxName quotaRoot] else []) ++
      ["* QUOTA " ++ quoteMailboxName quotaRoot ++ " (" ++ quotaResources usedBytes limitBytes ++ ")",
        completed tag verb.text])
  | res => lines [noOrFailed tag verb.text res]

end

end Ionosphere.Imap
