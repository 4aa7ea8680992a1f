import Ionosphere.Imap.SearchCommands

/-! The commands whose continuations change the selected view: APPEND and REPLACE
insert uids, EXPUNGE, MOVE and REPLACE remove them, and the refresh behind NOOP,
CHECK and IDLE does both for what other sessions did. -/
namespace Ionosphere.Imap

open Ionosphere.Js Ionosphere.Core

section

variable (s : Setup)

def afterFlags : List ImapValue → List ImapValue
  | .list _ :: rest => rest
  | args => args

theorem afterFlags_length (args : List ImapValue) : (afterFlags args).length ≤ args.length := by
  unfold afterFlags
  split <;> simp

def dateArg : List ImapValue → Option Int
  | .quoted value :: _ => s.formats.parseImapDateTime value
  | _ => none

def afterDate (args : List ImapValue) : List ImapValue :=
  if (dateArg s args).isSome then args.tail else args

theorem afterDate_length (args : List ImapValue) : (afterDate s args).length ≤ args.length := by
  unfold afterDate
  split <;> simp

def flagArgs : List ImapValue → Option (List Text)
  | .list items :: _ => items.mapM valueText
  | _ => some []

def messageBytes : ImapValue → Option Bytes
  | .literal bytes => some bytes
  | .quoted value => some (utf8Encode value)
  | _ => none

/-- `[flags] [date] message`: the item and the arguments after it, or the refusal. -/
def messageArgs (tag verb : Text) (args : List ImapValue) :
    Except Text (AppendItem × { rest : List ImapValue // rest.length < args.length }) :=
  match flagArgs args with
  | none => .error (bad tag (verb ++ " invalid flag"))
  | some flags =>
    match h : afterDate s (afterFlags args) with
    | [] => .error (bad tag (verb ++ " expects message literal"))
    | v :: rest =>
      match messageBytes v with
      | none => .error (bad tag (verb ++ " expects message literal"))
      | some raw =>
        if raw = [] then .error (no tag (verb ++ " empty message"))
        else .ok (⟨raw, flags, dateArg s (afterFlags args)⟩, ⟨rest, by
          have hflags := afterFlags_length args
          have hdate := afterDate_length s (afterFlags args)
          rw [h, List.length_cons] at hdate
          omega⟩)

def appendItems (tag : Text) (args : List ImapValue) : Except Text (List AppendItem) :=
  match args with
  | [] => .ok []
  | v :: args =>
    match messageArgs s tag "APPEND" (v :: args) with
    | .error why => .error why
    | .ok (item, rest) =>
      match appendItems tag rest.1 with
      | .error why => .error why
      | .ok items => .ok (item :: items)
termination_by args.length
decreasing_by exact rest.2

def cmdAppend (cmd : ParsedCommand) : Answer :=
  match mailboxArg s.host.cases cmd 0 with
  | none => refuse cmd.tag "APPEND expects mailbox name"
  | some name =>
    match appendItems s cmd.tag (cmd.args.drop 1) with
    | .error why => lines [why]
    | .ok [] => refuse cmd.tag "APPEND expects message literal"
    | .ok (first :: items) =>
      call (.appendMessage name first.flags first.internalDateMs first.raw (first :: items))
        (.append cmd.tag name)

/-- `view.uids.push(..)`, sort, `* n EXISTS`; nothing when there is nothing to add. -/
def insertUids (added : List Nat) (view : SelectedView) : SelectedView × List Reply :=
  if added = [] then (view, [])
  else
    let view := addUids added view
    (view, [.exists view.uids.length])

def resumeAppend (tag name : Text) (res : ImapBackendResponse) : Handler := fun e =>
  match res with
  | .appended uidvalidity uid uids =>
    let uids := uids.getD [uid]
    let ok := say (tag ++ " OK [APPENDUID " ++ natText uidvalidity ++ " " ++ formatUidSet uids ++
      "] APPEND completed")
    match e.selected with
    | none => (e, [ok])
    | some view =>
      if view.name = name then
        let r := insertUids (newUids view.uids uids) view
        ({ e with selected := some r.1 }, r.2.map .reply ++ [ok])
      else (e, [ok])
  | res => (e, [say (noOrFailed tag "APPEND" res)])

def cmdReplace (cmd : ParsedCommand) (uidMode : Bool) (view : SelectedView) (e : Engine) :
    Answer :=
  let verb := uidVerb uidMode "REPLACE"
  if !view.readWrite then readOnly cmd.tag
  else
    match setArg cmd.args[0]? uidMode e with
    | none => refuse cmd.tag (verb ++ " expects a message number")
    | some ranges =>
      match resolveTargets ranges uidMode e with
      | [target] =>
        match mailboxArg s.host.cases cmd 1 with
        | none => refuse cmd.tag (verb ++ " expects mailbox name")
        | some dest =>
          match messageArgs s cmd.tag verb (cmd.args.drop 2) with
          | .error why => lines [why]
          | .ok (item, rest) =>
            if rest.1 ≠ [] then refuse cmd.tag (verb ++ " invalid arguments")
            else call (.replaceMessage view.name dest target.uid item.raw item.flags
                item.internalDateMs) (.replace cmd.tag verb dest)
      | _ => lines [no cmd.tag (verb ++ " expects exactly one message")]

def resumeReplace (tag verb dest : Text) (res : ImapBackendResponse) : Handler := fun e =>
  match res with
  | .replaced uidvalidity uid expungedUid =>
    let ok := say (tag ++ " OK [APPENDUID " ++ natText uidvalidity ++ " " ++ natText uid ++ "] " ++
      verb ++ " completed")
    match e.selected with
    | none => (e, [ok])
    | some view =>
      let r := if view.name = dest then insertUids (newUids view.uids [uid]) view else (view, [])
      let q := removalActions expungedUid.toList { e with selected := some r.1 }
      (q.1, r.2.map .reply ++ q.2 ++ [ok])
  | res => (e, [say (noOrFailed tag verb res)])

def CopyOp.text : CopyOp → Text
  | .copy => "COPY"
  | .move => "MOVE"

def cmdCopyMove (cmd : ParsedCommand) (uidMode : Bool) (op : CopyOp) (view : SelectedView)
    (e : Engine) : Answer :=
  let verb := uidVerb uidMode op.text
  if op = .move ∧ !view.readWrite then readOnly cmd.tag
  else
    match setArg cmd.args[0]? uidMode e, mailboxArg s.host.cases cmd 1, cmd.args with
    | some ranges, some dest, [_, _] =>
      let uids := (resolveTargets ranges uidMode e).map (·.uid)
      if uids = [] then lines [completed cmd.tag verb]
      else call (if op = .copy then .copyMessages view.name dest uids
          else .moveMessages view.name dest uids) (.copyMove cmd.tag verb op)
    | _, _, _ => refuse cmd.tag (verb ++ " invalid arguments")

def resumeCopyMove (tag verb : Text) (op : CopyOp) (res : ImapBackendResponse) : Handler := fun e =>
  match res with
  | .copied uidvalidity srcUids dstUids =>
    let copyuid := "COPYUID " ++ natText uidvalidity ++ " " ++ formatUidSet srcUids ++ " " ++
      formatUidSet dstUids
    match op with
    | .copy => (e, [say (tag ++ " OK [" ++ copyuid ++ "] " ++ verb ++ " completed")])
    | .move =>
      let r := removalActions srcUids e
      (r.1, say ("* OK [" ++ copyuid ++ "] moved") :: r.2 ++ [say (completed tag verb)])
  | res => (e, [say (noOrFailed tag verb res)])

def cmdExpunge (cmd : ParsedCommand) (uidRanges : Option (List SeqRange)) (view : SelectedView)
    (e : Engine) : Answer :=
  let verb := uidVerb uidRanges.isSome "EXPUNGE"
  if !view.readWrite then readOnly cmd.tag
  else
    let limitUids := uidRanges.map fun ranges => (resolveTargets ranges true e).map (·.uid)
    if limitUids = some [] then lines [completed cmd.tag verb]
    else call (.expunge view.name limitUids) (.expunge cmd.tag verb)

def resumeExpunge (tag verb : Text) (res : ImapBackendResponse) : Handler := fun e =>
  match res with
  | .expunged uids =>
    let r := removalActions uids e
    (r.1, r.2 ++ [say (completed tag verb)])
  | res => (e, [say (noOrFailed tag verb res)])

def refreshSelected (taggedOk : Option Text) (e : Engine) : Answer :=
  match e.selected with
  | none => lines taggedOk.toList
  | some view => call (.selectMailbox view.name) (.refresh taggedOk)

/-- The view brought up to date with a snapshot: what is gone first, then what is new. -/
def refreshView (qresync : Bool) (uids : List Nat) (uidnext : Nat) (view : SelectedView) :
    SelectedView × List Reply :=
  let r := removal qresync (view.uids.filter fun u => !uids.contains u) view.uids
  let view := { view with uids := r.1, uidnext := Nat.max view.uidnext uidnext }
  let q := insertUids (uids.filter fun u => !r.1.contains u) view
  (q.1, r.2 ++ q.2)

/-- The keyword list after a refresh: the snapshot's and those seen since. -/
def finalKeywords (dbKeywords extra : List Text) : List Text :=
  (dbKeywords ++ extra.filter fun k => k.head? ≠ some '\\').eraseDups

/-- The new list and its `* FLAGS` line, when it differs from what was announced. -/
def syncKeywordList (dbKeywords extra announced : List Text) : List Text × List Text :=
  let final := finalKeywords dbKeywords extra
  if final.length ≠ announced.length ∨ final.any fun k => !announced.contains k then
    (final, [flagsLine final])
  else (announced, [])

/-- The announcements of removed messages and the new uids are arguments of calls. -/
def refreshThrows (argumentLimit : Nat) (qresync : Bool) (uids : List Nat) (view : SelectedView) :
    Bool :=
  let r := removal qresync (view.uids.filter fun u => !uids.contains u) view.uids
  argumentLimit < r.2.length || argumentLimit ≤ (uids.filter fun u => !r.1.contains u).length

def resumeRefresh (taggedOk : Option Text) (res : ImapBackendResponse) : Handler := fun e =>
  let ok := taggedOk.toList.map say
  match res, e.selected with
  | .selected m uids _ keywords, some view =>
    let r := refreshView e.enabled.qresync uids m.uidnext view
    let actions := r.2.map ImapAction.reply
    if m.highestmodseq ≤ r.1.lastSyncModseq then
      let k := syncKeywordList keywords [] r.1.announcedKeywords
      ({ e with selected := some { r.1 with announcedKeywords := k.1 } },
        actions ++ k.2.map say ++ ok)
    else
      let q := callBackend (.syncSince r.1.name r.1.lastSyncModseq none false)
        (.refreshSync taggedOk m.highestmodseq keywords) { e with selected := some r.1 }
      (q.1, actions ++ q.2)
  | _, _ => (e, ok)

def resumeRefreshSync (taggedOk : Option Text) (newWatermark : Nat) (dbKeywords : List Text)
    (res : ImapBackendResponse) : Handler := fun e =>
  let ok := taggedOk.toList.map say
  match e.selected with
  | none => (e, ok)
  | some view =>
    match res with
    | .sync _ changed =>
      let r := syncLines s e.enabled.condstore view.uids changed (some view.announcedKeywords)
      let delta := (changed.filter fun c => view.uids.contains c.uid).flatMap (·.flags)
      let k := syncKeywordList dbKeywords delta (r.1.getD view.announcedKeywords)
      let view := { view with lastSyncModseq := newWatermark, announcedKeywords := k.1 }
      ({ e with selected := some view }, r.2.map say ++ k.2.map say ++ ok)
    | _ =>
      let k := syncKeywordList dbKeywords [] view.announcedKeywords
      ({ e with selected := some { view with announcedKeywords := k.1 } }, k.2.map say ++ ok)

end

end Ionosphere.Imap
