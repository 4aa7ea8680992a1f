import Ionosphere.Imap.SequenceSet

/-! Mailbox names: the INBOX rule, LIST references, quoting, special-use
attributes. -/
namespace Ionosphere.Imap

open Ionosphere.Js

def hierarchyDelimiter : Char := '/'

/-- Only the first segment is compared with `INBOX`. -/
def normalizeMailboxName (u : CaseMap) (name : Text) : Text :=
  match name.splitOn hierarchyDelimiter with
  | [] => []
  | seg :: segs =>
    join [hierarchyDelimiter]
      ((if seg ≠ [] ∧ toUpperCase u seg = "INBOX".toList then "INBOX".toList else seg) :: segs)

def joinListPattern (ref pattern : Text) : Text :=
  if ref = [] then pattern
  else if ref.getLast? = some hierarchyDelimiter then ref ++ pattern
  else ref ++ [hierarchyDelimiter] ++ pattern

def quoteMailboxName (name : Text) : Text :=
  ['"'] ++ name.flatMap (fun c => if c = '\\' ∨ c = '"' then ['\\', c] else [c]) ++ ['"']

def roleAttrs : List (Text × Text) :=
  [("sent".toList, "\\Sent".toList), ("trash".toList, "\\Trash".toList),
    ("junk".toList, "\\Junk".toList), ("drafts".toList, "\\Drafts".toList),
    ("archive".toList, "\\Archive".toList)]

def roleToAttribute (u : CaseMap) (role : Option Text) : Option Text :=
  match role with
  | none => none
  | some r => if r = [] then none else roleAttrs.lookup (toLowerCase u r)

def ancestors (name : Text) : List Text :=
  let segs := name.splitOn hierarchyDelimiter
  (List.range (segs.length - 1)).map fun i => join [hierarchyDelimiter] (segs.take (i + 1))

end Ionosphere.Imap
