import Ionosphere.Imap.Discipline

/-! Who may ask the backend for what. A request goes to the backend only in a session
somebody is logged in to, credentials go to the adapter only where the line allows it, and
a mailbox opened with EXAMINE is not written to. The engine knows no rights: SELECT opens a
mailbox for writing whatever the backend would allow. -/
namespace Ionosphere.Imap

open Ionosphere.Js Ionosphere.Core Ionosphere.Lib

variable {e : Engine} {r : Engine × List ImapAction} {a : ImapAction} {opened : Option Bool}
  {req : ImapBackendRequest} {k : Resume} {acts : List ImapAction} {began : Bool} {m : Move}

/-! ### Requests that write -/

def ImapBackendRequest.writes : ImapBackendRequest → Bool
  | .storeFlags .. => true
  | .expunge .. => true
  | .expungeMailbox _ => true
  | .moveMessages .. => true
  | .replaceMessage .. => true
  | .fetchMessages _ _ _ markSeen _ => markSeen
  | _ => false

def Resume.marksSeen : Resume → Bool
  | .fetch plan _ => plan.markSeen
  | .fetchVanished plan _ _ => plan.markSeen
  | _ => false

def Resume.opens : Resume → Option Bool
  | .select _ readWrite _ => some readWrite
  | _ => none

def writable (e : Engine) : Bool := e.selected.any (·.readWrite)

/-- An answer opens nothing, and asks for no change unless the view is writable. -/
def Answer.safe (a : Answer) (readWrite : Bool) : Bool :=
  match a.request with
  | none => true
  | some (req, k) =>
    k.opens.isNone && (readWrite || !req.writes && !k.marksSeen) && (!k.marksSeen || !a.leave)

theorem Answer.safe_mono {a : Answer} {rw rw' : Bool} (h : a.safe rw = true)
    (hle : rw = true → rw' = true) : a.safe rw' = true := by
  cases rw with
  | false =>
    unfold Answer.safe at h ⊢
    split
    · rfl
    · rename_i req k hrequest
      simp only [hrequest, Bool.false_or, Bool.and_eq_true] at h
      simp only [h.1.1, h.1.2.1, h.1.2.2, Bool.and_true, Bool.or_true, Bool.true_or]
  | true =>
    rw [hle rfl]
    exact h

@[simp] theorem lines_safe (texts : List Text) (rw : Bool) : (lines texts).safe rw = true := rfl

@[simp] theorem refuse_safe (tag rest : Text) (rw : Bool) : (refuse tag rest).safe rw = true := rfl

@[simp] theorem readOnly_safe (tag : Text) (rw : Bool) : (readOnly tag).safe rw = true := rfl

theorem call_harmless (hreq : req.writes = false)
    (hmarks : k.marksSeen = false) (hopens : k.opens = none) (rw : Bool) :
    (call req k).safe rw = true := by
  simp [Answer.safe, call, hreq, hmarks, hopens]

theorem call_allowed (hopens : k.opens = none) :
    (call req k).safe true = true := by
  simp [Answer.safe, call, hopens]

section

variable (s : Setup)

theorem requireAuth_safe {cmd : ParsedCommand} {fn : Answer} {rw : Bool}
    (h : fn.safe rw = true) : (requireAuth cmd e fn).safe rw = true := by
  unfold requireAuth
  split_ifs
  · rfl
  · exact h

theorem requireSelected_safe {cmd : ParsedCommand} {fn : SelectedView → Answer}
    (h : ∀ view, (fn view).safe view.readWrite = true) :
    (requireSelected cmd e fn).safe (writable e) = true := by
  unfold requireSelected
  split
  · rename_i view hstate hview
    rw [writable, hview]
    exact h view
  · rfl

theorem cmdGetQuota_safe (cmd : ParsedCommand) (verb : QuotaVerb) (rw : Bool) :
    (cmdGetQuota s cmd verb).safe rw = true := by
  unfold cmdGetQuota
  split
  · dsimp only
    split_ifs
    · rfl
    · exact call_harmless rfl rfl rfl rw
  · rfl

theorem statusListRequest_writes (items : List Text) : (statusListRequest items).writes = false :=
  rfl

theorem cmdList_safe (cmd : ParsedCommand) (verb : ListVerb) (rw : Bool) :
    (cmdList s cmd verb).safe rw = true := by
  unfold cmdList
  dsimp only
  split
  · rfl
  · split
    · split
      · rfl
      · split_ifs
        · rfl
        · split
          · exact call_harmless (statusListRequest_writes _) rfl rfl rw
          · exact call_harmless rfl rfl rfl rw
    · rfl

theorem cmdSimple_safe (cmd : ParsedCommand) (verb expects : Text)
    {req : Option ImapBackendRequest} (hreq : ∀ r ∈ req, r.writes = false) (rw : Bool) :
    (cmdSimple cmd verb expects req).safe rw = true := by
  unfold cmdSimple
  cases req with
  | none => rfl
  | some r => exact call_harmless (hreq r rfl) rfl rfl rw

theorem cmdSubscribe_safe (cmd : ParsedCommand) (verb : Text) (subscribed rw : Bool) :
    (cmdSubscribe s cmd verb subscribed).safe rw = true := by
  refine cmdSimple_safe cmd verb _ (fun r hr => ?_) rw
  split at hr
  · cases hr
    rfl
  · cases hr

theorem cmdSetAcl_safe (cmd : ParsedCommand) (rw : Bool) : (cmdSetAcl s cmd).safe rw = true := by
  refine cmdSimple_safe cmd _ _ (fun r hr => ?_) rw
  split at hr
  · cases hr
    rfl
  · cases hr

theorem cmdDeleteAcl_safe (cmd : ParsedCommand) (rw : Bool) :
    (cmdDeleteAcl s cmd).safe rw = true := by
  refine cmdSimple_safe cmd _ _ (fun r hr => ?_) rw
  split at hr
  · cases hr
    rfl
  · cases hr

theorem cmdCreate_safe (cmd : ParsedCommand) (rw : Bool) : (cmdCreate s cmd).safe rw = true := by
  unfold cmdCreate
  split
  · dsimp only
    split_ifs
    · rfl
    · exact call_harmless rfl rfl rfl rw
    · rfl
    · exact call_harmless rfl rfl rfl rw
  · rfl

theorem cmdDelete_safe (cmd : ParsedCommand) (rw : Bool) : (cmdDelete s cmd).safe rw = true := by
  unfold cmdDelete
  split
  · split_ifs
    · rfl
    · exact call_harmless rfl rfl rfl rw
  · rfl

theorem cmdRename_safe (cmd : ParsedCommand) (rw : Bool) : (cmdRename s cmd).safe rw = true := by
  unfold cmdRename
  split
  · split_ifs
    · rfl
    · exact call_harmless rfl rfl rfl rw
  · rfl

theorem cmdGetAcl_safe (cmd : ParsedCommand) (rw : Bool) : (cmdGetAcl s cmd).safe rw = true := by
  unfold cmdGetAcl
  split
  · exact call_harmless rfl rfl rfl rw
  · rfl

theorem cmdListRights_safe (cmd : ParsedCommand) (rw : Bool) :
    (cmdListRights s cmd).safe rw = true := by
  unfold cmdListRights
  split
  · exact call_harmless rfl rfl rfl rw
  · rfl

theorem cmdMyRights_safe (cmd : ParsedCommand) (rw : Bool) :
    (cmdMyRights s cmd).safe rw = true := by
  unfold cmdMyRights
  split
  · exact call_harmless rfl rfl rfl rw
  · rfl

theorem cmdStatus_safe (cmd : ParsedCommand) (rw : Bool) : (cmdStatus s cmd).safe rw = true := by
  unfold cmdStatus
  split
  · split
    · rfl
    · split_ifs
      · rfl
      · exact call_harmless (statusListRequest_writes _) rfl rfl rw
  · rfl

theorem cmdAppend_safe (cmd : ParsedCommand) (rw : Bool) : (cmdAppend s cmd).safe rw = true := by
  unfold cmdAppend
  split
  · rfl
  · split
    · rfl
    · rfl
    · exact call_harmless rfl rfl rfl rw

theorem cmdClose_safe (cmd : ParsedCommand) (view : SelectedView) :
    (cmdClose cmd view).safe view.readWrite = true := by
  unfold cmdClose
  split_ifs with hrw
  · simp [Answer.safe, call, hrw, Resume.opens, Resume.marksSeen]
  · rfl

theorem fetchFrom_safe (plan : FetchPlan) (offset : Nat) :
    (fetchFrom plan offset).safe plan.markSeen = true := by
  cases hmark : plan.markSeen with
  | false =>
    simp [fetchFrom, Answer.safe, call, ImapBackendRequest.writes, Resume.marksSeen, Resume.opens,
      hmark]
  | true => exact call_allowed rfl

theorem fetchAll_safe (plan : FetchPlan) : (fetchAll plan).safe plan.markSeen = true := by
  unfold fetchAll
  split_ifs
  · rfl
  · exact fetchFrom_safe plan 0

theorem fetchWith_safe (cmd : ParsedCommand) (uidMode : Bool) (view : SelectedView) (e : Engine)
    (ranges : List SeqRange) (items : List FetchItem) (mods : FetchModifiers) :
    (fetchWith cmd uidMode view e ranges items mods).safe view.readWrite = true := by
  unfold fetchWith
  dsimp only
  split
  · cases hrw : view.readWrite with
    | false => exact call_harmless rfl rfl rfl false
    | true => exact call_allowed rfl
  · refine Answer.safe_mono (fetchAll_safe _) fun hmark => ?_
    simp only [Bool.and_eq_true] at hmark
    exact hmark.1

theorem cmdFetch_safe (cmd : ParsedCommand) (uidMode : Bool) (view : SelectedView) (e : Engine) :
    (cmdFetch s cmd uidMode view e).safe view.readWrite = true := by
  unfold cmdFetch
  dsimp only
  split
  · split
    · exact fetchWith_safe cmd uidMode view e _ _ _
    · rfl
  · split
    · rfl
    · split
      · exact fetchWith_safe cmd uidMode view e _ _ _
      · rfl

theorem storeWith_safe (cmd : ParsedCommand) (uidMode : Bool) (view : SelectedView) (e : Engine)
    (unchangedSince : Option Nat) (args : List ImapValue) :
    (storeWith s cmd uidMode view e unchangedSince args).safe true = true := by
  unfold storeWith
  dsimp only
  split
  · split
    · rfl
    · split
      · rfl
      · split_ifs
        · rfl
        · exact call_allowed rfl
  · rfl

theorem cmdStore_safe (cmd : ParsedCommand) (uidMode : Bool) (view : SelectedView) (e : Engine) :
    (cmdStore s cmd uidMode view e).safe view.readWrite = true := by
  unfold cmdStore
  cases hrw : view.readWrite with
  | false => rfl
  | true =>
    simp only [Bool.not_true, Bool.false_eq_true, if_false]
    split
    · rfl
    · exact storeWith_safe s cmd uidMode view e _ _
    · exact storeWith_safe s cmd uidMode view e _ _

theorem searchProgramError_safe (tag verb : Text) (badCharset rw : Bool) :
    (searchProgramError tag verb badCharset).safe rw = true := by
  unfold searchProgramError
  split_ifs <;> rfl

theorem searchFrom_safe (plan : SearchPlan) (offset : Nat) (hits hitUids uids : List Nat)
    (rw : Bool) : (searchFrom plan offset hits hitUids uids).safe rw = true :=
  call_harmless rfl rfl rfl rw

theorem cmdSearch_safe (cmd : ParsedCommand) (uidMode : Bool) (view : SelectedView) (e : Engine)
    (rw : Bool) : (cmdSearch s cmd uidMode view e).safe rw = true := by
  unfold cmdSearch
  dsimp only
  split
  · rfl
  · split
    · exact searchProgramError_safe _ _ _ rw
    · split_ifs
      · rfl
      · exact searchFrom_safe _ _ _ _ _ rw

theorem sortThreadFrom_safe (plan : SearchPlan) (mode : SortOrThread) (offset : Nat)
    (hits : List SortItem) (sortMeta : List SortMeta) (uids : List Nat) (rw : Bool) :
    (sortThreadFrom plan mode offset hits sortMeta uids).safe rw = true :=
  call_harmless rfl rfl rfl rw

theorem cmdSortThread_safe (cmd : ParsedCommand) (uidMode : Bool) (verb : SortVerb)
    (view : SelectedView) (rw : Bool) :
    (cmdSortThread s cmd uidMode verb view).safe rw = true := by
  unfold cmdSortThread
  dsimp only
  split
  · rfl
  · split
    · rfl
    · split_ifs
      · rfl
      · split
        · exact searchProgramError_safe _ _ _ rw
        · rfl
      · split
        · exact searchProgramError_safe _ _ _ rw
        · exact sortThreadFrom_safe _ _ _ _ _ _ rw

theorem cmdReplace_safe (cmd : ParsedCommand) (uidMode : Bool) (view : SelectedView) (e : Engine) :
    (cmdReplace s cmd uidMode view e).safe view.readWrite = true := by
  unfold cmdReplace
  cases hrw : view.readWrite with
  | false => rfl
  | true =>
    simp only [Bool.not_true, Bool.false_eq_true, if_false]
    split
    · rfl
    · split
      · split
        · rfl
        · split
          · rfl
          · split_ifs
            · rfl
            · exact call_allowed rfl
      · rfl

theorem cmdCopyMove_safe (cmd : ParsedCommand) (uidMode : Bool) (op : CopyOp) (view : SelectedView)
    (e : Engine) : (cmdCopyMove s cmd uidMode op view e).safe view.readWrite = true := by
  unfold cmdCopyMove
  cases op with
  | copy =>
    simp only [reduceCtorEq, false_and, if_false, if_true]
    split
    · split_ifs
      · rfl
      · exact call_harmless rfl rfl rfl _
    · rfl
  | move =>
    cases hrw : view.readWrite with
    | false => rfl
    | true =>
      simp only [Bool.not_true, Bool.false_eq_true, and_false, if_false, reduceCtorEq]
      split
      · split_ifs
        · rfl
        · exact call_allowed rfl
      · rfl

theorem cmdExpunge_safe (cmd : ParsedCommand) (uidRanges : Option (List SeqRange))
    (view : SelectedView) (e : Engine) :
    (cmdExpunge cmd uidRanges view e).safe view.readWrite = true := by
  unfold cmdExpunge
  cases hrw : view.readWrite with
  | false => rfl
  | true =>
    simp only [Bool.not_true, Bool.false_eq_true, if_false]
    split_ifs
    · rfl
    · exact call_allowed rfl

theorem refreshSelected_safe (taggedOk : Option Text) (e : Engine) (rw : Bool) :
    (refreshSelected taggedOk e).safe rw = true := by
  unfold refreshSelected
  split
  · rfl
  · exact call_harmless rfl rfl rfl rw

theorem cmdUid_safe (cmd : ParsedCommand) (e : Engine) :
    (cmdUid s cmd e).safe (writable e) = true := by
  unfold cmdUid
  dsimp only
  split
  · exact requireSelected_safe fun view => cmdFetch_safe s _ _ view e
  · exact requireSelected_safe fun view => cmdStore_safe s _ _ view e
  · exact requireSelected_safe fun view => cmdSearch_safe s _ _ view e _
  · exact requireSelected_safe fun view => cmdSortThread_safe s _ _ _ view _
  · exact requireSelected_safe fun view => cmdSortThread_safe s _ _ _ view _
  · exact requireSelected_safe fun view => cmdCopyMove_safe s _ _ _ view e
  · exact requireSelected_safe fun view => cmdCopyMove_safe s _ _ _ view e
  · exact requireSelected_safe fun view => cmdReplace_safe s _ _ view e
  · split
    · rfl
    · exact requireSelected_safe fun view => cmdExpunge_safe _ _ view e
  · rfl

theorem ordinary_safe {verb : AnswerVerb} (hselect : verb ≠ .select) (hexamine : verb ≠ .examine)
    (cmd : ParsedCommand) (e : Engine) : (ordinary s verb cmd e).safe (writable e) = true := by
  have hrefresh : (if e.state = .selected ∧ e.selected.isSome then
      refreshSelected (some (noopText cmd)) e else lines [noopText cmd]).safe (writable e) = true := by
    split_ifs
    · exact refreshSelected_safe _ e _
    · rfl
  cases verb with
  | select => exact absurd rfl hselect
  | examine => exact absurd rfl hexamine
  | capability => rfl
  | noop => exact hrefresh
  | check => exact hrefresh
  | id => rfl
  | getquotaroot => exact requireAuth_safe (cmdGetQuota_safe s cmd _ _)
  | getquota => exact requireAuth_safe (cmdGetQuota_safe s cmd _ _)
  | setquota => exact requireAuth_safe rfl
  | «namespace» => exact requireAuth_safe rfl
  | list => exact requireAuth_safe (cmdList_safe s cmd _ _)
  | lsub => exact requireAuth_safe (cmdList_safe s cmd _ _)
  | subscribe => exact requireAuth_safe (cmdSubscribe_safe s cmd _ _ _)
  | unsubscribe => exact requireAuth_safe (cmdSubscribe_safe s cmd _ _ _)
  | create => exact requireAuth_safe (cmdCreate_safe s cmd _)
  | delete => exact requireAuth_safe (cmdDelete_safe s cmd _)
  | rename => exact requireAuth_safe (cmdRename_safe s cmd _)
  | getacl => exact requireAuth_safe (cmdGetAcl_safe s cmd _)
  | setacl => exact requireAuth_safe (cmdSetAcl_safe s cmd _)
  | deleteacl => exact requireAuth_safe (cmdDeleteAcl_safe s cmd _)
  | listrights => exact requireAuth_safe (cmdListRights_safe s cmd _)
  | myrights => exact requireAuth_safe (cmdMyRights_safe s cmd _)
  | status => exact requireAuth_safe (cmdStatus_safe s cmd _)
  | unselect => exact requireSelected_safe fun _ => rfl
  | close => exact requireSelected_safe fun view => cmdClose_safe cmd view
  | fetch => exact requireSelected_safe fun view => cmdFetch_safe s cmd _ view e
  | store => exact requireSelected_safe fun view => cmdStore_safe s cmd _ view e
  | search => exact requireSelected_safe fun view => cmdSearch_safe s cmd _ view e _
  | sort => exact requireSelected_safe fun view => cmdSortThread_safe s cmd _ _ view _
  | thread => exact requireSelected_safe fun view => cmdSortThread_safe s cmd _ _ view _
  | expunge => exact requireSelected_safe fun view => cmdExpunge_safe cmd _ view e
  | append => exact requireAuth_safe (cmdAppend_safe s cmd _)
  | replace => exact requireSelected_safe fun view => cmdReplace_safe s cmd _ view e
  | copy => exact requireSelected_safe fun view => cmdCopyMove_safe s cmd _ _ view e
  | move => exact requireSelected_safe fun view => cmdCopyMove_safe s cmd _ _ view e
  | uid => exact cmdUid_safe s cmd e

/-! ### What a handler may do -/

/-- The view keeps its mode or is given up; changes are asked for only where the view is
writable; what is registered opens nothing. -/
structure Guarded (e : Engine) (r : Engine × List ImapAction) : Prop where
  view : ∀ v', r.1.selected = some v' → ∃ v, e.selected = some v ∧ v'.readWrite = v.readWrite
  writes : ∀ req, .backend req ∈ r.2 → req.writes = true → writable e = true
  registers : ∀ k, r.1.pending = some (.backend k) →
    k.opens = none ∧ (k.marksSeen = true → writable r.1 = true)

def Unbacked (e : Engine) : Prop := ∀ k, e.pending ≠ some (.backend k)

theorem not_mem_backend (h : asked acts = []) (req : ImapBackendRequest) :
    .backend req ∉ acts := by
  intro hmem
  have hask := List.filter_eq_nil_iff.mp h _ hmem
  simp [ImapAction.asks] at hask

theorem Guarded.quiet (hview : r.1.selected = e.selected) (hunbacked : Unbacked r.1)
    (hacts : ∀ req, .backend req ∉ r.2) : Guarded e r := by
  refine ⟨fun v hv => ?_, fun req hreq => absurd hreq (hacts req), fun k hk => absurd hk (hunbacked k)⟩
  exact ⟨v, hview ▸ hv, rfl⟩

theorem Exchanged.not_mem_backend (h : Exchanged e began r) (req : ImapBackendRequest) :
    .backend req ∉ r.2 := by
  cases h with
  | same acts hacts => exact Imap.not_mem_backend hacts.asked req
  | client sasl acts hacts => exact Imap.not_mem_backend hacts.asked req
  | lookup => simp
  | verdict tag a ha hask =>
    intro hreq
    rw [← List.mem_singleton.mp hreq] at hask
    cases hask

theorem Exchanged.guarded (h : Exchanged e began r) (hunbacked : Unbacked e) : Guarded e r := by
  have hacts := h.not_mem_backend
  cases h with
  | same => exact .quiet rfl hunbacked hacts
  | client => exact .quiet rfl (by simp [Unbacked]) hacts
  | lookup => exact .quiet rfl (by simp [Unbacked]) hacts
  | verdict => exact .quiet rfl (by simp [Unbacked]) hacts

theorem session_selected (a : Answer) (e : Engine) :
    (a.session e).selected =
      if a.leave then none else e.selected.map (announce a.keywords) := by
  unfold Answer.session enableCondstore leaveSelected
  dsimp only
  split_ifs <;> rfl

theorem apply_selected (a : Answer) (e : Engine) :
    (a.apply e).1.selected = (a.session e).selected := by
  unfold Answer.apply
  split <;> rfl

theorem writable_session {a : Answer} (hleave : a.leave = false) (e : Engine) :
    (a.session e).selected.any (·.readWrite) = writable e := by
  rw [session_selected, hleave, writable]
  cases e.selected <;> rfl

theorem apply_view {a : Answer} {v' : SelectedView}
    (h : (a.apply e).1.selected = some v') :
    ∃ v, e.selected = some v ∧ v'.readWrite = v.readWrite := by
  rw [apply_selected, session_selected] at h
  split_ifs at h
  obtain ⟨v, hv, rfl⟩ := Option.map_eq_some_iff.mp h
  exact ⟨v, hv, rfl⟩

theorem mem_apply {a : Answer}
    (h : .backend req ∈ (a.apply e).2) : ∃ k, a.request = some (req, k) := by
  have houts := not_mem_backend (asked_outs a.outs) req
  unfold Answer.apply at h
  cases hreq : a.request with
  | none =>
    rw [hreq] at h
    exact absurd h houts
  | some p =>
    rw [hreq] at h
    obtain hmem | hmem := List.mem_append.mp h
    · exact absurd hmem houts
    · cases List.mem_singleton.mp hmem
      exact ⟨p.2, rfl⟩

theorem apply_guarded {a : Answer} (hsafe : a.safe (writable e) = true)
    (hunbacked : Unbacked e) : Guarded e (a.apply e) := by
  refine ⟨fun v hv => apply_view hv, fun req hreq hwrites => ?_, fun k hk => ?_⟩
  · obtain ⟨k, hk⟩ := mem_apply hreq
    by_contra hnot
    simp [Answer.safe, hk, hwrites, hnot] at hsafe
  · cases hreq : a.request with
    | none =>
      have hsame : (a.apply e).1.pending = e.pending := by
        simp only [Answer.apply, hreq, session_pending]
      rw [hsame] at hk
      exact absurd hk (hunbacked k)
    | some p =>
      have hreg : (a.apply e).1.pending = some (.backend p.2) := by
        simp only [Answer.apply, hreq, callBackend]
      rw [hreg] at hk
      cases hk
      simp only [Answer.safe, hreq, Bool.and_eq_true, Option.isNone_iff_eq_none] at hsafe
      refine ⟨hsafe.1.1, fun hmarks => ?_⟩
      have hleave : a.leave = false := by simpa [hmarks] using hsafe.2
      have hrw : writable e = true := by simpa [hmarks] using hsafe.1.2
      rw [writable, apply_selected, writable_session hleave, hrw]

theorem removalActions_view {removed : List Nat} {v' : SelectedView}
    (h : (removalActions removed e).1.selected = some v') :
    ∃ v, e.selected = some v ∧ v'.readWrite = v.readWrite := by
  unfold removalActions at h
  split at h
  · exact ⟨v', h, rfl⟩
  · rename_i view hview
    cases h
    exact ⟨view, hview, rfl⟩

theorem insertUids_readWrite (added : List Nat) (view : SelectedView) :
    (insertUids added view).1.readWrite = view.readWrite := by
  unfold insertUids
  split_ifs <;> rfl

theorem refreshView_readWrite (qresync : Bool) (uids : List Nat) (uidnext : Nat)
    (view : SelectedView) : (refreshView qresync uids uidnext view).1.readWrite = view.readWrite := by
  unfold refreshView
  exact insertUids_readWrite _ _

theorem Guarded.settled (hview : ∀ v', r.1.selected = some v' → ∃ v, e.selected = some v ∧
    v'.readWrite = v.readWrite)
    (hpending : r.1.pending = e.pending) (hunbacked : Unbacked e) (hasked : asked r.2 = []) :
    Guarded e r := by
  refine ⟨hview, fun req hreq => absurd hreq (not_mem_backend hasked req), fun k hk => ?_⟩
  rw [hpending] at hk
  exact absurd hk (hunbacked k)

theorem Guarded.sync {e e' : Engine}
    (hview : ∀ v', e'.selected = some v' → ∃ v, e.selected = some v ∧ v'.readWrite = v.readWrite)
    (hreq : req.writes = false) (hopens : k.opens = none) (hmarks : k.marksSeen = false)
    (hasked : asked acts = []) :
    Guarded e ({ e' with pending := some (.backend k) }, acts ++ [ImapAction.backend req]) := by
  refine ⟨hview, fun req' hmem hwrites => ?_, fun k' hk => ?_⟩
  · obtain hmem | hmem := List.mem_append.mp hmem
    · exact absurd hmem (not_mem_backend hasked req')
    · cases List.mem_singleton.mp hmem
      rw [hreq] at hwrites
      cases hwrites
  · cases hk
    exact ⟨hopens, fun h => by rw [hmarks] at h; cases h⟩

theorem fetchAnswer_safe (plan : FetchPlan) (offset : Nat) (e : Engine) (res : ImapBackendResponse) :
    (fetchAnswer s plan offset e res).safe plan.markSeen = true := by
  unfold fetchAnswer
  split
  · dsimp only
    split_ifs
    · rfl
    · exact fetchFrom_safe plan _
    · rfl
  · rfl

theorem fetchVanishedAnswer_safe (plan : FetchPlan) (requested : List SeqRange) (maxUid : Nat)
    (res : ImapBackendResponse) :
    (fetchVanishedAnswer plan requested maxUid res).safe plan.markSeen = true := by
  unfold fetchVanishedAnswer
  split
  · exact fetchAll_safe plan
  · rfl

theorem searchAnswer_safe (plan : SearchPlan) (offset : Nat) (batchUids hits hitUids : List Nat)
    (e : Engine) (res : ImapBackendResponse) (rw : Bool) :
    (searchAnswer s plan offset batchUids hits hitUids e res).safe rw = true := by
  unfold searchAnswer
  split
  · dsimp only
    by_cases hmore : offset + batchSize plan.needRaw < (viewUids e).length
    · rw [if_pos hmore]
      exact searchFrom_safe _ _ _ _ _ rw
    · rw [if_neg hmore]
      rfl
  · rfl

theorem sortThreadAnswer_safe (plan : SearchPlan) (mode : SortOrThread) (offset : Nat)
    (batchUids : List Nat) (hits : List SortItem) (sortMeta : List SortMeta) (e : Engine)
    (res : ImapBackendResponse) (rw : Bool) :
    (sortThreadAnswer s plan mode offset batchUids hits sortMeta e res).safe rw = true := by
  unfold sortThreadAnswer
  split
  · dsimp only
    by_cases hmore : offset + batchSize plan.needRaw < (viewUids e).length
    · rw [if_pos hmore]
      exact sortThreadFrom_safe _ _ _ _ _ _ rw
    · rw [if_neg hmore]
      rfl
  · rfl

section

variable (hunbacked : Unbacked e)

include hunbacked

theorem resumeAppend_guarded (tag name : Text)
    (res : ImapBackendResponse) : Guarded e (resumeAppend tag name res e) := by
  unfold resumeAppend
  split
  · split
    · exact .settled (fun v hv => ⟨v, hv, rfl⟩) rfl hunbacked (by simp)
    · rename_i view hview
      split_ifs
      · refine .settled (fun v hv => ?_) rfl hunbacked (by simp [asked_append])
        cases hv
        exact ⟨view, hview, insertUids_readWrite _ _⟩
      · exact .settled (fun v hv => ⟨v, hv, rfl⟩) rfl hunbacked (by simp)
  · exact .settled (fun v hv => ⟨v, hv, rfl⟩) rfl hunbacked (by simp)

theorem resumeReplace_guarded (tag verb dest : Text)
    (res : ImapBackendResponse) : Guarded e (resumeReplace tag verb dest res e) := by
  unfold resumeReplace
  split
  · split
    · exact .settled (fun v hv => ⟨v, hv, rfl⟩) rfl hunbacked (by simp)
    · rename_i view hview
      have hremoval := removalActions_requested
      dsimp only
      refine .settled (fun v hv => ?_) (hremoval _ _).1 hunbacked
        (by simp [asked_append, (hremoval _ _).2])
      obtain ⟨v₁, hv₁, hsame⟩ := removalActions_view hv
      cases hv₁
      refine ⟨view, hview, hsame.trans ?_⟩
      split_ifs
      · exact insertUids_readWrite _ _
      · rfl
  · exact .settled (fun v hv => ⟨v, hv, rfl⟩) rfl hunbacked (by simp)

theorem resumeCopyMove_guarded (tag verb : Text) (op : CopyOp)
    (res : ImapBackendResponse) : Guarded e (resumeCopyMove tag verb op res e) := by
  unfold resumeCopyMove
  split
  · cases op with
    | copy => exact .settled (fun v hv => ⟨v, hv, rfl⟩) rfl hunbacked (by simp)
    | move =>
      have hremoval := removalActions_requested
      exact .settled (fun v hv => removalActions_view hv) (hremoval _ _).1 hunbacked
        (by simp [asked_append, (hremoval _ _).2])
  · exact .settled (fun v hv => ⟨v, hv, rfl⟩) rfl hunbacked (by simp)

theorem resumeExpunge_guarded (tag verb : Text)
    (res : ImapBackendResponse) : Guarded e (resumeExpunge tag verb res e) := by
  unfold resumeExpunge
  split
  · have hremoval := removalActions_requested
    exact .settled (fun v hv => removalActions_view hv) (hremoval _ _).1 hunbacked
      (by simp [asked_append, (hremoval _ _).2])
  · exact .settled (fun v hv => ⟨v, hv, rfl⟩) rfl hunbacked (by simp)

theorem resumeRefresh_guarded (taggedOk : Option Text)
    (res : ImapBackendResponse) : Guarded e (resumeRefresh taggedOk res e) := by
  unfold resumeRefresh
  split
  · rename_i m uids first keywords view hview
    dsimp only
    split_ifs
    · refine .settled (fun v hv => ?_) rfl hunbacked (by simp [asked_append])
      cases hv
      exact ⟨view, hview, refreshView_readWrite _ _ _ _⟩
    · refine .sync (fun v hv => ?_) rfl rfl rfl (by simp)
      cases hv
      exact ⟨view, hview, refreshView_readWrite _ _ _ _⟩
  · exact .settled (fun v hv => ⟨v, hv, rfl⟩) rfl hunbacked (by simp)

theorem resumeRefreshSync_guarded (taggedOk : Option Text)
    (n : Nat) (dbKeywords : List Text) (res : ImapBackendResponse) :
    Guarded e (resumeRefreshSync s taggedOk n dbKeywords res e) := by
  unfold resumeRefreshSync
  dsimp only
  split
  · exact .settled (fun v hv => ⟨v, hv, rfl⟩) rfl hunbacked (by simp)
  · rename_i view hview
    split
    · refine .settled (fun v hv => ?_) rfl hunbacked (by simp [asked_append])
      cases hv
      exact ⟨view, hview, rfl⟩
    · refine .settled (fun v hv => ?_) rfl hunbacked (by simp [asked_append])
      cases hv
      exact ⟨view, hview, rfl⟩

theorem resume_guarded (hopens : k.opens = none)
    (hmarks : k.marksSeen = true → writable e = true)
    (res : ImapBackendResponse) : Guarded e (resume s k res e) := by
  cases k with
  | select tag readWrite q => cases hopens
  | append tag name => exact resumeAppend_guarded hunbacked tag name res
  | replace tag verb dest => exact resumeReplace_guarded hunbacked tag verb dest res
  | copyMove tag verb op => exact resumeCopyMove_guarded hunbacked tag verb op res
  | expunge tag verb => exact resumeExpunge_guarded hunbacked tag verb res
  | refresh taggedOk => exact resumeRefresh_guarded hunbacked taggedOk res
  | refreshSync taggedOk n kws => exact resumeRefreshSync_guarded s hunbacked taggedOk n kws res
  | fetch plan offset =>
    exact apply_guarded (Answer.safe_mono (fetchAnswer_safe s plan offset e res) hmarks) hunbacked
  | fetchVanished plan requested maxUid =>
    exact apply_guarded
      (Answer.safe_mono (fetchVanishedAnswer_safe plan requested maxUid res) hmarks) hunbacked
  | search plan offset batchUids hits hitUids =>
    exact apply_guarded (searchAnswer_safe s plan offset batchUids hits hitUids e res _) hunbacked
  | sortThread plan mode offset batchUids hits sortMeta =>
    exact apply_guarded (sortThreadAnswer_safe s plan mode offset batchUids hits sortMeta e res _)
      hunbacked
  | status tag name wanted =>
    refine apply_guarded ?_ hunbacked
    unfold statusAnswer
    split
    · split
      · rfl
      · split_ifs <;> rfl
    · rfl
  | _ =>
    refine apply_guarded ?_ hunbacked
    cases res <;> rfl

theorem resumeSelect_opened (tag : Text) (readWrite : Bool) (q : Option Qresync)
    (res : ImapBackendResponse) :
    (∀ v, (resumeSelect tag readWrite q res e).1.selected = some v →
        e.selected = some v ∨ v.readWrite = readWrite) ∧
      (∀ req, .backend req ∈ (resumeSelect tag readWrite q res e).2 → req.writes = false) ∧
      ∀ k, (resumeSelect tag readWrite q res e).1.pending = some (.backend k) →
        k.opens = none ∧ k.marksSeen = false := by
  unfold resumeSelect
  split
  · dsimp only
    split
    · refine ⟨fun v hv => ?_, fun req hreq => ?_, fun k hk => ?_⟩
      · cases hv
        exact .inr rfl
      · simp [say, callBackend] at hreq
        rw [hreq]
        rfl
      · cases hk
        exact ⟨rfl, rfl⟩
    · refine ⟨fun v hv => ?_, fun req hreq => ?_, fun k hk => absurd hk (hunbacked k)⟩
      · cases hv
        exact .inr rfl
      · simp [say] at hreq
  · refine ⟨fun v hv => .inl hv, fun req hreq => ?_, fun k hk => absurd hk (hunbacked k)⟩
    simp [say] at hreq

end

/-! ### Opening a mailbox -/

def ImapAction.isSelect : ImapAction → Bool
  | .backend (.selectMailbox _) => true
  | _ => false

def lineMode (parts : List LinePart) : Option Bool :=
  match parseCommand s.host.cases parts with
  | .error _ => none
  | .ok cmd =>
    match verbOf cmd.name with
    | some (.answer .select) => some true
    | some (.answer .examine) => some false
    | _ => none

def lineOpens (nonce : Text) (parts : List LinePart) (e : Engine) : Option Bool :=
  if (handleLine s nonce parts e).2.any ImapAction.isSelect then lineMode s parts else none

def Move.opens (e : Engine) : Move → Option Bool
  | .line nonce parts => lineOpens s nonce parts e
  | .dequeue nonce parts => lineOpens s nonce parts (unqueue parts e)
  | _ => none

/-- The mode of the last command that asked the backend to open a mailbox. -/
def openedBy (ms : List Moment) : Option Bool :=
  ms.foldl (fun mode m => (m.move.opens s m.state).or mode) none

theorem openedBy_snoc (ms : List Moment) (m : Moment) :
    openedBy s (ms ++ [m]) = (m.move.opens s m.state).or (openedBy s ms) := by
  simp [openedBy]

theorem cmdSelect_cases (cmd : ParsedCommand) (readWrite : Bool) (e : Engine) :
    (cmdSelect s cmd readWrite e).request = none ∨
      ∃ name q, (cmdSelect s cmd readWrite e).request =
          some (.selectMailbox name, .select cmd.tag readWrite q) ∧
        (cmdSelect s cmd readWrite e).leave = true := by
  unfold cmdSelect
  dsimp only
  split
  · exact .inl rfl
  · split
    · exact .inr ⟨_, _, rfl, rfl⟩
    · split
      · exact .inr ⟨_, _, rfl, rfl⟩
      · exact .inl rfl
    · exact .inl rfl
    · exact .inl rfl

/-- A line opens a mailbox, or is guarded. -/
inductive LineAccess (opened : Option Bool) (e : Engine) (r : Engine × List ImapAction) : Prop
  | guarded (hopened : opened = none) (h : Guarded e r)
  | opening {tag : Text} {readWrite : Bool} {q : Option Qresync} (hopened : opened = some readWrite)
      (hview : r.1.selected = none) (hpending : r.1.pending = some (.backend (.select tag readWrite q)))
      (hreq : ∀ req, .backend req ∈ r.2 → req.writes = false)

theorem isSelect_any (h : ∀ req, .backend req ∉ acts) :
    acts.any ImapAction.isSelect = false := by
  rw [List.any_eq_false]
  intro a ha
  cases a with
  | backend req => exact absurd ha (h req)
  | _ => simp [ImapAction.isSelect]

theorem LineAccess.quiet {nonce : Text} {parts : List LinePart}
    (hline : handleLine s nonce parts e = r) (h : Guarded e r)
    (hacts : ∀ req, .backend req ∉ r.2) : LineAccess (lineOpens s nonce parts e) e r := by
  refine .guarded ?_ h
  rw [lineOpens, hline, isSelect_any hacts]
  rfl

theorem select_access {nonce : Text} {parts : List LinePart} (hunbacked : Unbacked e)
    (cmd : ParsedCommand) {readWrite : Bool} (hmode : lineMode s parts = some readWrite)
    (hline : handleLine s nonce parts e =
      (requireAuth cmd e (cmdSelect s cmd readWrite e)).apply e) :
    LineAccess (lineOpens s nonce parts e) e (handleLine s nonce parts e) := by
  have hquiet : ∀ a : Answer, a.request = none → handleLine s nonce parts e = a.apply e →
      LineAccess (lineOpens s nonce parts e) e (handleLine s nonce parts e) := by
    intro a hnone heq
    have hsafe : a.safe (writable e) = true := by simp [Answer.safe, hnone]
    rw [heq]
    refine .quiet s heq (apply_guarded hsafe hunbacked) fun req hreq => ?_
    · obtain ⟨k, hk⟩ := mem_apply hreq
      rw [hnone] at hk
      cases hk
  unfold requireAuth at hline
  split_ifs at hline with hstate
  · exact hquiet _ rfl hline
  · obtain hnone | ⟨name, q, hreq, hleave⟩ := cmdSelect_cases s cmd readWrite e
    · exact hquiet _ hnone hline
    · have hacts : (handleLine s nonce parts e).2 =
          (cmdSelect s cmd readWrite e).outs.map Out.action ++ [ImapAction.backend (.selectMailbox name)] := by
        rw [hline, Answer.apply, hreq]
        rfl
      have hopened : lineOpens s nonce parts e = some readWrite := by
        rw [lineOpens, hacts, hmode]
        simp [ImapAction.isSelect]
      have hpending : (handleLine s nonce parts e).1.pending =
          some (.backend (.select cmd.tag readWrite q)) := by
        rw [hline, Answer.apply, hreq]
        rfl
      refine .opening hopened ?_ hpending fun req hmem => ?_
      · rw [hline, apply_selected, session_selected, hleave]
        rfl
      · rw [hline] at hmem
        obtain ⟨k, hk⟩ := mem_apply hmem
        rw [hreq] at hk
        cases hk
        rfl

theorem handleLine_access (nonce : Text) (parts : List LinePart)
    (hunbacked : Unbacked e) :
    LineAccess (lineOpens s nonce parts e) e (handleLine s nonce parts e) := by
  have hhandling := handleLine_handling s nonce parts e
  generalize hr : handleLine s nonce parts e = r at hhandling
  cases hhandling with
  | @idle tag hidle =>
    have hacts : ∀ req, ImapAction.backend req ∉ [endIdle s tag parts] := by
      intro req hreq
      simp only [endIdle] at hreq
      split_ifs at hreq <;> simp [say] at hreq
    exact .quiet s hr (.quiet rfl hunbacked hacts) hacts
  | @sasl sasl hidle hpending =>
    have hexchange := handleSaslData_exchanged s nonce sasl (soleText parts)
      { e with pending := none }
    have hguard := hexchange.guarded (by simp [Unbacked])
    exact .quiet s hr ⟨hguard.view, hguard.writes, hguard.registers⟩ hexchange.not_mem_backend
  | refused hidle hpending hnone =>
    exact .quiet s hr (.quiet rfl hunbacked (by simp [say])) (by simp [say])
  | @command cmd verb hidle hpending hparse hverb =>
    cases verb with
    | session v =>
      obtain ⟨-, htalk⟩ | rfl | rfl | ⟨rfl, -, hup, hreplies⟩ := sessionCommand_cases s nonce v cmd e
      · have hacts := Imap.not_mem_backend htalk.replies.asked
        have hunbacked' : Unbacked (sessionCommand s nonce cmd v e).1 := by
          intro k hk
          exact hunbacked k (htalk.pending ▸ hk)
        exact .quiet s hr (.quiet htalk.selected hunbacked' hacts) hacts
      · have hexchange := cmdLogin_exchanged s cmd e
        exact .quiet s hr (hexchange.guarded hunbacked) hexchange.not_mem_backend
      · have hexchange := cmdAuthenticate_exchanged s nonce cmd e
        exact .quiet s hr (hexchange.guarded hunbacked) hexchange.not_mem_backend
      · have hacts := Imap.not_mem_backend hreplies.asked
        have hview : (sessionCommand s nonce cmd .starttls e).1.selected = e.selected := by
          rw [hup]
          rfl
        have hunbacked' : Unbacked (sessionCommand s nonce cmd .starttls e).1 := by
          rw [hup]
          exact hunbacked
        exact .quiet s hr (.quiet hview hunbacked' hacts) hacts
    | answer v =>
      by_cases hselect : v = .select
      · have hmode : lineMode s parts = some true := by simp [lineMode, hparse, hverb, hselect]
        rw [← hr]
        refine select_access s hunbacked cmd hmode ?_
        rw [hr, hselect]
        rfl
      · by_cases hexamine : v = .examine
        · have hmode : lineMode s parts = some false := by
            simp [lineMode, hparse, hverb, hexamine]
          rw [← hr]
          refine select_access s hunbacked cmd hmode ?_
          rw [hr, hexamine]
          rfl
        · have hmode : lineMode s parts = none := by
            unfold lineMode
            rw [hparse]
            dsimp only
            rw [hverb]
            cases v <;> simp_all
          refine .guarded ?_ (apply_guarded (ordinary_safe s hselect hexamine cmd e) hunbacked)
          rw [lineOpens, hmode, ite_self]

/-! ### Whole runs -/

/-- The view, and the one that is being opened, have the mode of the last SELECT or EXAMINE;
messages are marked as seen only in a writable view. -/
structure Access (opened : Option Bool) (e : Engine) : Prop where
  view : ∀ v, e.selected = some v → opened = some v.readWrite
  opening : ∀ k readWrite, e.pending = some (.backend k) → k.opens = some readWrite →
    opened = some readWrite
  marks : ∀ k, e.pending = some (.backend k) → k.marksSeen = true → writable e = true

theorem Access.congr {e e' : Engine} (h : Access opened e)
    (hview : e'.selected = e.selected) (hpending : e'.pending = e.pending) : Access opened e' := by
  refine ⟨fun v hv => h.view v (hview ▸ hv), fun k rw hk => h.opening k rw (hpending ▸ hk),
    fun k hk hmarks => ?_⟩
  rw [writable, hview]
  exact h.marks k (hpending ▸ hk) hmarks

theorem Access.guarded (h : Access opened e) (hguard : Guarded e r) : Access opened r.1 := by
  refine ⟨fun v hv => ?_, fun k rw hk hopens => ?_, fun k hk => (hguard.registers k hk).2⟩
  · obtain ⟨v₀, hv₀, hsame⟩ := hguard.view v hv
    rw [hsame]
    exact h.view v₀ hv₀
  · rw [(hguard.registers k hk).1] at hopens
    cases hopens

theorem Access.unpend (h : Access opened e) :
    Access opened { e with pending := none } :=
  ⟨h.view, by simp, by simp⟩

theorem LineAccess.access {opened mode : Option Bool} (hline : LineAccess opened e r)
    (h : Access mode e) :
    Access (opened.or mode) r.1 := by
  cases hline with
  | guarded hopened hguard =>
    rw [hopened]
    exact h.guarded hguard
  | @opening tag readWrite q hopened hview hpending hreq =>
    rw [hopened]
    refine ⟨fun v hv => ?_, fun k rw hk hopens => ?_, fun k hk hmarks => ?_⟩
    · rw [hview] at hv
      cases hv
    · rw [hpending] at hk
      cases hk
      exact hopens
    · rw [hpending] at hk
      cases hk
      cases hmarks

theorem Access.writable (h : Access opened e)
    (hrw : Imap.writable e = true) : opened = some true := by
  obtain ⟨v, hv, hw⟩ := (Option.any_eq_true _ _).mp hrw
  rw [h.view v hv, hw]

theorem LineAccess.writes {opened mode : Option Bool}
    (hline : LineAccess opened e r) (h : Access mode e)
    (hreq : .backend req ∈ r.2) (hwrites : req.writes = true) : mode = some true := by
  cases hline with
  | guarded hopened hguard => exact h.writable (hguard.writes req hreq hwrites)
  | opening hopened hview hpending hnot =>
    rw [hnot req hreq] at hwrites
    cases hwrites

theorem unbacked_of_queues (h : queues e = false) : Unbacked e := by
  intro k hk
  simp [queues, hk] at h

theorem unbacked_of_none (h : e.pending = none) : Unbacked e := by
  intro k hk
  rw [h] at hk
  cases hk

theorem act_access {mode : Option Bool} (hallowed : m.Allowed e)
    (h : Access mode e) :
    Access ((m.opens s e).or mode) (m.act s e).1 ∧
      ∀ req, .backend req ∈ (m.act s e).2 → req.writes = true → mode = some true := by
  cases m with
  | greeting => exact ⟨h, by simp [Move.act, greeting, say]⟩
  | read chunk => exact ⟨h.congr rfl rfl, by simp [Move.act]⟩
  | tell text => exact ⟨h, by simp [Move.act, say]⟩
  | line nonce parts =>
    have hline := handleLine_access s nonce parts (unbacked_of_queues hallowed.2)
    exact ⟨hline.access h, fun req hreq hwrites => hline.writes h hreq hwrites⟩
  | enqueue parts =>
    simp only [Move.act, enqueue]
    split_ifs
    · exact ⟨h.congr rfl rfl, by simp [say]⟩
    · exact ⟨h.congr rfl rfl, by simp⟩
  | dequeue nonce parts =>
    have hunqueued : Access mode (unqueue parts e) := h.congr rfl rfl
    have hnone : (unqueue parts e).pending = none := hallowed.2.1
    have hline := handleLine_access s nonce parts (unbacked_of_none hnone)
    exact ⟨hline.access hunqueued, fun req hreq hwrites => hline.writes hunqueued hreq hwrites⟩
  | settle =>
    simp only [Move.act, settleQueue]
    split_ifs
    · exact ⟨h.congr rfl rfl, by simp⟩
    · exact ⟨h, by simp⟩
  | backendResult res =>
    obtain ⟨k, hk⟩ := hallowed
    have hfree : Unbacked { e with pending := none } := by simp [Unbacked]
    simp only [Move.act, hk]
    cases hopens : k.opens with
    | none =>
      have hmarks : k.marksSeen = true → writable { e with pending := none } = true := h.marks k hk
      have hguard := resume_guarded s hfree hopens hmarks res
      exact ⟨h.unpend.guarded hguard,
        fun req hreq hwrites => h.unpend.writable (hguard.writes req hreq hwrites)⟩
    | some readWrite =>
      have hmode := h.opening k readWrite hk hopens
      cases k with
      | select tag readWrite' q =>
        cases hopens
        obtain ⟨hview, hreq, hreg⟩ := resumeSelect_opened hfree tag readWrite q res
        refine ⟨⟨fun v hv => ?_, fun k rw hk hopens => ?_, fun k hk hmarks => ?_⟩,
          fun req hmem hwrites => ?_⟩
        · obtain hold | hnew := hview v hv
          · exact h.view v hold
          · rw [hnew]
            exact hmode
        · rw [(hreg k hk).1] at hopens
          cases hopens
        · rw [(hreg k hk).2] at hmarks
          cases hmarks
        · rw [hreq req hmem] at hwrites
          cases hwrites
      | _ => cases hopens
  | scramKeysResult keys =>
    obtain ⟨tag, session, stage, username, hp⟩ := hallowed
    simp only [Move.act, scramKeysResult, hp]
    split
    · exact ⟨⟨h.view, by simp, by simp⟩, by simp [say]⟩
    · refine ⟨h.unpend, fun req hreq => ?_⟩
      exact absurd hreq (not_mem_backend (scramRejected_repliesOnly tag _).asked req)
  | authResult ok =>
    obtain ⟨tag, hp⟩ := hallowed
    simp only [Move.act, hp, authAnswered]
    split_ifs
    · exact ⟨⟨h.view, by simp, by simp⟩, by simp [say]⟩
    · exact ⟨h.unpend, by simp [say]⟩
  | tlsEstablished => exact ⟨h.congr rfl rfl, by simp [Move.act]⟩
  | idleTick =>
    simp only [Move.act, idleTick]
    split_ifs with hskip
    · exact ⟨h, by simp⟩
    · have hnone : e.pending = none := by
        cases hp : e.pending with
        | none => rfl
        | some p => simp [hp] at hskip
      have hguard := apply_guarded (refreshSelected_safe none e (writable e)) (unbacked_of_none hnone)
      exact ⟨h.guarded hguard, fun req hreq hwrites => h.writable (hguard.writes req hreq hwrites)⟩

theorem Exchanged.state (h : Exchanged e began r) : r.1.state = e.state := by
  cases h <;> rfl

theorem act_state (hallowed : m.Allowed e) (hsound : Sound s e)
    (hbefore : e.state = .notAuthenticated) (hafter : (m.act s e).1.state ≠ .notAuthenticated) :
    m = .authResult true := by
  have hline : ∀ nonce parts (e' : Engine), e'.state = .notAuthenticated →
      (handleLine s nonce parts e').1.state = .notAuthenticated := by
    intro nonce parts e' hstate
    cases handleLine_effect s nonce parts e' with
    | talk _ _ hsame => exact hsame.trans hstate
    | sasl _ hexchange => exact hexchange.state.trans hstate
    | begins _ _ _ _ hexchange => exact hexchange.state.trans hstate
    | command _ hauth => exact absurd hstate hauth
  cases m with
  | line nonce parts => exact absurd (hline nonce parts e hbefore) hafter
  | dequeue nonce parts => exact absurd (hline nonce parts (unqueue parts e) hbefore) hafter
  | enqueue parts =>
    simp only [Move.act, enqueue] at hafter
    split_ifs at hafter <;> exact absurd hbefore hafter
  | settle =>
    simp only [Move.act, settleQueue] at hafter
    split_ifs at hafter <;> exact absurd hbefore hafter
  | backendResult res =>
    obtain ⟨k, hk⟩ := hallowed
    exact absurd hbefore (hsound.backend k hk)
  | scramKeysResult keys =>
    obtain ⟨tag, session, stage, username, hp⟩ := hallowed
    simp only [Move.act, scramKeysResult, hp] at hafter
    split at hafter <;> exact absurd hbefore hafter
  | authResult ok =>
    obtain ⟨tag, hp⟩ := hallowed
    cases ok with
    | true => rfl
    | false =>
      simp only [Move.act, hp, authAnswered, Bool.false_eq_true, if_false] at hafter
      exact absurd hbefore hafter
  | idleTick =>
    simp only [Move.act, idleTick, hbefore] at hafter
    simp at hafter
    exact absurd hbefore hafter
  | _ => exact absurd hbefore hafter

theorem asks_of_asked (h : asked acts = [])
    (ha : a ∈ acts) : a.asks = none := by
  simpa using List.filter_eq_nil_iff.mp h a ha

theorem Requested.asks (h : Requested e r) (ha : a ∈ r.2) : a.asks = none ∨ a.asks = some .backend := by
  cases hask : a.asks with
  | none => exact .inl rfl
  | some k =>
    have hmem : a ∈ asked r.2 := List.mem_filter.mpr ⟨ha, by simp [hask]⟩
    cases h with
    | nothing hpending hasked => simp [hasked] at hmem
    | backend req k hpending hasked =>
      rw [hasked] at hmem
      rw [List.mem_singleton.mp hmem] at hask
      exact .inr hask.symm

theorem Exchanged.asks (h : Exchanged e began r) (ha : a ∈ r.2) : a.asks ≠ some .backend := by
  cases h with
  | same acts hacts => simp [asks_of_asked hacts.asked ha]
  | client sasl acts hacts => simp [asks_of_asked hacts.asked ha]
  | lookup =>
    rw [List.mem_singleton.mp ha]
    simp [ImapAction.asks]
  | verdict tag b hb hask =>
    rw [List.mem_singleton.mp ha, hask]
    simp

/-- A request is made of the backend where somebody is logged in, and of the adapter where
the line allows a login. -/
inductive AskedBy (e : Engine) (a : ImapAction) : Prop
  | nothing (hask : a.asks = none)
  | session (hask : a.asks = some .backend) (hauth : e.state ≠ .notAuthenticated)
  | credentials (hask : a.asks ≠ some .backend) (hallowed : authAllowed s e = true)

variable {s} in
theorem Requested.askedBy {e e₀ : Engine} (h : Requested e₀ r)
    (hauth : e.state ≠ .notAuthenticated) (ha : a ∈ r.2) : AskedBy s e a :=
  (h.asks ha).elim .nothing fun hask => .session hask hauth

theorem handleLine_asks (hsound : Sound s e) (nonce : Text) (parts : List LinePart)
    (ha : a ∈ (handleLine s nonce parts e).2) : AskedBy s e a := by
  cases handleLine_effect s nonce parts e with
  | talk _ _ _ _ hasked => exact .nothing (asks_of_asked hasked ha)
  | sasl hpending hexchange =>
    exact .credentials (hexchange.asks ha) (hsound.exchange _ hpending rfl).2
  | begins _ _ _ hallowed hexchange => exact .credentials (hexchange.asks ha) hallowed
  | command _ hauth _ _ hrequested => exact hrequested.askedBy hauth ha

theorem act_asks (hallowed : m.Allowed e) (hsound : Sound s e) (ha : a ∈ (m.act s e).2) :
    AskedBy s e a := by
  cases m with
  | greeting => exact .nothing (asks_of_asked rfl ha)
  | read chunk => exact .nothing (asks_of_asked rfl ha)
  | tell text => exact .nothing (asks_of_asked rfl ha)
  | line nonce parts => exact handleLine_asks s hsound nonce parts ha
  | enqueue parts =>
    simp only [Move.act, enqueue] at ha
    split_ifs at ha <;> exact .nothing (asks_of_asked rfl ha)
  | dequeue nonce parts =>
    have hunqueued : Sound s (unqueue parts e) := hsound.congr rfl rfl rfl
    cases handleLine_asks s hunqueued nonce parts ha with
    | nothing hask => exact .nothing hask
    | session hask hauth => exact .session hask hauth
    | credentials hask hallow => exact .credentials hask hallow
  | settle => exact .nothing (asks_of_asked rfl ha)
  | backendResult res =>
    obtain ⟨k, hk⟩ := hallowed
    simp only [Move.act, hk] at ha
    exact (resume_requested s k res _).askedBy (hsound.backend k hk) ha
  | scramKeysResult keys =>
    obtain ⟨tag, session, stage, username, hp⟩ := hallowed
    simp only [Move.act, scramKeysResult, hp] at ha
    split at ha
    · exact .nothing (asks_of_asked rfl ha)
    · exact .nothing (asks_of_asked (scramRejected_repliesOnly tag _).asked ha)
  | authResult ok =>
    obtain ⟨tag, hp⟩ := hallowed
    simp only [Move.act, hp, authAnswered] at ha
    split_ifs at ha <;> exact .nothing (asks_of_asked rfl ha)
  | tlsEstablished => exact .nothing (asks_of_asked rfl ha)
  | idleTick =>
    simp only [Move.act, idleTick] at ha
    split_ifs at ha with hskip
    · exact .nothing (asks_of_asked rfl ha)
    · have hauth : e.state ≠ .notAuthenticated := by
        intro hstate
        simp [hstate] at hskip
      exact (apply_requested _ e).askedBy hauth ha

/-- What is known of a session at a moment: its requests, its logins, its mailbox. -/
structure Known (past : List Moment) (e : Engine) : Prop where
  sound : Sound s e
  login : e.state ≠ .notAuthenticated → ∃ n ∈ past, n.move = .authResult true
  access : Access (openedBy s past) e

theorem history_known {ms : List Moment}
    (h : History s (newEngine s s.options.secure) ms e) : Known s ms e := by
  refine Trace.Linked.history (P := Known s) h ?_ fun past m hm hallowed hpast => ?_
  · exact ⟨.idle rfl, fun hauth => absurd rfl hauth, by simp [newEngine], by simp [newEngine],
      by simp [newEngine]⟩
  · refine ⟨act_sound s hallowed hpast.sound, fun hafter => ?_, ?_⟩
    · by_cases hbefore : m.state.state = .notAuthenticated
      · exact ⟨m, by simp, act_state s hallowed hpast.sound hbefore hafter⟩
      · obtain ⟨n, hn, hmove⟩ := hpast.login hbefore
        exact ⟨n, List.mem_append_left _ hn, hmove⟩
    · rw [openedBy_snoc]
      exact (act_access s hallowed hpast.access).1

/-- The gates a move goes through, after the moves before it. -/
structure Gated (past : List Moment) (m : Moment) : Prop where
  authenticated : ∀ req, .backend req ∈ (m.move.act s m.state).2 →
    ∃ n ∈ past, n.move = .authResult true
  allowed : ∀ a ∈ (m.move.act s m.state).2, a.asks = some .auth ∨ a.asks = some .scramKeys →
    m.state.secure = true ∨ s.options.allowInsecureAuth = true
  readOnly : openedBy s past = some false →
    ∀ req, .backend req ∈ (m.move.act s m.state).2 → req.writes = false

theorem Known.gated {past : List Moment} {m : Moment} (h : Known s past m.state)
    (hallowed : m.move.Allowed m.state) : Gated s past m := by
  refine ⟨fun req hreq => ?_, fun a ha hask => ?_, fun hopened req hreq => ?_⟩
  · cases act_asks s hallowed h.sound hreq with
    | nothing hask => cases hask
    | session hask hauth => exact h.login hauth
    | credentials hask hallow => exact absurd rfl hask
  · cases act_asks s hallowed h.sound ha with
    | nothing hnone => simp [hnone] at hask
    | session hback => simp [hback] at hask
    | credentials _ hallow => simpa [authAllowed] using hallow
  · by_contra hwrites
    have hmode := (act_access s hallowed h.access).2 req hreq (by simpa using hwrites)
    rw [hopened] at hmode
    cases hmode

end

/-- Every action of a run goes through the gates: the backend is asked for something only
after a login succeeded, credentials and SCRAM keys are passed on only where the line is
secure or need not be, and once EXAMINE opened the mailbox nothing is asked that changes
it. -/
theorem session_gating (s : Setup) (is : List Input) (e : Engine) (acts : List (List ImapAction))
    (hrun : run s (newEngine s s.options.secure) is = some (e, acts)) :
    Trace.outputs (Move.act s) (runMoments s (newEngine s s.options.secure) is) = acts.flatten ∧
      ∀ past (m : Moment) rest,
        runMoments s (newEngine s s.options.secure) is = past ++ m :: rest → Gated s past m := by
  obtain ⟨hhistory, hout⟩ := run_history s hrun
  refine ⟨hout, fun past m rest hsplit => ?_⟩
  rw [hsplit] at hhistory
  obtain ⟨e', hfirst, hlast⟩ := hhistory.split
  cases hlast with
  | cons hallowed hrest => exact (history_known s hfirst).gated s hallowed

def grantsReadOnly (name : Text) (ms : List Moment) : Bool :=
  ms.any fun n =>
    match n.move with
    | .backendResult (.rights mailbox _ rights) =>
      mailbox = name && rights.all fun c => c = 'l' || c = 'r'
    | _ => false

def ImapAction.writes : ImapAction → Bool
  | .backend req => req.writes
  | _ => false

/-- A login, MYRIGHTS with the answer `lr`, and STORE in the mailbox opened by `verb`. -/
def storeRun (verb : Text) : List Input :=
  [⟨.feed (wireToBytes "a LOGIN u p\r\n"), fun _ => []⟩, ⟨.authResult true, fun _ => []⟩,
    ⟨.feed (wireToBytes "b MYRIGHTS x\r\n"), fun _ => []⟩,
    ⟨.backendResult (.rights "x" "u" "lr"), fun _ => []⟩,
    ⟨.feed (wireToBytes ("c " ++ verb ++ " x\r\n")), fun _ => []⟩,
    ⟨.backendResult (.selected ⟨"x", none, none, 1, 2, 1, 1, 0, 0, none, none, none, none⟩ [1] none []),
      fun _ => []⟩,
    ⟨.feed (wireToBytes "d STORE 1 +FLAGS (\\Seen)\r\n"), fun _ => []⟩]

/-- SELECT of a mailbox the user may only read opens it for writing, and STORE is sent on. -/
theorem session_gating_fails :
    ¬ ∀ (s : Setup) (is : List Input) (e : Engine) (acts : List (List ImapAction)),
      run s (newEngine s s.options.secure) is = some (e, acts) →
        ∀ past (m : Moment) rest,
          runMoments s (newEngine s s.options.secure) is = past ++ m :: rest →
          ∀ view, m.state.selected = some view →
            openedBy s past = some false ∨ grantsReadOnly view.name past = true →
              ∀ req, .backend req ∈ (m.move.act s m.state).2 → req.writes = false := by
  intro h
  have hsome : (run bareSetup (newEngine bareSetup false) (storeRun "SELECT")).isSome = true := by
    decide +kernel
  obtain ⟨⟨e, acts⟩, hrun⟩ := Option.isSome_iff_exists.mp hsome
  have hlast := h bareSetup (storeRun "SELECT") e acts hrun
    (runMoments bareSetup (newEngine bareSetup false) (storeRun "SELECT")).dropLast
  have hmoments : (runMoments bareSetup (newEngine bareSetup false) (storeRun "SELECT")).getLast?.any
      (fun m =>
        m.state.selected.any (fun view => grantsReadOnly view.name
          (runMoments bareSetup (newEngine bareSetup false) (storeRun "SELECT")).dropLast) &&
        (m.move.act bareSetup m.state).2.any ImapAction.writes) = true := by
    decide +kernel
  obtain ⟨m, hm, hboth⟩ := (Option.any_eq_true _ _).mp hmoments
  rw [Bool.and_eq_true] at hboth
  obtain ⟨view, hview, hright⟩ := (Option.any_eq_true _ _).mp hboth.1
  obtain ⟨a, ha, hwrites⟩ := List.any_eq_true.mp hboth.2
  cases a with
  | backend req =>
    have hsplit := List.dropLast_append_getLast? m hm
    have hreads := hlast m [] hsplit.symm view hview (.inr hright) req ha
    rw [ImapAction.writes, hreads] at hwrites
    cases hwrites
  | _ => cases hwrites

theorem session_gating_examine :
    ∃ e acts, run bareSetup (newEngine bareSetup false) (storeRun "EXAMINE") = some (e, acts) ∧
      Trace.outputs (Move.act bareSetup)
          (runMoments bareSetup (newEngine bareSetup false) (storeRun "EXAMINE")) = acts.flatten ∧
      ∀ past m rest,
        runMoments bareSetup (newEngine bareSetup false) (storeRun "EXAMINE") = past ++ m :: rest →
          Gated bareSetup past m := by
  have hsome : (run bareSetup (newEngine bareSetup false) (storeRun "EXAMINE")).isSome = true := by
    decide +kernel
  obtain ⟨⟨e, acts⟩, hrun⟩ := Option.isSome_iff_exists.mp hsome
  exact ⟨e, acts, hrun, session_gating bareSetup (storeRun "EXAMINE") e acts hrun⟩

end Ionosphere.Imap
