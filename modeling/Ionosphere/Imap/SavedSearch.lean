import Ionosphere.Imap.Discipline
import Ionosphere.Imap.RangeSets
import Ionosphere.Imap.SearchRun

/-! The saved search `$`. It is kept as uids and read where it is used, so what happens to
the view in between only takes from it the messages that are gone. -/
namespace Ionosphere.Imap

open Ionosphere.Js Ionosphere.Core Ionosphere.Lib

variable {e : Engine}

def Resume.isSearch : Resume → Bool
  | .search _ _ _ _ _ => true
  | _ => false

def Answer.keepsSearch (a : Answer) : Bool :=
  a.saved.isNone && a.request.all fun p => !p.2.isSearch

section

variable (s : Setup)

theorem requireAuth_keeps {cmd : ParsedCommand} {fn : Answer}
    (h : fn.keepsSearch = true) : (requireAuth cmd e fn).keepsSearch = true := by
  unfold requireAuth
  split_ifs
  · rfl
  · exact h

theorem requireSelected_keeps {cmd : ParsedCommand} {fn : SelectedView → Answer}
    (h : ∀ view, (fn view).keepsSearch = true) :
    (requireSelected cmd e fn).keepsSearch = true := by
  unfold requireSelected
  split
  · exact h _
  · rfl

theorem cmdGetQuota_keeps (cmd : ParsedCommand) (verb : QuotaVerb) :
    (cmdGetQuota s cmd verb).keepsSearch = true := by
  unfold cmdGetQuota
  dsimp only
  repeat' split
  all_goals rfl

theorem cmdList_keeps (cmd : ParsedCommand) (verb : ListVerb) :
    (cmdList s cmd verb).keepsSearch = true := by
  unfold cmdList
  dsimp only
  repeat' split
  all_goals rfl

theorem cmdSubscribe_keeps (cmd : ParsedCommand) (verb : Text) (subscribed : Bool) :
    (cmdSubscribe s cmd verb subscribed).keepsSearch = true := by
  unfold cmdSubscribe cmdSimple
  repeat' split
  all_goals rfl

theorem cmdCreate_keeps (cmd : ParsedCommand) :
    (cmdCreate s cmd).keepsSearch = true := by
  unfold cmdCreate
  dsimp only
  repeat' split
  all_goals rfl

theorem cmdDelete_keeps (cmd : ParsedCommand) :
    (cmdDelete s cmd).keepsSearch = true := by
  unfold cmdDelete
  repeat' split
  all_goals rfl

theorem cmdRename_keeps (cmd : ParsedCommand) :
    (cmdRename s cmd).keepsSearch = true := by
  unfold cmdRename
  repeat' split
  all_goals rfl

theorem cmdSetAcl_keeps (cmd : ParsedCommand) :
    (cmdSetAcl s cmd).keepsSearch = true := by
  unfold cmdSetAcl cmdSimple
  repeat' split
  all_goals rfl

theorem cmdDeleteAcl_keeps (cmd : ParsedCommand) :
    (cmdDeleteAcl s cmd).keepsSearch = true := by
  unfold cmdDeleteAcl cmdSimple
  repeat' split
  all_goals rfl

theorem cmdGetAcl_keeps (cmd : ParsedCommand) :
    (cmdGetAcl s cmd).keepsSearch = true := by
  unfold cmdGetAcl
  repeat' split
  all_goals rfl

theorem cmdListRights_keeps (cmd : ParsedCommand) :
    (cmdListRights s cmd).keepsSearch = true := by
  unfold cmdListRights
  repeat' split
  all_goals rfl

theorem cmdMyRights_keeps (cmd : ParsedCommand) :
    (cmdMyRights s cmd).keepsSearch = true := by
  unfold cmdMyRights
  repeat' split
  all_goals rfl

theorem cmdStatus_keeps (cmd : ParsedCommand) :
    (cmdStatus s cmd).keepsSearch = true := by
  unfold cmdStatus
  repeat' split
  all_goals rfl

theorem cmdAppend_keeps (cmd : ParsedCommand) :
    (cmdAppend s cmd).keepsSearch = true := by
  unfold cmdAppend
  repeat' split
  all_goals rfl

theorem cmdSelect_keeps (cmd : ParsedCommand) (readWrite : Bool) (e : Engine) :
    (cmdSelect s cmd readWrite e).keepsSearch = true := by
  unfold cmdSelect
  dsimp only
  repeat' split
  all_goals rfl

theorem cmdStore_keeps (cmd : ParsedCommand) (uidMode : Bool) (view : SelectedView) (e : Engine) :
    (cmdStore s cmd uidMode view e).keepsSearch = true := by
  unfold cmdStore storeWith
  dsimp only
  repeat' split
  all_goals rfl

theorem cmdFetch_keeps (cmd : ParsedCommand) (uidMode : Bool) (view : SelectedView) (e : Engine) :
    (cmdFetch s cmd uidMode view e).keepsSearch = true := by
  unfold cmdFetch fetchWith fetchAll fetchFrom
  dsimp only
  repeat' split
  all_goals rfl

theorem cmdSortThread_keeps (cmd : ParsedCommand) (uidMode : Bool) (verb : SortVerb)
    (view : SelectedView) :
    (cmdSortThread s cmd uidMode verb view).keepsSearch = true := by
  unfold cmdSortThread searchProgramError sortThreadFrom
  dsimp only
  repeat' split
  all_goals rfl

theorem cmdReplace_keeps (cmd : ParsedCommand) (uidMode : Bool) (view : SelectedView) (e : Engine) :
    (cmdReplace s cmd uidMode view e).keepsSearch = true := by
  unfold cmdReplace
  dsimp only
  repeat' split
  all_goals rfl

theorem cmdCopyMove_keeps (cmd : ParsedCommand) (uidMode : Bool) (op : CopyOp)
    (view : SelectedView) (e : Engine) :
    (cmdCopyMove s cmd uidMode op view e).keepsSearch = true := by
  unfold cmdCopyMove
  dsimp only
  repeat' split
  all_goals rfl

end

theorem cmdClose_keeps (cmd : ParsedCommand) (view : SelectedView) :
    (cmdClose cmd view).keepsSearch = true := by
  unfold cmdClose
  split_ifs
  · rfl
  · rfl

theorem cmdExpunge_keeps (cmd : ParsedCommand) (uidRanges : Option (List SeqRange))
    (view : SelectedView) (e : Engine) : (cmdExpunge cmd uidRanges view e).keepsSearch = true := by
  unfold cmdExpunge
  dsimp only
  split_ifs
  · rfl
  · rfl
  · rfl

theorem refreshSelected_keeps (taggedOk : Option Text) (e : Engine) :
    (refreshSelected taggedOk e).keepsSearch = true := by
  unfold refreshSelected
  split
  · rfl
  · rfl

def NoSearch (e : Engine) : Prop := ∀ k, e.pending = some (.backend k) → k.isSearch = false

/-- The saved search stays, and no search has begun. -/
structure Kept (e r : Engine) : Prop where
  saved : r.savedSearch = e.savedSearch
  noSearch : NoSearch r

theorem NoSearch.of_none (h : e.pending = none) : NoSearch e := by
  intro k hk
  rw [h] at hk
  cases hk

theorem Kept.same {e r : Engine} (hno : NoSearch e) (hsaved : r.savedSearch = e.savedSearch)
    (hpending : r.pending = e.pending) : Kept e r :=
  ⟨hsaved, fun k hk => hno k (hpending ▸ hk)⟩

theorem Exchanged.kept {began : Bool} {r : Engine × List ImapAction}
    (h : Exchanged e began r) (hno : NoSearch e) : Kept e r.1 := by
  cases h with
  | same => exact ⟨rfl, hno⟩
  | client => exact ⟨rfl, by simp [NoSearch]⟩
  | lookup => exact ⟨rfl, by simp [NoSearch]⟩
  | verdict => exact ⟨rfl, by simp [NoSearch]⟩

theorem session_saved (a : Answer) (e : Engine) :
    (a.session e).savedSearch = a.saved.getD e.savedSearch := by
  unfold Answer.session enableCondstore leaveSelected
  dsimp only
  split_ifs <;> rfl

theorem apply_saved (a : Answer) (e : Engine) :
    (a.apply e).1.savedSearch = a.saved.getD e.savedSearch := by
  unfold Answer.apply
  split
  · exact session_saved a e
  · exact session_saved a e

theorem apply_kept {a : Answer} (h : a.keepsSearch = true) (hno : NoSearch e) :
    Kept e (a.apply e).1 := by
  rw [Answer.keepsSearch, Bool.and_eq_true, Option.isNone_iff_eq_none] at h
  refine ⟨by rw [apply_saved, h.1, Option.getD_none], ?_⟩
  unfold Answer.apply
  cases hreq : a.request with
  | none =>
    intro k hk
    exact hno k ((session_pending a e).symm.trans hk)
  | some p =>
    intro k hk
    rw [hreq] at h
    cases hk
    simpa using h.2

theorem removalActions_same (removed : List Nat) (e : Engine) :
    (removalActions removed e).1.savedSearch = e.savedSearch ∧
      (removalActions removed e).1.pending = e.pending := by
  unfold removalActions
  split
  · exact ⟨rfl, rfl⟩
  · exact ⟨rfl, rfl⟩

section

variable (s : Setup)

theorem resumeSelect_opens (tag : Text) (readWrite : Bool) (q : Option Qresync)
    {res : ImapBackendResponse} (hno : NoSearch e)
    (h : opens (.select tag readWrite q) res = true) :
    (resumeSelect tag readWrite q res e).1.savedSearch = [] ∧
      NoSearch (resumeSelect tag readWrite q res e).1 := by
  cases res with
  | selected m uids first keywords =>
    simp only [resumeSelect]
    split
    · exact ⟨rfl, fun k hk => by cases hk; rfl⟩
    · exact ⟨rfl, hno⟩
  | _ => cases h

theorem resume_kept {k : Resume} {res : ImapBackendResponse} (hno : NoSearch e)
    (hsearch : k.isSearch = false) (hopens : opens k res = false) :
    Kept e (resume s k res e).1 := by
  have hremoval : ∀ (removed : List Nat) (e' : Engine), e'.savedSearch = e.savedSearch →
      e'.pending = e.pending → Kept e (removalActions removed e').1 := by
    intro removed e' hsaved hpending
    obtain ⟨hs, hp⟩ := removalActions_same removed e'
    exact .same hno (hs.trans hsaved) (hp.trans hpending)
  cases k with
  | search => cases hsearch
  | select tag readWrite q =>
    cases res with
    | selected => cases hopens
    | _ => exact .same hno rfl rfl
  | append tag name =>
    simp only [resume, resumeAppend]
    split
    · split
      · exact .same hno rfl rfl
      · split_ifs
        · exact .same hno rfl rfl
        · exact .same hno rfl rfl
    · exact .same hno rfl rfl
  | replace tag verb dest =>
    simp only [resume, resumeReplace]
    split
    · split
      · exact .same hno rfl rfl
      · exact hremoval _ _ rfl rfl
    · exact .same hno rfl rfl
  | copyMove tag verb op =>
    simp only [resume, resumeCopyMove]
    split
    · cases op with
      | copy => exact .same hno rfl rfl
      | move => exact hremoval _ _ rfl rfl
    · exact .same hno rfl rfl
  | expunge tag verb =>
    simp only [resume, resumeExpunge]
    split
    · exact hremoval _ _ rfl rfl
    · exact .same hno rfl rfl
  | refresh taggedOk =>
    simp only [resume, resumeRefresh]
    split
    · split_ifs
      · exact .same hno rfl rfl
      · exact ⟨rfl, fun k hk => by cases hk; rfl⟩
    · exact .same hno rfl rfl
  | refreshSync taggedOk n kws =>
    simp only [resume, resumeRefreshSync]
    split
    · exact .same hno rfl rfl
    · split
      · exact .same hno rfl rfl
      · exact .same hno rfl rfl
  | okOrNo tag verb =>
    refine apply_kept ?_ hno
    unfold okOrNoAnswer
    repeat' split
    all_goals rfl
  | getAcl tag =>
    refine apply_kept ?_ hno
    unfold getAclAnswer
    repeat' split
    all_goals rfl
  | listRights tag =>
    refine apply_kept ?_ hno
    unfold listRightsAnswer
    repeat' split
    all_goals rfl
  | myRights tag =>
    refine apply_kept ?_ hno
    unfold myRightsAnswer
    repeat' split
    all_goals rfl
  | list plan =>
    refine apply_kept ?_ hno
    unfold listAnswer
    repeat' split
    all_goals rfl
  | status tag name wanted =>
    refine apply_kept ?_ hno
    unfold statusAnswer
    repeat' split
    all_goals rfl
  | quota tag verb mailbox =>
    refine apply_kept ?_ hno
    unfold quotaAnswer
    repeat' split
    all_goals rfl
  | selectSync tag readWrite =>
    refine apply_kept ?_ hno
    unfold selectSyncAnswer
    dsimp only
    repeat' split
    all_goals rfl
  | fetch plan offset =>
    refine apply_kept ?_ hno
    unfold fetchAnswer Answer.after fetchFrom
    dsimp only
    repeat' split
    all_goals rfl
  | fetchVanished plan requested maxUid =>
    refine apply_kept ?_ hno
    unfold fetchVanishedAnswer fetchAll fetchFrom Answer.after
    dsimp only
    repeat' split
    all_goals rfl
  | store tag verb uidMode silent targets =>
    refine apply_kept ?_ hno
    unfold storeAnswer
    dsimp only
    repeat' split
    all_goals rfl
  | sortThread plan mode offset batchUids hits sortMeta =>
    refine apply_kept ?_ hno
    unfold sortThreadAnswer sortThreadFrom
    dsimp only
    repeat' split
    all_goals rfl

theorem sessionCommand_kept (nonce : Text) (verb : SessionVerb) (cmd : ParsedCommand)
    (hno : NoSearch e) : Kept e (sessionCommand s nonce cmd verb e).1 := by
  cases verb with
  | login => exact (cmdLogin_exchanged s cmd e).kept hno
  | authenticate => exact (cmdAuthenticate_exchanged s nonce cmd e).kept hno
  | logout => exact .same hno rfl rfl
  | starttls =>
    simp only [sessionCommand, cmdStartTls]
    repeat' split
    all_goals exact .same hno rfl rfl
  | enable =>
    simp only [sessionCommand, cmdEnable]
    repeat' split
    all_goals exact .same hno rfl rfl
  | compress =>
    simp only [sessionCommand, cmdCompress]
    repeat' split
    all_goals exact .same hno rfl rfl
  | idle =>
    simp only [sessionCommand, cmdIdle]
    split
    all_goals exact .same hno rfl rfl

/-- The command after `UID`. -/
def uidCommand (cmd : ParsedCommand) : ParsedCommand :=
  ⟨cmd.tag, (upperText s.host.cases cmd.args[0]?).getD [], cmd.args.drop 1⟩

def commandView (e : Engine) : Option SelectedView :=
  match e.state, e.selected with
  | .selected, some view => some view
  | _, _ => none

def commandSearch (cmd : ParsedCommand) (e : Engine) :
    Option (ParsedCommand × Bool × SelectedView) :=
  match verbOf cmd.name with
  | some (.answer .search) => (commandView e).map fun view => (cmd, false, view)
  | some (.answer .uid) =>
    if answerVerbOf (uidCommand s cmd).name = some .search then
      (commandView e).map fun view => (uidCommand s cmd, true, view)
    else none
  | _ => none

def lineSearch (parts : List LinePart) (e : Engine) :
    Option (ParsedCommand × Bool × SelectedView) :=
  match e.idleTag, e.pending with
  | some _, _ => none
  | none, some (.saslLine _) => none
  | none, _ =>
    match parseCommand s.host.cases parts with
    | .error _ => none
    | .ok cmd => commandSearch s cmd e

/-- The effect of a line or a command: a search of the view, or nothing for the saved search. -/
inductive Searches (e : Engine) :
    Option (ParsedCommand × Bool × SelectedView) → Engine × List ImapAction → Prop
  | search {cmd : ParsedCommand} {uidMode : Bool} {view : SelectedView}
      (hview : e.selected = some view) :
      Searches e (some (cmd, uidMode, view)) ((cmdSearch s cmd uidMode view e).apply e)
  | other {r : Engine × List ImapAction} (hkept : Kept e r.1) : Searches e none r

theorem requireSelected_search {cmd rest : ParsedCommand} (uidMode : Bool)
    (hno : NoSearch e) :
    Searches s e ((commandView e).map fun view => (rest, uidMode, view))
      ((requireSelected cmd e fun view => cmdSearch s rest uidMode view e).apply e) := by
  have hrefused : ∀ text, Searches s e none ((refuse cmd.tag text).apply e) :=
    fun text => .other (apply_kept rfl hno)
  unfold commandView requireSelected
  cases hstate : e.state with
  | notAuthenticated => exact hrefused _
  | authenticated => exact hrefused _
  | selected =>
    cases hview : e.selected with
    | none => exact hrefused _
    | some view => exact .search hview

theorem cmdUid_keeps {cmd : ParsedCommand} (e : Engine)
    (h : answerVerbOf (uidCommand s cmd).name ≠ some .search) :
    (cmdUid s cmd e).keepsSearch = true := by
  unfold cmdUid
  dsimp only
  split
  · exact requireSelected_keeps fun view => cmdFetch_keeps s _ _ view e
  · exact requireSelected_keeps fun view => cmdStore_keeps s _ _ view e
  · exact absurd ‹_› h
  · exact requireSelected_keeps fun view => cmdSortThread_keeps s _ _ _ view
  · exact requireSelected_keeps fun view => cmdSortThread_keeps s _ _ _ view
  · exact requireSelected_keeps fun view => cmdCopyMove_keeps s _ _ _ view e
  · exact requireSelected_keeps fun view => cmdCopyMove_keeps s _ _ _ view e
  · exact requireSelected_keeps fun view => cmdReplace_keeps s _ _ view e
  · split
    · rfl
    · exact requireSelected_keeps fun view => cmdExpunge_keeps _ _ view e
  · rfl

theorem ordinary_keeps {verb : AnswerVerb} (hsearch : verb ≠ .search) (huid : verb ≠ .uid)
    (cmd : ParsedCommand) (e : Engine) : (ordinary s verb cmd e).keepsSearch = true := by
  have hrefresh : (if e.state = .selected ∧ e.selected.isSome then
      refreshSelected (some (noopText cmd)) e else lines [noopText cmd]).keepsSearch = true := by
    split_ifs
    · exact refreshSelected_keeps _ e
    · rfl
  cases verb with
  | search => exact absurd rfl hsearch
  | uid => exact absurd rfl huid
  | capability => rfl
  | noop => exact hrefresh
  | check => exact hrefresh
  | id => rfl
  | getquotaroot => exact requireAuth_keeps (cmdGetQuota_keeps s cmd _)
  | getquota => exact requireAuth_keeps (cmdGetQuota_keeps s cmd _)
  | setquota => exact requireAuth_keeps rfl
  | «namespace» => exact requireAuth_keeps rfl
  | list => exact requireAuth_keeps (cmdList_keeps s cmd _)
  | lsub => exact requireAuth_keeps (cmdList_keeps s cmd _)
  | subscribe => exact requireAuth_keeps (cmdSubscribe_keeps s cmd _ _)
  | unsubscribe => exact requireAuth_keeps (cmdSubscribe_keeps s cmd _ _)
  | create => exact requireAuth_keeps (cmdCreate_keeps s cmd)
  | delete => exact requireAuth_keeps (cmdDelete_keeps s cmd)
  | rename => exact requireAuth_keeps (cmdRename_keeps s cmd)
  | getacl => exact requireAuth_keeps (cmdGetAcl_keeps s cmd)
  | setacl => exact requireAuth_keeps (cmdSetAcl_keeps s cmd)
  | deleteacl => exact requireAuth_keeps (cmdDeleteAcl_keeps s cmd)
  | listrights => exact requireAuth_keeps (cmdListRights_keeps s cmd)
  | myrights => exact requireAuth_keeps (cmdMyRights_keeps s cmd)
  | status => exact requireAuth_keeps (cmdStatus_keeps s cmd)
  | select => exact requireAuth_keeps (cmdSelect_keeps s cmd _ e)
  | examine => exact requireAuth_keeps (cmdSelect_keeps s cmd _ e)
  | unselect => exact requireSelected_keeps fun _ => rfl
  | close => exact requireSelected_keeps fun view => cmdClose_keeps cmd view
  | fetch => exact requireSelected_keeps fun view => cmdFetch_keeps s cmd _ view e
  | store => exact requireSelected_keeps fun view => cmdStore_keeps s cmd _ view e
  | sort => exact requireSelected_keeps fun view => cmdSortThread_keeps s cmd _ _ view
  | thread => exact requireSelected_keeps fun view => cmdSortThread_keeps s cmd _ _ view
  | expunge => exact requireSelected_keeps fun view => cmdExpunge_keeps cmd _ view e
  | append => exact requireAuth_keeps (cmdAppend_keeps s cmd)
  | replace => exact requireSelected_keeps fun view => cmdReplace_keeps s cmd _ view e
  | copy => exact requireSelected_keeps fun view => cmdCopyMove_keeps s cmd _ _ view e
  | move => exact requireSelected_keeps fun view => cmdCopyMove_keeps s cmd _ _ view e

theorem dispatch_searches (nonce : Text) {verb : Verb} {cmd : ParsedCommand}
    (hverb : verbOf cmd.name = some verb) (hno : NoSearch e) :
    Searches s e (commandSearch s cmd e) (dispatch s nonce verb cmd e) := by
  rw [commandSearch, hverb]
  cases verb with
  | session v => exact .other (sessionCommand_kept s nonce v cmd hno)
  | answer v =>
    by_cases hsearch : v = .search
    · subst hsearch
      exact requireSelected_search s false hno
    · by_cases huid : v = .uid
      · subst huid
        dsimp only
        split_ifs with hname
        · have hcmd : cmdUid s cmd e =
              requireSelected (uidCommand s cmd) e fun view =>
                cmdSearch s (uidCommand s cmd) true view e := by
            unfold cmdUid
            dsimp only
            split <;> first | rfl | simp_all [uidCommand]
          have hdispatch : dispatch s nonce (.answer .uid) cmd e =
              (requireSelected (uidCommand s cmd) e fun view =>
                cmdSearch s (uidCommand s cmd) true view e).apply e := by
            rw [← hcmd]
            rfl
          rw [hdispatch]
          exact requireSelected_search s true hno
        · exact .other (apply_kept (cmdUid_keeps s e hname) hno)
      · have hnone : (match (some (Verb.answer v)) with
            | some (.answer .search) => (commandView e).map fun view => (cmd, false, view)
            | some (.answer .uid) =>
              if answerVerbOf (uidCommand s cmd).name = some .search then
                (commandView e).map fun view => (uidCommand s cmd, true, view)
              else none
            | _ => none) = none := by
          cases v <;> first | rfl | contradiction
        rw [hnone]
        exact .other (apply_kept (ordinary_keeps s hsearch huid cmd e) hno)

theorem handleLine_searches (nonce : Text) (parts : List LinePart)
    (hno : NoSearch e) : Searches s e (lineSearch s parts e) (handleLine s nonce parts e) := by
  have hcommand : Searches s e
      (match parseCommand s.host.cases parts with
        | .error _ => none
        | .ok cmd => commandSearch s cmd e) (handleCommand s nonce parts e) := by
    unfold handleCommand
    cases parseCommand s.host.cases parts with
    | error msg => exact .other (.same hno rfl rfl)
    | ok cmd =>
      dsimp only
      cases hverb : verbOf cmd.name with
      | none =>
        rw [commandSearch, hverb]
        exact .other (.same hno rfl rfl)
      | some verb => exact dispatch_searches s nonce hverb hno
  unfold lineSearch handleLine
  cases hidle : e.idleTag with
  | some tag => exact .other (.same hno rfl rfl)
  | none =>
    cases hpending : e.pending with
    | none => exact hcommand
    | some p =>
      cases p with
      | saslLine sasl =>
        have hkept := (handleSaslData_exchanged s nonce sasl (soleText parts)
          { e with pending := none }).kept (.of_none rfl)
        rw [hidle] at hkept
        exact .other ⟨hkept.saved, hkept.noSearch⟩
      | scramKeys sasl => exact hcommand
      | auth tag => exact hcommand
      | backend k => exact hcommand

/-- With MIN or MAX, and neither ALL nor COUNT, only those messages are kept. -/
def keepsAll (o : Esearch) : Bool := o.all || o.count || !(o.min || o.max)

def savedUids (o : Esearch) (found : List Nat) : List Nat :=
  found.filter fun u => keepsAll o || (o.min && found.all fun v => u ≤ v) ||
    (o.max && found.all fun v => v ≤ u)

def searchSaves (cmd : ParsedCommand) (view : SelectedView) (e : Engine) : Option (List Nat) :=
  match searchReturn s e.enabled.imap4rev2 cmd.args with
  | some (some o, crit) =>
    match s.formats.parseSearchProgram crit with
    | .ok _ => if view.uids = [] ∧ o.save then some [] else none
    | .error _ => none
  | _ => none

def lineSaves (parts : List LinePart) (e : Engine) : Option (List Nat) :=
  (lineSearch s parts e).bind fun p => searchSaves s p.1 p.2.2 e

def answerSaves (e : Engine) : Resume → ImapBackendResponse → Option (List Nat)
  | .select _ _ _, .selected _ _ _ _ => some []
  | .search plan offset batchUids _ hitUids, .messages messages =>
    if offset + batchSize plan.needRaw < (viewUids e).length then none
    else
      plan.esearch.bind fun o =>
        if o.save then
          some (savedUids o
            (hitUids ++ (matches? s plan offset batchUids messages).map fun p => p.2.uid))
        else none
  | _, _ => none

def saves (m : Moment) : Option (List Nat) :=
  match m.move with
  | .line _ parts => lineSaves s parts m.state
  | .dequeue _ parts => lineSaves s parts (unqueue parts m.state)
  | .backendResult res =>
    match m.state.pending with
    | some (.backend k) => answerSaves s m.state k res
    | _ => none
  | _ => none

/-- The messages of the last SEARCH with SAVE that succeeded, none since a mailbox was opened. -/
def lastSaved (ms : List Moment) : List Nat := ms.foldl (fun old m => (saves s m).getD old) []

theorem lastSaved_snoc (ms : List Moment) (m : Moment) :
    lastSaved s (ms ++ [m]) = (saves s m).getD (lastSaved s ms) := by
  rw [lastSaved, List.foldl_append]
  rfl

theorem keepsAll_eq (o : Esearch) :
    keepsAll o = !((o.min || o.max) && !o.all && !o.count) := by
  unfold keepsAll
  cases o.min <;> cases o.max <;> cases o.all <;> cases o.count <;> rfl

theorem mem_savedFor (o : Esearch) {found : List Nat} (hasc : found.Pairwise (· < ·)) (u : Nat) :
    u ∈ savedFor o found ↔ u ∈ savedUids o found := by
  cases found with
  | nil => simp [savedFor, savedUids]
  | cons first rest =>
    have hfirst : ∀ v ∈ first :: rest, first ≤ v := by
      intro v hv
      obtain rfl | hv := List.mem_cons.mp hv
      · exact Nat.le_refl v
      · exact Nat.le_of_lt ((List.pairwise_cons.mp hasc).1 v hv)
    have hne : first :: rest ≠ [] := List.cons_ne_nil _ _
    have hlast : ∀ v ∈ first :: rest, v ≤ (first :: rest).getLast hne := by
      intro v hv
      rw [← List.dropLast_append_getLast hne] at hasc hv
      obtain hv | hv := List.mem_append.mp hv
      · exact Nat.le_of_lt ((List.pairwise_append.mp hasc).2.2 v hv _ List.mem_cons_self)
      · rw [List.mem_singleton.mp hv]
    have hmin : u ∈ first :: rest → ((first :: rest).all (fun v => decide (u ≤ v)) = true ↔ u = first) := by
      intro hu
      rw [List.all_eq_true]
      refine ⟨fun h => ?_, fun h v hv => ?_⟩
      · exact Nat.le_antisymm (by simpa using h first List.mem_cons_self) (hfirst u hu)
      · rw [h]
        exact decide_eq_true (hfirst v hv)
    have hmax : u ∈ first :: rest → ((first :: rest).all (fun v => decide (v ≤ u)) = true ↔
        u = (first :: rest).getLast hne) := by
      intro hu
      rw [List.all_eq_true]
      refine ⟨fun h => ?_, fun h v hv => ?_⟩
      · exact Nat.le_antisymm (hlast u hu) (by simpa using h _ (List.getLast_mem hne))
      · rw [h]
        exact decide_eq_true (hlast v hv)
    have hend : (first :: rest).getLast?.getD first = (first :: rest).getLast hne := by
      rw [List.getLast?_eq_some_getLast hne]
      rfl
    rw [savedUids, List.mem_filter, savedFor]
    dsimp only
    rw [hend]
    have hmem : ∀ v, v ∈ sortUids ((if o.min then [first] else []) ++
        (if o.max ∧ !(o.min ∧ (first :: rest).getLast hne = first) then
          [(first :: rest).getLast hne] else [])) ↔
        (o.min = true ∧ v = first) ∨ (o.max = true ∧ v = (first :: rest).getLast hne) := by
      intro v
      rw [sortUids, List.mem_insertionSort, List.mem_append]
      cases o.min <;> cases o.max <;> by_cases hone : (first :: rest).getLast hne = first <;>
        simp [hone]
    have hfound : u = first ∨ u = (first :: rest).getLast hne → u ∈ first :: rest := by
      rintro (rfl | rfl)
      · exact List.mem_cons_self
      · exact List.getLast_mem hne
    by_cases hsome : ((o.min || o.max) && !o.all && !o.count) = true
    · rw [if_pos hsome, hmem, keepsAll_eq, hsome]
      simp only [Bool.not_true, Bool.false_or, Bool.or_eq_true, Bool.and_eq_true]
      constructor
      · intro h
        have hu := hfound (h.imp And.right And.right)
        exact ⟨hu, h.imp (fun h => ⟨h.1, (hmin hu).mpr h.2⟩) fun h => ⟨h.1, (hmax hu).mpr h.2⟩⟩
      · rintro ⟨hu, h⟩
        exact h.imp (fun h => ⟨h.1, (hmin hu).mp h.2⟩) fun h => ⟨h.1, (hmax hu).mp h.2⟩
    · rw [if_neg hsome, keepsAll_eq, Bool.eq_false_iff.mpr hsome]
      simp only [Bool.not_false, Bool.true_or, and_true]

/-- A search that waits is about the view, and has found messages of what it has read of it. -/
def Gathered (e : Engine) : Prop :=
  ∀ plan offset batchUids hits hitUids,
    e.pending = some (.backend (.search plan offset batchUids hits hitUids)) →
      ∃ view, e.selected = some view ∧
        batchUids = (view.uids.drop offset).take (batchSize plan.needRaw) ∧
        hitUids.Sublist (view.uids.take offset)

theorem NoSearch.gathered (h : NoSearch e) : Gathered e := by
  intro plan offset batchUids hits hitUids hpending
  cases h _ hpending

/-- A move that saves what it should. -/
structure Saves (saved : Option (List Nat)) (e r : Engine) : Prop where
  saved : ∀ u, u ∈ r.savedSearch ↔ u ∈ saved.getD e.savedSearch
  gathered : Gathered r

theorem Kept.saves {e r : Engine} (h : Kept e r) : Saves none e r :=
  ⟨fun u => by rw [h.saved, Option.getD_none], h.noSearch.gathered⟩

theorem cmdSearch_saves (cmd : ParsedCommand) (uidMode : Bool) {view : SelectedView}
    (hno : NoSearch e) (hview : e.selected = some view) :
    Saves (searchSaves s cmd view e) e ((cmdSearch s cmd uidMode view e).apply e).1 := by
  unfold searchSaves cmdSearch
  dsimp only
  cases searchReturn s e.enabled.imap4rev2 cmd.args with
  | none => exact (apply_kept rfl hno).saves
  | some r =>
    obtain ⟨esearch, crit⟩ := r
    dsimp only
    cases hprogram : s.formats.parseSearchProgram crit with
    | error badCharset =>
      have hkeeps : (searchProgramError cmd.tag (uidVerb uidMode "SEARCH") badCharset).keepsSearch =
          true := by
        cases badCharset <;> rfl
      cases esearch with
      | none => exact (apply_kept hkeeps hno).saves
      | some o =>
        simp only [hprogram]
        exact (apply_kept hkeeps hno).saves
    | ok key =>
      dsimp only
      by_cases hempty : view.uids = []
      · have hpending : ∀ a : Answer, a.request = none → NoSearch (a.apply e).1 := by
          intro a ha
          unfold Answer.apply
          rw [ha]
          intro k hk
          exact hno k ((session_pending a e).symm.trans hk)
        rw [if_pos hempty]
        refine ⟨fun u => ?_, (hpending _ rfl).gathered⟩
        rw [apply_saved]
        cases esearch with
        | none => rfl
        | some o =>
          simp only [searchDone, Option.bind_some, hprogram, hempty, true_and]
          cases o.save <;> rfl
      · rw [if_neg hempty, searchFrom, call_apply]
        refine ⟨fun u => ?_, ?_⟩
        · cases esearch with
          | none => rfl
          | some o => simp [hprogram, hempty]
        · intro plan offset batchUids hits hitUids hpending
          cases hpending
          exact ⟨view, hview, rfl, List.nil_sublist _⟩

theorem handleLine_saves (nonce : Text) (parts : List LinePart) (hno : NoSearch e) :
    Saves (lineSaves s parts e) e (handleLine s nonce parts e).1 := by
  have hline := handleLine_searches s nonce parts hno
  unfold lineSaves
  generalize lineSearch s parts e = found at hline ⊢
  generalize handleLine s nonce parts e = r at hline ⊢
  cases hline with
  | search hview => exact cmdSearch_saves s _ _ hno hview
  | other hkept => exact hkept.saves

theorem matches_sublist (plan : SearchPlan) (offset : Nat) (batchUids : List Nat)
    (messages : List ImapFetchData) :
    ((matches? s plan offset batchUids messages).map fun p => p.2.uid).Sublist batchUids := by
  unfold matches?
  generalize 0 = k
  induction batchUids generalizing k with
  | nil => exact List.nil_sublist _
  | cons uid batchUids ih =>
    rw [List.zipIdx_cons, List.filterMap_cons]
    dsimp only
    split
    · exact (ih (k + 1)).trans (List.sublist_cons_self uid batchUids)
    · rename_i p hp
      have huid : p.2.uid = uid := by
        revert hp
        split
        · exact fun h => by cases h
        · split_ifs
          · intro h
            cases h
            rfl
          · exact fun h => by cases h
      rw [List.map_cons, huid]
      exact (ih (k + 1)).cons_cons uid

theorem searchAnswer_saves {plan : SearchPlan} {offset : Nat} {batchUids hits hitUids : List Nat}
    (hpending : e.pending = some (.backend (.search plan offset batchUids hits hitUids)))
    (hgathered : Gathered e) (hasc : Ascending e) (res : ImapBackendResponse) :
    Saves (answerSaves s e (.search plan offset batchUids hits hitUids) res) e
      ((searchAnswer s plan offset batchUids hits hitUids { e with pending := none } res).apply
        { e with pending := none }).1 := by
  have hno : NoSearch { e with pending := none } := .of_none rfl
  have hsame : ∀ texts, Saves none e ((lines texts).apply { e with pending := none }).1 := by
    intro texts
    have hkept := apply_kept (a := lines texts) rfl hno
    exact ⟨fun u => by rw [hkept.saved]; rfl, hkept.noSearch.gathered⟩
  obtain ⟨view, hview, rfl, hsub⟩ := hgathered plan offset batchUids hits hitUids hpending
  have hviewUids : ∀ p, viewUids { e with pending := p } = view.uids := by
    intro p
    simp [viewUids, hview]
  cases res with
  | messages messages =>
    have hfound : (hitUids ++ (matches? s plan offset
        ((view.uids.drop offset).take (batchSize plan.needRaw)) messages).map fun p =>
          p.2.uid).Sublist (view.uids.take (offset + batchSize plan.needRaw)) := by
      rw [List.take_add]
      exact hsub.append (matches_sublist s plan offset _ messages)
    simp only [searchAnswer, answerSaves, hviewUids]
    by_cases hmore : offset + batchSize plan.needRaw < view.uids.length
    · rw [if_pos hmore, if_pos hmore, searchFrom, call_apply]
      refine ⟨fun u => Iff.rfl, ?_⟩
      intro plan' offset' batchUids' hits' hitUids' hwait
      cases hwait
      exact ⟨view, hview, rfl, hfound⟩
    · have hfree : ∀ hits' uids', (((searchDone plan.tag plan.verb plan.uidMode plan.esearch hits'
          uids').apply { e with pending := none }).1).pending = none := fun _ _ => rfl
      have hup := ((hasc.view hview).sublist (List.take_sublist _ _)).sublist hfound
      rw [if_neg hmore, if_neg hmore]
      refine ⟨fun u => ?_, (NoSearch.of_none (hfree _ _)).gathered⟩
      rw [apply_saved]
      simp only [searchDone]
      cases plan.esearch with
      | none => exact Iff.rfl
      | some o =>
        cases hsave : o.save with
        | false => simp [hsave]
        | true =>
          simp only [Option.bind_some, hsave, if_true, Option.getD_some]
          exact mem_savedFor o hup u
  | _ => exact hsame _

theorem act_saves {m : Move} (hallowed : m.Allowed e) (hgathered : Gathered e)
    (hasc : Ascending e) : Saves (saves s ⟨e, m⟩) e (m.act s e).1 := by
  have hkeep : ∀ r : Engine, r.savedSearch = e.savedSearch → r.pending = e.pending →
      r.selected = e.selected → Saves none e r := by
    intro r hsaved hpending hselected
    refine ⟨fun u => by rw [hsaved, Option.getD_none], ?_⟩
    intro plan offset batchUids hits hitUids hwait
    rw [hselected]
    exact hgathered plan offset batchUids hits hitUids (hpending ▸ hwait)
  have hfree : ∀ {e' : Engine}, queues e' = false → NoSearch e' := by
    intro e' hqueues k hk
    rw [queues, hk] at hqueues
    cases hqueues
  cases m with
  | line nonce parts => exact handleLine_saves s nonce parts (hfree hallowed.2)
  | dequeue nonce parts =>
    have hno : NoSearch (unqueue parts e) := .of_none hallowed.2.1
    have hline := handleLine_saves s nonce parts hno
    exact ⟨hline.saved, hline.gathered⟩
  | enqueue parts =>
    simp only [Move.act, enqueue]
    split_ifs
    · exact hkeep _ rfl rfl rfl
    · exact hkeep _ rfl rfl rfl
  | settle =>
    simp only [Move.act, settleQueue]
    split_ifs
    · exact hkeep _ rfl rfl rfl
    · exact hkeep _ rfl rfl rfl
  | backendResult res =>
    obtain ⟨k, hk⟩ := hallowed
    have hno : NoSearch { e with pending := none } := .of_none rfl
    simp only [Move.act, saves, hk]
    cases hsearch : k.isSearch with
    | true =>
      cases k with
      | search plan offset batchUids hits hitUids =>
        exact searchAnswer_saves s hk hgathered hasc res
      | _ => cases hsearch
    | false =>
      cases hopens : opens k res with
      | true =>
        cases k with
        | select tag readWrite q =>
          obtain ⟨hsaved, hnone⟩ := resumeSelect_opens tag readWrite q hno hopens
          cases res with
          | selected m uids first keywords =>
            exact ⟨fun u => by rw [resume, hsaved]; rfl, hnone.gathered⟩
          | _ => cases hopens
        | _ => cases hopens
      | false =>
        have hkept := resume_kept s hno hsearch hopens
        have hnothing : answerSaves s e k res = none := by
          cases k with
          | search => cases hsearch
          | select =>
            cases res with
            | selected => cases hopens
            | _ => rfl
          | _ => rfl
        rw [hnothing]
        exact ⟨fun u => by rw [hkept.saved]; rfl, hkept.noSearch.gathered⟩
  | scramKeysResult keys =>
    obtain ⟨tag, session, stage, username, hp⟩ := hallowed
    simp only [Move.act, scramKeysResult, hp]
    split
    · exact ⟨fun u => Iff.rfl, NoSearch.gathered (by simp [NoSearch])⟩
    · exact ⟨fun u => Iff.rfl, NoSearch.gathered (by simp [NoSearch])⟩
  | authResult ok =>
    obtain ⟨tag, hp⟩ := hallowed
    simp only [Move.act, hp, authAnswered]
    split_ifs
    · exact ⟨fun u => Iff.rfl, NoSearch.gathered (by simp [NoSearch])⟩
    · exact ⟨fun u => Iff.rfl, NoSearch.gathered (by simp [NoSearch])⟩
  | idleTick =>
    simp only [Move.act, idleTick]
    split_ifs with hskip
    · exact hkeep _ rfl rfl rfl
    · have hnone : e.pending = none := by
        cases hp : e.pending with
        | none => rfl
        | some p => simp [hp] at hskip
      exact (apply_kept (refreshSelected_keeps none e) (.of_none hnone)).saves
  | _ => exact hkeep _ rfl rfl rfl

theorem history_saved {ms : List Moment} {secure : Bool}
    (h : History s (newEngine s secure) ms e) (hsnap : ∀ m ∈ ms, m.move.SnapshotAscending) :
    (∀ u, u ∈ e.savedSearch ↔ u ∈ lastSaved s ms) ∧ Ascending e := by
  have hall : (∀ u, u ∈ e.savedSearch ↔ u ∈ lastSaved s ms) ∧ Gathered e ∧ Ascending e := by
    refine Trace.Linked.history (P := fun past e =>
      (∀ u, u ∈ e.savedSearch ↔ u ∈ lastSaved s past) ∧ Gathered e ∧ Ascending e) h ?_ ?_
    · refine ⟨fun u => Iff.rfl, (NoSearch.of_none rfl).gathered, ?_⟩
      intro uids huids
      cases huids
    · intro past m hm hallowed ⟨hsaved, hgathered, hasc⟩
      have hstep := act_saves s hallowed hgathered hasc
      refine ⟨fun u => ?_, hstep.gathered, act_ascending s hallowed (hsnap m hm) hasc⟩
      rw [hstep.saved, lastSaved_snoc]
      cases saves s m with
      | none => exact hsaved u
      | some kept => exact Iff.rfl
  exact ⟨hall.1, hall.2.2⟩

end

def numberedView (view : SelectedView) : List Target :=
  view.uids.zipIdx.map fun p => ⟨p.2 + 1, p.1⟩

theorem matchSequenceSet_singles (ns : List Nat) (v limit : Nat) :
    matchSequenceSet (ns.map fun n => ⟨.num n, .num n⟩) v limit = true ↔ v ∈ ns := by
  have hranges : (ns.map fun n => (⟨.num n, .num n⟩ : SeqRange)) =
      (ns.map fun n => (n, n)).map numbered := by
    rw [List.map_map]
    rfl
  rw [hranges, matchSequenceSet_numbered (by simp), inUidSet, List.any_map, List.any_eq_true]
  constructor
  · rintro ⟨n, hn, hmatch⟩
    simp only [Function.comp, Bool.and_eq_true, decide_eq_true_eq] at hmatch
    rwa [Nat.le_antisymm hmatch.2 hmatch.1]
  · intro hv
    exact ⟨v, hv, by simp⟩

/-- The `$` of a set argument stands for the saved messages that are in the view. -/
theorem dollar_targets {view : SelectedView} (hview : e.selected = some view)
    (hnodup : view.uids.Nodup) (uidMode : Bool) :
    (resolveSetArg ['$'] uidMode e).map (fun ranges => resolveTargets ranges uidMode e) =
      some ((numberedView view).filter fun t => t.uid ∈ e.savedSearch) := by
  have hset : ∀ {numbers : List Nat}, (∀ t ∈ numberedView view,
      (if uidMode then t.uid else t.seq) ∈ numbers ↔ t.uid ∈ e.savedSearch) →
      resolveTargets ((sortUids numbers).map fun n => ⟨.num n, .num n⟩) uidMode e =
        (numberedView view).filter fun t => t.uid ∈ e.savedSearch := by
    intro numbers hnumbers
    have hfilter : ∀ limit, (numberedView view).filter (fun t =>
        matchSequenceSet ((sortUids numbers).map fun n => ⟨.num n, .num n⟩)
          (if uidMode then t.uid else t.seq) limit) =
        (numberedView view).filter fun t => t.uid ∈ e.savedSearch := by
      intro limit
      refine List.filter_congr fun t ht => ?_
      rw [Bool.eq_iff_iff, matchSequenceSet_singles, sortUids, List.mem_insertionSort,
        hnumbers t ht, decide_eq_true_iff]
    rw [resolveTargets, hview]
    cases uidMode with
    | true => exact hfilter _
    | false => exact hfilter _
  rw [resolveSetArg, if_neg (by simp), hview]
  dsimp only
  rw [Option.map_some, hset]
  intro t ht
  obtain ⟨⟨uid, i⟩, hp, rfl⟩ := List.mem_map.mp ht
  have hat : view.uids[i]? = some uid := List.mem_zipIdx_iff_getElem?.mp hp
  have huid : uid ∈ view.uids := List.mem_of_getElem? hat
  rw [List.mem_filterMap]
  cases uidMode with
  | true =>
    simp only [if_true]
    constructor
    · rintro ⟨u, hu, hsome⟩
      split_ifs at hsome
      cases hsome
      exact hu
    · intro hsaved
      exact ⟨uid, hsaved, by simp [huid]⟩
  | false =>
    have hindex : view.uids.idxOf? uid = some i := by
      obtain ⟨hi, heq⟩ := List.getElem?_eq_some_iff.mp hat
      refine List.idxOf?_eq_some_iff.mpr ⟨hi, heq, fun j hj hsame => ?_⟩
      exact Nat.ne_of_lt hj ((hnodup.getElem_inj_iff).mp (hsame.trans heq.symm))
    simp only [Bool.false_eq_true, if_false]
    constructor
    · rintro ⟨u, hu, hsome⟩
      obtain ⟨j, hj, hji⟩ := Option.map_eq_some_iff.mp hsome
      obtain ⟨hlt, heq, -⟩ := List.idxOf?_eq_some_iff.mp hj
      obtain rfl : j = i := by omega
      have hsame : uid = u := (List.getElem?_eq_some_iff.mp hat).2.symm.trans heq
      rw [hsame]
      exact hu
    · intro hsaved
      exact ⟨uid, hsaved, by rw [hindex]; rfl⟩

/-- Where `$` stands: as the set of messages a command is about, or as a search criterion. -/
inductive DollarUse where
  | argument
  | criterion
  deriving DecidableEq

/-- The messages of the view that a `$` chooses, if it is accepted there. -/
def chosen (s : Setup) (parseMessage : Bytes → ParsedMessage) (full : Nat → Option ImapFetchData)
    (use : DollarUse) (uidMode : Bool) (view : SelectedView) (e : Engine) : Option (List Target) :=
  match use with
  | .argument =>
    (setArg (some (.atom ['$'])) uidMode e).map fun ranges => resolveTargets ranges uidMode e
  | .criterion =>
    match parseSearchProgram s.host.cases [.atom ['$']] with
    | .ok key =>
      some ((numberedView view).filter fun t =>
        selects s.host.cases parseMessage key full view.uids.length (view.uids.getLast?.getD 0)
          (t.uid, t.seq))
    | .error _ => none

theorem parse_dollar (u : CaseMap) : parseSearchProgram u [.atom ['$']] = .error false := by
  have hupper : toUpperCase u ['$'] = ['$'] := rfl
  rw [parseSearchProgram_atom u (by rw [hupper]; decide) (by rw [hupper]; decide)
    (by rw [hupper]; decide), hupper]
  rfl

def Moment.Opens (m : Moment) : Prop :=
  ∃ k res, m.state.pending = some (.backend k) ∧ m.move = .backendResult res ∧ opens k res = true

/-- In every run `$` stands for the messages of the last SEARCH with SAVE that are still in
the view, whatever was done in between, exactly where it is the argument of a command; it
stands for none after SELECT. As a criterion of SEARCH it is refused. -/
theorem saved_search (s : Setup) (parseMessage : Bytes → ParsedMessage)
    (full : Nat → Option ImapFetchData) (secure : Bool) (ms : List Moment) (e : Engine)
    (view : SelectedView) (use : DollarUse) (uidMode : Bool)
    (h : History (withSearch s parseMessage) (newEngine (withSearch s parseMessage) secure) ms e)
    (hsnap : ∀ m ∈ ms, m.move.SnapshotAscending) (hview : e.selected = some view) :
    (chosen s parseMessage full use uidMode view e =
        some ((numberedView view).filter fun t =>
          t.uid ∈ lastSaved (withSearch s parseMessage) ms) ↔ use = .argument) ∧
      ∀ past m, ms = past ++ [m] → Moment.Opens m →
        (chosen s parseMessage full use uidMode view e = some [] ↔ use = .argument) := by
  obtain ⟨hsaved, hasc⟩ := history_saved _ h hsnap
  have hnodup := nodup_of_ascending (hasc.view hview)
  have hargument : chosen s parseMessage full .argument uidMode view e =
      some ((numberedView view).filter fun t =>
        t.uid ∈ lastSaved (withSearch s parseMessage) ms) := by
    refine (dollar_targets hview hnodup uidMode).trans (congrArg some ?_)
    refine List.filter_congr fun t _ => ?_
    rw [Bool.eq_iff_iff, decide_eq_true_iff, decide_eq_true_iff, hsaved]
  have hcriterion : chosen s parseMessage full .criterion uidMode view e = none := by
    simp only [chosen, parse_dollar]
  have hiff : ∀ targets, chosen s parseMessage full .argument uidMode view e = some targets →
      (chosen s parseMessage full use uidMode view e = some targets ↔ use = .argument) := by
    intro targets htargets
    cases use with
    | argument => exact iff_of_true htargets rfl
    | criterion => exact iff_of_false (by rw [hcriterion]; simp) (by simp)
  refine ⟨hiff _ hargument, ?_⟩
  rintro past ⟨state, move⟩ rfl ⟨k, res, hpending, hmove, hopens⟩
  refine hiff _ (hargument.trans (congrArg some ?_))
  have hnone : saves (withSearch s parseMessage) ⟨state, move⟩ = some [] := by
    cases hmove
    cases k with
    | select tag readWrite q =>
      cases res with
      | selected m uids first keywords =>
        have hwait : state.pending = some (.backend (.select tag readWrite q)) := hpending
        simp only [saves, hwait, answerSaves]
      | _ => cases hopens
    | _ => cases hopens
  rw [lastSaved_snoc, hnone, Option.getD_some]
  simp

def openRun : List Input :=
  [⟨.feed (wireToBytes "a LOGIN u p\r\n"), fun _ => []⟩,
    ⟨.authResult true, fun _ => []⟩,
    ⟨.feed (wireToBytes "b SELECT INBOX\r\n"), fun _ => []⟩,
    ⟨.backendResult (.selected ⟨"INBOX", none, none, 1, 10, 1, 3, 0, 0, none, none, none, none⟩
      [3, 5, 9] none []), fun _ => []⟩]

def openSetup : Setup := withSearch bareSetup fun _ => ⟨[], none⟩

/-- The session after `openRun`. -/
def openEngine : Engine :=
  ((run openSetup (newEngine openSetup false) openRun).map (·.1)).getD (newEngine openSetup false)

def saveView : SelectedView := ⟨"INBOX", true, 1, [3, 5, 9], 10, [], 1⟩

theorem openEngine_opened : openEngine.idleTag = none ∧ openEngine.pending.isNone = true ∧
    openEngine.closed = false ∧ openEngine.state = .selected ∧
    openEngine.selected = some saveView := by
  decide +kernel

theorem openRun_history :
    History openSetup (newEngine openSetup false)
      (runMoments openSetup (newEngine openSetup false) openRun) openEngine ∧
    ∀ m ∈ runMoments openSetup (newEngine openSetup false) openRun, m.move.SnapshotAscending := by
  have hruns : (run openSetup (newEngine openSetup false) openRun).isSome = true := by
    decide +kernel
  obtain ⟨⟨e, acts⟩, hrun⟩ := Option.isSome_iff_exists.mp hruns
  have hend : openEngine = e := by
    rw [openEngine, hrun]
    rfl
  rw [hend]
  exact ⟨(run_history openSetup hrun).1, by decide +kernel⟩

/-- `SEARCH $` is refused, also where nothing is saved. -/
theorem saved_search_fails :
    ¬ ∀ (s : Setup) (parseMessage : Bytes → ParsedMessage) (full : Nat → Option ImapFetchData)
      (secure : Bool) (ms : List Moment) (e : Engine) (view : SelectedView) (use : DollarUse)
      (uidMode : Bool),
      History (withSearch s parseMessage) (newEngine (withSearch s parseMessage) secure) ms e →
      (∀ m ∈ ms, m.move.SnapshotAscending) → e.selected = some view →
        chosen s parseMessage full use uidMode view e =
          some ((numberedView view).filter fun t =>
            t.uid ∈ lastSaved (withSearch s parseMessage) ms) := by
  intro h
  obtain ⟨hhist, hsnap⟩ := openRun_history
  obtain ⟨-, -, -, -, hview⟩ := openEngine_opened
  have hall := h bareSetup (fun _ => ⟨[], none⟩) (fun _ => none) false _ _ _ .criterion false hhist
    hsnap hview
  simp only [chosen, parse_dollar] at hall
  cases hall

def saveLine : List LinePart := [.text "c SEARCH RETURN (SAVE) UNSEEN"]

def saveCommand : ParsedCommand :=
  ⟨"c", "SEARCH", [.atom "RETURN", .list [.atom "SAVE"], .atom "UNSEEN"]⟩

def savingEngine : Engine :=
  { openEngine with
    pending := some (.backend (.search (searchPlan openSetup "c" "SEARCH" false
      (some { save := true }) (.flag "\\Seen" true) saveView) 0 [3, 5, 9] [] [])) }

/-- The search finds 3 and 5, then 5 is expunged and 12 arrives. -/
def laterRun : List Input :=
  [⟨.backendResult (.messages [messageAt [] 3, messageAt [] 5, messageAt ["\\Seen"] 9]), fun _ => []⟩,
    ⟨.feed (wireToBytes "d NOOP\r\n"), fun _ => []⟩,
    ⟨.backendResult (.selected ⟨"INBOX", none, none, 1, 13, 1, 3, 0, 0, none, none, none, none⟩
      [3, 9, 12] none []), fun _ => []⟩]

theorem saveLine_begins : (handleLine openSetup [] saveLine openEngine).1 = savingEngine := by
  obtain ⟨hidle, hpending, -, hstate, hview⟩ := openEngine_opened
  rw [Option.isNone_iff_eq_none] at hpending
  have hcmd : parseCommand openSetup.host.cases saveLine = .ok saveCommand := by
    with_unfolding_all rfl
  have hprogram : openSetup.formats.parseSearchProgram [.atom "UNSEEN"] =
      .ok (.flag "\\Seen" true) := by
    show parseSearchProgram bareSetup.host.cases [.atom "UNSEEN"] = _
    rw [parseSearchProgram_atom _ (by decide) (by decide) (by decide)]
    rfl
  have hreturn : searchReturn openSetup openEngine.enabled.imap4rev2 saveCommand.args =
      some (some { save := true }, [.atom "UNSEEN"]) := rfl
  have hsearch : lineSearch openSetup saveLine openEngine = some (saveCommand, false, saveView) := by
    simp only [lineSearch, hidle, hpending, hcmd, commandSearch, commandView, hstate, hview]
    rfl
  have hline := handleLine_searches openSetup [] saveLine (.of_none hpending)
  rw [hsearch] at hline
  generalize handleLine openSetup [] saveLine openEngine = r at hline
  cases hline
  have hmany : saveView.uids ≠ [] := by decide
  simp only [cmdSearch, hreturn, hprogram, hmany, if_false]
  with_unfolding_all rfl

/-- 3 and 5 are saved; where `$` is used, 5 is gone. -/
theorem saved_search_kept : ∃ ms e view, History openSetup (newEngine openSetup false) ms e ∧
    lastSaved openSetup ms = [3, 5] ∧ e.selected = some view ∧ view.uids = [3, 9, 12] ∧
    chosen bareSetup (fun _ => ⟨[], none⟩) (fun _ => none) .argument false view e =
      some [⟨1, 3⟩] := by
  obtain ⟨hopened, hopenedSnap⟩ := openRun_history
  obtain ⟨-, hpending, hclosed, -, -⟩ := openEngine_opened
  rw [Option.isNone_iff_eq_none] at hpending
  have hlater : ((run openSetup savingEngine laterRun).map fun p => viewOf p.1) =
      some (some [3, 9, 12]) := by
    decide +kernel
  obtain ⟨⟨e, acts⟩, hrun, hview⟩ := Option.map_eq_some_iff.mp hlater
  obtain ⟨view, hsel, huids⟩ := Option.map_eq_some_iff.mp hview
  have hline : History openSetup openEngine [⟨openEngine, .line [] saveLine⟩] savingEngine := by
    rw [← saveLine_begins]
    exact .one ⟨hclosed, by rw [queues, hpending]⟩
  have hhist := (hopened.append hline).append (run_history openSetup hrun).1
  have hsaved : lastSaved openSetup (runMoments openSetup (newEngine openSetup false) openRun ++
      [⟨openEngine, .line [] saveLine⟩] ++ runMoments openSetup savingEngine laterRun) = [3, 5] := by
    have hsaves : (runMoments openSetup savingEngine laterRun).map (saves openSetup) =
        [some [3, 5], none, none, none, none, none] := by
      decide +kernel
    rw [lastSaved, List.foldl_append,
      ← List.foldl_map (f := saves openSetup) (g := fun old o => o.getD old), hsaves]
    rfl
  have hsnap : ∀ m ∈ runMoments openSetup (newEngine openSetup false) openRun ++
      [⟨openEngine, .line [] saveLine⟩] ++ runMoments openSetup savingEngine laterRun,
      m.move.SnapshotAscending := by
    simp only [List.forall_mem_append]
    exact ⟨⟨hopenedSnap, by simp [Move.SnapshotAscending]⟩, by decide +kernel⟩
  refine ⟨_, e, view, hhist, hsaved, hsel, huids, ?_⟩
  rw [((saved_search bareSetup (fun _ => ⟨[], none⟩) (fun _ => none) false _ e view .argument false
    hhist hsnap hsel).1).mpr rfl]
  have hnumbered : numberedView view = [⟨1, 3⟩, ⟨2, 9⟩, ⟨3, 12⟩] := by
    rw [numberedView, huids]
    rfl
  rw [hnumbered]
  refine congrArg some ?_
  show List.filter (fun t : Target => t.uid ∈ lastSaved openSetup _) _ = _
  rw [hsaved]
  decide

end Ionosphere.Imap
