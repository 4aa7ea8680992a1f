import Ionosphere.Imap.SearchCriteria
import Ionosphere.Imap.ViewOrder
import Mathlib.Data.List.Induction

/-! A SEARCH over its batches. While it runs the lines of the client wait, so the view
stays what it was; after as many answers as there are batches the hits are those of one
pass over the whole view. -/
namespace Ionosphere.Imap

open Ionosphere.Js Ionosphere.Core Ionosphere.Lib

variable {messages : List ImapFetchData} {e : Engine} {uids : List Nat} {k : Nat}

variable {view : SelectedView} {plan : SearchPlan}

/-- What a criterion is asked about: a message of the view and its place. -/
def searched (p : Nat × Nat) (data : ImapFetchData) : SearchMessage :=
  ⟨p.2, p.1, data.flags, data.size, data.internalDateMs, data.saveDateMs, data.modseq, data.raw⟩

def loaded (needRaw : Bool) (data : ImapFetchData) : ImapFetchData :=
  if needRaw then data else { data with raw := none }

section

variable (u : CaseMap) (parseMessage : Bytes → ParsedMessage) (key : SearchKey)
  (full : Nat → Option ImapFetchData)

def selects (maxSeq maxUid : Nat) (p : Nat × Nat) : Bool :=
  (full p.1).any fun data => evaluateSearch u parseMessage key (searched p data) maxSeq maxUid

/-- The first `n` messages of a view, filtered: each uid with its number. -/
def passed (uids : List Nat) (n : Nat) : List (Nat × Nat) :=
  ((uids.take n).zipIdx 1).filter
    (selects u parseMessage key full uids.length (uids.getLast?.getD 0))

def onePass (uids : List Nat) : List (Nat × Nat) :=
  (uids.zipIdx 1).filter (selects u parseMessage key full uids.length (uids.getLast?.getD 0))

theorem passed_all {n : Nat} (h : uids.length ≤ n) :
    passed u parseMessage key full uids n = onePass u parseMessage key full uids := by
  rw [passed, onePass, List.take_of_length_le h]

theorem passed_next {offset : Nat} (size : Nat) (h : offset ≤ uids.length) :
    passed u parseMessage key full uids (offset + size) =
      passed u parseMessage key full uids offset ++
        (((uids.drop offset).take size).zipIdx (offset + 1)).filter
          (selects u parseMessage key full uids.length (uids.getLast?.getD 0)) := by
  have hlength : (uids.take offset).length = offset := by
    rw [List.length_take]
    omega
  rw [passed, List.take_add, List.zipIdx_append, List.filter_append, hlength, Nat.add_comm 1]
  rfl

theorem onePass_numbers (uids : List Nat) :
    ((onePass u parseMessage key full uids).map (·.2)).Pairwise (· < ·) := by
  have hall : ((uids.zipIdx 1).map (·.2)).Pairwise (· < ·) := by
    rw [List.zipIdx_map_snd]
    exact List.pairwise_lt_range'
  exact hall.sublist (List.filter_sublist.map _)

theorem onePass_uids (uids : List Nat) :
    ((onePass u parseMessage key full uids).map (·.1)).Sublist uids := by
  have hall := (List.filter_sublist (l := uids.zipIdx 1)
    (p := selects u parseMessage key full uids.length (uids.getLast?.getD 0))).map (·.1)
  rwa [List.zipIdx_map_fst] at hall

end

/-- An answer tells of a batch what the mailbox has, with the bytes when they were asked for. -/
def Agrees (full : Nat → Option ImapFetchData) (needRaw : Bool) (batch : List Nat)
    (messages : List ImapFetchData) : Prop :=
  ∀ uid ∈ batch, (byUid messages uid).map (loaded needRaw) = (full uid).map (loaded needRaw)

def withSearch (s : Setup) (parseMessage : Bytes → ParsedMessage) : Setup :=
  { s with
    formats := { s.formats with
      parseSearchProgram := Imap.parseSearchProgram s.host.cases
      searchNeedsRaw := Imap.searchNeedsRaw
      evaluateSearch := Imap.evaluateSearch s.host.cases parseMessage } }

section

variable (s : Setup) (parseMessage : Bytes → ParsedMessage) (full : Nat → Option ImapFetchData)

theorem evaluate_loaded (key : SearchKey) (p : Nat × Nat) (data : ImapFetchData)
    (maxSeq maxUid : Nat) :
    evaluateSearch s.host.cases parseMessage key (searched p (loaded (searchNeedsRaw key) data))
        maxSeq maxUid =
      evaluateSearch s.host.cases parseMessage key (searched p data) maxSeq maxUid := by
  cases hneed : searchNeedsRaw key with
  | true => rfl
  | false =>
    exact evaluateSearch_raw s.host.cases parseMessage key hneed (searched p data) none maxSeq maxUid

theorem selects_agree {key : SearchKey} {uid : Nat} (seq : Nat)
    (h : (byUid messages uid).map (loaded (searchNeedsRaw key)) =
      (full uid).map (loaded (searchNeedsRaw key))) (maxSeq maxUid : Nat) :
    selects s.host.cases parseMessage key (byUid messages) maxSeq maxUid (uid, seq) =
      selects s.host.cases parseMessage key full maxSeq maxUid (uid, seq) := by
  have hload : ∀ o : Option ImapFetchData,
      (o.any fun data => evaluateSearch s.host.cases parseMessage key (searched (uid, seq) data)
          maxSeq maxUid) =
        (o.map (loaded (searchNeedsRaw key))).any fun data =>
          evaluateSearch s.host.cases parseMessage key (searched (uid, seq) data) maxSeq maxUid := by
    intro o
    cases o with
    | none => rfl
    | some data => exact (evaluate_loaded s parseMessage key (uid, seq) data maxSeq maxUid).symm
  rw [selects, selects]
  dsimp only
  rw [hload (byUid messages uid), h, ← hload (full uid)]

theorem matches_filter (plan : SearchPlan) (hneed : plan.needRaw = searchNeedsRaw plan.key)
    (offset : Nat) {batch : List Nat}
    (h : Agrees full plan.needRaw batch messages) :
    (matches? (withSearch s parseMessage) plan offset batch messages).map
        (fun p => (p.2.uid, p.1)) =
      (batch.zipIdx (offset + 1)).filter
        (selects s.host.cases parseMessage plan.key full plan.maxSeq plan.maxUid) := by
  rw [matches?, show offset + 1 = offset + 0 + 1 from rfl]
  generalize 0 = k
  induction batch generalizing k with
  | nil => rfl
  | cons uid batch ih =>
    have hrest := ih (fun v hv => h v (List.mem_cons_of_mem _ hv)) (k + 1)
    have hhead := h uid List.mem_cons_self
    rw [hneed] at hhead
    have hagree := selects_agree s parseMessage full (offset + k + 1) hhead plan.maxSeq plan.maxUid
    rw [List.zipIdx_cons, List.zipIdx_cons, List.filterMap_cons, List.filter_cons, ← hagree,
      show offset + k + 1 + 1 = offset + (k + 1) + 1 by omega, ← hrest]
    cases hdata : byUid messages uid with
    | none => simp [selects, hdata]
    | some data =>
      simp only [selects, searched, withSearch, hdata, Option.any_some]
      split_ifs with hsel <;> simp [hsel]

def hitNumbers (uidMode : Bool) (found : List (Nat × Nat)) : List Nat :=
  found.map fun p => if uidMode then p.1 else p.2

def report (plan : SearchPlan) (found : List (Nat × Nat)) : Answer :=
  searchDone plan.tag plan.verb plan.uidMode plan.esearch (hitNumbers plan.uidMode found)
    (found.map (·.1))

/-- The search before the answer to its batch number `k`. -/
structure Searching (plan : SearchPlan) (view : SelectedView) (k : Nat) (e : Engine) : Prop where
  selected : e.selected = some view
  pending : e.pending = some (.backend (.search plan (k * batchSize plan.needRaw)
    ((view.uids.drop (k * batchSize plan.needRaw)).take (batchSize plan.needRaw))
    (hitNumbers plan.uidMode (passed s.host.cases parseMessage plan.key full view.uids
      (k * batchSize plan.needRaw)))
    ((passed s.host.cases parseMessage plan.key full view.uids
      (k * batchSize plan.needRaw)).map (·.1))))

theorem act_waiting {s : Setup} {m : Move} {k : Resume}
    (hpending : e.pending = some (.backend k)) (hallowed : m.Allowed e)
    (hwait : ∀ res, m ≠ .backendResult res) :
    (m.act s e).1.pending = some (.backend k) ∧ (m.act s e).1.selected = e.selected ∧
      (m.act s e).1.savedSearch = e.savedSearch := by
  have hqueues : queues e = true := by
    rw [queues, hpending]
  cases m with
  | line nonce parts =>
    rw [hallowed.2] at hqueues
    cases hqueues
  | dequeue nonce parts =>
    rw [hallowed.2.1] at hpending
    cases hpending
  | enqueue parts =>
    simp only [Move.act, enqueue]
    split_ifs
    · exact ⟨hpending, rfl, rfl⟩
    · exact ⟨hpending, rfl, rfl⟩
  | settle =>
    simp only [Move.act, settleQueue]
    split_ifs
    · exact ⟨hpending, rfl, rfl⟩
    · exact ⟨hpending, rfl, rfl⟩
  | backendResult res => exact absurd rfl (hwait res)
  | scramKeysResult keys =>
    obtain ⟨tag, session, stage, username, hp⟩ := hallowed
    rw [hp] at hpending
    cases hpending
  | authResult ok =>
    obtain ⟨tag, hp⟩ := hallowed
    rw [hp] at hpending
    cases hpending
  | idleTick =>
    simp only [Move.act, idleTick, hpending]
    simp [hpending]
  | _ => exact ⟨hpending, rfl, rfl⟩

/-- The plan of a search over this view. -/
structure Fits (plan : SearchPlan) (view : SelectedView) : Prop where
  needRaw : plan.needRaw = searchNeedsRaw plan.key
  maxSeq : plan.maxSeq = view.uids.length
  maxUid : plan.maxUid = view.uids.getLast?.getD 0

theorem call_apply (req : ImapBackendRequest) (k : Resume) (e : Engine) :
    (call req k).apply e = ({ e with pending := some (.backend k) }, [.backend req]) := by
  have hmap : e.selected.map (announce none) = e.selected := by
    cases e.selected <;> rfl
  have hsession : (call req k).session e = e := by
    simp [Answer.session, call, enableCondstore_false, hmap]
  simp only [Answer.apply, hsession]
  rfl

theorem found_next (hfits : Fits plan view) {offset : Nat}
    (size : Nat) (hoffset : offset ≤ view.uids.length)
    (hagree : Agrees full plan.needRaw ((view.uids.drop offset).take size) messages) :
    passed s.host.cases parseMessage plan.key full view.uids offset ++
        (matches? (withSearch s parseMessage) plan offset ((view.uids.drop offset).take size)
          messages).map (fun p => (p.2.uid, p.1)) =
      passed s.host.cases parseMessage plan.key full view.uids (offset + size) := by
  rw [passed_next s.host.cases parseMessage plan.key full size hoffset,
    matches_filter s parseMessage full plan hfits.needRaw offset hagree, hfits.maxSeq,
    hfits.maxUid]

theorem Searching.answer (hfits : Fits plan view) (h : Searching s parseMessage full plan view k e)
    (hk : k * batchSize plan.needRaw < view.uids.length)
    (hagree : Agrees full plan.needRaw
      ((view.uids.drop (k * batchSize plan.needRaw)).take (batchSize plan.needRaw)) messages) :
    if (k + 1) * batchSize plan.needRaw < view.uids.length then
      Searching s parseMessage full plan view (k + 1)
        ((Move.backendResult (.messages messages)).act (withSearch s parseMessage) e).1
    else
      (Move.backendResult (.messages messages)).act (withSearch s parseMessage) e =
        (report plan (onePass s.host.cases parseMessage plan.key full view.uids)).apply
          { e with pending := none } := by
  have hnext := found_next s parseMessage full hfits (batchSize plan.needRaw) (Nat.le_of_lt hk) hagree
  have hviewUids : viewUids { e with pending := none } = view.uids := by
    simp [viewUids, h.selected]
  have hmul : k * batchSize plan.needRaw + batchSize plan.needRaw =
      (k + 1) * batchSize plan.needRaw := (Nat.succ_mul _ _).symm
  rw [hmul] at hnext
  have hact : (Move.backendResult (.messages messages)).act (withSearch s parseMessage) e =
      (if (k + 1) * batchSize plan.needRaw < view.uids.length then
        searchFrom plan ((k + 1) * batchSize plan.needRaw)
          (hitNumbers plan.uidMode (passed s.host.cases parseMessage plan.key full view.uids
            ((k + 1) * batchSize plan.needRaw)))
          ((passed s.host.cases parseMessage plan.key full view.uids
            ((k + 1) * batchSize plan.needRaw)).map (·.1)) view.uids
      else
        report plan (passed s.host.cases parseMessage plan.key full view.uids
          ((k + 1) * batchSize plan.needRaw))).apply { e with pending := none } := by
    simp only [Move.act, h.pending, resume, searchAnswer, hviewUids, hmul]
    rw [report, ← hnext]
    simp only [hitNumbers, List.map_append, List.map_map]
    rfl
  rw [hact]
  split_ifs with hmore
  · rw [searchFrom, call_apply]
    exact ⟨h.selected, rfl⟩
  · rw [passed_all s.host.cases parseMessage plan.key full (Nat.le_of_not_lt hmore)]

/-- The hits of a search that reads `size` messages at a time, `answer` to each batch. -/
def inBatches (plan : SearchPlan) (size : Nat) (answer : Nat → List ImapFetchData)
    (uids : List Nat) : List (Nat × Nat) :=
  (List.range ((uids.length + size - 1) / size)).flatMap fun k =>
    (matches? (withSearch s parseMessage) plan (k * size) ((uids.drop (k * size)).take size)
      (answer k)).map fun p => (p.2.uid, p.1)

theorem inBatches_eq (hfits : Fits plan view) {size : Nat}
    (hsize : 0 < size) {answer : Nat → List ImapFetchData}
    (hagree : ∀ k, Agrees full plan.needRaw ((view.uids.drop (k * size)).take size) (answer k)) :
    inBatches s parseMessage plan size answer view.uids =
      onePass s.host.cases parseMessage plan.key full view.uids := by
  have hpassed : ∀ n, n ≤ (view.uids.length + size - 1) / size →
      ((List.range n).flatMap fun k =>
        (matches? (withSearch s parseMessage) plan (k * size)
          ((view.uids.drop (k * size)).take size) (answer k)).map fun p => (p.2.uid, p.1)) =
        passed s.host.cases parseMessage plan.key full view.uids (n * size) := by
    intro n
    induction n with
    | zero => exact fun _ => by simp [passed]
    | succ n ih =>
      intro hn
      have hoffset : n * size ≤ view.uids.length := by
        have hmul := Nat.mul_le_of_le_div size (n + 1) (view.uids.length + size - 1) hn
        rw [Nat.succ_mul] at hmul
        omega
      rw [List.range_succ, List.flatMap_append, ih (by omega), List.flatMap_singleton,
        found_next s parseMessage full hfits size hoffset (hagree n), Nat.succ_mul]
  refine (hpassed _ le_rfl).trans (passed_all s.host.cases parseMessage plan.key full ?_)
  have hdiv := Nat.lt_div_mul_add (a := view.uids.length + size - 1) hsize
  omega

def Move.isResult : Move → Bool
  | .backendResult _ => true
  | _ => false

def answers (ms : List Moment) : Nat := ms.countP fun m => m.move.isResult

def Answered (m : Moment) : Prop :=
  ∀ plan offset batch hits hitUids,
    m.state.pending = some (.backend (.search plan offset batch hits hitUids)) →
      ∀ res, m.move = .backendResult res →
        ∃ messages, res = .messages messages ∧ Agrees full plan.needRaw batch messages

theorem answers_snoc (ms : List Moment) (m : Moment) :
    answers (ms ++ [m]) = answers ms + if m.move.isResult then 1 else 0 := by
  rw [answers, List.countP_append, List.countP_singleton]
  rfl

theorem Searching.history {e e' : Engine}
    {ms : List Moment} (hfits : Fits plan view)
    (hstart : Searching s parseMessage full plan view 0 e)
    (h : History (withSearch s parseMessage) e ms e') (hanswered : ∀ m ∈ ms, Answered full m)
    (hmore : answers ms * batchSize plan.needRaw < view.uids.length) :
    Searching s parseMessage full plan view (answers ms) e' := by
  refine Trace.Linked.history (P := fun past e =>
    answers past * batchSize plan.needRaw < view.uids.length →
      Searching s parseMessage full plan view (answers past) e) h (fun _ => hstart) ?_ hmore
  intro past m hm hallowed hpast hnext
  rw [answers_snoc] at hnext ⊢
  by_cases hresult : ∃ res, m.move = .backendResult res
  · obtain ⟨res, hmove⟩ := hresult
    simp only [hmove, Move.isResult, if_true] at hnext ⊢
    have hk : answers past * batchSize plan.needRaw < view.uids.length := by
      rw [Nat.succ_mul] at hnext
      omega
    have hnow := hpast hk
    obtain ⟨messages, rfl, hagree⟩ := hanswered m hm _ _ _ _ _ hnow.pending res hmove
    have hstep := hnow.answer s parseMessage full hfits hk hagree
    rw [if_pos hnext] at hstep
    exact hstep
  · have hwait : ∀ res, m.move ≠ .backendResult res := fun res hmove => hresult ⟨res, hmove⟩
    have hflag : m.move.isResult = false := by
      cases hmove : m.move with
      | backendResult res => exact absurd hmove (hwait res)
      | _ => rfl
    rw [hflag] at hnext ⊢
    have hnow := hpast hnext
    obtain ⟨hpending, hselected, -⟩ := act_waiting hnow.pending hallowed hwait
    exact ⟨hselected.trans hnow.selected, hpending⟩

/-- The hits are few enough for the calls that take their minimum and maximum. -/
def Reportable (argumentLimit : Nat) (plan : SearchPlan) (hits : List (Nat × Nat)) : Prop :=
  plan.esearch.any (fun o => o.min || o.max) = true → hits.length ≤ argumentLimit

theorem Searching.throws (hfits : Fits plan view)
    (h : Searching s parseMessage full plan view k e) (hk : k * batchSize plan.needRaw < view.uids.length)
    (hlast : view.uids.length ≤ (k + 1) * batchSize plan.needRaw)
    (hagree : Agrees full plan.needRaw
      ((view.uids.drop (k * batchSize plan.needRaw)).take (batchSize plan.needRaw)) messages) :
    searchThrows (withSearch s parseMessage) plan (k * batchSize plan.needRaw)
        ((view.uids.drop (k * batchSize plan.needRaw)).take (batchSize plan.needRaw))
        (hitNumbers plan.uidMode (passed s.host.cases parseMessage plan.key full view.uids
          (k * batchSize plan.needRaw))) e messages = true ↔
      ¬ Reportable s.host.argumentLimit plan
        (onePass s.host.cases parseMessage plan.key full view.uids) := by
  have hnext := congrArg List.length
    (found_next s parseMessage full hfits (batchSize plan.needRaw) (Nat.le_of_lt hk) hagree)
  rw [Nat.succ_mul] at hlast
  rw [passed_all s.host.cases parseMessage plan.key full hlast, List.length_append, List.length_map]
    at hnext
  have hviewUids : viewUids e = view.uids := by simp [viewUids, h.selected]
  have hhost : (withSearch s parseMessage).host = s.host := rfl
  simp only [searchThrows, hviewUids, hhost, hitNumbers, List.length_map, hnext, Reportable,
    Bool.and_eq_true, Bool.not_eq_true', decide_eq_false_iff_not, decide_eq_true_eq, Nat.not_lt,
    hlast, true_and, Classical.not_imp, Nat.not_le]

/-- The answer to the last batch reports the hits, unless they are too many. -/
theorem Searching.reports (hfits : Fits plan view)
    (h : Searching s parseMessage full plan view k e) (hk : k * batchSize plan.needRaw < view.uids.length)
    (hlast : view.uids.length ≤ (k + 1) * batchSize plan.needRaw) (nonce : Nat → Text)
    (hagree : Agrees full plan.needRaw
      ((view.uids.drop (k * batchSize plan.needRaw)).take (batchSize plan.needRaw)) messages) :
    (∃ r, backendResult (withSearch s parseMessage) nonce (.messages messages) e = some r ∧
        ((report plan (onePass s.host.cases parseMessage plan.key full view.uids)).apply
          { e with pending := none }).2 <+: r.2) ↔
      Reportable s.host.argumentLimit plan
        (onePass s.host.cases parseMessage plan.key full view.uids) := by
  have hthrows := h.throws s parseMessage full hfits hk hlast hagree
  have hact := h.answer s parseMessage full hfits hk hagree
  rw [if_neg (Nat.not_lt.mpr hlast)] at hact
  simp only [Move.act, h.pending] at hact
  simp only [backendResult, h.pending, resumeThrows, hact]
  split_ifs with hnone
  · simpa using hthrows.mp hnone
  · exact iff_of_true ⟨_, rfl, List.prefix_append _ _⟩ (not_not.mp (mt hthrows.mpr hnone))

end

theorem cmdSearch_begins (s : Setup) (parseMessage : Bytes → ParsedMessage)
    (full : Nat → Option ImapFetchData) (cmd : ParsedCommand) (uidMode : Bool) {esearch : Option Esearch} {crit : List ImapValue}
    {key : SearchKey} (hsel : e.selected = some view)
    (hreturn : searchReturn s e.enabled.imap4rev2 cmd.args = some (esearch, crit))
    (hprogram : parseSearchProgram s.host.cases crit = .ok key) :
    let plan := searchPlan (withSearch s parseMessage) cmd.tag (uidVerb uidMode "SEARCH") uidMode
      esearch key view
    let a := cmdSearch (withSearch s parseMessage) cmd uidMode view e
    (view.uids = [] → a = report plan []) ∧
      (view.uids ≠ [] → Searching s parseMessage full plan view 0 (a.apply e).1) := by
  have hreturn' : searchReturn (withSearch s parseMessage) e.enabled.imap4rev2 cmd.args =
      some (esearch, crit) := hreturn
  have hprogram' : (withSearch s parseMessage).formats.parseSearchProgram crit = .ok key := hprogram
  constructor
  · intro hempty
    simp only [cmdSearch, hreturn', hprogram', hempty, if_true]
    rfl
  · intro hview
    simp only [cmdSearch, hreturn', hprogram', hview, if_false]
    rw [searchFrom, call_apply]
    refine ⟨hsel, ?_⟩
    simp only [Nat.zero_mul, passed, List.take_zero]
    rfl

/-- Criteria that do not ask for the bytes of a message do not depend on them. A search
reads the view in batches of any size; its view stays until the last is answered, and what one
pass over the whole view keeps, in ascending order, once each, is then reported exactly when it
is not too much for a minimum or maximum that is asked for. -/
theorem search_planning (s : Setup) (parseMessage : Bytes → ParsedMessage) :
    (∀ (key : SearchKey) (msg : SearchMessage) (raw : Option Bytes) (maxSeq maxUid : Nat),
      searchNeedsRaw key = false →
        evaluateSearch s.host.cases parseMessage key (msg.withRaw raw) maxSeq maxUid =
          evaluateSearch s.host.cases parseMessage key msg maxSeq maxUid) ∧
    ∀ (cmd : ParsedCommand) (uidMode : Bool) (view : SelectedView) (e : Engine)
      (esearch : Option Esearch) (crit : List ImapValue) (key : SearchKey)
      (full : Nat → Option ImapFetchData),
      e.selected = some view →
      searchReturn s e.enabled.imap4rev2 cmd.args = some (esearch, crit) →
      parseSearchProgram s.host.cases crit = .ok key →
      let plan := searchPlan (withSearch s parseMessage) cmd.tag (uidVerb uidMode "SEARCH") uidMode
        esearch key view
      let a := cmdSearch (withSearch s parseMessage) cmd uidMode view e
      let hits := onePass s.host.cases parseMessage key full view.uids
      (view.uids = [] → a = report plan hits) ∧
        (view.uids ≠ [] → ∀ (ms : List Moment) (e' : Engine),
          History (withSearch s parseMessage) (a.apply e).1 ms e' →
          (∀ m ∈ ms, Answered full m) →
          answers ms * batchSize plan.needRaw < view.uids.length →
          Searching s parseMessage full plan view (answers ms) e' ∧
          (view.uids.length ≤ (answers ms + 1) * batchSize plan.needRaw →
            ∀ (nonce : Nat → Text) (messages : List ImapFetchData),
              Agrees full plan.needRaw ((view.uids.drop (answers ms * batchSize plan.needRaw)).take
                (batchSize plan.needRaw)) messages →
              ((∃ r, backendResult (withSearch s parseMessage) nonce (.messages messages) e' = some r ∧
                  ((report plan hits).apply { e' with pending := none }).2 <+: r.2) ↔
                Reportable s.host.argumentLimit plan hits))) ∧
        (∀ (size : Nat) (answer : Nat → List ImapFetchData), 0 < size →
          (∀ k, Agrees full plan.needRaw ((view.uids.drop (k * size)).take size) (answer k)) →
          inBatches s parseMessage plan size answer view.uids = hits) ∧
        (hitNumbers false hits).Pairwise (· < ·) ∧
        (hitNumbers true hits).Sublist view.uids ∧
        ∀ past : List Moment,
          History (withSearch s parseMessage) (newEngine s s.options.secure) past e →
          (∀ m ∈ past, m.move.SnapshotAscending) → (hitNumbers uidMode hits).Pairwise (· < ·) := by
  refine ⟨fun key msg raw maxSeq maxUid hraw =>
    evaluateSearch_raw s.host.cases parseMessage key hraw msg raw maxSeq maxUid, ?_⟩
  intro cmd uidMode view e esearch crit key full hsel hreturn hprogram plan a hits
  have hfits : Fits plan view := ⟨rfl, rfl, rfl⟩
  obtain ⟨hempty, hbegins⟩ := cmdSearch_begins s parseMessage full cmd uidMode hsel hreturn hprogram
  have hnumbers : (hitNumbers false hits).Pairwise (· < ·) :=
    onePass_numbers s.host.cases parseMessage key full view.uids
  have huids : (hitNumbers true hits).Sublist view.uids :=
    onePass_uids s.host.cases parseMessage key full view.uids
  refine ⟨?_, ?_, ?_, hnumbers, huids, ?_⟩
  · intro hview
    have hnothing : hits = [] := by
      simp only [hits, onePass, hview, List.zipIdx_nil, List.filter_nil]
    rw [hnothing]
    exact hempty hview
  · intro hview ms e' hhist hanswered hmore
    have hnow := (hbegins hview).history s parseMessage full hfits hhist hanswered hmore
    exact ⟨hnow, fun hlast nonce messages hagree =>
      hnow.reports s parseMessage full hfits hmore hlast nonce hagree⟩
  · intro size answer hsize hagree
    exact inBatches_eq s parseMessage full hfits hsize hagree
  · intro past hpast hsnap
    have hfresh : Ascending (newEngine s s.options.secure) := by
      intro uids huids
      cases huids
    have hasc := (history_ascending _ hpast hsnap hfresh).view hsel
    cases uidMode with
    | false => exact hnumbers
    | true => exact hasc.sublist huids

def quietParse : Bytes → ParsedMessage := fun _ => ⟨[], none⟩

def messageAt (flags : List Text) (uid : Nat) : ImapFetchData :=
  { uid := uid, flags := flags, internalDateMs := 0, size := 10, modseq := 1 }

def inboxView (uids : List Nat) : SelectedView := ⟨"INBOX", true, 1, uids, 10, [], 2⟩

def inboxSelected (uids : List Nat) : Engine :=
  { newEngine bareSetup false with
    state := .selected
    selected := some (inboxView uids) }

/-- `SEARCH RETURN (MIN)` with one criterion. -/
def minCommand (criterion : Text) : ParsedCommand :=
  ⟨"a", "SEARCH", [.atom "RETURN", .list [.atom "MIN"], .atom criterion]⟩

/-- One answer ends a search of three messages. -/
theorem search_planning_unseen :
    ∃ r, backendResult (withSearch bareSetup quietParse) (fun _ => [])
        (.messages [messageAt [] 3, messageAt ["\\Seen"] 9])
        ((cmdSearch (withSearch bareSetup quietParse) (minCommand "UNSEEN") false (inboxView [3, 5, 9])
          (inboxSelected [3, 5, 9])).apply (inboxSelected [3, 5, 9])).1 = some r ∧
      [say "* ESEARCH (TAG \"a\") MIN 1", say "a OK SEARCH completed"] <+: r.2 := by
  have hprogram : parseSearchProgram bareSetup.host.cases [.atom "UNSEEN"] =
      .ok (.flag "\\Seen" true) := by
    rw [parseSearchProgram_atom _ (by decide) (by decide) (by decide)]
    rfl
  obtain ⟨-, hrun, -⟩ := (search_planning bareSetup quietParse).2 (minCommand "UNSEEN") false
    (inboxView [3, 5, 9]) (inboxSelected [3, 5, 9]) (some { min := true }) [.atom "UNSEEN"]
    (.flag "\\Seen" true) (byUid [messageAt [] 3, messageAt ["\\Seen"] 9]) rfl rfl hprogram
  obtain ⟨-, hlast⟩ := hrun (by decide) [] _ (.nil _) (fun m hm => by cases hm) (by decide)
  exact (hlast (by decide) (fun _ => []) _ fun _ _ => rfl).mpr fun _ => by decide

theorem byUid_map {uid : Nat} (h : uid ∈ uids) :
    byUid (uids.map (messageAt [])) uid = some (messageAt [] uid) := by
  rw [byUid, ← List.map_reverse]
  cases hfind : (uids.reverse.map (messageAt [])).find? (·.uid = uid) with
  | none =>
    have hnone := List.find?_eq_none.mp hfind (messageAt [] uid)
      (List.mem_map_of_mem (List.mem_reverse.mpr h))
    simp [messageAt] at hnone
  | some data =>
    obtain ⟨other, -, rfl⟩ := List.mem_map.mp (List.mem_of_find?_eq_some hfind)
    have huid := List.find?_some hfind
    rw [decide_eq_true_eq] at huid
    rw [show other = uid from huid]

/-- A search goes on to its last batch when the backend answers each. -/
theorem Searching.reaches (s : Setup) (parseMessage : Bytes → ParsedMessage)
    (full : Nat → Option ImapFetchData) (hfits : Fits plan view)
    (hstart : Searching s parseMessage full plan view 0 e) {answer : Nat → List ImapFetchData}
    (hagree : ∀ k, Agrees full plan.needRaw
      ((view.uids.drop (k * batchSize plan.needRaw)).take (batchSize plan.needRaw)) (answer k))
    {k : Nat} (hk : k * batchSize plan.needRaw < view.uids.length) :
    ∃ ms e', History (withSearch s parseMessage) e ms e' ∧
      Searching s parseMessage full plan view k e' := by
  induction k with
  | zero => exact ⟨[], e, .nil e, hstart⟩
  | succ k ih =>
    have hbefore : k * batchSize plan.needRaw < view.uids.length := by
      rw [Nat.succ_mul] at hk
      omega
    obtain ⟨ms, e', hhist, hnow⟩ := ih hbefore
    have hstep := hnow.answer s parseMessage full hfits hbefore (hagree k)
    rw [if_pos hk] at hstep
    have hlast : History (withSearch s parseMessage) e' [⟨e', .backendResult (.messages (answer k))⟩] _ :=
      .one ⟨_, hnow.pending⟩
    exact ⟨_, _, hhist.append hlast, hstep⟩

theorem searchAll_throws (hmany : bareSetup.host.argumentLimit < uids.length) :
    ∃ ms e' messages, History (withSearch bareSetup quietParse)
        ((cmdSearch (withSearch bareSetup quietParse) (minCommand "ALL") false (inboxView uids)
          (inboxSelected uids)).apply (inboxSelected uids)).1 ms e' ∧
      backendResult (withSearch bareSetup quietParse) (fun _ => []) (.messages messages) e' = none := by
  have hprogram : parseSearchProgram bareSetup.host.cases [.atom "ALL"] = .ok .all := by
    rw [parseSearchProgram_atom _ (by decide) (by decide) (by decide)]
    rfl
  let view := inboxView uids
  let plan := searchPlan (withSearch bareSetup quietParse) "a" "SEARCH" false (some { min := true }) .all view
  let full : Nat → Option ImapFetchData := fun uid => some (messageAt [] uid)
  let batch (k : Nat) := (uids.drop (k * batchSize plan.needRaw)).take (batchSize plan.needRaw)
  have hfits : Fits plan view := ⟨rfl, rfl, rfl⟩
  have hview : view.uids ≠ [] := List.length_pos_iff.mp (Nat.zero_lt_of_lt hmany)
  have hstart : Searching bareSetup quietParse full plan view 0
      ((cmdSearch (withSearch bareSetup quietParse) (minCommand "ALL") false view
        (inboxSelected uids)).apply (inboxSelected uids)).1 :=
    (cmdSearch_begins bareSetup quietParse full (minCommand "ALL") false rfl rfl hprogram).2 hview
  have hagree (k : Nat) : Agrees full plan.needRaw (batch k) ((batch k).map (messageAt [])) :=
    fun uid huid => by rw [byUid_map huid]
  have hsize : batchSize plan.needRaw = 512 := rfl
  have hk : (uids.length - 1) / 512 * batchSize plan.needRaw < uids.length := by
    rw [hsize]
    omega
  have hlast : uids.length ≤ ((uids.length - 1) / 512 + 1) * batchSize plan.needRaw := by
    rw [hsize]
    omega
  obtain ⟨ms, e', hhist, hnow⟩ := hstart.reaches bareSetup quietParse full hfits hagree hk
  refine ⟨ms, e', (batch ((uids.length - 1) / 512)).map (messageAt []), hhist, ?_⟩
  have hthrows := (hnow.throws bareSetup quietParse full hfits hk hlast (hagree _)).mpr fun hfew => ?_
  · simp only [backendResult, hnow.pending, resumeThrows]
    exact if_pos hthrows
  · have hselects : ∀ p ∈ view.uids.zipIdx 1, selects bareSetup.host.cases quietParse .all full
        view.uids.length (view.uids.getLast?.getD 0) p = true := fun _ _ => rfl
    have hle := hfew rfl
    rw [show plan.key = .all from rfl, onePass, List.filter_eq_self.mpr hselects,
      List.length_zipIdx] at hle
    exact absurd hmany (Nat.not_lt.mpr hle)

/-- A mailbox with more messages than a call may have arguments: the answer to the last batch
throws. -/
theorem search_planning_fails :
    ∃ ms e' messages, History (withSearch bareSetup quietParse)
        ((cmdSearch (withSearch bareSetup quietParse) (minCommand "ALL") false
          (inboxView (List.range' 1 120001)) (inboxSelected (List.range' 1 120001))).apply
            (inboxSelected (List.range' 1 120001))).1 ms e' ∧
      backendResult (withSearch bareSetup quietParse) (fun _ => []) (.messages messages) e' = none :=
  searchAll_throws (by rw [List.length_range']; decide)

end Ionosphere.Imap
