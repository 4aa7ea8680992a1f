import Ionosphere.Pop3.Moments

/-! The maildrop of a session: when it is asked for, how its messages are numbered and which
of them are deleted. What the session promises is kept in a ledger read off its history; the
engine's own marks are compared with it. -/
namespace Ionosphere.Pop3

open Ionosphere.Js Ionosphere.Core Ionosphere.Lib

section

variable {ρ : Type} (s : Setup)

def Moment.actions (m : Moment ρ) : List (Pop3Action ρ) := (m.move.act s m.state).2

def repliesOf (acts : List (Pop3Action ρ)) : List Text :=
  acts.filterMap fun
    | .reply text => some text
    | _ => none

def commitsOf (acts : List (Pop3Action ρ)) : List (List (Pop3EngineMessage ρ)) :=
  acts.filterMap fun
    | .commitDeletions messages => some messages
    | _ => none

def asks (line : Text) (e : Engine ρ) : Option (Verb × Text) :=
  if e.state = .transaction ∧ e.awaitingSasl = none then commandOf s line else none

def Moment.asks (m : Moment ρ) : Option (Verb × Text) :=
  match m.move with
  | .line _ text _ => Pop3.asks s (chompCr text) m.state
  | _ => none

def Moment.quits (m : Moment ρ) : Bool := (m.asks s).any fun c => c.1 = .quit

def Moment.resets (m : Moment ρ) : Bool := (m.asks s).any fun c => c.1 = .rset

def Moment.marks (m : Moment ρ) : Option Nat :=
  match m.asks s with
  | some (.dele, arg) =>
    match parseNonNegativeInt arg with
    | some (some n) =>
      if repliesOf (m.actions s) = ["+OK message ".toList ++ natText n ++ " deleted".toList] then some n
      else none
    | _ => none
  | _ => none

/-- The maildrop that was opened and the numbers marked since the last reset. -/
structure Ledger (ρ : Type) where
  opened : Option (List (Pop3EngineMessage ρ)) := none
  marked : List Nat := []

def Ledger.next (l : Ledger ρ) (m : Moment ρ) : Ledger ρ :=
  match m.move with
  | .openMaildropResult (.opened messages) => { opened := some messages }
  | _ =>
    if m.resets s then { l with marked := [] }
    else { l with marked := l.marked ++ (m.marks s).toList }

def ledger (ms : List (Moment ρ)) : Ledger ρ := ms.foldl (Ledger.next s) {}

def Ledger.numbers (l : Ledger ρ) : List (Pop3EngineMessage ρ × Nat) :=
  (l.opened.getD []).zipIdx 1

def Ledger.deletions (l : Ledger ρ) : List (Pop3EngineMessage ρ) :=
  (l.numbers.filter fun p => p.2 ∈ l.marked).map (·.1)

def Engine.numbers (e : Engine ρ) : List (Pop3EngineMessage ρ × Nat) :=
  e.messages.map fun m => (m.toPop3EngineMessage, m.msgnum)

def Moment.opens (m : Moment ρ) : Bool :=
  match m.move with
  | .openMaildropResult (.opened _) => true
  | _ => false

/-- The law of a session with the history `ms`. -/
structure SessionLaw (ms : List (Moment ρ)) : Prop where
  asked : ∀ m ∈ ms, .openMaildrop ∈ m.actions s →
    m.move = .authResult true ∧ m.actions s = [.openMaildrop]
  opened : (ms.filter Moment.opens).length ≤ 1
  numbered : ∀ past (m : Moment ρ) rest, ms = past ++ m :: rest → m.state.numbers = (ledger s past).numbers
  committed : ∀ past (m : Moment ρ) rest, ms = past ++ m :: rest → ∀ messages,
    .commitDeletions messages ∈ m.actions s →
      m.quits s = true ∧ m.state.closed = false ∧ messages = (ledger s past).deletions
  quit : ∀ past (m : Moment ρ) rest, ms = past ++ m :: rest → m.quits s = true →
    m.actions s = [.commitDeletions (ledger s past).deletions]
  once : (commitsOf (Trace.outputs (Move.act s) ms)).length ≤ 1
  otherwise : (∀ m ∈ ms, m.quits s = false) → commitsOf (Trace.outputs (Move.act s) ms) = []

def Pending.state : Pending → Pop3State
  | .auth | .scramKeys | .openMaildrop => .authorization
  | .retrieve _ _ | .commit => .transaction

def Pop3Action.isPlain : Pop3Action ρ → Bool
  | .openMaildrop | .commitDeletions _ => false
  | _ => true

def Exchanging (e : Engine ρ) : Prop :=
  e.awaitingSasl ≠ none →
    e.state = .authorization ∧ (e.pending = none ∨ e.pending = some .scramKeys)

/-- Neither the messages nor the state change, and nothing is asked of the maildrop but a
message. -/
structure Aside (e : Engine ρ) (r : Engine ρ × List (Pop3Action ρ)) : Prop where
  state : r.1.state = e.state
  messages : r.1.messages = e.messages
  pending : ∀ p, r.1.pending = some p → p.state = e.state ∧ p ≠ .commit
  exchanging : Exchanging r.1
  plain : ∀ a ∈ r.2, a.isPlain = true

variable {s} {e : Engine ρ} {m : Moment ρ} {e' : Engine ρ}

theorem Aside.still (hpending : e.pending = none) (hsasl : Exchanging e)
    (acts : List (Pop3Action ρ)) (hplain : ∀ a ∈ acts, a.isPlain = true) : Aside e (e, acts) := by
  refine ⟨rfl, rfl, fun p hp => ?_, hsasl, hplain⟩
  rw [hpending] at hp
  cases hp

theorem Aside.reply (hpending : e.pending = none) (hsasl : Exchanging e) (text : Text) :
    Aside e (e, [.reply text]) := by
  apply Aside.still hpending hsasl [.reply text]
  simp [Pop3Action.isPlain]

theorem Aside.ended (hpending : e.pending = none) {acts : List (Pop3Action ρ)}
    (hplain : ∀ a ∈ acts, a.isPlain = true) : Aside e ({ e with awaitingSasl := none }, acts) := by
  refine ⟨rfl, rfl, fun p hp => ?_, fun h => absurd rfl h, hplain⟩
  rw [hpending] at hp
  cases hp

theorem requestAuth_aside (hstate : e.state = .authorization) (user : Text)
    {action : Pop3Action ρ} (hplain : action.isPlain = true) :
    Aside e (requestAuth user action e) := by
  refine ⟨rfl, rfl, fun p hp => ?_, fun h => absurd rfl h, by simpa [requestAuth] using hplain⟩
  have hauth : p = .auth := (Option.some.inj hp).symm
  rw [hauth, hstate]
  exact ⟨rfl, by simp⟩

theorem scramRejected_plain (step : ScramStep) :
    ∀ a ∈ (scramRejected step : List (Pop3Action ρ)), a.isPlain = true := by
  intro a ha
  simp only [scramRejected, List.mem_cons, List.not_mem_nil, or_false] at ha
  rcases ha with rfl | rfl
  · cases step <;> rfl
  · rfl

section

variable (hpending : e.pending = none)

include hpending

theorem handleScram_aside (hstate : e.state = .authorization)
    (nonce : Text) (session : ScramServerSession) (stage : ScramStage) (username : Option Text)
    (text : Text) : Aside e (handleScram s nonce session stage username text e) := by
  -- the last two stages are one branch of the source
  have hfinal : Aside e (handleScram s nonce session .clientFinal username text e) := by
    unfold handleScram
    dsimp only
    split
    · refine ⟨rfl, rfl, fun p hp => ?_, fun _ => ⟨hstate, .inl hpending⟩, by simp [Pop3Action.isPlain]⟩
      rw [hpending] at hp
      cases hp
    · exact .ended hpending (scramRejected_plain _)
  cases stage with
  | clientFirst =>
    unfold handleScram
    dsimp only
    split
    · refine ⟨rfl, rfl, fun p hp => ?_, fun _ => ⟨hstate, .inr rfl⟩, by simp [Pop3Action.isPlain]⟩
      have hkeys : p = .scramKeys := (Option.some.inj hp).symm
      rw [hkeys, hstate]
      exact ⟨rfl, by simp⟩
    · exact .ended hpending (scramRejected_plain _)
  | clientFinal => exact hfinal
  | serverFinal => exact hfinal

theorem handleSaslData_aside (hstate : e.state = .authorization)
    (nonce : Text) (sasl : SaslExchange) (data : Text) :
    Aside e (handleSaslData s nonce sasl data e) := by
  have herror : ∀ text : Text, Aside e ({ e with awaitingSasl := none }, [.reply text]) :=
    fun text => .ended hpending (by simp [Pop3Action.isPlain])
  unfold handleSaslData
  split_ifs
  · exact herror _
  · split
    · exact requestAuth_aside hstate _ rfl
    · split
      · exact herror _
      · split
        · exact handleScram_aside hpending hstate nonce _ _ _ _
        · split
          · exact herror _
          · exact requestAuth_aside hstate _ rfl
        · split
          · exact herror _
          · exact requestAuth_aside hstate _ rfl

theorem cmdAuth_aside (hsasl : Exchanging e) (nonce rest : Text) :
    Aside e (cmdAuth s nonce rest e) := by
  unfold cmdAuth
  split
  · exact .reply hpending hsasl _
  · rename_i hstate
    have hauth : e.state = .authorization := not_not.mp hstate
    split
    · exact .reply hpending hsasl _
    · split
      · exact .reply hpending hsasl _
      · dsimp only
        split
        · exact .reply hpending hsasl _
        · rename_i sasl _
          split
          · refine ⟨rfl, rfl, fun p hp => ?_, fun _ => ⟨hauth, .inl hpending⟩,
              by simp [Pop3Action.isPlain]⟩
            rw [hpending] at hp
            cases hp
          · have hdata := handleSaslData_aside (s := s) (e := { e with awaitingSasl := some sasl })
              hpending hauth nonce sasl (splitWord rest).2
            exact ⟨hdata.state, hdata.messages, hdata.pending, hdata.exchanging, hdata.plain⟩

theorem cmdUser_aside (hsasl : Exchanging e) (name : Text) :
    Aside e (cmdUser s name e) := by
  unfold cmdUser
  split_ifs
  · exact .reply hpending hsasl _
  · exact .reply hpending hsasl _
  · exact .reply hpending hsasl _
  · have hnamed := Aside.reply (e := { e with username := some name }) hpending hsasl "+OK".toList
    exact ⟨hnamed.state, hnamed.messages, hnamed.pending, hnamed.exchanging, hnamed.plain⟩

theorem cmdPass_aside (hsasl : Exchanging e)
    (hidle : e.awaitingSasl = none) (pass : Text) : Aside e (cmdPass s pass e) := by
  unfold cmdPass
  split
  · exact .reply hpending hsasl _
  · rename_i hstate
    split
    · exact .reply hpending hsasl _
    · split
      · exact .reply hpending hsasl _
      · exact .reply hpending hsasl _
      · split
        · exact .reply hpending hsasl _
        · refine ⟨rfl, rfl, fun p hp => ?_, fun h => absurd hidle h, by simp [Pop3Action.isPlain]⟩
          have hauth : p = .auth := (Option.some.inj hp).symm
          rw [hauth, not_not.mp hstate]
          exact ⟨rfl, by simp⟩

theorem cmdStls_aside (hsasl : Exchanging e) :
    Aside e (cmdStls s e) := by
  unfold cmdStls
  split_ifs
  · exact .reply hpending hsasl _
  · exact .reply hpending hsasl _
  · exact .reply hpending hsasl _
  · have hwait := Aside.still (e := { e with awaitingTls := true }) hpending hsasl
      [.reply "+OK Begin TLS negotiation".toList, .startTls] (by simp [Pop3Action.isPlain])
    exact ⟨hwait.state, hwait.messages, hwait.pending, hwait.exchanging, hwait.plain⟩

end

theorem Aside.retrieve (hstate : e.state = .transaction) (hidle : e.awaitingSasl = none)
    (msgnum : Nat) (mode : RetrieveMode) :
    Aside e ({ e with pending := some (.retrieve msgnum mode) }, [.retrieve msgnum]) := by
  refine ⟨rfl, rfl, fun p hp => ?_, fun h => absurd hidle h, by simp [Pop3Action.isPlain]⟩
  have hretrieve : p = .retrieve msgnum mode := (Option.some.inj hp).symm
  rw [hretrieve, hstate]
  exact ⟨rfl, by simp⟩

section

variable (hpending : e.pending = none)

include hpending

theorem cmdScan_aside (hsasl : Exchanging e) (heading : Text)
    (column : SessionMessage ρ → Text) (arg : Text) : Aside e (cmdScan heading column arg e) := by
  unfold cmdScan
  split_ifs
  · exact .reply hpending hsasl _
  · split <;> exact .reply hpending hsasl _

theorem cmdTop_aside (hstate : e.state = .transaction)
    (hidle : e.awaitingSasl = none) (rest : Text) : Aside e (cmdTop rest e) := by
  have hsasl : Exchanging e := fun h => absurd hidle h
  unfold cmdTop
  split
  · split
    · exact .reply hpending hsasl _
    · split
      · exact .reply hpending hsasl _
      · exact .retrieve hstate hidle _ _
  · exact .reply hpending hsasl _

theorem requireTransaction_aside (hsasl : Exchanging e)
    {fn : Handler ρ} (h : e.state = .transaction → Aside e (fn e)) :
    Aside e (requireTransaction fn e) := by
  unfold requireTransaction
  split_ifs with hstate
  · exact .reply hpending hsasl _
  · exact h (not_not.mp hstate)

theorem dispatch_aside (hidle : e.awaitingSasl = none)
    (nonce : Text) {verb : Verb} (rest : Text)
    (hverb : e.state = .transaction → verb ≠ .dele ∧ verb ≠ .rset ∧ verb ≠ .quit) :
    Aside e (dispatch s nonce verb rest e) := by
  have hsasl : Exchanging e := fun h => absurd hidle h
  cases verb with
  | capa => exact .reply hpending hsasl _
  | quit =>
    have hstate : e.state = .authorization := by
      cases hstate : e.state with
      | authorization => rfl
      | transaction => exact absurd rfl (hverb hstate).2.2
    have hclose := Aside.still (e := { e with closed := true }) hpending hsasl
      [.reply (signingOff s), .close] (by simp [Pop3Action.isPlain])
    simp only [dispatch, cmdQuit]
    split
    · exact ⟨hclose.state, hclose.messages, hclose.pending, hclose.exchanging, hclose.plain⟩
    · rename_i htransaction
      rw [hstate] at htransaction
      cases htransaction
  | user => exact cmdUser_aside hpending hsasl rest
  | pass => exact cmdPass_aside hpending hsasl hidle rest
  | stls => exact cmdStls_aside hpending hsasl
  | auth => exact cmdAuth_aside hpending hsasl nonce rest
  | apop => exact .reply hpending hsasl _
  | noop =>
    simp only [dispatch]
    refine requireTransaction_aside hpending hsasl fun _ => ?_
    exact .reply hpending hsasl _
  | stat =>
    simp only [dispatch]
    refine requireTransaction_aside hpending hsasl fun _ => ?_
    exact .reply hpending hsasl _
  | list =>
    exact requireTransaction_aside hpending hsasl fun _ => cmdScan_aside hpending hsasl _ _ rest
  | uidl =>
    exact requireTransaction_aside hpending hsasl fun _ => cmdScan_aside hpending hsasl _ _ rest
  | top =>
    exact requireTransaction_aside hpending hsasl fun hstate =>
      cmdTop_aside hpending hstate hidle rest
  | retr =>
    refine requireTransaction_aside hpending hsasl fun hstate => ?_
    unfold cmdRetr
    split
    · exact .reply hpending hsasl _
    · exact .retrieve hstate hidle _ _
  | dele => exact requireTransaction_aside hpending hsasl fun h => absurd rfl (hverb h).1
  | rset => exact requireTransaction_aside hpending hsasl fun h => absurd rfl (hverb h).2.1

theorem handleInput_aside (hsasl : Exchanging e) (nonce : Text)
    {line : Text} (hasks : asks s line e = none) : Aside e (handleInput s nonce line e) := by
  unfold handleInput
  split
  · rename_i sasl hwait
    exact handleSaslData_aside hpending (hsasl (by simp [hwait])).1 nonce sasl line
  · rename_i hidle
    unfold handleLine
    split
    · exact .reply hpending hsasl _
    · rename_i verb rest hcommand
      refine dispatch_aside hpending hidle nonce rest fun hstate => ?_
      simp [asks, hstate, hidle, hcommand] at hasks

end

theorem handleInput_asks (nonce : Text) {line : Text} {verb : Verb} {rest : Text}
    (hasks : asks s line e = some (verb, rest)) :
    e.state = .transaction ∧ e.awaitingSasl = none ∧
      handleInput s nonce line e = dispatch s nonce verb rest e := by
  unfold asks at hasks
  split_ifs at hasks with hstate
  exact ⟨hstate.1, hstate.2, by simp [handleInput, hstate.2, handleLine, hasks]⟩

theorem getActiveMessage_number {arg : Text} {msg : SessionMessage ρ}
    (h : getActiveMessage e arg = .ok msg) : parseNonNegativeInt arg = some (some msg.msgnum) := by
  unfold getActiveMessage at h
  split at h
  · cases h
  · rename_i n hn
    split at h
    · cases h
    · rename_i found hfound
      split_ifs at h
      have hsame : found = msg := Except.ok.inj h
      have hnum : some found.msgnum = n := by simpa using List.find?_some hfound
      rw [hn, ← hnum, hsame]

variable (s) in
/-- The ways a line `m` can go, from the engine with the line taken off. -/
inductive LineEffect (m : Moment ρ) (e : Engine ρ) (r : Engine ρ × List (Pop3Action ρ)) : Prop
  | quit (hquits : m.quits s = true) (hresets : m.resets s = false) (hmarks : m.marks s = none)
      (hstate : e.state = .transaction) (hidle : e.awaitingSasl = none)
      (hr : r = ({ e with pending := some .commit },
        [.commitDeletions ((e.messages.filter (·.deleted)).map (·.toPop3EngineMessage))]))
  | reset (hquits : m.quits s = false) (hresets : m.resets s = true) (text : Text)
      (hr : r = ({ e with messages := e.messages.map fun m => { m with deleted := false } },
        [.reply text]))
  | mark (n : Nat) (hquits : m.quits s = false) (hresets : m.resets s = false)
      (hmarks : m.marks s = some n) (text : Text)
      (hr : r = ({ e with messages := markDeleted n e.messages }, [.reply text]))
  | aside (hquits : m.quits s = false) (hresets : m.resets s = false) (hmarks : m.marks s = none)
      (hr : Aside e r)

theorem cmdDele_effect {nonce text rest arg : Text} (hpending : e.pending = none)
    (hidle : e.awaitingSasl = none)
    (hasks : Moment.asks s ⟨e, .line nonce text rest⟩ = some (.dele, arg))
    (hact : Moment.actions s ⟨e, .line nonce text rest⟩ = (cmdDele arg { e with buffer := rest }).2) :
    LineEffect s ⟨e, .line nonce text rest⟩ { e with buffer := rest }
      (cmdDele arg { e with buffer := rest }) := by
  have hquits : Moment.quits s ⟨e, .line nonce text rest⟩ = false := by simp [Moment.quits, hasks]
  have hresets : Moment.resets s ⟨e, .line nonce text rest⟩ = false := by
    simp [Moment.resets, hasks]
  have hmarks : Moment.marks s ⟨e, .line nonce text rest⟩ =
      match parseNonNegativeInt arg with
      | some (some n) =>
        if repliesOf (cmdDele arg { e with buffer := rest }).2 =
            ["+OK message ".toList ++ natText n ++ " deleted".toList] then some n
        else none
      | _ => none := by
    unfold Moment.marks
    rw [hasks, hact]
  unfold cmdDele at hmarks ⊢
  split
  · rename_i why herror
    refine .aside hquits hresets ?_
      (.reply (e := { e with buffer := rest }) hpending (fun h => absurd hidle h) _)
    rw [hmarks, herror]
    split
    · simp [repliesOf, Pop3Action.err]
    · rfl
  · rename_i msg hok
    refine .mark msg.msgnum hquits hresets ?_ _ rfl
    rw [hmarks, hok, getActiveMessage_number hok]
    exact if_pos rfl

theorem line_effect (nonce text rest : Text) (hpending : e.pending = none)
    (hsasl : Exchanging e) :
    LineEffect s ⟨e, .line nonce text rest⟩ { e with buffer := rest }
      ((Move.line nonce text rest).act s e) := by
  cases hasks : asks s (chompCr text) e with
  | none =>
    have hnone : Moment.asks s ⟨e, .line nonce text rest⟩ = none := hasks
    refine .aside (by simp [Moment.quits, hnone]) (by simp [Moment.resets, hnone])
      (by simp [Moment.marks, hnone]) ?_
    exact handleInput_aside (e := { e with buffer := rest }) hpending hsasl nonce hasks
  | some c =>
    obtain ⟨verb, arg⟩ := c
    have hsome : Moment.asks s ⟨e, .line nonce text rest⟩ = some (verb, arg) := hasks
    have hasks' : asks s (chompCr text) { e with buffer := rest } = some (verb, arg) := hasks
    obtain ⟨hstate, hidle, hinput⟩ := handleInput_asks nonce hasks'
    have hstate' : e.state = .transaction := hstate
    have hact : (Move.line nonce text rest).act s e =
        dispatch s nonce verb arg { e with buffer := rest } := hinput
    rw [hact]
    by_cases hdele : verb = .dele
    · subst hdele
      have hcmd : dispatch s nonce .dele arg { e with buffer := rest } =
          cmdDele arg { e with buffer := rest } := by simp [dispatch, requireTransaction, hstate']
      rw [hcmd]
      refine cmdDele_effect hpending hidle hsome ?_
      rw [← hcmd, ← hact]
      rfl
    · have hmarks : Moment.marks s ⟨e, .line nonce text rest⟩ = none := by
        unfold Moment.marks
        rw [hsome]
        cases verb <;> simp_all
      by_cases hrset : verb = .rset
      · subst hrset
        have hcmd : dispatch s nonce .rset arg { e with buffer := rest } =
            cmdRset { e with buffer := rest } := by simp [dispatch, requireTransaction, hstate']
        rw [hcmd]
        exact .reset (by simp [Moment.quits, hsome]) (by simp [Moment.resets, hsome]) _ rfl
      · by_cases hquit : verb = .quit
        · subst hquit
          refine .quit (by simp [Moment.quits, hsome]) (by simp [Moment.resets, hsome]) hmarks hstate
            hidle ?_
          simp only [dispatch, cmdQuit]
          split
          · rename_i hauth
            rw [hstate'] at hauth
            cases hauth
          · rfl
        · refine .aside (by simp [Moment.quits, hsome, hquit]) (by simp [Moment.resets, hsome, hrset])
            hmarks ?_
          exact dispatch_aside (e := { e with buffer := rest }) hpending hidle nonce arg fun _ =>
            ⟨hdele, hrset, hquit⟩

def Ledger.messages (l : Ledger ρ) : List (SessionMessage ρ) :=
  l.numbers.map fun p => ⟨p.1, p.2, decide (p.2 ∈ l.marked)⟩

theorem markDeleted_numbered (xs : List (Pop3EngineMessage ρ)) (k n : Nat) (marked : List Nat) :
    markDeleted n ((xs.zipIdx k).map fun p => ⟨p.1, p.2, decide (p.2 ∈ marked)⟩) =
      (xs.zipIdx k).map fun p => ⟨p.1, p.2, decide (p.2 ∈ marked ++ [n])⟩ := by
  induction xs generalizing k with
  | nil => rfl
  | cons x xs ih =>
    simp only [List.zipIdx_cons, List.map_cons, markDeleted]
    split_ifs with hk
    · -- the numbers after this one are larger
      have hrest : ∀ p ∈ xs.zipIdx (k + 1), (p.2 ∈ marked ++ [n] ↔ p.2 ∈ marked) := by
        intro p hp
        have hle := (List.mem_zipIdx hp).1
        have hne : p.2 ≠ n := by omega
        simp [hne]
      congr 1
      · simp [hk]
      · refine List.map_congr_left fun p hp => ?_
        simp [hrest p hp]
    · have hhead : (k ∈ marked ++ [n]) = (k ∈ marked) := by simp [hk]
      rw [ih]
      simp [hhead]

structure Kept (l : Ledger ρ) (e : Engine ρ) : Prop where
  messages : e.messages = l.messages
  opened : e.state = .authorization → l.opened = none
  pending : ∀ p, e.pending = some p → p.state = e.state
  exchanging : Exchanging e

variable {l : Ledger ρ}

theorem Kept.numbers (h : Kept l e) : e.numbers = l.numbers := by
  unfold Engine.numbers
  rw [h.messages, Ledger.messages, List.map_map]
  exact List.map_id _

theorem Kept.deletions (h : Kept l e) :
    (e.messages.filter (·.deleted)).map (·.toPop3EngineMessage) = l.deletions := by
  rw [h.messages, Ledger.messages, List.filter_map, List.map_map, Ledger.deletions]
  rfl

theorem Kept.aside {r : Engine ρ × List (Pop3Action ρ)} (h : Kept l e) (hr : Aside e r) :
    Kept l r.1 := by
  refine ⟨hr.messages.trans h.messages, ?_, ?_, hr.exchanging⟩
  · rw [hr.state]
    exact h.opened
  · intro p hp
    rw [hr.state]
    exact (hr.pending p hp).1

theorem Kept.answered (h : Kept l e) (hstate : e'.state = e.state)
    (hmessages : e'.messages = e.messages) (hpending : e'.pending = none)
    (hsasl : e'.awaitingSasl ≠ none → e'.state = .authorization) : Kept l e' := by
  refine ⟨hmessages.trans h.messages, ?_, ?_, fun hwait => ⟨hsasl hwait, .inl hpending⟩⟩
  · rw [hstate]
    exact h.opened
  · intro p hp
    rw [hpending] at hp
    cases hp

theorem Ledger.next_of_idle (hasks : m.asks s = none) (hopens : m.opens = false) :
    l.next s m = l := by
  have hresets : m.resets s = false := by simp [Moment.resets, hasks]
  have hmarks : m.marks s = none := by simp [Moment.marks, hasks]
  unfold Ledger.next
  split
  · rename_i messages hmove
    simp [Moment.opens, hmove] at hopens
  · simp [hresets, hmarks]

theorem Kept.line {nonce text rest : Text} (h : Kept l e)
    (hallowed : (Move.line nonce text rest).Allowed e) :
    Kept (l.next s ⟨e, .line nonce text rest⟩) ((Move.line nonce text rest).act s e).1 := by
  have htaken : Kept l { e with buffer := rest } := ⟨h.messages, h.opened, h.pending, h.exchanging⟩
  cases line_effect (s := s) nonce text rest hallowed.1 h.exchanging with
  | quit hquits hresets hmarks hstate hidle hr =>
    have hnext : l.next s ⟨e, .line nonce text rest⟩ = l := by simp [Ledger.next, hresets, hmarks]
    rw [hnext, hr]
    refine ⟨h.messages, h.opened, fun p hp => ?_, fun hwait => absurd hidle hwait⟩
    rw [← Option.some.inj hp]
    exact hstate.symm
  | reset hquits hresets answer hr =>
    have hnext : l.next s ⟨e, .line nonce text rest⟩ = { l with marked := [] } := by
      simp [Ledger.next, hresets]
    rw [hnext, hr]
    refine ⟨?_, h.opened, h.pending, h.exchanging⟩
    simp only [h.messages, Ledger.messages, List.map_map, List.not_mem_nil, decide_false]
    rfl
  | mark n hquits hresets hmarks answer hr =>
    have hnext : l.next s ⟨e, .line nonce text rest⟩ = { l with marked := l.marked ++ [n] } := by
      simp [Ledger.next, hresets, hmarks]
    rw [hnext, hr]
    refine ⟨?_, h.opened, h.pending, h.exchanging⟩
    simp only [h.messages]
    exact markDeleted_numbered _ 1 n l.marked
  | aside hquits hresets hmarks hr =>
    have hnext : l.next s ⟨e, .line nonce text rest⟩ = l := by simp [Ledger.next, hresets, hmarks]
    rw [hnext]
    exact htaken.aside hr

theorem scramKeysGiven_kept (keys : Option ScramStoredKeys) (h : Kept l e)
    (hpending : e.pending = some .scramKeys) : Kept l (scramKeysGiven s keys e).1 := by
  have hstate : e.state = .authorization := (h.pending _ hpending).symm
  unfold scramKeysGiven
  split
  · split <;> exact h.answered rfl rfl rfl fun _ => hstate
  · exact h.answered rfl rfl rfl fun _ => hstate

theorem maildropGiven_kept (result : Pop3OpenMaildropResult ρ) (h : Kept l e)
    (hpending : e.pending = some .openMaildrop) :
    Kept (l.next s ⟨e, .openMaildropResult result⟩) (maildropGiven result e).1 := by
  have hidle : e.awaitingSasl = none := by
    by_contra hwait
    have := (h.exchanging hwait).2
    simp [hpending] at this
  cases result with
  | refused inUse =>
    have hnext : l.next s ⟨e, .openMaildropResult (.refused inUse)⟩ = l :=
      Ledger.next_of_idle rfl rfl
    rw [hnext]
    exact h.answered rfl rfl rfl fun hwait => absurd hidle hwait
  | opened messages =>
    refine ⟨?_, fun hstate => (by cases hstate), fun p hp => (by cases hp),
      fun hwait => absurd hidle hwait⟩
    have hfirst : messages.zipIdx 1 = (messages.zipIdx).map (Prod.map id (· + 1)) :=
      (List.map_snd_add_zipIdx_eq_zipIdx (n := 1) (k := 0)).symm
    simp only [maildropGiven, numbered, Ledger.next, Ledger.messages, Ledger.numbers,
      Option.getD_some, List.not_mem_nil, decide_false, hfirst, List.map_map]
    rfl

theorem guardBuffer_cases (e : Engine ρ) :
    guardBuffer e = (e, []) ∨
      guardBuffer e = ({ e with buffer := [], closed := true },
        [.err "line too long, closing connection".toList, .close]) := by
  unfold guardBuffer
  by_cases hfits : utf16Length e.buffer ≤
      (if e.pending.isNone then maxCommandLine else maxPipelinePendingBytes)
  · exact .inl (if_pos hfits)
  · exact .inr (if_neg hfits)

theorem Kept.act (h : Kept l m.state) (hallowed : m.move.Allowed m.state) :
    Kept (l.next s m) (m.move.act s m.state).1 := by
  obtain ⟨e, move⟩ := m
  dsimp only at h hallowed ⊢
  cases move with
  | line nonce text rest => exact h.line hallowed
  | openMaildropResult result => exact maildropGiven_kept result h hallowed
  | greeting =>
    rw [Ledger.next_of_idle rfl rfl]
    exact h
  | read chunk =>
    rw [Ledger.next_of_idle rfl rfl]
    exact ⟨h.messages, h.opened, h.pending, h.exchanging⟩
  | guard =>
    rw [Ledger.next_of_idle rfl rfl]
    simp only [Move.act]
    obtain hsame | hcut := guardBuffer_cases e
    · rw [hsame]
      exact h
    · rw [hcut]
      exact ⟨h.messages, h.opened, h.pending, h.exchanging⟩
  | scramKeysResult keys =>
    rw [Ledger.next_of_idle rfl rfl]
    exact scramKeysGiven_kept keys h hallowed
  | authResult ok =>
    rw [Ledger.next_of_idle rfl rfl]
    have hpending : e.pending = some .auth := hallowed
    have hstate : e.state = .authorization := (h.pending _ hpending).symm
    have hidle : e.awaitingSasl = none := by
      by_contra hwait
      have := (h.exchanging hwait).2
      simp [hpending] at this
    simp only [Move.act, authGiven]
    split
    · refine ⟨h.messages, h.opened, fun p hp => ?_, fun hwait => absurd hidle hwait⟩
      rw [← Option.some.inj hp]
      exact hstate.symm
    · exact h.answered rfl rfl rfl fun hwait => absurd hidle hwait
  | retrieveResult result =>
    rw [Ledger.next_of_idle rfl rfl]
    dsimp only [Move.act]
    cases hgiven : messageGiven s result e with
    | none => exact h
    | some r =>
      obtain ⟨_, _, _, -, rfl, -⟩ := messageGiven_some s hgiven
      exact h.answered rfl rfl rfl fun hwait => (h.exchanging hwait).1
  | commitDeletionsResult ok =>
    rw [Ledger.next_of_idle rfl rfl]
    exact h.answered rfl rfl rfl fun hwait => (h.exchanging hwait).1
  | tlsEstablished =>
    rw [Ledger.next_of_idle rfl rfl]
    exact ⟨h.messages, h.opened, h.pending, h.exchanging⟩

variable (s) in
/-- What is put out at a moment: the deletions at a QUIT, the request for the maildrop after
a login, or neither. -/
inductive Asked (l : Ledger ρ) (m : Moment ρ) : Prop
  | commit (hquits : m.quits s = true) (hopen : m.state.closed = false)
      (hfree : m.state.pending = none) (hpending : (m.move.act s m.state).1.pending = some .commit)
      (hacts : m.actions s = [.commitDeletions l.deletions])
  | maildrop (hquits : m.quits s = false) (hmove : m.move = .authResult true)
      (hacts : m.actions s = [.openMaildrop])
  | plain (hquits : m.quits s = false) (hacts : ∀ a ∈ m.actions s, a.isPlain = true)

theorem Kept.asked (h : Kept l m.state) (hallowed : m.move.Allowed m.state) :
    Asked s l m := by
  obtain ⟨e, move⟩ := m
  dsimp only at h hallowed
  cases move with
  | line nonce text rest =>
    cases line_effect (s := s) nonce text rest hallowed.1 h.exchanging with
    | quit hquits hresets hmarks hstate hidle hr =>
      refine .commit hquits hallowed.2.1 hallowed.1 (by rw [hr]) ?_
      rw [Moment.actions, hr, ← h.deletions]
    | reset hquits hresets answer hr =>
      refine .plain hquits ?_
      rw [Moment.actions, hr]
      simp [Pop3Action.isPlain]
    | mark n hquits hresets hmarks answer hr =>
      refine .plain hquits ?_
      rw [Moment.actions, hr]
      simp [Pop3Action.isPlain]
    | aside hquits hresets hmarks hr => exact .plain hquits hr.plain
  | guard =>
    refine .plain rfl ?_
    simp only [Moment.actions, Move.act]
    obtain hsame | hcut := guardBuffer_cases e
    · simp [hsame]
    · rw [hcut]
      simp [Pop3Action.err, Pop3Action.isPlain]
  | scramKeysResult keys =>
    refine .plain rfl ?_
    simp only [Moment.actions, Move.act, scramKeysGiven]
    split
    · split
      · simp [Pop3Action.isPlain]
      · exact scramRejected_plain _
    · simp
  | authResult ok =>
    cases ok with
    | true => exact .maildrop rfl rfl rfl
    | false => exact .plain rfl (by simp [Moment.actions, Move.act, authGiven, authenticationFailed,
        Pop3Action.err, Pop3Action.isPlain])
  | openMaildropResult result =>
    refine .plain rfl ?_
    cases result <;> simp [Moment.actions, Move.act, maildropGiven, Pop3Action.err, Pop3Action.isPlain]
  | retrieveResult result =>
    refine .plain rfl ?_
    dsimp only [Moment.actions, Move.act]
    cases hgiven : messageGiven s result e with
    | none => exact List.forall_mem_nil _
    | some r =>
      obtain ⟨_, _, a, -, rfl, ha⟩ := messageGiven_some s hgiven
      rw [Option.getD_some, List.forall_mem_singleton]
      obtain ⟨text, rfl⟩ | ⟨bytes, rfl⟩ := ha <;> rfl
  | commitDeletionsResult ok =>
    refine .plain rfl ?_
    cases ok <;> simp [Moment.actions, Move.act, commitGiven, Pop3Action.err, Pop3Action.isPlain]
  | greeting => exact .plain rfl (by simp [Moment.actions, Move.act, greeting, Pop3Action.isPlain])
  | read chunk => exact .plain rfl (by simp [Moment.actions, Move.act])
  | tlsEstablished => exact .plain rfl (by simp [Moment.actions, Move.act])

theorem commitsOf_plain {acts : List (Pop3Action ρ)} (h : ∀ a ∈ acts, a.isPlain = true) :
    commitsOf acts = [] := by
  rw [commitsOf, List.filterMap_eq_nil_iff]
  intro a ha
  cases a with
  | commitDeletions messages => cases h _ ha
  | _ => rfl

theorem commitsOf_append (as bs : List (Pop3Action ρ)) :
    commitsOf (as ++ bs) = commitsOf as ++ commitsOf bs := List.filterMap_append

def Ending (e : Engine ρ) : Prop := e.pending = some .commit ∨ e.closed = true

theorem Ending.act (h : Ending m.state) (hallowed : m.move.Allowed m.state) :
    Ending (m.move.act s m.state).1 := by
  obtain ⟨e, move⟩ := m
  dsimp only at h hallowed ⊢
  have hclosed : ∀ {p : Pending}, e.pending = some p → p ≠ .commit → e.closed = true := by
    intro p hp hne
    refine h.resolve_left fun hcommit => hne ?_
    rw [hcommit] at hp
    exact (Option.some.inj hp).symm
  cases move with
  | greeting => exact h
  | read chunk => exact h
  | tlsEstablished => exact h
  | line nonce text rest =>
    obtain ⟨hpending, hopen, -⟩ := hallowed
    rcases h with h | h
    · rw [hpending] at h
      cases h
    · rw [hopen] at h
      cases h
  | guard =>
    simp only [Move.act]
    obtain hsame | hcut := guardBuffer_cases e
    · rw [hsame]
      exact h
    · rw [hcut]
      exact .inr rfl
  | scramKeysResult keys =>
    have hend := hclosed hallowed (by simp)
    simp only [Move.act, scramKeysGiven]
    split
    · split <;> exact .inr hend
    · exact .inr hend
  | authResult ok =>
    have hend := hclosed hallowed (by simp)
    simp only [Move.act, authGiven]
    split <;> exact .inr hend
  | openMaildropResult result =>
    have hend := hclosed hallowed (by simp)
    cases result <;> exact .inr hend
  | retrieveResult result =>
    obtain ⟨msgnum, mode, hpending⟩ := hallowed
    have hend := hclosed hpending (by simp)
    dsimp only [Move.act]
    cases hgiven : messageGiven s result e with
    | none => exact .inr hend
    | some r =>
      obtain ⟨_, _, _, -, rfl, -⟩ := messageGiven_some s hgiven
      exact .inr hend
  | commitDeletionsResult ok => exact .inr rfl

theorem ledger_append (past : List (Moment ρ)) (m : Moment ρ) :
    ledger s (past ++ [m]) = (ledger s past).next s m := List.foldl_concat ..

theorem Ledger.next_opened (hopens : m.opens = false) :
    (l.next s m).opened = l.opened := by
  unfold Ledger.next
  split
  · rename_i messages hmove
    simp [Moment.opens, hmove] at hopens
  · split <;> rfl

variable (s) in
/-- What holds of the moments before and the engine they lead to. -/
structure Passed (past : List (Moment ρ)) (e : Engine ρ) : Prop where
  kept : Kept (ledger s past) e
  opened : (past.filter Moment.opens).length ≤ 1
  unopened : (ledger s past).opened = none → past.filter Moment.opens = []
  commits : commitsOf (Trace.outputs (Move.act s) past) = [] ∨
    (commitsOf (Trace.outputs (Move.act s) past)).length = 1 ∧ Ending e

theorem passed_newEngine : Passed s [] (newEngine s ρ) := by
  refine ⟨⟨rfl, fun _ => rfl, fun p hp => ?_, fun hwait => absurd rfl hwait⟩, by simp, by simp, .inl rfl⟩
  cases hp

theorem Passed.commits_step {past : List (Moment ρ)} (h : Passed s past m.state)
    (hallowed : m.move.Allowed m.state) :
    commitsOf (Trace.outputs (Move.act s) (past ++ [m])) = [] ∨
      (commitsOf (Trace.outputs (Move.act s) (past ++ [m]))).length = 1 ∧
        Ending (m.move.act s m.state).1 := by
  have hmore : commitsOf (Trace.outputs (Move.act s) (past ++ [m])) =
      commitsOf (Trace.outputs (Move.act s) past) ++ commitsOf (m.actions s) := by
    rw [Trace.outputs_append, commitsOf_append, Trace.outputs_cons]
    exact congrArg (fun acts => _ ++ commitsOf acts) (List.append_nil _)
  have hquiet : commitsOf (m.actions s) = [] →
      commitsOf (Trace.outputs (Move.act s) (past ++ [m])) = [] ∨
        (commitsOf (Trace.outputs (Move.act s) (past ++ [m]))).length = 1 ∧
          Ending (m.move.act s m.state).1 := by
    intro hnone
    rw [hmore, hnone, List.append_nil]
    refine h.commits.imp_right fun hone => ⟨hone.1, hone.2.act hallowed⟩
  cases h.kept.asked (s := s) hallowed with
  | plain hquits hacts => exact hquiet (commitsOf_plain hacts)
  | maildrop hquits hmove hacts =>
    refine hquiet ?_
    rw [hacts]
    rfl
  | commit hquits hopen hfree hpending hacts =>
    -- a line is taken only while nothing is awaited, so nothing was committed before
    have hfirst : commitsOf (Trace.outputs (Move.act s) past) = [] := by
      refine h.commits.resolve_right fun hone => ?_
      rcases hone.2 with hcommit | hclosed
      · rw [hfree] at hcommit
        cases hcommit
      · rw [hopen] at hclosed
        cases hclosed
    rw [hmore, hfirst, hacts]
    exact .inr ⟨rfl, .inl hpending⟩

theorem Passed.step {past : List (Moment ρ)} (h : Passed s past m.state)
    (hallowed : m.move.Allowed m.state) : Passed s (past ++ [m]) (m.move.act s m.state).1 := by
  have hkept := h.kept.act (s := s) hallowed
  rw [← ledger_append] at hkept
  cases hopens : m.opens with
  | false =>
    have hfilter : (past ++ [m]).filter Moment.opens = past.filter Moment.opens := by simp [hopens]
    refine ⟨hkept, by rw [hfilter]; exact h.opened, ?_, h.commits_step hallowed⟩
    rw [hfilter, ledger_append, Ledger.next_opened hopens]
    exact h.unopened
  | true =>
    have hopened : m.state.pending = some .openMaildrop ∧
        ((ledger s past).next s m).opened ≠ none := by
      obtain ⟨e, move⟩ := m
      cases move with
      | openMaildropResult result =>
        cases result with
        | opened messages => exact ⟨hallowed, by simp [Ledger.next]⟩
        | refused inUse => cases hopens
      | _ => cases hopens
    have hstate : m.state.state = .authorization := (h.kept.pending _ hopened.1).symm
    have hnone : past.filter Moment.opens = [] := h.unopened (h.kept.opened hstate)
    refine ⟨hkept, by simp [hnone, hopens], fun hno => ?_, h.commits_step hallowed⟩
    rw [ledger_append] at hno
    exact absurd hno hopened.2

theorem passed_of_history {ms : List (Moment ρ)}
    (h : History s (newEngine s ρ) ms e') : Passed s ms e' :=
  Trace.Linked.history h passed_newEngine fun _ _ _ hallowed hpast => hpast.step hallowed

theorem passed_at {past rest : List (Moment ρ)}
    (h : History s (newEngine s ρ) (past ++ m :: rest) e') :
    Passed s past m.state ∧ m.move.Allowed m.state := by
  obtain ⟨e, hpast, hrest⟩ := Trace.Linked.split h
  cases hrest with
  | cons hallowed _ => exact ⟨passed_of_history hpast, hallowed⟩

theorem sessionLaw_of_history {ms : List (Moment ρ)}
    (h : History s (newEngine s ρ) ms e') : SessionLaw s ms := by
  have hpassed := passed_of_history h
  have hasked : ∀ past m rest, ms = past ++ m :: rest →
      Kept (ledger s past) m.state ∧ Asked s (ledger s past) m := by
    rintro past m rest rfl
    obtain ⟨hpast, hallowed⟩ := passed_at h
    exact ⟨hpast.kept, hpast.kept.asked hallowed⟩
  refine ⟨fun m hm hopen => ?_, hpassed.opened, fun past m rest hms => (hasked past m rest hms).1.numbers,
    fun past m rest hms messages hcommit => ?_, fun past m rest hms hquits => ?_, ?_, fun hno => ?_⟩
  · obtain ⟨past, rest, hms⟩ := List.append_of_mem hm
    cases (hasked past m rest hms).2 with
    | commit hquits hclosed hfree hpending hacts => simp [hacts] at hopen
    | maildrop hquits hmove hacts => exact ⟨hmove, hacts⟩
    | plain hquits hacts => cases hacts _ hopen
  · cases (hasked past m rest hms).2 with
    | commit hquits hclosed hfree hpending hacts =>
      refine ⟨hquits, hclosed, ?_⟩
      simpa [hacts] using hcommit
    | maildrop hquits hmove hacts => simp [hacts] at hcommit
    | plain hquits hacts => cases hacts _ hcommit
  · cases (hasked past m rest hms).2 with
    | commit _ _ _ _ hacts => exact hacts
    | maildrop hno _ _ => simp [hquits] at hno
    | plain hno _ => simp [hquits] at hno
  · rcases hpassed.commits with hnone | hone
    · simp [hnone]
    · exact hone.1.le
  · refine List.filterMap_eq_nil_iff.mpr fun a ha => ?_
    obtain ⟨m, hm, ha⟩ := List.mem_flatMap.mp ha
    obtain ⟨past, rest, hms⟩ := List.append_of_mem hm
    cases (hasked past m rest hms).2 with
    | commit hquits _ _ _ _ => simp [hno m hm] at hquits
    | maildrop _ _ hacts =>
      have hsame : a = .openMaildrop := by
        rw [← Moment.actions, hacts] at ha
        simpa using ha
      rw [hsame]
    | plain _ hacts =>
      have hplain := hacts a ha
      cases a with
      | commitDeletions messages => cases hplain
      | _ => rfl

end

/-- Every run keeps the law of the session, and its moments put out what the run does. -/
theorem session_law (ρ : Type) (s : Setup) (is : List (Input ρ)) (e : Engine ρ)
    (acts : List (List (Pop3Action ρ))) (h : run s (newEngine s ρ) is = some (e, acts)) :
    SessionLaw s (runMoments s (newEngine s ρ) is) ∧
      Trace.outputs (Move.act s) (runMoments s (newEngine s ρ) is) = acts.flatten := by
  obtain ⟨hhistory, houtputs⟩ := run_history s h
  exact ⟨sessionLaw_of_history hhistory, houtputs⟩

def secureSetup : Setup :=
  { host := { cases := ⟨id, id⟩, sha256 := id, hmac := fun _ b => b, serverNonce := fun _ => [] }
    options := { hostname := "mx".toList, secure := true } }

/-- A mark that is taken back, one that stays, and QUIT in the same chunk. -/
def deletingRun : List (Input Nat) :=
  [⟨.feed (utf8Encode "USER u\r\nPASS p\r\n".toList), fun _ => []⟩,
    ⟨.authResult true, fun _ => []⟩,
    ⟨.openMaildropResult (.opened [⟨"a".toList, 10, 7⟩, ⟨"b".toList, 20, 8⟩]), fun _ => []⟩,
    ⟨.feed (utf8Encode "DELE 1\r\nRSET\r\nDELE 2\r\nQUIT\r\n".toList), fun _ => []⟩,
    ⟨.commitDeletionsResult true, fun _ => []⟩]

theorem session_law_deletes :
    ∃ (e : Engine Nat) (acts : List (List (Pop3Action Nat))),
      run secureSetup (newEngine secureSetup Nat) deletingRun = some (e, acts) ∧
        commitsOf acts.flatten = [[⟨"b".toList, 20, 8⟩]] ∧
        SessionLaw secureSetup (runMoments secureSetup (newEngine secureSetup Nat) deletingRun) := by
  have hcommits : (run secureSetup (newEngine secureSetup Nat) deletingRun).map
      (fun r => commitsOf r.2.flatten) = some [[⟨"b".toList, 20, 8⟩]] := by
    decide +kernel
  obtain ⟨⟨e, acts⟩, hrun, hacts⟩ := Option.map_eq_some_iff.mp hcommits
  exact ⟨e, acts, hrun, hacts, (session_law Nat secureSetup deletingRun e acts hrun).1⟩

end Ionosphere.Pop3
