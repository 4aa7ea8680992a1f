import Ionosphere.Pop3.Moments

/-! STLS and the plaintext before it. The engine waits for the handshake once STLS is
accepted, and drops the chunks that come in the meantime. But the lines behind STLS in its
own chunk are handled, and what is left of the buffer and of an unfinished character stays
for the session inside TLS. -/
namespace Ionosphere.Pop3

open Ionosphere.Js Ionosphere.Core Ionosphere.Lib

section

variable {ρ : Type} (s : Setup)

/-- The line and the session state stay; messages change in a transaction only. -/
structure Frame (e e' : Engine ρ) : Prop where
  state : e'.state = e.state
  secure : e'.secure = e.secure
  awaitingTls : e'.awaitingTls = e.awaitingTls
  decoder : e'.decoder = e.decoder
  buffer : e'.buffer = e.buffer
  messages : e.state = .authorization → e'.messages = e.messages

theorem Frame.refl (e : Engine ρ) : Frame e e := ⟨rfl, rfl, rfl, rfl, rfl, fun _ => rfl⟩

theorem handleScram_frame (nonce : Text) (session : ScramServerSession) (stage : ScramStage)
    (username : Option Text) (text : Text) (e : Engine ρ) :
    Frame e (handleScram s nonce session stage username text e).1 := by
  unfold handleScram
  cases stage with
  | clientFirst =>
    dsimp only
    split <;> exact ⟨rfl, rfl, rfl, rfl, rfl, fun _ => rfl⟩
  | _ =>
    dsimp only
    split <;> exact ⟨rfl, rfl, rfl, rfl, rfl, fun _ => rfl⟩

theorem handleSaslData_frame (nonce : Text) (sasl : SaslExchange) (data : Text) (e : Engine ρ) :
    Frame e (handleSaslData s nonce sasl data e).1 := by
  unfold handleSaslData
  split
  · exact ⟨rfl, rfl, rfl, rfl, rfl, fun _ => rfl⟩
  · split
    · exact ⟨rfl, rfl, rfl, rfl, rfl, fun _ => rfl⟩
    · split
      · exact ⟨rfl, rfl, rfl, rfl, rfl, fun _ => rfl⟩
      · split
        · exact handleScram_frame s nonce _ _ _ _ e
        · split <;> exact ⟨rfl, rfl, rfl, rfl, rfl, fun _ => rfl⟩
        · split <;> exact ⟨rfl, rfl, rfl, rfl, rfl, fun _ => rfl⟩

theorem cmdAuth_frame (nonce rest : Text) (e : Engine ρ) :
    Frame e (cmdAuth s nonce rest e).1 := by
  unfold cmdAuth
  split
  · exact .refl e
  · split
    · exact .refl e
    · split
      · exact .refl e
      · dsimp only
        split
        · exact .refl e
        · rename_i sasl hsasl
          split
          · exact ⟨rfl, rfl, rfl, rfl, rfl, fun _ => rfl⟩
          · have hdata := handleSaslData_frame s nonce sasl (splitWord rest).2
              { e with awaitingSasl := some sasl }
            exact ⟨hdata.state, hdata.secure, hdata.awaitingTls, hdata.decoder, hdata.buffer,
              hdata.messages⟩

theorem requireTransaction_frame {fn : Handler ρ} {e : Engine ρ}
    (h : e.state = .transaction → Frame e (fn e).1) : Frame e (requireTransaction fn e).1 := by
  unfold requireTransaction
  split_ifs with hstate
  · exact .refl e
  · exact h (not_not.mp hstate)

theorem cmdScan_frame (heading : Text) (column : SessionMessage ρ → Text) (arg : Text)
    (e : Engine ρ) : Frame e (cmdScan heading column arg e).1 := by
  unfold cmdScan
  split_ifs
  · exact .refl e
  · split <;> exact .refl e

theorem cmdTop_frame (rest : Text) (e : Engine ρ) : Frame e (cmdTop rest e).1 := by
  unfold cmdTop
  split
  · split
    · exact .refl e
    · split
      · exact .refl e
      · exact ⟨rfl, rfl, rfl, rfl, rfl, fun _ => rfl⟩
  · exact .refl e

def acceptsStls (line : Text) (e : Engine ρ) : Bool :=
  e.awaitingSasl.isNone && ((commandOf s line).any fun c => c.1 = .stls) && !e.secure &&
    s.options.tlsAvailable && e.state = .authorization

theorem dispatch_frame (nonce : Text) (verb : Verb) (rest : Text) (e : Engine ρ) :
    Frame e (dispatch s nonce verb rest e).1 ∨
      verb = .stls ∧ (!e.secure && s.options.tlsAvailable && e.state = .authorization) = true ∧
        (dispatch s nonce verb rest e).1 = { e with awaitingTls := true } := by
  cases verb with
  | capa => exact .inl (.refl e)
  | quit =>
    left
    simp only [dispatch, cmdQuit]
    split <;> exact ⟨rfl, rfl, rfl, rfl, rfl, fun _ => rfl⟩
  | user =>
    left
    simp only [dispatch, cmdUser]
    split_ifs <;> exact ⟨rfl, rfl, rfl, rfl, rfl, fun _ => rfl⟩
  | pass =>
    left
    simp only [dispatch, cmdPass]
    split
    · exact .refl e
    · split
      · exact .refl e
      · split
        · exact .refl e
        · exact .refl e
        · split
          · exact .refl e
          · exact ⟨rfl, rfl, rfl, rfl, rfl, fun _ => rfl⟩
  | stls =>
    simp only [dispatch, cmdStls]
    split_ifs with hsecure hoffered hstate
    · exact .inl (.refl e)
    · exact .inl (.refl e)
    · exact .inl (.refl e)
    · refine .inr ⟨trivial, ?_, rfl⟩
      simp_all [starttlsOffered]
  | auth => exact .inl (cmdAuth_frame s nonce rest e)
  | apop => exact .inl (.refl e)
  | noop => exact .inl (requireTransaction_frame fun _ => .refl e)
  | stat => exact .inl (requireTransaction_frame fun _ => .refl e)
  | list => exact .inl (requireTransaction_frame fun _ => cmdScan_frame _ _ rest e)
  | uidl => exact .inl (requireTransaction_frame fun _ => cmdScan_frame _ _ rest e)
  | top => exact .inl (requireTransaction_frame fun _ => cmdTop_frame rest e)
  | retr =>
    refine .inl (requireTransaction_frame fun _ => ?_)
    unfold cmdRetr
    split <;> exact ⟨rfl, rfl, rfl, rfl, rfl, fun _ => rfl⟩
  | dele =>
    refine .inl (requireTransaction_frame fun hstate => ?_)
    unfold cmdDele
    split
    · exact .refl e
    · exact ⟨rfl, rfl, rfl, rfl, rfl, fun hauth => by simp [hstate] at hauth⟩
  | rset =>
    refine .inl (requireTransaction_frame fun hstate => ?_)
    exact ⟨rfl, rfl, rfl, rfl, rfl, fun hauth => by simp [hstate] at hauth⟩

theorem handleInput_frame (nonce line : Text) (e : Engine ρ) :
    Frame e (handleInput s nonce line e).1 ∨
      acceptsStls s line e = true ∧
        (handleInput s nonce line e).1 = { e with awaitingTls := true } := by
  unfold handleInput
  split
  · rename_i sasl hsasl
    exact .inl (handleSaslData_frame s nonce sasl line e)
  · rename_i hsasl
    unfold handleLine
    split
    · exact .inl (.refl e)
    · rename_i verb rest hcmd
      obtain hframe | ⟨rfl, hacc, hup⟩ := dispatch_frame s nonce verb rest e
      · exact .inl hframe
      · refine .inr ⟨?_, hup⟩
        simp only [Bool.and_eq_true] at hacc
        simp [acceptsStls, hsasl, hcmd, hacc]

theorem handleInput_accepts (nonce : Text) {line : Text} {e : Engine ρ}
    (h : acceptsStls s line e = true) :
    (handleInput s nonce line e).1 = { e with awaitingTls := true } := by
  simp only [acceptsStls, Bool.and_eq_true, Option.isNone_iff_eq_none, Bool.not_eq_true',
    decide_eq_true_eq] at h
  obtain ⟨⟨⟨⟨hsasl, hverb⟩, hsecure⟩, htls⟩, hstate⟩ := h
  obtain ⟨⟨verb, rest⟩, hcmd, hstls⟩ := (Option.any_eq_true _ _).mp hverb
  have hverb' : verb = .stls := of_decide_eq_true hstls
  simp [handleInput, hsasl, handleLine, hcmd, hverb', dispatch, cmdStls, hsecure, starttlsOffered,
    htls, hstate]

/-- STLS taken and nothing behind it: the engine a new one would be, but for the name a USER
gave and the start of the stream, which is past. -/
def waiting (ρ : Type) (username : Option Text) : Engine ρ :=
  { secure := false, awaitingTls := true, decoder := ⟨utf8Idle, true⟩, username := username }

def handshaken (ρ : Type) : Engine ρ := { secure := true, decoder := ⟨utf8Idle, true⟩ }

theorem tlsEstablished_waiting (username : Option Text) :
    tlsEstablished (waiting ρ username) = handshaken ρ := rfl

/-- A session that does not wait for a handshake. There is text only past the start of the
stream, and there are messages only once the maildrop is open. -/
structure Talking (e : Engine ρ) : Prop where
  awaitingTls : e.awaitingTls = false
  settled : e.decoder.utf8.Settled
  started : e.decoder.bomSeen = false → e.buffer = []
  messages : e.state = .authorization → e.messages = []

/-- A plaintext session whose upgrades are clean. -/
inductive Plain (e : Engine ρ) : Prop
  | talking (h : Talking e)
  | upgrading (username : Option Text) (h : e = waiting ρ username)

def upgrades (m : Moment ρ) : Bool :=
  match m.move with
  | .line _ text _ => acceptsStls s (chompCr text) m.state
  | _ => false

def Move.behind : Move ρ → Text
  | .line _ _ rest => rest
  | _ => []

/-- If the line is an accepted STLS, nothing of the stream after it has arrived. -/
def CleanUpgrade (m : Moment ρ) : Prop :=
  upgrades s m = true → m.move.behind = [] ∧ m.state.decoder.Idle

instance (m : Moment ρ) : Decidable (CleanUpgrade s m) := inferInstanceAs (Decidable (_ → _))

variable {s} in
theorem Talking.frame {e e' : Engine ρ} (h : Talking e) (hframe : Frame e e') : Talking e' := by
  refine ⟨hframe.awaitingTls.trans h.awaitingTls, ?_, ?_, fun hstate => ?_⟩
  · rw [hframe.decoder]
    exact h.settled
  · rw [hframe.decoder, hframe.buffer]
    exact h.started
  · rw [hframe.state] at hstate
    rw [hframe.messages hstate, h.messages hstate]

theorem upgraded_eq {e : Engine ρ} {text rest : Text} (h : Talking e) (hpending : e.pending = none)
    (hclosed : e.closed = false) (hcut : splitFirst '\n' e.buffer = some (text, rest))
    (hacc : acceptsStls s (chompCr text) e = true) (hrest : rest = []) (hidle : e.decoder.Idle) :
    { e with buffer := rest, awaitingTls := true } = waiting ρ e.username := by
  simp only [acceptsStls, Bool.and_eq_true, Option.isNone_iff_eq_none, Bool.not_eq_true',
    decide_eq_true_eq] at hacc
  obtain ⟨⟨⟨⟨hsasl, -⟩, hsecure⟩, -⟩, hstate⟩ := hacc
  have hutf8 : e.decoder.utf8 = utf8Idle := h.settled hidle
  have hbom : e.decoder.bomSeen = true := by
    by_contra hno
    rw [h.started (by simpa using hno)] at hcut
    cases hcut
  have hmessages := h.messages hstate
  obtain ⟨state, secure, awaitingTls, ⟨utf8, bomSeen⟩, buffer, pending, closed, username, messages,
    awaitingSasl⟩ := e
  simp_all [waiting]

theorem act_plain {e : Engine ρ} {m : Move ρ} (htls : m ≠ .tlsEstablished)
    (hallowed : m.Allowed e) (hclean : CleanUpgrade s ⟨e, m⟩) (h : Plain e) :
    Plain (m.act s e).1 := by
  cases h with
  | upgrading username hwait =>
    subst hwait
    cases m with
    | greeting => exact .upgrading username rfl
    | guard => exact .upgrading username rfl
    | read chunk => cases hallowed.1
    | line nonce text rest => cases hallowed.2.2
    | scramKeysResult keys => cases hallowed
    | authResult ok => cases hallowed
    | openMaildropResult result => cases hallowed
    | retrieveResult result =>
      obtain ⟨msgnum, mode, hpending⟩ := hallowed
      cases hpending
    | commitDeletionsResult ok => cases hallowed
    | tlsEstablished => exact absurd rfl htls
  | talking h =>
    cases m with
    | greeting => exact .talking h
    | read chunk =>
      refine .talking ⟨h.awaitingTls, ?_, fun hno => ?_, h.messages⟩
      · have hsettled := utf8Stream_settled h.settled chunk
        rw [← Decoder.decode_utf8] at hsettled
        exact hsettled
      · have hno' : (e.decoder.decode chunk).1.bomSeen = false := hno
        have hquiet : (e.decoder.decode chunk).2 = [] := by
          by_contra htext
          rw [Decoder.decode_bomSeen _ _ htext] at hno'
          cases hno'
        have hbefore : e.decoder.bomSeen = false := by
          by_contra hseen
          rw [Decoder.bomSeen_decode (by simpa using hseen)] at hno'
          cases hno'
        simp only [Move.act, h.started hbefore, hquiet, List.append_nil]
    | line nonce text rest =>
      obtain ⟨hpending, hclosed, hcut⟩ := hallowed
      have hrest : Talking { e with buffer := rest } := by
        refine ⟨h.awaitingTls, h.settled, fun hno => ?_, h.messages⟩
        rw [h.started hno] at hcut
        cases hcut
      obtain hframe | ⟨hacc, hup⟩ := handleInput_frame s nonce (chompCr text) { e with buffer := rest }
      · exact .talking (hrest.frame hframe)
      · obtain ⟨hnil, hidle⟩ := hclean hacc
        have hsame : acceptsStls s (chompCr text) e = true := hacc
        have hupgraded := upgraded_eq s h hpending hclosed hcut hsame hnil hidle
        exact .upgrading e.username (hup.trans hupgraded)
    | guard =>
      refine .talking ?_
      have hcut : Talking { e with buffer := [], closed := true } :=
        ⟨h.awaitingTls, h.settled, fun _ => rfl, h.messages⟩
      simp only [Move.act, guardBuffer]
      split_ifs
      · exact h
      · exact hcut
      · exact h
      · exact hcut
    | scramKeysResult keys =>
      refine .talking ?_
      simp only [Move.act, scramKeysGiven]
      split
      · split <;> exact ⟨h.awaitingTls, h.settled, h.started, h.messages⟩
      · exact ⟨h.awaitingTls, h.settled, h.started, h.messages⟩
    | authResult ok =>
      refine .talking ?_
      simp only [Move.act, authGiven]
      split <;> exact ⟨h.awaitingTls, h.settled, h.started, h.messages⟩
    | openMaildropResult result =>
      refine .talking ?_
      simp only [Move.act, maildropGiven]
      split
      · exact ⟨h.awaitingTls, h.settled, h.started, h.messages⟩
      · exact ⟨h.awaitingTls, h.settled, h.started, fun hstate => by cases hstate⟩
    | retrieveResult result =>
      refine .talking ?_
      dsimp only [Move.act]
      cases hgiven : messageGiven s result e with
      | none => exact h
      | some r =>
        obtain ⟨_, _, _, -, rfl, -⟩ := messageGiven_some s hgiven
        exact ⟨h.awaitingTls, h.settled, h.started, h.messages⟩
    | commitDeletionsResult ok =>
      exact .talking ⟨h.awaitingTls, h.settled, h.started, h.messages⟩
    | tlsEstablished => exact absurd rfl htls

def Call.isTlsEstablished : Call ρ → Bool
  | .tlsEstablished => true
  | _ => false

theorem drainMoments_plain (nonce : Nat → Text) (fuel : Nat) (e : Engine ρ) :
    ∀ m ∈ drainMoments s fuel nonce e, m.move ≠ .tlsEstablished := by
  induction fuel generalizing nonce e with
  | zero => simp [drainMoments]
  | succ fuel ih =>
    intro m hm
    unfold drainMoments at hm
    split at hm
    · cases hm
    · split at hm
      · cases hm
      · obtain rfl | hm := List.mem_cons.mp hm
        · simp
        · exact ih _ _ m hm

theorem answerMoments_plain (nonce : Nat → Text) {a : Move ρ} (ha : a ≠ .tlsEstablished)
    (e : Engine ρ) : ∀ m ∈ answerMoments s nonce a e, m.move ≠ .tlsEstablished := by
  intro m hm
  simp only [answerMoments, guardedMoments, List.mem_cons, List.mem_append] at hm
  obtain rfl | hm | hm := hm
  · exact ha
  · exact drainMoments_plain s nonce _ _ m hm
  · split_ifs at hm
    · cases hm
    · rw [List.mem_singleton.mp hm]
      simp

theorem stepMoments_plain {i : Input ρ} (hi : i.call.isTlsEstablished = false) (e : Engine ρ) :
    ∀ m ∈ stepMoments s i e, m.move ≠ .tlsEstablished := by
  obtain ⟨c, nonce⟩ := i
  intro m hm
  cases c with
  | tlsEstablished => cases hi
  | greeting =>
    rw [List.mem_singleton.mp hm]
    simp
  | commitDeletionsResult ok =>
    rw [List.mem_singleton.mp hm]
    simp
  | feed chunk =>
    simp only [stepMoments] at hm
    split_ifs at hm
    · cases hm
    · exact answerMoments_plain s nonce (by simp) e m hm
  | authResult ok =>
    cases ok with
    | true =>
      rw [List.mem_singleton.mp hm]
      simp
    | false => exact answerMoments_plain s nonce (by simp) e m hm
  | _ => exact answerMoments_plain s nonce (by simp) e m hm

theorem runMoments_plain {is : List (Input ρ)} (his : ∀ i ∈ is, i.call.isTlsEstablished = false)
    (e : Engine ρ) : ∀ m ∈ runMoments s e is, m.move ≠ .tlsEstablished := by
  induction is generalizing e with
  | nil => simp [runMoments]
  | cons i is ih =>
    intro m hm
    obtain hm | hm := List.mem_append.mp hm
    · exact stepMoments_plain s (his i (List.mem_cons_self ..)) e m hm
    · split at hm
      · cases hm
      · exact ih (fun j hj => his j (List.mem_cons_of_mem _ hj)) _ m hm

def reachesStls (pre : List (Input ρ)) : Bool :=
  pre.all (fun i => !i.call.isTlsEstablished) &&
    ((run s (newEngine s ρ) pre).map fun r => r.1.awaitingTls) = some true

def afterTls (pre post : List (Input ρ)) : Option (List (List (Pop3Action ρ))) :=
  (run s (newEngine s ρ) pre).bind fun r => (run s (tlsEstablished r.1) post).map Prod.snd

def CleanRun (pre : List (Input ρ)) : Prop :=
  ∀ m ∈ runMoments s (newEngine s ρ) pre, CleanUpgrade s m

instance (pre : List (Input ρ)) : Decidable (CleanRun s pre) :=
  inferInstanceAs (Decidable (∀ m ∈ _, _))

theorem newEngine_plain : Plain (newEngine s ρ) :=
  .talking ⟨rfl, fun _ => rfl, fun _ => rfl, fun _ => rfl⟩

def Move.isLine : Move ρ → Bool
  | .line _ _ _ => true
  | _ => false

theorem waiting_lines {username : Option Text} {ms : List (Moment ρ)} {e : Engine ρ}
    (h : History s (waiting ρ username) ms e) (hplain : ∀ m ∈ ms, m.move ≠ .tlsEstablished) :
    ∀ m ∈ ms, m.move.isLine = false := by
  have hwaits := h.invariant (P := fun e => e = waiting ρ username) rfl fun m hm hallowed hw => ?_
  · intro m hm
    obtain ⟨hallowed, hw⟩ := hwaits.1 m hm
    cases hmove : m.move with
    | line nonce text rest =>
      rw [hmove, hw] at hallowed
      cases hallowed.2.2
    | _ => rfl
  · rw [hw] at hallowed ⊢
    have hmove := hplain m hm
    generalize m.move = a at hallowed hmove ⊢
    cases a with
    | greeting => rfl
    | guard => rfl
    | read chunk => cases hallowed.1
    | line nonce text rest => cases hallowed.2.2
    | retrieveResult result =>
      obtain ⟨msgnum, mode, hpending⟩ := hallowed
      cases hpending
    | tlsEstablished => exact absurd rfl hmove
    | _ => cases hallowed

theorem Plain.eq_waiting {e : Engine ρ} (h : Plain e) (htls : e.awaitingTls = true) :
    ∃ username, e = waiting ρ username := by
  cases h with
  | talking h => simp [h.awaitingTls] at htls
  | upgrading username h => exact ⟨username, h⟩

theorem upgrades_awaitingTls {m : Moment ρ} (h : upgrades s m = true) :
    (m.move.act s m.state).1.awaitingTls = true := by
  obtain ⟨e, a⟩ := m
  cases a with
  | line nonce text rest =>
    have hacc : acceptsStls s (chompCr text) { e with buffer := rest } = true := h
    simp only [Move.act, handleInput_accepts s nonce hacc]
  | _ => cases h

theorem history_lines {past rest : List (Moment ρ)} {m : Moment ρ} {e : Engine ρ}
    (h : History s (newEngine s ρ) (past ++ m :: rest) e)
    (hplain : ∀ n ∈ past ++ m :: rest, n.move ≠ .tlsEstablished)
    (hclean : ∀ n ∈ past ++ m :: rest, CleanUpgrade s n) (hm : upgrades s m = true) :
    ∀ n ∈ rest, n.move.isLine = false := by
  obtain ⟨e₁, hfirst, hlast⟩ := h.split
  have hbefore : Plain e₁ := by
    refine (hfirst.invariant (newEngine_plain s) fun n hn hallowed hp => ?_).2
    have hmem : n ∈ past ++ m :: rest := List.mem_append_left _ hn
    exact act_plain s (hplain n hmem) hallowed (hclean n hmem) hp
  cases hlast with
  | @cons _ _ a _ hallowed hrest =>
    have hmem : ⟨e₁, a⟩ ∈ past ++ ⟨e₁, a⟩ :: rest := List.mem_append_right _ (List.mem_cons_self ..)
    have hafter := act_plain s (hplain _ hmem) hallowed (hclean _ hmem) hbefore
    have htls : (a.act s e₁).1.awaitingTls = true := upgrades_awaitingTls s hm
    obtain ⟨username, hwait⟩ := hafter.eq_waiting htls
    rw [hwait] at hrest
    refine waiting_lines s hrest fun n hn => hplain n ?_
    exact List.mem_append_right _ (List.mem_cons_of_mem _ hn)

theorem run_to_stls {pre : List (Input ρ)} (h : reachesStls s pre = true) (hclean : CleanRun s pre) :
    ∃ username acts, run s (newEngine s ρ) pre = some (waiting ρ username, acts) := by
  simp only [reachesStls, Bool.and_eq_true, List.all_eq_true, decide_eq_true_eq,
    Option.map_eq_some_iff, Prod.exists, Bool.not_eq_true'] at h
  obtain ⟨hcalls, e, acts, hrun, htls⟩ := h
  have hhistory := (run_history s hrun).1
  have hplain : Plain e := by
    refine (hhistory.invariant (newEngine_plain s) fun m hm hallowed hp => ?_).2
    exact act_plain s (runMoments_plain s hcalls _ m hm) hallowed (hclean m hm) hp
  obtain ⟨username, rfl⟩ := hplain.eq_waiting htls
  exact ⟨username, acts, hrun⟩

end

/-- If every accepted STLS of two plaintext runs is clean, what follows the handshake is the
same in both, and what a new engine does inside TLS; no line behind STLS was handled, and
the plaintext that still arrives before the handshake does nothing. -/
theorem stls_noninterference (ρ : Type) (s : Setup) (pre₁ pre₂ post : List (Input ρ))
    (h₁ : reachesStls s pre₁ = true) (h₂ : reachesStls s pre₂ = true)
    (hc₁ : CleanRun s pre₁) (hc₂ : CleanRun s pre₂) :
    afterTls s pre₁ post = afterTls s pre₂ post ∧
      afterTls s pre₁ post = (run s (handshaken ρ) post).map Prod.snd ∧
      (∀ past m rest, runMoments s (newEngine s ρ) pre₁ = past ++ m :: rest →
        upgrades s m = true → ∀ n ∈ rest, n.move.isLine = false) ∧
      ∀ (e : Engine ρ) (acts : List (List (Pop3Action ρ))) (nonce : Nat → Text) (chunk : Bytes),
        run s (newEngine s ρ) pre₁ = some (e, acts) → feed s nonce chunk e = (e, []) := by
  obtain ⟨username₁, acts₁, hrun₁⟩ := run_to_stls s h₁ hc₁
  obtain ⟨username₂, acts₂, hrun₂⟩ := run_to_stls s h₂ hc₂
  have hafter₁ : afterTls s pre₁ post = (run s (handshaken ρ) post).map Prod.snd := by
    simp only [afterTls, hrun₁, Option.bind_some, tlsEstablished_waiting]
  have hafter₂ : afterTls s pre₂ post = (run s (handshaken ρ) post).map Prod.snd := by
    simp only [afterTls, hrun₂, Option.bind_some, tlsEstablished_waiting]
  refine ⟨hafter₁.trans hafter₂.symm, hafter₁, fun past m rest hsplit hm => ?_,
    fun e acts nonce chunk hrun => ?_⟩
  · have hcalls : ∀ i ∈ pre₁, i.call.isTlsEstablished = false := by
      simp only [reachesStls, Bool.and_eq_true, List.all_eq_true, Bool.not_eq_true'] at h₁
      exact h₁.1
    have hhistory := (run_history s hrun₁).1
    have hplain := runMoments_plain s hcalls (newEngine s ρ)
    have hclean : ∀ m ∈ runMoments s (newEngine s ρ) pre₁, CleanUpgrade s m := hc₁
    rw [hsplit] at hhistory hplain hclean
    exact history_lines s hhistory hplain hclean hm
  · rw [hrun₁] at hrun
    cases hrun
    rfl

def bareSetup : Setup :=
  { host := { cases := ⟨id, id⟩, sha256 := id, hmac := fun _ b => b, serverNonce := fun _ => [] }
    options := { hostname := "mx".toList, tlsAvailable := true } }

def feeds (wire : String) : Input Unit :=
  ⟨.feed (utf8Encode wire.toList), fun _ => []⟩

/-- A byte behind STLS in its chunk is put before the first command of the TLS session. -/
theorem stls_noninterference_fails :
    ¬ ∀ (ρ : Type) (s : Setup) (pre₁ pre₂ post : List (Input ρ)), reachesStls s pre₁ = true →
      reachesStls s pre₂ = true → afterTls s pre₁ post = afterTls s pre₂ post := by
  intro h
  have hsame := h Unit bareSetup [feeds "STLS\r\nX"] [feeds "STLS\r\n"] [feeds "CAPA\r\n"]
    (by decide +kernel) (by decide +kernel)
  exact absurd hsame (by decide +kernel)

theorem stls_noninterference_splitLine :
    afterTls bareSetup [feeds "NOOP\r\nST", feeds "LS\r\n"] [feeds "CAPA\r\n"] =
      afterTls bareSetup [feeds "STLS\r\n"] [feeds "CAPA\r\n"] :=
  (stls_noninterference Unit bareSetup _ _ _ (by decide +kernel) (by decide +kernel)
    (by decide +kernel) (by decide +kernel)).1

end Ionosphere.Pop3
