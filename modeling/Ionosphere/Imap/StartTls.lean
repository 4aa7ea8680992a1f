import Ionosphere.Imap.Frame

/-! STARTTLS in the IMAP engine: what of the plaintext stream is left when the
adapter reports the handshake. Before authentication a session has no state but
its reader, its queue and a pending exchange; STARTTLS is refused while an
exchange is pending and drops the queue, so the reader is what is left, and the
events of the same chunk that come after the STARTTLS line. -/
namespace Ionosphere.Imap

open Ionosphere.Js Ionosphere.Core

variable {e : Engine} {r : Reader}

namespace Reader

/-- Between lines nothing of a line is counted, between literals nothing of one is kept. -/
structure Settled (r : Reader) : Prop where
  textLen : r.parts = [] → r.textLen = 0
  literalChunks : r.literalRemaining = none → r.literalChunks = []

structure SameLimits (r r' : Reader) : Prop where
  maxLineBytes : r'.maxLineBytes = r.maxLineBytes
  maxLiteralBytes : r'.maxLiteralBytes = r.maxLiteralBytes
  maxNonSyncLiteralBytes : r'.maxNonSyncLiteralBytes = r.maxNonSyncLiteralBytes

/-- The reader is in the middle of nothing. -/
structure Quiet (r : Reader) : Prop where
  buffer : r.buffer = []
  parts : r.parts = []
  literalRemaining : r.literalRemaining = none
  discarding : r.discarding = none

theorem quiet_iff (r : Reader) : r.Quiet ↔
    r.buffer = [] ∧ r.parts = [] ∧ r.literalRemaining = none ∧ r.discarding = none :=
  ⟨fun h => ⟨h.1, h.2, h.3, h.4⟩, fun h => ⟨h.1, h.2.1, h.2.2.1, h.2.2.2⟩⟩

instance (r : Reader) : Decidable r.Quiet := decidable_of_iff _ (quiet_iff r).symm

/-- Settled with the limits of `r`. -/
def Follows (r r' : Reader) : Prop := Settled r' ∧ SameLimits r r'

theorem Follows.refl (h : Settled r) : Follows r r := ⟨h, rfl, rfl, rfl⟩

theorem Follows.trans {a b c : Reader} (hab : Follows a b) (hbc : Follows b c) : Follows a c :=
  ⟨hbc.1, hbc.2.1.trans hab.2.1, hbc.2.2.trans hab.2.2, hbc.2.3.trans hab.2.3⟩

theorem setBuffer_follows (h : Settled r) (buffer : Bytes) :
    Follows r { r with buffer := buffer } := ⟨⟨h.1, h.2⟩, rfl, rfl, rfl⟩

theorem consumeLiteral_follows (h : Settled r) (remaining : Nat) :
    Follows r (consumeLiteral remaining r).1 := by
  unfold consumeLiteral
  simp only
  split
  · refine ⟨⟨fun hparts => ?_, fun _ => rfl⟩, rfl, rfl, rfl⟩
    simp only at hparts
    split at hparts
    · simp at hparts
    · exact h.textLen hparts
  · exact ⟨⟨h.textLen, by simp⟩, rfl, rfl, rfl⟩

theorem awaitLine_follows (h : Settled r) : Follows r (awaitLine r) := by
  unfold awaitLine
  split
  · exact ⟨⟨fun _ => rfl, h.literalChunks⟩, rfl, rfl, rfl⟩
  · split
    · exact .refl h
    · exact setBuffer_follows h []

theorem endDiscarded_follows (h : Settled r) (message text : Text) :
    Follows r (endDiscarded message text r).1 := by
  have hdone : Follows r { r with discarding := none, textLen := 0, parts := [] } :=
    ⟨⟨fun _ => rfl, h.literalChunks⟩, rfl, rfl, rfl⟩
  unfold endDiscarded
  simp only
  split
  · split
    · exact ⟨⟨h.textLen, by simp⟩, rfl, rfl, rfl⟩
    · exact hdone
  · exact hdone

theorem beginLiteral_follows (h : Settled r) (lit : LiteralTail) :
    Follows r (beginLiteral lit r).1 := by
  unfold beginLiteral
  simp only
  split <;> split <;> first
    | exact ⟨⟨fun _ => rfl, h.literalChunks⟩, rfl, rfl, rfl⟩
    | exact ⟨⟨by simp, by simp⟩, rfl, rfl, rfl⟩

theorem consumeLine_follows (h : Settled r) : Follows r (consumeLine r).1 := by
  unfold consumeLine
  split
  · exact awaitLine_follows h
  · rename_i line rest hcut
    have hrest := setBuffer_follows h rest
    simp only
    split
    · exact hrest.trans (endDiscarded_follows hrest.1 _ _)
    · split
      · exact ⟨⟨fun _ => rfl, h.literalChunks⟩, rfl, rfl, rfl⟩
      · split
        · exact hrest.trans (beginLiteral_follows hrest.1 _)
        · exact ⟨⟨fun _ => rfl, h.literalChunks⟩, rfl, rfl, rfl⟩

def Pass.reader : Pass → Reader
  | .stop r => r
  | .go r _ => r

theorem pass_follows (h : Settled r) : Follows r (pass r).reader := by
  unfold pass
  split
  · rename_i remaining hremaining
    have hlit := consumeLiteral_follows h remaining
    simp only
    split <;> exact hlit
  · have hline := consumeLine_follows h
    split <;> (rename_i heq; rw [heq] at hline; exact hline)

theorem loop_follows (r : Reader) (h : Settled r) : Follows r (loop r).1 := by
  induction r using loop.induct with
  | case1 r q hpass =>
    have hstep := pass_follows h
    rw [loop]
    split <;> simp_all [Pass.reader]
  | case2 r q ev hpass ih =>
    have hstep := pass_follows h
    rw [hpass] at hstep
    have hrest := ih hstep.1
    rw [loop]
    split <;> simp_all [Pass.reader]
    exact hstep.trans hrest

theorem feed_follows (h : Settled r) (chunk : Bytes) : Follows r (r.feed chunk).1 :=
  (setBuffer_follows h _).trans (loop_follows _ (setBuffer_follows h _).1)

end Reader

section

variable (s : Setup)

/-- A session nobody has logged in to has nothing but its reader, its queue and an
exchange. -/
structure Unauth (e : Engine) : Prop where
  state : e.state = .notAuthenticated
  selected : e.selected = none
  enabled : e.enabled = {}
  savedSearch : e.savedSearch = []
  compressed : e.compressed = false
  idleTag : e.idleTag = none
  pending : ∀ k, e.pending ≠ some (.backend k)

theorem Unauth.exchange {r : Engine × List ImapAction} (h : Unauth e)
    (hx : ExchangeOnly e r) : Unauth r.1 := by
  cases hx with
  | same => exact h
  | pending p hp =>
    exact ⟨h.state, h.selected, h.enabled, h.savedSearch, h.compressed, h.idleTag,
      fun k hk => hp k (Option.some.inj hk)⟩

theorem sessionCommand_unauth (h : Unauth e) (nonce : Text) (verb : SessionVerb)
    (cmd : ParsedCommand) : Unauth (sessionCommand s nonce cmd verb e).1 := by
  cases verb with
  | logout =>
    exact ⟨h.state, h.selected, h.enabled, h.savedSearch, h.compressed, h.idleTag, h.pending⟩
  | starttls =>
    rcases cmdStartTls_cases s cmd e with hsame | ⟨hup, -⟩
    · rw [sessionCommand, hsame]
      exact h
    · rw [sessionCommand, hup]
      exact ⟨h.state, h.selected, h.enabled, h.savedSearch, h.compressed, h.idleTag, h.pending⟩
  | login => exact h.exchange (cmdLogin_exchange s cmd e)
  | authenticate => exact h.exchange (cmdAuthenticate_exchange s nonce cmd e)
  | enable =>
    simp only [sessionCommand, cmdEnable, h.state]
    exact h
  | compress =>
    rw [sessionCommand, cmdCompress, if_pos h.state]
    exact h
  | idle =>
    rw [sessionCommand, cmdIdle, if_pos h.state]
    exact h

theorem dispatch_unauth (h : Unauth e) (nonce : Text) (verb : Verb)
    (cmd : ParsedCommand) : Unauth (dispatch s nonce verb cmd e).1 := by
  cases verb with
  | session v => exact sessionCommand_unauth s h nonce v cmd
  | answer v =>
    rw [dispatch, ordinary_apply_unauth s h.state]
    exact h

theorem handleLine_unauth (h : Unauth e) (nonce : Text) (parts : List LinePart) :
    Unauth (handleLine s nonce parts e).1 := by
  unfold handleLine
  split
  · rename_i tag htag
    exact absurd (h.idleTag.symm.trans htag) (by simp)
  · split
    · rename_i sasl hsasl
      have hnone : Unauth { e with pending := none } :=
        ⟨h.state, h.selected, h.enabled, h.savedSearch, h.compressed, h.idleTag, by simp⟩
      exact hnone.exchange (handleSaslData_exchange s nonce sasl (soleText parts) _)
    · unfold handleCommand
      split
      · exact h
      · split
        · exact h
        · exact dispatch_unauth s h nonce _ _

/-- A line as it is handled: the engine then, and the events of the same chunk that
are still to come. -/
structure Handled where
  engine : Engine
  parts : List LinePart
  later : List ReaderEvent

/-- The line an event hands to `handleLine`, if it does. -/
def directLine (ev : ReaderEvent) (later : List ReaderEvent) (e : Engine) : List Handled :=
  match ev with
  | .line parts => if queues e then [] else [⟨e, parts, later⟩]
  | _ => []

/-- The lines `handleEvents` hands to `handleLine`. -/
def eventLines : (Nat → Text) → List ReaderEvent → Engine → List Handled
  | _, [], _ => []
  | nonce, ev :: evs, e =>
    let r := handleReaderEvent s (nonce 0) ev e
    directLine ev evs e ++
      if r.1.closed then [] else eventLines (fun i => nonce (i + 1)) evs r.1

/-- The lines `drainLoop` hands to `handleLine`. -/
def drainLines : Nat → (Nat → Text) → Engine → List Handled
  | 0, _, _ => []
  | fuel + 1, nonce, e =>
    match e.queued with
    | [] => []
    | parts :: queued =>
      if !canDrain e then []
      else
        let e := { e with queued := queued, queuedBytes := e.queuedBytes - lineBytes parts }
        ⟨e, parts, []⟩ ::
          drainLines fuel (fun i => nonce (i + 1)) (handleLine s (nonce 0) parts e).1

def stepLines (i : Input) (e : Engine) : List Handled :=
  match i.call, e.pending with
  | .feed chunk, _ =>
    if e.closed || e.awaitingTls then []
    else eventLines s i.nonce (e.reader.feed chunk).2 { e with reader := (e.reader.feed chunk).1 }
  | .backendResult res, some (.backend k) =>
    let r := resume s k res { e with pending := none }
    drainLines s r.1.queued.length i.nonce r.1
  | .authResult ok, some (.auth tag) =>
    let r := authAnswered s tag ok { e with pending := none }
    drainLines s r.1.queued.length i.nonce r.1
  | _, _ => []

def runLines : Engine → List Input → List Handled
  | _, [] => []
  | e, i :: is =>
    stepLines s i e ++
      match step s i e with
      | none => []
      | some r => runLines r.1 is

/-- If the line is an accepted STARTTLS, nothing of the stream after it has arrived,
and nobody is logged in. -/
def CleanUpgrade (x : Handled) : Prop :=
  acceptsStartTls s x.parts x.engine = true →
    x.later = [] ∧ x.engine.reader.Quiet ∧ x.engine.state = .notAuthenticated

instance (x : Handled) : Decidable (CleanUpgrade s x) :=
  inferInstanceAs (Decidable (_ → _))

/-- A plaintext session whose upgrades are clean: not logged in yet, logged in for
good, or waiting for the handshake as if it were new. -/
inductive Plain : Engine → Prop
  | fresh {e : Engine} (hsecure : e.secure = s.options.secure) (htls : e.awaitingTls = false)
      (hauth : Unauth e) (hreader : Reader.Follows (newEngine s s.options.secure).reader e.reader) :
      Plain e
  | authed {e : Engine} (htls : e.awaitingTls = false) (hauth : e.state ≠ .notAuthenticated) :
      Plain e
  | waiting {e : Engine} (heq : e = upgrading (newEngine s false)) : Plain e

theorem not_waiting (htls : e.awaitingTls = false) :
    e ≠ upgrading (newEngine s false) := by
  rintro rfl
  cases htls

theorem reader_eq_of_quiet {r r' : Reader} (hr : r.Quiet) (hr' : r'.Quiet) (hs : r.Settled)
    (hf : Reader.Follows r r') : r' = r := by
  obtain ⟨⟨htext', hchunks'⟩, h1, h2, h3⟩ := hf
  have e1 := hs.textLen hr.parts
  have e2 := hs.literalChunks hr.literalRemaining
  have e3 := htext' hr'.parts
  have e4 := hchunks' hr'.literalRemaining
  cases r
  cases r'
  obtain ⟨b1, b2, b3, b4⟩ := hr
  obtain ⟨c1, c2, c3, c4⟩ := hr'
  simp_all

theorem newEngine_quiet (secure : Bool) : (newEngine s secure).reader.Quiet := ⟨rfl, rfl, rfl, rfl⟩

theorem newEngine_settled (secure : Bool) : (newEngine s secure).reader.Settled :=
  ⟨fun _ => rfl, fun _ => rfl⟩

theorem upgrading_eq (hclosed : e.closed = false)
    (hauth : Unauth e) (hreader : Reader.Follows (newEngine s s.options.secure).reader e.reader)
    {parts : List LinePart} (hacc : acceptsStartTls s parts e = true)
    (hquiet : e.reader.Quiet) : upgrading e = upgrading (newEngine s false) := by
  have hr := reader_eq_of_quiet (newEngine_quiet s _) hquiet (newEngine_settled s _) hreader
  simp only [acceptsStartTls, Bool.and_eq_true, Option.isNone_iff_eq_none,
    Bool.not_eq_true'] at hacc
  obtain ⟨⟨⟨⟨hidle, hpending⟩, hsecure⟩, -⟩, -⟩ := hacc
  obtain ⟨hstate, hsel, hen, hsaved, hcomp, -, -⟩ := hauth
  cases e
  simp_all [upgrading, newEngine]

theorem handleLine_plain (h : Plain s e) (htls : e.awaitingTls = false)
    (hclosed : e.closed = false) (nonce : Text) (parts : List LinePart) (later : List ReaderEvent)
    (hclean : CleanUpgrade s ⟨e, parts, later⟩) :
    Plain s (handleLine s nonce parts e).1 ∧
      (later ≠ [] → (handleLine s nonce parts e).1.awaitingTls = false) := by
  rcases handleLine_frame s nonce parts e with hf | ⟨hacc, hup⟩
  · refine ⟨?_, fun _ => hf.awaitingTls.trans htls⟩
    cases h with
    | fresh hsecure _ hauth hreader =>
      refine .fresh (hf.secure.trans hsecure) (hf.awaitingTls.trans htls)
        (handleLine_unauth s hauth nonce parts) ?_
      rw [hf.reader]
      exact hreader
    | authed _ hauth => exact .authed (hf.awaitingTls.trans htls) (hf.authed hauth)
    | waiting heq => exact absurd heq (not_waiting s htls)
  · obtain ⟨hlater, hquiet, hstate⟩ := hclean hacc
    refine ⟨?_, fun hne => absurd hlater hne⟩
    rw [hup]
    cases h with
    | fresh _ _ hauth hreader =>
      rw [upgrading_eq s hclosed hauth hreader hacc hquiet]
      exact .waiting rfl
    | authed _ hauth => exact absurd hstate hauth
    | waiting heq => exact absurd heq (not_waiting s htls)

theorem enqueue_plain (h : Plain s e) (htls : e.awaitingTls = false)
    (parts : List LinePart) :
    Plain s (enqueue parts e).1 ∧ (enqueue parts e).1.awaitingTls = false := by
  unfold enqueue
  cases h with
  | fresh hsecure _ hauth hreader =>
    obtain ⟨hstate, hsel, hen, hsaved, hcomp, hidle, hpending⟩ := hauth
    split <;>
      exact ⟨.fresh hsecure htls ⟨hstate, hsel, hen, hsaved, hcomp, hidle, hpending⟩ hreader, htls⟩
  | authed _ hauth => split <;> exact ⟨.authed htls hauth, htls⟩
  | waiting heq => exact absurd heq (not_waiting s htls)

theorem handleEvents_plain (nonce : Nat → Text) (evs : List ReaderEvent)
    (h : Plain s e) (htls : e.awaitingTls = false) (hclosed : e.closed = false)
    (hclean : ∀ x ∈ eventLines s nonce evs e, CleanUpgrade s x) :
    Plain s (handleEvents s nonce evs e).1 := by
  induction evs generalizing nonce e with
  | nil => exact h
  | cons ev evs ih =>
    have hev : Plain s (handleReaderEvent s (nonce 0) ev e).1 ∧
        (evs ≠ [] → (handleReaderEvent s (nonce 0) ev e).1.awaitingTls = false) := by
      cases ev with
      | «continue» size => exact ⟨h, fun _ => htls⟩
      | error message => exact ⟨h, fun _ => htls⟩
      | line parts =>
        simp only [handleReaderEvent]
        by_cases hq : queues e = true
        · rw [if_pos hq]
          exact ⟨(enqueue_plain s h htls parts).1, fun _ => (enqueue_plain s h htls parts).2⟩
        · rw [if_neg hq]
          refine handleLine_plain s h htls hclosed (nonce 0) parts evs (hclean _ ?_)
          simp [eventLines, directLine, hq]
    simp only [handleEvents]
    split
    · exact hev.1
    · rename_i hopen
      cases evs with
      | nil => exact hev.1
      | cons ev' evs' =>
        refine ih (fun i => nonce (i + 1)) hev.1 (hev.2 (by simp)) (by simpa using hopen)
          (fun x hx => hclean x ?_)
        rw [eventLines, if_neg hopen]
        exact List.mem_append_right _ hx

theorem Plain.setQueue (h : Plain s e) (htls : e.awaitingTls = false)
    (queued : List (List LinePart)) (n : Nat) :
    Plain s { e with queued := queued, queuedBytes := n } := by
  cases h with
  | fresh hsecure _ hauth hreader =>
    obtain ⟨hstate, hsel, hen, hsaved, hcomp, hidle, hpending⟩ := hauth
    exact .fresh hsecure htls ⟨hstate, hsel, hen, hsaved, hcomp, hidle, hpending⟩ hreader
  | authed _ hauth => exact .authed htls hauth
  | waiting heq => exact absurd heq (not_waiting s htls)

theorem drainLoop_plain (fuel : Nat) (nonce : Nat → Text) (h : Plain s e)
    (hclean : ∀ x ∈ drainLines s fuel nonce e, CleanUpgrade s x) :
    Plain s (drainLoop s fuel nonce e).1 := by
  induction fuel generalizing nonce e with
  | zero => exact h
  | succ fuel ih =>
    unfold drainLoop
    cases hqueue : e.queued with
    | nil => exact h
    | cons parts queued =>
      simp only
      split
      · exact h
      · rename_i hcan
        rw [drainLines, hqueue] at hclean
        simp only [if_neg hcan] at hclean
        have hopen : e.pending = none ∧ e.closed = false := by simpa [canDrain] using hcan
        have htls : e.awaitingTls = false := by
          cases h with
          | fresh _ htls _ _ => exact htls
          | authed htls _ => exact htls
          | waiting heq =>
            rw [heq] at hqueue
            cases hqueue
        have hline := handleLine_plain s (h.setQueue s htls queued _) htls hopen.2 (nonce 0) parts []
          (hclean _ List.mem_cons_self)
        exact ih _ hline.1 fun x hx => hclean x (List.mem_cons_of_mem _ hx)

theorem drainQueued_plain (nonce : Nat → Text) (h : Plain s e)
    (hclean : ∀ x ∈ drainLines s e.queued.length nonce e, CleanUpgrade s x) :
    Plain s (drainQueued s nonce e).1 := by
  have hloop := drainLoop_plain s e.queued.length nonce h hclean
  unfold drainQueued settleQueue
  simp only
  split
  · rename_i hempty
    cases hloop with
    | fresh hsecure htls hauth hreader =>
      obtain ⟨hstate, hsel, hen, hsaved, hcomp, hidle, hpending⟩ := hauth
      exact .fresh hsecure htls ⟨hstate, hsel, hen, hsaved, hcomp, hidle, hpending⟩ hreader
    | authed htls hauth => exact .authed htls hauth
    | waiting heq => exact .waiting (by rw [heq]; rfl)
  · exact hloop

theorem Plain.setPending (h : Plain s e) (htls : e.awaitingTls = false)
    (p : Option Pending) (hp : ∀ k, p ≠ some (.backend k)) : Plain s { e with pending := p } := by
  cases h with
  | fresh hsecure _ hauth hreader =>
    obtain ⟨hstate, hsel, hen, hsaved, hcomp, hidle, -⟩ := hauth
    exact .fresh hsecure htls ⟨hstate, hsel, hen, hsaved, hcomp, hidle, hp⟩ hreader
  | authed _ hauth => exact .authed htls hauth
  | waiting heq => exact absurd heq (not_waiting s htls)

theorem awaitingTls_of_pending (h : Plain s e) {p : Pending}
    (hp : e.pending = some p) : e.awaitingTls = false := by
  cases h with
  | fresh _ htls _ _ => exact htls
  | authed htls _ => exact htls
  | waiting heq =>
    rw [heq] at hp
    cases hp

theorem feed_plain (nonce : Nat → Text) (chunk : Bytes) (h : Plain s e)
    (hclean : ∀ x ∈ stepLines s ⟨.feed chunk, nonce⟩ e, CleanUpgrade s x) :
    Plain s (feed s nonce chunk e).1 := by
  unfold feed
  split
  · exact h
  · rename_i hopen
    simp only [stepLines, if_neg hopen] at hclean
    simp only [Bool.or_eq_true, not_or, Bool.not_eq_true] at hopen
    have hread : Plain s { e with reader := (e.reader.feed chunk).1 } := by
      cases h with
      | fresh hsecure _ hauth hreader =>
        obtain ⟨hstate, hsel, hen, hsaved, hcomp, hidle, hpending⟩ := hauth
        exact .fresh hsecure hopen.2 ⟨hstate, hsel, hen, hsaved, hcomp, hidle, hpending⟩
          (hreader.trans (Reader.feed_follows hreader.1 chunk))
      | authed _ hauth => exact .authed hopen.2 hauth
      | waiting heq => exact absurd heq (not_waiting s hopen.2)
    exact handleEvents_plain s nonce _ hread hopen.2 hopen.1 hclean

theorem idleTick_plain (h : Plain s e) : Plain s (idleTick e).1 := by
  unfold idleTick
  split
  · exact h
  · rename_i hrun
    simp only [Bool.or_eq_true, not_or, Bool.not_eq_true, Option.isNone_eq_false_iff] at hrun
    have hf := apply_frame (refreshSelected none e) e
    cases h with
    | fresh _ _ hauth _ => simp [hauth.idleTag] at hrun
    | authed htls hauth => exact .authed (hf.awaitingTls.trans htls) (hf.authed hauth)
    | waiting heq => simp [heq, upgrading, newEngine] at hrun

theorem step_plain {i : Input} {r : Engine × List ImapAction} (h : Plain s e)
    (hcall : i.call ≠ .tlsEstablished) (hstep : step s i e = some r)
    (hclean : ∀ x ∈ stepLines s i e, CleanUpgrade s x) : Plain s r.1 := by
  obtain ⟨c, nonce⟩ := i
  cases c with
  | greeting => cases hstep; exact h
  | feed chunk => cases hstep; exact feed_plain s nonce chunk h hclean
  | tlsEstablished => exact absurd rfl hcall
  | idleTick => cases hstep; exact idleTick_plain s h
  | backendResult res =>
    obtain ⟨k, hk, rfl⟩ := backendResult_spec s hstep
    have htls := awaitingTls_of_pending s h hk
    have hf := resume_frame s k res { e with pending := none }
    have hauth : e.state ≠ .notAuthenticated := by
      cases h with
      | fresh _ _ hauth _ => exact absurd hk (hauth.pending k)
      | authed _ hauth => exact hauth
      | waiting heq => exact absurd heq (not_waiting s htls)
    refine drainQueued_plain s nonce (.authed (hf.awaitingTls.trans htls) (hf.authed hauth)) ?_
    simpa only [stepLines, hk] using hclean
  | scramKeysResult keys =>
    simp only [step, scramKeysResult] at hstep
    split at hstep
    · rename_i tag session stage username hk
      have htls := awaitingTls_of_pending s h hk
      split at hstep <;> cases hstep
      · exact h.setPending s htls _ (by simp)
      · exact h.setPending s htls _ (by simp)
    · cases hstep
  | authResult ok =>
    obtain ⟨tag, hk, rfl⟩ := authResult_spec s hstep
    have htls := awaitingTls_of_pending s h hk
    have hanswered : Plain s (authAnswered s tag ok { e with pending := none }).1 := by
      cases ok
      · exact h.setPending s htls none (by simp)
      · exact .authed htls (by simp [authAnswered])
    refine drainQueued_plain s nonce hanswered ?_
    simpa only [stepLines, hk] using hclean

theorem run_plain {is : List Input} {e e' : Engine} {acts : List (List ImapAction)}
    (h : Plain s e) (hrun : run s e is = some (e', acts))
    (hcalls : ∀ i ∈ is, i.call ≠ .tlsEstablished)
    (hclean : ∀ x ∈ runLines s e is, CleanUpgrade s x) : Plain s e' := by
  induction is generalizing e acts with
  | nil => cases hrun; exact h
  | cons i is ih =>
    simp only [run] at hrun
    cases hstep : step s i e with
    | none => simp [hstep] at hrun
    | some r =>
      simp only [hstep, Option.map_eq_some_iff, Prod.mk.injEq] at hrun
      obtain ⟨⟨e₂, acts₂⟩, hrest, rfl, -⟩ := hrun
      simp only [runLines, hstep, List.mem_append] at hclean
      have hr := step_plain s h (hcalls i List.mem_cons_self) hstep
        fun x hx => hclean x (.inl hx)
      exact ih hr hrest (fun j hj => hcalls j (List.mem_cons_of_mem _ hj))
        fun x hx => hclean x (.inr hx)

theorem newEngine_plain : Plain s (newEngine s s.options.secure) :=
  .fresh rfl rfl ⟨rfl, rfl, rfl, rfl, rfl, rfl, by simp [newEngine]⟩
    (.refl (newEngine_settled s _))

theorem run_to_startTls {is : List Input} {acts : List (List ImapAction)}
    (hrun : run s (newEngine s s.options.secure) is = some (e, acts))
    (hcalls : ∀ i ∈ is, i.call ≠ .tlsEstablished) (hacc : e.awaitingTls = true)
    (hclean : ∀ x ∈ runLines s (newEngine s s.options.secure) is, CleanUpgrade s x) :
    e = upgrading (newEngine s false) := by
  have h := run_plain s (newEngine_plain s) hrun hcalls hclean
  cases h with
  | fresh _ htls _ _ => simp [htls] at hacc
  | authed htls _ => simp [htls] at hacc
  | waiting heq => exact heq

def Call.isTlsEstablished : Call → Bool
  | .tlsEstablished => true
  | _ => false

def reachesStartTls (pre : List Input) : Bool :=
  pre.all (fun i => !i.call.isTlsEstablished) &&
    ((run s (newEngine s s.options.secure) pre).map fun r => r.1.awaitingTls) = some true

def afterTls (pre post : List Input) : Option (List (List ImapAction)) :=
  (run s (newEngine s s.options.secure) pre).bind fun r =>
    (run s (tlsEstablished r.1) post).map Prod.snd

def CleanRun (pre : List Input) : Prop :=
  ∀ x ∈ runLines s (newEngine s s.options.secure) pre, CleanUpgrade s x

instance (pre : List Input) : Decidable (CleanRun s pre) :=
  inferInstanceAs (Decidable (∀ x ∈ _, _))

theorem run_of_reaches {pre : List Input} (h : reachesStartTls s pre = true) (hclean : CleanRun s pre) :
    ∃ acts, run s (newEngine s s.options.secure) pre = some (upgrading (newEngine s false), acts) := by
  simp only [reachesStartTls, Bool.and_eq_true, List.all_eq_true, decide_eq_true_eq,
    Option.map_eq_some_iff, Prod.exists] at h
  obtain ⟨hcalls, e, acts, hrun, hacc⟩ := h
  have hplain : ∀ i ∈ pre, i.call ≠ .tlsEstablished := by
    intro i hi hcall
    have := hcalls i hi
    simp [hcall, Call.isTlsEstablished] at this
  exact ⟨acts, by rw [hrun, run_to_startTls s hrun hplain hacc hclean]⟩

theorem tlsEstablished_upgrading : tlsEstablished (upgrading (newEngine s false)) = newEngine s true :=
  rfl

end

/-- If every accepted STARTTLS of two plaintext runs is clean, what follows the
handshake is the same in both, the same as for a new engine on a TLS line, and the
plaintext that still arrives before the handshake does nothing. -/
theorem startTls_noninterference (s : Setup) (pre₁ pre₂ post : List Input)
    (h₁ : reachesStartTls s pre₁ = true) (h₂ : reachesStartTls s pre₂ = true)
    (hc₁ : CleanRun s pre₁) (hc₂ : CleanRun s pre₂) :
    afterTls s pre₁ post = afterTls s pre₂ post ∧
      afterTls s pre₁ post = (run s (newEngine s true) post).map Prod.snd ∧
      ∀ (e : Engine) (acts : List (List ImapAction)) (nonce : Nat → Text) (chunk : Bytes),
        run s (newEngine s s.options.secure) pre₁ = some (e, acts) →
          feed s nonce chunk e = (e, []) := by
  obtain ⟨acts₁, hrun₁⟩ := run_of_reaches s h₁ hc₁
  obtain ⟨acts₂, hrun₂⟩ := run_of_reaches s h₂ hc₂
  have hafter₁ : afterTls s pre₁ post = (run s (newEngine s true) post).map Prod.snd := by
    simp only [afterTls, hrun₁, Option.bind_some, tlsEstablished_upgrading]
  have hafter₂ : afterTls s pre₂ post = (run s (newEngine s true) post).map Prod.snd := by
    simp only [afterTls, hrun₂, Option.bind_some, tlsEstablished_upgrading]
  refine ⟨hafter₁.trans hafter₂.symm, hafter₁, fun e acts nonce chunk hrun => ?_⟩
  rw [hrun₁] at hrun
  cases hrun
  rfl

/-- Bytes behind STARTTLS in its chunk are put before the first command of the TLS
session. -/
theorem startTls_noninterference_fails :
    ¬ ∀ (s : Setup) (pre₁ pre₂ post : List Input), reachesStartTls s pre₁ = true →
      reachesStartTls s pre₂ = true → afterTls s pre₁ post = afterTls s pre₂ post := by
  intro h
  have hsame := h bareSetup [⟨.feed (wireToBytes "a STARTTLS\r\nb"), fun _ => []⟩]
    [⟨.feed (wireToBytes "a STARTTLS\r\n"), fun _ => []⟩]
    [⟨.feed (wireToBytes "c NOOP\r\n"), fun _ => []⟩] (by decide +kernel) (by decide +kernel)
  exact absurd hsame (by decide +kernel)

theorem startTls_noninterference_splitLine :
    afterTls bareSetup
        [⟨.feed (wireToBytes "a NOOP\r\nb STAR"), fun _ => []⟩,
          ⟨.feed (wireToBytes "TTLS\r\n"), fun _ => []⟩]
        [⟨.feed (wireToBytes "c NOOP\r\n"), fun _ => []⟩] =
      afterTls bareSetup [⟨.feed (wireToBytes "a STARTTLS\r\n"), fun _ => []⟩]
        [⟨.feed (wireToBytes "c NOOP\r\n"), fun _ => []⟩] :=
  (startTls_noninterference bareSetup _ _ _ (by decide +kernel) (by decide +kernel)
    (by decide +kernel) (by decide +kernel)).1

end Ionosphere.Imap
