import Ionosphere.Mta.Client

/-! The TLS policy of `sendSmtp`, over every sequence of events. A session that passed the
negotiation holds the socket the policy asked for, and its reader holds bytes of that socket only. -/
namespace Ionosphere.Mta.Client

open Ionosphere.Js Ionosphere.Lib Ionosphere.MailAuth

/-- MAIL, RCPT, DATA with its content, and AUTH. -/
def Command.isGuarded : Command → Bool
  | .ehlo _ | .startTls | .quit => false
  | _ => true

def Command.isCredential : Command → Bool
  | .authPlain _ | .authLogin | .authUser _ | .authPass _ => true
  | _ => false

def Strict (o : SmtpClientOptions) : Prop :=
  o.requestedTls = .required ∨ o.requestedTls = .implicit ∨ o.daneActive

def Verified (h : Host) (o : SmtpClientOptions) (chain : List Certificate) : Prop :=
  ∀ tlsa, o.dane = some tlsa → hasUsableTlsa tlsa →
    ∃ usage, checkDane h.digests chain tlsa = .matched usage

structure Policy (h : Host) (o : SmtpClientOptions) (log : Log) : Prop where
  secure : Strict o → ∀ w ∈ log.written, w.command.isGuarded → w.socket = .tls
  verified : ∀ w ∈ log.written, w.command.isGuarded → Verified h o w.peer
  credentials : ∀ w ∈ log.written, w.command.isCredential → w.socket = .clear → o.tlsMode = .never
  answers : ∀ a ∈ log.answers, ∀ w, a.write = some w → w.socket = .tls → ∀ x ∈ a.octets, x.on = .tls

/-- What a session may write from: a checked socket and a reader of that socket. -/
structure Ready (h : Host) (o : SmtpClientOptions) (s : Session) : Prop where
  log : Policy h o s.log
  verified : s.socket = .tls → Verified h o s.peer
  implicit : o.tlsMode = .implicit → s.socket = .tls
  reader : s.reader.socket = s.socket
  buffered : ∀ x ∈ s.reader.buf, x.on = s.socket

structure Sound (h : Host) (o : SmtpClientOptions) (s : Session) : Prop extends Ready h o s where
  taken : ∀ x ∈ s.read.taken, x.on = s.socket
  last : ∀ w, s.log.written.getLast? = some w → w.socket = s.socket

def Cleared (o : SmtpClientOptions) (s : Session) : Prop := Strict o → s.socket = .tls

def Trusted (o : SmtpClientOptions) (s : Session) : Prop :=
  s.socket = .tls ∨ o.tlsMode = .never

def Phase.isCleared : Phase → Bool
  | .banner | .ehlo | .startTls | .handshake | .quit _ => false
  | _ => true

def Phase.isCredential : Phase → Bool
  | .authPlain | .authLogin _ | .authUser _ | .authPass => true
  | _ => false

structure Permitted (o : SmtpClientOptions) (s : Session) (p : Phase) : Prop where
  cleared : p.isCleared → Cleared o s
  trusted : p.isCredential → Trusted o s

def State.Sound (h : Host) (o : SmtpClientOptions) : State → Prop
  | .connecting => True
  | .live s => Client.Sound h o s ∧ Permitted o s s.phase
  | .done _ log => Policy h o log

section

variable {h : Host} {o : SmtpClientOptions} {s : Session} {chain : List Certificate}
  {reply : ParsedReply}

theorem State.Sound.log {st : State} (hst : st.Sound h o) : Policy h o st.log := by
  cases st with
  | connecting => exact ⟨nofun, nofun, nofun, nofun⟩
  | live s => exact hst.1.log
  | done r log => exact hst

theorem strict_iff : Strict o ↔ o.tlsMode = .required ∨ o.tlsMode = .implicit := by
  rw [Strict, SmtpClientOptions.tlsMode]
  cases o.daneActive <;> cases o.requestedTls <;> simp

theorem verified_of_relaxed (hrelaxed : ¬Strict o) : Verified h o chain := by
  intro tlsa htlsa husable
  refine absurd (.inr (.inr ?_)) hrelaxed
  rw [SmtpClientOptions.daneActive, htlsa]
  exact husable

section

variable (hs : Ready h o s)

include hs

theorem Ready.verified_of_cleared (hc : Cleared o s) : Verified h o s.peer := by
  by_cases hstrict : Strict o
  · exact hs.verified (hc hstrict)
  · exact verified_of_relaxed hstrict

theorem Ready.ask {c : Command} {p : Phase} (hp : Permitted o s p)
    (hguarded : c.isGuarded → p.isCleared) (hcredential : c.isCredential → p.isCredential) :
    (s.ask c p).Sound h o := by
  have hw : ∀ w, w ∈ s.log.written ++ [⟨c, s.socket, s.peer⟩] →
      w ∈ s.log.written ∨ w = ⟨c, s.socket, s.peer⟩ := by simp
  refine ⟨⟨⟨⟨?_, ?_, ?_, hs.log.answers⟩, hs.verified, hs.implicit, hs.reader, hs.buffered⟩,
    nofun, ?_⟩, ⟨hp.cleared, hp.trusted⟩⟩
  · intro hstrict w hmem hg
    rcases hw w hmem with hold | rfl
    · exact hs.log.secure hstrict w hold hg
    · exact hp.cleared (hguarded hg) hstrict
  · intro w hmem hg
    rcases hw w hmem with hold | rfl
    · exact hs.log.verified w hold hg
    · exact hs.verified_of_cleared (hp.cleared (hguarded hg))
  · intro w hmem hcred hclear
    rcases hw w hmem with hold | rfl
    · exact hs.log.credentials w hold hcred hclear
    · refine (hp.trusted (hcredential hcred)).resolve_left fun htls => ?_
      cases hclear.symm.trans htls
  · intro w hlast
    simp only [Session.write, List.getLast?_concat, Option.some.injEq] at hlast
    rw [← hlast]
    rfl

theorem Ready.leave (r : SmtpClientResult) : (s.leave r).Sound h o :=
  hs.ask ⟨nofun, nofun⟩ nofun nofun

theorem Ready.finish (r : SmtpClientResult) : (s.finish r).Sound h o := hs.log

theorem Ready.note {p : Phase} {lines caps accepted : List Text}
    {results : List (Text × RcptOutcome)} {used : Bool} :
    Ready h o { s with phase := p, ehloLines := lines, caps := caps, acceptedRcpts := accepted,
                       rcptResults := results, tlsUsed := used } :=
  ⟨hs.log, hs.verified, hs.implicit, hs.reader, hs.buffered⟩

theorem Ready.upgraded (hchain : Verified h o chain) :
    Ready h o (upgraded s chain) :=
  ⟨hs.log, fun _ => hchain, fun _ => rfl, rfl, nofun⟩

theorem sound_nextRcpt (hc : Cleared o s) (rcpts : List Text) :
    (nextRcpt s rcpts).Sound h o := by
  cases rcpts with
  | nil =>
    rw [nextRcpt]
    split
    · exact hs.leave _
    · exact hs.ask ⟨fun _ => hc, nofun⟩ (fun _ => rfl) nofun
  | cons rcpt rest => exact hs.ask ⟨fun _ => hc, nofun⟩ (fun _ => rfl) nofun

theorem sound_startMail (hc : Cleared o s) : (startMail o s).Sound h o := by
  rw [startMail]
  split
  · exact hs.leave _
  · exact hs.ask ⟨fun _ => hc, nofun⟩ (fun _ => rfl) nofun

theorem sound_authDone (hc : Cleared o s) :
    (authDone o s reply).Sound h o := by
  rw [authDone]
  split
  · exact hs.leave _
  · exact sound_startMail hs hc

theorem sound_authenticate (hc : Cleared o s) :
    (authenticate h o s).Sound h o := by
  rw [authenticate]
  split
  · exact sound_startMail hs hc
  split
  · exact hs.leave _
  next hexposed =>
    have htrusted : Trusted o s := by
      simp only [Bool.and_eq_true, decide_eq_true_eq, ne_eq, not_and_or, not_not] at hexposed
      exact hexposed
    rw [doAuth]
    split
    · exact sound_authDone hs hc
    split
    · exact hs.ask ⟨fun _ => hc, fun _ => htrusted⟩ (fun _ => rfl) fun _ => rfl
    · exact hs.ask ⟨fun _ => hc, fun _ => htrusted⟩ (fun _ => rfl) fun _ => rfl

theorem cleared_of_not_required (hmode : o.tlsMode ≠ .required) :
    Cleared o s :=
  fun hstrict => hs.implicit ((strict_iff.mp hstrict).resolve_left hmode)

theorem sound_negotiate : (negotiate h o s).Sound h o := by
  rw [negotiate]
  split
  · exact hs.ask ⟨nofun, nofun⟩ nofun nofun
  next hskip =>
    split
    · exact hs.leave _
    next hgo =>
      refine sound_authenticate hs (cleared_of_not_required hs fun hmode => ?_)
      simp only [hmode, decide_true, Bool.or_true, Bool.true_and] at hskip hgo
      rw [Bool.not_eq_true] at hskip
      exact hgo (Bool.not_eq_true' _ ▸ hskip)

end

theorem sound_onReply (hs : Sound h o s) (hp : Permitted o s s.phase) :
    (onReply h o s reply).Sound h o := by
  obtain ⟨hcleared, htrusted⟩ := hp
  rw [onReply]
  cases hphase : s.phase with
  | banner =>
    dsimp only
    split
    · exact hs.finish _
    · exact hs.ask ⟨nofun, nofun⟩ nofun nofun
  | ehlo =>
    dsimp only
    split
    · exact hs.finish _
    · exact sound_negotiate hs.note
  | startTls =>
    dsimp only
    split
    · exact ⟨⟨⟨hs.log, hs.verified, hs.implicit, hs.reader, hs.buffered⟩, hs.taken, hs.last⟩,
        nofun, nofun⟩
    split
    · exact hs.leave _
    next hmode =>
      exact sound_authenticate hs.toReady (cleared_of_not_required hs.toReady hmode)
  | handshake => exact ⟨hs, hcleared, htrusted⟩
  | ehloTls =>
    dsimp only
    split
    · exact hs.finish _
    · exact sound_authenticate hs.note (hcleared (by rw [hphase]; rfl))
  | authPlain => exact sound_authDone hs.toReady (hcleared (by rw [hphase]; rfl))
  | authPass => exact sound_authDone hs.toReady (hcleared (by rw [hphase]; rfl))
  | authLogin auth =>
    have hc := hcleared (by rw [hphase]; rfl)
    have ht := htrusted (by rw [hphase]; rfl)
    dsimp only
    split
    · exact sound_authDone hs.toReady hc
    · exact hs.ask ⟨fun _ => hc, fun _ => ht⟩ (fun _ => rfl) fun _ => rfl
  | authUser auth =>
    have hc := hcleared (by rw [hphase]; rfl)
    have ht := htrusted (by rw [hphase]; rfl)
    dsimp only
    split
    · exact sound_authDone hs.toReady hc
    · exact hs.ask ⟨fun _ => hc, fun _ => ht⟩ (fun _ => rfl) fun _ => rfl
  | mail =>
    dsimp only
    split
    · exact hs.leave _
    · exact sound_nextRcpt hs.toReady (hcleared (by rw [hphase]; rfl)) _
  | rcpt address rest =>
    have hc := hcleared (by rw [hphase]; rfl)
    dsimp only
    split
    · apply sound_nextRcpt
      · exact hs.note
      · exact hc
    · apply sound_nextRcpt
      · exact hs.note
      · exact hc
  | data =>
    have hc := hcleared (by rw [hphase]; rfl)
    dsimp only
    split
    · exact hs.leave _
    · exact hs.ask ⟨fun _ => hc, nofun⟩ (fun _ => rfl) nofun
  | final => exact hs.leave _
  | quit r => exact hs.finish _

theorem sound_onReject (hs : Ready h o s) (err : Text) : (onReject s err).Sound h o := by
  rw [onReject]
  split
  · exact hs.finish _
  · exact hs.finish _

theorem Sound.withReader (hs : Sound h o s) {r : ReplyReader} (hsocket : r.socket = s.socket)
    (hbuf : ∀ x ∈ r.buf, x.on = s.socket) : Sound h o { s with reader := r } :=
  ⟨⟨hs.log, hs.verified, hs.implicit, hsocket, hbuf⟩, hs.taken, hs.last⟩

theorem octets_of_nextLine {r r' : ReplyReader} {line : Text} {octets : List Octet}
    (hline : r.nextLine = some (line, octets, r')) :
    r'.socket = r.socket ∧ r.buf = octets ++ r'.buf := by
  obtain ⟨idx, -, heq⟩ := Option.map_eq_some_iff.mp hline
  obtain ⟨-, rfl, rfl⟩ := heq
  exact ⟨rfl, (List.take_append_drop _ _).symm⟩

theorem sound_onLine (hs : Sound h o s) (hp : Permitted o s s.phase) {octets : List Octet}
    (hoctets : ∀ x ∈ octets, x.on = s.socket) (line : Text) :
    (onLine h o s line octets).Sound h o := by
  have htaken : ∀ x ∈ s.read.taken ++ octets, x.on = s.socket := by
    intro x hx
    rcases List.mem_append.mp hx with hold | hnew
    · exact hs.taken x hold
    · exact hoctets x hnew
  rw [onLine]
  split
  · exact sound_onReject hs.toReady _
  dsimp only
  split
  · refine sound_onReply ⟨⟨⟨hs.log.secure, hs.log.verified, hs.log.credentials, ?_⟩, hs.verified,
      hs.implicit, hs.reader, hs.buffered⟩, hs.taken, hs.last⟩ ⟨hp.cleared, hp.trusted⟩
    intro a ha w hw htls
    rcases List.mem_append.mp ha with hold | hnew
    · exact hs.log.answers a hold w hw htls
    · rw [List.mem_singleton.mp hnew] at hw ⊢
      intro x hx
      rw [htaken x hx, ← hs.last w hw, htls]
  · exact ⟨⟨⟨hs.log, hs.verified, hs.implicit, hs.reader, hs.buffered⟩, htaken, hs.last⟩,
      hp.cleared, hp.trusted⟩

theorem sound_tryParse (n : Nat) {st : State} (hst : st.Sound h o) :
    (tryParse h o n st).Sound h o := by
  induction n generalizing st with
  | zero => exact hst
  | succ n ih =>
    cases st with
    | connecting => exact hst
    | done r log => exact hst
    | live s =>
      obtain ⟨hs, hp⟩ := hst
      rw [tryParse]
      split
      · split
        · exact ⟨hs, hp⟩
        next line octets reader hline =>
          obtain ⟨hsocket, hbuf⟩ := octets_of_nextLine hline
          have hall : ∀ x ∈ octets ++ reader.buf, x.on = s.socket := hbuf ▸ hs.buffered
          have hleft : Sound h o { s with reader := reader } :=
            hs.withReader (hsocket.trans hs.reader) fun x hx =>
              hall x (List.mem_append_right _ hx)
          exact ih (sound_onLine hleft ⟨hp.cleared, hp.trusted⟩
            (fun x hx => hall x (List.mem_append_left _ hx)) line)
      · exact ⟨hs, hp⟩

theorem sound_onData (hs : Sound h o s) (hp : Permitted o s s.phase) (channel : Channel)
    (chunk : Bytes) : (onData h o s channel chunk).Sound h o := by
  rw [onData]
  split
  next hheard =>
    rw [Bool.and_eq_true, decide_eq_true_eq] at hheard
    dsimp only
    have hfed := hs.withReader (r := ⟨s.reader.socket,
        s.reader.buf ++ (latin1Decode chunk).map fun c => ⟨c, channel⟩⟩) hs.reader (by
      intro x hx
      simp only [List.mem_append, List.mem_map] at hx
      rcases hx with hbuf | ⟨c, -, rfl⟩
      · exact hs.buffered x hbuf
      · exact hheard.2.trans hs.reader)
    split
    · exact sound_onReject hfed.toReady _
    · exact sound_tryParse _ ⟨hfed, hp.cleared, hp.trusted⟩
  next => exact ⟨hs, hp⟩

theorem verified_of_enforceDane {rs : List (Text × RcptOutcome)}
    (hnone : enforceDane h o chain rs = none) : Verified h o chain := by
  intro tlsa htlsa husable
  rw [enforceDane, htlsa] at hnone
  dsimp only at hnone
  rw [if_pos husable, daneFailure] at hnone
  split at hnone
  next usage hmatch => exact ⟨usage, hmatch⟩
  · cases hnone
  · cases hnone

theorem policy_nil : Policy h o ⟨[], []⟩ :=
  ⟨fun _ => List.forall_mem_nil _, List.forall_mem_nil _, List.forall_mem_nil _,
    List.forall_mem_nil _⟩

theorem sound_onConnected (chain : List Certificate) : (onConnected h o chain).Sound h o := by
  rw [onConnected]
  split
  · exact policy_nil
  next hnone =>
    refine ⟨⟨⟨⟨nofun, nofun, nofun, nofun⟩, ?_, ?_, rfl, nofun⟩, nofun, nofun⟩, nofun, nofun⟩
    · intro htls
      by_cases himplicit : o.tlsMode = .implicit
      · rw [if_pos himplicit] at hnone
        simp only [opened, if_pos himplicit]
        exact verified_of_enforceDane hnone
      · simp [opened, himplicit] at htls
    · intro himplicit
      simp only [opened, if_pos himplicit]

theorem sound_onSecured (hs : Sound h o s) (hp : Permitted o s s.phase)
    (chain : List Certificate) : (onSecured h o s chain).Sound h o := by
  rw [onSecured]
  split
  · split
    · exact hs.finish _
    next hnone =>
      refine (hs.upgraded (verified_of_enforceDane hnone)).ask ⟨fun _ _ => rfl, nofun⟩ nofun nofun
  · exact ⟨hs, hp⟩

theorem sound_step (e : Event) {st : State} (hst : st.Sound h o) : (step h o e st).Sound h o := by
  cases st with
  | connecting =>
    cases e with
    | connected chain => exact sound_onConnected chain
    | connectFailed err => exact ⟨nofun, nofun, nofun, nofun⟩
    | _ => exact hst
  | done r log =>
    cases e with
    | _ => exact hst
  | live s =>
    obtain ⟨hs, hp⟩ := hst
    cases e with
    | data channel chunk => exact sound_onData hs hp channel chunk
    | secured chain => exact sound_onSecured hs hp chain
    | handshakeFailed err =>
      rw [step]
      split
      · exact hs.finish _
      · exact ⟨hs, hp⟩
    | failed err =>
      rw [step]
      split
      · exact sound_onReject hs.toReady err
      · exact ⟨hs, hp⟩
    | _ => exact ⟨hs, hp⟩

theorem sound_start : (start h o).Sound h o := by
  rw [start]
  split
  · trivial
  · exact policy_nil

theorem sound_run (es : List Event) : (run h o es).Sound h o := by
  induction es using List.reverseRecOn with
  | nil => exact sound_start
  | append_singleton es e ih =>
    rw [run, List.foldl_concat]
    exact sound_step e ih

/-- With TLS asked for, no guarded command leaves on a socket that is not TLS or that fails the
check; credentials go out in clear text only in the mode `never`; and what was received in clear
text answers no command that went out over TLS. -/
theorem tls_policy (h : Host) (o : SmtpClientOptions) (es : List Event) :
    Policy h o (run h o es).log :=
  (sound_run es).log

end

end Ionosphere.Mta.Client
