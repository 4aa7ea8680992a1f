import Ionosphere.Smtp.Gating

/-! Two engines side by side. `Twin` leaves out what the handlers never look at: how the
content is cut into chunks, the errors counted so far, and, before a greeting, the
envelope of an earlier transaction. The second engine may hold more bytes and may draw
its nonces from another stream. A pass of the one is a pass of the other. -/

namespace Ionosphere.Smtp

open Ionosphere.Js Ionosphere.Core Ionosphere.Lib

variable {e e' : Engine} {calls : List Call} {es : List Entry}

/-- The same host with the nonces `f`. -/
def drawing (h : Host) (f : Nat → Text) : Host := { h with serverNonce := f }

/-- The fields a greeting replaces. -/
structure Envelope where
  heloName : Text
  rcptDsn : List (Text × RcptDsn)
  mailDsn : MailDsn
  bdatRemaining : Nat
  bdatLast : Bool

def Engine.envelope (e : Engine) : Envelope :=
  ⟨e.heloName, e.rcptDsn, e.mailDsn, e.bdatRemaining, e.bdatLast⟩

/-- `e'` is `e` with the bytes `x` more, as long as they are read at all: STARTTLS throws
the bytes of both away, and a closed engine reads no more. The envelopes are the same
after a greeting or, with `s`, from the start. -/
structure Twin (h : Host) (f : Nat → Text) (s : Prop) (x : Bytes) (e e' : Engine) : Prop where
  same : e' = { e with
    buffer := e'.buffer, dataChunks := e'.dataChunks, errorCount := e'.errorCount
    nonces := e'.nonces, heloName := e'.heloName, rcptDsn := e'.rcptDsn, mailDsn := e'.mailDsn
    bdatRemaining := e'.bdatRemaining, bdatLast := e'.bdatLast }
  buffer : e.closed = false → e.awaiting ≠ some .tls → e'.buffer = e.buffer ++ x
  content : e'.dataChunks.flatten = e.dataChunks.flatten
  envelope : s ∨ e.state ≠ .init → e'.envelope = e.envelope
  nonce : ∀ k, f (e'.nonces + k) = h.serverNonce (e.nonces + k)

/-- The same actions, and twins again. -/
structure Agrees (h : Host) (f : Nat → Text) (s : Prop) (x : Bytes) (r r' : Engine × List SmtpAction) :
    Prop where
  twin : Twin h f s x r.1 r'.1
  actions : r'.2 = r.2

section

variable {h : Host} {o : Options} {f : Nat → Text} {s : Prop} {x : Bytes}

namespace Twin

variable (ht : Twin h f s x e e')

include ht

theorem state : e'.state = e.state := by rw [ht.same]

theorem isTls : e'.isTls = e.isTls := by rw [ht.same]

theorem awaiting : e'.awaiting = e.awaiting := by rw [ht.same]

theorem closed : e'.closed = e.closed := by rw [ht.same]

theorem mailFrom : e'.mailFrom = e.mailFrom := by rw [ht.same]

theorem rcptTo : e'.rcptTo = e.rcptTo := by rw [ht.same]

theorem rcptCount : e'.rcptCount = e.rcptCount := by rw [ht.same]

theorem dataSize : e'.dataSize = e.dataSize := by rw [ht.same]

theorem dataOverflow : e'.dataOverflow = e.dataOverflow := by rw [ht.same]

theorem authenticatedAs : e'.authenticatedAs = e.authenticatedAs := by
  rw [ht.same]

theorem authContinuation : e'.authContinuation = e.authContinuation := by
  rw [ht.same]

theorem pendingRcptAddress :
    e'.pendingRcptAddress = e.pendingRcptAddress := by
  rw [ht.same]

theorem pendingAuthUser : e'.pendingAuthUser = e.pendingAuthUser := by
  rw [ht.same]

theorem pendingOverflow : e'.pendingOverflow = e.pendingOverflow := by
  rw [ht.same]

theorem fields (hs : s ∨ e.state ≠ .init) :
    e'.heloName = e.heloName ∧ e'.rcptDsn = e.rcptDsn ∧ e'.mailDsn = e.mailDsn ∧
      e'.bdatRemaining = e.bdatRemaining ∧ e'.bdatLast = e.bdatLast := by
  simpa [Engine.envelope] using ht.envelope hs

theorem running : Smtp.running e' = Smtp.running e := by
  simp only [Smtp.running, ht.awaiting, ht.closed]

theorem authAllowed : Smtp.authAllowed o e' = Smtp.authAllowed o e := by
  simp only [Smtp.authAllowed, ht.isTls]

theorem push (acts : List SmtpAction) :
    Agrees h f s x (e, acts) (e', acts) := ⟨ht, rfl⟩

theorem setBuffer (rest : Bytes) :
    Twin h f s x { e with buffer := rest } { e' with buffer := rest ++ x } :=
  ⟨by rw [ht.same], fun _ _ => rfl, ht.content, ht.envelope, ht.nonce⟩

theorem exchange (c : Option AuthContinuation) (u : Option Text)
    (w : Option Awaiting) (hw : e.awaiting ≠ some .tls) :
    Twin h f s x { e with authContinuation := c, pendingAuthUser := u, awaiting := w }
      { e' with authContinuation := c, pendingAuthUser := u, awaiting := w } :=
  ⟨by rw [ht.same], fun hopen _ => ht.buffer hopen hw, ht.content, ht.envelope, ht.nonce⟩

theorem goOn (c : Option AuthContinuation) :
    Twin h f s x { e with authContinuation := c } { e' with authContinuation := c } :=
  ⟨by rw [ht.same], ht.buffer, ht.content, ht.envelope, ht.nonce⟩

theorem reset : Twin h f s x (resetTransaction e) (resetTransaction e') := by
  refine ⟨?_, ht.buffer, rfl, fun hs => ?_, ht.nonce⟩
  · unfold resetTransaction
    rw [ht.same]
  · have hne : s ∨ e.state ≠ .init := by
      refine hs.imp_right fun hs hi => ?_
      simp [resetTransaction, hi] at hs
    have hname := congrArg Envelope.heloName (ht.envelope hne)
    exact congrArg (Envelope.mk · [] {} 0 false) hname

theorem greet (name : Text) :
    Twin h f s x { resetTransaction e with state := .greeted, heloName := name }
      { resetTransaction e' with state := .greeted, heloName := name } := by
  refine ⟨?_, ht.buffer, rfl, fun _ => rfl, ht.nonce⟩
  unfold resetTransaction
  rw [ht.same]

end Twin

theorem Agrees.ite {c c' : Prop} [Decidable c] [Decidable c'] {r r' q q' : Engine × List SmtpAction}
    (hiff : c' ↔ c) (hr : c → Agrees h f s x r r') (hq : ¬c → Agrees h f s x q q') :
    Agrees h f s x (if c then r else q) (if c' then r' else q') := by
  by_cases hc : c
  · rw [if_pos hc, if_pos (hiff.mpr hc)]
    exact hr hc
  · rw [if_neg hc, if_neg fun hc' => hc (hiff.mp hc')]
    exact hq hc

theorem ehloLines_congr (htls : e'.isTls = e.isTls) : ehloLines o e' = ehloLines o e := by
  unfold ehloLines authAllowed
  rw [htls]

section

variable (ht : Twin h f s x e e')

include ht

theorem handleEhlo_twin (rest : Text) :
    Agrees h f s x (handleEhlo o rest e) (handleEhlo o rest e') := by
  unfold handleEhlo
  refine .ite Iff.rfl (fun _ => ht.push _) fun _ => ⟨ht.greet rest, ?_⟩
  have hlines := ehloLines_congr (o := o) (ht.greet rest).isTls
  dsimp only at hlines ⊢
  rw [hlines]

theorem handleHelo_twin (rest : Text) :
    Agrees h f s x (handleHelo o rest e) (handleHelo o rest e') := by
  unfold handleHelo
  exact .ite Iff.rfl (fun _ => ht.push _) fun _ => ⟨ht.greet rest, rfl⟩

theorem handleMail_twin (rest : Text) :
    Agrees h f s x (handleMail h o rest e) (handleMail (drawing h f) o rest e') := by
  unfold handleMail
  refine .ite (by rw [ht.state]) (fun _ => ht.push _) fun hinit => ?_
  refine .ite (by rw [ht.authenticatedAs]) (fun _ => ht.push _) fun _ => ?_
  refine .ite (by rw [ht.state]) (fun _ => ht.push _) fun _ => ?_
  dsimp only [drawing]
  split
  · exact ht.push _
  next parsed _ =>
  refine .ite Iff.rfl (fun _ => ht.push _) fun _ => ?_
  refine ⟨⟨by rw [ht.same], ht.buffer, ht.content, fun _ => ?_, ht.nonce⟩, rfl⟩
  exact congrArg (fun v : Envelope => { v with mailDsn := ⟨parsed.ret, parsed.envid⟩ })
    (ht.envelope (.inr hinit))

theorem handleRcpt_twin (hwait : e.awaiting = none) (rest : Text) :
    Agrees h f s x (handleRcpt h rest e) (handleRcpt (drawing h f) rest e') := by
  unfold handleRcpt
  refine .ite (by rw [ht.state]) (fun _ => ht.push _) fun hstate => ?_
  have hne : e.state ≠ .init := by
    intro hi
    simp [hi] at hstate
  dsimp only [drawing]
  split
  · exact ht.push _
  next v _ =>
  refine .ite (by rw [ht.rcptCount]) (fun _ => ht.push _) fun _ => ?_
  refine ⟨⟨?_, fun hopen _ => ht.buffer hopen (by simp [hwait]), ht.content, fun _ => ?_, ht.nonce⟩, rfl⟩
  · rw [ht.same]
  · exact congrArg (fun w : Envelope => { w with rcptDsn := recordDsn v w.rcptDsn })
      (ht.envelope (.inr hne))

theorem handleData_twin (rest : Text) :
    Agrees h f s x (handleData rest e) (handleData rest e') := by
  unfold handleData
  refine .ite Iff.rfl (fun _ => ht.push _) fun _ => ?_
  refine .ite (by rw [ht.state]) (fun _ => ht.push _) fun hstate => ?_
  have hs : e.state ≠ .init := by simp [not_not.mp hstate]
  exact ⟨⟨by rw [ht.same], ht.buffer, ht.content, fun _ => ht.envelope (.inr hs), ht.nonce⟩, rfl⟩

theorem handleBdat_twin (rest : Text) :
    Agrees h f s x (handleBdat h o rest e) (handleBdat (drawing h f) o rest e') := by
  unfold handleBdat
  refine .ite (by rw [ht.state]) (fun _ => ht.push _) fun hstate => ?_
  have hne : e.state ≠ .init := by
    intro hi
    simp [hi] at hstate
  have hparse : parseBdatArgs (drawing h f) rest = parseBdatArgs h rest := rfl
  rw [hparse]
  split
  · exact ht.push _
  next digits last _ =>
  split
  · exact ht.push _
  next n _ =>
  refine ⟨⟨?_, ht.buffer, ht.content, fun _ => ?_, ht.nonce⟩, rfl⟩
  · dsimp only
    rw [ht.dataOverflow, ht.dataSize, ht.same]
  · exact congrArg (fun w : Envelope => { w with bdatRemaining := n, bdatLast := last })
      (ht.envelope (.inr hne))

theorem handleStartTls_twin :
    Agrees h f s x (handleStartTls o e) (handleStartTls o e') := by
  unfold handleStartTls
  refine .ite Iff.rfl (fun _ => ht.push _) fun _ => ?_
  refine .ite (by rw [ht.isTls]) (fun _ => ht.push _) fun _ => ?_
  exact ⟨⟨by rw [ht.same], fun _ hne => absurd rfl hne, ht.content, ht.envelope, ht.nonce⟩, rfl⟩

theorem requestAuth_twin (hwait : e.awaiting = none) (user pass : Text) :
    Agrees h f s x (requestAuth user pass e) (requestAuth user pass e') := by
  exact ⟨⟨by unfold requestAuth; rw [ht.same], fun hopen _ => ht.buffer hopen (by simp [hwait]),
    ht.content, ht.envelope, ht.nonce⟩,
    rfl⟩

theorem finishPlainAuth_twin (hwait : e.awaiting = none) (b64 : Text) :
    Agrees h f s x (finishPlainAuth b64 e) (finishPlainAuth b64 e') := by
  unfold finishPlainAuth
  split
  · exact ht.push _
  split
  · exact ht.push _
  · exact requestAuth_twin ht hwait _ _

theorem finishOAuthAuth_twin (hwait : e.awaiting = none)
    (m : OAuthMechanism) (b64 : Text) :
    Agrees h f s x (finishOAuthAuth m b64 e) (finishOAuthAuth m b64 e') := by
  unfold finishOAuthAuth
  split
  · exact ht.push _
  split
  · exact ht.push _
  · exact requestAuth_twin ht hwait _ _

theorem scramRejected_twin (step : ScramStep) :
    Agrees h f s x (scramRejected step e) (scramRejected step e') := ⟨ht.goOn none, rfl⟩

theorem beginScram_twin (hwait : e.awaiting = none)
    (session : ScramServerSession) (b64 : Text) :
    Agrees h f s x (beginScram h session b64 e) (beginScram (drawing h f) session b64 e') := by
  unfold beginScram
  split
  · exact ⟨ht.goOn none, rfl⟩
  have hdraw : (drawing h f).serverNonce e'.nonces = h.serverNonce e.nonces := ht.nonce 0
  rw [hdraw]
  split
  · refine ⟨⟨by rw [ht.same], fun hopen _ => ht.buffer hopen (by simp [hwait]), ht.content, ht.envelope,
      fun k => ?_⟩, rfl⟩
    have hk := ht.nonce (1 + k)
    simpa only [Nat.add_assoc] using hk
  · exact scramRejected_twin ht _

theorem handleAuth_twin (hwait : e.awaiting = none) (rest : Text) :
    Agrees h f s x (handleAuth h o rest e) (handleAuth (drawing h f) o rest e') := by
  have hchallenge (c : AuthContinuation) (a : SmtpAction) :
      Agrees h f s x ({ e with authContinuation := some c }, [a])
        ({ e' with authContinuation := some c }, [a]) := ⟨ht.goOn (some c), rfl⟩
  unfold handleAuth
  refine .ite (by rw [ht.authAllowed]) (fun _ => ht.push _) fun _ => ?_
  refine .ite (by rw [ht.authenticatedAs]) (fun _ => ht.push _) fun _ => ?_
  have hverb : splitVerb (drawing h f).cases rest = splitVerb h.cases rest := rfl
  rw [hverb]
  generalize splitVerb h.cases rest = v
  obtain ⟨mechanism, initialResponse⟩ := v
  refine .ite Iff.rfl (fun _ => ?_) fun _ => ?_
  · exact .ite Iff.rfl (fun _ => finishPlainAuth_twin ht hwait _) fun _ => hchallenge _ _
  refine .ite Iff.rfl (fun _ => ?_) fun _ => ?_
  · refine .ite Iff.rfl (fun _ => ?_) fun _ => hchallenge _ _
    split
    · exact ht.push _
    · exact hchallenge _ _
  refine .ite Iff.rfl (fun _ => ?_) fun _ => ?_
  · refine .ite Iff.rfl (fun _ => ht.push _) fun _ => ?_
    exact .ite Iff.rfl (fun _ => beginScram_twin ht hwait _ _) fun _ => hchallenge _ _
  refine .ite Iff.rfl (fun _ => ?_) fun _ => ?_
  · exact .ite Iff.rfl (fun _ => finishOAuthAuth_twin ht hwait _ _) fun _ => hchallenge _ _
  refine .ite Iff.rfl (fun _ => ?_) fun _ => ht.push _
  exact .ite Iff.rfl (fun _ => finishOAuthAuth_twin ht hwait _ _) fun _ => hchallenge _ _

theorem handleAuthContinuationLine_twin (hwait : e.awaiting = none)
    (cont : AuthContinuation) (line : Bytes) :
    Agrees h f s x (handleAuthContinuationLine h cont line e)
      (handleAuthContinuationLine (drawing h f) cont line e') := by
  have hdone := ht.goOn none
  unfold handleAuthContinuationLine
  refine .ite Iff.rfl (fun _ => hdone.push _) fun _ => ?_
  refine .ite Iff.rfl (fun _ => hdone.push _) fun _ => ?_
  cases cont with
  | plain => exact finishPlainAuth_twin hdone hwait _
  | oauth m => exact finishOAuthAuth_twin hdone hwait _ _
  | scramKeys session => exact beginScram_twin ht hwait _ _
  | scramServerFinal session username =>
    exact ⟨ht.exchange none (some username) (some .auth) (by simp [hwait]), rfl⟩
  | scramFinal session =>
    dsimp only
    split
    · exact hdone.push _
    · have hfinal (t : Text) : session.final (drawing h f) t = session.final h t := rfl
      rw [hfinal]
      split
      · exact ⟨ht.goOn _, rfl⟩
      · exact scramRejected_twin ht _
  | loginUsername =>
    dsimp only
    split
    · exact hdone.push _
    · exact ⟨ht.goOn _, rfl⟩
  | loginPassword user =>
    dsimp only
    split
    · exact hdone.push _
    · exact requestAuth_twin hdone hwait _ _

end

private theorem agrees_ite {c : Prop} [Decidable c] {k k' g g' : Handler}
    (hk : Agrees h f s x (k e) (k' e')) (hg : Agrees h f s x (g e) (g' e')) :
    Agrees h f s x ((if c then k else g) e) ((if c then k' else g') e') := by
  split_ifs
  · exact hk
  · exact hg

section

variable (ht : Twin h f s x e e')

include ht

theorem handleVerb_twin (hwait : e.awaiting = none) (verb rest : Text) :
    Agrees h f s x (handleVerb h o verb rest e) (handleVerb (drawing h f) o verb rest e') := by
  unfold handleVerb
  refine agrees_ite (handleEhlo_twin ht rest) ?_
  refine agrees_ite (handleHelo_twin ht rest) ?_
  refine agrees_ite (handleMail_twin ht rest) ?_
  refine agrees_ite (handleRcpt_twin ht hwait rest) ?_
  refine agrees_ite (handleData_twin ht rest) ?_
  refine agrees_ite (handleBdat_twin ht rest) ?_
  refine agrees_ite ⟨ht.reset, rfl⟩ ?_
  refine agrees_ite (ht.push _) ?_
  refine agrees_ite ?_ ?_
  · exact ⟨⟨by unfold quit; rw [ht.same], fun hopen => Bool.noConfusion hopen, ht.content,
      ht.envelope, ht.nonce⟩, rfl⟩
  refine agrees_ite ?_ ?_
  · unfold handleVrfy
    exact agrees_ite (ht.push _) (ht.push _)
  refine agrees_ite (ht.push _) ?_
  refine agrees_ite (ht.push _) ?_
  refine agrees_ite (handleStartTls_twin ht) ?_
  exact agrees_ite (handleAuth_twin ht hwait rest) (ht.push _)

theorem handleCommandLine_twin (hwait : e.awaiting = none) (line : Bytes) :
    Agrees h f s x (handleCommandLine h o line e) (handleCommandLine (drawing h f) o line e') := by
  unfold handleCommandLine
  refine agrees_ite (ht.push _) ?_
  dsimp only
  refine agrees_ite (ht.push _) ?_
  exact handleVerb_twin ht hwait _ _

theorem finishData_twin (hwait : e.awaiting = none) (hs : e.state ≠ .init) :
    Agrees h f s x (finishData e) (finishData e') := by
  unfold finishData
  refine .ite (by rw [ht.dataOverflow]) (fun _ => ⟨ht.reset, rfl⟩) fun _ => ?_
  obtain ⟨hname, hrcpt, hmail, -, -⟩ := ht.fields (.inr hs)
  refine ⟨⟨by rw [ht.same], fun hopen _ => ht.buffer hopen (by simp [hwait]), rfl, ht.envelope, ht.nonce⟩,
    ?_⟩
  rw [ht.mailFrom, hname, ht.rcptTo, ht.content, ht.authenticatedAs, hmail, hrcpt]

theorem storeDataLine_twin (line : Bytes) :
    Twin h f s x (storeDataLine o line e) (storeDataLine o line e') := by
  unfold storeDataLine
  rw [ht.dataOverflow]
  split_ifs
  · exact ht
  dsimp only
  rw [ht.dataSize]
  split_ifs
  · exact ⟨by rw [ht.same], ht.buffer, rfl, ht.envelope, ht.nonce⟩
  · refine ⟨by rw [ht.same], ht.buffer, ?_, ht.envelope, ht.nonce⟩
    rw [List.flatten_append, List.flatten_append, ht.content]

theorem finishChunk_twin (hwait : e.awaiting = none) (hs : e.state ≠ .init) :
    Agrees h f s x (finishChunk e) (finishChunk e') := by
  unfold finishChunk
  obtain ⟨hname, -, -, -, hlast⟩ := ht.fields (.inr hs)
  refine .ite (by rw [ht.dataOverflow]) (fun _ => ?_) fun _ => ?_
  · refine ⟨⟨by unfold resetTransaction; rw [ht.same], ht.buffer, rfl, fun _ => ?_, ht.nonce⟩, rfl⟩
    exact congrArg (Envelope.mk · [] {} 0 false) hname
  refine .ite (by rw [hlast]) (fun _ => ?_) fun _ => ?_
  · refine ⟨⟨by rw [ht.same], ht.buffer, ht.content, fun _ => ht.envelope (.inr hs), ht.nonce⟩, ?_⟩
    rw [ht.dataSize]
  · exact finishData_twin ht hwait hs

theorem takeChunk_twin (hopen : e.closed = false) (hwait : e.awaiting = none) (hs : e.state ≠ .init)
    (hx : x = [] ∨ e.bdatRemaining ≤ e.buffer.length) :
    Twin h f s x (takeChunk e) (takeChunk e') := by
  have henv := ht.envelope (.inr hs)
  have hrem : e'.bdatRemaining = e.bdatRemaining := congrArg Envelope.bdatRemaining henv
  have hbuf : e'.buffer = e.buffer ++ x := ht.buffer hopen (by simp [hwait])
  have htake : min e'.bdatRemaining e'.buffer.length = min e.bdatRemaining e.buffer.length := by
    rw [hrem, hbuf, List.length_append]
    rcases hx with rfl | hle
    · rfl
    · omega
  have hle : min e.bdatRemaining e.buffer.length ≤ e.buffer.length := Nat.min_le_right _ _
  have hchunk : chunkBytes e' = chunkBytes e := by
    unfold chunkBytes
    rw [htake, hbuf, List.take_append_of_le_length hle]
  unfold takeChunk
  rw [htake, hchunk, ht.dataOverflow, ht.dataSize, hrem]
  refine ⟨by rw [ht.same], fun _ _ => ?_, ?_, fun _ => ?_, ht.nonce⟩
  · dsimp only
    rw [hbuf, List.drop_append_of_le_length hle]
  · dsimp only
    split_ifs
    · exact ht.content
    · rw [List.flatten_append, List.flatten_append, ht.content]
  · exact congrArg (fun w : Envelope =>
      { w with bdatRemaining := roundInt (e.bdatRemaining - min e.bdatRemaining e.buffer.length) }) henv

end

/-- What two passes have in common. -/
structure TurnAgrees (h : Host) (f : Nat → Text) (s : Prop) (x : Bytes) (t t' : Turn) : Prop where
  twin : Twin h f s x t.after t'.after
  actions : t'.actions = t.actions
  again : t'.again = t.again

theorem Agrees.turn {r r' : Engine × List SmtpAction} (hr : Agrees h f s x r r') {c c' : Consumed}
    {again : Bool} : TurnAgrees h f s x ⟨e, r.1, r.2, c, again⟩ ⟨e', r'.1, r'.2, c', again⟩ :=
  ⟨hr.twin, hr.actions, rfl⟩

section

variable (ht : Twin h f s x e e')

include ht

theorem turnAuth_twin (hopen : e.closed = false) (hwait : e.awaiting = none) (cont : AuthContinuation)
    (hx : x = [] ∨ (turnAuth h cont e).again = true) :
    TurnAgrees h f s x (turnAuth h cont e) (turnAuth (drawing h f) cont e') := by
  have hbuf : e'.buffer = e.buffer ++ x := ht.buffer hopen (by simp [hwait])
  unfold turnAuth at hx ⊢
  cases hi : indexOfCRLF e.buffer with
  | none =>
    have hnil : x = [] := by
      refine hx.resolve_right fun hagain => ?_
      rw [hi] at hagain
      dsimp only at hagain
      split_ifs at hagain
    subst hnil
    rw [List.append_nil] at hbuf
    rw [hbuf, hi]
    dsimp only
    split_ifs
    · refine ⟨⟨by rw [ht.same], fun _ _ => rfl, ht.content, ht.envelope, ht.nonce⟩, rfl, rfl⟩
    · exact ⟨ht, rfl, rfl⟩
  | some i =>
    obtain ⟨hi', htake, hdrop⟩ := Lines.index_append hi x
    rw [hbuf, indexOfCRLF, hi']
    dsimp only
    rw [htake, hdrop]
    exact (handleAuthContinuationLine_twin (ht.setBuffer (e.buffer.drop (i + 2))) hwait cont _).turn

theorem turnCommand_twin (hopen : e.closed = false) (hwait : e.awaiting = none)
    (hx : x = [] ∨ (turnCommand h o e).again = true) :
    TurnAgrees h f s x (turnCommand h o e) (turnCommand (drawing h f) o e') := by
  have hbuf : e'.buffer = e.buffer ++ x := ht.buffer hopen (by simp [hwait])
  unfold turnCommand at hx ⊢
  cases hi : indexOfCRLF e.buffer with
  | none =>
    have hnil : x = [] := by
      refine hx.resolve_right fun hagain => ?_
      rw [hi] at hagain
      dsimp only at hagain
      split_ifs at hagain
    subst hnil
    rw [List.append_nil] at hbuf
    rw [hbuf, hi]
    dsimp only
    split_ifs
    · exact ⟨ht.setBuffer [], rfl, rfl⟩
    · exact ⟨ht, rfl, rfl⟩
  | some i =>
    obtain ⟨hi', htake, hdrop⟩ := Lines.index_append hi x
    rw [hbuf, indexOfCRLF, hi']
    dsimp only
    rw [htake, hdrop]
    exact (handleCommandLine_twin (ht.setBuffer (e.buffer.drop (i + 2))) hwait _).turn

theorem turnData_twin (hopen : e.closed = false) (hwait : e.awaiting = none) (hs : e.state ≠ .init)
    (hx : x = [] ∨ (turnData o e).again = true) :
    TurnAgrees h f s x (turnData o e) (turnData o e') := by
  have hbuf : e'.buffer = e.buffer ++ x := ht.buffer hopen (by simp [hwait])
  unfold turnData at hx ⊢
  cases hi : indexOfCRLF e.buffer with
  | none =>
    have hnil : x = [] := by
      refine hx.resolve_right fun hagain => ?_
      rw [hi] at hagain
      cases hagain
    subst hnil
    rw [List.append_nil] at hbuf
    rw [hbuf, hi]
    refine ⟨?_, rfl, rfl⟩
    have hfull : dataBufferFull o e' = dataBufferFull o e := by
      simp only [dataBufferFull, hbuf, ht.dataSize]
    unfold guardDataBuffer
    dsimp only
    rw [hfull, hbuf]
    split_ifs
    · refine ⟨by rw [ht.same], fun _ _ => by simp, rfl, ht.envelope, ht.nonce⟩
    · exact ht
  | some i =>
    obtain ⟨hi', htake, hdrop⟩ := Lines.index_append hi x
    rw [hbuf, indexOfCRLF, hi']
    dsimp only
    rw [htake, hdrop]
    split_ifs
    · exact (finishData_twin (ht.setBuffer (e.buffer.drop (i + 2))) hwait hs).turn
    · exact ⟨storeDataLine_twin (ht.setBuffer (e.buffer.drop (i + 2))) _, rfl, rfl⟩

theorem turnBdat_twin (hopen : e.closed = false) (hwait : e.awaiting = none) (hs : e.state ≠ .init)
    (hx : x = [] ∨ (turnBdat e).again = true) :
    TurnAgrees h f s x (turnBdat e) (turnBdat e') := by
  have hbuf : e'.buffer = e.buffer ++ x := ht.buffer hopen (by simp [hwait])
  obtain ⟨-, -, -, hrem, -⟩ := ht.fields (.inr hs)
  unfold turnBdat at hx ⊢
  rw [hrem]
  by_cases hpos : 0 < e.bdatRemaining
  · rw [if_pos hpos] at hx
    rw [if_pos hpos, if_pos hpos]
    by_cases hempty : e.buffer = []
    · have hnil : x = [] := by simpa [hempty] using hx
      subst hnil
      rw [List.append_nil] at hbuf
      rw [if_pos hempty, if_pos (hbuf.trans hempty)]
      exact ⟨ht, rfl, rfl⟩
    · have hempty' : e'.buffer ≠ [] := by simp [hbuf, hempty]
      rw [if_neg hempty] at hx
      rw [if_neg hempty, if_neg hempty']
      have hx' : x = [] ∨ e.bdatRemaining ≤ e.buffer.length := by
        refine hx.imp_right fun hagain => ?_
        split_ifs at hagain with hmore
        have hzero : (takeChunk e).bdatRemaining = 0 := by omega
        have hsub := roundInt_eq_zero.mp hzero
        omega
      have htake := takeChunk_twin ht hopen hwait hs hx'
      have hmore := (htake.fields (.inr hs)).2.2.2.1
      have hstate : (takeChunk e).state ≠ .init := hs
      rw [hmore]
      split_ifs
      · exact ⟨htake, rfl, rfl⟩
      · exact (finishChunk_twin htake hwait hstate).turn
  · rw [if_neg hpos, if_neg hpos]
    exact (finishChunk_twin ht hwait hs).turn

theorem turn_twin (hrun : running e = true)
    (hx : x = [] ∨ (turn h o e).again = true) :
    TurnAgrees h f s x (turn h o e) (turn (drawing h f) o e') := by
  obtain ⟨hwait, hopen⟩ := running_iff.mp hrun
  cases hc : e.authContinuation with
  | some cont =>
    rw [turn_auth hc] at hx ⊢
    rw [turn_auth (ht.authContinuation.trans hc)]
    exact turnAuth_twin ht hopen hwait cont hx
  | none =>
    have hc' := ht.authContinuation.trans hc
    by_cases hd : e.state = .data
    · rw [turn_data hc hd] at hx ⊢
      rw [turn_data hc' (ht.state.trans hd)]
      exact turnData_twin ht hopen hwait (by simp [hd]) hx
    by_cases hb : e.state = .bdat
    · rw [turn_bdat hc hb] at hx ⊢
      rw [turn_bdat hc' (ht.state.trans hb)]
      exact turnBdat_twin ht hopen hwait (by simp [hb]) hx
    · rw [turn_command hc hd hb] at hx ⊢
      rw [turn_command hc' (ht.state ▸ hd) (ht.state ▸ hb)]
      exact turnCommand_twin ht hopen hwait hx

end

/-- What two calls have in common up to their loops. -/
structure PreparedAgrees (h : Host) (f : Nat → Text) (s : Prop) (x : Bytes) (p p' : Prepared) : Prop where
  twin : Twin h f s x p.engine p'.engine
  actions : p'.actions = p.actions
  loops : p'.loops = p.loops

theorem Agrees.answered {r r' : Engine × List SmtpAction} (hr : Agrees h f s x r r') :
    PreparedAgrees h f s x (answered r) (answered r') := ⟨hr.twin, hr.actions, rfl⟩

theorem rcptAnswered_twin (ht : Twin h f s x e e') (hwait : e.awaiting = some .rcpt)
    (hs : s ∨ e.state ≠ .init) (outcome : RcptOutcome) :
    Agrees h f s x (rcptAnswered outcome e) (rcptAnswered outcome e') := by
  unfold rcptAnswered
  rw [ht.pendingRcptAddress, ht.rcptTo]
  rcases outcome with err | ⟨⟩
  · exact ⟨⟨by rw [ht.same], fun hopen _ => ht.buffer hopen (by simp [hwait]), ht.content,
      ht.envelope, ht.nonce⟩, rfl⟩
  · exact ⟨⟨by rw [ht.same], fun hopen _ => ht.buffer hopen (by simp [hwait]), ht.content,
      fun _ => ht.envelope hs, ht.nonce⟩, rfl⟩

theorem authAnswered_twin (ht : Twin h f s x e e') (hwait : e.awaiting = some .auth) (ok : Bool) :
    Agrees h f s x (authAnswered ok e) (authAnswered ok e') := by
  unfold authAnswered
  rw [ht.pendingAuthUser]
  refine .ite Iff.rfl (fun _ => ?_) fun _ => ?_
  · exact ⟨⟨by rw [ht.same], fun hopen _ => ht.buffer hopen (by simp [hwait]), ht.content,
      ht.envelope, ht.nonce⟩, rfl⟩
  · exact ⟨⟨by rw [ht.same], fun hopen _ => ht.buffer hopen (by simp [hwait]), ht.content,
      ht.envelope, ht.nonce⟩, rfl⟩

theorem Twin.resumed (ht : Twin h f s x e e') (hwait : e.awaiting ≠ some .tls) :
    Twin h f s x { e with awaiting := none } { e' with awaiting := none } :=
  ⟨by rw [ht.same], fun hopen _ => ht.buffer hopen hwait, ht.content, ht.envelope, ht.nonce⟩

theorem keysProvided_twin (ht : Twin h f s x e e') (hwait : e.awaiting = some .scramKeys)
    (keys : Option ScramStoredKeys) :
    Agrees h f s x (keysProvided h keys e) (keysProvided (drawing h f) keys e') := by
  have hdone := ht.resumed (by simp [hwait])
  have hkeys (session : ScramServerSession) :
      session.provideKeys (drawing h f) keys = session.provideKeys h keys := rfl
  unfold keysProvided
  dsimp only
  rw [ht.authContinuation] at hdone ⊢
  generalize e.authContinuation = c at hdone ⊢
  cases c with
  | none => exact hdone.push []
  | some cont =>
    cases cont with
    | scramKeys session | scramFinal session | scramServerFinal session _ =>
      dsimp only
      rw [hkeys]
      generalize session.provideKeys h keys = r
      obtain ⟨session', step⟩ := r
      cases step with
      | send message =>
        exact ⟨hdone.goOn (some (.scramFinal session')), rfl⟩
      | _ => exact scramRejected_twin hdone _
    | _ => exact hdone.push []

private theorem rel_ite {α : Type} {R : α → α → Prop} {c c' : Prop} [Decidable c] [Decidable c']
    {a a' : α} (hiff : c' ↔ c) (hr : c → R a a') :
    Option.Rel R (if c then some a else none) (if c' then some a' else none) := by
  by_cases hc : c
  · rw [if_pos hc, if_pos (hiff.mpr hc)]
    exact .some (hr hc)
  · rw [if_neg hc, if_neg fun hc' => hc (hiff.mp hc')]
    exact .none

theorem prepareFeed_twin (ht : Twin h f s [] e e') (hwait : e.awaiting ≠ some .tls) (chunk : Bytes) :
    PreparedAgrees h f s [] (prepareFeed chunk e) (prepareFeed chunk e') := by
  unfold prepareFeed
  cases hclosed : e.closed with
  | true =>
    rw [ht.closed, hclosed]
    exact ⟨ht, rfl, rfl⟩
  | false =>
  have hbuf : e'.buffer = e.buffer := by simpa using ht.buffer hclosed hwait
  rw [ht.closed, hclosed, ht.awaiting, hbuf]
  simp only [Bool.false_eq_true, if_false]
  split_ifs
  · exact ⟨⟨by rw [ht.same], fun _ _ => by simp, ht.content, ht.envelope, ht.nonce⟩, rfl, rfl⟩
  · exact ⟨⟨by rw [ht.same], fun _ _ => by simp, ht.content, ht.envelope, ht.nonce⟩, rfl, rfl⟩
  · exact ⟨⟨by rw [ht.same], fun _ _ => by simp, ht.content, ht.envelope, ht.nonce⟩, rfl, rfl⟩

theorem prepare_twin (ht : Twin h f s x e e') (hasks : e.awaiting = some .rcpt → s ∨ e.state ≠ .init)
    (c : Call) (hx : c.isAnswer = true ∨ x = [] ∧ e.awaiting ≠ some .tls) :
    Option.Rel (PreparedAgrees h f s x) (prepare h c e) (prepare (drawing h f) c e') := by
  have hwait (w : Awaiting) : e'.awaiting = some w ↔ e.awaiting = some w := by rw [ht.awaiting]
  cases c with
  | feed chunk =>
    obtain ⟨rfl, hne⟩ := hx.resolve_left (by simp [Call.isAnswer])
    exact .some (prepareFeed_twin ht hne chunk)
  | rcptResult outcome =>
    exact rel_ite (hwait .rcpt) fun hw => (rcptAnswered_twin ht hw (hasks hw) outcome).answered
  | deliveryResult outcome =>
    refine rel_ite (hwait .deliver) fun hw => ?_
    exact ⟨(ht.resumed (by simp [hw])).reset, rfl, rfl⟩
  | authResult ok => exact rel_ite (hwait .auth) fun hw => (authAnswered_twin ht hw ok).answered
  | scramKeysResult keys =>
    exact rel_ite (hwait .scramKeys) fun hw => (keysProvided_twin ht hw keys).answered
  | tlsUpgraded =>
    obtain ⟨rfl, hne⟩ := hx.resolve_left (by simp [Call.isAnswer])
    exact rel_ite (hwait .tls) fun hw => absurd hw hne

theorem CommandEffect.errorCount_eq {verb rest : Text} {e' : Engine} {acts : List SmtpAction}
    (heff : CommandEffect h o verb rest e e' acts) : e'.errorCount = e.errorCount := by
  cases heff with
  | aside e' acts hsame => rw [hsame.same]
  | _ => rfl

theorem turn_errorCount (e : Engine) : (turn h o e).after.errorCount = e.errorCount := by
  cases turn_effect (h := h) (o := o) e with
  | command line rest hcont hline heff => exact heff.errorCount_eq
  | exchange rest hcont hline hex =>
    generalize (turn h o e).after = e', (turn h o e).actions = acts at hex
    cases hex <;> rfl
  | idle rest hafter hline hquiet => rw [hafter]
  | content hstate hline heff =>
    generalize (turn h o e).after = e' at heff
    generalize (turn h o e).actions = acts at heff
    cases heff with
    | store e₁ hsame => rw [hsame]
    | more e₁ hsame text => rw [hsame]
    | reject e₁ hsame text => rw [hsame]; rfl
    | deliver e₁ hsame d => rw [hsame]

theorem loop_errorCount {ts : List Turn} {e' : Engine} (hloop : Loop h o e ts e') :
    e'.errorCount = e.errorCount := by
  induction hloop with
  | stop hrun => rfl
  | leave hrun hagain => exact turn_errorCount _
  | again hrun hagain hloop ih => exact ih.trans (turn_errorCount _)

theorem prepare_errorCount {c : Call} {p : Prepared} (hp : prepare h c e = some p) :
    p.engine.errorCount = e.errorCount := by
  have heff := prepare_effect hp
  generalize p.engine = e₀ at heff
  cases heff <;> rfl

/-- Twins with nothing more to read that have made equally many errors. -/
def SameSession (h : Host) (f : Nat → Text) (e e' : Engine) : Prop :=
  Twin h f False [] e e' ∧ e'.errorCount = e.errorCount

theorem loop_twin {e e' e₁ : Engine} {ts : List Turn} (ht : Twin h f s [] e e')
    (hloop : Loop h o e ts e₁) :
    ∃ ts' e₁', Loop (drawing h f) o e' ts' e₁' ∧ Twin h f s [] e₁ e₁' ∧
      ts'.flatMap Turn.actions = ts.flatMap Turn.actions := by
  induction hloop generalizing e' with
  | stop hrun => exact ⟨[], e', .stop (ht.running.trans hrun), ht, rfl⟩
  | leave hrun hagain =>
    have hturn := turn_twin (o := o) ht hrun (.inl rfl)
    refine ⟨_, _, .leave (ht.running.trans hrun) (hturn.again.trans hagain), hturn.twin, ?_⟩
    simp only [List.flatMap_cons, List.flatMap_nil, hturn.actions]
  | again hrun hagain hloop ih =>
    have hturn := turn_twin (o := o) ht hrun (.inl rfl)
    obtain ⟨ts', e₁', hloop', ht', hacts⟩ := ih hturn.twin
    refine ⟨_, e₁', .again (ht.running.trans hrun) (hturn.again.trans hagain) hloop', ht', ?_⟩
    rw [List.flatMap_cons, List.flatMap_cons, hturn.actions, hacts]

theorem loop_unique {e e₁ e₂ : Engine} {ts₁ ts₂ : List Turn} (h₁ : Loop h o e ts₁ e₁)
    (h₂ : Loop h o e ts₂ e₂) : ts₁ = ts₂ ∧ e₁ = e₂ := by
  induction h₁ generalizing ts₂ with
  | stop hrun =>
    cases h₂ with
    | stop _ => exact ⟨rfl, rfl⟩
    | leave hrun' _ => simp [hrun] at hrun'
    | again hrun' _ _ => simp [hrun] at hrun'
  | leave hrun hagain =>
    cases h₂ with
    | stop hrun' => simp [hrun] at hrun'
    | leave _ _ => exact ⟨rfl, rfl⟩
    | again _ hagain' _ => simp [hagain] at hagain'
  | again hrun hagain hloop ih =>
    cases h₂ with
    | stop hrun' => simp [hrun] at hrun'
    | leave _ hagain' => simp [hagain] at hagain'
    | again _ _ hloop' =>
      obtain ⟨rfl, rfl⟩ := ih hloop'
      exact ⟨rfl, rfl⟩

theorem guardErrors_same (hs : SameSession h f e e') (acts : List SmtpAction) :
    SameSession h f (guardErrors e acts).1 (guardErrors e' acts).1 ∧
      (guardErrors e' acts).2 = (guardErrors e acts).2 := by
  obtain ⟨ht, hcount⟩ := hs
  unfold guardErrors
  rw [ht.closed, hcount]
  split_ifs
  · exact ⟨⟨ht, hcount⟩, rfl⟩
  · dsimp only
    split_ifs
    · exact ⟨⟨⟨by rw [ht.same], ht.buffer, ht.content, ht.envelope, ht.nonce⟩, rfl⟩, rfl⟩
    · exact ⟨⟨⟨by rw [ht.same], fun _ _ => rfl, ht.content, ht.envelope, ht.nonce⟩, rfl⟩, rfl⟩

theorem pump_actions (hover : e.pendingOverflow = false) :
    (pump h o e).actions = (pump h o e).turns.flatMap Turn.actions := by
  simp [pump, hover]

theorem pump_same (hs : SameSession h f e e') :
    SameSession h f (pump h o e).engine (pump (drawing h f) o e').engine ∧
      (pump (drawing h f) o e').actions = (pump h o e).actions := by
  obtain ⟨ht, hcount⟩ := hs
  cases hover : e.pendingOverflow with
  | true =>
    have hover' := ht.pendingOverflow.trans hover
    simp only [pump, hover, hover', if_true]
    have hnext : SameSession h f { e with pendingOverflow := false, closed := true, buffer := [] }
        { e' with pendingOverflow := false, closed := true, buffer := [] } :=
      ⟨⟨by rw [ht.same], fun _ _ => rfl, ht.content, ht.envelope, ht.nonce⟩, hcount⟩
    exact ⟨hnext, trivial⟩
  | false =>
    have hover' := ht.pendingOverflow.trans hover
    have hloop := pump_loop (h := h) (o := o) hover
    have hpump := pump_loop (h := drawing h f) (o := o) hover'
    obtain ⟨ts', e₁', hloop', ht', hacts⟩ := loop_twin ht hloop
    obtain ⟨hts, he⟩ := loop_unique hpump hloop'
    rw [pump_actions hover', pump_actions hover, hts, he, hacts]
    refine ⟨⟨ht', ?_⟩, rfl⟩
    rw [loop_errorCount hloop', loop_errorCount hloop, hcount]

theorem resume_same (hs : SameSession h f e e') (acts : List SmtpAction) :
    SameSession h f (resume h o e acts).engine (resume (drawing h f) o e' acts).engine ∧
      (resume (drawing h f) o e' acts).actions = (resume h o e acts).actions := by
  obtain ⟨hnext, hacts⟩ := pump_same (o := o) hs
  unfold resume
  dsimp only
  rw [hacts]
  exact guardErrors_same hnext _

theorem call_same {g : Gate} (hs : SameSession h f e e') (hinv : GateInv o e g)
    (htls : g.tls = true) (c : Call) :
    Option.Rel (fun r r' : Result => SameSession h f r.engine r'.engine ∧ r'.actions = r.actions)
      (call h o c e) (call (drawing h f) o c e') := by
  obtain ⟨ht, hcount⟩ := hs
  rw [call_eq, call_eq]
  have hrel := prepare_twin ht (fun hw => .inr (hinv.inTransaction hw)) c
    (.inr ⟨rfl, hinv.upgraded (hinv.tls.trans htls)⟩)
  cases hp : prepare h c e with
  | none =>
    rw [hp] at hrel
    cases hp' : prepare (drawing h f) c e' with
    | none => exact .none
    | some p' =>
      rw [hp'] at hrel
      cases hrel
  | some p =>
    rw [hp] at hrel
    cases hp' : prepare (drawing h f) c e' with
    | none =>
      rw [hp'] at hrel
      cases hrel
    | some p' =>
      rw [hp'] at hrel
      obtain ⟨hagree⟩ := hrel
      have hcount' : p'.engine.errorCount = p.engine.errorCount := by
        rw [prepare_errorCount hp', prepare_errorCount hp, hcount]
      have hsame : SameSession h f p.engine p'.engine := ⟨hagree.twin, hcount'⟩
      have hfinish : SameSession h f (p.finish h o).engine (p'.finish (drawing h f) o).engine ∧
          (p'.finish (drawing h f) o).actions = (p.finish h o).actions := by
        unfold Prepared.finish
        rw [hagree.loops, hagree.actions]
        split_ifs
        · exact resume_same hsame _
        · exact ⟨hsame, rfl⟩
      have hlimit : (drawing h f).argumentLimit = h.argumentLimit := rfl
      simp only [Option.bind_some, Prepared.conclude, hlimit, (pump_same hsame).2]
      split_ifs <;> first
        | exact .none
        | exact .some hfinish

theorem outputs_same {g : Gate} (hs : SameSession h f e e') (hinv : GateInv o e g)
    (htls : g.tls = true) (later : List Call) :
    (outputs (drawing h f) o e' later).map Prod.fst = (outputs h o e later).map Prod.fst := by
  induction later generalizing e e' g with
  | nil => rfl
  | cons c cs ih =>
    have hrel := call_same hs hinv htls c
    simp only [outputs]
    cases hcall : call h o c e with
    | none =>
      rw [hcall] at hrel
      generalize call (drawing h f) o c e' = q at hrel
      cases hrel
      rfl
    | some r =>
      rw [hcall] at hrel
      generalize call (drawing h f) o c e' = q at hrel
      obtain ⟨hnext, hacts⟩ := hrel
      have hrest := ih hnext (gateInv_run.call hcall hinv).1 (tls_foldl _ (tls_onEntry _ htls))
      simp only [Option.map_map, hacts]
      change Option.map ((r.actions :: ·) ∘ Prod.fst) _ = Option.map ((r.actions :: ·) ∘ Prod.fst) _
      rw [← Option.map_map, hrest, Option.map_map]

/-- A session is closed while it waits only for its errors. -/
structure CloseInv (e : Engine) : Prop where
  isOpen : e.closed = false → e.errorCount ≤ maxSmtpErrorsPerSession
  isClosed : e.closed = true → e.awaiting ≠ none → maxSmtpErrorsPerSession < e.errorCount

theorem turn_closed (hrun : running e = true)
    (hclosed : (turn h o e).after.closed = true) : (turn h o e).after.awaiting = none := by
  obtain ⟨hwait, hopen⟩ := running_iff.mp hrun
  have hnot {b : Bool} (hb : b = e.closed) (hb' : b = true) : False := by simp [hb, hopen] at hb'
  cases turn_effect (h := h) (o := o) e with
  | command line rest hcont hline heff =>
    generalize (turn h o e).after = e', (turn h o e).actions = acts at heff hclosed
    cases heff with
    | quit => exact hwait
    | aside e' acts hsame =>
      rw [hsame.same] at hclosed
      exact (hnot rfl hclosed).elim
    | _ => exact (hnot rfl hclosed).elim
  | exchange rest hcont hline hex =>
    generalize (turn h o e).after = e', (turn h o e).actions = acts at hex hclosed
    cases hex <;> exact (hnot rfl hclosed).elim
  | idle rest hafter hline hquiet =>
    rw [hafter] at hclosed
    exact (hnot rfl hclosed).elim
  | content hstate hline heff =>
    generalize (turn h o e).after = e', (turn h o e).actions = acts at heff hclosed
    cases heff with
    | store e₁ hsame =>
      rw [hsame] at hclosed
      exact (hnot rfl hclosed).elim
    | more e₁ hsame text =>
      rw [hsame] at hclosed
      exact (hnot rfl hclosed).elim
    | reject e₁ hsame text =>
      rw [hsame] at hclosed
      exact (hnot rfl hclosed).elim
    | deliver e₁ hsame d =>
      rw [hsame] at hclosed
      exact (hnot rfl hclosed).elim

theorem closeInv_run : Preserved (fun (_ : Unit) _ => ()) (fun e _ => CloseInv e) h o where
  onTurn e _ hrun hinv := by
    refine ⟨fun _ => ?_, fun hclosed hwait => absurd (turn_closed hrun hclosed) hwait⟩
    rw [turn_errorCount]
    exact hinv.isOpen (running_iff.mp hrun).2
  onPrepare e _ c p hp hinv := by
    have heff := prepare_effect hp
    generalize p.engine = e₀ at heff
    cases heff with
    | feed chunk => exact ⟨hinv.isOpen, hinv.isClosed⟩
    | feedLost chunk b => exact ⟨hinv.isOpen, hinv.isClosed⟩
    | _ => exact ⟨hinv.isOpen, fun _ hwait => absurd rfl hwait⟩
  onOverflow e _ hwait hinv := by
    exact ⟨fun hopen => (Bool.noConfusion hopen), fun _ hne => absurd hwait hne⟩
  onGuard e _ acts hinv := by
    unfold guardErrors
    split_ifs with hclosed
    · exact hinv
    · dsimp only
      split_ifs with hle
      · exact ⟨fun _ => hle, fun hc => absurd hc hclosed⟩
      · exact ⟨fun hopen => (Bool.noConfusion hopen), fun _ _ => not_le.mp hle⟩

theorem closed_of_run (hrun : run h o (newEngine false) calls = some (es, e))
    (hwait : e.awaiting = some .tls) :
    e.closed = decide (maxSmtpErrorsPerSession < e.errorCount) := by
  have hnew : CloseInv (newEngine false) := ⟨fun _ => Nat.zero_le _, fun hc => Bool.noConfusion hc⟩
  have hinv : CloseInv e := closeInv_run.at_end hrun (g := ()) hnew
  cases hclosed : e.closed with
  | false =>
    have hle := hinv.isOpen hclosed
    exact (decide_eq_false (by omega)).symm
  | true => exact (decide_eq_true (hinv.isClosed hclosed (by simp [hwait]))).symm

/-- A session on a TLS port that has asked for `rcpts` recipients, made `errors` errors
and drawn `nonces` nonces. -/
def sessionWith (rcpts errors nonces : Nat) : Engine :=
  { newEngine true with
    rcptCount := rcpts, errorCount := errors, nonces := nonces
    closed := decide (maxSmtpErrorsPerSession < errors) }

theorem tlsUpgraded_same {n : Nat}
    (hrun : run h o (newEngine false) calls = some (es, e)) (hwait : e.awaiting = some .tls)
    (hnonce : ∀ k, f (n + k) = h.serverNonce (e.nonces + k)) :
    SameSession h f (tlsUpgraded e) (sessionWith e.rcptCount e.errorCount n) := by
  have hclosed := closed_of_run hrun hwait
  refine ⟨⟨?_, fun _ _ => rfl, rfl, fun hs => ?_, hnonce⟩, rfl⟩
  · unfold sessionWith
    rw [← hclosed]
    rfl
  · exact absurd rfl (hs.resolve_left id)

theorem outputs_upgraded {n : Nat}
    (hrun : run h o (newEngine false) calls = some (es, e)) (hwait : e.awaiting = some .tls)
    (hnonce : ∀ k, f (n + k) = h.serverNonce (e.nonces + k)) (later : List Call) :
    (outputs h o e (.tlsUpgraded :: later)).map Prod.fst =
      (outputs (drawing h f) o (sessionWith e.rcptCount e.errorCount n) later).map
        fun r => [] :: r.1 := by
  have hcall : call h o .tlsUpgraded e = some ⟨tlsUpgraded e, [], []⟩ := by simp [call, hwait]
  have hinv := gateInv_run.at_end hrun (gateInv_new false)
  have hsame := outputs_same (tlsUpgraded_same hrun hwait hnonce) (gateInv_run.call hcall hinv).1 rfl
    later
  change _ = Option.map (([] :: ·) ∘ Prod.fst) _
  rw [← Option.map_map, hsame, Option.map_map]
  simp only [outputs, hcall, Option.map_map]
  rfl

/-- Two runs in the clear that end in an accepted STARTTLS, with equally many recipients
and errors: whatever comes after the upgrade, and with the same nonces drawn, the
outputs are the same, and they are those of a new session with these counters. -/
theorem upgrade_noninterference {calls calls' : List Call} {es es' : List Entry} {e e' : Engine}
    (hrun : run h o (newEngine false) calls = some (es, e)) (hwait : e.awaiting = some .tls)
    (hrun' : run (drawing h f) o (newEngine false) calls' = some (es', e'))
    (hwait' : e'.awaiting = some .tls) (hrcpts : e'.rcptCount = e.rcptCount)
    (herrors : e'.errorCount = e.errorCount)
    (hnonce : ∀ k, f (e'.nonces + k) = h.serverNonce (e.nonces + k)) (later : List Call) :
    (outputs (drawing h f) o e' (.tlsUpgraded :: later)).map Prod.fst =
        (outputs h o e (.tlsUpgraded :: later)).map Prod.fst ∧
      (outputs h o e (.tlsUpgraded :: later)).map Prod.fst =
        (outputs h o (sessionWith e.rcptCount e.errorCount e.nonces) later).map
          fun r => [] :: r.1 := by
  have hfirst := outputs_upgraded (f := h.serverNonce) hrun hwait (fun _ => rfl) later
  refine ⟨?_, hfirst⟩
  have hsecond := outputs_upgraded (f := h.serverNonce) hrun' hwait' (fun k => (hnonce k).symm) later
  rw [hrcpts, herrors] at hsecond
  exact hsecond.trans hfirst.symm

end

def startTlsOptions : Options :=
  { hostname := "h".toList, maxSizeBytes := 100, tlsAvailable := true }

/-- A sender given in the clear, and a STARTTLS with nothing before it. -/
theorem upgrade_noninterference_sender :
    ∃ es es' e e',
      run asciiHost startTlsOptions (newEngine false)
        [.feed (bytesOf "EHLO a\r\nMAIL FROM:<b>\r\nSTARTTLS\r\nRSET\r\n")] = some (es, e) ∧
      run (drawing asciiHost fun _ => []) startTlsOptions (newEngine false)
        [.feed (bytesOf "STARTTLS\r\n")] = some (es', e') ∧
      e.mailFrom ≠ e'.mailFrom ∧
      ∀ later,
        (outputs (drawing asciiHost fun _ => []) startTlsOptions e' (.tlsUpgraded :: later)).map
            Prod.fst =
          (outputs asciiHost startTlsOptions e (.tlsUpgraded :: later)).map Prod.fst := by
  have hfirst : (run asciiHost startTlsOptions (newEngine false)
      [.feed (bytesOf "EHLO a\r\nMAIL FROM:<b>\r\nSTARTTLS\r\nRSET\r\n")]).any (fun r =>
        decide (r.2.awaiting = some .tls ∧ r.2.rcptCount = 0 ∧ r.2.errorCount = 0 ∧
          r.2.mailFrom = some ['b'])) = true := by
    decide +kernel
  have hsecond : (run (drawing asciiHost fun _ => []) startTlsOptions (newEngine false)
      [.feed (bytesOf "STARTTLS\r\n")]).any (fun r =>
        decide (r.2.awaiting = some .tls ∧ r.2.rcptCount = 0 ∧ r.2.errorCount = 0 ∧
          r.2.mailFrom = none)) = true := by
    decide +kernel
  obtain ⟨⟨es, e⟩, hrun, hq⟩ := (Option.any_eq_true _ _).mp hfirst
  obtain ⟨⟨es', e'⟩, hrun', hq'⟩ := (Option.any_eq_true _ _).mp hsecond
  obtain ⟨hwait, hrcpts, herrors, hfrom⟩ := of_decide_eq_true hq
  obtain ⟨hwait', hrcpts', herrors', hfrom'⟩ := of_decide_eq_true hq'
  refine ⟨es, es', e, e', hrun, hrun', ?_, fun later => ?_⟩
  · intro heq
    have hsome := heq.symm.trans hfrom
    rw [hfrom'] at hsome
    cases hsome
  · exact (upgrade_noninterference hrun hwait hrun' hwait' (hrcpts'.trans hrcpts.symm)
      (herrors'.trans herrors.symm) (fun _ => rfl) later).1

end Ionosphere.Smtp
