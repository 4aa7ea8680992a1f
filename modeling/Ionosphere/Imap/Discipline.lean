import Ionosphere.Imap.Moments

/-! What a move asks for. The engine asks the adapter for a verdict on a login, for SCRAM
keys or for something of the backend, and registers what to resume. Lines that come while
SCRAM keys are looked up are handled at once; a LOGIN or AUTHENTICATE among them registers
over the lookup. -/
namespace Ionosphere.Imap

open Ionosphere.Js Ionosphere.Core Ionosphere.Lib

variable {e : Engine} {r : Engine × List ImapAction}

def asked (acts : List ImapAction) : List ImapAction := acts.filter fun a => a.asks.isSome

theorem asked_append (as bs : List ImapAction) : asked (as ++ bs) = asked as ++ asked bs :=
  List.filter_append as bs

@[simp] theorem asked_replies (rs : List Reply) : asked (rs.map .reply) = [] := by
  simp [asked, ImapAction.asks]

@[simp] theorem asked_texts (texts : List Text) : asked (texts.map say) = [] := by
  simp [asked, ImapAction.asks, say]

@[simp] theorem asked_say (text : Text) (acts : List ImapAction) :
    asked (say text :: acts) = asked acts := by
  simp [asked, ImapAction.asks, say]

@[simp] theorem asked_reply (r : Reply) (acts : List ImapAction) :
    asked (.reply r :: acts) = asked acts := by
  simp [asked, ImapAction.asks]

@[simp] theorem asked_nil : asked [] = [] := rfl

theorem RepliesOnly.asked {acts : List ImapAction} (h : RepliesOnly acts) :
    Imap.asked acts = [] := by
  rw [Imap.asked, List.filter_eq_nil_iff]
  intro a ha
  simp [(h a ha).2]

/-- Nothing is asked and nothing registered, or one request is made of the backend and its
continuation registered. -/
inductive Requested (e : Engine) (r : Engine × List ImapAction) : Prop
  | nothing (hpending : r.1.pending = e.pending) (hasked : asked r.2 = [])
  | backend (req : ImapBackendRequest) (k : Resume) (hpending : r.1.pending = some (.backend k))
      (hasked : asked r.2 = [.backend req])

theorem Requested.ask {e e' : Engine} {acts : List ImapAction} {req : ImapBackendRequest}
    {k : Resume} (hidle : asked acts = []) :
    Requested e ({ e' with pending := some (.backend k) }, acts ++ [ImapAction.backend req]) :=
  .backend req k rfl (by rw [asked_append, hidle]; rfl)

theorem session_pending (a : Answer) (e : Engine) : (a.session e).pending = e.pending := by
  unfold Answer.session enableCondstore leaveSelected
  dsimp only
  split_ifs <;> rfl

theorem asked_outs (outs : List Out) : asked (outs.map Out.action) = [] := by
  rw [asked, List.filter_eq_nil_iff]
  intro a ha
  obtain ⟨out, -, rfl⟩ := List.mem_map.mp ha
  cases out <;> simp [Out.action, say, ImapAction.asks]

theorem apply_requested (a : Answer) (e : Engine) : Requested e (a.apply e) := by
  unfold Answer.apply
  cases a.request with
  | none => exact .nothing (session_pending a e) (asked_outs _)
  | some p =>
    exact .ask (asked_outs _)

theorem removalActions_requested (removed : List Nat) (e : Engine) :
    (removalActions removed e).1.pending = e.pending ∧ asked (removalActions removed e).2 = [] := by
  unfold removalActions
  split
  · exact ⟨rfl, rfl⟩
  · exact ⟨rfl, asked_replies _⟩

section

variable (s : Setup)

theorem resume_requested (k : Resume) (res : ImapBackendResponse) (e : Engine) :
    Requested e (resume s k res e) := by
  cases k with
  | select tag readWrite q =>
    simp only [resume, resumeSelect]
    split
    · split
      · exact .ask (by simp)
      · exact .nothing rfl (by simp [asked_append])
    · exact .nothing rfl (by simp)
  | append tag name =>
    simp only [resume, resumeAppend]
    split
    · split
      · exact .nothing rfl (by simp)
      · split_ifs
        · exact .nothing rfl (by simp [asked_append])
        · exact .nothing rfl (by simp)
    · exact .nothing rfl (by simp)
  | replace tag verb dest =>
    simp only [resume, resumeReplace]
    split
    · split
      · exact .nothing rfl (by simp)
      · have hremoval := removalActions_requested
        exact .nothing (hremoval _ _).1 (by simp [asked_append, (hremoval _ _).2])
    · exact .nothing rfl (by simp)
  | copyMove tag verb op =>
    simp only [resume, resumeCopyMove]
    split
    · cases op with
      | copy => exact .nothing rfl (by simp)
      | move =>
        have hremoval := removalActions_requested
        exact .nothing (hremoval _ _).1 (by simp [asked_append, (hremoval _ _).2])
    · exact .nothing rfl (by simp)
  | expunge tag verb =>
    simp only [resume, resumeExpunge]
    split
    · have hremoval := removalActions_requested
      exact .nothing (hremoval _ _).1 (by simp [asked_append, (hremoval _ _).2])
    · exact .nothing rfl (by simp)
  | refresh taggedOk =>
    simp only [resume, resumeRefresh]
    split
    · split_ifs
      · exact .nothing rfl (by simp [asked_append])
      · exact .ask (by simp)
    · exact .nothing rfl (by simp)
  | refreshSync taggedOk n kws =>
    simp only [resume, resumeRefreshSync]
    split
    · exact .nothing rfl (by simp)
    · split
      · exact .nothing rfl (by simp [asked_append])
      · exact .nothing rfl (by simp [asked_append])
  | _ => exact apply_requested _ e

def beginsExchange (nonce : Text) (parts : List LinePart) (e : Engine) : Bool :=
  e.idleTag.isNone &&
    match parseCommand s.host.cases parts with
    | .error _ => false
    | .ok cmd =>
      match verbOf cmd.name with
      | some (.session .login) =>
        e.state = .notAuthenticated && authAllowed s e && loginGiven cmd
      | some (.session .authenticate) =>
        e.state = .notAuthenticated && authAllowed s e && authenticateGiven s nonce cmd
      | _ => false

inductive LineEffect (nonce : Text) (parts : List LinePart) (e : Engine)
    (r : Engine × List ImapAction) : Prop
  | talk (hbegins : beginsExchange s nonce parts e = false) (hpending : r.1.pending = e.pending)
      (hstate : r.1.state = e.state) (hsecure : r.1.secure = e.secure) (hasked : asked r.2 = [])
  | sasl {sasl : SaslPending} {began : Bool} (hpending : e.pending = some (.saslLine sasl))
      (hexchange : Exchanged { e with pending := none } began r)
  | begins (hpending : ∀ sasl, e.pending ≠ some (.saslLine sasl))
      (hbegins : beginsExchange s nonce parts e = true) (hstate : e.state = .notAuthenticated)
      (hallowed : authAllowed s e = true) (hexchange : Exchanged e true r)
  | command (hbegins : beginsExchange s nonce parts e = false)
      (hauth : e.state ≠ .notAuthenticated) (hafter : r.1.state ≠ .notAuthenticated)
      (hsecure : r.1.secure = e.secure) (hrequested : Requested e r)

theorem Exchanged.effect {nonce : Text} {parts : List LinePart} {given : Bool}
    (hpending : ∀ sasl, e.pending ≠ some (.saslLine sasl))
    (hbegins : beginsExchange s nonce parts e =
      (e.state = .notAuthenticated && authAllowed s e && given))
    (h : Exchanged e (e.state = .notAuthenticated && authAllowed s e && given) r) :
    LineEffect s nonce parts e r := by
  rw [← hbegins] at h
  cases hb : beginsExchange s nonce parts e with
  | false =>
    rw [hb] at h
    cases h with
    | same acts hacts => exact .talk hb rfl rfl rfl hacts.asked
  | true =>
    rw [hb] at h
    rw [hb] at hbegins
    have hgiven : (e.state = .notAuthenticated ∧ authAllowed s e = true) ∧ given = true := by
      simpa using hbegins.symm
    exact .begins hpending hb hgiven.1.1 hgiven.1.2 h

theorem handleLine_effect (nonce : Text) (parts : List LinePart) (e : Engine) :
    LineEffect s nonce parts e (handleLine s nonce parts e) := by
  have hhandling := handleLine_handling s nonce parts e
  generalize handleLine s nonce parts e = r at hhandling ⊢
  cases hhandling with
  | idle hidle =>
    refine .talk ?_ rfl rfl rfl ?_
    · simp [beginsExchange, hidle]
    · simp only [endIdle]
      split_ifs <;> rfl
  | sasl hidle hpending => exact .sasl hpending (handleSaslData_exchanged s nonce _ _ _)
  | refused hidle hpending hnone =>
    refine .talk ?_ rfl rfl rfl rfl
    unfold beginsExchange
    cases hparse : parseCommand s.host.cases parts with
    | error msg => simp
    | ok cmd => simp [hnone cmd hparse]
  | @command cmd verb hidle hpending hparse hverb =>
    cases verb with
    | answer v =>
      have hbegins : beginsExchange s nonce parts e = false := by
        simp [beginsExchange, hparse, hverb]
      by_cases hstate : e.state = .notAuthenticated
      · obtain ⟨texts, htexts⟩ := ordinary_unauth s hstate v cmd
        simp only [dispatch, htexts, lines_apply]
        exact .talk hbegins rfl rfl rfl (asked_texts texts)
      · have hkeep := apply_frame (ordinary s v cmd e) e
        exact .command hbegins hstate (hkeep.authed hstate) hkeep.secure (apply_requested _ e)
    | session v =>
      obtain ⟨⟨hlogin, hauth⟩, htalk⟩ | rfl | rfl | ⟨rfl, hacc, hup, hreplies⟩ :=
        sessionCommand_cases s nonce v cmd e
      · refine .talk ?_ htalk.pending htalk.state htalk.secure htalk.replies.asked
        cases v <;> simp_all [beginsExchange]
      · refine (cmdLogin_exchanged s cmd e).effect s hpending ?_
        simp [beginsExchange, hidle, hparse, hverb]
      · refine (cmdAuthenticate_exchanged s nonce cmd e).effect s hpending ?_
        simp [beginsExchange, hidle, hparse, hverb]
      · have hafter : dispatch s nonce (.session .starttls) cmd e =
            (upgrading e, (sessionCommand s nonce cmd .starttls e).2) := Prod.ext hup rfl
        rw [hafter]
        refine .talk ?_ rfl rfl rfl hreplies.asked
        simp [beginsExchange, hparse, hverb]

def Pending.isExchange : Pending → Bool
  | .backend _ => false
  | _ => true

/-- An exchange belongs to a session nobody is logged in to, on a line that allows it; a
backend request to one somebody is. -/
structure Sound (e : Engine) : Prop where
  exchange : ∀ p, e.pending = some p → p.isExchange = true →
    e.state = .notAuthenticated ∧ authAllowed s e = true
  backend : ∀ k, e.pending = some (.backend k) → e.state ≠ .notAuthenticated
  scram : ∀ sasl, e.pending = some (.scramKeys sasl) →
    ∃ session stage username, sasl.mechanism = .scram session stage username

variable {s} in
theorem Sound.congr {e e' : Engine} (h : Sound s e) (hpending : e'.pending = e.pending)
    (hstate : e'.state = e.state) (hsecure : e'.secure = e.secure) : Sound s e' := by
  refine ⟨fun p hp hx => ?_, fun k hk => ?_, fun sasl hs => h.scram sasl (hpending ▸ hs)⟩
  · have hkeep := h.exchange p (hpending ▸ hp) hx
    rw [hstate]
    refine ⟨hkeep.1, ?_⟩
    unfold authAllowed at hkeep ⊢
    rw [hsecure]
    exact hkeep.2
  · rw [hstate]
    exact h.backend k (hpending ▸ hk)

variable {s} in
theorem Sound.idle (h : e.pending = none) : Sound s e := by
  refine ⟨fun p hp => ?_, fun k hk => ?_, fun sasl hs => ?_⟩
  · rw [h] at hp
    cases hp
  · rw [h] at hk
    cases hk
  · rw [h] at hs
    cases hs

variable {s} in
theorem Exchanged.sound {began : Bool}
    (h : Exchanged e began r) (hsound : Sound s e)
    (hallowed : began = true → e.state = .notAuthenticated ∧ authAllowed s e = true) :
    Sound s r.1 := by
  cases h with
  | same => exact hsound
  | client sasl =>
    refine ⟨fun p _ _ => hallowed rfl, fun k hk => ?_, fun sasl hs => ?_⟩
    · cases hk
    · cases hs
  | lookup tag user session stage username =>
    refine ⟨fun p _ _ => hallowed rfl, fun k hk => ?_, fun sasl hs => ?_⟩
    · cases hk
    · cases hs
      exact ⟨session, stage, username, rfl⟩
  | verdict =>
    refine ⟨fun p _ _ => hallowed rfl, fun k hk => ?_, fun sasl hs => ?_⟩
    · cases hk
    · cases hs

variable {s} in
theorem Requested.sound (h : Requested e r)
    (hsound : Sound s e) (hauth : e.state ≠ .notAuthenticated)
    (hafter : r.1.state ≠ .notAuthenticated) : Sound s r.1 := by
  cases h with
  | nothing hpending =>
    refine ⟨fun p hp hx => ?_, fun k _ => hafter, fun sasl hs => ?_⟩
    · exact absurd (hsound.exchange p (hpending ▸ hp) hx).1 hauth
    · exact hsound.scram sasl (hpending ▸ hs)
  | backend req k hpending =>
    refine ⟨fun p hp hx => ?_, fun k _ => hafter, fun sasl hs => ?_⟩
    · rw [hpending] at hp
      cases hp
      cases hx
    · rw [hpending] at hs
      cases hs

theorem handleLine_sound (h : Sound s e) (nonce : Text) (parts : List LinePart) :
    Sound s (handleLine s nonce parts e).1 := by
  cases handleLine_effect s nonce parts e with
  | talk hbegins hpending hstate hsecure => exact h.congr hpending hstate hsecure
  | sasl hpending hexchange =>
    refine hexchange.sound (.idle rfl) fun _ => ?_
    exact h.exchange _ hpending rfl
  | begins hpending hbegins hstate hallowed hexchange =>
    exact hexchange.sound h fun _ => ⟨hstate, hallowed⟩
  | command hbegins hauth hafter hsecure hrequested => exact hrequested.sound h hauth hafter

theorem act_sound {m : Move} (hallowed : m.Allowed e) (h : Sound s e) :
    Sound s (m.act s e).1 := by
  cases m with
  | greeting => exact h
  | read chunk => exact h.congr rfl rfl rfl
  | tell text => exact h
  | line nonce parts => exact handleLine_sound s h nonce parts
  | enqueue parts =>
    simp only [Move.act, enqueue]
    split_ifs <;> exact h.congr rfl rfl rfl
  | dequeue nonce parts =>
    have hunqueued : Sound s (unqueue parts e) := h.congr rfl rfl rfl
    exact handleLine_sound s hunqueued nonce parts
  | settle =>
    simp only [Move.act, settleQueue]
    split_ifs
    · exact h.congr rfl rfl rfl
    · exact h
  | backendResult res =>
    obtain ⟨k, hk⟩ := hallowed
    have hauth := h.backend k hk
    simp only [Move.act, hk]
    have hframe := resume_frame s k res { e with pending := none }
    exact (resume_requested s k res _).sound (.idle rfl) hauth (hframe.authed hauth)
  | scramKeysResult keys =>
    obtain ⟨tag, session, stage, username, hp⟩ := hallowed
    have hexchange := h.exchange _ hp rfl
    simp only [Move.act, scramKeysResult, hp]
    split
    · refine ⟨fun p _ _ => hexchange, fun k hk => ?_, fun sasl hs => ?_⟩
      · cases hk
      · cases hs
    · exact .idle rfl
  | authResult ok =>
    obtain ⟨tag, hp⟩ := hallowed
    simp only [Move.act, hp, authAnswered]
    split_ifs <;> exact .idle rfl
  | tlsEstablished =>
    refine ⟨fun p hp hx => ?_, h.backend, h.scram⟩
    exact ⟨(h.exchange p hp hx).1, rfl⟩
  | idleTick =>
    simp only [Move.act, idleTick]
    split_ifs with hskip
    · exact h
    · have hauth : e.state ≠ .notAuthenticated := by
        intro hstate
        simp [hstate] at hskip
      have hframe := apply_frame (refreshSelected none e) e
      exact (apply_requested _ e).sound h hauth (hframe.authed hauth)

def Move.answers : Move → Option Ask
  | .backendResult _ => some .backend
  | .scramKeysResult _ => some .scramKeys
  | .authResult _ => some .auth
  | _ => none

end

end Ionosphere.Imap
