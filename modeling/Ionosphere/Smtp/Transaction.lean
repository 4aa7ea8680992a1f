import Ionosphere.Smtp.Run

/-!
Mail transactions as the client sees them. `Tx` is built from the command lines,
the replies and the backend's answers alone: the MAIL that opened the transaction,
every RCPT with its outcome, and the content sent in either transfer mode. The
engine's own fields agree with it in every run (`TxInv`), so every delivery is a
function of the transaction.
-/

namespace Ionosphere.Smtp

open Ionosphere.Js Ionosphere.Core Ionosphere.Lib

/-- A transaction: `rcpts` holds each answered RCPT and whether it was accepted,
`cut` that part of a content line was dropped. -/
structure Tx where
  mail : Option ParsedMailFrom := none
  rcpts : List (ParsedRcptTo × Bool) := []
  pending : Option ParsedRcptTo := none
  chunks : Bytes := []
  lines : List Bytes := []
  cut : Bool := false

variable {tx : Tx} {e : Engine} {acts : List SmtpAction}

namespace Tx

def accepted (tx : Tx) : List ParsedRcptTo := (tx.rcpts.filter (·.2)).map (·.1)

def recipients (tx : Tx) : List Text := tx.accepted.map (·.address)

/-- Every RCPT sent, in order, also those refused or not yet answered. -/
def attempts (tx : Tx) : List ParsedRcptTo := tx.rcpts.map (·.1) ++ tx.pending.toList

def content (tx : Tx) : Bytes := tx.lines.flatMap fun l => unstuff l ++ crlfBytes

def onCommand (h : Host) (line : Bytes) (acts : List SmtpAction) (tx : Tx) : Tx :=
  let v := splitVerb h.cases (utf8Decode line)
  if repliesWith '2' acts = true ∧
      (v.1 = "EHLO".toList ∨ v.1 = "HELO".toList ∨ v.1 = "RSET".toList) then {}
  else if repliesWith '2' acts = true ∧ v.1 = "MAIL".toList then
    { mail := (parseMailFromArgs h.cases v.2).toOption }
  else
    match acts with
    | [.rcpt _] => { tx with pending := (parseRcptToArgs h.cases v.2).toOption }
    | _ => tx

def onPass (h : Host) (t : Turn) (tx : Tx) : Tx :=
  match t.consumed with
  | .command line => tx.onCommand h line t.actions
  | .dataLine l => { tx with lines := tx.lines ++ [l] }
  | .dataEnd => if repliesWith '5' t.actions then {} else tx
  | .chunk bytes => if repliesWith '5' t.actions then {} else { tx with chunks := tx.chunks ++ bytes }
  | .dropped _ _ => if t.actions.isEmpty then { tx with cut := true } else tx
  | .authLine _ => tx
  | .nothing => tx

def onEntry (h : Host) (tx : Tx) : Entry → Tx
  | .pass t => tx.onPass h t
  | .called (.rcptResult outcome) =>
    { tx with
      rcpts := tx.rcpts ++ tx.pending.toList.map fun v => (v, outcome.toBool)
      pending := none }
  | .called (.deliveryResult _) => {}
  | .called .tlsUpgraded => {}
  | _ => tx

def after (h : Host) (es : List Entry) : Tx := es.foldl (onEntry h) {}

end Tx

def recorded (vs : List ParsedRcptTo) : List (Text × RcptDsn) :=
  vs.foldl (fun m v => recordDsn v m) []

theorem recorded_snoc (vs : List ParsedRcptTo) (v : ParsedRcptTo) :
    recorded (vs ++ [v]) = recordDsn v (recorded vs) := by
  simp only [recorded, List.foldl_append, List.foldl_cons, List.foldl_nil]

/-- The engine holds the open transaction `tx`. -/
structure TxOpen (e : Engine) (tx : Tx) : Prop where
  mail : ∃ p, tx.mail = some p ∧ e.mailFrom = some p.address ∧ e.mailDsn = ⟨p.ret, p.envid⟩
  rcptTo : e.rcptTo = tx.recipients
  rcptDsn : e.rcptDsn = recorded tx.attempts
  lines : e.state ≠ .data → tx.lines = []
  content : e.awaiting ≠ some .deliver → e.dataOverflow = false →
    e.dataChunks.flatten = tx.chunks ++ tx.content ∧ tx.cut = false

/-- The engine agrees with the transaction: none is open before MAIL, and then
nothing is left of an earlier one. -/
structure TxInv (e : Engine) (tx : Tx) : Prop where
  idle : e.state = .init ∨ e.state = .greeted → tx = {}
  cleared : e.state = .greeted → e.rcptDsn = [] ∧ e.dataChunks = []
  opened : e.state ≠ .init → e.state ≠ .greeted → TxOpen e tx
  awaited : e.awaiting = some .rcpt → (e.state = .mail ∨ e.state = .rcpt) ∧
    ∃ v, tx.pending = some v ∧ e.pendingRcptAddress = some v.address
  unasked : e.awaiting ≠ some .rcpt → tx.pending = none

section

variable {h : Host} {o : Options}

theorem txInv_new (implicitTls : Bool) : TxInv (newEngine implicitTls) {} := by
  have hstate : (newEngine implicitTls).state = .init := by cases implicitTls <;> rfl
  have hwait : (newEngine implicitTls).awaiting = none := by cases implicitTls <;> rfl
  refine ⟨fun _ => rfl, fun hs => ?_, fun hs => absurd hstate hs, fun hw => ?_, fun _ => rfl⟩
  · rw [hstate] at hs
    cases hs
  · rw [hwait] at hw
    cases hw

theorem txInv_reset (hwait : e.awaiting ≠ some .rcpt) :
    TxInv (resetTransaction e) {} := by
  refine ⟨fun _ => rfl, fun _ => ⟨rfl, rfl⟩, fun hi hg => ?_, fun hw => absurd hw hwait,
    fun _ => rfl⟩
  simp only [resetTransaction] at hi hg
  split_ifs at hi hg <;> contradiction

theorem TxInv.authOnly {e e' : Engine} (hinv : TxInv e tx) (hsame : AuthOnly e e')
    (hwait : e.awaiting = none) : TxInv e' tx := by
  obtain ⟨hidle, hcleared, hopened, -, hunasked⟩ := hinv
  have hnot : e'.awaiting ≠ some .rcpt := by
    rcases hsame.awaiting with hw | hw | hw
    · rw [hw, hwait]
      simp
    · simp [hw]
    · simp [hw]
  have hpending := hunasked (by simp [hwait])
  rw [hsame.same] at hnot ⊢
  refine ⟨hidle, hcleared, fun hi hg => ?_, fun hw => absurd hw hnot, fun _ => hpending⟩
  obtain ⟨hmail, hrcpt, hdsn, hlines, hcontent⟩ := hopened hi hg
  exact ⟨hmail, hrcpt, hdsn, hlines, fun _ => hcontent (by simp [hwait])⟩

theorem onCommand_greet {line : Bytes}
    (hacts : repliesWith '2' acts = true)
    (hverb : (splitVerb h.cases (utf8Decode line)).1 = "EHLO".toList ∨
      (splitVerb h.cases (utf8Decode line)).1 = "HELO".toList ∨
      (splitVerb h.cases (utf8Decode line)).1 = "RSET".toList) : tx.onCommand h line acts = {} := by
  simp only [Tx.onCommand]
  rw [if_pos ⟨hacts, hverb⟩]

theorem onCommand_other {line : Bytes}
    (hacts : repliesWith '2' acts = true →
      (splitVerb h.cases (utf8Decode line)).1 ≠ "EHLO".toList ∧
      (splitVerb h.cases (utf8Decode line)).1 ≠ "HELO".toList ∧
      (splitVerb h.cases (utf8Decode line)).1 ≠ "MAIL".toList ∧
      (splitVerb h.cases (utf8Decode line)).1 ≠ "RSET".toList)
    (haside : acts.all SmtpAction.isAside = true) : tx.onCommand h line acts = tx := by
  simp only [Tx.onCommand]
  rw [if_neg, if_neg]
  · split
    · simp [SmtpAction.isAside] at haside
    · rfl
  · rintro ⟨h2, hv⟩
    exact (hacts h2).2.2.1 hv
  · rintro ⟨h2, hv⟩
    obtain ⟨h1, h2', -, h4⟩ := hacts h2
    rcases hv with hv | hv | hv
    · exact h1 hv
    · exact h2' hv
    · exact h4 hv

theorem txInv_command {line : Bytes} {e e' : Engine}
    (hinv : TxInv e tx) (hwait : e.awaiting = none)
    (heff : CommandEffect h o (splitVerb h.cases (utf8Decode line)).1
      (splitVerb h.cases (utf8Decode line)).2 e e' acts) :
    TxInv e' (tx.onCommand h line acts) := by
  have hpending := hinv.unasked (by simp [hwait])
  have hnot : e.awaiting ≠ some .rcpt := by simp [hwait]
  cases heff with
  | greet acts hv hacts =>
    rw [onCommand_greet hacts (hv.imp_right .inl)]
    exact ⟨fun _ => rfl, fun _ => ⟨rfl, rfl⟩, fun _ hg => absurd rfl hg,
      fun hw => absurd hw hnot, fun _ => rfl⟩
  | mail parsed hv hstate hparse =>
    have htx : tx.onCommand h line [reply 250 "2.1.0" "OK"] = { mail := some parsed } := by
      simp only [Tx.onCommand]
      rw [if_neg, if_pos ⟨rfl, hv⟩, hparse]
      · rfl
      · rw [hv]
        exact fun hc => absurd hc.2 (by decide)
    rw [htx]
    obtain ⟨hdsn, hchunks⟩ := hinv.cleared hstate
    refine ⟨fun hs => by simp at hs, fun hs => by simp at hs, fun _ _ => ?_,
      fun hw => absurd hw hnot, fun _ => rfl⟩
    exact ⟨⟨parsed, rfl, rfl, rfl⟩, rfl, hdsn, fun _ => rfl,
      fun _ _ => ⟨by rw [hchunks]; rfl, rfl⟩⟩
  | rcpt v hv hstate hparse =>
    have htx : tx.onCommand h line [.rcpt v.address] = { tx with pending := some v } := by
      simp only [Tx.onCommand]
      rw [if_neg (by simp [repliesWith]), if_neg (by simp [repliesWith]), hparse]
      rfl
    rw [htx]
    have hs₁ : e.state ≠ .init := by rcases hstate with hs | hs <;> simp [hs]
    have hs₂ : e.state ≠ .greeted := by rcases hstate with hs | hs <;> simp [hs]
    obtain ⟨hmail, hrcpt, hdsn, hlines, hcontent⟩ := hinv.opened hs₁ hs₂
    refine ⟨fun hs => absurd hs (by simp [hs₁, hs₂]), fun hs => absurd hs hs₂, fun _ _ => ?_,
      fun _ => ⟨hstate, v, rfl, rfl⟩, fun hw => absurd rfl hw⟩
    refine ⟨hmail, hrcpt, ?_, hlines, fun _ => hcontent (by simp [hwait])⟩
    simp only [Tx.attempts, hpending, Option.toList_none, List.append_nil] at hdsn
    simp only [Tx.attempts, Option.toList_some]
    rw [recorded_snoc, hdsn]
  | data hv hstate =>
    rw [onCommand_other (fun h2 => by simp [rawReply, repliesWith] at h2) rfl]
    obtain ⟨hmail, hrcpt, hdsn, hlines, hcontent⟩ := hinv.opened (by simp [hstate]) (by simp [hstate])
    exact ⟨fun hs => by simp at hs, fun hs => by simp at hs,
      fun _ _ => ⟨hmail, hrcpt, hdsn, fun hs => absurd rfl hs, hcontent⟩,
      fun hw => absurd hw hnot, fun _ => hpending⟩
  | bdat digits last n hv hstate hparse hn =>
    have hs : e.state ≠ .init ∧ e.state ≠ .greeted ∧ e.state ≠ .data := by
      rcases hstate with hs | hs <;> simp [hs]
    rw [onCommand_other (fun h2 => by simp [repliesWith] at h2) rfl]
    obtain ⟨hmail, hrcpt, hdsn, hlines, hcontent⟩ := hinv.opened hs.1 hs.2.1
    refine ⟨fun hs => by simp at hs, fun hs => by simp at hs,
      fun _ _ => ⟨hmail, hrcpt, hdsn, fun _ => hlines hs.2.2, fun hw hover => ?_⟩,
      fun hw => absurd hw hnot, fun _ => hpending⟩
    simp only [Bool.or_eq_false_iff] at hover
    exact hcontent hw hover.1
  | reset hv =>
    rw [onCommand_greet rfl (.inr (.inr hv))]
    exact txInv_reset hnot
  | quit =>
    rw [onCommand_other (fun h2 => by simp [repliesWith] at h2) rfl]
    obtain ⟨hidle, hcleared, hopened, hawaited, hunasked⟩ := hinv
    refine ⟨hidle, hcleared, fun hi hg => ?_, hawaited, hunasked⟩
    obtain ⟨hmail, hrcpt, hdsn, hlines, hcontent⟩ := hopened hi hg
    exact ⟨hmail, hrcpt, hdsn, hlines, hcontent⟩
  | startTls =>
    rw [onCommand_other (fun h2 => by simp [repliesWith] at h2) rfl]
    obtain ⟨hidle, hcleared, hopened, -, -⟩ := hinv
    refine ⟨hidle, hcleared, fun hi hg => ?_, fun hw => by simp at hw, fun _ => hpending⟩
    obtain ⟨hmail, hrcpt, hdsn, hlines, hcontent⟩ := hopened hi hg
    exact ⟨hmail, hrcpt, hdsn, hlines, fun _ => hcontent (by simp [hwait])⟩
  | aside e' acts hsame haside hacts hdata =>
    rw [onCommand_other hacts haside]
    exact hinv.authOnly hsame hwait

theorem content_snoc (tx : Tx) (l : Bytes) :
    { tx with lines := tx.lines ++ [l] : Tx }.content = tx.content ++ (unstuff l ++ crlfBytes) := by
  simp [Tx.content]

/-- The delivery the client is owed for `tx`. -/
structure Delivers (d : Delivery) (tx : Tx) : Prop where
  mail : ∃ p, tx.mail = some p ∧ d.mailFrom = p.address ∧
    d.dsn = dsnParams ⟨p.ret, p.envid⟩ (Assoc.restrict (recorded tx.attempts) tx.recipients)
  rcptTo : d.rcptTo = tx.recipients
  raw : d.raw = tx.chunks ++ tx.content
  whole : tx.cut = false
  answered : tx.pending = none

theorem finishData_tx (hopen : TxOpen e tx) (hwait : e.awaiting = none)
    (hpending : tx.pending = none) (hstate : e.state = .data ∨ e.state = .bdat) :
    (repliesWith '5' (finishData e).2 = true ∧ TxInv (finishData e).1 {} ∧
      ∀ d, .deliver d ∉ (finishData e).2) ∨
    (repliesWith '5' (finishData e).2 = false ∧ TxInv (finishData e).1 tx ∧
      ∀ d, SmtpAction.deliver d ∈ (finishData e).2 → Delivers d tx) := by
  unfold finishData
  cases hover : e.dataOverflow with
  | true =>
    refine .inl ⟨rfl, txInv_reset (by simp [hwait]), fun d hd => ?_⟩
    simp [reply] at hd
  | false =>
    obtain ⟨⟨p, hp, hfrom, hdsn⟩, hrcpt, hrec, hlines, hcontent⟩ := hopen
    obtain ⟨hraw, hcut⟩ := hcontent (by simp [hwait]) hover
    have hs : e.state ≠ .init ∧ e.state ≠ .greeted := by rcases hstate with hs | hs <;> simp [hs]
    refine .inr ⟨rfl, ?_, fun d hd => ?_⟩
    · refine ⟨fun h' => ?_, fun h' => absurd h' hs.2, fun _ _ => ?_, fun h' => by simp at h',
        fun _ => hpending⟩
      · exact absurd h' (by simp [hs.1, hs.2])
      · exact ⟨⟨p, hp, hfrom, hdsn⟩, hrcpt, hrec, hlines, fun hw => by simp at hw⟩
    · obtain rfl : d = _ := by simpa using hd
      refine ⟨⟨p, hp, by simp [hfrom], ?_⟩, hrcpt, hraw, hcut, hpending⟩
      rw [hdsn, hrec, hrcpt]

/-- A pass keeps the engine and the transaction in agreement and delivers only
what the transaction holds. -/
def PassOk (h : Host) (t : Turn) (tx : Tx) : Prop :=
  TxInv t.after (tx.onPass h t) ∧ ∀ d, SmtpAction.deliver d ∈ t.actions → Delivers d (tx.onPass h t)

theorem turnData_tx (hinv : TxInv e tx) (hstate : e.state = .data)
    (hwait : e.awaiting = none) : PassOk h (turnData o e) tx := by
  have hopen := hinv.opened (by simp [hstate]) (by simp [hstate])
  have hpending := hinv.unasked (by simp [hwait])
  have hnot : e.awaiting ≠ some .rcpt := by simp [hwait]
  have hs : e.state ≠ .init ∧ e.state ≠ .greeted := by simp [hstate]
  have hidle {tx' : Tx} : e.state = .init ∨ e.state = .greeted → tx' = {} := by simp [hstate]
  unfold turnData PassOk
  cases hi : indexOfCRLF e.buffer with
  | none =>
    obtain ⟨hmail, hrcpt, hrec, hlines, hcontent⟩ := hopen
    cases hfull : dataBufferFull o e with
    | true =>
      simp only [guardDataBuffer, hfull, Tx.onPass, List.isEmpty_nil, if_true]
      refine ⟨⟨hidle, fun h' => absurd h' hs.2, fun _ _ => ?_, fun h' => absurd h' hnot,
        fun _ => hpending⟩, by simp⟩
      exact ⟨hmail, hrcpt, hrec, hlines, fun _ hover => by simp at hover⟩
    | false =>
      simp only [guardDataBuffer, hfull, Tx.onPass]
      exact ⟨hinv, by simp⟩
  | some i =>
    dsimp only
    have hopen' : TxOpen { e with buffer := e.buffer.drop (i + 2) } tx :=
      ⟨hopen.mail, hopen.rcptTo, hopen.rcptDsn, hopen.lines, hopen.content⟩
    split_ifs with hdot
    · simp only [Tx.onPass]
      rcases finishData_tx hopen' hwait hpending (.inl hstate) with
        ⟨h5, hnext, hno⟩ | ⟨h5, hnext, hdel⟩
      · rw [h5, if_pos rfl]
        exact ⟨hnext, fun d hd => absurd hd (hno d)⟩
      · rw [h5, if_neg (by simp)]
        exact ⟨hnext, hdel⟩
    · obtain ⟨hmail, hrcpt, hrec, hlines, hcontent⟩ := hopen
      simp only [Tx.onPass, storeDataLine]
      refine ⟨?_, by simp⟩
      have hlast {x : Bytes} : e.state ≠ .data → tx.lines ++ [x] = [] := fun h' => absurd hstate h'
      split_ifs with hover hbig
      · refine ⟨hidle, fun h' => absurd h' hs.2, fun _ _ => ?_, fun h' => absurd h' hnot,
          fun _ => hpending⟩
        exact ⟨hmail, hrcpt, hrec, hlast, fun _ h' => by simp [hover] at h'⟩
      · refine ⟨hidle, fun h' => absurd h' hs.2, fun _ _ => ?_, fun h' => absurd h' hnot,
          fun _ => hpending⟩
        exact ⟨hmail, hrcpt, hrec, hlast, fun _ h' => by simp at h'⟩
      · refine ⟨hidle, fun h' => absurd h' hs.2, fun _ _ => ?_, fun h' => absurd h' hnot,
          fun _ => hpending⟩
        refine ⟨hmail, hrcpt, hrec, hlast, fun hw h' => ?_⟩
        obtain ⟨hflat, hcut⟩ := hcontent hw h'
        refine ⟨?_, hcut⟩
        rw [content_snoc, List.flatten_append, hflat]
        simp

theorem finishChunk_tx (hopen : TxOpen e tx) (hwait : e.awaiting = none)
    (hpending : tx.pending = none) (hstate : e.state = .bdat) :
    (repliesWith '5' (finishChunk e).2 = true ∧ TxInv (finishChunk e).1 {} ∧
      ∀ d, .deliver d ∉ (finishChunk e).2) ∨
    (repliesWith '5' (finishChunk e).2 = false ∧ TxInv (finishChunk e).1 tx ∧
      ∀ d, SmtpAction.deliver d ∈ (finishChunk e).2 → Delivers d tx) := by
  have hnot : e.awaiting ≠ some .rcpt := by simp [hwait]
  unfold finishChunk
  split_ifs with hover hlast
  · refine .inl ⟨rfl, ?_, fun d hd => by simp [reply] at hd⟩
    exact ⟨fun _ => rfl, fun _ => ⟨rfl, rfl⟩, fun _ hg => absurd rfl hg,
      fun hw => absurd hw hnot, fun _ => rfl⟩
  · refine .inr ⟨rfl, ?_, fun d hd => by simp at hd⟩
    obtain ⟨hmail, hrcpt, hrec, hlines, hcontent⟩ := hopen
    exact ⟨fun hs => by simp at hs, fun hs => by simp at hs,
      fun _ _ => ⟨hmail, hrcpt, hrec, fun _ => hlines (by simp [hstate]), hcontent⟩,
      fun hw => absurd hw hnot, fun _ => hpending⟩
  · exact finishData_tx hopen hwait hpending (.inr hstate)

theorem takeChunk_tx (hopen : TxOpen e tx) (hstate : e.state = .bdat) :
    TxOpen (takeChunk e) { tx with chunks := tx.chunks ++ chunkBytes e } := by
  obtain ⟨hmail, hrcpt, hrec, hlines, hcontent⟩ := hopen
  refine ⟨hmail, hrcpt, hrec, hlines, fun hw hover => ?_⟩
  obtain ⟨hflat, hcut⟩ := hcontent hw hover
  have hnil : tx.lines = [] := hlines (by simp [hstate])
  refine ⟨?_, hcut⟩
  simp only [Tx.content, hnil, List.flatMap_nil, List.append_nil] at hflat ⊢
  have hover' : e.dataOverflow = false := hover
  simp [takeChunk, hover', hflat]

theorem turnBdat_tx (hinv : TxInv e tx) (hstate : e.state = .bdat)
    (hwait : e.awaiting = none) : PassOk h (turnBdat e) tx := by
  have hopen := hinv.opened (by simp [hstate]) (by simp [hstate])
  have hpending := hinv.unasked (by simp [hwait])
  have hnot : e.awaiting ≠ some .rcpt := by simp [hwait]
  unfold turnBdat PassOk
  split_ifs with hpos hempty hmore
  · exact ⟨hinv, by simp⟩
  · simp only [Tx.onPass, repliesWith, Bool.false_eq_true, if_false]
    refine ⟨⟨fun hs => ?_, fun hs => ?_, fun _ _ => takeChunk_tx hopen hstate,
      fun hw => absurd hw hnot, fun _ => hpending⟩, by simp⟩
    · simp [takeChunk, hstate] at hs
    · simp [takeChunk, hstate] at hs
  · simp only [Tx.onPass]
    rcases finishChunk_tx (takeChunk_tx hopen hstate) hwait hpending hstate with
      ⟨h5, hnext, hno⟩ | ⟨h5, hnext, hdel⟩
    · rw [h5, if_pos rfl]
      exact ⟨hnext, fun d hd => absurd hd (hno d)⟩
    · rw [h5, if_neg (by simp)]
      exact ⟨hnext, hdel⟩
  · simp only [Tx.onPass, List.append_nil]
    rcases finishChunk_tx hopen hwait hpending hstate with ⟨h5, hnext, hno⟩ | ⟨h5, hnext, hdel⟩
    · rw [h5, if_pos rfl]
      exact ⟨hnext, fun d hd => absurd hd (hno d)⟩
    · rw [h5, if_neg (by simp)]
      exact ⟨hnext, hdel⟩

theorem aside_no_deliver (haside : acts.all SmtpAction.isAside = true)
    (d : Delivery) : .deliver d ∉ acts := by
  intro hd
  have := List.all_eq_true.mp haside _ hd
  simp [SmtpAction.isAside] at this

theorem CommandEffect.no_deliver {verb rest : Text} {e e' : Engine}
    (heff : CommandEffect h o verb rest e e' acts) (d : Delivery) : .deliver d ∉ acts := by
  intro hd
  cases heff with
  | greet acts hv hacts =>
    unfold repliesWith at hacts
    split at hacts
    · simp at hd
    · cases hacts
  | aside e' acts hsame haside => exact aside_no_deliver haside d hd
  | _ => simp [reply, rawReply] at hd

theorem TxInv.setBuffer (hinv : TxInv e tx) (b : Bytes) :
    TxInv { e with buffer := b } tx :=
  ⟨hinv.idle, hinv.cleared, fun hi hg =>
    ⟨(hinv.opened hi hg).mail, (hinv.opened hi hg).rcptTo, (hinv.opened hi hg).rcptDsn,
      (hinv.opened hi hg).lines, (hinv.opened hi hg).content⟩, hinv.awaited, hinv.unasked⟩

theorem turn_tx (hinv : TxInv e tx) (hwait : e.awaiting = none) :
    PassOk h (turn h o e) tx := by
  by_cases hc : e.authContinuation = none
  · by_cases hd : e.state = .data
    · rw [turn_data hc hd]
      exact turnData_tx hinv hd hwait
    by_cases hb : e.state = .bdat
    · rw [turn_bdat hc hb]
      exact turnBdat_tx hinv hb hwait
    · rw [turn_command hc hd hb]
      unfold turnCommand PassOk
      cases indexOfCRLF e.buffer with
      | none =>
        dsimp only
        split_ifs
        · exact ⟨hinv.setBuffer [], by simp [reply]⟩
        · exact ⟨hinv, by simp⟩
      | some i =>
        have heff := handleCommandLine_effect (h := h) (o := o) (e.buffer.take i)
          { e with buffer := e.buffer.drop (i + 2) }
        exact ⟨txInv_command (hinv.setBuffer (e.buffer.drop (i + 2))) hwait heff,
          fun d hd => absurd hd (heff.no_deliver d)⟩
  · obtain ⟨cont, hcont⟩ := Option.ne_none_iff_exists'.mp hc
    rw [turn_auth hcont]
    unfold turnAuth PassOk
    cases indexOfCRLF e.buffer with
    | none =>
      dsimp only
      split_ifs
      · exact ⟨(hinv.setBuffer []).authOnly (clearAuth_authOnly _ none) hwait, by simp [reply]⟩
      · exact ⟨hinv, by simp⟩
    | some i =>
      have haside := handleAuthContinuationLine_aside (h := h) cont (e.buffer.take i)
        { e with buffer := e.buffer.drop (i + 2) }
      exact ⟨(hinv.setBuffer (e.buffer.drop (i + 2))).authOnly haside.1 hwait,
        fun d hd => absurd hd (aside_no_deliver haside.2 d)⟩

theorem txInv_call {e e₀ : Engine} {c : Call} (heff : CallEffect e c e₀)
    (hinv : TxInv e tx) : TxInv e₀ (tx.onEntry h (callEntry c e)) := by
  have hfeed (chunk : Bytes) : tx.onEntry h (callEntry (.feed chunk) e) = tx := by
    simp only [callEntry]
    split_ifs <;> rfl
  obtain ⟨hidle, hcleared, hopened, hawaited, hunasked⟩ := hinv
  cases heff with
  | feed chunk =>
    rw [hfeed]
    refine ⟨hidle, hcleared, fun hi hg => ?_, hawaited, hunasked⟩
    obtain ⟨hmail, hrcpt, hrec, hlines, hcontent⟩ := hopened hi hg
    exact ⟨hmail, hrcpt, hrec, hlines, hcontent⟩
  | feedLost chunk b =>
    rw [hfeed]
    refine ⟨hidle, hcleared, fun hi hg => ?_, hawaited, hunasked⟩
    obtain ⟨hmail, hrcpt, hrec, hlines, hcontent⟩ := hopened hi hg
    exact ⟨hmail, hrcpt, hrec, hlines, hcontent⟩
  | rcptOk hwait =>
    obtain ⟨hstate, v, hv, haddr⟩ := hawaited hwait
    have hs : e.state ≠ .init ∧ e.state ≠ .greeted ∧ e.state ≠ .data := by
      rcases hstate with hs | hs <;> simp [hs]
    obtain ⟨hmail, hrcpt, hrec, hlines, hcontent⟩ := hopened hs.1 hs.2.1
    simp only [callEntry, Tx.onEntry, hv, Option.toList_some, List.map_cons, List.map_nil]
    refine ⟨fun h' => by simp at h', fun h' => by simp at h', fun _ _ => ?_,
      fun h' => by simp at h', fun _ => rfl⟩
    refine ⟨hmail, ?_, ?_, fun _ => hlines hs.2.2, fun _ => hcontent (by simp [hwait])⟩
    · simp [hrcpt, haddr, Tx.recipients, Tx.accepted, Except.toBool]
    · simpa [Tx.attempts, hv] using hrec
  | rcptError r hwait =>
    obtain ⟨hstate, v, hv, haddr⟩ := hawaited hwait
    have hs : e.state ≠ .init ∧ e.state ≠ .greeted := by rcases hstate with hs | hs <;> simp [hs]
    obtain ⟨hmail, hrcpt, hrec, hlines, hcontent⟩ := hopened hs.1 hs.2
    simp only [callEntry, Tx.onEntry, hv, Option.toList_some, List.map_cons, List.map_nil]
    refine ⟨fun h' => absurd h' (by simp [hs.1, hs.2]), fun h' => absurd h' hs.2, fun _ _ => ?_,
      fun h' => by simp at h', fun _ => rfl⟩
    refine ⟨hmail, ?_, ?_, hlines, fun _ => hcontent (by simp [hwait])⟩
    · simp [hrcpt, Tx.recipients, Tx.accepted, Except.toBool]
    · simpa [Tx.attempts, hv] using hrec
  | delivery outcome hwait => exact txInv_reset (by simp)
  | auth ok user hwait =>
    have hpending := hunasked (by simp [hwait])
    refine ⟨hidle, hcleared, fun hi hg => ?_, fun h' => by simp at h', fun _ => hpending⟩
    obtain ⟨hmail, hrcpt, hrec, hlines, hcontent⟩ := hopened hi hg
    exact ⟨hmail, hrcpt, hrec, hlines, fun _ => hcontent (by simp [hwait])⟩
  | scram keys c hwait =>
    have hpending := hunasked (by simp [hwait])
    refine ⟨hidle, hcleared, fun hi hg => ?_, fun h' => by simp at h', fun _ => hpending⟩
    obtain ⟨hmail, hrcpt, hrec, hlines, hcontent⟩ := hopened hi hg
    exact ⟨hmail, hrcpt, hrec, hlines, fun _ => hcontent (by simp [hwait])⟩
  | tls hwait =>
    exact ⟨fun _ => rfl, fun h' => by simp [tlsUpgraded] at h', fun hi => absurd rfl hi,
      fun h' => by simp [tlsUpgraded] at h', fun _ => rfl⟩

theorem txInv_close (hinv : TxInv e tx) (p c : Bool) (n : Nat) (b : Bytes) :
    TxInv { e with pendingOverflow := p, closed := c, errorCount := n, buffer := b } tx := by
  obtain ⟨hidle, hcleared, hopened, hawaited, hunasked⟩ := hinv
  refine ⟨hidle, hcleared, fun hi hg => ?_, hawaited, hunasked⟩
  obtain ⟨hmail, hrcpt, hrec, hlines, hcontent⟩ := hopened hi hg
  exact ⟨hmail, hrcpt, hrec, hlines, hcontent⟩

theorem txInv_run : RunInvariant (Tx.onEntry h) TxInv h o where
  onTurn e tx hrun hinv := (turn_tx hinv (running_iff.mp hrun).1).1
  onCall e tx c e₀ heff hinv := txInv_call heff hinv
  onOverflow e tx hinv := txInv_close hinv false true e.errorCount []
  onGuard e tx acts hinv := by
    rcases guardErrors_cases e acts with heq | ⟨n, heq⟩ | ⟨n, heq⟩
    · rw [heq]
      exact hinv
    · rw [heq]
      exact txInv_close hinv e.pendingOverflow e.closed n e.buffer
    · rw [heq]
      exact txInv_close hinv e.pendingOverflow true n []

theorem deliver_tx {implicitTls : Bool} {calls : List Call} {pre post : List Entry}
    {e' : Engine} {t : Turn} {d : Delivery}
    (hrun : run h o (newEngine implicitTls) calls = some (pre ++ Entry.pass t :: post, e'))
    (hd : SmtpAction.deliver d ∈ t.actions) :
    Delivers d (Tx.after h (pre ++ [Entry.pass t])) := by
  have hinv := txInv_run.preserved.before_pass hrun (txInv_new implicitTls) pre t post rfl
  obtain ⟨⟨hrunning, -, hturn⟩, -⟩ := run_at_pass hrun rfl
  have hok := turn_tx (h := h) (o := o) hinv (running_iff.mp hrunning).1
  rw [← hturn] at hok
  rw [Tx.after, List.foldl_append]
  exact hok.2 d hd

theorem content_eq_nil_iff (tx : Tx) : tx.content = [] ↔ tx.lines = [] := by
  simp only [Tx.content, List.flatMap_eq_nil_iff, List.append_eq_nil_iff]
  constructor
  · intro hall
    cases hl : tx.lines with
    | nil => rfl
    | cons l ls =>
      rw [hl] at hall
      exact absurd (hall l (by simp)).2 (by decide)
  · intro hnil
    simp [hnil]

/-- In every run, a delivered message is the chunks or the lines of its transaction
exactly when the transaction did not send content in both modes; no part of a
delivered line was dropped. -/
theorem deliver_raw {implicitTls : Bool} {calls : List Call} {pre post : List Entry}
    {e' : Engine} {t : Turn} {d : Delivery}
    (hrun : run h o (newEngine implicitTls) calls = some (pre ++ Entry.pass t :: post, e'))
    (hd : SmtpAction.deliver d ∈ t.actions) :
    let tx := Tx.after h (pre ++ [Entry.pass t])
    ((d.raw = tx.chunks ∨ d.raw = tx.content) ↔ (tx.chunks = [] ∨ tx.lines = [])) ∧
      tx.cut = false := by
  have hdel := deliver_tx hrun hd
  refine ⟨?_, hdel.whole⟩
  rw [hdel.raw, List.append_right_eq_self, List.append_left_eq_self, content_eq_nil_iff, or_comm]

theorem restrict_congr {m m' : List (Text × RcptDsn)} {ks : List Text} :
    Assoc.restrict m ks = Assoc.restrict m' ks ↔ ∀ k ∈ ks, Assoc.get m k = Assoc.get m' k := by
  constructor
  · intro heq k hk
    have := congrArg (Assoc.get · k) heq
    simpa [Assoc.get_restrict, hk] using this
  · intro hall
    unfold Assoc.restrict
    refine List.foldl_ext _ _ _ fun acc k hk => ?_
    rw [hall k hk]

theorem dsnParams_inj {m : MailDsn} {p p' : List (Text × RcptDsn)} :
    dsnParams m p = dsnParams m p' ↔ p = p' := by
  refine ⟨fun heq => ?_, fun heq => by rw [heq]⟩
  have hget (q : List (Text × RcptDsn)) :
      ((dsnParams m q).bind fun s => s.perRcpt).getD [] = q := by
    unfold dsnParams
    cases q with
    | nil => split_ifs <;> simp
    | cons x q => simp
  rw [← hget p, heq, hget p']

/-- In every run, a delivery names the sender of the transaction's MAIL and its
accepted recipients in order; its DSN parameters are those of MAIL and of the
accepted RCPT commands exactly when, for each accepted recipient, what any RCPT
recorded last is what an accepted one recorded last. -/
theorem deliver_envelope {implicitTls : Bool} {calls : List Call} {pre post : List Entry}
    {e' : Engine} {t : Turn} {d : Delivery}
    (hrun : run h o (newEngine implicitTls) calls = some (pre ++ Entry.pass t :: post, e'))
    (hd : SmtpAction.deliver d ∈ t.actions) :
    let tx := Tx.after h (pre ++ [Entry.pass t])
    (∃ p, tx.mail = some p ∧ d.mailFrom = p.address ∧ d.rcptTo = tx.recipients ∧
      d.dsn = dsnParams ⟨p.ret, p.envid⟩
        (Assoc.restrict (recorded tx.accepted) tx.recipients)) ↔
      ∀ r ∈ tx.recipients,
        Assoc.get (recorded (tx.rcpts.map (·.1))) r = Assoc.get (recorded tx.accepted) r := by
  have hdel := deliver_tx hrun hd
  intro tx
  obtain ⟨p, hp, hfrom, hdsn⟩ := hdel.mail
  have hattempts : tx.attempts = tx.rcpts.map (·.1) := by
    simp only [Tx.attempts]
    rw [hdel.answered]
    simp
  rw [← restrict_congr]
  constructor
  · rintro ⟨p', hp', -, -, hdsn'⟩
    obtain rfl : p = p' := Option.some.inj (hp.symm.trans hp')
    rw [hdsn] at hdsn'
    rw [← hattempts]
    exact dsnParams_inj.mp hdsn'
  · intro heq
    refine ⟨p, hp, hfrom, hdel.rcptTo, ?_⟩
    rw [hdsn, ← heq, ← hattempts]

end

def txOptions : Options := { hostname := "h".toList, maxSizeBytes := 100, tlsAvailable := false }

def delivered (t : Turn) : Option Delivery :=
  t.actions.findSome? fun
    | .deliver d => some d
    | _ => none

theorem deliver_mem_of_delivered {t : Turn} {d : Delivery} (hd : delivered t = some d) :
    SmtpAction.deliver d ∈ t.actions := by
  obtain ⟨a, ha, hsome⟩ := List.exists_of_findSome?_eq_some hd
  cases a <;> simp at hsome
  rwa [hsome] at ha

theorem exists_deliver (calls : List Call) {q : Delivery → Tx → Bool}
    (hcheck : checkRun asciiHost txOptions calls (fun t => (delivered t).isSome)
      (fun pre t _ => (delivered t).any fun d => q d (Tx.after asciiHost (pre ++ [Entry.pass t]))) = true) :
    ∃ (pre post : List Entry) (t : Turn) (e' : Engine) (d : Delivery),
      run asciiHost txOptions (newEngine false) calls = some (pre ++ Entry.pass t :: post, e') ∧
      SmtpAction.deliver d ∈ t.actions ∧
      q d (Tx.after asciiHost (pre ++ [Entry.pass t])) = true := by
  obtain ⟨pre, post, t, e', hrun, -, hq⟩ := exists_of_checkRun hcheck
  obtain ⟨d, hd, hqd⟩ := (Option.any_eq_true _ _).mp hq
  exact ⟨pre, post, t, e', d, hrun, deliver_mem_of_delivered hd, hqd⟩

def mixedModes : List Call :=
  openTransaction ++ [Call.feed (bytesOf "BDAT 3\r\nabcDATA\r\nhi\r\n.\r\n")]

/-- The message delivered is the chunk followed by the lines. -/
theorem deliver_raw_fails :
    ∃ (pre post : List Entry) (t : Turn) (e' : Engine) (d : Delivery),
      run asciiHost txOptions (newEngine false) mixedModes = some (pre ++ Entry.pass t :: post, e') ∧
      SmtpAction.deliver d ∈ t.actions ∧
      ¬(d.raw = (Tx.after asciiHost (pre ++ [Entry.pass t])).chunks ∨
        d.raw = (Tx.after asciiHost (pre ++ [Entry.pass t])).content) := by
  obtain ⟨pre, post, t, e', d, hrun, hd, hq⟩ := exists_deliver mixedModes
    (q := fun d tx => decide ¬(d.raw = tx.chunks ∨ d.raw = tx.content)) (by decide +kernel)
  exact ⟨pre, post, t, e', d, hrun, hd, of_decide_eq_true hq⟩

/-- A recipient with `NOTIFY=NEVER`, refused at first and accepted without it. -/
def retriedRecipient : List Call :=
  [.feed (bytesOf "EHLO a\r\nMAIL FROM:<b>\r\nRCPT TO:<c> NOTIFY=NEVER\r\n"),
    .rcptResult (.error ⟨450, "4.2.1".toList, "Try again".toList⟩),
    .feed (bytesOf "RCPT TO:<c>\r\n"), .rcptResult (.ok ()),
    .feed (bytesOf "DATA\r\nhi\r\n.\r\n")]

/-- The delivery asks for `NOTIFY=NEVER`, which only the refused RCPT did. -/
theorem deliver_envelope_fails :
    ∃ (pre post : List Entry) (t : Turn) (e' : Engine) (d : Delivery),
      run asciiHost txOptions (newEngine false) retriedRecipient = some (pre ++ Entry.pass t :: post, e') ∧
      SmtpAction.deliver d ∈ t.actions ∧
      ¬∃ p, (Tx.after asciiHost (pre ++ [Entry.pass t])).mail = some p ∧ d.mailFrom = p.address ∧
        d.rcptTo = (Tx.after asciiHost (pre ++ [Entry.pass t])).recipients ∧
        d.dsn = dsnParams ⟨p.ret, p.envid⟩
          (Assoc.restrict (recorded (Tx.after asciiHost (pre ++ [Entry.pass t])).accepted)
            (Tx.after asciiHost (pre ++ [Entry.pass t])).recipients) := by
  obtain ⟨pre, post, t, e', d, hrun, hd, hq⟩ := exists_deliver retriedRecipient
    (q := fun d tx => !tx.mail.any fun p => decide (d.dsn = dsnParams ⟨p.ret, p.envid⟩
      (Assoc.restrict (recorded tx.accepted) tx.recipients))) (by decide +kernel)
  refine ⟨pre, post, t, e', d, hrun, hd, ?_⟩
  rintro ⟨p, hp, -, -, hdsn⟩
  simp [hp, hdsn] at hq

def chunkedMessage : List Call :=
  [.feed (bytesOf "EHLO a\r\nMAIL FROM:<b> RET=HDRS\r\nRCPT TO:<c> NOTIFY=NEVER\r\n"),
    .rcptResult (.ok ()), .feed (bytesOf "BDAT 3\r\nabcBDAT 2 LAST\r\nde")]

theorem deliver_raw_chunkedMessage :
    ∃ (pre post : List Entry) (t : Turn) (e' : Engine) (d : Delivery),
      run asciiHost txOptions (newEngine false) chunkedMessage = some (pre ++ Entry.pass t :: post, e') ∧
      SmtpAction.deliver d ∈ t.actions ∧
      (d.raw = (Tx.after asciiHost (pre ++ [Entry.pass t])).chunks ∨
        d.raw = (Tx.after asciiHost (pre ++ [Entry.pass t])).content) := by
  obtain ⟨pre, post, t, e', d, hrun, hd, hq⟩ := exists_deliver chunkedMessage
    (q := fun _ tx => decide (tx.lines = [])) (by decide +kernel)
  exact ⟨pre, post, t, e', d, hrun, hd,
    (deliver_raw hrun hd).1.mpr (.inr (of_decide_eq_true hq))⟩

theorem deliver_envelope_chunkedMessage :
    ∃ (pre post : List Entry) (t : Turn) (e' : Engine) (d : Delivery) (p : ParsedMailFrom),
      run asciiHost txOptions (newEngine false) chunkedMessage = some (pre ++ Entry.pass t :: post, e') ∧
      SmtpAction.deliver d ∈ t.actions ∧
      (Tx.after asciiHost (pre ++ [Entry.pass t])).mail = some p ∧ d.mailFrom = p.address ∧
      d.rcptTo = (Tx.after asciiHost (pre ++ [Entry.pass t])).recipients ∧
      d.dsn = dsnParams ⟨p.ret, p.envid⟩
        (Assoc.restrict (recorded (Tx.after asciiHost (pre ++ [Entry.pass t])).accepted)
          (Tx.after asciiHost (pre ++ [Entry.pass t])).recipients) := by
  obtain ⟨pre, post, t, e', d, hrun, hd, hq⟩ := exists_deliver chunkedMessage
    (q := fun _ tx => tx.recipients.all fun r => decide
      (Assoc.get (recorded (tx.rcpts.map (·.1))) r = Assoc.get (recorded tx.accepted) r))
    (by decide +kernel)
  obtain ⟨p, hp⟩ := (deliver_envelope hrun hd).mpr
    fun r hr => of_decide_eq_true (List.all_eq_true.mp hq r hr)
  exact ⟨pre, post, t, e', d, p, hrun, hd, hp⟩

end Ionosphere.Smtp
