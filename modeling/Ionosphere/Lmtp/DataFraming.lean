import Ionosphere.Lmtp.Moments

/-! The content of a message. In data mode every line up to a lone dot is content, however
the stream is cut into chunks; but the limit on command lines also applies to an unfinished
line of content, which is then thrown away. Of a line that starts with a single dot the
engine keeps the dot. -/
namespace Ionosphere.Lmtp

open Ionosphere.Js Ionosphere.Core Ionosphere.Lib

variable {stream : Bytes} {m : Moment} {rest : List Moment}

variable {ms : List Moment}

def stuff (line : Bytes) : Bytes := if line.head? = some DOT then DOT :: line else line

def rfcUnstuff : Bytes → Bytes
  | [] => []
  | b :: line => if b = DOT then line else b :: line

def singleDot (line : Bytes) : Bool :=
  line.head? = some DOT && line.tail.head? ≠ some DOT

theorem unstuff_stuff (line : Bytes) : unstuff (stuff line) = line := by
  cases line with
  | nil => rfl
  | cons b line =>
    by_cases hb : b = DOT
    · simp [stuff, unstuff, hb]
    · simp [stuff, unstuff, hb, Ne.symm hb]

theorem stuff_ne_dot (line : Bytes) : stuff line ≠ [DOT] := by
  cases line with
  | nil => simp [stuff]
  | cons b line =>
    by_cases hb : b = DOT
    · simp [stuff, hb]
    · simp [stuff, hb]

theorem cut_stuff {line : Bytes} (h : Lines.cut CR LF line = none) :
    Lines.cut CR LF (stuff line) = none := by
  unfold stuff
  split_ifs
  · simp [Lines.cut, h, show DOT ≠ CR by decide]
  · exact h

theorem length_unstuff (line : Bytes) :
    (unstuff line).length = (rfcUnstuff line).length + if singleDot line then 1 else 0 := by
  match line with
  | [] => rfl
  | [b] =>
    by_cases hb : b = DOT
    · simp [unstuff, rfcUnstuff, singleDot, hb]
    · simp [unstuff, rfcUnstuff, singleDot, hb, Ne.symm hb]
  | b :: c :: line =>
    by_cases hb : b = DOT
    · by_cases hc : c = DOT
      · simp [unstuff, rfcUnstuff, singleDot, hb, hc]
      · simp [unstuff, rfcUnstuff, singleDot, hb, hc, Ne.symm hc]
    · simp [unstuff, rfcUnstuff, singleDot, hb, Ne.symm hb]

theorem unstuff_of_not_singleDot {line : Bytes} (h : singleDot line = false) :
    unstuff line = rfcUnstuff line := by
  match line with
  | [] => rfl
  | [b] =>
    by_cases hb : b = DOT
    · simp [singleDot, hb] at h
    · simp [unstuff, rfcUnstuff, hb, Ne.symm hb]
  | b :: c :: line =>
    by_cases hb : b = DOT
    · have hc : c = DOT := by simpa [singleDot, hb] using h
      simp [unstuff, rfcUnstuff, hb, hc]
    · simp [unstuff, rfcUnstuff, hb, Ne.symm hb]

theorem rawOf_unstuff_iff (lines : List Bytes) :
    rawOf (lines.map unstuff) = rawOf (lines.map rfcUnstuff) ↔
      ∀ l ∈ lines, singleDot l = false := by
  constructor
  · intro h
    have hlen := congrArg List.length h
    clear h
    have hcount : (rawOf (lines.map unstuff)).length =
        (rawOf (lines.map rfcUnstuff)).length + lines.countP singleDot := by
      clear hlen
      induction lines with
      | nil => rfl
      | cons l ls ih =>
        simp only [rawOf, List.map_cons, List.flatMap_cons, List.length_append, List.countP_cons] at ih ⊢
        rw [ih, length_unstuff]
        omega
    have hzero : lines.countP singleDot = 0 := by omega
    intro l hl
    simpa using List.countP_eq_zero.mp hzero l hl
  · intro h
    refine congrArg rawOf (List.map_congr_left fun l hl => ?_)
    exact unstuff_of_not_singleDot (h l hl)

/-- The bytes read at the moments `ms`. -/
def fed (ms : List Moment) : Bytes :=
  ms.flatMap fun m =>
    match m.move with
    | .read chunk => chunk
    | _ => []

theorem fed_cons (m : Moment) (ms : List Moment) : fed (m :: ms) = fed [m] ++ fed ms := by
  simp [fed]

def Moment.behind (m : Moment) : Bytes :=
  match m.move with
  | .line _ rest => rest
  | _ => []

def Moment.ends (m : Moment) : Bool :=
  match m.move with
  | .line text _ => m.state.inData && decide (text = [DOT])
  | _ => false

def Moment.cuts (m : Moment) : Bool :=
  match m.move with
  | .unfinished => m.state.inData && decide (maxCommandLine < m.state.buffer.length)
  | .errors count =>
    m.state.inData && !m.state.closed &&
      decide (maxSmtpErrorsPerSession < m.state.errorCount + count)
  | _ => false

section

variable (s : Setup)

def Moment.acceptsData (m : Moment) : Bool :=
  match m.move with
  | .line _ _ =>
    !m.state.inData &&
      decide (m.actions s = [.reply "354 end data with <CR><LF>.<CR><LF>".toList])
  | _ => false

/-- Content is read without an answer; the greeting answers nothing. -/
def Moment.silent (m : Moment) : Prop :=
  match m.move with
  | .greeting => True
  | _ => m.actions s = []

/-- The moment belongs to the content. -/
structure Moment.Inside (m : Moment) : Prop where
  inData : m.state.inData = true
  silent : m.silent s
  ends : m.ends = false

/-- The engine reads `stream` as the content it is: without an answer up to the first lone
dot, and what it delivers there is the content before the dot. -/
def DataFramed (stream : Bytes) (rest : List Moment) (e' : Engine) : Prop :=
  match Lines.content CR LF [DOT] stream with
  | none => (∀ n ∈ rest, n.Inside s) ∧ e'.inData = true
  | some (lines, after) =>
    ∃ before d later, rest = before ++ d :: later ∧ (∀ n ∈ before, n.Inside s) ∧ d.ends = true ∧
      d.behind ++ fed later = after ∧
      ∀ env, .deliver env ∈ d.actions s → env.raw = rawOf (lines.map rfcUnstuff)

/-- No unfinished line of this content is thrown away, and the session is not closed over its
error limit in the middle of it. -/
def NoCut (rest : List Moment) : Prop :=
  ∀ (before : List Moment) (n : Moment) later, rest = before ++ n :: later →
    (∀ x ∈ before, x.ends = false) → n.cuts = false

/-- If the message ends and fits, none of its lines starts with a single dot. -/
def Undotted (stream : Bytes) : Prop :=
  ∀ lines after, Lines.content CR LF [DOT] stream = some (lines, after) →
    dataSize (lines.map unstuff) ≤ s.options.maxSizeBytes → ∀ l ∈ lines, singleDot l = false

/-- In data mode, with the lines `ls` of the content stored. -/
structure Storing (ls : List Bytes) (e : Engine) : Prop where
  inData : e.inData = true
  awaiting : e.awaiting = none
  closed : e.closed = true → e.buffer = []
  dataLines : e.dataLines = ls.map unstuff
  dataOverflow : e.dataOverflow = decide (s.options.maxSizeBytes < dataSize (ls.map unstuff))

variable {s} {ls : List Bytes} {e e' : Engine}

theorem dataSize_append (ls : List Bytes) (l : Bytes) :
    dataSize (ls ++ [l]) = dataSize ls + (l.length + 2) := by
  simp [dataSize]

theorem Storing.store (h : Storing s ls e) {text : Bytes} (hopen : e.closed = false)
    (htext : text ≠ [DOT]) :
    Storing s (ls ++ [text]) (handleDataLine s text e).1 ∧ (handleDataLine s text e).2 = [] := by
  unfold handleDataLine
  rw [if_neg htext]
  refine ⟨⟨h.inData, h.awaiting, fun hclosed => ?_, ?_, ?_⟩, rfl⟩
  · rw [hopen] at hclosed
    cases hclosed
  · simp [h.dataLines]
  · have hgrows : dataSize (ls.map unstuff) ≤ dataSize (ls.map unstuff ++ [unstuff text]) := by
      rw [dataSize_append]
      omega
    simp only [h.dataOverflow, h.dataLines, List.map_append, List.map_cons, List.map_nil]
    rw [← Bool.decide_or, decide_eq_decide]
    omega

variable (s) in
def Stored (ls : List Bytes) (stream : Bytes) (rest : List Moment) (e' : Engine) : Prop :=
  match Lines.content CR LF [DOT] stream with
  | none => (∀ n ∈ rest, n.Inside s) ∧ e'.inData = true
  | some (lines, after) =>
    ∃ before d later, rest = before ++ d :: later ∧ (∀ n ∈ before, n.Inside s) ∧ d.ends = true ∧
      d.behind ++ fed later = after ∧ Storing s (ls ++ lines) d.state

theorem Stored.cons (hm : m.Inside s)
    (h : Stored s ls stream ms e') : Stored s ls stream (m :: ms) e' := by
  unfold Stored at h ⊢
  split
  · rename_i hnone
    rw [hnone] at h
    refine ⟨?_, h.2⟩
    simpa using ⟨hm, h.1⟩
  · rename_i lines after hsome
    rw [hsome] at h
    obtain ⟨before, d, later, hms, hbefore, hd⟩ := h
    refine ⟨m :: before, d, later, by rw [hms, List.cons_append], ?_, hd⟩
    simpa using ⟨hm, hbefore⟩

theorem NoCut.tail (h : NoCut (m :: ms)) (hm : m.ends = false) :
    NoCut ms := by
  intro before n later hms hbefore
  refine h (m :: before) n later (by rw [hms, List.cons_append]) ?_
  simpa using ⟨hm, hbefore⟩

theorem Stored.line {stream rest text : Bytes} (hm : m.Inside s)
    (hcontent : Lines.content CR LF [DOT] stream =
      (Lines.content CR LF [DOT] rest).map fun p => (text :: p.1, p.2))
    (h : Stored s (ls ++ [text]) rest ms e') : Stored s ls stream (m :: ms) e' := by
  refine Stored.cons hm ?_
  unfold Stored at h ⊢
  rw [hcontent]
  cases hrest : Lines.content CR LF [DOT] rest with
  | none =>
    rw [hrest] at h
    exact h
  | some p =>
    rw [hrest] at h
    obtain ⟨before, d, later, hms, hbefore, hends, hafter, hd⟩ := h
    refine ⟨before, d, later, hms, hbefore, hends, hafter, ?_⟩
    rwa [List.append_assoc] at hd

theorem stored_line {text rest : Bytes}
    (hok : (Move.line text rest).Allowed e) (hin : Storing s ls e)
    (ih : ∀ {ls : List Bytes}, Settled e' → Storing s ls ((Move.line text rest).act s e).1 →
      NoCut ms → Stored s ls (((Move.line text rest).act s e).1.buffer ++ fed ms) ms e')
    (hend : Settled e') (hcut : NoCut (⟨e, .line text rest⟩ :: ms)) :
    Stored s ls (e.buffer ++ fed (⟨e, .line text rest⟩ :: ms)) (⟨e, .line text rest⟩ :: ms) e' := by
  have hahead : fed (⟨e, .line text rest⟩ :: ms) = fed ms := by rw [fed_cons]; rfl
  have hline := Lines.cut_append hok.2.2 (fed ms)
  rw [hahead]
  by_cases htext : text = [DOT]
  · unfold Stored
    rw [Lines.content_of_cut hline, if_pos htext]
    refine ⟨[], ⟨e, .line text rest⟩, ms, rfl, by simp, ?_, rfl, ?_⟩
    · simp [Moment.ends, hin.inData, htext]
    · rwa [List.append_nil]
  · have htaken : Storing s ls { e with buffer := rest } := by
      refine ⟨hin.inData, hin.awaiting, fun hclosed => ?_, hin.dataLines, hin.dataOverflow⟩
      rw [hok.2.1] at hclosed
      cases hclosed
    have hact : (Move.line text rest).act s e = handleDataLine s text { e with buffer := rest } :=
      if_pos hin.inData
    have hbuffer := handleInput_buffer s text { e with buffer := rest }
    have hinput : ((Move.line text rest).act s e).1.buffer = rest := hbuffer
    obtain ⟨hstoring, hsilent⟩ := htaken.store hok.2.1 htext
    rw [← hact] at hstoring hsilent
    have hends : Moment.ends ⟨e, .line text rest⟩ = false := by simp [Moment.ends, htext]
    have hrest := ih hend hstoring (hcut.tail hends)
    rw [hinput] at hrest
    refine Stored.line ⟨hin.inData, hsilent, hends⟩ ?_ hrest
    rw [Lines.content_of_cut hline, if_neg htext]

theorem stored_of_history (h : History s e ms e') (hend : Settled e')
    (hin : Storing s ls e) (hcut : NoCut ms) : Stored s ls (e.buffer ++ fed ms) ms e' := by
  induction h generalizing ls with
  | nil e =>
    have hnone : Lines.cut CR LF e.buffer = none := by
      cases hclosed : e.closed with
      | true => rw [hin.closed hclosed]; rfl
      | false => exact hend hin.awaiting hclosed
    have hcontent : Lines.content CR LF [DOT] (e.buffer ++ fed []) = none := by
      rw [fed, List.flatMap_nil, List.append_nil]
      exact Lines.content_of_cut_none hnone
    unfold Stored
    rw [hcontent]
    exact ⟨by simp, hin.inData⟩
  | @cons e e' m ms hok hrest ih =>
    -- a move that only changes what `Storing` does not speak of
    have hkeep : ∀ e₂ : Engine, (m.act s e).1 = e₂ → e₂.buffer = e.buffer → Storing s ls e₂ →
        fed [⟨e, m⟩] = [] → Moment.Inside s ⟨e, m⟩ →
        Stored s ls (e.buffer ++ fed (⟨e, m⟩ :: ms)) (⟨e, m⟩ :: ms) e' := by
      intro e₂ hact hbuffer hstoring hfed hinside
      rw [hact] at ih
      have hrest := ih hend hstoring (hcut.tail hinside.ends)
      rw [hbuffer] at hrest
      rw [fed_cons, hfed, List.nil_append]
      exact hrest.cons hinside
    cases m with
    | greeting => exact hkeep e rfl rfl hin rfl ⟨hin.inData, trivial, rfl⟩
    | read chunk =>
      have hstoring : Storing s ls { e with buffer := e.buffer ++ chunk } := by
        refine ⟨hin.inData, hin.awaiting, fun hclosed => ?_, hin.dataLines, hin.dataOverflow⟩
        rw [hok.1] at hclosed
        cases hclosed
      have hrest := ih hend hstoring (hcut.tail rfl)
      have hstream : e.buffer ++ fed (⟨e, .read chunk⟩ :: ms) = e.buffer ++ chunk ++ fed ms := by
        rw [fed_cons]
        simp [fed]
      rw [hstream]
      exact hrest.cons ⟨hin.inData, rfl, rfl⟩
    | line text rest => exact stored_line hok hin ih hend hcut
    | unfinished =>
      have hshort : ¬ maxCommandLine < e.buffer.length := by
        have hno := hcut [] ⟨e, .unfinished⟩ ms rfl (by simp)
        simpa [Moment.cuts, hin.inData] using hno
      have hsame : guardLine e = (e, []) := if_neg hshort
      refine hkeep e ?_ rfl hin rfl ⟨hin.inData, ?_, rfl⟩
      · simp only [Move.act, hsame]
      · simp only [Moment.silent, Moment.actions, Move.act, hsame]
    | pending =>
      have hsame : guardPending e = (e, []) := by simp [guardPending, hin.awaiting]
      refine hkeep e ?_ rfl hin rfl ⟨hin.inData, ?_, rfl⟩
      · simp only [Move.act, hsame]
      · simp only [Moment.silent, Moment.actions, Move.act, hsame]
    | errors count =>
      by_cases hclosed : e.closed = true
      · have hsame : guardErrors count e = (e, []) := by simp [guardErrors, hclosed]
        refine hkeep e ?_ rfl hin rfl ⟨hin.inData, ?_, rfl⟩
        · simp only [Move.act, hsame]
        · simp only [Moment.silent, Moment.actions, Move.act, hsame]
      · have hfew : e.errorCount + count ≤ maxSmtpErrorsPerSession := by
          have hno := hcut [] ⟨e, .errors count⟩ ms rfl (by simp)
          simpa [Moment.cuts, hin.inData, hclosed] using hno
        have hsame : guardErrors count e =
            ({ e with errorCount := e.errorCount + count }, []) := by
          simp [guardErrors, hclosed, hfew]
        refine hkeep { e with errorCount := e.errorCount + count } ?_ rfl ?_ rfl
          ⟨hin.inData, ?_, rfl⟩
        · simp only [Move.act, hsame]
        · exact ⟨hin.inData, hin.awaiting, hin.closed, hin.dataLines, hin.dataOverflow⟩
        · simp only [Moment.silent, Moment.actions, Move.act, hsame]
    | rcptResult outcome =>
      have hrcpt : e.awaiting = some .rcpt := hok.1
      rw [hin.awaiting] at hrcpt
      cases hrcpt
    | deliverResult results =>
      have hdeliver : e.awaiting = some .deliver := hok
      rw [hin.awaiting] at hdeliver
      cases hdeliver

theorem storing_of_acceptsData (hallowed : m.move.Allowed m.state)
    (hdata : m.acceptsData s = true) :
    Storing s [] (m.move.act s m.state).1 ∧ (m.move.act s m.state).1.buffer = m.behind := by
  obtain ⟨e, move⟩ := m
  cases move with
  | line text rest =>
    obtain ⟨hwait, hopen, -⟩ := hallowed
    simp only [Moment.acceptsData, Bool.and_eq_true, Bool.not_eq_true', decide_eq_true_eq] at hdata
    obtain ⟨hcommand, hreply⟩ := hdata
    have hact : (Move.line text rest).act s e = handleCommand s text { e with buffer := rest } :=
      if_neg (by simp [hcommand])
    have heffect := handleCommand_effect s text { e with buffer := rest }
    rw [Moment.actions] at hreply
    dsimp only at hreply ⊢
    rw [hact] at hreply ⊢
    generalize handleCommand s text { e with buffer := rest } = r at heffect hreply ⊢
    have hother : ∀ text : Text, text ≠ "354 end data with <CR><LF>.<CR><LF>".toList →
        [LmtpAction.reply text] ≠ [.reply "354 end data with <CR><LF>.<CR><LF>".toList] := by
      intro text hne hsame
      exact hne (LmtpAction.reply.inj (List.cons.inj hsame).1)
    cases heffect with
    | greet name acts hacts hlines =>
      have hone : acts.length = 1 := congrArg List.length hreply
      omega
    | mail addr hfree => exact absurd hreply (hother _ (by decide))
    | rcpt addr hfrom => cases hreply
    | data hfrom hrcpt =>
      refine ⟨⟨rfl, hwait, fun hclosed => ?_, rfl, by simp [dataSize]⟩, rfl⟩
      rw [hopen] at hclosed
      cases hclosed
    | reset => exact absurd hreply (hother _ (by decide))
    | quit => cases hreply
    | aside text hmail hno => exact absurd hreply (hother _ hno)
  | _ => cases hdata

theorem ends_actions {d : Moment} {lines : List Bytes} (hends : d.ends = true)
    (hin : Storing s lines d.state) :
    d.actions s =
      if dataSize (lines.map unstuff) ≤ s.options.maxSizeBytes then
        [.deliver (deliverEnv s d.state)]
      else [.reply "552 5.3.4 message too large".toList] := by
  obtain ⟨e, move⟩ := d
  cases move with
  | line text rest =>
    have htext : text = [DOT] := by
      simp only [Moment.ends, Bool.and_eq_true, decide_eq_true_eq] at hends
      exact hends.2
    have hdata : e.inData = true := hin.inData
    have hover : e.dataOverflow = decide (s.options.maxSizeBytes < dataSize (lines.map unstuff)) :=
      hin.dataOverflow
    simp only [Moment.actions, Move.act, handleInput, hdata, if_true, handleDataLine, htext, hover,
      decide_eq_true_eq]
    split_ifs <;> first | rfl | omega
  | _ => cases hends

theorem Moment.cuts_outside {n : Moment} (hcut : n.cuts = true) :
    ¬ n.Inside s ∧ n.ends = false := by
  obtain ⟨e, move⟩ := n
  cases move with
  | unfinished =>
    refine ⟨fun hinside => ?_, rfl⟩
    have hsilent := hinside.silent
    simp only [Moment.cuts, Bool.and_eq_true, decide_eq_true_eq] at hcut
    simp [Moment.silent, Moment.actions, Move.act, guardLine, hcut.2] at hsilent
  | errors count =>
    refine ⟨fun hinside => ?_, rfl⟩
    have hsilent : (guardErrors count e).2 = [] := hinside.silent
    simp only [Moment.cuts, Bool.and_eq_true, Bool.not_eq_true', decide_eq_true_eq] at hcut
    rw [guardErrors, if_neg (by simp [hcut.1.2]), if_neg (Nat.not_le.mpr hcut.2)] at hsilent
    cases hsilent
  | _ => cases hcut

theorem NoCut.of_inside {before' later' : List Moment} {d : Moment}
    (hinside : ∀ n ∈ before', n.Inside s) (hends : d.ends = true) :
    NoCut (before' ++ d :: later') := by
  intro before n later hrest hbefore
  by_contra hcuts
  obtain ⟨houtside, hnends⟩ := Moment.cuts_outside (s := s) (n := n) (by simpa using hcuts)
  have hnd : n ≠ d := by
    rintro rfl
    rw [hnends] at hends
    cases hends
  rcases List.append_eq_append_iff.mp hrest with ⟨mid, hmid, htail⟩ | ⟨mid, hmid, htail⟩
  · cases mid with
    | nil => exact hnd (List.cons.inj htail).1.symm
    | cons x mid =>
      obtain ⟨rfl, -⟩ := List.cons.inj htail
      rw [hbefore d (by simp [hmid])] at hends
      cases hends
  · cases mid with
    | nil => exact hnd (List.cons.inj htail).1
    | cons x mid =>
      obtain ⟨rfl, -⟩ := List.cons.inj htail
      exact houtside (hinside n (by simp [hmid]))

theorem NoCut.of_framed (h : DataFramed s stream rest e') : NoCut rest := by
  unfold DataFramed at h
  split at h
  · intro before n later hrest hbefore
    by_contra hcuts
    exact (Moment.cuts_outside (by simpa using hcuts)).1 (h.1 n (by simp [hrest]))
  · obtain ⟨before', d, later', rfl, hinside, hends, -⟩ := h
    exact .of_inside hinside hends

theorem framed_iff (hstored : NoCut rest → Stored s [] stream rest e') :
    DataFramed s stream rest e' ↔ NoCut rest ∧ Undotted s stream := by
  constructor
  · intro hframed
    have hcut := NoCut.of_framed hframed
    refine ⟨hcut, fun lines after hcontent hfits => ?_⟩
    have hstored := hstored hcut
    unfold Stored at hstored
    unfold DataFramed at hframed
    rw [hcontent] at hstored hframed
    obtain ⟨before, d, later, hrest, hbefore, hends, -, hin⟩ := hstored
    obtain ⟨before', d', later', hrest', hbefore', hends', -, hraw⟩ := hframed
    obtain ⟨-, rfl, -⟩ := Trace.first_unique (P := fun n : Moment => n.ends = true)
      (hrest.symm.trans hrest') hends hends' (fun n hn => by simp [(hbefore n hn).ends])
      fun n hn => by simp [(hbefore' n hn).ends]
    rw [List.nil_append] at hin
    have hacts := ends_actions hends hin
    rw [if_pos hfits] at hacts
    have hsame := hraw (deliverEnv s d.state) (by simp [hacts])
    rw [deliverEnv, hin.dataLines] at hsame
    exact (rawOf_unstuff_iff lines).mp hsame
  · rintro ⟨hcut, hdots⟩
    have hstored := hstored hcut
    unfold Stored at hstored
    unfold DataFramed
    cases hcontent : Lines.content CR LF [DOT] stream with
    | none =>
      rw [hcontent] at hstored
      exact hstored
    | some p =>
      rw [hcontent] at hstored
      obtain ⟨before, d, later, hrest, hbefore, hends, hafter, hin⟩ := hstored
      rw [List.nil_append] at hin
      refine ⟨before, d, later, hrest, hbefore, hends, hafter, fun env henv => ?_⟩
      rw [ends_actions hends hin] at henv
      split_ifs at henv with hfits
      · have hsame : env = deliverEnv s d.state := by simpa using henv
        rw [hsame, deliverEnv, hin.dataLines]
        exact (rawOf_unstuff_iff p.1).mpr (hdots p.1 p.2 hcontent hfits)
      · simp at henv

theorem Stored.delivers (h : Stored s [] stream rest e')
    {body : List Bytes} {after : Bytes} (hlines : ∀ l ∈ body, Lines.cut CR LF l = none)
    (hstream : stream = (body.flatMap fun l => stuff l ++ crlf) ++ DOT :: CR :: LF :: after)
    (hfits : dataSize body ≤ s.options.maxSizeBytes) :
    ∃ (before : List Moment) (d : Moment) (later : List Moment) (env : LmtpDeliverEnv),
      rest = before ++ d :: later ∧ (∀ n ∈ before, n.Inside s) ∧
      d.actions s = [LmtpAction.deliver env] ∧ env.raw = rawOf body := by
  have hcontent : Lines.content CR LF [DOT] stream = some (body.map stuff, after) := by
    rw [hstream]
    have hstuffed : ∀ l ∈ body.map stuff, Lines.cut CR LF l = none ∧ l ≠ [DOT] := by
      intro l hl
      obtain ⟨x, hx, rfl⟩ := List.mem_map.mp hl
      exact ⟨cut_stuff (hlines x hx), stuff_ne_dot x⟩
    have hshape := Lines.content_of_lines (by decide) after hstuffed (by decide)
    rw [List.flatMap_map] at hshape
    exact hshape
  have hback : (body.map stuff).map unstuff = body := by
    rw [List.map_map]
    exact (List.map_congr_left fun l _ => unstuff_stuff l).trans (List.map_id _)
  unfold Stored at h
  rw [hcontent] at h
  obtain ⟨before, d, later, hrest, hbefore, hends, -, hin⟩ := h
  rw [List.nil_append] at hin
  have hacts := ends_actions hends hin
  rw [hback, if_pos hfits] at hacts
  refine ⟨before, d, later, deliverEnv s d.state, hrest, hbefore, hacts, ?_⟩
  rw [deliverEnv, hin.dataLines, hback]

end

/-- In every run, after every accepted DATA: the engine frames the stream that follows
exactly if it throws no unfinished line of it away, the session is not closed over its error
limit before the end, and a message that fits has no line with a single dot at its start; and without such a cut a stuffed body that fits is delivered
unchanged. -/
theorem data_delivered (s : Setup) (cs : List Call) (e' : Engine) (acts : List (List LmtpAction))
    (past rest : List Moment) (m : Moment) (hrun : run s {} cs = some (e', acts))
    (hsplit : runMoments s {} cs = past ++ m :: rest) (hdata : m.acceptsData s = true) :
    (DataFramed s (m.behind ++ fed rest) rest e' ↔
        NoCut rest ∧ Undotted s (m.behind ++ fed rest)) ∧
      (NoCut rest → ∀ (body : List Bytes) (after : Bytes),
        (∀ l ∈ body, Lines.cut CR LF l = none) →
        m.behind ++ fed rest = (body.flatMap fun l => stuff l ++ crlf) ++ DOT :: CR :: LF :: after →
        dataSize body ≤ s.options.maxSizeBytes →
        ∃ (before : List Moment) (d : Moment) (later : List Moment) (env : LmtpDeliverEnv),
          rest = before ++ d :: later ∧ (∀ n ∈ before, n.Inside s) ∧
          d.actions s = [LmtpAction.deliver env] ∧ env.raw = rawOf body) := by
  obtain ⟨⟨hhistory, -⟩, hsettled⟩ := run_history s (settled_of_cut rfl) hrun
  rw [hsplit] at hhistory
  obtain ⟨e, -, hfrom⟩ := Trace.Linked.split hhistory
  cases hfrom with
  | cons hallowed hrest =>
    obtain ⟨hstoring, hbuffer⟩ := storing_of_acceptsData hallowed hdata
    have hstored : NoCut rest → Stored s [] (_ ++ fed rest) rest e' :=
      stored_of_history hrest hsettled hstoring
    rw [hbuffer] at hstored
    exact ⟨framed_iff hstored, fun hcut body after hlines hstream hfits =>
      (hstored hcut).delivers hlines hstream hfits⟩

def checkData (s : Setup) (cs : List Call) (p : List Moment → Moment → List Moment → Bool) : Bool :=
  match (runMoments s {} cs).dropWhile (fun m => !m.acceptsData s) with
  | [] => false
  | m :: rest => p ((runMoments s {} cs).takeWhile fun m => !m.acceptsData s) m rest

theorem exists_of_checkData {s : Setup} {cs : List Call}
    {p : List Moment → Moment → List Moment → Bool} (h : checkData s cs p = true) :
    ∃ past m rest, runMoments s {} cs = past ++ m :: rest ∧ m.acceptsData s = true ∧
      p past m rest = true := by
  unfold checkData at h
  split at h
  · cases h
  · rename_i m rest hdrop
    have hsplit := List.takeWhile_append_dropWhile (p := fun m => !Moment.acceptsData s m)
      (l := runMoments s {} cs)
    rw [hdrop] at hsplit
    have hm := List.head_dropWhile_not (fun m => !Moment.acceptsData s m) (l := runMoments s {} cs)
      (by simp [hdrop])
    simp only [hdrop, List.head_cons, Bool.not_eq_false'] at hm
    exact ⟨_, m, rest, hsplit.symm, hm, h⟩

theorem noCut_of_all (h : rest.all (fun n => !n.cuts) = true) : NoCut rest := by
  intro before n later hrest _
  have := List.all_eq_true.mp h n (by simp [hrest])
  simpa using this

def bareSetup : Setup :=
  { cases := ⟨id, id⟩, options := { hostname := "mx".toList } }

def wire (text : String) : Bytes := utf8Encode text.toList

def opening : List Call :=
  [.feed (wire "LHLO c\r\nMAIL FROM:<a@b>\r\nRCPT TO:<u@mx>\r\n"), .rcptResult .accepted,
    .feed (wire "DATA\r\n")]

def longLine : Bytes := List.replicate 4097 0x61

theorem length_longLine : longLine.length = 4097 := List.length_replicate

theorem cut_longLine : Lines.cut CR LF longLine = none := by
  unfold longLine
  generalize 4097 = n
  induction n with
  | zero => rfl
  | succ n ih =>
    rw [List.replicate_succ, Lines.cut, if_neg (by simp [show (0x61 : UInt8) ≠ CR by decide]), ih]
    rfl

/-- The unfinished line is answered and thrown away. -/
theorem data_delivered_fails :
    ¬ ∀ (s : Setup) (cs : List Call) (e' : Engine) (acts : List (List LmtpAction))
      (past rest : List Moment) (m : Moment), run s {} cs = some (e', acts) →
      runMoments s {} cs = past ++ m :: rest → m.acceptsData s = true →
      DataFramed s (m.behind ++ fed rest) rest e' := by
  intro h
  have hopening : (run bareSetup {} opening).map
      (fun r => (r.1.buffer, r.1.inData, r.1.awaiting, r.1.closed)) =
      some ([], true, none, false) := by
    decide +kernel
  obtain ⟨⟨e₁, acts₁⟩, hrun₁, hfields⟩ := Option.map_eq_some_iff.mp hopening
  simp only [Prod.mk.injEq] at hfields
  obtain ⟨hbuffer, hdata, hwait, hopen⟩ := hfields
  have hany : (runMoments bareSetup {} opening).any (Moment.acceptsData bareSetup) = true := by
    decide +kernel
  have hends : (runMoments bareSetup {} opening).all (fun m => !m.ends) = true := by
    decide +kernel
  obtain ⟨m, hmem, hm⟩ := List.any_eq_true.mp hany
  obtain ⟨past, rest₁, hsplit₁⟩ := List.append_of_mem hmem
  obtain ⟨hrun, hmoments⟩ := run_append hrun₁ [Call.feed longLine]
  have hfeed : stepMoments bareSetup (.feed longLine) e₁ =
      ⟨e₁, .read longLine⟩ :: ⟨{ e₁ with buffer := longLine }, .unfinished⟩ ::
        (stepMoments bareSetup (.feed longLine) e₁).drop 2 := by
    simp [stepMoments, hopen, feedMoments, pumpedMoments, pumpMoments, hbuffer, hwait, cut_longLine]
  have hmore : runMoments bareSetup e₁ [.feed longLine] =
      stepMoments bareSetup (.feed longLine) e₁ := by
    simp [runMoments, step]
  rw [hmore, hfeed, hsplit₁, List.append_assoc, List.cons_append] at hmoments
  have hframed := h bareSetup (opening ++ [Call.feed longLine]) (feed bareSetup longLine e₁).1
    (acts₁ ++ [(feed bareSetup longLine e₁).2]) past _ m (by rw [hrun]; rfl) hmoments hm
  have hcut := NoCut.of_framed hframed (rest₁ ++ [⟨e₁, .read longLine⟩])
    ⟨{ e₁ with buffer := longLine }, .unfinished⟩ _ (by rw [List.append_assoc]; rfl) ?_
  · simp only [Moment.cuts, hdata, length_longLine, Bool.true_and, decide_eq_false_iff_not] at hcut
    exact hcut (by decide)
  · intro x hx
    rcases List.mem_append.mp hx with hx | hx
    · have := List.all_eq_true.mp hends x (by rw [hsplit₁]; simp [hx])
      simpa using this
    · obtain rfl := List.mem_singleton.mp hx
      rfl

/-- A body with a dot at the start of a line, its terminator in two chunks. -/
def dottedMessage : List Call := opening ++ [Call.feed (wire "..x\r\n."), .feed (wire "\r\n")]

theorem data_delivered_dotted :
    ∃ (e' : Engine) (acts : List (List LmtpAction)) (past rest : List Moment) (m : Moment),
      run bareSetup {} dottedMessage = some (e', acts) ∧
      runMoments bareSetup {} dottedMessage = past ++ m :: rest ∧
      m.acceptsData bareSetup = true ∧ NoCut rest ∧
      ∃ (before : List Moment) (d : Moment) (later : List Moment) (env : LmtpDeliverEnv), rest = before ++ d :: later ∧
        d.actions bareSetup = [LmtpAction.deliver env] ∧ env.raw = wire ".x\r\n" := by
  have hsome : (run bareSetup {} dottedMessage).isSome = true := by decide +kernel
  obtain ⟨⟨e', acts⟩, hrun⟩ := Option.isSome_iff_exists.mp hsome
  have hcheck : checkData bareSetup dottedMessage (fun _ m rest =>
      decide (m.behind ++ fed rest = wire "..x\r\n.\r\n") && rest.all fun n => !n.cuts) = true := by
    decide +kernel
  obtain ⟨past, m, rest, hsplit, hdata, hchecked⟩ := exists_of_checkData hcheck
  simp only [Bool.and_eq_true, decide_eq_true_eq] at hchecked
  obtain ⟨hstream, hcuts⟩ := hchecked
  have hcut : NoCut rest := noCut_of_all hcuts
  obtain ⟨before, d, later, env, hrest, -, hacts, hraw⟩ :=
    (data_delivered bareSetup dottedMessage e' acts past rest m hrun hsplit hdata).2 hcut
      [wire ".x"] [] (by decide) (by rw [hstream]; decide) (by decide)
  refine ⟨e', acts, past, rest, m, hrun, hsplit, hdata, hcut, before, d, later, env, hrest, hacts, ?_⟩
  rw [hraw]
  decide

end Ionosphere.Lmtp
