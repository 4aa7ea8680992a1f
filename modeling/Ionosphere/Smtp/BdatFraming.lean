import Ionosphere.Smtp.Run

/-!
BDAT framing. In state `rcpt` the announced bytes are read as chunk data whatever
becomes of the message; in any other state BDAT is answered 503 and the bytes that
follow it are read as command lines. Counts above `2 ^ 53` are rounded by the host.
-/

namespace Ionosphere.Smtp

open Ionosphere.Js Ionosphere.Core Ionosphere.Lib

variable {k : Nat} {e e' : Engine} {ts : List Turn}

def announced (h : Host) (t : Turn) : Option Nat :=
  match t.consumed with
  | .command line =>
    let text := utf8Decode line
    let v := splitVerb h.cases text
    if line.length ≤ maxCommandLine ∧ trim text ≠ [] ∧ v.1 = "BDAT".toList then
      (parseBdatArgs h v.2).map fun args => digitsValue 10 args.1
    else none
  | _ => none

def Entry.isChunk : Entry → Bool
  | .pass t =>
    match t.consumed with
    | .chunk _ | .nothing => true
    | _ => false
  | _ => true

def chunkData (es : List Entry) : Bytes :=
  es.flatMap fun
    | .pass t =>
      match t.consumed with
      | .chunk bytes => bytes
      | _ => []
    | _ => []

/-- The first `n` bytes of the stream are taken as chunk data, before any other
pass takes a byte. -/
def BdatFramed (n : Nat) (buffered : Bytes) (post : List Entry) : Prop :=
  ∃ before after, post = before ++ after ∧ before.all Entry.isChunk = true ∧
    chunkData before = (buffered ++ fedBytes post).take n ∧
    (after = [] ∨ (chunkData before).length = n)

@[simp] theorem chunkData_append (es es' : List Entry) :
    chunkData (es ++ es') = chunkData es ++ chunkData es' := by
  simp only [chunkData, List.flatMap_append]

@[simp] theorem chunkData_nil : chunkData [] = [] := rfl

@[simp] theorem chunkData_cons_fed (chunk : Bytes) (es : List Entry) :
    chunkData (.fed chunk :: es) = chunkData es := rfl

theorem chunkData_cons_chunk {t : Turn} {bytes : Bytes} (ht : t.consumed = .chunk bytes)
    (es : List Entry) : chunkData (.pass t :: es) = bytes ++ chunkData es := by
  simp [chunkData, ht]

theorem chunkData_cons_nothing {t : Turn} (ht : t.consumed = .nothing) (es : List Entry) :
    chunkData (.pass t :: es) = chunkData es := by
  simp [chunkData, ht]

theorem called_chunk (calls : List Call) :
    (calls.map Entry.called).all Entry.isChunk = true ∧ chunkData (calls.map Entry.called) = [] ∧
      fedBytes (calls.map Entry.called) = [] := by
  refine ⟨by simp [Entry.isChunk], ?_, ?_⟩
  · induction calls with
    | nil => rfl
    | cons c calls ih => exact ih
  · induction calls with
    | nil => rfl
    | cons c calls ih => simpa using ih

/-- The engine is reading a chunk of which `k` bytes are missing. -/
structure InBdat (k : Nat) (e : Engine) : Prop where
  state : e.state = .bdat
  auth : e.authContinuation = none
  awaiting : e.awaiting = none
  overflow : e.pendingOverflow = false
  remaining : e.bdatRemaining = k
  exact : k ≤ 2 ^ 53

section

variable {h : Host} {o : Options}

/-- How a loop inside a chunk goes on: the chunk ends, or takes the whole buffer. -/
inductive BdatLoop (k : Nat) (e : Engine) (ts : List Turn) (e' : Engine) : Prop
  | ended (u : Turn) (later : List Turn) (hts : ts = u :: later)
      (hu : u.consumed = .chunk (e.buffer.take k)) (hlen : k ≤ e.buffer.length)
  | more (u : Turn) (hts : ts = [u]) (hu : Entry.isChunk (.pass u) = true)
      (hdata : chunkData [.pass u] = e.buffer) (hlen : e.buffer.length < k)
      (hin : InBdat (k - e.buffer.length) e') (hbuf : e'.buffer = [])

theorem takeChunk_remaining {e : Engine} (hin : InBdat k e) :
    (takeChunk e).bdatRemaining = k - e.buffer.length := by
  have hk := hin.exact
  simp only [takeChunk, hin.remaining]
  rw [roundInt_of_le (by omega)]
  omega

theorem bdatLoop_of_loop (hloop : Loop h o e ts e')
    (hin : InBdat k e) (hclosed : e.closed = false) : BdatLoop k e ts e' := by
  have hturn := turn_bdat (h := h) (o := o) hin.auth hin.state
  have hrem := takeChunk_remaining hin
  have hk := hin.remaining
  cases hloop with
  | stop hrun =>
    have hrun' := running_iff.mpr ⟨hin.awaiting, hclosed⟩
    rw [hrun] at hrun'
    cases hrun'
  | leave hrun hagain =>
    rw [hturn] at hagain ⊢
    unfold turnBdat at hagain ⊢
    rw [hk] at hagain ⊢
    split_ifs at hagain ⊢ with hpos hempty hmore
    · refine .more _ rfl rfl (by simp [chunkData, hempty]) (by simpa [hempty] using hpos) ?_ hempty
      rw [hempty]
      exact ⟨hin.state, hin.auth, hin.awaiting, hin.overflow, hk, hin.exact⟩
    · have hshort : e.buffer.length < k := by omega
      have hall : chunkBytes e = e.buffer := by
        simp only [chunkBytes, hk]
        exact List.take_of_length_le (by omega)
      refine .more _ rfl rfl (by simp [chunkData, hall]) hshort ?_ ?_
      · exact ⟨hin.state, hin.auth, hin.awaiting, hin.overflow, hrem, (Nat.sub_le _ _).trans hin.exact⟩
      · simp only [takeChunk, hk]
        exact List.drop_of_length_le (by omega)
  | again hrun hagain hloop =>
    refine .ended _ _ rfl ?_ ?_
    · rw [hturn] at hagain ⊢
      unfold turnBdat at hagain ⊢
      rw [hk] at hagain ⊢
      split_ifs at hagain ⊢ with hpos hempty hmore
      · have hlen : k ≤ e.buffer.length := by omega
        simp only [chunkBytes, hk, Nat.min_eq_left hlen]
      · have hzero : k = 0 := by omega
        simp [hzero]
    · rw [hturn] at hagain
      unfold turnBdat at hagain
      rw [hk] at hagain
      split_ifs at hagain with hpos hempty hmore <;> omega

theorem inBdat_guardErrors {e : Engine} (hin : InBdat k e) (hbuf : e.buffer = [])
    (acts : List SmtpAction) :
    InBdat k (guardErrors e acts).1 ∧ (guardErrors e acts).1.buffer = [] := by
  obtain ⟨hs, ha, hw, ho, hr, hx⟩ := hin
  rcases guardErrors_cases e acts with heq | ⟨n, heq⟩ | ⟨n, heq⟩
  · rw [heq]
    exact ⟨⟨hs, ha, hw, ho, hr, hx⟩, hbuf⟩
  · rw [heq]
    exact ⟨⟨hs, ha, hw, ho, hr, hx⟩, hbuf⟩
  · rw [heq]
    exact ⟨⟨hs, ha, hw, ho, hr, hx⟩, rfl⟩

theorem bdatFramed_of_loop {e e₁ : Engine} {acts : List SmtpAction}
    {rest : List Entry} (hloop : Loop h o e ts e₁) (hin : InBdat k e) (hclosed : e.closed = false)
    (hrest : ∀ k', InBdat k' (guardErrors e₁ acts).1 → (guardErrors e₁ acts).1.buffer = [] →
      BdatFramed k' [] rest) :
    BdatFramed k e.buffer (ts.map .pass ++ rest) := by
  cases bdatLoop_of_loop hloop hin hclosed with
  | ended u later hts hu hlen =>
    refine ⟨[.pass u], later.map .pass ++ rest, by simp [hts], ?_, ?_, .inr ?_⟩
    · simp [Entry.isChunk, hu]
    · rw [chunkData_cons_chunk hu, chunkData_nil, List.append_nil,
        List.take_append_of_le_length hlen]
    · simp [chunkData_cons_chunk hu, hlen]
  | more u hts hu hdata hlen hin₁ hbuf =>
    obtain ⟨hin₂, hbuf₂⟩ := inBdat_guardErrors hin₁ hbuf acts
    obtain ⟨before, after, rfl, hbefore, hchunk, hdone⟩ := hrest _ hin₂ hbuf₂
    have hall : chunkData (.pass u :: before) = e.buffer ++ chunkData before := by
      rw [← hdata, ← chunkData_append]
      rfl
    refine ⟨.pass u :: before, after, by simp [hts], ?_, ?_, ?_⟩
    · rw [List.all_cons, hu, hbefore]
      rfl
    · have hfed : fedBytes (ts.map Entry.pass ++ (before ++ after)) = fedBytes (before ++ after) := by
        rw [fedBytes_append, fedBytes_passes, List.nil_append]
      rw [hall, hchunk, hfed, List.nil_append, List.take_append, List.take_of_length_le hlen.le]
    · refine hdone.imp_right fun hlen' => ?_
      rw [hall, List.length_append, hlen']
      omega

theorem bdatFramed_of_run {cs : List Call} {es : List Entry}
    (hrun : run h o e cs = some (es, e')) (hin : InBdat k e) (hbuf : e.buffer = []) :
    BdatFramed k [] es := by
  induction cs generalizing k e es with
  | nil =>
    obtain ⟨rfl, -⟩ := Prod.mk.inj (Option.some.inj hrun)
    exact ⟨[], [], rfl, rfl, by simp, .inl rfl⟩
  | cons c cs ih =>
    cases hclosed : e.closed with
    | true =>
      obtain ⟨calls, rfl⟩ := run_closed hrun hclosed hin.awaiting
      obtain ⟨hall, hdata, hfed⟩ := called_chunk calls
      exact ⟨_, [], by simp, hall, by simp [hdata, hfed], .inl rfl⟩
    | false =>
      obtain ⟨chunk, ts, e₁, acts, rest, rfl, hloop, hrest⟩ :=
        run_open hrun hclosed hin.awaiting hin.overflow
      obtain ⟨before, after, hsplit, hbefore, hdata, hdone⟩ := bdatFramed_of_loop hloop
        (k := k) ⟨hin.state, hin.auth, hin.awaiting, hin.overflow, hin.remaining, hin.exact⟩
        hclosed fun k' hin' hbuf' => ih hrest hin' hbuf'
      refine ⟨.fed chunk :: before, after, by rw [hsplit]; rfl, ?_, ?_, hdone⟩
      · rw [List.all_cons, hbefore]
        rfl
      · rw [chunkData_cons_fed, hdata, hbuf]
        rfl

/-- The engine reads command lines. -/
structure InCommands (e : Engine) : Prop where
  notData : e.state ≠ .data
  notBdat : e.state ≠ .bdat
  auth : e.authContinuation = none
  awaiting : e.awaiting = none
  overflow : e.pendingOverflow = false

theorem commandLoop_cases (hloop : Loop h o e ts e')
    (hin : InCommands e) (hclosed : e.closed = false) :
    (∃ u, ts = [u] ∧ u.consumed = .nothing ∧ e' = e) ∨
      e.buffer ≠ [] ∧ ∃ u later, ts = u :: later ∧ Entry.isChunk (.pass u) = false := by
  have hturn := turn_command (h := h) (o := o) hin.auth hin.notData hin.notBdat
  have hline {i : Nat} (hi : indexOfCRLF e.buffer = some i) :
      e.buffer ≠ [] ∧ Entry.isChunk (.pass (turn h o e)) = false := by
    refine ⟨?_, by rw [hturn]; simp only [turnCommand, hi, Entry.isChunk]⟩
    have hlen := Lines.length_of_cut (cut_of_index hi)
    intro hnil
    rw [hnil] at hlen
    simp at hlen
  cases hloop with
  | stop hrun =>
    have hrun' := running_iff.mpr ⟨hin.awaiting, hclosed⟩
    rw [hrun] at hrun'
    cases hrun'
  | leave hrun hagain =>
    cases hi : indexOfCRLF e.buffer with
    | some i => exact .inr ⟨(hline hi).1, _, _, rfl, (hline hi).2⟩
    | none =>
      by_cases hlong : maxCommandLine < e.buffer.length
      · refine .inr ⟨fun hnil => by simp [hnil] at hlong, _, _, rfl, ?_⟩
        rw [hturn]
        simp only [turnCommand, hi, if_pos hlong, Entry.isChunk]
      · refine .inl ⟨_, rfl, ?_, ?_⟩ <;>
          · rw [hturn]
            simp only [turnCommand, hi, if_neg hlong]
  | again hrun hagain hloop =>
    cases hi : indexOfCRLF e.buffer with
    | some i => exact .inr ⟨(hline hi).1, _, _, rfl, (hline hi).2⟩
    | none =>
      rw [hturn] at hagain
      simp only [turnCommand, hi] at hagain
      split_ifs at hagain

/-- No byte that follows is taken as chunk data before another pass takes one. -/
def NoChunk (buffered : Bytes) (es : List Entry) : Prop :=
  (∀ before after, es = before ++ after → before.all Entry.isChunk = true → chunkData before = []) ∧
    (buffered ++ fedBytes es = [] → es.all Entry.isChunk = true)

theorem noChunk_of_loop {e e₁ : Engine} {acts : List SmtpAction}
    {rest : List Entry} (hloop : Loop h o e ts e₁) (hin : InCommands e) (hclosed : e.closed = false)
    (hrest : InCommands (guardErrors e₁ acts).1 → NoChunk (guardErrors e₁ acts).1.buffer rest) :
    NoChunk e.buffer (ts.map .pass ++ rest) := by
  rcases commandLoop_cases hloop hin hclosed with ⟨u, rfl, hu, rfl⟩ | ⟨hne, u, later, rfl, hu⟩
  · obtain ⟨hd, hb, ha, hw, ho⟩ := hin
    have hchunk : Entry.isChunk (.pass u) = true := by simp only [Entry.isChunk, hu]
    have hguard : InCommands (guardErrors e₁ acts).1 ∧
        ((guardErrors e₁ acts).1.buffer = e₁.buffer ∨ (guardErrors e₁ acts).1.buffer = []) := by
      rcases guardErrors_cases e₁ acts with heq | ⟨n, heq⟩ | ⟨n, heq⟩
      · rw [heq]
        exact ⟨⟨hd, hb, ha, hw, ho⟩, .inl rfl⟩
      · rw [heq]
        exact ⟨⟨hd, hb, ha, hw, ho⟩, .inl rfl⟩
      · rw [heq]
        exact ⟨⟨hd, hb, ha, hw, ho⟩, .inr rfl⟩
    obtain ⟨hpre, hempty⟩ := hrest hguard.1
    refine ⟨?_, fun hnil => ?_⟩
    · intro before after hsplit hbefore
      cases before with
      | nil => rfl
      | cons x before =>
        obtain ⟨rfl, htail⟩ := List.cons.inj hsplit
        rw [List.all_cons, Bool.and_eq_true] at hbefore
        rw [chunkData_cons_nothing hu]
        exact hpre before after htail hbefore.2
    · obtain ⟨hbuf, hfed⟩ := List.append_eq_nil_iff.mp hnil
      have hfed' : fedBytes rest = [] := by simpa using hfed
      have hbuf' : (guardErrors e₁ acts).1.buffer = [] := by
        rcases hguard.2 with hsame | hsame
        · rw [hsame, hbuf]
        · exact hsame
      have hall := hempty (by rw [hbuf', hfed', List.append_nil])
      rw [List.map_cons, List.map_nil, List.singleton_append, List.all_cons, hchunk, hall]
      rfl
  · refine ⟨?_, fun hnil => absurd (List.append_eq_nil_iff.mp hnil).1 hne⟩
    intro before after hsplit hbefore
    cases before with
    | nil => rfl
    | cons x before =>
      obtain ⟨rfl, -⟩ := List.cons.inj hsplit
      simp [hu] at hbefore

theorem noChunk_of_run {cs : List Call} {es : List Entry}
    (hrun : run h o e cs = some (es, e')) (hin : InCommands e) : NoChunk e.buffer es := by
  induction cs generalizing e es with
  | nil =>
    obtain ⟨rfl, -⟩ := Prod.mk.inj (Option.some.inj hrun)
    refine ⟨fun before after hsplit _ => ?_, fun _ => rfl⟩
    rw [(List.append_eq_nil_iff.mp hsplit.symm).1]
    rfl
  | cons c cs ih =>
    cases hclosed : e.closed with
    | true =>
      obtain ⟨calls, rfl⟩ := run_closed hrun hclosed hin.awaiting
      obtain ⟨hall, hdata, -⟩ := called_chunk calls
      refine ⟨fun before after hsplit _ => ?_, fun _ => hall⟩
      rw [hsplit, chunkData_append] at hdata
      exact (List.append_eq_nil_iff.mp hdata).1
    | false =>
      obtain ⟨chunk, ts, e₁, acts, rest, rfl, hloop, hrest⟩ :=
        run_open hrun hclosed hin.awaiting hin.overflow
      obtain ⟨hpre, hempty⟩ := noChunk_of_loop hloop
        ⟨hin.notData, hin.notBdat, hin.auth, hin.awaiting, hin.overflow⟩ hclosed
        fun hin' => ih hrest hin'
      refine ⟨fun before after hsplit hbefore => ?_, fun hnil => ?_⟩
      · cases before with
        | nil => rfl
        | cons x before =>
          obtain ⟨rfl, htail⟩ := List.cons.inj hsplit
          rw [List.all_cons, Bool.and_eq_true] at hbefore
          exact hpre before after htail hbefore.2
      · rw [fedBytes_cons_fed, ← List.append_assoc] at hnil
        rw [List.all_cons, hempty hnil]
        rfl

theorem handleVerb_bdat (rest : Text) : handleVerb h o "BDAT".toList rest = handleBdat h o rest := by
  unfold handleVerb
  rw [if_neg (by decide), if_neg (by decide), if_neg (by decide), if_neg (by decide),
    if_neg (by decide), if_pos rfl]

theorem turn_of_announced {e : Engine} {n : Nat} (hn : announced h (turn h o e) = some n) :
    e.authContinuation = none ∧ e.state ≠ .data ∧ e.state ≠ .bdat ∧
      ∃ rest args digits last, parseBdatArgs h args = some (digits, last) ∧
        digitsValue 10 digits = n ∧ (turn h o e).again = true ∧
        (turn h o e).after = (handleBdat h o args { e with buffer := rest }).1 := by
  unfold announced at hn
  split at hn
  next line hline =>
    obtain ⟨hauth, hd, hb, rest, -, hturn⟩ := turn_of_command hline
    dsimp only at hn
    split_ifs at hn with hok
    obtain ⟨hlen, hblank, hverb⟩ := hok
    obtain ⟨⟨digits, last⟩, hparse, hvalue⟩ := Option.map_eq_some_iff.mp hn
    refine ⟨hauth, hd, hb, rest, _, digits, last, hparse, hvalue, by rw [hturn], ?_⟩
    rw [hturn]
    simp only [handleCommandLine, if_neg (not_lt.mpr hlen), if_neg hblank, hverb, handleVerb_bdat]
  · cases hn

/-- In every run, for every well-formed BDAT line: the announced bytes are taken
as chunk data only in state `rcpt` (or when there are none), and there they are,
for every count the host can represent exactly. -/
theorem bdat_framing {implicitTls : Bool} {calls : List Call} {pre post : List Entry}
    {e' : Engine} {t : Turn} {n : Nat}
    (hrun : run h o (newEngine implicitTls) calls = some (pre ++ Entry.pass t :: post, e'))
    (hn : announced h t = some n) :
    (n ≤ 2 ^ 53 → t.before.state = .rcpt ∨ n = 0 ∨ t.after.buffer ++ fedBytes post = [] →
      BdatFramed n t.after.buffer post) ∧
    (BdatFramed n t.after.buffer post →
      t.before.state = .rcpt ∨ n = 0 ∨ t.after.buffer ++ fedBytes post = []) := by
  obtain ⟨⟨hrunning, hover, hturn⟩, ⟨later⟩⟩ := run_at_pass hrun rfl
  obtain ⟨hwait, hclosed⟩ := running_iff.mp hrunning
  rw [hturn] at hn
  obtain ⟨hauth, hd, hb, rest, args, digits, last, hparse, hvalue, hagain, hafter⟩ :=
    turn_of_announced hn
  rw [← hturn] at hagain hafter
  have hzero : n = 0 → BdatFramed n t.after.buffer post := by
    rintro rfl
    exact ⟨[], post, rfl, rfl, by simp, .inr rfl⟩
  by_cases hstate : t.before.state = .rcpt
  · refine ⟨fun hsafe _ => ?_, fun _ => .inl hstate⟩
    have hnum : decimalNumber digits = some n := by
      rw [decimalNumber_of_le (by rw [hvalue]; exact hsafe), hvalue]
    have hin : InBdat n t.after ∧ t.after.closed = false := by
      rw [hafter]
      simp only [handleBdat, hstate, hparse, hnum]
      exact ⟨⟨rfl, hauth, hwait, hover, rfl, hsafe⟩, hclosed⟩
    rw [later.entries]
    exact bdatFramed_of_loop (later.loop hagain) hin.1 hin.2
      fun k' hin' hbuf' => bdatFramed_of_run later.later hin' hbuf'
  · have hsame : t.after = { t.before with buffer := rest } := by
      rw [hafter]
      simp only [handleBdat]
      rw [if_pos ⟨hstate, hb⟩]
    have hin : InCommands t.after ∧ t.after.closed = false := by
      rw [hsame]
      exact ⟨⟨hd, hb, hauth, hwait, hover⟩, hclosed⟩
    have hno : NoChunk t.after.buffer post := by
      rw [later.entries]
      exact noChunk_of_loop (later.loop hagain) hin.1 hin.2 fun hin' =>
        noChunk_of_run later.later hin'
    refine ⟨fun _ hcond => ?_, fun hframed => ?_⟩
    · rcases hcond with hrcpt | hn0 | hempty
      · exact absurd hrcpt hstate
      · exact hzero hn0
      · have hall := hno.2 hempty
        refine ⟨post, [], by simp, hall, ?_, .inl rfl⟩
        rw [hempty, hno.1 post [] (by simp) hall, List.take_nil]
    · obtain ⟨before, after, hsplit, hbefore, hdata, -⟩ := hframed
      rw [hno.1 before after hsplit hbefore] at hdata
      rcases List.take_eq_nil_iff.mp hdata.symm with hn0 | hempty
      · exact .inr (.inl hn0)
      · exact .inr (.inr hempty)

end

def strayChunk : List Call := [.feed (bytesOf "EHLO a\r\nBDAT 6\r\nNOOP\r\n")]

def bdatOptions : Options := { hostname := "h".toList, maxSizeBytes := 100, tlsAvailable := false }

/-- The six bytes of the refused chunk are run as a command. -/
theorem bdat_framing_fails :
    ∃ (pre post : List Entry) (t : Turn) (e' : Engine),
      run asciiHost bdatOptions (newEngine false) strayChunk = some (pre ++ Entry.pass t :: post, e') ∧
        announced asciiHost t = some 6 ∧ ¬BdatFramed 6 t.after.buffer post := by
  have hcheck : checkRun asciiHost bdatOptions strayChunk
      (fun t => decide (announced asciiHost t = some 6))
      (fun _ t post => decide (t.after.buffer = bytesOf "NOOP\r\n") &&
        !(post.head?.any Entry.isChunk)) = true := by
    decide +kernel
  obtain ⟨pre, post, t, e', hrun, hn, hpost⟩ := exists_of_checkRun hcheck
  refine ⟨pre, post, t, e', hrun, of_decide_eq_true hn, ?_⟩
  simp only [Bool.and_eq_true, decide_eq_true_eq, Bool.not_eq_true'] at hpost
  rintro ⟨before, after, rfl, hbefore, hdata, -⟩
  have hbefore' : before = [] := by
    cases before with
    | nil => rfl
    | cons x before => simp_all
  rw [hbefore', hpost.1] at hdata
  simp [bytesOf] at hdata

def twoChunks : List Call :=
  openTransaction ++ [Call.feed (bytesOf "BDAT 3\r\nabcBDAT 2 LAST\r\nd"), .feed (bytesOf "e")]

theorem bdat_framing_twoChunks :
    ∃ (pre post : List Entry) (t : Turn) (e' : Engine),
      run asciiHost bdatOptions (newEngine false) twoChunks = some (pre ++ Entry.pass t :: post, e') ∧
        announced asciiHost t = some 3 ∧ t.before.state = .rcpt ∧
        BdatFramed 3 t.after.buffer post := by
  have hcheck : checkRun asciiHost bdatOptions twoChunks
      (fun t => decide (announced asciiHost t = some 3))
      (fun _ t _ => decide (t.before.state = .rcpt)) = true := by
    decide +kernel
  obtain ⟨pre, post, t, e', hrun, hn, hstate⟩ := exists_of_checkRun hcheck
  have hn' := of_decide_eq_true hn
  have hstate' := of_decide_eq_true hstate
  exact ⟨pre, post, t, e', hrun, hn', hstate',
    (bdat_framing hrun hn').1 (by decide) (.inl hstate')⟩

end Ionosphere.Smtp
