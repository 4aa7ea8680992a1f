import Ionosphere.Smtp.DataFraming
import Ionosphere.Smtp.Twin

/-! The way a stream is cut into chunks does not matter, as long as no limit that is
applied call by call acts. `Flow` is the session with the whole stream in the buffer: the
loop runs until it asks something, and goes on at the answer. Every run without such a
limit returns the actions of the flow of its stream and its answers. -/

namespace Ionosphere.Smtp

open Ionosphere.Js Ionosphere.Core Ionosphere.Lib

variable {e e' : Engine} {p : Prepared} {r : Result} {ts : List Turn} {calls : List Call}

variable {cs : List Call} {acts : List SmtpAction} {c : Call} {x : Bytes}

/-- `e` with the bytes `x` already there. -/
def Engine.plus (e : Engine) (x : Bytes) : Engine := { e with buffer := e.buffer ++ x }

abbrev Same (h : Host) (x : Bytes) (e e' : Engine) : Prop := Twin h h.serverNonce True x e e'

section

variable (h : Host) (o : Options)

/-- The loop with the whole stream in the buffer, and the answers as they are asked for. -/
inductive Flow : Engine → List Call → List SmtpAction → Engine → Prop
  | rest {e e₁ : Engine} {ts : List Turn} (hloop : Loop h o e ts e₁) :
      Flow e [] (ts.flatMap Turn.actions) e₁
  | answer {e e₁ e' : Engine} {ts : List Turn} {c : Call} {cs : List Call} {p : Prepared}
      {acts : List SmtpAction} (hloop : Loop h o e ts e₁) (hc : c.isAnswer = true)
      (hp : prepare h c e₁ = some p) (hflow : Flow p.engine cs acts e') :
      Flow e (c :: cs) (ts.flatMap Turn.actions ++ (p.actions ++ acts)) e'

variable {h o}

theorem flow_unique {e e₁ e₂ : Engine} {acts₁ acts₂ : List SmtpAction}
    (h₁ : Flow h o e cs acts₁ e₁) (h₂ : Flow h o e cs acts₂ e₂) : acts₁ = acts₂ ∧ e₁ = e₂ := by
  induction h₁ generalizing acts₂ with
  | rest hloop =>
    cases h₂ with
    | rest hloop' =>
      obtain ⟨rfl, rfl⟩ := loop_unique hloop hloop'
      exact ⟨rfl, rfl⟩
  | answer hloop hc hp hflow ih =>
    cases h₂ with
    | answer hloop' hc' hp' hflow' =>
      obtain ⟨rfl, rfl⟩ := loop_unique hloop hloop'
      obtain rfl := Option.some.inj (hp.symm.trans hp')
      obtain ⟨rfl, rfl⟩ := ih hflow'
      exact ⟨rfl, rfl⟩

theorem Same.refl (e : Engine) : Same h [] e e :=
  ⟨rfl, fun _ _ => (List.append_nil _).symm, rfl, fun _ => rfl, fun _ => rfl⟩

theorem same_plus (e : Engine) (x : Bytes) : Same h x e (e.plus x) :=
  ⟨rfl, fun _ _ => rfl, rfl, fun _ => rfl, fun _ => rfl⟩

theorem Twin.plus (ht : Same h x e e') : Same h [] (e.plus x) e' := by
  refine ⟨ht.same, fun hopen hwait => ?_, ht.content, ht.envelope, ht.nonce⟩
  rw [List.append_nil]
  exact ht.buffer hopen hwait

theorem Twin.symm (ht : Same h [] e e') : Same h [] e' e := by
  refine ⟨?_, fun hopen hwait => ?_, ht.content.symm, fun hs => (ht.envelope ?_).symm,
    fun k => (ht.nonce k).symm⟩
  · rw [ht.same]
  · have hbuf := ht.buffer (ht.closed ▸ hopen) (ht.awaiting ▸ hwait)
    rw [List.append_nil] at hbuf ⊢
    exact hbuf.symm
  · exact .inl trivial

theorem prepare_same (ht : Same h x e e')
    (hc : c.isAnswer = true) (hp : prepare h c e = some p) :
    ∃ p', prepare h c e' = some p' ∧ PreparedAgrees h h.serverNonce True x p p' := by
  have hrel := prepare_twin ht (fun _ => .inl trivial) c (.inl hc)
  have hself : drawing h h.serverNonce = h := rfl
  rw [hp, hself] at hrel
  generalize prepare h c e' = q at hrel
  cases hrel with
  | some hagree => exact ⟨_, rfl, hagree⟩

theorem flow_same {e e' e₁ : Engine}
    (ht : Same h [] e e') (hflow : Flow h o e cs acts e₁) :
    ∃ e₁', Flow h o e' cs acts e₁' ∧ Same h [] e₁ e₁' := by
  induction hflow generalizing e' with
  | rest hloop =>
    obtain ⟨ts', e₁', hloop', ht', hacts⟩ := loop_twin ht hloop
    rw [← hacts]
    exact ⟨e₁', .rest hloop', ht'⟩
  | answer hloop hc hp hflow ih =>
    obtain ⟨ts', e₁', hloop', ht', hacts⟩ := loop_twin ht hloop
    obtain ⟨p', hp', hagree⟩ := prepare_same ht' hc hp
    obtain ⟨e₂, hflow', ht₂⟩ := ih hagree.twin
    rw [← hacts, ← hagree.actions]
    exact ⟨e₂, .answer hloop' hc hp' hflow', ht₂⟩

def Skipping (e : Engine) : Prop := e.state = .data ∧ e.dataOverflow = true

/-- The same state of a session: content is compared as a whole and only where it still
matters, unread bytes only where they will be read. -/
structure Alike (e e' : Engine) : Prop where
  same : e' = { e with
    buffer := e'.buffer, dataChunks := e'.dataChunks, dataSize := e'.dataSize
    errorCount := e'.errorCount, nonces := e'.nonces }
  buffer : e.closed = false → e.awaiting ≠ some .tls → ¬Skipping e → e'.buffer = e.buffer
  content : ¬Skipping e → e'.dataChunks.flatten = e.dataChunks.flatten ∧ e'.dataSize = e.dataSize

theorem Alike.skipping (ha : Alike e e') : Skipping e' ↔ Skipping e := by
  unfold Skipping
  rw [ha.same]

theorem Alike.refl (e : Engine) : Alike e e := ⟨rfl, fun _ _ _ => rfl, fun _ => ⟨rfl, rfl⟩⟩

theorem Alike.symm (ha : Alike e e') : Alike e' e := by
  have hclosed : e'.closed = e.closed := by rw [ha.same]
  have hwait : e'.awaiting = e.awaiting := by rw [ha.same]
  refine ⟨by rw [ha.same], fun hc hw hs => ?_, fun hs => ?_⟩
  · exact (ha.buffer (hclosed ▸ hc) (hwait ▸ hw) (ha.skipping.not.mp hs)).symm
  · obtain ⟨hchunks, hsize⟩ := ha.content (ha.skipping.not.mp hs)
    exact ⟨hchunks.symm, hsize.symm⟩

theorem Alike.trans {e e' e'' : Engine} (ha : Alike e e') (hb : Alike e' e'') : Alike e e'' := by
  have hclosed : e'.closed = e.closed := by rw [ha.same]
  have hwait : e'.awaiting = e.awaiting := by rw [ha.same]
  refine ⟨by rw [hb.same, ha.same], fun hc hw hs => ?_, fun hs => ?_⟩
  · have hnext := hb.buffer (hclosed.trans hc) (hwait ▸ hw) (ha.skipping.not.mpr hs)
    exact hnext.trans (ha.buffer hc hw hs)
  · obtain ⟨hchunks, hsize⟩ := ha.content hs
    obtain ⟨hchunks', hsize'⟩ := hb.content (ha.skipping.not.mpr hs)
    exact ⟨hchunks'.trans hchunks, hsize'.trans hsize⟩

theorem Twin.alike (ht : Same h [] e e') : Alike e e' := by
  obtain ⟨hname, hrcpt, hmail, hrem, hlast⟩ := ht.fields (.inl trivial)
  refine ⟨?_, fun hc hw _ => ?_, fun _ => ⟨ht.content, ht.dataSize⟩⟩
  · have hsame := ht.same
    rw [hname, hrcpt, hmail, hrem, hlast] at hsame
    rw [ht.dataSize]
    exact hsame
  · have hbuf := ht.buffer hc hw
    rwa [List.append_nil] at hbuf

theorem turnData_open (hcut : Lines.cut CR LF e.buffer = none) :
    (turnData o e).after = guardDataBuffer o e ∧ (turnData o e).actions = [] ∧
      (turnData o e).again = false := by
  have hi : indexOfCRLF e.buffer = none := by
    rw [Lines.cut_eq_index] at hcut
    exact Option.map_eq_none_iff.mp hcut
  unfold turnData
  rw [hi]
  exact ⟨rfl, rfl, rfl⟩

theorem turnData_cut {l r : Bytes} (hcut : Lines.cut CR LF e.buffer = some (l, r)) :
    (turnData o e).again = true ∧
      (l = [DOT] → (turnData o e).after = (finishData { e with buffer := r }).1 ∧
        (turnData o e).actions = (finishData { e with buffer := r }).2) ∧
      (l ≠ [DOT] → (turnData o e).after = storeDataLine o l { e with buffer := r } ∧
        (turnData o e).actions = []) := by
  rw [Lines.cut_eq_index] at hcut
  obtain ⟨i, hi, heq⟩ := Option.map_eq_some_iff.mp hcut
  obtain ⟨rfl, rfl⟩ := Prod.mk.inj heq
  have hi' : indexOfCRLF e.buffer = some i := hi
  unfold turnData
  rw [hi']
  dsimp only
  split_ifs with hdot
  · exact ⟨rfl, fun _ => ⟨rfl, rfl⟩, fun hne => absurd hdot hne⟩
  · exact ⟨rfl, fun hd => absurd hd hdot, fun _ => ⟨rfl, rfl⟩⟩

def Engine.regauged (e : Engine) (n : Nat) (c : List Bytes) : Engine :=
  { e with dataSize := n, dataChunks := c }

theorem guardDataBuffer_alike (hskip : Skipping e)
    (hsame : e' = { e with
      buffer := e'.buffer, dataSize := e'.dataSize, dataChunks := e'.dataChunks }) :
    Alike (guardDataBuffer o e) (guardDataBuffer o e') := by
  have hover : e.dataOverflow = true := hskip.2
  have hstill : Skipping (guardDataBuffer o e) := by
    unfold guardDataBuffer
    split_ifs
    · exact ⟨hskip.1, rfl⟩
    · exact hskip
  refine ⟨?_, fun _ _ hs => absurd hstill hs, fun hs => absurd hstill hs⟩
  unfold guardDataBuffer
  rw [hsame]
  split_ifs <;> simp [hover]

theorem loop_regauged {e e₁ : Engine} (n : Nat) (c : List Bytes)
    (hloop : Loop h o e ts e₁) (hrun : running e = true) (hcont : e.authContinuation = none)
    (hskip : Skipping e) :
    ∃ ts' e₁', Loop h o (e.regauged n c) ts' e₁' ∧
      ts'.flatMap Turn.actions = ts.flatMap Turn.actions ∧
      (e₁' = e₁ ∨ e₁.awaiting = none ∧ Alike e₁ e₁') := by
  induction hloop with
  | stop hnot => simp [hrun] at hnot
  | @leave e _ hagain =>
    have hrun' : running (e.regauged n c) = true := hrun
    have hturn : turn h o e = turnData o e := turn_data hcont hskip.1
    have hturn' : turn h o (e.regauged n c) = turnData o (e.regauged n c) :=
      turn_data hcont hskip.1
    cases hcut : Lines.cut CR LF e.buffer with
    | some p =>
      rw [hturn, (turnData_cut hcut).1] at hagain
      cases hagain
    | none =>
      obtain ⟨hafter, hacts, -⟩ := turnData_open (o := o) hcut
      obtain ⟨hafter', hacts', hagain'⟩ := turnData_open (o := o) (e := e.regauged n c) hcut
      refine ⟨_, _, .leave hrun' (by rw [hturn', hagain']), ?_, .inr ⟨?_, ?_⟩⟩
      · simp only [List.flatMap_cons, List.flatMap_nil, hturn, hturn', hacts, hacts']
      · rw [hturn, hafter]
        have hwait := (running_iff.mp hrun).1
        unfold guardDataBuffer
        split_ifs <;> exact hwait
      · rw [hturn, hturn', hafter, hafter']
        exact guardDataBuffer_alike hskip rfl
  | @again e e₁ ts _ hagain hloop ih =>
    have hrun' : running (e.regauged n c) = true := hrun
    have hturn : turn h o e = turnData o e := turn_data hcont hskip.1
    have hturn' : turn h o (e.regauged n c) = turnData o (e.regauged n c) :=
      turn_data hcont hskip.1
    cases hcut : Lines.cut CR LF e.buffer with
    | none =>
      rw [hturn, (turnData_open hcut).2.2] at hagain
      cases hagain
    | some p =>
      obtain ⟨l, r⟩ := p
      obtain ⟨-, hdot, hline⟩ := turnData_cut (o := o) hcut
      obtain ⟨hagain', hdot', hline'⟩ := turnData_cut (o := o) (e := e.regauged n c) hcut
      rw [← hturn'] at hagain'
      by_cases hl : l = [DOT]
      · obtain ⟨hafter, hacts⟩ := hdot hl
        obtain ⟨hafter', hacts'⟩ := hdot' hl
        have hover : e.dataOverflow = true := hskip.2
        have hfinish : finishData { e.regauged n c with buffer := r } =
            finishData { e with buffer := r } := by
          simp [finishData, Engine.regauged, hover, resetTransaction]
        have hnext : Loop h o (turn h o (e.regauged n c)).after ts e₁ := by
          rw [hturn', hafter', hfinish, ← hafter, ← hturn]
          exact hloop
        refine ⟨_, e₁, .again hrun' hagain' hnext, ?_, .inl rfl⟩
        rw [List.flatMap_cons, List.flatMap_cons, hturn', hacts', hfinish, ← hacts, ← hturn]
      · obtain ⟨hafter, hacts⟩ := hline hl
        obtain ⟨hafter', hacts'⟩ := hline' hl
        have hover : e.dataOverflow = true := hskip.2
        have hstore : (turn h o e).after = { e with buffer := r } := by
          rw [hturn, hafter]
          simp [storeDataLine, hover]
        have hstore' : (turn h o (e.regauged n c)).after =
            ({ e with buffer := r } : Engine).regauged n c := by
          rw [hturn', hafter']
          simp [storeDataLine, Engine.regauged, hover]
        rw [hstore] at ih
        obtain ⟨ts', e₁', hloop', hacts₁, hend⟩ := ih hrun hcont hskip
        rw [← hstore'] at hloop'
        refine ⟨_, e₁', .again hrun' hagain' hloop', ?_, hend⟩
        rw [List.flatMap_cons, List.flatMap_cons, hturn', hacts', hturn, hacts, hacts₁]

theorem prepare_none (hc : c.isAnswer = true) (hwait : e.awaiting = none) :
    prepare h c e = none := by
  cases c <;> simp [Call.isAnswer, prepare, hwait] at hc ⊢

theorem flow_regauged {e e₁ : Engine} (n : Nat)
    (c : List Bytes) (hflow : Flow h o e cs acts e₁) (hrun : running e = true)
    (hcont : e.authContinuation = none) (hskip : Skipping e) :
    ∃ e₁', Flow h o (e.regauged n c) cs acts e₁' ∧ Alike e₁ e₁' := by
  cases hflow with
  | rest hloop =>
    obtain ⟨ts', e₁', hloop', hacts, hend⟩ := loop_regauged n c hloop hrun hcont hskip
    rw [← hacts]
    refine ⟨e₁', .rest hloop', ?_⟩
    rcases hend with rfl | ⟨-, halike⟩
    · exact .refl _
    · exact halike
  | answer hloop hc hp hflow =>
    obtain ⟨ts', e₁', hloop', hacts, hend⟩ := loop_regauged n c hloop hrun hcont hskip
    rcases hend with rfl | ⟨hwait, -⟩
    · rw [← hacts]
      exact ⟨e₁, .answer hloop' hc hp hflow, .refl _⟩
    · rw [prepare_none hc hwait] at hp
      cases hp

theorem flow_push (hrun : running e = true) (hagain : (turn h o e).again = true)
    (hflow : Flow h o (turn h o e).after cs acts e') :
    Flow h o e cs ((turn h o e).actions ++ acts) e' := by
  cases hflow with
  | rest hloop =>
    rw [← List.flatMap_cons]
    exact .rest (.again hrun hagain hloop)
  | answer hloop hc hp hflow =>
    rw [← List.append_assoc, ← List.flatMap_cons]
    exact .answer (.again hrun hagain hloop) hc hp hflow

theorem flow_peel (hrun : running e = true) (hagain : (turn h o e).again = true)
    (hflow : Flow h o e cs acts e') :
    ∃ acts', acts = (turn h o e).actions ++ acts' ∧ Flow h o (turn h o e).after cs acts' e' := by
  have hpeel {ts : List Turn} {e₁ : Engine} (hloop : Loop h o e ts e₁) :
      ∃ ts', ts = turn h o e :: ts' ∧ Loop h o (turn h o e).after ts' e₁ := by
    cases hloop with
    | stop hnot => simp [hrun] at hnot
    | leave _ hleave => simp [hagain] at hleave
    | again _ _ hloop => exact ⟨_, rfl, hloop⟩
  cases hflow with
  | rest hloop =>
    obtain ⟨ts', rfl, hloop'⟩ := hpeel hloop
    exact ⟨_, List.flatMap_cons, .rest hloop'⟩
  | answer hloop hc hp hflow =>
    obtain ⟨ts', rfl, hloop'⟩ := hpeel hloop
    refine ⟨_, ?_, .answer hloop' hc hp hflow⟩
    rw [List.flatMap_cons, List.append_assoc]

theorem flow_leave (hrun : running e = true) (hagain : (turn h o e).again = false)
    (hwait : (turn h o e).after.awaiting = none) (hflow : Flow h o e cs acts e') :
    cs = [] ∧ acts = (turn h o e).actions ∧ e' = (turn h o e).after := by
  have hleave {ts : List Turn} {e₁ : Engine} (hloop : Loop h o e ts e₁) :
      ts = [turn h o e] ∧ e₁ = (turn h o e).after := by
    cases hloop with
    | stop hnot => simp [hrun] at hnot
    | leave _ _ => exact ⟨rfl, rfl⟩
    | again _ hyes _ => simp [hagain] at hyes
  cases hflow with
  | rest hloop =>
    obtain ⟨rfl, rfl⟩ := hleave hloop
    exact ⟨rfl, by simp, rfl⟩
  | answer hloop hc hp hflow =>
    obtain ⟨rfl, rfl⟩ := hleave hloop
    rw [prepare_none hc hwait] at hp
    cases hp

theorem flow_of_leave (hrun : running e = true) (hagain : (turn h o e).again = false)
    (hacts : (turn h o e).actions = []) : Flow h o e [] [] (turn h o e).after := by
  have hflow : Flow h o e [] _ _ := .rest (.leave hrun hagain)
  simpa [hacts] using hflow

theorem storeDataLine_cut {left x l r : Bytes}
    (hcut : Lines.cut CR LF (left ++ x) = some (l, r)) (hopen : Lines.cut CR LF left = none)
    (hfull : o.maxSizeBytes < e.dataSize + left.length) :
    ∃ n c, storeDataLine o l e = { e with dataOverflow := true, dataSize := n, dataChunks := c } := by
  have hlen : left.length ≤ l.length + 1 := by
    by_contra hlong
    have heq := Lines.eq_of_cut hcut
    have hpre : left = l ++ CR :: LF :: left.drop (l.length + 2) := by
      have htake := congrArg (List.take left.length) heq
      rw [List.take_left] at htake
      rw [htake, List.take_append, List.take_of_length_le (by omega)]
      obtain ⟨m, hm⟩ : ∃ m, left.length - l.length = m + 2 := ⟨left.length - l.length - 2, by omega⟩
      rw [hm, List.take_succ_cons, List.take_succ_cons]
      simp
    have hsome : (Lines.cut CR LF (l ++ CR :: LF :: left.drop (l.length + 2))).isSome :=
      Lines.cut_isSome l _
    rw [← hpre, hopen] at hsome
    cases hsome
  have hcontent : l.length ≤ (unstuff l).length + 1 := by
    cases l with
    | nil => simp
    | cons c l =>
      simp only [unstuff]
      split_ifs <;> simp
  unfold storeDataLine
  split_ifs with hover
  · exact ⟨e.dataSize, e.dataChunks, by rw [← hover]⟩
  · dsimp only
    rw [if_pos (by omega)]
    exact ⟨e.dataSize, [], rfl⟩

def Engine.cutShort (e : Engine) : Engine :=
  { e with dataOverflow := true, dataChunks := [], dataSize := 0, buffer := keptTail e.buffer }

theorem flow_cut (hrun : running e = true) (hcont : e.authContinuation = none)
    (hstate : e.state = .data)
    (hopen : Lines.cut CR LF e.buffer = none)
    (hsize : o.maxSizeBytes < e.dataSize + e.buffer.length) (hb : ¬StartsWithDot (e.buffer ++ x))
    (hk : ¬StartsWithDot (keptTail e.buffer ++ x))
    (hflow : Flow h o (e.cutShort.plus x) cs acts e') :
    ∃ e'', Flow h o (e.plus x) cs acts e'' ∧ Alike e' e'' := by
  have hrun₁ : running (e.cutShort.plus x) = true := hrun
  have hrun₂ : running (e.plus x) = true := hrun
  have hturn₁ : turn h o (e.cutShort.plus x) = turnData o (e.cutShort.plus x) :=
    turn_data hcont hstate
  have hturn₂ : turn h o (e.plus x) = turnData o (e.plus x) := turn_data hcont hstate
  obtain ⟨front, -, hcut⟩ := cut_after_drop hopen
  specialize hcut x
  cases hcut₁ : Lines.cut CR LF (keptTail e.buffer ++ x) with
  | none =>
    rw [hcut₁, Option.map_none] at hcut
    obtain ⟨hafter₁, hacts₁, hagain₁⟩ := turnData_open (o := o) (e := e.cutShort.plus x) hcut₁
    obtain ⟨hafter₂, hacts₂, hagain₂⟩ := turnData_open (o := o) (e := e.plus x) hcut
    rw [← hturn₁] at hafter₁ hacts₁ hagain₁
    rw [← hturn₂] at hafter₂ hacts₂ hagain₂
    have hstill : Skipping (guardDataBuffer o (e.cutShort.plus x)) := by
      unfold guardDataBuffer
      split_ifs <;> exact ⟨hstate, rfl⟩
    have hwait : (turn h o (e.cutShort.plus x)).after.awaiting = none := by
      rw [hafter₁]
      unfold guardDataBuffer
      split_ifs <;> exact (running_iff.mp hrun).1
    obtain ⟨rfl, rfl, rfl⟩ := flow_leave hrun₁ hagain₁ hwait hflow
    rw [hacts₁, hafter₁]
    refine ⟨_, flow_of_leave hrun₂ hagain₂ hacts₂, ?_⟩
    rw [hafter₂]
    have hfull : dataBufferFull o (e.plus x) = true := by
      have hlen : (e.plus x).buffer.length = e.buffer.length + x.length := List.length_append
      simp only [dataBufferFull, Bool.or_eq_true, decide_eq_true_eq, hlen]
      right
      change o.maxSizeBytes < e.dataSize + _
      omega
    refine ⟨?_, fun _ _ hs => absurd hstill hs, fun hs => absurd hstill hs⟩
    rw [guardDataBuffer, if_pos hfull]
    unfold guardDataBuffer
    split_ifs <;> rfl
  | some p =>
    obtain ⟨l, r⟩ := p
    rw [hcut₁, Option.map_some] at hcut
    have hl : l ≠ [DOT] := by
      rintro rfl
      simp [StartsWithDot, hcut₁] at hk
    have hl' : front ++ l ≠ [DOT] := by
      intro heq
      simp [StartsWithDot, hcut, heq] at hb
    obtain ⟨hagain₁, -, hline₁⟩ := turnData_cut (o := o) (e := e.cutShort.plus x) hcut₁
    obtain ⟨hagain₂, -, hline₂⟩ := turnData_cut (o := o) (e := e.plus x) hcut
    obtain ⟨hafter₁, hacts₁⟩ := hline₁ hl
    obtain ⟨hafter₂, hacts₂⟩ := hline₂ hl'
    rw [← hturn₁] at hagain₁ hafter₁ hacts₁
    rw [← hturn₂] at hagain₂ hafter₂ hacts₂
    obtain ⟨acts', rfl, hflow'⟩ := flow_peel hrun₁ hagain₁ hflow
    have hstore₁ : (turn h o (e.cutShort.plus x)).after = { e.cutShort with buffer := r } := by
      rw [hafter₁]
      simp [storeDataLine, Engine.cutShort, Engine.plus]
    have hstore₂ : ∃ n c, (turn h o (e.plus x)).after =
        ({ e.cutShort with buffer := r } : Engine).regauged n c := by
      rw [hafter₂]
      exact storeDataLine_cut (e := { e with buffer := r }) hcut hopen hsize
    obtain ⟨n, c, hstore₂⟩ := hstore₂
    rw [hstore₁] at hflow'
    obtain ⟨e'', hflow'', halike⟩ := flow_regauged n c hflow' hrun hcont ⟨hstate, rfl⟩
    rw [← hstore₂] at hflow''
    have hpush := flow_push hrun₂ hagain₂ hflow''
    rw [hacts₂] at hpush
    rw [hacts₁]
    exact ⟨e'', hpush, halike⟩

@[simp] theorem plus_nil (e : Engine) : e.plus [] = e := by simp [Engine.plus]

theorem plus_plus (e : Engine) (x y : Bytes) : (e.plus x).plus y = e.plus (x ++ y) := by
  simp [Engine.plus]

theorem turnBdat_more (hpos : 0 < e.bdatRemaining) (hbuf : e.buffer ≠ [])
    (hmore : 0 < (takeChunk e).bdatRemaining) :
    (turnBdat e).after = takeChunk e ∧ (turnBdat e).actions = [] ∧ (turnBdat e).again = false := by
  unfold turnBdat
  rw [if_pos hpos, if_neg hbuf, if_pos hmore]
  exact ⟨rfl, rfl, rfl⟩

theorem turnBdat_last (hpos : 0 < e.bdatRemaining) (hbuf : e.buffer ≠ [])
    (hlast : ¬0 < (takeChunk e).bdatRemaining) :
    (turnBdat e).after = (finishChunk (takeChunk e)).1 ∧
      (turnBdat e).actions = (finishChunk (takeChunk e)).2 ∧ (turnBdat e).again = true := by
  unfold turnBdat
  rw [if_pos hpos, if_neg hbuf, if_neg hlast]
  exact ⟨rfl, rfl, rfl⟩

theorem takeChunk_twice (hexact : e.bdatRemaining ≤ 2 ^ 53)
    (hpart : e.buffer.length < e.bdatRemaining) (x : Bytes) :
    Same h [] (takeChunk ((takeChunk e).plus x)) (takeChunk (e.plus x)) := by
  have hmin : min e.bdatRemaining e.buffer.length = e.buffer.length := by omega
  have hfirst : takeChunk e = { e with
      buffer := [], bdatRemaining := e.bdatRemaining - e.buffer.length
      dataChunks := if e.dataOverflow then e.dataChunks else e.dataChunks ++ [e.buffer]
      dataSize := if e.dataOverflow then e.dataSize else e.dataSize + e.buffer.length } := by
    simp only [takeChunk, chunkBytes, hmin, List.drop_length, List.take_length]
    rw [roundInt_of_le (by omega)]
  rw [hfirst]
  generalize htake : min (e.bdatRemaining - e.buffer.length) x.length = m
  have htake' : min e.bdatRemaining (e.buffer ++ x).length = e.buffer.length + m := by
    rw [List.length_append]
    omega
  have hround : roundInt (e.bdatRemaining - e.buffer.length - m) =
      roundInt (e.bdatRemaining - (e.buffer.length + m)) := by
    rw [Nat.sub_sub]
  simp only [takeChunk, chunkBytes, Engine.plus, List.nil_append, htake, htake', hround,
    List.drop_append, List.take_append, Nat.add_sub_cancel_left, List.take_of_length_le
      (Nat.le_add_right e.buffer.length m), List.drop_of_length_le (Nat.le_add_right e.buffer.length m)]
  refine ⟨?_, fun _ _ => (List.append_nil _).symm, ?_, fun _ => rfl, fun _ => rfl⟩
  · cases e.dataOverflow <;> simp [Nat.add_assoc]
  · cases e.dataOverflow <;> simp

theorem flow_chunk (hrun : running e = true) (hcont : e.authContinuation = none)
    (hstate : e.state = .bdat)
    (hexact : e.bdatRemaining ≤ 2 ^ 53) (hbuf : e.buffer ≠ [])
    (hmore : 0 < (takeChunk e).bdatRemaining)
    (hflow : Flow h o ((takeChunk e).plus x) cs acts e') :
    ∃ e'', Flow h o (e.plus x) cs acts e'' ∧ Alike e' e'' := by
  have hpart : e.buffer.length < e.bdatRemaining := by
    by_contra hle
    have hzero : e.bdatRemaining - min e.bdatRemaining e.buffer.length = 0 := by omega
    simp [takeChunk, hzero] at hmore
  have hpos : 0 < e.bdatRemaining := by omega
  have hrun₁ : running ((takeChunk e).plus x) = true := hrun
  have hrun₂ : running (e.plus x) = true := hrun
  have hturn₁ : turn h o ((takeChunk e).plus x) = turnBdat ((takeChunk e).plus x) :=
    turn_bdat hcont hstate
  have hturn₂ : turn h o (e.plus x) = turnBdat (e.plus x) := turn_bdat hcont hstate
  have hempty : (takeChunk e).buffer = [] := by
    simp only [takeChunk]
    rw [List.drop_eq_nil_iff]
    omega
  have hwait := (running_iff.mp hrun).1
  by_cases hx : x = []
  · subst hx
    rw [plus_nil] at hflow hturn₁ hrun₁ ⊢
    have hnothing : turnBdat (takeChunk e) = ⟨takeChunk e, takeChunk e, [], .nothing, false⟩ := by
      unfold turnBdat
      rw [if_pos hmore, if_pos hempty]
    rw [hnothing] at hturn₁
    have hend := flow_leave hrun₁ (by rw [hturn₁]) (by rw [hturn₁]; exact hwait) hflow
    rw [hturn₁] at hend
    obtain ⟨rfl, rfl, rfl⟩ := hend
    rw [plus_nil] at hturn₂ hrun₂
    obtain ⟨hafter, hacts, hagain⟩ := turnBdat_more hpos hbuf hmore
    rw [← hturn₂] at hafter hacts hagain
    refine ⟨takeChunk e, ?_, .refl _⟩
    have hleave := flow_of_leave hrun₂ hagain hacts
    rwa [hafter] at hleave
  · have ht : Same h [] (takeChunk ((takeChunk e).plus x)) (takeChunk (e.plus x)) :=
      takeChunk_twice hexact hpart x
    have hrem : (takeChunk (e.plus x)).bdatRemaining =
        (takeChunk ((takeChunk e).plus x)).bdatRemaining := (ht.fields (.inl trivial)).2.2.2.1
    have hbuf₁ : ((takeChunk e).plus x).buffer ≠ [] := by simp [Engine.plus, hx]
    have hbuf₂ : (e.plus x).buffer ≠ [] := by simp [Engine.plus, hx]
    by_cases hrest : 0 < (takeChunk ((takeChunk e).plus x)).bdatRemaining
    · obtain ⟨hafter₁, hacts₁, hagain₁⟩ := turnBdat_more (e := (takeChunk e).plus x) hmore hbuf₁ hrest
      obtain ⟨hafter₂, hacts₂, hagain₂⟩ := turnBdat_more (e := e.plus x) hpos hbuf₂ (hrem ▸ hrest)
      rw [← hturn₁] at hafter₁ hacts₁ hagain₁
      rw [← hturn₂] at hafter₂ hacts₂ hagain₂
      obtain ⟨rfl, rfl, rfl⟩ := flow_leave hrun₁ hagain₁ (by rw [hafter₁]; exact hwait) hflow
      rw [hacts₁, hafter₁]
      refine ⟨_, flow_of_leave hrun₂ hagain₂ hacts₂, ?_⟩
      rw [hafter₂]
      exact ht.alike
    · obtain ⟨hafter₁, hacts₁, hagain₁⟩ := turnBdat_last (e := (takeChunk e).plus x) hmore hbuf₁ hrest
      obtain ⟨hafter₂, hacts₂, hagain₂⟩ := turnBdat_last (e := e.plus x) hpos hbuf₂ (hrem ▸ hrest)
      rw [← hturn₁] at hafter₁ hacts₁ hagain₁
      rw [← hturn₂] at hafter₂ hacts₂ hagain₂
      obtain ⟨acts', rfl, hflow'⟩ := flow_peel hrun₁ hagain₁ hflow
      have hne : (takeChunk ((takeChunk e).plus x)).state ≠ .init := by
        change e.state ≠ .init
        simp [hstate]
      have hfinish := finishChunk_twin ht hwait hne
      rw [hafter₁] at hflow'
      obtain ⟨e'', hflow'', hsame⟩ := flow_same hfinish.twin hflow'
      rw [← hafter₂] at hflow''
      have hpush := flow_push hrun₂ hagain₂ hflow''
      rw [hacts₂, hfinish.actions, ← hacts₁] at hpush
      exact ⟨e'', hpush, hsame.alike⟩

/-- An unfinished line is thrown away only in a message that is over size, within the
limit for a line, and neither it nor what is left of it is the end of the message. -/
def CutOk (x : Bytes) (t : Turn) : Prop :=
  ∀ bytes kept, t.consumed = .dropped bytes kept →
    t.before.authContinuation = none ∧ t.before.state = .data ∧ bytes.length ≤ maxDataLine ∧
      ¬StartsWithDot (bytes ++ x) ∧ ¬StartsWithDot (kept ++ x)

/-- No limit of one pass acts, when the bytes `x` are still to come. -/
def Unlimited (x : Bytes) (t : Turn) : Prop := CutOk x t ∧ t.before.bdatRemaining ≤ 2 ^ 53

/-- A pass that finds its line or chunk incomplete. -/
inductive Leaves (o : Options) (e : Engine) (t : Turn) : Prop
  | nothing (hafter : t.after = e) (hacts : t.actions = [])
  | line (hcut : ∃ bytes, t.consumed = .dropped bytes [])
      (hcommand : e.authContinuation ≠ none ∨ e.state ≠ .data)
  | data (hcont : e.authContinuation = none) (hstate : e.state = .data)
      (hopen : Lines.cut CR LF e.buffer = none) (hfull : dataBufferFull o e = true)
      (hcut : t.consumed = .dropped e.buffer (keptTail e.buffer)) (hafter : t.after = e.cutShort)
      (hacts : t.actions = [])
  | chunk (hcont : e.authContinuation = none) (hstate : e.state = .bdat) (hbuf : e.buffer ≠ [])
      (hmore : 0 < (takeChunk e).bdatRemaining) (hafter : t.after = takeChunk e)
      (hacts : t.actions = [])

theorem turn_leaves (hagain : (turn h o e).again = false) :
    Leaves o e (turn h o e) := by
  cases hc : e.authContinuation with
  | some cont =>
    rw [turn_auth hc] at hagain ⊢
    unfold turnAuth at hagain ⊢
    cases hi : indexOfCRLF e.buffer with
    | some i => simp [hi] at hagain
    | none =>
      dsimp only
      split_ifs
      · exact .line ⟨_, rfl⟩ (.inl (by simp [hc]))
      · exact .nothing rfl rfl
  | none =>
    by_cases hd : e.state = .data
    · rw [turn_data hc hd] at hagain ⊢
      unfold turnData at hagain ⊢
      cases hi : indexOfCRLF e.buffer with
      | some i =>
        rw [hi] at hagain
        dsimp only at hagain
        split_ifs at hagain
      | none =>
        dsimp only
        cases hfull : dataBufferFull o e with
        | true => exact .data hc hd (cut_of_no_index hi) hfull rfl (if_pos hfull) rfl
        | false => exact .nothing (if_neg (by simp [hfull])) rfl
    by_cases hb : e.state = .bdat
    · rw [turn_bdat hc hb] at hagain ⊢
      unfold turnBdat at hagain ⊢
      split_ifs at hagain ⊢ with hpos hempty hmore
      · exact .nothing rfl rfl
      · exact .chunk hc hb hempty hmore rfl rfl
    · rw [turn_command hc hd hb] at hagain ⊢
      unfold turnCommand at hagain ⊢
      cases hi : indexOfCRLF e.buffer with
      | some i => simp [hi] at hagain
      | none =>
        dsimp only
        split_ifs
        · exact .line ⟨_, rfl⟩ (.inr hd)
        · exact .nothing rfl rfl

theorem flow_of_loop {e e₁ e' : Engine} (hloop : Loop h o e ts e₁) (hok : ∀ t ∈ ts, Unlimited x t)
    (hflow : Flow h o (e₁.plus x) cs acts e') :
    ∃ e'', Flow h o (e.plus x) cs (ts.flatMap Turn.actions ++ acts) e'' ∧ Alike e' e'' := by
  induction hloop with
  | stop hrun => exact ⟨e', hflow, .refl e'⟩
  | @leave e hrun hagain =>
    obtain ⟨hcut, hexact⟩ := hok (turn h o e) (by simp)
    unfold CutOk at hcut
    rw [turn_before] at hcut hexact
    rw [List.flatMap_cons, List.flatMap_nil, List.append_nil]
    cases turn_leaves hagain with
    | nothing hafter hacts =>
      rw [hafter] at hflow
      rw [hacts]
      exact ⟨e', hflow, .refl e'⟩
    | line hdropped hcommand =>
      obtain ⟨bytes, hbytes⟩ := hdropped
      obtain ⟨hcont, hstate, -⟩ := hcut bytes [] hbytes
      rcases hcommand with hne | hne
      · exact absurd hcont hne
      · exact absurd hstate hne
    | data hcont hstate hopen hfull hdropped hafter hacts =>
      obtain ⟨-, -, hshort, hb, hk⟩ := hcut _ _ hdropped
      have hsize : o.maxSizeBytes < e.dataSize + e.buffer.length := by
        simp only [dataBufferFull, Bool.or_eq_true, decide_eq_true_eq] at hfull
        omega
      rw [hafter] at hflow
      rw [hacts]
      exact flow_cut hrun hcont hstate hopen hsize hb hk hflow
    | chunk hcont hstate hbuf hmore hafter hacts =>
      rw [hafter] at hflow
      rw [hacts]
      exact flow_chunk hrun hcont hstate hexact hbuf hmore hflow
  | @again e e₁ ts hrun hagain hloop ih =>
    obtain ⟨e₂, hflow₂, halike₂⟩ := ih (fun t ht => hok t (by simp [ht])) hflow
    have hturn := turn_twin (o := o) (same_plus (h := h) e x) hrun (.inr hagain)
    obtain ⟨e₃, hflow₃, hsame⟩ := flow_same hturn.twin.plus hflow₂
    have hpush := flow_push (e := e.plus x) hrun (hturn.again.trans hagain) hflow₃
    rw [List.flatMap_cons, List.append_assoc, ← hturn.actions]
    exact ⟨e₃, hpush, halike₂.trans hsame.alike⟩

def fed (calls : List Call) : Bytes :=
  calls.flatMap fun
    | .feed chunk => chunk
    | _ => []

def answers (calls : List Call) : List Call := calls.filter Call.isAnswer

variable (h o) in
/-- No limit that is applied call by call acts in the run: too many errors, too much
pipelined behind a question, or an unfinished line that is too long. -/
def Calm (e : Engine) : List Call → Prop
  | [] => True
  | c :: cs => ∀ r, call h o c e = some r →
      (∀ t ∈ r.turns, Unlimited (fed cs) t) ∧
      r.engine.errorCount ≤ maxSmtpErrorsPerSession ∧ r.engine.pendingOverflow = false ∧
      Calm r.engine cs

theorem guardErrors_calm (hcount : (guardErrors e acts).1.errorCount ≤ maxSmtpErrorsPerSession) :
    (guardErrors e acts).2 = acts ∧ Same h [] e (guardErrors e acts).1 := by
  unfold guardErrors at hcount ⊢
  split_ifs at hcount ⊢ with hclosed
  · exact ⟨rfl, .refl e⟩
  · dsimp only at hcount ⊢
    split_ifs at hcount ⊢ with hle
    · exact ⟨rfl, rfl, fun _ _ => (List.append_nil _).symm, rfl, fun _ => rfl, fun _ => rfl⟩
    · exact absurd hcount hle

variable (h o) in
def Rested (e : Engine) : Prop := ∃ e₁, Flow h o e [] [] e₁ ∧ Alike e e₁

theorem rested_of_stop (hrun : running e = false) : Rested h o e :=
  ⟨e, .rest (.stop hrun), .refl e⟩

theorem Rested.same (hrest : Rested h o e) (ht : Same h [] e e') :
    Rested h o e' := by
  obtain ⟨e₁, hflow, halike⟩ := hrest
  obtain ⟨e₂, hflow', ht'⟩ := flow_same ht hflow
  exact ⟨e₂, hflow', ht.alike.symm.trans (halike.trans ht'.alike)⟩

theorem rested_of_leave (hrun : running e = true)
    (hagain : (turn h o e).again = false) (hacts : (turn h o e).actions = [])
    (halike : Alike e (turn h o e).after) : Rested h o e :=
  ⟨_, flow_of_leave hrun hagain hacts, halike⟩

theorem loop_rested {e e₁ : Engine} (hloop : Loop h o e ts e₁)
    (hok : ∀ t ∈ ts, Unlimited x t) : Rested h o e₁ := by
  induction hloop with
  | stop hrun => exact rested_of_stop hrun
  | again hrun hagain hloop ih => exact ih fun t ht => hok t (by simp [ht])
  | @leave e hrun hagain =>
    obtain ⟨hcut, -⟩ := hok (turn h o e) (by simp)
    unfold CutOk at hcut
    rw [turn_before] at hcut
    cases turn_leaves hagain with
    | nothing hafter hacts =>
      rw [hafter]
      exact rested_of_leave hrun hagain hacts (by rw [hafter]; exact .refl e)
    | line hdropped hcommand =>
      obtain ⟨bytes, hbytes⟩ := hdropped
      obtain ⟨hcont, hstate, -⟩ := hcut bytes [] hbytes
      rcases hcommand with hne | hne
      · exact absurd hcont hne
      · exact absurd hstate hne
    | data hcont hstate hopen hfull hdropped hafter hacts =>
      rw [hafter]
      have hskip : Skipping e.cutShort := ⟨hstate, rfl⟩
      have hturn : turn h o e.cutShort = turnData o e.cutShort := turn_data hcont hstate
      obtain ⟨hafter', hacts', hagain'⟩ :=
        turnData_open (o := o) (e := e.cutShort) (keptTail_open e.buffer)
      rw [← hturn] at hafter' hacts' hagain'
      refine rested_of_leave hrun hagain' hacts' ?_
      rw [hafter']
      refine ⟨?_, fun _ _ hs => absurd hskip hs, fun hs => absurd hskip hs⟩
      unfold guardDataBuffer
      split_ifs <;> rfl
    | chunk hcont hstate hbuf hmore hafter hacts =>
      rw [hafter]
      have hempty : (takeChunk e).buffer = [] := by
        by_contra hne
        have hlen : e.bdatRemaining ≤ e.buffer.length := by
          simp only [takeChunk, List.drop_eq_nil_iff] at hne
          omega
        have hzero : e.bdatRemaining - min e.bdatRemaining e.buffer.length = 0 := by omega
        simp [takeChunk, hzero] at hmore
      have hturn : turn h o (takeChunk e) = ⟨takeChunk e, takeChunk e, [], .nothing, false⟩ := by
        rw [turn_bdat (h := h) (o := o) (e := takeChunk e) hcont hstate]
        unfold turnBdat
        rw [if_pos hmore, if_pos hempty]
      refine rested_of_leave hrun (by rw [hturn]) (by rw [hturn]) ?_
      rw [hturn]
      exact .refl _

theorem flow_of_resume {p : Engine}
    {rest : List SmtpAction} {e₁ : Engine} (hover : p.pendingOverflow = false)
    (hok : ∀ t ∈ (resume h o p acts).turns, Unlimited x t)
    (hcount : (resume h o p acts).engine.errorCount ≤ maxSmtpErrorsPerSession)
    (hflow : Flow h o ((resume h o p acts).engine.plus x) cs rest e₁) :
    ∃ later e₂, (resume h o p acts).actions = acts ++ later ∧
      Flow h o (p.plus x) cs (later ++ rest) e₂ ∧ Alike e₁ e₂ := by
  have hloop := pump_loop (h := h) (o := o) hover
  obtain ⟨hacts, hsame⟩ := guardErrors_calm (h := h) hcount
  have hplus : Same h [] ((resume h o p acts).engine.plus x) ((pump h o p).engine.plus x) := by
    have hback := hsame.symm
    refine ⟨?_, fun hopen hwait => ?_, hback.content, hback.envelope, hback.nonce⟩
    · have heq := hback.same
      exact congrArg (Engine.plus · x) heq
    · have hbuf := hback.buffer hopen hwait
      rw [List.append_nil] at hbuf ⊢
      exact congrArg (· ++ x) hbuf
  obtain ⟨e₂, hflow₂, hsame₂⟩ := flow_same hplus hflow
  obtain ⟨e₃, hflow₃, halike⟩ := flow_of_loop hloop hok hflow₂
  refine ⟨(pump h o p).turns.flatMap Turn.actions, e₃, ?_, hflow₃, hsame₂.alike.trans halike⟩
  rw [← pump_actions hover]
  exact hacts

theorem resume_rested {p : Engine}
    (hover : p.pendingOverflow = false) (hok : ∀ t ∈ (resume h o p acts).turns, Unlimited x t)
    (hcount : (resume h o p acts).engine.errorCount ≤ maxSmtpErrorsPerSession) :
    Rested h o (resume h o p acts).engine :=
  (loop_rested (pump_loop (h := h) (o := o) hover) hok).same (guardErrors_calm hcount).2

theorem fed_cons_answer (hc : c.isAnswer = true) (cs : List Call) :
    fed (c :: cs) = fed cs ∧ answers (c :: cs) = c :: answers cs := by
  refine ⟨?_, List.filter_cons_of_pos hc⟩
  cases c <;> first
    | rfl
    | cases hc

theorem prepare_answer (hc : c.isAnswer = true)
    (hp : prepare h c e = some p) (hover : e.pendingOverflow = false) :
    p.loops = true ∧ p.engine.pendingOverflow = false := by
  constructor
  · cases c <;> simp [Call.isAnswer, prepare] at hc hp
    all_goals
      obtain ⟨-, rfl⟩ := hp
      rfl
  · have heff := prepare_effect hp
    generalize p.engine = p₀ at heff
    cases heff <;> first
      | exact hover
      | rfl
      | simp [Call.isAnswer] at hc

theorem running_of_awaiting (hwait : e.awaiting ≠ none) : running e = false := by
  cases hw : e.awaiting with
  | none => exact absurd hw hwait
  | some w => simp [running, hw]

theorem call_rested (hcall : call h o c e = some r) (hup : c ≠ .tlsUpgraded)
    (hover : e.pendingOverflow = false)
    (hrested : Rested h o e) (hok : ∀ t ∈ r.turns, Unlimited x t)
    (hcount : r.engine.errorCount ≤ maxSmtpErrorsPerSession) : Rested h o r.engine := by
  obtain ⟨p, hp, rfl⟩ := prepared_of_call hcall
  cases hc : c.isAnswer with
  | true =>
    obtain ⟨hloops, hpover⟩ := prepare_answer hc hp hover
    unfold Prepared.finish at hok hcount ⊢
    rw [if_pos hloops] at hok hcount ⊢
    exact resume_rested hpover hok hcount
  | false =>
    cases c with
    | feed chunk =>
      obtain rfl := Option.some.inj hp
      unfold prepareFeed at hok hcount ⊢
      split_ifs at hok hcount ⊢ with hclosed hwait
      · exact hrested
      · exact rested_of_stop (running_of_awaiting (Option.isSome_iff_ne_none.mp hwait))
      · exact rested_of_stop (running_of_awaiting (Option.isSome_iff_ne_none.mp hwait))
      · have hpover : (e.plus chunk).pendingOverflow = false := hover
        exact resume_rested (p := e.plus chunk) hpover hok hcount
    | tlsUpgraded => exact absurd rfl hup
    | _ => cases hc

theorem flow_of_call {e e₁ : Engine}
    {rest : List SmtpAction} (hcall : call h o c e = some r) (hup : c ≠ .tlsUpgraded)
    (hover : e.pendingOverflow = false) (hok : ∀ t ∈ r.turns, Unlimited (fed cs) t)
    (hcount : r.engine.errorCount ≤ maxSmtpErrorsPerSession)
    (hover' : r.engine.pendingOverflow = false)
    (hflow : Flow h o (r.engine.plus (fed cs)) (answers cs) rest e₁) :
    ∃ e₂, Flow h o (e.plus (fed (c :: cs))) (answers (c :: cs)) (r.actions ++ rest) e₂ ∧
      Alike e₁ e₂ := by
  obtain ⟨p, hp, rfl⟩ := prepared_of_call hcall
  cases hc : c.isAnswer with
  | true =>
    obtain ⟨hfed, hans⟩ := fed_cons_answer hc cs
    obtain ⟨hloops, hpover⟩ := prepare_answer hc hp hover
    rw [hfed, hans]
    unfold Prepared.finish at hok hcount hflow ⊢
    rw [if_pos hloops] at hok hcount hflow ⊢
    obtain ⟨later, e₂, hacts, hflow₂, halike⟩ := flow_of_resume hpover hok hcount hflow
    obtain ⟨p', hp', hagree⟩ := prepare_same (same_plus e (fed cs)) hc hp
    obtain ⟨e₃, hflow₃, hsame⟩ := flow_same hagree.twin.plus hflow₂
    have hstop : running (e.plus (fed cs)) = false := by
      refine running_of_awaiting fun hnone => ?_
      rw [prepare_none hc hnone] at hp'
      cases hp'
    refine ⟨e₃, ?_, halike.trans hsame.alike⟩
    have hanswer := Flow.answer (.stop hstop) hc hp' hflow₃
    rw [hacts, List.append_assoc]
    simpa [hagree.actions] using hanswer
  | false =>
    cases c with
    | feed chunk =>
      obtain rfl := Option.some.inj hp
      have hfed : fed (.feed chunk :: cs) = chunk ++ fed cs := rfl
      have hans : answers (.feed chunk :: cs) = answers cs := rfl
      rw [hfed, hans, ← plus_plus]
      unfold prepareFeed at hok hcount hover' hflow ⊢
      by_cases hclosed : e.closed = true
      · rw [if_pos hclosed] at hflow ⊢
        have hsame : Same h [] (e.plus (fed cs)) ((e.plus chunk).plus (fed cs)) :=
          ⟨rfl, fun hopen => by
            have hc : e.closed = false := hopen
            simp [hclosed] at hc, rfl, fun _ => rfl, fun _ => rfl⟩
        obtain ⟨e₂, hflow₂, hsame₂⟩ := flow_same hsame hflow
        exact ⟨e₂, hflow₂, hsame₂.alike⟩
      rw [if_neg hclosed] at hok hcount hover' hflow ⊢
      by_cases hwait : e.awaiting.isSome = true
      · rw [if_pos hwait] at hover' hflow ⊢
        split_ifs at hover' hflow ⊢
        · cases hover'
        · exact ⟨e₁, hflow, .refl e₁⟩
      · rw [if_neg hwait] at hok hcount hflow ⊢
        have hpover : (e.plus chunk).pendingOverflow = false := hover
        obtain ⟨later, e₂, hacts, hflow₂, halike⟩ :=
          flow_of_resume (p := e.plus chunk) hpover hok hcount hflow
        refine ⟨e₂, ?_, halike⟩
        have hacts' : (resume h o (e.plus chunk) []).actions = later := hacts
        change Flow h o _ _ ((resume h o (e.plus chunk) []).actions ++ rest) e₂
        rw [hacts']
        exact hflow₂
    | tlsUpgraded => exact absurd rfl hup
    | _ => cases hc

theorem flow_of_outputs {outs : List (List SmtpAction)}
    (houts : outputs h o e calls = some (outs, e')) (hup : .tlsUpgraded ∉ calls)
    (hcalm : Calm h o e calls) (hover : e.pendingOverflow = false) (hrested : Rested h o e) :
    ∃ e'', Flow h o (e.plus (fed calls)) (answers calls) outs.flatten e'' ∧ Alike e' e'' := by
  induction calls generalizing e outs with
  | nil =>
    obtain ⟨rfl, rfl⟩ := Prod.mk.inj (Option.some.inj houts)
    obtain ⟨e₁, hflow, halike⟩ := hrested
    refine ⟨e₁, ?_, halike⟩
    have hnil : e.plus (fed []) = e := plus_nil e
    rw [hnil]
    exact hflow
  | cons c cs ih =>
    obtain ⟨r, rest, hcall, hrest, rfl⟩ := outputs_cons houts
    obtain ⟨hok, hcount, hover', hcalm'⟩ := hcalm r hcall
    rw [List.mem_cons, not_or] at hup
    have hup' : c ≠ .tlsUpgraded := fun heq => hup.1 heq.symm
    have hrested' := call_rested hcall hup' hover hrested hok hcount
    obtain ⟨e₁, hflow, halike⟩ := ih hrest hup.2 hcalm' hover' hrested'
    obtain ⟨e₂, hflow₂, halike₂⟩ := flow_of_call hcall hup' hover hok hcount hover' hflow
    exact ⟨e₂, hflow₂, halike.trans halike₂⟩

theorem rested_new (implicitTls : Bool) : Rested h o (newEngine implicitTls) := by
  have hbuf : (newEngine implicitTls).buffer = [] := by cases implicitTls <;> rfl
  have hturn : turn h o (newEngine implicitTls) =
      ⟨newEngine implicitTls, newEngine implicitTls, [], .nothing, false⟩ := by
    have hstate : (newEngine implicitTls).state = .init := by cases implicitTls <;> rfl
    rw [turn_command (by cases implicitTls <;> rfl) (by simp [hstate]) (by simp [hstate])]
    unfold turnCommand
    rw [hbuf]
    rfl
  refine rested_of_leave (by cases implicitTls <;> rfl) (by rw [hturn]) (by rw [hturn]) ?_
  rw [hturn]
  exact .refl _

theorem prepare_closed (hp : prepare h c e = some p) :
    p.engine.closed = e.closed := by
  have heff := prepare_effect hp
  generalize p.engine = p₀ at heff
  cases heff <;> rfl

theorem pump_closed (hclosed : e.closed = true) : (pump h o e).engine.closed = true := by
  cases hover : e.pendingOverflow with
  | true => simp [pump, hover]
  | false =>
    have hstop : running e = false := by simp [running, hclosed]
    obtain ⟨-, heq⟩ := loop_unique (pump_loop (h := h) (o := o) hover) (.stop hstop)
    rw [heq, hclosed]

theorem guardErrors_closed (hclosed : e.closed = true) (acts : List SmtpAction) :
    (guardErrors e acts).1.closed = true := by
  unfold guardErrors
  rw [if_pos hclosed, hclosed]

theorem call_closed (hcall : call h o c e = some r)
    (hclosed : e.closed = true) : r.engine.closed = true := by
  obtain ⟨p, hp, rfl⟩ := prepared_of_call hcall
  have hp' := (prepare_closed hp).trans hclosed
  unfold Prepared.finish
  split_ifs
  · exact guardErrors_closed (pump_closed hp') _
  · exact hp'

theorem prepare_silent (hp : prepare h c e = some p)
    (hloops : p.loops ≠ true) : p.actions = [] := by
  cases prepares hp with
  | feed chunk =>
    unfold prepareFeed
    split_ifs <;> rfl
  | tlsUpgraded =>
    rfl
  | _ => exact absurd rfl hloops

theorem call_errorCount (hcall : call h o c e = some r)
    (hclosed : r.engine.closed = false) :
    r.engine.errorCount = e.errorCount + r.actions.countP isErrorReply := by
  obtain ⟨p, hp, rfl⟩ := prepared_of_call hcall
  have hcount := prepare_errorCount hp
  unfold Prepared.finish at hclosed ⊢
  split_ifs at hclosed ⊢ with hloops
  · have hopen : (pump h o p.engine).engine.closed = false := by
      by_contra hc
      have hc' := guardErrors_closed (by simpa using hc) (p.actions ++ (pump h o p.engine).actions)
      have hfalse : (guardErrors (pump h o p.engine).engine
        (p.actions ++ (pump h o p.engine).actions)).1.closed = false := hclosed
      rw [hc'] at hfalse
      cases hfalse
    have hover : p.engine.pendingOverflow = false := by
      cases hov : p.engine.pendingOverflow with
      | false => rfl
      | true => simp [pump, hov] at hopen
    have hloop := loop_errorCount (pump_loop (h := h) (o := o) hover)
    unfold resume guardErrors at hclosed ⊢
    dsimp only at hclosed ⊢
    rw [if_neg (by simp [hopen])] at hclosed ⊢
    split_ifs at hclosed ⊢
    · dsimp only
      rw [hloop, hcount]
  · rw [prepare_silent hp hloops, hcount]
    rfl

theorem outputs_errorCount {outs : List (List SmtpAction)}
    (houts : outputs h o e calls = some (outs, e')) (hclosed : e'.closed = false) :
    e.closed = false ∧ e'.errorCount = e.errorCount + outs.flatten.countP isErrorReply := by
  induction calls generalizing e outs with
  | nil =>
    obtain ⟨rfl, rfl⟩ := Prod.mk.inj (Option.some.inj houts)
    exact ⟨hclosed, rfl⟩
  | cons c cs ih =>
    obtain ⟨r, rest, hcall, hrest, rfl⟩ := outputs_cons houts
    obtain ⟨hopen, hcount⟩ := ih hrest
    refine ⟨?_, ?_⟩
    · by_contra hc
      have := call_closed hcall (by simpa using hc)
      simp [this] at hopen
    · rw [hcount, call_errorCount hcall hopen, List.flatten_cons, List.countP_append, Nat.add_assoc]

/-- Two calm runs of the same stream and the same answers return the same actions and end
alike; an open session has counted the same errors. -/
theorem chunking_invariance {implicitTls : Bool} {calls calls' : List Call} {e e' : Engine}
    {outs outs' : List (List SmtpAction)}
    (houts : outputs h o (newEngine implicitTls) calls = some (outs, e))
    (houts' : outputs h o (newEngine implicitTls) calls' = some (outs', e'))
    (hfed : fed calls = fed calls') (hans : answers calls = answers calls')
    (hup : .tlsUpgraded ∉ calls) (hup' : .tlsUpgraded ∉ calls')
    (hcalm : Calm h o (newEngine implicitTls) calls)
    (hcalm' : Calm h o (newEngine implicitTls) calls') :
    outs.flatten = outs'.flatten ∧ Alike e e' ∧
      (e.closed = false → e'.errorCount = e.errorCount) := by
  have hover : (newEngine implicitTls).pendingOverflow = false := by cases implicitTls <;> rfl
  obtain ⟨e₁, hflow, halike⟩ := flow_of_outputs houts hup hcalm hover (rested_new implicitTls)
  obtain ⟨e₂, hflow', halike'⟩ := flow_of_outputs houts' hup' hcalm' hover (rested_new implicitTls)
  rw [hfed, hans] at hflow
  obtain ⟨hacts, rfl⟩ := flow_unique hflow hflow'
  have hends := halike.trans halike'.symm
  refine ⟨hacts, hends, fun hopen => ?_⟩
  have hclosed : e'.closed = false := by rw [hends.same, hopen]
  rw [(outputs_errorCount houts' hclosed).2, (outputs_errorCount houts hopen).2, hacts]

end

/-- A run that throws nothing away, with few errors and little pipelined. -/
def undisturbed (h : Host) (o : Options) (e : Engine) : List Call → Bool
  | [] => true
  | c :: cs =>
    match call h o c e with
    | none => true
    | some r =>
      r.turns.all (fun t =>
          (match t.consumed with
            | .dropped _ _ => false
            | _ => true) && decide (t.before.bdatRemaining ≤ 2 ^ 53)) &&
        decide (r.engine.errorCount ≤ maxSmtpErrorsPerSession) && !r.engine.pendingOverflow &&
        undisturbed h o r.engine cs

theorem calm_of_undisturbed {h : Host} {o : Options}
    (hrun : undisturbed h o e calls = true) : Calm h o e calls := by
  induction calls generalizing e with
  | nil => trivial
  | cons c cs ih =>
    intro r hcall
    simp only [undisturbed, hcall, Bool.and_eq_true, List.all_eq_true, decide_eq_true_eq,
      Bool.not_eq_true'] at hrun
    obtain ⟨⟨⟨hturns, herrors⟩, hover⟩, hrest⟩ := hrun
    refine ⟨fun t ht => ⟨fun bytes kept hdrop => ?_, (hturns t ht).2⟩, herrors, hover, ih hrest⟩
    have hkept := (hturns t ht).1
    rw [hdrop] at hkept
    cases hkept

def transactionAtOnce : List Call :=
  [.feed (bytesOf "EHLO a\r\nMAIL FROM:<b>\r\nRCPT TO:<c>\r\nDATA\r\nhi\r\n.\r\nNOOP\r\n"),
    .rcptResult (.ok ()), .deliveryResult (.ok none)]

/-- The same bytes, cut within a verb, a line end and the end of the content. -/
def transactionCut : List Call :=
  [.feed (bytesOf "EHLO a\r\nMAI"), .feed (bytesOf "L FROM:<b>\r\nRCPT TO:<c>\r"),
    .feed (bytesOf "\nDA"), .rcptResult (.ok ()), .feed (bytesOf "TA\r\nhi\r\n."),
    .feed (bytesOf "\r\nNO"), .deliveryResult (.ok none), .feed (bytesOf "OP\r\n")]

/-- A message with an answer per recipient, and a command behind it. -/
theorem chunking_invariance_transaction :
    ∃ outs outs' e e',
      outputs asciiHost txOptions (newEngine false) transactionAtOnce = some (outs, e) ∧
      outputs asciiHost txOptions (newEngine false) transactionCut = some (outs', e') ∧
      outs.length ≠ outs'.length ∧ outs.flatten.length = 8 ∧ outs.flatten = outs'.flatten := by
  have hlen : ((outputs asciiHost txOptions (newEngine false) transactionAtOnce).map
        fun r => (r.1.length, r.1.flatten.length)) = some (3, 8) ∧
      ((outputs asciiHost txOptions (newEngine false) transactionCut).map
        fun r => r.1.length) = some 8 := by
    decide +kernel
  obtain ⟨⟨outs, e⟩, houts, hcount⟩ := Option.map_eq_some_iff.mp hlen.1
  obtain ⟨⟨outs', e'⟩, houts', hcount'⟩ := Option.map_eq_some_iff.mp hlen.2
  have hsame := chunking_invariance houts houts' (by decide +kernel) rfl
    (by simp [transactionAtOnce]) (by simp [transactionCut])
    (calm_of_undisturbed (by decide +kernel)) (calm_of_undisturbed (by decide +kernel))
  obtain ⟨hcalls, hacts⟩ := Prod.mk.inj hcount
  dsimp only at hcalls hacts hcount'
  exact ⟨outs, outs', e, e', houts, houts', by omega, hacts, hsame.1⟩

/-- Two and twenty blank lines, at once and one by one. -/
theorem chunking_invariance_fails :
    ∃ outs outs' e e',
      outputs asciiHost txOptions (newEngine false)
        [.feed (List.replicate 22 crlfBytes).flatten] = some (outs, e) ∧
      outputs asciiHost txOptions (newEngine false)
        (List.replicate 22 (.feed crlfBytes)) = some (outs', e') ∧
      fed [.feed (List.replicate 22 crlfBytes).flatten] = fed (List.replicate 22 (.feed crlfBytes)) ∧
      outs.flatten ≠ outs'.flatten := by
  have hlen : ((outputs asciiHost txOptions (newEngine false)
        [.feed (List.replicate 22 crlfBytes).flatten]).map fun r => r.1.flatten.length) = some 24 ∧
      ((outputs asciiHost txOptions (newEngine false)
        (List.replicate 22 (.feed crlfBytes))).map fun r => r.1.flatten.length) = some 23 := by
    decide +kernel
  obtain ⟨⟨outs, e⟩, houts, hcount⟩ := Option.map_eq_some_iff.mp hlen.1
  obtain ⟨⟨outs', e'⟩, houts', hcount'⟩ := Option.map_eq_some_iff.mp hlen.2
  refine ⟨outs, outs', e, e', houts, houts', by decide +kernel, fun heq => ?_⟩
  dsimp only at hcount hcount'
  rw [heq] at hcount
  omega

end Ionosphere.Smtp
