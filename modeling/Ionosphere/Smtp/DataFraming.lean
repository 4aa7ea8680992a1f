import Ionosphere.Smtp.Run

/-!
DATA framing. The message ends where the stream after DATA has its first line
`.` (`Lines.ending`), whatever the chunks, except for one thing: `guardDataBuffer`
forgets the open line when the buffer is full. That moves the end exactly when
the forgotten bytes decide whether the line is a lone dot.
-/

namespace Ionosphere.Smtp

open Ionosphere.Js Ionosphere.Core Ionosphere.Lib

variable {n : Nat} {e : Engine} {ts : List Turn}

variable {u : Turn} {es : List Entry} {b : Bytes}

def acceptsData (h : Host) (t : Turn) : Bool :=
  match t.consumed with
  | .command line =>
    decide ((splitVerb h.cases (utf8Decode line)).1 = "DATA".toList) && repliesWith '3' t.actions
  | _ => false

def Entry.isContent : Entry → Bool
  | .pass t =>
    match t.consumed with
    | .dataLine _ | .dropped _ _ | .nothing => true
    | _ => false
  | _ => true

/-- Where the content of `buffered` and the bytes fed in `post` ends, the engine
ends it, and nothing before is taken for a command. -/
def DataFramed (buffered : Bytes) (post : List Entry) : Prop :=
  (∃ (before : List Entry) (u : Turn) (after : List Entry),
    post = before ++ .pass u :: after ∧ before.all Entry.isContent = true ∧ u.consumed = .dataEnd ∧
    Lines.ending CR LF [DOT] (buffered ++ fedBytes post) = some (u.after.buffer ++ fedBytes after)) ∨
  (post.all Entry.isContent = true ∧
    Lines.ending CR LF [DOT] (buffered ++ fedBytes post) = none)

def StartsWithDot (s : Bytes) : Prop := (Lines.cut CR LF s).map Prod.fst = some [DOT]

/-- Whether the open line is the terminator does not depend on the bytes dropped. -/
def CutsHarmless (post : List Entry) : Prop :=
  ∀ (before : List Entry) u after bytes kept, post = before ++ .pass u :: after →
    before.all Entry.isContent = true → u.consumed = .dropped bytes kept →
    (StartsWithDot (bytes ++ fedBytes after) ↔ StartsWithDot (kept ++ fedBytes after))

/-- The engine is reading the content of a message. -/
structure InData (e : Engine) : Prop where
  state : e.state = .data
  auth : e.authContinuation = none
  awaiting : e.awaiting = none
  overflow : e.pendingOverflow = false

section

variable {h : Host} {o : Options}

theorem turnData_line {i : Nat} (hi : indexOfCRLF e.buffer = some i)
    (hdot : e.buffer.take i ≠ [DOT]) :
    turnData o e = ⟨e, storeDataLine o (e.buffer.take i) { e with buffer := e.buffer.drop (i + 2) },
      [], .dataLine (e.buffer.take i), true⟩ := by
  simp only [turnData, hi, if_neg hdot]

theorem storeDataLine_frame (line : Bytes) (e : Engine) :
    (storeDataLine o line e).buffer = e.buffer ∧ (storeDataLine o line e).state = e.state ∧
      (storeDataLine o line e).authContinuation = e.authContinuation ∧
      (storeDataLine o line e).awaiting = e.awaiting ∧
      (storeDataLine o line e).pendingOverflow = e.pendingOverflow ∧
      (storeDataLine o line e).closed = e.closed := by
  unfold storeDataLine
  dsimp only
  split_ifs <;> exact ⟨rfl, rfl, rfl, rfl, rfl, rfl⟩

theorem finishData_buffer_eq (e : Engine) : (finishData e).1.buffer = e.buffer := by
  unfold finishData
  split_ifs <;> rfl

/-- How a loop in data mode stops: at the terminator, or with an open line `left`
that is kept or, when the buffer is full, dropped. -/
inductive DataLoop (o : Options) (e : Engine) (ts : List Turn) (e' : Engine) : Prop
  | ended (lines : List Turn) (u : Turn) (later : List Turn) (hts : ts = lines ++ u :: later)
      (hlines : ∀ t ∈ lines, ∃ l, t.consumed = .dataLine l) (hu : u.consumed = .dataEnd)
      (hend : ∀ f, Lines.ending CR LF [DOT] (e.buffer ++ f) = some (u.after.buffer ++ f))
  | kept (lines : List Turn) (u : Turn) (hts : ts = lines ++ [u])
      (hlines : ∀ t ∈ lines, ∃ l, t.consumed = .dataLine l) (hu : u.consumed = .nothing)
      (hin : InData e') (hclosed : e'.closed = false) (hleft : Lines.cut CR LF e'.buffer = none)
      (hfirst : e'.buffer.length < e.buffer.length ∨ e' = e)
      (hend : ∀ f, Lines.ending CR LF [DOT] (e.buffer ++ f) =
        Lines.ending CR LF [DOT] (e'.buffer ++ f))
  | dropped (lines : List Turn) (u : Turn) (left : Bytes) (hts : ts = lines ++ [u])
      (hlines : ∀ t ∈ lines, ∃ l, t.consumed = .dataLine l)
      (hu : u.consumed = .dropped left (keptTail left))
      (hin : InData e') (hclosed : e'.closed = false) (hleft : Lines.cut CR LF left = none)
      (hbuf : e'.buffer = keptTail left) (hsize : e'.dataSize = 0)
      (hfirst : left.length < e.buffer.length ∨ (left = e.buffer ∧ dataBufferFull o e = true))
      (hend : ∀ f, Lines.ending CR LF [DOT] (e.buffer ++ f) = Lines.ending CR LF [DOT] (left ++ f))

theorem dataLoop_of_loop {e e' : Engine} (hloop : Loop h o e ts e')
    (hin : InData e) (hclosed : e.closed = false) : DataLoop o e ts e' := by
  induction hloop with
  | @stop e hrun =>
    have hrun' := running_iff.mpr ⟨hin.awaiting, hclosed⟩
    rw [hrun] at hrun'
    cases hrun'
  | @leave e hrun hagain =>
    rw [turn_data hin.auth hin.state] at hagain ⊢
    cases hi : indexOfCRLF e.buffer with
    | some i =>
      simp only [turnData, hi] at hagain
      split_ifs at hagain
    | none =>
      have hcut := cut_of_no_index hi
      simp only [turnData, hi, guardDataBuffer]
      cases hfull : dataBufferFull o e with
      | true =>
        exact .dropped [] _ e.buffer rfl (by simp) rfl
          ⟨hin.state, hin.auth, hin.awaiting, hin.overflow⟩ hclosed hcut rfl rfl
          (.inr ⟨rfl, hfull⟩) (fun f => rfl)
      | false => exact .kept [] _ rfl (by simp) rfl hin hclosed hcut (.inr rfl) (fun f => rfl)
  | @again e e' ts hrun hagain hloop ih =>
    have hturn := turn_data (h := h) (o := o) hin.auth hin.state
    cases hi : indexOfCRLF e.buffer with
    | none =>
      rw [hturn] at hagain
      simp only [turnData, hi] at hagain
      cases hagain
    | some i =>
      have hcut := cut_of_index hi
      by_cases hdot : e.buffer.take i = [DOT]
      · refine .ended [] _ ts rfl (by simp) ?_ fun f => ?_
        · rw [hturn]
          simp only [turnData, hi, if_pos hdot]
        · rw [Lines.ending_of_cut (Lines.cut_append hcut f), if_pos hdot, hturn]
          simp only [turnData, hi, if_pos hdot, finishData_buffer_eq]
      · have hline := turnData_line (o := o) hi hdot
        rw [hturn, hline] at ih
        obtain ⟨hbuf, hstate, hauth, hwait, hover, hcl⟩ :=
          storeDataLine_frame (o := o) (e.buffer.take i) { e with buffer := e.buffer.drop (i + 2) }
        have hstep (f : Bytes) : Lines.ending CR LF [DOT] (e.buffer ++ f) =
            Lines.ending CR LF [DOT] (e.buffer.drop (i + 2) ++ f) := by
          rw [Lines.ending_of_cut (Lines.cut_append hcut f), if_neg hdot]
        have hhead : ∃ l, (turn h o e).consumed = .dataLine l := by
          rw [hturn, hline]
          exact ⟨_, rfl⟩
        have hshort := length_drop_of_index hi
        have hnext := ih ⟨hstate.trans hin.state, hauth.trans hin.auth, hwait.trans hin.awaiting,
          hover.trans hin.overflow⟩ (hcl.trans hclosed)
        cases hnext with
        | ended lines u later hts hlines hu hend =>
          refine .ended (turn h o e :: lines) u later (by rw [hts]; rfl) ?_ hu fun f => ?_
          · simpa using ⟨hhead, hlines⟩
          · rw [hstep, ← hend f, hbuf]
        | kept lines u hts hlines hu hin' hcl' hleft hfirst hend =>
          refine .kept (turn h o e :: lines) u (by rw [hts]; rfl) ?_ hu hin' hcl' hleft (.inl ?_)
            (fun f => ?_)
          · simpa using ⟨hhead, hlines⟩
          · rcases hfirst with hlt | rfl
            · rw [hbuf] at hlt
              exact hlt.trans_le (by simp)
            · rw [hbuf]
              dsimp only
              omega
          · rw [hstep, ← hend f, hbuf]
        | dropped lines u left hts hlines hu hin' hcl' hleft hkept hsize hfirst hend =>
          refine .dropped (turn h o e :: lines) u left (by rw [hts]; rfl) ?_ hu hin' hcl' hleft hkept
            hsize (.inl ?_) (fun f => ?_)
          · simpa using ⟨hhead, hlines⟩
          · rcases hfirst with hlt | ⟨rfl, -⟩
            · rw [hbuf] at hlt
              exact hlt.trans_le (by simp)
            · rw [hbuf]
              dsimp only
              omega
          · rw [hstep, ← hend f, hbuf]

theorem dataEnd_not_content (hu : u.consumed = .dataEnd) :
    Entry.isContent (.pass u) = false := by
  simp only [Entry.isContent, hu]

theorem dataFramed_append {b b' : Bytes} {P es : List Entry} (hP : P.all Entry.isContent = true)
    (hend : Lines.ending CR LF [DOT] (b ++ fedBytes (P ++ es)) =
      Lines.ending CR LF [DOT] (b' ++ fedBytes es)) :
    DataFramed b (P ++ es) ↔ DataFramed b' es := by
  constructor
  · rintro (⟨before, u, after, hsplit, hbefore, hu, hframe⟩ | ⟨hall, hnone⟩)
    · rw [hend] at hframe
      rcases append_cons_cases hsplit with ⟨before', rfl, rfl⟩ | ⟨P₂, rfl, -⟩
      · rw [List.all_append, Bool.and_eq_true] at hbefore
        exact .inl ⟨before', u, after, rfl, hbefore.2, hu, hframe⟩
      · simp [dataEnd_not_content hu] at hP
    · rw [List.all_append, Bool.and_eq_true] at hall
      exact .inr ⟨hall.2, hend ▸ hnone⟩
  · rintro (⟨before, u, after, rfl, hbefore, hu, hframe⟩ | ⟨hall, hnone⟩)
    · refine .inl ⟨P ++ before, u, after, by simp, ?_, hu, hend.trans hframe⟩
      rw [List.all_append, hP, hbefore, Bool.and_true]
    · refine .inr ⟨?_, hend.trans hnone⟩
      rw [List.all_append, hP, hall, Bool.and_true]

def NoDrop (P : List Entry) : Prop :=
  ∀ t, .pass t ∈ P → ∀ bytes kept, t.consumed ≠ .dropped bytes kept

theorem cutsHarmless_append {P es : List Entry} (hP : P.all Entry.isContent = true)
    (hdrop : NoDrop P) : CutsHarmless (P ++ es) ↔ CutsHarmless es := by
  constructor
  · intro hall before u after bytes kept hes hbefore hu
    refine hall (P ++ before) u after bytes kept (by rw [hes, List.append_assoc]) ?_ hu
    rw [List.all_append, hP, hbefore, Bool.and_true]
  · intro hall before u after bytes kept hsplit hbefore hu
    rcases append_cons_cases hsplit with ⟨before', rfl, rfl⟩ | ⟨P₂, rfl, -⟩
    · rw [List.all_append, Bool.and_eq_true] at hbefore
      exact hall before' u after bytes kept rfl hbefore.2 hu
    · exact absurd hu (hdrop u (by simp) bytes kept)

theorem cutsHarmless_cons_dropped {bytes kept : Bytes}
    (hu : u.consumed = .dropped bytes kept) :
    CutsHarmless (.pass u :: es) ↔
      (StartsWithDot (bytes ++ fedBytes es) ↔ StartsWithDot (kept ++ fedBytes es)) ∧
        CutsHarmless es := by
  have hcontent : Entry.isContent (.pass u) = true := by simp only [Entry.isContent, hu]
  constructor
  · intro hall
    refine ⟨hall [] u es bytes kept rfl rfl hu, ?_⟩
    intro before v after b k hes hbefore hv
    refine hall (.pass u :: before) v after b k (by rw [hes]; rfl) ?_ hv
    rw [List.all_cons, hcontent, hbefore, Bool.and_true]
  · rintro ⟨hhead, hall⟩ before v after b k hsplit hbefore hv
    cases before with
    | nil =>
      obtain ⟨hvu, rfl⟩ := List.cons.inj hsplit
      obtain rfl := Entry.pass.inj hvu
      obtain ⟨rfl, rfl⟩ := Consumed.dropped.inj (hu.symm.trans hv)
      exact hhead
    | cons x before =>
      rw [List.all_cons, Bool.and_eq_true] at hbefore
      exact hall before v after b k (List.cons.inj hsplit).2 hbefore.2 hv

theorem passes_content (hts : ∀ t ∈ ts, ∃ l, t.consumed = .dataLine l) :
    (ts.map Entry.pass).all Entry.isContent = true ∧ NoDrop (ts.map Entry.pass) := by
  refine ⟨?_, ?_⟩
  · simp only [List.all_eq_true, List.mem_map]
    rintro x ⟨t, ht, rfl⟩
    obtain ⟨l, hl⟩ := hts t ht
    simp only [Entry.isContent, hl]
  · intro t ht bytes kept hdrop
    obtain ⟨t', ht', heq⟩ := List.mem_map.mp ht
    obtain rfl := Entry.pass.inj heq
    obtain ⟨l, hl⟩ := hts t' ht'
    rw [hl] at hdrop
    cases hdrop

theorem calls_content (calls : List Call) :
    (calls.map Entry.called).all Entry.isContent = true ∧ NoDrop (calls.map Entry.called) ∧
      fedBytes (calls.map Entry.called) = [] := by
  refine ⟨by simp [Entry.isContent], fun t ht => by simp at ht, ?_⟩
  induction calls with
  | nil => rfl
  | cons c calls ih => simpa using ih

theorem cut_after_drop {left : Bytes} (hleft : Lines.cut CR LF left = none) :
    ∃ front, left = front ++ keptTail left ∧ ∀ f, Lines.cut CR LF (left ++ f) =
      (Lines.cut CR LF (keptTail left ++ f)).map fun p => (front ++ p.1, p.2) :=
  Lines.cut_append_of_none hleft

theorem ending_of_harmless {left f : Bytes} (hleft : Lines.cut CR LF left = none)
    (hharm : StartsWithDot (left ++ f) ↔ StartsWithDot (keptTail left ++ f)) :
    Lines.ending CR LF [DOT] (left ++ f) = Lines.ending CR LF [DOT] (keptTail left ++ f) := by
  obtain ⟨front, -, hcut⟩ := cut_after_drop hleft
  specialize hcut f
  cases hk : Lines.cut CR LF (keptTail left ++ f) with
  | none =>
    rw [hk, Option.map_none] at hcut
    rw [Lines.ending_of_cut_none hcut, Lines.ending_of_cut_none hk]
  | some p =>
    obtain ⟨l, r⟩ := p
    rw [hk, Option.map_some] at hcut
    rw [Lines.ending_of_cut hcut, Lines.ending_of_cut hk]
    simp only [StartsWithDot, hcut, hk, Option.map_some, Option.some.injEq] at hharm
    simp only [hharm]

theorem harmful_cases {left f : Bytes} (hleft : Lines.cut CR LF left = none)
    (hharm : ¬(StartsWithDot (left ++ f) ↔ StartsWithDot (keptTail left ++ f))) :
    (∃ r, Lines.ending CR LF [DOT] (left ++ f) = some r ∧
      (keptTail left ++ f).length = r.length + 2) ∨
    ∃ r, keptTail left ++ f = DOT :: CR :: LF :: r ∧
      Lines.ending CR LF [DOT] (left ++ f) = Lines.ending CR LF [DOT] r := by
  obtain ⟨front, -, hcut⟩ := cut_after_drop hleft
  specialize hcut f
  cases hk : Lines.cut CR LF (keptTail left ++ f) with
  | none => simp [StartsWithDot, hcut, hk] at hharm
  | some p =>
    obtain ⟨l, r⟩ := p
    rw [hk, Option.map_some] at hcut
    simp only [StartsWithDot, hcut, hk, Option.map_some, Option.some.injEq] at hharm
    have hlen := Lines.length_of_cut hk
    rw [Lines.ending_of_cut hcut]
    by_cases hdot : l = [DOT]
    · have hfront : front ++ l ≠ [DOT] := fun hc => hharm (iff_of_true hc hdot)
      refine .inr ⟨r, ?_, by rw [if_neg hfront]⟩
      rw [Lines.eq_of_cut hk, hdot]
      rfl
    · have hfront : front ++ l = [DOT] := by
        by_contra hc
        exact hharm (iff_of_false hc hdot)
      have hl : l = [] := by
        cases l with
        | nil => rfl
        | cons a l => exact absurd (List.append_eq_singleton_iff.mp hfront) (by simp_all)
      refine .inl ⟨r, by rw [if_pos hfront], ?_⟩
      rw [hlen, hl]
      simp only [List.length_nil]
      omega

/-- The entries of a run from a point in data mode where `b` is buffered and the
content so far has size `n`: rounds of the loop, each after some intake, up to the
terminator or to the last input. -/
inductive DataRun (o : Options) : Bytes → Nat → List Entry → Prop
  | stop {b : Bytes} {n : Nat} (calls : List Call) (hb : Lines.cut CR LF b = none) :
      DataRun o b n (calls.map .called)
  | ended {b : Bytes} {n : Nat} (intake : Option Bytes) (lines : List Turn) (u : Turn)
      (later : List Entry) (hlines : ∀ t ∈ lines, ∃ l, t.consumed = .dataLine l)
      (hu : u.consumed = .dataEnd)
      (hend : ∀ f, Lines.ending CR LF [DOT] (b ++ intake.getD [] ++ f) =
        some (u.after.buffer ++ f)) :
      DataRun o b n (intake.toList.map .fed ++ lines.map .pass ++ .pass u :: later)
  | kept {b : Bytes} {n : Nat} (intake : Option Bytes) (lines : List Turn) (u : Turn)
      {left : Bytes} {n' : Nat} {rest : List Entry}
      (hlines : ∀ t ∈ lines, ∃ l, t.consumed = .dataLine l) (hu : u.consumed = .nothing)
      (hfirst : left.length < (b ++ intake.getD []).length ∨ left = b ++ intake.getD [] ∧ n' = n)
      (hend : ∀ f, Lines.ending CR LF [DOT] (b ++ intake.getD [] ++ f) =
        Lines.ending CR LF [DOT] (left ++ f)) (hrest : DataRun o left n' rest) :
      DataRun o b n (intake.toList.map .fed ++ lines.map .pass ++ .pass u :: rest)
  | dropped {b : Bytes} {n : Nat} (intake : Option Bytes) (lines : List Turn) (u : Turn)
      {left : Bytes} {rest : List Entry}
      (hlines : ∀ t ∈ lines, ∃ l, t.consumed = .dataLine l)
      (hu : u.consumed = .dropped left (keptTail left)) (hleft : Lines.cut CR LF left = none)
      (hfirst : left.length < (b ++ intake.getD []).length ∨ left = b ++ intake.getD [] ∧
        (maxDataLine < left.length ∨ o.maxSizeBytes < n + left.length))
      (hend : ∀ f, Lines.ending CR LF [DOT] (b ++ intake.getD [] ++ f) =
        Lines.ending CR LF [DOT] (left ++ f)) (hrest : DataRun o (keptTail left) 0 rest) :
      DataRun o b n (intake.toList.map .fed ++ lines.map .pass ++ .pass u :: rest)

theorem keptTail_open (left : Bytes) : Lines.cut CR LF (keptTail left) = none := by
  unfold keptTail
  split_ifs <;> decide

theorem inData_guardErrors (hin : InData e) (acts : List SmtpAction) :
    InData (guardErrors e acts).1 ∧ ((guardErrors e acts).1.closed = true ∨
      (guardErrors e acts).1.buffer = e.buffer ∧ (guardErrors e acts).1.dataSize = e.dataSize) := by
  obtain ⟨hs, ha, hw, ho⟩ := hin
  rcases guardErrors_cases e acts with heq | ⟨n, heq⟩ | ⟨n, heq⟩
  · rw [heq]
    exact ⟨⟨hs, ha, hw, ho⟩, .inr ⟨rfl, rfl⟩⟩
  · rw [heq]
    exact ⟨⟨hs, ha, hw, ho⟩, .inr ⟨rfl, rfl⟩⟩
  · rw [heq]
    exact ⟨⟨hs, ha, hw, ho⟩, .inl rfl⟩

theorem dataRun_of_loop {e e₁ : Engine} {acts : List SmtpAction}
    {rest : List Entry} (intake : Option Bytes)
    (hloop : Loop h o e ts e₁) (hin : InData e) (hclosed : e.closed = false)
    (hbuf : e.buffer = b ++ intake.getD [])
    (hrest : InData (guardErrors e₁ acts).1 →
      ((guardErrors e₁ acts).1.closed = true → ∃ calls : List Call, rest = calls.map .called) ∧
      ((guardErrors e₁ acts).1.closed = false →
        Lines.cut CR LF (guardErrors e₁ acts).1.buffer = none →
        DataRun o (guardErrors e₁ acts).1.buffer (guardErrors e₁ acts).1.dataSize rest)) :
    DataRun o b e.dataSize (intake.toList.map .fed ++ (ts.map .pass ++ rest)) := by
  have hnext (hin₁ : InData e₁) (hopen : Lines.cut CR LF e₁.buffer = none) :
      DataRun o e₁.buffer e₁.dataSize rest := by
    obtain ⟨hin₂, hsame⟩ := inData_guardErrors hin₁ acts
    obtain ⟨hcl, hop⟩ := hrest hin₂
    cases hc : (guardErrors e₁ acts).1.closed with
    | true =>
      obtain ⟨calls, rfl⟩ := hcl hc
      exact .stop calls hopen
    | false =>
      rw [hc] at hsame
      obtain ⟨hb, hn⟩ := hsame.resolve_left (by simp)
      rw [hb, hn] at hop
      exact hop hc hopen
  cases dataLoop_of_loop hloop hin hclosed with
  | ended lines u later hts hlines hu hend =>
    subst hts
    rw [hbuf] at hend
    have hrun := DataRun.ended (o := o) (n := e.dataSize) intake lines u (later.map .pass ++ rest)
      hlines hu hend
    simpa using hrun
  | kept lines u hts hlines hu hin₁ hcl₁ hleft hfirst hend =>
    subst hts
    rw [hbuf] at hend hfirst
    have hrun := DataRun.kept (n := e.dataSize) intake lines u hlines hu ?_ hend
      (hnext hin₁ hleft)
    · simpa using hrun
    · rcases hfirst with hlt | rfl
      · exact .inl hlt
      · exact .inr ⟨hbuf, rfl⟩
  | dropped lines u left hts hlines hu hin₁ hcl₁ hleft hkept hsize hfirst hend =>
    subst hts
    have hnext' := hnext hin₁ (by rw [hkept]; exact keptTail_open left)
    rw [hkept, hsize] at hnext'
    rw [hbuf] at hend hfirst
    have hrun := DataRun.dropped (n := e.dataSize) intake lines u hlines hu hleft ?_ hend hnext'
    · simpa using hrun
    · rcases hfirst with hlt | ⟨rfl, hfull⟩
      · exact .inl hlt
      · refine .inr ⟨rfl, ?_⟩
        simpa [dataBufferFull, hbuf] using hfull

theorem dataRun_of_run {cs : List Call} {e e' : Engine}
    (hrun : run h o e cs = some (es, e')) (hin : InData e) (hclosed : e.closed = false)
    (hopen : Lines.cut CR LF e.buffer = none) : DataRun o e.buffer e.dataSize es := by
  induction cs generalizing e es with
  | nil =>
    obtain ⟨rfl, -⟩ := Prod.mk.inj (Option.some.inj hrun)
    exact .stop [] hopen
  | cons c cs ih =>
    obtain ⟨chunk, ts, e₁, acts, rest, rfl, hloop, hrest⟩ :=
      run_open hrun hclosed hin.awaiting hin.overflow
    refine dataRun_of_loop (e := { e with buffer := e.buffer ++ chunk }) (some chunk) hloop
      ⟨hin.state, hin.auth, hin.awaiting, hin.overflow⟩ hclosed rfl
      fun hin₂ => ⟨fun hcl => run_closed hrest hcl hin₂.awaiting, fun hcl hop => ?_⟩
    exact ih hrest hin₂ hcl hop

theorem round_content (intake : Option Bytes) {lines : List Turn}
    (hlines : ∀ t ∈ lines, ∃ l, t.consumed = .dataLine l) :
    (intake.toList.map Entry.fed ++ lines.map Entry.pass).all Entry.isContent = true ∧
      NoDrop (intake.toList.map Entry.fed ++ lines.map Entry.pass) ∧
      fedBytes (intake.toList.map Entry.fed ++ lines.map Entry.pass) = intake.getD [] := by
  obtain ⟨hall, hdrop⟩ := passes_content hlines
  refine ⟨?_, fun t ht => hdrop t ?_, ?_⟩
  · rw [List.all_append, hall, Bool.and_true]
    cases intake <;> rfl
  · cases intake <;> simpa using ht
  · rw [fedBytes_append, fedBytes_passes, List.append_nil]
    cases intake <;> simp

theorem isContent_nothing (hu : u.consumed = .nothing) :
    Entry.isContent (.pass u) = true := by
  simp only [Entry.isContent, hu]

theorem isContent_dropped {bytes kept : Bytes} (hu : u.consumed = .dropped bytes kept) :
    Entry.isContent (.pass u) = true := by
  simp only [Entry.isContent, hu]

theorem round_content_snoc (intake : Option Bytes) {lines : List Turn}
    (hlines : ∀ t ∈ lines, ∃ l, t.consumed = .dataLine l)
    (hu : Entry.isContent (.pass u) = true) :
    (intake.toList.map Entry.fed ++ lines.map Entry.pass ++ [Entry.pass u]).all Entry.isContent = true ∧
      fedBytes (intake.toList.map Entry.fed ++ lines.map Entry.pass ++ [Entry.pass u]) =
        intake.getD [] := by
  obtain ⟨hall, -, hfed⟩ := round_content intake hlines
  refine ⟨?_, ?_⟩
  · rw [List.all_append, hall, Bool.true_and, List.all_cons, hu]
    rfl
  · rw [fedBytes_append, hfed, fedBytes_cons_pass, fedBytes_nil, List.append_nil]

theorem DataRun.framed (hrun : DataRun o b n es)
    (hcuts : CutsHarmless es) : DataFramed b es := by
  induction hrun with
  | stop calls hb =>
    obtain ⟨hall, -, hfed⟩ := calls_content calls
    refine .inr ⟨hall, ?_⟩
    rw [hfed, List.append_nil]
    exact Lines.ending_of_cut_none hb
  | ended intake lines u later hlines hu hend =>
    obtain ⟨hall, -, hfed⟩ := round_content intake hlines
    refine .inl ⟨_, u, later, rfl, hall, hu, ?_⟩
    rw [fedBytes_append, hfed, fedBytes_cons_pass, ← List.append_assoc]
    exact hend _
  | kept intake lines u hlines hu hfirst hend hrest ih =>
    obtain ⟨hall, hdrop, hfed⟩ := round_content intake hlines
    have hnothing : NoDrop [Entry.pass u] := by
      intro t ht bytes kept hd
      obtain rfl := Entry.pass.inj (List.mem_singleton.mp ht)
      rw [hu] at hd
      cases hd
    rw [cutsHarmless_append hall hdrop] at hcuts
    have htail := (cutsHarmless_append (P := [Entry.pass u])
      (by simp [isContent_nothing hu]) hnothing).mp hcuts
    obtain ⟨hpre, hfed'⟩ := round_content_snoc intake hlines (isContent_nothing hu)
    rw [List.append_cons]
    refine (dataFramed_append hpre ?_).mpr (ih htail)
    rw [fedBytes_append, hfed', ← List.append_assoc]
    exact hend _
  | dropped intake lines u hlines hu hleft hfirst hend hrest ih =>
    obtain ⟨hall, hdrop, hfed⟩ := round_content intake hlines
    rw [cutsHarmless_append hall hdrop, cutsHarmless_cons_dropped hu] at hcuts
    obtain ⟨hpre, hfed'⟩ := round_content_snoc intake hlines (isContent_dropped hu)
    rw [List.append_cons]
    refine (dataFramed_append hpre ?_).mpr (ih hcuts.2)
    rw [fedBytes_append, hfed', ← List.append_assoc, hend, ending_of_harmless hleft hcuts.1]

theorem split_unique {α : Type} {p : α → Bool} {P₁ P₂ Q₁ Q₂ : List α} {x y : α}
    (heq : P₁ ++ x :: Q₁ = P₂ ++ y :: Q₂) (h₁ : P₁.all p = true) (h₂ : P₂.all p = true)
    (hx : p x = false) (hy : p y = false) : P₁ = P₂ ∧ x = y ∧ Q₁ = Q₂ := by
  rcases append_cons_cases heq with ⟨m, rfl, hm⟩ | ⟨P, rfl, -⟩
  · cases m with
    | nil =>
      obtain ⟨rfl, rfl⟩ := List.cons.inj hm
      exact ⟨by simp, rfl, rfl⟩
    | cons z m =>
      obtain ⟨rfl, -⟩ := List.cons.inj hm
      simp [hx] at h₂
  · simp [hy] at h₁

/-- The terminator takes three of the bytes the engine still had to read. -/
theorem DataRun.length_of_dataEnd (hrun : DataRun o b n es) {before after : List Entry}
    (hes : es = before ++ .pass u :: after) (hbefore : before.all Entry.isContent = true)
    (hu : u.consumed = .dataEnd) :
    (u.after.buffer ++ fedBytes after).length + 3 ≤ (b ++ fedBytes es).length := by
  induction hrun generalizing before with
  | stop calls hb =>
    have hmem : Entry.pass u ∈ calls.map Entry.called := by rw [hes]; simp
    simp at hmem
  | ended intake lines v later hlines hv hend =>
    obtain ⟨hall, -, hfed⟩ := round_content intake hlines
    obtain ⟨-, huv, rfl⟩ := split_unique hes hall hbefore (dataEnd_not_content hv)
      (dataEnd_not_content hu)
    obtain rfl := Entry.pass.inj huv
    have hlen := Lines.length_of_ending (hend (fedBytes later))
    rw [fedBytes_append, hfed, fedBytes_cons_pass, ← List.append_assoc]
    simpa using hlen
  | @kept b n intake lines v left n' rest hlines hv hfirst hend hrest ih =>
    obtain ⟨hpre, hfed⟩ := round_content_snoc intake hlines (isContent_nothing hv)
    rw [List.append_cons] at hes
    rcases append_cons_cases hes with ⟨m, rfl, hm⟩ | ⟨P, hP, -⟩
    · rw [List.all_append, Bool.and_eq_true] at hbefore
      have hle := ih hm hbefore.2
      have hshort : left.length ≤ (b ++ intake.getD []).length := by
        rcases hfirst with hlt | ⟨rfl, -⟩
        · exact hlt.le
        · exact le_rfl
      rw [List.append_cons, fedBytes_append, hfed]
      simp only [List.length_append] at hle hshort ⊢
      omega
    · rw [hP] at hpre
      simp [dataEnd_not_content hu] at hpre
  | @dropped b n intake lines v left rest hlines hv hleft hfirst hend hrest ih =>
    obtain ⟨hpre, hfed⟩ := round_content_snoc intake hlines (isContent_dropped hv)
    rw [List.append_cons] at hes
    rcases append_cons_cases hes with ⟨m, rfl, hm⟩ | ⟨P, hP, -⟩
    · rw [List.all_append, Bool.and_eq_true] at hbefore
      have hle := ih hm hbefore.2
      have hshort : left.length ≤ (b ++ intake.getD []).length := by
        rcases hfirst with hlt | ⟨rfl, -⟩
        · exact hlt.le
        · exact le_rfl
      have hkept : (keptTail left).length ≤ left.length := by
        obtain ⟨front, hfront, -⟩ := cut_after_drop hleft
        have := congrArg List.length hfront
        rw [List.length_append] at this
        omega
      rw [List.append_cons, fedBytes_append, hfed]
      simp only [List.length_append] at hle hshort ⊢
      omega
    · rw [hP] at hpre
      simp [dataEnd_not_content hu] at hpre

private theorem ending_dot (r : Bytes) :
    Lines.ending CR LF [DOT] (DOT :: CR :: LF :: r) = some r := by
  have hcut : Lines.cut CR LF (DOT :: CR :: LF :: r) = some ([DOT], r) := by
    simp [Lines.cut, CR, LF, DOT]
  rw [Lines.ending_of_cut hcut, if_pos rfl]

theorem DataRun.dot_ends (hrun : DataRun o b n es)
    (hmax : 2 ≤ o.maxSizeBytes) (hn : n = 0) {r : Bytes}
    (hdot : b ++ fedBytes es = DOT :: CR :: LF :: r) :
    ∃ (before : List Entry) (u : Turn) (after : List Entry),
      es = before ++ .pass u :: after ∧ before.all Entry.isContent = true ∧
      u.consumed = .dataEnd ∧ u.after.buffer ++ fedBytes after = r := by
  induction hrun with
  | stop calls hb =>
    obtain ⟨-, -, hfed⟩ := calls_content calls
    rw [hfed, List.append_nil] at hdot
    simp [hdot, Lines.cut, CR, LF, DOT] at hb
  | ended intake lines u later hlines hu hend =>
    obtain ⟨hall, -, hfed⟩ := round_content intake hlines
    refine ⟨_, u, later, rfl, hall, hu, ?_⟩
    rw [fedBytes_append, hfed, fedBytes_cons_pass, ← List.append_assoc] at hdot
    have hend' := hend (fedBytes later)
    rw [hdot, ending_dot] at hend'
    exact (Option.some.inj hend').symm
  | @kept b n intake lines u left n' rest hlines hu hfirst hend hrest ih =>
    obtain ⟨hpre, hfed⟩ := round_content_snoc intake hlines (isContent_nothing hu)
    rw [List.append_cons, fedBytes_append, hfed, ← List.append_assoc] at hdot
    have hend' := hend (fedBytes rest)
    rw [hdot, ending_dot] at hend'
    have hlen := Lines.length_of_ending hend'.symm
    have hlen' := congrArg List.length hdot
    rcases hfirst with hlt | ⟨rfl, rfl⟩
    · simp only [List.length_append, List.length_cons, List.length_nil] at hlen hlen' hlt
      omega
    · obtain ⟨before, v, after, rfl, hbefore, hv, hrem⟩ := ih hn hdot
      refine ⟨intake.toList.map Entry.fed ++ lines.map Entry.pass ++ [Entry.pass u] ++ before, v,
        after, by simp, ?_, hv, hrem⟩
      rw [List.all_append, hpre, hbefore, Bool.and_true]
  | @dropped b n intake lines u left rest hlines hu hleft hfirst hend hrest ih =>
    obtain ⟨hpre, hfed⟩ := round_content_snoc intake hlines (isContent_dropped hu)
    rw [List.append_cons, fedBytes_append, hfed, ← List.append_assoc] at hdot
    have hend' := hend (fedBytes rest)
    rw [hdot, ending_dot] at hend'
    have hlen := Lines.length_of_ending hend'.symm
    have hlen' := congrArg List.length hdot
    rcases hfirst with hlt | ⟨hleft', hfull⟩
    · simp only [List.length_append, List.length_cons, List.length_nil] at hlen hlen' hlt
      omega
    · exfalso
      rw [← hleft'] at hdot
      have hshort : left.length ≤ 2 := by
        by_contra hlong
        have htake : left.take 3 = [DOT, CR, LF] := by
          have := congrArg (List.take 3) hdot
          rwa [List.take_append_of_le_length (by omega)] at this
        have hsplit : left = [DOT] ++ CR :: LF :: left.drop 3 := by
          conv_lhs => rw [← List.take_append_drop 3 left, htake]
          rfl
        have hsome : (Lines.cut CR LF ([DOT] ++ CR :: LF :: left.drop 3)).isSome :=
          Lines.cut_isSome [DOT] (left.drop 3)
        rw [← hsplit, hleft] at hsome
        cases hsome
      rcases hfull with hfull | hfull
      · unfold maxDataLine at hfull
        omega
      · omega

theorem DataRun.harmless (hrun : DataRun o b n es)
    (hmax : 2 ≤ o.maxSizeBytes) (hframed : DataFramed b es) : CutsHarmless es := by
  induction hrun with
  | stop calls hb =>
    intro before u after bytes kept hes
    have hmem : Entry.pass u ∈ calls.map Entry.called := by rw [hes]; simp
    simp at hmem
  | ended intake lines v later hlines hv hend =>
    obtain ⟨hall, hdrop, -⟩ := round_content intake hlines
    rw [cutsHarmless_append hall hdrop]
    intro before u after bytes kept hsplit hbefore hu
    cases before with
    | nil =>
      obtain rfl := Entry.pass.inj (List.cons.inj hsplit).1
      rw [hv] at hu
      cases hu
    | cons x before =>
      obtain ⟨rfl, -⟩ := List.cons.inj hsplit
      simp [dataEnd_not_content hv] at hbefore
  | @kept b n intake lines u left n' rest hlines hu hfirst hend hrest ih =>
    obtain ⟨hpre, hfed⟩ := round_content_snoc intake hlines (isContent_nothing hu)
    obtain ⟨-, hdrop, -⟩ := round_content intake hlines
    rw [List.append_cons] at hframed ⊢
    have hrest' : DataFramed left rest := by
      refine (dataFramed_append hpre ?_).mp hframed
      rw [fedBytes_append, hfed, ← List.append_assoc]
      exact hend _
    refine (cutsHarmless_append hpre ?_).mpr (ih hrest')
    intro t ht bytes kept hd
    rcases List.mem_append.mp ht with ht | ht
    · exact hdrop t ht bytes kept hd
    · obtain rfl := Entry.pass.inj (List.mem_singleton.mp ht)
      rw [hu] at hd
      cases hd
  | @dropped b n intake lines u left rest hlines hu hleft hfirst hend hrest ih =>
    obtain ⟨hpre, hfed⟩ := round_content_snoc intake hlines (isContent_dropped hu)
    obtain ⟨hall, hdrop, -⟩ := round_content intake hlines
    have hstream : Lines.ending CR LF [DOT] (b ++ fedBytes (intake.toList.map Entry.fed ++
        lines.map Entry.pass ++ [Entry.pass u] ++ rest)) =
        Lines.ending CR LF [DOT] (left ++ fedBytes rest) := by
      rw [fedBytes_append, hfed, ← List.append_assoc]
      exact hend _
    have hframed' := hframed
    rw [List.append_cons] at hframed'
    rw [cutsHarmless_append hall hdrop, cutsHarmless_cons_dropped hu]
    have hharm : StartsWithDot (left ++ fedBytes rest) ↔
        StartsWithDot (keptTail left ++ fedBytes rest) := by
      by_contra hharm
      -- the engine ends a message of `rest` somewhere, and not where the content ends
      rcases harmful_cases hleft hharm with ⟨r, hend', hlen⟩ | ⟨r, hdot, hend'⟩
      · rcases hframed' with ⟨before, v, after, hsplit, hbefore, hv, hat⟩ | ⟨-, hnone⟩
        · rcases append_cons_cases hsplit with ⟨m, rfl, hm⟩ | ⟨P, hP, -⟩
          · rw [List.all_append, Bool.and_eq_true] at hbefore
            have hle := hrest.length_of_dataEnd hm hbefore.2 hv
            rw [hstream, hend'] at hat
            have := congrArg List.length (Option.some.inj hat)
            omega
          · rw [hP] at hpre
            simp [dataEnd_not_content hv] at hpre
        · rw [hstream, hend'] at hnone
          cases hnone
      · obtain ⟨before, v, after, hsplit, hbefore, hv, hrem⟩ := hrest.dot_ends hmax rfl hdot
        have hall' : (intake.toList.map Entry.fed ++ lines.map Entry.pass ++ [Entry.pass u] ++
            before).all Entry.isContent = true := by
          rw [List.all_append, hpre, hbefore, Bool.and_true]
        rcases hframed' with ⟨before', v', after', hsplit', hbefore', hv', hat⟩ | ⟨hcontent, -⟩
        · have hsplit'' : intake.toList.map Entry.fed ++ lines.map Entry.pass ++ [Entry.pass u] ++
              before ++ Entry.pass v :: after = before' ++ Entry.pass v' :: after' := by
            rw [← hsplit', hsplit, List.append_assoc]
          obtain ⟨-, hvv, rfl⟩ := split_unique hsplit'' hall' hbefore' (dataEnd_not_content hv)
            (dataEnd_not_content hv')
          obtain rfl := Entry.pass.inj hvv
          rw [hstream, hend', hrem] at hat
          have := Lines.length_of_ending hat
          omega
        · rw [hsplit, ← List.append_assoc, List.all_append, hall', List.all_cons,
            dataEnd_not_content hv] at hcontent
          simp at hcontent
    refine ⟨hharm, ih ((dataFramed_append hpre ?_).mp hframed')⟩
    rw [hstream, ending_of_harmless hleft hharm]

theorem inData_of_acceptsData (hrun : running e = true)
    (hover : e.pendingOverflow = false) (hdata : acceptsData h (turn h o e) = true) :
    (turn h o e).again = true ∧ InData (turn h o e).after ∧ (turn h o e).after.closed = false := by
  obtain ⟨hwait, hclosed⟩ := running_iff.mp hrun
  unfold acceptsData at hdata
  split at hdata
  next line hline =>
    simp only [Bool.and_eq_true, decide_eq_true_eq] at hdata
    obtain ⟨hauth, -, -, rest, -, hturn⟩ := turn_of_command hline
    rw [hturn] at hdata ⊢
    obtain ⟨hverb, hreply⟩ := hdata
    have heff := handleCommandLine_effect (h := h) (o := o) line { e with buffer := rest }
    rw [hverb] at heff
    generalize handleCommandLine h o line { e with buffer := rest } = r at heff hreply ⊢
    obtain ⟨e', acts⟩ := r
    dsimp only at heff hreply ⊢
    cases heff with
    | data hv hstate => exact ⟨rfl, ⟨rfl, hauth, hwait, hover⟩, hclosed⟩
    | greet acts hv hacts => exact absurd hv (by decide)
    | mail parsed hv => exact absurd hv (by decide)
    | rcpt v hv => exact absurd hv (by decide)
    | bdat digits last n hv => exact absurd hv (by decide)
    | reset hv => exact absurd hv (by decide)
    | quit => simp [repliesWith] at hreply
    | startTls => simp [repliesWith] at hreply
    | aside e' acts hsame haside hacts hdata => exact absurd rfl (hdata hreply)
  · cases hdata

end

/-- `DataFramed`, decided at the first pass outside the content. -/
def dataFramedCheck (buffered : Bytes) (post : List Entry) : Bool :=
  match post.dropWhile Entry.isContent with
  | [] => decide (Lines.ending CR LF [DOT] (buffered ++ fedBytes post) = none)
  | .pass u :: after =>
    decide (u.consumed = .dataEnd) &&
      decide (Lines.ending CR LF [DOT] (buffered ++ fedBytes post) =
        some (u.after.buffer ++ fedBytes after))
  | _ => false

theorem dataFramedCheck_of_framed {buffered : Bytes} {post : List Entry}
    (hframed : DataFramed buffered post) : dataFramedCheck buffered post = true := by
  unfold dataFramedCheck
  rcases hframed with ⟨before, u, after, hpost, hbefore, hu, hat⟩ | ⟨hall, hnone⟩
  · have hdrop : post.dropWhile Entry.isContent = .pass u :: after := by
      rw [hpost, List.dropWhile_append_of_pos (List.all_eq_true.mp hbefore)]
      simp [dataEnd_not_content hu]
    rw [hdrop]
    simp [hu, hat]
  · have hdrop : post.dropWhile Entry.isContent = [] :=
      List.dropWhile_eq_nil_iff.mpr (List.all_eq_true.mp hall)
    rw [hdrop]
    simp [hnone]

def smallOptions : Options := { hostname := "h".toList, maxSizeBytes := 10, tlsAvailable := false }

/-- Eleven bytes of an open line, then a chunk that starts with a dot. -/
def smuggling : List Call :=
  openTransaction ++ [Call.feed (bytesOf "DATA\r\n"), .feed (bytesOf "0123456789a"),
    .feed (bytesOf ".\r\nNOOP\r\n")]

def shortMessage : List Call :=
  openTransaction ++ [Call.feed (bytesOf "DATA\r\nhi\r\n."), .feed (bytesOf "\r\n")]

end Ionosphere.Smtp
