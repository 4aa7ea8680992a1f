import Ionosphere.Mta.DotStuffing

/-! From the client's DATA to the server's. The bytes after 354 reach the engine in chunks; while
they do, what it has of the message is that of the lines it has read. -/
namespace Ionosphere.Mta

open Ionosphere.Js Ionosphere.Core Ionosphere.Lib Ionosphere.Smtp

variable {ls : List Bytes}

/-- The engine has answered DATA and has read nothing since. -/
structure AtData (e : Engine) : Prop extends InData e where
  opened : e.closed = false
  errors : e.errorCount ≤ maxSmtpErrorsPerSession
  buffer : e.buffer = []
  empty : e.dataOverflow = false ∧ e.dataChunks = [] ∧ e.dataSize = 0

/-- Fed the chunks, the engine ends the message at the last byte and delivers `raw`. -/
def Delivered (h : Host) (o : Options) (e : Engine) (chunks : List Bytes) (raw : Bytes) : Prop :=
  ∃ before u after e' d, run h o e (chunks.map .feed) = some (before ++ .pass u :: after, e') ∧
    before.all Entry.isContent = true ∧ u.consumed = .dataEnd ∧
    u.after.buffer ++ fedBytes after = [] ∧ u.actions = [.deliver d] ∧ d.raw = raw

def LinesFit (raw : Bytes) : Prop :=
  ∀ p ∈ Lines.content CR LF [DOT] (dataBytes raw), ∀ l ∈ p.1, l.length < maxDataLine

def TerminatorFits (o : Options) (size : ℕ) (chunks : List Bytes) : Prop :=
  ∀ p q, chunks = p ++ q →
    (q.flatten = [CR, LF] → size < o.maxSizeBytes) ∧ (q.flatten = [LF] → size + 1 < o.maxSizeBytes)

/-- What is kept of the message after another line; nothing once it was too large. -/
def store (o : Options) : Option Bytes → Bytes → Option Bytes
  | none, _ => none
  | some w, l =>
    if o.maxSizeBytes < w.length + ((unstuff l).length + 2) then none
    else some (w ++ unstuff l ++ [CR, LF])

theorem foldl_store_none (o : Options) (ls : List Bytes) : ls.foldl (store o) none = none := by
  induction ls with
  | nil => rfl
  | cons l ls ih => exact ih

def Holds (e : Engine) : Option Bytes → Prop
  | none => e.dataOverflow = true
  | some w => e.dataOverflow = false ∧ e.dataChunks.flatten = w ∧ e.dataSize = w.length

structure Reading (e : Engine) (w : Option Bytes) : Prop extends InData e where
  opened : e.closed = false
  errors : e.errorCount ≤ maxSmtpErrorsPerSession
  holds : Holds e w

def Silent (t : Turn) : Prop := Entry.isContent (.pass t) = true ∧ t.actions = []

def Ends (u : Turn) : Option Bytes → Prop
  | none => ∀ d, u.actions ≠ [.deliver d]
  | some w => (∃ d, u.actions = [.deliver d] ∧ d.raw = w) ∧ u.after.awaiting = some .deliver ∧
      u.after.closed = false ∧ u.after.errorCount ≤ maxSmtpErrorsPerSession

section

variable {h : Host} {o : Options} {e e' : Engine} {w : Option Bytes} {ts : List Turn}
  {chunks : List Bytes}

theorem AtData.reading (he : AtData e) : Reading e (some []) :=
  { he.toInData with
    opened := he.opened
    errors := he.errors
    holds := ⟨he.empty.1, by rw [he.empty.2.1]; rfl, he.empty.2.2⟩ }

theorem Reading.buffer (he : Reading e w) (b : Bytes) : Reading { e with buffer := b } w :=
  { state := he.state, auth := he.auth, awaiting := he.awaiting, overflow := he.overflow
    opened := he.opened, errors := he.errors
    holds := by
      cases w with
      | none => exact he.holds
      | some w => exact he.holds }

theorem Reading.store (he : Reading e w) (l : Bytes) :
    Reading (storeDataLine o l e) (store o w l) := by
  obtain ⟨-, hstate, hauth, hwait, hover, hclosed⟩ := storeDataLine_frame (o := o) l e
  refine { state := ?_, auth := ?_, awaiting := ?_, overflow := ?_, opened := ?_, errors := ?_,
           holds := ?_ }
  · rw [hstate]
    exact he.state
  · rw [hauth]
    exact he.auth
  · rw [hwait]
    exact he.awaiting
  · rw [hover]
    exact he.overflow
  · rw [hclosed]
    exact he.opened
  · unfold storeDataLine
    dsimp only
    split_ifs <;> exact he.errors
  · cases w with
    | none =>
      have hfull : e.dataOverflow = true := he.holds
      rw [storeDataLine, if_pos hfull]
      exact hfull
    | some w =>
      obtain ⟨hfull, hchunks, hsize⟩ := he.holds
      rw [storeDataLine, if_neg (by simp [hfull]), Mta.store, hsize]
      dsimp only
      split
      · rfl
      · refine ⟨hfull, ?_, ?_⟩
        · simp [hchunks, crlfBytes]
        · simp only [List.length_append, List.length_cons, List.length_nil]
          omega

theorem Reading.ends (he : Reading e w) (before : Engine) :
    Ends ⟨before, (finishData e).1, (finishData e).2, .dataEnd, true⟩ w := by
  cases w with
  | none =>
    have hfull : e.dataOverflow = true := he.holds
    intro d
    rw [finishData, if_pos hfull]
    nofun
  | some w =>
    obtain ⟨hfull, hchunks, -⟩ := he.holds
    rw [finishData, if_neg (by simp [hfull])]
    exact ⟨⟨_, rfl, hchunks⟩, rfl, he.opened, he.errors⟩

theorem Reading.guard (he : Reading e w) :
    (dataBufferFull o e = false ∧ guardDataBuffer o e = e) ∨
      (dataBufferFull o e = true ∧ Reading (guardDataBuffer o e) none) := by
  rw [guardDataBuffer]
  cases hfull : dataBufferFull o e with
  | false => exact .inl ⟨rfl, if_neg (by simp)⟩
  | true =>
    rw [if_pos rfl]
    exact .inr ⟨rfl, { state := he.state, auth := he.auth, awaiting := he.awaiting
                       overflow := he.overflow, opened := he.opened, errors := he.errors
                       holds := rfl }⟩

def Content (ls : List Bytes) : Prop := ∀ l ∈ ls, Lines.cut CR LF l = none ∧ l ≠ [DOT]

/-- How the loop stops: in an open line, or at the terminator. -/
inductive Read (o : Options) (w : Option Bytes) (e : Engine) (ts : List Turn) (e' : Engine) : Prop
  | line (done : List Bytes) (e₁ : Engine) (hdone : Content done)
      (hbuffer : e.buffer = unlines done ++ e₁.buffer) (hopen : Lines.cut CR LF e₁.buffer = none)
      (h₁ : Reading e₁ (done.foldl (store o) w)) (he' : e' = guardDataBuffer o e₁)
      (hts : ∀ t ∈ ts, Silent t)
  | ended (done : List Bytes) (lines : List Turn) (u : Turn) (later : List Turn)
      (hdone : Content done) (hbuffer : e.buffer = unlines done ++ DOT :: CR :: LF :: u.after.buffer)
      (hts : ts = lines ++ u :: later) (hlines : ∀ t ∈ lines, Silent t) (hu : u.consumed = .dataEnd)
      (hends : Ends u (done.foldl (store o) w)) (hlater : u.after.awaiting.isSome = true →
        later = [] ∧ e' = u.after)

theorem read_of_loop (hloop : Loop h o e ts e') (he : Reading e w) :
    Read o w e ts e' := by
  induction hloop generalizing w with
  | @stop e hrun =>
    rw [running_iff.mpr ⟨he.awaiting, he.opened⟩] at hrun
    cases hrun
  | @leave e hrun hagain =>
    have hturn : turn h o e = turnData o e := turn_data he.auth he.state
    rw [hturn] at hagain ⊢
    cases hi : indexOfCRLF e.buffer with
    | some i =>
      simp only [turnData, hi] at hagain
      split_ifs at hagain
    | none =>
      refine .line [] e (List.forall_mem_nil _) rfl (cut_of_no_index hi) he ?_ fun t ht => ?_
      · simp only [turnData, hi]
      · cases List.mem_singleton.mp ht
        simp only [turnData, hi, Silent, Entry.isContent]
        split_ifs <;> exact ⟨rfl, trivial⟩
  | @again e e' ts hrun hagain hloop ih =>
    have hturn : turn h o e = turnData o e := turn_data he.auth he.state
    rw [hturn] at hagain hloop ih ⊢
    cases hi : indexOfCRLF e.buffer with
    | none =>
      simp only [turnData, hi] at hagain
      cases hagain
    | some i =>
      have hcut := cut_of_index hi
      have hbuffer := Lines.eq_of_cut hcut
      by_cases hdot : e.buffer.take i = [DOT]
      · have hpass : turnData o e = ⟨e, (finishData { e with buffer := e.buffer.drop (i + 2) }).1,
            (finishData { e with buffer := e.buffer.drop (i + 2) }).2, .dataEnd, true⟩ := by
          simp only [turnData, hi, if_pos hdot]
        rw [hpass] at hloop ⊢
        have hends := (he.buffer (e.buffer.drop (i + 2))).ends e
        have hrest : (finishData { e with buffer := e.buffer.drop (i + 2) }).1.buffer =
            e.buffer.drop (i + 2) := finishData_buffer_eq _
        generalize finishData { e with buffer := e.buffer.drop (i + 2) } = r at hloop hends hrest ⊢
        refine .ended [] [] ⟨e, r.1, r.2, .dataEnd, true⟩ ts (List.forall_mem_nil _) ?_ rfl
          (List.forall_mem_nil _) rfl hends fun hwait => ?_
        · rw [hdot, ← hrest] at hbuffer
          exact hbuffer
        · cases hloop with
          | stop => exact ⟨rfl, rfl⟩
          | leave hrun =>
            rw [running, Bool.and_eq_true, Option.isNone_iff_eq_none] at hrun
            rw [hrun.1] at hwait
            cases hwait
          | again hrun =>
            rw [running, Bool.and_eq_true, Option.isNone_iff_eq_none] at hrun
            rw [hrun.1] at hwait
            cases hwait
      · have hpass := turnData_line (o := o) hi hdot
        rw [hpass] at hloop ih ⊢
        have hstored := (he.buffer (e.buffer.drop (i + 2))).store (o := o) (e.buffer.take i)
        have hframe := (storeDataLine_frame (o := o) (e.buffer.take i)
          { e with buffer := e.buffer.drop (i + 2) }).1
        have hcontent : ∀ {done}, Content done → Content (e.buffer.take i :: done) := fun hdone =>
          List.forall_mem_cons.mpr ⟨⟨cut_line_none hcut, hdot⟩, hdone⟩
        have hsilent : Silent ⟨e, storeDataLine o (e.buffer.take i)
            { e with buffer := e.buffer.drop (i + 2) }, [], .dataLine (e.buffer.take i), true⟩ :=
          ⟨rfl, rfl⟩
        have hshift : ∀ {done rest}, e.buffer.drop (i + 2) = unlines done ++ rest →
            e.buffer = unlines (e.buffer.take i :: done) ++ rest := by
          intro done rest hrest
          rw [unlines_cons, List.append_assoc]
          conv_lhs => rw [hbuffer, hrest]
          rfl
        cases ih hstored with
        | line done e₁ hdone hbuffer₁ hopen h₁ he' hts =>
          rw [hframe] at hbuffer₁
          exact .line (e.buffer.take i :: done) e₁ (hcontent hdone) (hshift hbuffer₁) hopen h₁ he'
            (List.forall_mem_cons.mpr ⟨hsilent, hts⟩)
        | ended done lines u later hdone hbuffer₁ hts hlines hu hends hlater =>
          rw [hframe] at hbuffer₁
          refine .ended (e.buffer.take i :: done) (_ :: lines) u later (hcontent hdone)
            (hshift hbuffer₁) ?_ (List.forall_mem_cons.mpr ⟨hsilent, hlines⟩) hu hends hlater
          rw [hts]
          rfl

theorem guardErrors_quiet {acts : List SmtpAction} (herrors : e.errorCount ≤ maxSmtpErrorsPerSession)
    (hacts : acts.countP isErrorReply = 0) : (guardErrors e acts).1 = e := by
  rw [guardErrors, hacts]
  split
  · rfl
  · dsimp only
    rw [Nat.add_zero, if_pos herrors]

theorem run_feed (he : Reading e w) (c : Bytes) (cs : List Bytes) :
    ∃ ts e₁, Read o w { e with buffer := e.buffer ++ c } ts e₁ ∧
      run h o e ((c :: cs).map .feed) =
        (run h o (guardErrors e₁ (ts.flatMap Turn.actions)).1 (cs.map .feed)).map
          fun p => (.fed c :: (ts.map .pass ++ p.1), p.2) := by
  have hover : { e with buffer := e.buffer ++ c }.pendingOverflow = false := he.overflow
  refine ⟨_, _, read_of_loop (pump_loop (h := h) (o := o) hover) (he.buffer _), ?_⟩
  have hentry : callEntry (.feed c) e = .fed c := by simp [callEntry, he.opened]
  rw [List.map_cons, run, call, feed_open he.opened he.awaiting]
  dsimp only
  rw [hentry, resume]
  dsimp only
  have hactions : (pump h o { e with buffer := e.buffer ++ c }).actions =
      (pump h o { e with buffer := e.buffer ++ c }).turns.flatMap Turn.actions := by
    rw [pump, if_neg (by simp [he.overflow])]
  rw [List.nil_append, hactions]
  rfl

theorem silent_actions (hts : ∀ t ∈ ts, Silent t) :
    ts.flatMap Turn.actions = [] :=
  List.flatMap_eq_nil_iff.mpr fun t ht => (hts t ht).2

theorem silent_content (hts : ∀ t ∈ ts, Silent t) (c : Bytes) :
    (Entry.fed c :: ts.map .pass).all Entry.isContent = true := by
  rw [List.all_eq_true]
  intro x hx
  obtain rfl | hx := List.mem_cons.mp hx
  · rfl
  · obtain ⟨t, ht, rfl⟩ := List.mem_map.mp hx
    exact (hts t ht).1

theorem delivered_line {e₁ : Engine} {c : Bytes} {cs : List Bytes} {raw : Bytes}
    (hts : ∀ t ∈ ts, Silent t)
    (hrun : run h o e ((c :: cs).map .feed) =
      (run h o e₁ (cs.map .feed)).map fun p => (.fed c :: (ts.map .pass ++ p.1), p.2)) :
    Delivered h o e (c :: cs) raw ↔ Delivered h o e₁ cs raw := by
  constructor
  · rintro ⟨before, u, after, e', d, hes, hbefore, hu, hrest, hd⟩
    rw [hrun] at hes
    obtain ⟨⟨rest, e₂⟩, hlater, heq⟩ := Option.map_eq_some_iff.mp hes
    obtain ⟨hsplit, rfl⟩ := Prod.mk.inj heq
    rw [← List.cons_append] at hsplit
    rcases append_cons_cases hsplit with ⟨before', rfl, rfl⟩ | ⟨P, hP, -⟩
    · rw [List.all_append, Bool.and_eq_true] at hbefore
      exact ⟨before', u, after, e₂, d, hlater, hbefore.2, hu, hrest, hd⟩
    · have hall := silent_content hts c
      rw [hP, List.all_append, List.all_cons, dataEnd_not_content hu] at hall
      simp at hall
  · rintro ⟨before, u, after, e', d, hes, hbefore, hu, hrest, hd⟩
    refine ⟨.fed c :: (ts.map .pass ++ before), u, after, e', d, ?_, ?_, hu, hrest, hd⟩
    · rw [hrun, hes, Option.map_some, List.cons_append, List.append_assoc]
    · rw [← List.cons_append, List.all_append, silent_content hts c, hbefore]
      rfl

theorem ends_of_delivered {c : Bytes} {cs : List Bytes} {lines later : List Turn} {u : Turn}
    {rest : Engine} {raw : Bytes} (hlines : ∀ t ∈ lines, Silent t) (hu : u.consumed = .dataEnd)
    (hrun : run h o e ((c :: cs).map .feed) = (run h o rest (cs.map .feed)).map
      fun p => (.fed c :: ((lines ++ u :: later).map .pass ++ p.1), p.2))
    (h : Delivered h o e (c :: cs) raw) : ∃ d, u.actions = [.deliver d] ∧ d.raw = raw := by
  obtain ⟨before, u', after, e', d, hes, hbefore, hu', -, hd, hraw⟩ := h
  rw [hrun] at hes
  obtain ⟨p, -, heq⟩ := Option.map_eq_some_iff.mp hes
  obtain ⟨hes, -⟩ := Prod.mk.inj heq
  have hsplit : (Entry.fed c :: lines.map .pass) ++ Entry.pass u :: (later.map .pass ++ p.1) =
      before ++ .pass u' :: after := by
    rw [← hes]
    simp
  obtain ⟨-, hpass, -⟩ := split_unique hsplit (silent_content hlines c) hbefore
    (dataEnd_not_content hu) (dataEnd_not_content hu')
  cases Entry.pass.inj hpass
  exact ⟨d, hd, hraw⟩

theorem not_delivered (he : Reading e none) (cs : List Bytes) (raw : Bytes) :
    ¬ Delivered h o e cs raw := by
  induction cs generalizing e with
  | nil =>
    rintro ⟨before, u, after, e', d, hes, -⟩
    have hnil := (Prod.mk.inj (Option.some.inj hes)).1
    simp at hnil
  | cons c cs ih =>
    obtain ⟨ts, e₁, hread, hrun⟩ := run_feed (h := h) (o := o) he c cs
    cases hread with
    | line done e₂ hdone hbuffer hopen h₂ he₁ hts =>
      rw [foldl_store_none] at h₂
      have h₁ : Reading e₁ none := by
        rcases h₂.guard (o := o) with ⟨-, hsame⟩ | ⟨-, hguard⟩
        · rw [he₁, hsame]
          exact h₂
        · rw [he₁]
          exact hguard
      rw [silent_actions hts, guardErrors_quiet h₁.errors rfl] at hrun
      rw [delivered_line hts hrun]
      exact ih h₁
    | ended done lines u later hdone hbuffer hts hlines hu hends hlater =>
      rw [hts] at hrun
      intro hdelivered
      obtain ⟨d, hd, -⟩ := ends_of_delivered hlines hu hrun hdelivered
      rw [foldl_store_none] at hends
      exact hends d hd

def wire (ls : List Bytes) : Bytes := unlines ls ++ [DOT, CR, LF]

theorem wire_cons (l : Bytes) (ls : List Bytes) : wire (l :: ls) = l ++ CR :: LF :: wire ls := by
  rw [wire, unlines_cons, List.append_assoc]
  rfl

theorem cut_wire_nil : Lines.cut CR LF (wire []) = some ([DOT], []) := by decide

theorem cut_wire_cons {l : Bytes} (hls : Content (l :: ls)) :
    Lines.cut CR LF (wire (l :: ls)) = some (l, wire ls) := by
  rw [wire_cons]
  exact Lines.cut_line (by decide) (hls l List.mem_cons_self).1 _

theorem split_wire {done ls : List Bytes} {rest : Bytes} (hdone : Content done) (hls : Content ls)
    (hwire : unlines done ++ rest = wire ls) : ∃ todo, ls = done ++ todo ∧ rest = wire todo := by
  induction done generalizing ls with
  | nil => exact ⟨ls, rfl, hwire⟩
  | cons l done ih =>
    obtain ⟨hl, hlater⟩ := List.forall_mem_cons.mp hdone
    rw [unlines_cons, List.append_assoc, List.cons_append, List.cons_append] at hwire
    have hcut := Lines.cut_line (by decide : CR ≠ LF) hl.1 (unlines done ++ rest)
    rw [hwire] at hcut
    cases ls with
    | nil =>
      rw [cut_wire_nil] at hcut
      exact absurd (Prod.mk.inj (Option.some.inj hcut)).1.symm hl.2
    | cons l' ls =>
      rw [cut_wire_cons hls] at hcut
      obtain ⟨rfl, hrest⟩ := Prod.mk.inj (Option.some.inj hcut)
      obtain ⟨todo, rfl, htodo⟩ := ih hlater (List.forall_mem_cons.mp hls).2 hrest.symm
      exact ⟨todo, rfl, htodo⟩

theorem wire_dot {rest : Bytes} (hls : Content ls)
    (hwire : DOT :: CR :: LF :: rest = wire ls) : ls = [] ∧ rest = [] := by
  cases ls with
  | nil => exact ⟨rfl, by simpa [wire, unlines] using hwire⟩
  | cons l ls =>
    have hcut := cut_wire_cons hls
    have hdot : Lines.cut CR LF (DOT :: CR :: LF :: rest) = some ([DOT], rest) :=
      Lines.cut_line (l := [DOT]) (by decide) (by decide) rest
    rw [← hwire, hdot] at hcut
    exact absurd (Prod.mk.inj (Option.some.inj hcut)).1.symm (hls l List.mem_cons_self).2

theorem open_cases {b k : Bytes} (hopen : Lines.cut CR LF b = none)
    (hwire : b ++ k = wire ls) :
    (∃ l todo, ls = l :: todo ∧ b.length ≤ l.length + 1) ∨
      (ls = [] ∧ (b = [] ∨ (b = [DOT] ∧ k = [CR, LF]) ∨ (b = [DOT, CR] ∧ k = [LF]))) := by
  cases ls with
  | cons l ls =>
    refine .inl ⟨l, ls, rfl, ?_⟩
    rw [wire_cons] at hwire
    rcases List.append_eq_append_iff.mp hwire with ⟨m, hm, -⟩ | ⟨m, rfl, hm⟩
    · have hlen := congrArg List.length hm
      rw [List.length_append] at hlen
      omega
    · match m with
      | [] => simp
      | [x] => simp
      | x :: y :: m =>
        obtain ⟨rfl, htail⟩ := List.cons.inj hm
        obtain ⟨rfl, -⟩ := List.cons.inj htail
        have hsome : (Lines.cut CR LF (l ++ CR :: LF :: m)).isSome := Lines.cut_isSome l m
        rw [hopen] at hsome
        cases hsome
  | nil =>
    refine .inr ⟨rfl, ?_⟩
    have hwire : b ++ k = [DOT, CR, LF] := hwire
    match b with
    | [] => exact .inl rfl
    | [x] =>
      obtain ⟨rfl, rfl⟩ := List.cons.inj hwire
      exact .inr (.inl ⟨rfl, rfl⟩)
    | [x, y] =>
      obtain ⟨rfl, htail⟩ := List.cons.inj hwire
      obtain ⟨rfl, rfl⟩ := List.cons.inj htail
      exact .inr (.inr ⟨rfl, rfl⟩)
    | x :: y :: z :: b =>
      obtain ⟨rfl, htail⟩ := List.cons.inj hwire
      obtain ⟨rfl, hlast⟩ := List.cons.inj htail
      obtain ⟨rfl, -⟩ := List.cons.inj hlast
      simp [Lines.cut, DOT, CR] at hopen

theorem foldl_store {w r : Bytes} (h : ls.foldl (store o) (some w) = some r) :
    r = w ++ unlines (ls.map unstuff) := by
  induction ls generalizing w with
  | nil =>
    cases h
    simp [unlines]
  | cons l ls ih =>
    rw [List.foldl_cons, store] at h
    split at h
    · rw [foldl_store_none] at h
      cases h
    · rw [ih h, List.map_cons, unlines_cons]
      simp

theorem foldl_store_of_le {w : Bytes}
    (h : (w ++ unlines (ls.map unstuff)).length ≤ o.maxSizeBytes) :
    ls.foldl (store o) (some w) = some (w ++ unlines (ls.map unstuff)) := by
  induction ls generalizing w with
  | nil => simp [unlines]
  | cons l ls ih =>
    rw [List.map_cons, unlines_cons] at h ⊢
    have hle : ¬ o.maxSizeBytes < w.length + ((unstuff l).length + 2) := by
      simp only [List.length_append, List.length_cons] at h
      omega
    have hassoc : w ++ (unstuff l ++ CR :: LF :: unlines (ls.map unstuff)) =
        w ++ unstuff l ++ [CR, LF] ++ unlines (ls.map unstuff) := by simp
    rw [hassoc] at h ⊢
    rw [List.foldl_cons, store, if_neg hle, ih h]

theorem length_unstuff (l : Bytes) : l.length ≤ (unstuff l).length + 1 := by
  cases l with
  | nil => exact Nat.zero_le _
  | cons b l =>
    rw [unstuff]
    split <;> simp

/-- What the engine has, and the bytes that are still to come. -/
structure Midway (o : Options) (e : Engine) (w : Bytes) (ls : List Bytes) (chunks : List Bytes) :
    Prop extends Reading e (some w) where
  lines : Content ls
  coming : e.buffer ++ chunks.flatten = wire ls
  unfinished : Lines.cut CR LF e.buffer = none
  room : dataBufferFull o e = false

theorem room_of_fits {w r : Bytes} {k : Bytes} (he : Reading e (some w))
    (hopen : Lines.cut CR LF e.buffer = none) (hwire : e.buffer ++ k = wire ls)
    (hstore : ls.foldl (store o) (some w) = some r) (hsize : r.length ≤ o.maxSizeBytes)
    (hlines : ∀ l ∈ ls, l.length < maxDataLine)
    (hterm : (k = [CR, LF] → r.length < o.maxSizeBytes) ∧
      (k = [LF] → r.length + 1 < o.maxSizeBytes)) : dataBufferFull o e = false := by
  obtain ⟨-, -, hdataSize⟩ := he.holds
  have hr := congrArg List.length (foldl_store hstore)
  rw [List.length_append] at hr
  have hmax : 2 < maxDataLine := by decide
  have hle : e.buffer.length ≤ maxDataLine ∧ e.dataSize + e.buffer.length ≤ o.maxSizeBytes := by
    rw [hdataSize]
    rcases open_cases hopen hwire with ⟨l, todo, rfl, hlen⟩ | ⟨rfl, hb⟩
    · have hline := hlines l List.mem_cons_self
      have hunstuff := length_unstuff l
      rw [List.map_cons, unlines_cons, List.length_append, List.length_cons, List.length_cons] at hr
      omega
    · rcases hb with hb | ⟨hb, hk⟩ | ⟨hb, hk⟩
      · simp only [hb, List.length_nil]
        omega
      · have hlt := hterm.1 hk
        simp only [hb, List.length_cons, List.length_nil]
        omega
      · have hlt := hterm.2 hk
        simp only [hb, List.length_cons, List.length_nil]
        omega
  rw [dataBufferFull, Bool.or_eq_false_iff, decide_eq_false_iff_not, decide_eq_false_iff_not]
  omega

theorem fits_of_room {w r : Bytes} (he : Midway o e w ls chunks)
    (hstore : ls.foldl (store o) (some w) = some r) :
    (chunks.flatten = [CR, LF] → r.length < o.maxSizeBytes) ∧
      (chunks.flatten = [LF] → r.length + 1 < o.maxSizeBytes) := by
  obtain ⟨-, -, hdataSize⟩ := he.holds
  have hroom := he.room
  rw [dataBufferFull, Bool.or_eq_false_iff, decide_eq_false_iff_not, decide_eq_false_iff_not,
    hdataSize] at hroom
  have hlen := congrArg List.length he.coming
  rw [List.length_append] at hlen
  have hr := congrArg List.length (foldl_store hstore)
  rw [List.length_append] at hr
  rcases open_cases he.unfinished he.coming with ⟨l, todo, rfl, hle⟩ | ⟨rfl, -⟩
  · -- More than the rest of the terminator is missing.
    rw [wire_cons, List.length_append, List.length_cons, List.length_cons] at hlen
    have hwire : 3 ≤ (wire todo).length := by
      rw [wire, List.length_append]
      exact Nat.le_add_left _ _
    constructor
    · intro hk
      rw [hk] at hlen
      simp only [List.length_cons, List.length_nil] at hlen
      omega
    · intro hk
      rw [hk] at hlen
      simp only [List.length_cons, List.length_nil] at hlen
      omega
  · have hwire : (wire []).length = 3 := rfl
    have hnil : (unlines (([] : List Bytes).map unstuff)).length = 0 := rfl
    constructor
    · intro hk
      rw [hk] at hlen
      simp only [List.length_cons, List.length_nil] at hlen
      omega
    · intro hk
      rw [hk] at hlen
      simp only [List.length_cons, List.length_nil] at hlen
      omega

theorem run_waiting {chunks : List Bytes} (hwait : e.awaiting.isSome = true)
    (hopen : e.closed = false) (hbuffer : e.buffer = []) (hnil : chunks.flatten = []) :
    ∃ e', run h o e (chunks.map .feed) = some (chunks.map .fed, e') := by
  induction chunks with
  | nil => exact ⟨e, rfl⟩
  | cons c chunks ih =>
    rw [List.flatten_cons, List.append_eq_nil_iff] at hnil
    obtain ⟨rfl, hrest⟩ := hnil
    obtain ⟨e', hrun⟩ := ih hrest
    have hsame : { e with buffer := e.buffer ++ [] } = e := by rw [List.append_nil]
    have hfeed : feed h o [] e = ⟨e, [], []⟩ := by
      rw [feed, if_neg (by simp [hopen]), if_pos hwait, hbuffer, if_neg (by decide), hsame.symm]
      simp [hbuffer]
    refine ⟨e', ?_⟩
    rw [List.map_cons, run, call, hfeed]
    dsimp only
    rw [hrun]
    simp [callEntry, hopen]

theorem fedBytes_fed (chunks : List Bytes) : fedBytes (chunks.map .fed) = chunks.flatten := by
  induction chunks with
  | nil => rfl
  | cons c chunks ih => rw [List.map_cons, fedBytes_cons_fed, ih, List.flatten_cons]

theorem ended_coming {ls done : List Bytes} {later k : Bytes} (hls : Content ls)
    (hdone : Content done) (hwire : unlines done ++ DOT :: CR :: LF :: later ++ k = wire ls) :
    ls = done ∧ later = [] ∧ k = [] := by
  rw [List.append_assoc] at hwire
  obtain ⟨todo, rfl, hrest⟩ := split_wire hdone hls hwire
  have htodo : Content todo := fun l hl => hls l (List.mem_append_right _ hl)
  obtain ⟨rfl, hnil⟩ := wire_dot htodo hrest
  obtain ⟨hlater, hk⟩ := List.append_eq_nil_iff.mp hnil
  exact ⟨List.append_nil _, hlater, hk⟩

theorem delivered_of_fits {w r : Bytes} (he : Midway o e w ls chunks)
    (hstore : ls.foldl (store o) (some w) = some r) (hsize : r.length ≤ o.maxSizeBytes)
    (hlines : ∀ l ∈ ls, l.length < maxDataLine) (hterm : TerminatorFits o r.length chunks) :
    Delivered h o e chunks r := by
  induction chunks generalizing e w ls with
  | nil =>
    have hcoming := he.coming
    rw [List.flatten_nil, List.append_nil] at hcoming
    have hopen := he.unfinished
    cases ls with
    | nil =>
      rw [hcoming, cut_wire_nil] at hopen
      cases hopen
    | cons l ls =>
      rw [hcoming, cut_wire_cons he.lines] at hopen
      cases hopen
  | cons c chunks ih =>
    obtain ⟨ts, e₁, hread, hrun⟩ := run_feed (h := h) (o := o) he.toReading c chunks
    have hcoming := he.coming
    rw [List.flatten_cons, ← List.append_assoc] at hcoming
    cases hread with
    | line done e₂ hdone hbuffer hopen h₂ he₁ hts =>
      dsimp only at hbuffer
      rw [hbuffer, List.append_assoc] at hcoming
      obtain ⟨todo, rfl, hrest⟩ := split_wire hdone he.lines hcoming
      rw [List.foldl_append] at hstore
      cases hw : done.foldl (store o) (some w) with
      | none =>
        rw [hw, foldl_store_none] at hstore
        cases hstore
      | some w₁ =>
        rw [hw] at hstore h₂
        have htodo : Content todo := fun l hl => he.lines l (List.mem_append_right _ hl)
        have htlines : ∀ l ∈ todo, l.length < maxDataLine := fun l hl =>
          hlines l (List.mem_append_right _ hl)
        have hroom := room_of_fits h₂ hopen hrest hstore hsize htlines (hterm [c] chunks rfl)
        rw [guardDataBuffer, if_neg (by simp [hroom])] at he₁
        subst he₁
        rw [silent_actions hts, guardErrors_quiet h₂.errors rfl] at hrun
        rw [delivered_line hts hrun]
        refine ih ⟨h₂, htodo, hrest, hopen, hroom⟩ hstore htlines fun p q hpq => ?_
        exact hterm (c :: p) q (by rw [hpq]; rfl)
    | ended done lines u later hdone hbuffer hts hlines' hu hends hlater =>
      dsimp only at hbuffer
      rw [hbuffer] at hcoming
      obtain ⟨rfl, hlast, hnil⟩ := ended_coming he.lines hdone hcoming
      rw [hstore] at hends
      obtain ⟨⟨d, hd, hraw⟩, hwait, hclosed, herrors⟩ := hends
      obtain ⟨rfl, rfl⟩ := hlater (by rw [hwait]; rfl)
      rw [hts, List.flatMap_append, silent_actions hlines', List.nil_append, List.flatMap_singleton,
        hd, guardErrors_quiet herrors rfl] at hrun
      obtain ⟨e', hwaiting⟩ :=
        run_waiting (h := h) (o := o) (by rw [hwait]; rfl) hclosed hlast hnil
      refine ⟨.fed c :: lines.map .pass, u, chunks.map .fed, e', d, ?_, silent_content hlines' c, hu, ?_,
        hd, hraw⟩
      · rw [hrun, hwaiting]
        simp
      · rw [hlast, fedBytes_fed, hnil]
        rfl

theorem fits_of_delivered {w raw : Bytes} (he : Midway o e w ls chunks)
    (hdelivered : Delivered h o e chunks raw) :
    ls.foldl (store o) (some w) = some raw ∧ TerminatorFits o raw.length chunks := by
  induction chunks generalizing e w ls with
  | nil =>
    obtain ⟨before, u, after, e', d, hes, -⟩ := hdelivered
    have hnil := (Prod.mk.inj (Option.some.inj hes)).1
    simp at hnil
  | cons c chunks ih =>
    obtain ⟨ts, e₁, hread, hrun⟩ := run_feed (h := h) (o := o) he.toReading c chunks
    have hcoming := he.coming
    rw [List.flatten_cons, ← List.append_assoc] at hcoming
    suffices hlater : ls.foldl (store o) (some w) = some raw ∧ ∀ p q, chunks = p ++ q →
        (q.flatten = [CR, LF] → raw.length < o.maxSizeBytes) ∧
          (q.flatten = [LF] → raw.length + 1 < o.maxSizeBytes) by
      refine ⟨hlater.1, fun p q hpq => ?_⟩
      cases p with
      | nil =>
        rw [List.nil_append] at hpq
        rw [← hpq]
        exact fits_of_room he hlater.1
      | cons c' p => exact hlater.2 p q (List.cons.inj hpq).2
    cases hread with
    | line done e₂ hdone hbuffer hopen h₂ he₁ hts =>
      dsimp only at hbuffer
      rw [hbuffer, List.append_assoc] at hcoming
      obtain ⟨todo, rfl, hrest⟩ := split_wire hdone he.lines hcoming
      rw [List.foldl_append]
      rcases h₂.guard (o := o) with ⟨hroom, hsame⟩ | ⟨-, hguard⟩
      · rw [hsame] at he₁
        subst he₁
        rw [silent_actions hts, guardErrors_quiet h₂.errors rfl] at hrun
        rw [delivered_line hts hrun] at hdelivered
        cases hw : done.foldl (store o) (some w) with
        | none =>
          rw [hw] at h₂
          exact absurd hdelivered (not_delivered h₂ chunks raw)
        | some w₁ =>
          rw [hw] at h₂
          exact ih ⟨h₂, fun l hl => he.lines l (List.mem_append_right _ hl), hrest, hopen, hroom⟩
            hdelivered
      · rw [← he₁] at hguard
        rw [silent_actions hts, guardErrors_quiet hguard.errors rfl] at hrun
        rw [delivered_line hts hrun] at hdelivered
        exact absurd hdelivered (not_delivered hguard chunks raw)
    | ended done lines u later hdone hbuffer hts hlines hu hends hlater =>
      dsimp only at hbuffer
      rw [hbuffer] at hcoming
      obtain ⟨rfl, -, hnil⟩ := ended_coming he.lines hdone hcoming
      rw [hts] at hrun
      obtain ⟨d, hd, hraw⟩ := ends_of_delivered hlines hu hrun hdelivered
      constructor
      · cases hw : ls.foldl (store o) (some w) with
        | none =>
          rw [hw] at hends
          exact absurd hd (hends d)
        | some r =>
          rw [hw] at hends
          obtain ⟨⟨d', hd', rfl⟩, -⟩ := hends
          rw [hd'] at hd
          cases hd
          rw [hraw]
      · -- No byte is left.
        intro p q hpq
        have hq : q.flatten = [] := by
          rw [hpq, List.flatten_append, List.append_eq_nil_iff] at hnil
          exact hnil.2
        rw [hq]
        exact ⟨nofun, nofun⟩

theorem content_dotStuff (hls : ∀ l ∈ ls, Lines.cut CR LF l = none) :
    Content (ls.map dotStuff) := by
  intro l hl
  obtain ⟨l', hl', rfl⟩ := List.mem_map.mp hl
  exact ⟨cut_dotStuffFrom (hls l' hl') true, dotStuff_ne_dot l'⟩

theorem unstuff_lines (ls : List Bytes) :
    (ls.map dotStuff).map unstuff = ls.map (dotStuffFrom false) := by
  rw [List.map_map]
  exact List.map_congr_left fun l _ => unstuff_dotStuff l

theorem AtData.midway (he : AtData e) (hls : Content ls)
    (hchunks : chunks.flatten = wire ls) : Midway o e [] ls chunks where
  toReading := he.reading
  lines := hls
  coming := by rw [he.buffer, hchunks, List.nil_append]
  unfinished := by
    rw [he.buffer]
    rfl
  room := by simp [dataBufferFull, he.buffer, he.empty.2.2]

/-- However what the client writes is cut into chunks, the engine ends the message at its last
byte and delivers the message, with its final CRLF, if no dot follows a bare LF in it and every
part of the terminator that ends a chunk fits together with the message; and only then. -/
theorem transfer_round_trip (he : AtData e) (raw : Bytes) {chunks : List Bytes}
    (hchunks : chunks.flatten = dataBytes raw) (hlines : LinesFit raw)
    (hsize : (completed raw).length ≤ o.maxSizeBytes) :
    Delivered h o e chunks (completed raw) ↔
      ¬ BareDot raw ∧ TerminatorFits o (completed raw).length chunks := by
  obtain ⟨ls, hcompleted, hls⟩ := exists_unlines (completed_eq raw)
  have hcontent := content_dotStuff hls
  have hwire : dataBytes raw = wire (ls.map dotStuff) := by
    rw [dataBytes_eq, hcompleted, dotStuff_unlines, wire]
  have hmid : Midway o e [] (ls.map dotStuff) chunks :=
    he.midway hcontent (hchunks.trans hwire)
  have hbare : ¬ BareDot raw ↔ unlines (ls.map (dotStuffFrom false)) = unlines ls := by
    rw [← bareDot_completed, hcompleted, bareDot_unlines hls, unlines_stuffed_iff]
    push Not
    rfl
  rw [hbare]
  constructor
  · intro hdelivered
    obtain ⟨hstore, hterm⟩ := fits_of_delivered hmid hdelivered
    have hraw := foldl_store hstore
    rw [unstuff_lines, hcompleted, List.nil_append] at hraw
    exact ⟨hraw.symm, hterm⟩
  · rintro ⟨hsame, hterm⟩
    have hkept : ([] : Bytes) ++ unlines ((ls.map dotStuff).map unstuff) = completed raw := by
      rw [unstuff_lines, hsame, hcompleted, List.nil_append]
    have hstore : (ls.map dotStuff).foldl (store o) (some []) =
        some ([] ++ unlines ((ls.map dotStuff).map unstuff)) :=
      foldl_store_of_le (by rw [hkept]; exact hsize)
    rw [hkept] at hstore
    refine delivered_of_fits hmid hstore hsize ?_ hterm
    refine hlines (ls.map dotStuff, []) ?_
    rw [hwire]
    exact Lines.content_of_lines (by decide) [] hcontent (by decide)

end

instance {e : Engine} : Decidable (AtData e) :=
  decidable_of_iff ((e.state = .data ∧ e.authContinuation = none ∧ e.awaiting = none ∧
      e.pendingOverflow = false) ∧ e.closed = false ∧ e.errorCount ≤ maxSmtpErrorsPerSession ∧
      e.buffer = [] ∧ e.dataOverflow = false ∧ e.dataChunks = [] ∧ e.dataSize = 0)
    ⟨fun ⟨⟨hstate, hauth, hwait, hover⟩, hopen, herrors, hbuffer, hempty⟩ =>
      ⟨⟨hstate, hauth, hwait, hover⟩, hopen, herrors, hbuffer, hempty⟩,
      fun he => ⟨⟨he.state, he.auth, he.awaiting, he.overflow⟩, he.opened, he.errors, he.buffer,
        he.empty⟩⟩

instance {raw : Bytes} : Decidable (LinesFit raw) :=
  inferInstanceAs (Decidable (∀ p ∈ Lines.content CR LF [DOT] (dataBytes raw), _))

def untilData : List Call := openTransaction ++ [Call.feed (bytesOf "DATA\r\n")]

/-- A message of a single dot, with the terminator in two chunks. -/
theorem transfer_round_trip_dot :
    ∃ es e, run asciiHost smallOptions (newEngine false) untilData = some (es, e) ∧ AtData e ∧
      Delivered asciiHost smallOptions e [bytesOf ".", bytesOf ".\r\n.", bytesOf "\r\n"]
        (bytesOf ".\r\n") := by
  have hrun : (run asciiHost smallOptions (newEngine false) untilData).map
      (fun p => decide (AtData p.2)) = some true := by
    decide +kernel
  obtain ⟨⟨es, e⟩, hes, hdata⟩ := Option.map_eq_some_iff.mp hrun
  have hdata : AtData e := of_decide_eq_true hdata
  refine ⟨es, e, hes, hdata, (transfer_round_trip hdata (bytesOf ".") (by decide)
    (by decide +kernel) (by decide)).mpr ⟨?_, ?_⟩⟩
  · rintro ⟨a, b, hsplit, -⟩
    have hlen := congrArg List.length hsplit
    rw [List.length_append, List.length_cons, List.length_cons] at hlen
    have hone : (bytesOf ".").length = 1 := rfl
    omega
  · intro p q _
    exact ⟨fun _ => by decide, fun _ => by decide⟩

def deliveries (es : List Entry) : List Bytes :=
  es.flatMap fun
    | .pass t => t.actions.filterMap fun
      | .deliver d => some d.raw
      | _ => none
    | _ => []

/-- A line with a bare LF in it, and a dot after that. -/
theorem transfer_round_trip_fails :
    ¬ ∀ (h : Host) (o : Options) (calls : List Call) (es : List Entry) (e : Engine) (raw : Bytes)
      (chunks : List Bytes), run h o (newEngine false) calls = some (es, e) → AtData e →
      chunks.flatten = dataBytes raw → LinesFit raw → (completed raw).length ≤ o.maxSizeBytes →
      Delivered h o e chunks (completed raw) := by
  intro hall
  have hrun : (run asciiHost smallOptions (newEngine false) untilData).bind (fun p =>
      (run asciiHost smallOptions p.2 [.feed (dataBytes (bytesOf "a\n.b"))]).map fun q =>
        (decide (AtData p.2), deliveries q.1)) = some (true, [bytesOf "a\n..b\r\n"]) := by
    decide +kernel
  obtain ⟨⟨es, e⟩, hes, hrun⟩ := Option.bind_eq_some_iff.mp hrun
  obtain ⟨⟨es', e'⟩, hes', hrun⟩ := Option.map_eq_some_iff.mp hrun
  obtain ⟨hdata, hraws⟩ := Prod.mk.inj hrun
  obtain ⟨before, u, after, e'', d, hdelivered, -, -, -, hd, hraw⟩ :=
    hall asciiHost smallOptions untilData es e (bytesOf "a\n.b") [dataBytes (bytesOf "a\n.b")] hes
      (of_decide_eq_true hdata) (by decide) (by decide +kernel) (by decide)
  rw [List.map_singleton, hes'] at hdelivered
  obtain ⟨rfl, -⟩ := Prod.mk.inj (Option.some.inj hdelivered)
  -- The only message delivered has another dot.
  have hmem : d.raw ∈ deliveries (before ++ .pass u :: after) := by
    refine List.mem_flatMap.mpr ⟨.pass u, by simp, ?_⟩
    dsimp only
    rw [hd]
    exact List.mem_singleton_self _
  dsimp only at hraws
  rw [hraws, List.mem_singleton, hraw] at hmem
  exact absurd hmem (by decide)

end Ionosphere.Mta
