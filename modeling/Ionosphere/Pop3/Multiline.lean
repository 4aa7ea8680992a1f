import Ionosphere.Js.Digits
import Ionosphere.Js.Utf8
import Ionosphere.Pop3.Engine

/-! A message through RETR and TOP: the reply ends where its terminator stands and nowhere
before, and a client that takes the dots off again has the message with its line ends
normalised, or as much of it as it asked for. -/
namespace Ionosphere.Pop3

open Ionosphere.Js

variable {ls : List Bytes} {cur : Bytes}

local instance : Coe String Text := ⟨String.toList⟩

def crlfEnds : Bytes → Bytes
  | [] => []
  | b :: rest =>
    if b = LF then CR :: LF :: crlfEnds rest
    else if b = CR ∧ rest.head? = some LF then crlfEnds rest
    else b :: crlfEnds rest

def normal (m : Bytes) : Bytes :=
  if m = [] ∨ m.getLast? = some LF then crlfEnds m else crlfEnds m ++ crlf

def keepEnds : Bytes → List Bytes
  | [] => []
  | b :: rest =>
    if b = LF then [b] :: keepEnds rest
    else match keepEnds rest with
      | [] => [[b]]
      | l :: ls => (b :: l) :: ls

/-- The first lines of a body; `none` is all of them. -/
def asked (lines : Option Nat) (body : List Bytes) : List Bytes :=
  match lines with
  | some n => body.take n
  | none => body

def bodyOf (text : Bytes) : List Bytes := ((keepEnds text).dropWhile (· ≠ crlf)).drop 1

/-- The header, the blank line and the first lines of the body. -/
def topOf (lines : Option Nat) (text : Bytes) : Bytes :=
  let header := (keepEnds text).takeWhile (· ≠ crlf)
  let rest := (keepEnds text).dropWhile (· ≠ crlf)
  (header ++ rest.take 1 ++ asked lines (bodyOf text)).flatten

def undot (line : Bytes) : Bytes := if line.head? = some DOT then line.tail else line

/-- What the client keeps of a reply: neither the status line nor the terminator. -/
def recover (reply : Bytes) : Bytes :=
  let content := (reply.dropWhile (· ≠ LF)).drop 1
  ((keepEnds (content.take (content.length - terminator.length))).map undot).flatten

def withEnds (ls : List Bytes) : Bytes := ls.flatMap (· ++ crlf)

theorem withEnds_cons (l : Bytes) (ls : List Bytes) :
    withEnds (l :: ls) = l ++ CR :: LF :: withEnds ls := by
  simp [withEnds, crlf]

theorem withEnds_append (ls ls' : List Bytes) :
    withEnds (ls ++ ls') = withEnds ls ++ withEnds ls' := List.flatMap_append

theorem keepEnds_line {l : Bytes} (hl : LF ∉ l) (rest : Bytes) :
    keepEnds (l ++ LF :: rest) = (l ++ [LF]) :: keepEnds rest := by
  induction l with
  | nil => rfl
  | cons b l ih =>
    have hb : b ≠ LF := fun h => hl (h ▸ List.mem_cons_self ..)
    rw [List.cons_append, keepEnds, if_neg hb, ih fun h => hl (List.mem_cons_of_mem b h)]
    rfl

theorem keepEnds_withEnds (hls : ∀ l ∈ ls, LF ∉ l) :
    keepEnds (withEnds ls) = ls.map (· ++ crlf) := by
  induction ls with
  | nil => rfl
  | cons l ls ih =>
    rw [List.forall_mem_cons] at hls
    have hcr : LF ∉ l ++ [CR] := by
      simp only [List.mem_append, List.mem_singleton, not_or]
      exact ⟨hls.1, by decide⟩
    have hline := keepEnds_line hcr (withEnds ls)
    rw [List.append_assoc, List.append_assoc] at hline
    rw [withEnds_cons, List.map_cons, ← ih hls.2]
    exact hline

theorem withEnds_cut (hls : ∀ l ∈ ls, LF ∉ l) {x z : Bytes}
    (h : withEnds ls = x ++ CR :: LF :: z) :
    ∃ before l after, ls = before ++ l :: after ∧ x = withEnds before ++ l ∧
      z = withEnds after := by
  induction ls generalizing x with
  | nil =>
    have hnil : x ++ CR :: LF :: z ≠ [] := by simp
    exact absurd h.symm hnil
  | cons l ls ih =>
    rw [List.forall_mem_cons] at hls
    rw [withEnds_cons] at h
    have hcr : (CR : UInt8) ≠ LF := by decide
    rcases List.append_eq_append_iff.mp h with ⟨d, rfl, hd⟩ | ⟨d, rfl, hd⟩
    · -- the line feed is the one of `l`, or stands behind it
      match d, hd with
      | [], hd =>
        refine ⟨[], l, ls, rfl, by simp [withEnds], ?_⟩
        exact (List.cons.inj (List.cons.inj hd).2).2.symm
      | [c], hd => exact absurd (List.cons.inj (List.cons.inj hd).2).1 hcr.symm
      | c :: c' :: d, hd =>
        obtain ⟨hc, hrest⟩ := List.cons.inj hd
        obtain ⟨hc', hrest⟩ := List.cons.inj hrest
        obtain ⟨before, k, after, rfl, rfl, rfl⟩ := ih hls.2 hrest
        refine ⟨l :: before, k, after, rfl, ?_, rfl⟩
        rw [withEnds_cons, ← hc, ← hc']
        simp
    · match d, hd with
      | [], hd =>
        refine ⟨[], x, ls, by simp, by simp [withEnds], ?_⟩
        exact (List.cons.inj (List.cons.inj hd).2).2
      | [c], hd => exact absurd (List.cons.inj (List.cons.inj hd).2).1 hcr.symm
      | c :: c' :: d, hd =>
        have hlf : LF = c' := (List.cons.inj (List.cons.inj hd).2).1
        refine absurd ?_ hls.1
        rw [hlf]
        simp

theorem lf_notMem_splitLines (hcur : LF ∉ cur) (m : Bytes) :
    ∀ l ∈ splitLinesGo cur m, LF ∉ l := by
  induction m generalizing cur with
  | nil =>
    rw [splitLinesGo]
    split_ifs
    · exact List.forall_mem_nil _
    · simpa using hcur
  | cons b m ih =>
    rw [splitLinesGo]
    split_ifs with hb
    · refine List.forall_mem_cons.mpr ⟨?_, ih List.not_mem_nil⟩
      rw [stripCr]
      split_ifs
      · exact fun h => hcur (List.dropLast_subset cur h)
      · exact hcur
    · refine ih ?_
      simp only [List.mem_append, List.mem_singleton, not_or]
      exact ⟨hcur, Ne.symm hb⟩

theorem crlfEnds_line (hcur : LF ∉ cur) (rest : Bytes) :
    crlfEnds (cur ++ LF :: rest) = stripCr cur ++ CR :: LF :: crlfEnds rest := by
  induction cur with
  | nil => rfl
  | cons c cur ih =>
    have hc : c ≠ LF := fun h => hcur (h ▸ List.mem_cons_self ..)
    have hrest := ih fun h => hcur (List.mem_cons_of_mem c h)
    rw [List.cons_append, crlfEnds, if_neg hc, hrest]
    cases cur with
    | nil =>
      by_cases hcr : c = CR
      · simp [hcr, stripCr]
      · simp [hcr, stripCr]
    | cons d cur =>
      have hd : ¬ (c = CR ∧ ((d :: cur) ++ LF :: rest).head? = some LF) := by
        rintro ⟨-, hhead⟩
        exact hcur (by simp [Option.some.inj hhead])
      rw [if_neg hd, stripCr, stripCr]
      simp only [List.getLast?_cons_cons]
      split_ifs <;> simp

theorem crlfEnds_plain (hcur : LF ∉ cur) : crlfEnds cur = cur := by
  induction cur with
  | nil => rfl
  | cons c cur ih =>
    have hc : c ≠ LF := fun h => hcur (h ▸ List.mem_cons_self ..)
    have hrest : LF ∉ cur := fun h => hcur (List.mem_cons_of_mem c h)
    have hhead : ¬ (c = CR ∧ cur.head? = some LF) := fun h => hrest (List.mem_of_head? h.2)
    rw [crlfEnds, if_neg hc, if_neg hhead, ih hrest]

theorem withEnds_splitLinesGo (hcur : LF ∉ cur) (m : Bytes) :
    withEnds (splitLinesGo cur m) = normal (cur ++ m) := by
  induction m generalizing cur with
  | nil =>
    rw [List.append_nil, splitLinesGo, normal]
    by_cases hnil : cur = []
    · simp [hnil, withEnds, crlfEnds]
    · have hlast : ¬ cur.getLast? = some LF := fun h => hcur (List.mem_of_getLast? h)
      simp [hnil, hlast, withEnds, crlfEnds_plain hcur]
  | cons b m ih =>
    rw [splitLinesGo]
    split_ifs with hb
    · rw [withEnds_cons, ih List.not_mem_nil, List.nil_append, hb, normal, normal,
        crlfEnds_line hcur]
      cases m with
      | nil => simp [crlfEnds]
      | cons c m =>
        have hlast : (cur ++ LF :: c :: m).getLast? = (c :: m).getLast? := by
          simp [List.getLast?_append, List.getLast?_cons]
        rw [hlast]
        by_cases hended : (c :: m).getLast? = some LF
        · rw [if_pos (.inr hended), if_pos (.inr hended)]
        · rw [if_neg (by simp [hended]), if_neg (by simp [hended])]
          simp
    · have hcons : LF ∉ cur ++ [b] := by
        simp only [List.mem_append, List.mem_singleton, not_or]
        exact ⟨hcur, Ne.symm hb⟩
      rw [ih hcons]
      simp

theorem withEnds_splitLines (m : Bytes) : withEnds (splitLines m) = normal m :=
  withEnds_splitLinesGo List.not_mem_nil m

theorem lf_notMem_stuffLine {l : Bytes} (h : LF ∉ l) : LF ∉ stuffLine l := by
  rw [stuffLine]
  split_ifs
  · simp only [List.mem_cons, not_or]
    exact ⟨by decide, h⟩
  · exact h

theorem stuffLine_ne_dot (l : Bytes) : stuffLine l ≠ [DOT] := by
  rw [stuffLine]
  split_ifs with hdot
  · intro h
    rw [(List.cons.inj h).2] at hdot
    cases hdot
  · intro h
    exact hdot (by rw [h]; rfl)

theorem undot_stuffLine (l : Bytes) : undot (stuffLine l ++ crlf) = l ++ crlf := by
  rw [stuffLine]
  split_ifs with hdot
  · rfl
  · rw [undot, if_neg]
    cases l with
    | nil => decide
    | cons b l => simpa using hdot

theorem buildMultilineBinary_eq (status : Text) (ls : List Bytes) :
    buildMultilineBinary status ls =
      withEnds (utf8Encode status :: (ls.map stuffLine ++ [[DOT]])) := by
  have hend : utf8Encode ("\r\n" : Text) = crlf := by
    decide
  have hstatus : utf8Encode (status ++ "\r\n") = utf8Encode status ++ crlf := by
    rw [← hend]
    exact List.flatMap_append
  rw [buildMultilineBinary, hstatus, withEnds_cons, withEnds_append]
  simp [withEnds, List.flatMap_map, crlf, terminator]

theorem terminator_only_at_end {status : Text} (hstatus : LF ∉ utf8Encode status)
    (hls : ∀ l ∈ ls, LF ∉ l) {x y : Bytes}
    (h : buildMultilineBinary status ls = x ++ crlf ++ terminator ++ y) : y = [] := by
  have hlines : ∀ l ∈ utf8Encode status :: (ls.map stuffLine ++ [[DOT]]), LF ∉ l := by
    refine List.forall_mem_cons.mpr ⟨hstatus, fun l hl => ?_⟩
    rcases List.mem_append.mp hl with hl | hl
    · obtain ⟨k, hk, rfl⟩ := List.mem_map.mp hl
      exact lf_notMem_stuffLine (hls k hk)
    · rw [List.mem_singleton.mp hl]
      decide
  rw [buildMultilineBinary_eq] at h
  obtain ⟨before, l, after, hcut, -, hafter⟩ := withEnds_cut hlines
    (show _ = x ++ CR :: LF :: (DOT :: CR :: LF :: y) by rw [h]; simp [crlf, terminator])
  have hlines' : ∀ l ∈ after, LF ∉ l := fun k hk => hlines k (by rw [hcut]; simp [hk])
  obtain ⟨before', l', after', rfl, hdot, rfl⟩ := withEnds_cut hlines'
    (show withEnds after = [DOT] ++ CR :: LF :: y from hafter.symm)
  have hfirst : before' = [] := by
    cases before' with
    | nil => rfl
    | cons k ks =>
      rw [withEnds_cons] at hdot
      have hlen := congrArg List.length hdot
      simp only [List.length_append, List.length_cons, List.length_nil] at hlen
      omega
  have hl' : l' = [DOT] := by
    rw [hfirst] at hdot
    exact hdot.symm
  -- the only line that is a dot is the last one
  rcases List.eq_nil_or_concat' after' with rfl | ⟨rest, last, rfl⟩
  · rfl
  · rw [hfirst, hl', List.nil_append] at hcut
    have hcut' : (utf8Encode status :: ls.map stuffLine) ++ [[DOT]] =
        (before ++ l :: [DOT] :: rest) ++ [last] := by
      simpa using hcut
    have hinit := (List.append_inj' hcut' rfl).1
    have hmem : [DOT] ∈ ls.map stuffLine := by
      cases before with
      | nil =>
        rw [(List.cons.inj hinit).2]
        exact List.mem_cons_self ..
      | cons k ks =>
        rw [(List.cons.inj hinit).2]
        simp
    obtain ⟨k, -, hk⟩ := List.mem_map.mp hmem
    exact absurd hk (stuffLine_ne_dot k)

theorem multiline_ends (status : Text) (ls : List Bytes) :
    ∃ x, buildMultilineBinary status ls = x ++ crlf ++ terminator := by
  rw [buildMultilineBinary_eq, ← List.cons_append, withEnds_append]
  rcases List.eq_nil_or_concat' (utf8Encode status :: ls.map stuffLine) with hnil | ⟨init, l, hl⟩
  · cases hnil
  · refine ⟨withEnds init ++ l, ?_⟩
    rw [hl, withEnds_append]
    simp [withEnds, crlf, terminator]

theorem recover_multiline {status : Text} (hstatus : LF ∉ utf8Encode status)
    (hls : ∀ l ∈ ls, LF ∉ l) : recover (buildMultilineBinary status ls) = withEnds ls := by
  have hreply : buildMultilineBinary status ls =
      (utf8Encode status ++ [CR]) ++ LF :: (withEnds (ls.map stuffLine) ++ terminator) := by
    rw [buildMultilineBinary_eq, withEnds_cons, withEnds_append]
    simp [withEnds, crlf, terminator]
  have hskip : ∀ b ∈ utf8Encode status ++ [CR], decide (b ≠ LF) = true := by
    intro b hb
    rw [decide_eq_true_eq]
    rintro rfl
    rcases List.mem_append.mp hb with hb | hb
    · exact hstatus hb
    · exact absurd hb (by decide)
  have hstuffed : ∀ l ∈ ls.map stuffLine, LF ∉ l := by
    intro l hl
    obtain ⟨k, hk, rfl⟩ := List.mem_map.mp hl
    exact lf_notMem_stuffLine (hls k hk)
  have hdrop : ((buildMultilineBinary status ls).dropWhile (· ≠ LF)).drop 1 =
      withEnds (ls.map stuffLine) ++ terminator := by
    rw [hreply, List.dropWhile_append_of_pos hskip]
    simp
  unfold recover
  dsimp only
  rw [hdrop, List.length_append, Nat.add_sub_cancel, List.take_left, keepEnds_withEnds hstuffed,
    List.map_map, List.map_map]
  have hback : (undot ∘ (· ++ crlf)) ∘ stuffLine = (· ++ crlf) :=
    funext fun l => undot_stuffLine l
  rw [hback]
  rfl

def bodyLines (all : List Bytes) : List Bytes := (all.dropWhile (· ≠ [])).drop 1

def topLines (lines : Option Nat) (all : List Bytes) : List Bytes :=
  all.takeWhile (· ≠ []) ++ (all.dropWhile (· ≠ [])).take 1 ++ asked lines (bodyLines all)

theorem buildTopBytes_eq (limit : Nat) (m : Bytes) (lines : Option Nat) :
    buildTopBytes limit m lines =
      if limit < (asked lines (bodyLines (splitLines m))).length then none
      else some (buildMultilineBinary "+OK top of message follows" (topLines lines (splitLines m))) := by
  unfold buildTopBytes topLines
  change (if limit < (asked lines (bodyLines (splitLines m))).length then none else some _) = _
  congr 3
  have hcut : (splitLines m).takeWhile (· ≠ []) ++ (splitLines m).dropWhile (· ≠ []) =
      splitLines m := List.takeWhile_append_dropWhile
  have hlen := congrArg List.length hcut
  rw [List.length_append] at hlen
  cases hrest : (splitLines m).dropWhile (· ≠ []) with
  | nil =>
    rw [hrest, List.length_nil] at hlen
    rw [if_neg (by omega), bodyLines, hrest]
    cases lines <;> simp [asked]
  | cons blank body =>
    have hblank : blank = [] := by
      have hhead := List.head?_dropWhile_not (fun l : Bytes => decide (l ≠ [])) (splitLines m)
      rw [hrest] at hhead
      simpa using hhead
    rw [hrest, List.length_cons] at hlen
    rw [if_pos (by omega), hblank, bodyLines, hrest]
    cases lines <;> simp [asked]

theorem lf_notMem_topLines {lines : Option Nat} (hls : ∀ l ∈ ls, LF ∉ l) :
    ∀ l ∈ topLines lines ls, LF ∉ l := by
  have hrest : ∀ l ∈ ls.dropWhile (· ≠ []), LF ∉ l := fun l hl =>
    hls l ((List.dropWhile_sublist _).subset hl)
  intro l hl
  rcases List.mem_append.mp hl with hl | hl
  · rcases List.mem_append.mp hl with hl | hl
    · exact hls l ((List.takeWhile_sublist _).subset hl)
    · exact hrest l (List.mem_of_mem_take hl)
  · cases lines with
    | none => exact hrest l (List.mem_of_mem_drop hl)
    | some n => exact hrest l (List.mem_of_mem_drop (List.mem_of_mem_take hl))

theorem blank_comp : (fun l : Bytes => decide (l ≠ crlf)) ∘ (· ++ crlf) = fun l => decide (l ≠ []) := by
  funext l
  simp

theorem asked_bodyOf (hls : ∀ l ∈ ls, LF ∉ l) (lines : Option Nat) :
    asked lines (bodyOf (withEnds ls)) = (asked lines (bodyLines ls)).map (· ++ crlf) := by
  rw [bodyOf, keepEnds_withEnds hls, List.dropWhile_map, blank_comp, ← List.map_drop, bodyLines]
  cases lines with
  | none => rfl
  | some n => exact List.map_take.symm

theorem topOf_withEnds (hls : ∀ l ∈ ls, LF ∉ l) (lines : Option Nat) :
    topOf lines (withEnds ls) = withEnds (topLines lines ls) := by
  unfold topOf topLines
  dsimp only
  rw [asked_bodyOf hls, keepEnds_withEnds hls, List.takeWhile_map, List.dropWhile_map, blank_comp,
    withEnds_append, withEnds_append]
  simp only [← List.map_take, List.flatten_append]
  rfl

def expected (mode : RetrieveMode) (m : Bytes) : Bytes :=
  match mode with
  | .retr => normal m
  | .top lines => topOf lines (normal m)

theorem lf_notMem_status {s : Text} (h : ∀ c ∈ s, c.toNat < 128 ∧ c.toNat ≠ 10) :
    LF ∉ utf8Encode s := by
  rw [utf8Encode_ascii fun c hc => (h c hc).1]
  intro hmem
  obtain ⟨c, hc, heq⟩ := List.mem_map.mp hmem
  obtain ⟨hlow, hne⟩ := h c hc
  have hcode := congrArg UInt8.toNat heq
  rw [toNat_ofNat_byte (by omega)] at hcode
  exact hne hcode

theorem octets_status (size : Nat) :
    ∀ c ∈ ("+OK " ++ natText size ++ " octets" : Text), c.toNat < 128 ∧ c.toNat ≠ 10 := by
  have hfront : ∀ c ∈ ("+OK " : Text), c.toNat < 128 ∧ c.toNat ≠ 10 := by
    decide
  have hback : ∀ c ∈ (" octets" : Text), c.toNat < 128 ∧ c.toNat ≠ 10 := by
    decide
  intro c hc
  rcases List.mem_append.mp hc with hc | hc
  · rcases List.mem_append.mp hc with hc | hc
    · exact hfront c hc
    · obtain ⟨hlow, hhigh⟩ := natText_digits size c hc
      omega
  · exact hback c hc

/-- TOP asks for no more lines of the body than a call may have arguments. -/
def RetrieveMode.Fits (argumentLimit : Nat) (m : Bytes) : RetrieveMode → Prop
  | .retr => True
  | .top lines => (asked lines (bodyOf (normal m))).length ≤ argumentLimit

/-- The reply to a retrieval: it ends where its terminator stands, and the client has the
message again. The other actions answer what waited for it. -/
def Replied {ρ : Type} (s : Setup) (nonce : Nat → Text) (e : Engine ρ) (m : Bytes)
    (mode : RetrieveMode) : Prop :=
  ∃ e' bytes actions, retrieveResult s nonce (some m) e = some (e', .replyBinary bytes :: actions) ∧
    (∃ x, bytes = x ++ crlf ++ terminator) ∧
    (∀ x y, bytes = x ++ crlf ++ terminator ++ y → y = []) ∧
    recover bytes = expected mode m

theorem asked_normal (lines : Option Nat) (m : Bytes) :
    (asked lines (bodyOf (normal m))).length = (asked lines (bodyLines (splitLines m))).length := by
  have hlines : ∀ l ∈ splitLines m, LF ∉ l := lf_notMem_splitLines List.not_mem_nil m
  rw [← withEnds_splitLines, asked_bodyOf hlines, List.length_map]

/-- The lines of the body are pushed by one call. -/
theorem not_replied_of_many {ρ : Type} {s : Setup} {nonce : Nat → Text} {e : Engine ρ} {m : Bytes}
    {msgnum : Nat} {lines : Option Nat} (hpending : e.pending = some (.retrieve msgnum (.top lines)))
    (hmsg : (e.messages.find? (·.msgnum = msgnum)).isSome)
    (hmany : s.host.argumentLimit < (asked lines (bodyOf (normal m))).length) :
    ¬ Replied s nonce e m (.top lines) := by
  obtain ⟨msg, hmsg⟩ := Option.isSome_iff_exists.mp hmsg
  rw [asked_normal] at hmany
  rintro ⟨e', bytes, actions, hresult, -⟩
  have hnone : retrieveResult s nonce (some m) e = none := by
    simp only [retrieveResult, messageGiven, hpending, hmsg, buildTopBytes_eq, if_pos hmany,
      Option.map_none]
  rw [hnone] at hresult
  cases hresult

theorem multiline_round_trip {ρ : Type} (s : Setup) (nonce : Nat → Text) (e : Engine ρ)
    (m : Bytes) {msgnum : Nat} {mode : RetrieveMode}
    (hpending : e.pending = some (.retrieve msgnum mode))
    (hmsg : (e.messages.find? (·.msgnum = msgnum)).isSome) :
    Replied s nonce e m mode ↔ mode.Fits s.host.argumentLimit m := by
  refine ⟨fun hreplied => ?_, fun hfits => ?_⟩
  · cases mode with
    | retr => trivial
    | top lines => exact not_lt.mp fun hmany => not_replied_of_many hpending hmsg hmany hreplied
  obtain ⟨msg, hmsg⟩ := Option.isSome_iff_exists.mp hmsg
  have hlines : ∀ l ∈ splitLines m, LF ∉ l := lf_notMem_splitLines List.not_mem_nil m
  have hmain : ∀ (status : Text) (ls : List Bytes), (∀ c ∈ status, c.toNat < 128 ∧ c.toNat ≠ 10) →
      (∀ l ∈ ls, LF ∉ l) →
      (∃ x, buildMultilineBinary status ls = x ++ crlf ++ terminator) ∧
      (∀ x y, buildMultilineBinary status ls = x ++ crlf ++ terminator ++ y → y = []) ∧
      recover (buildMultilineBinary status ls) = withEnds ls := by
    intro status ls hstatus hls
    have hlf := lf_notMem_status hstatus
    exact ⟨multiline_ends status ls, fun x y => terminator_only_at_end hlf hls,
      recover_multiline hlf hls⟩
  cases mode with
  | retr =>
    refine ⟨_, _, _, by simp only [retrieveResult, messageGiven, hpending, hmsg]; rfl, ?_⟩
    rw [expected, ← withEnds_splitLines]
    exact hmain _ _ (octets_status msg.sizeBytes) hlines
  | top lines =>
    have hfew : ¬ s.host.argumentLimit < (asked lines (bodyLines (splitLines m))).length := by
      rw [← asked_normal]
      exact Nat.not_lt.mpr hfits
    refine ⟨_, _, _, by
      simp only [retrieveResult, messageGiven, hpending, hmsg, buildTopBytes_eq, if_neg hfew]; rfl, ?_⟩
    rw [expected, ← withEnds_splitLines, topOf_withEnds hlines]
    exact hmain _ _ (by decide) (lf_notMem_topLines hlines)

def plainSetup : Setup :=
  { host := { cases := ⟨id, id⟩, sha256 := id, hmac := fun _ b => b, serverNonce := fun _ => [] }
    options := { hostname := "mail" } }

def retrieving (mode : RetrieveMode) : Engine Unit :=
  { newEngine plainSetup Unit with
    state := .transaction
    pending := some (.retrieve 1 mode)
    messages := numbered [⟨"u1", 4, ()⟩] }

/-- A bare dot and a bare line feed. -/
theorem multiline_round_trip_dot :
    Replied plainSetup (fun _ => []) (retrieving (.top (some 1))) [DOT, LF, DOT, CR] (.top (some 1)) :=
  (multiline_round_trip plainSetup (fun _ => []) (retrieving (.top (some 1))) [DOT, LF, DOT, CR] rfl
    (by decide)).mpr (by change _ ≤ 120000; decide)

theorem crlfEnds_blank (n : Nat) :
    crlfEnds (List.replicate n LF) = withEnds (List.replicate n []) := by
  induction n with
  | zero => rfl
  | succ n ih => rw [List.replicate_succ, crlfEnds, if_pos rfl, ih, List.replicate_succ]; rfl

theorem asked_blank (lines n : Nat) :
    (asked (some lines) (bodyOf (normal (List.replicate n LF)))).length = min lines (n - 1) := by
  have hnormal : normal (List.replicate n LF) = withEnds (List.replicate n []) := by
    rw [normal, if_pos, crlfEnds_blank]
    cases n with
    | zero => exact .inl rfl
    | succ n => exact .inr (by simp [List.getLast?_replicate])
  rw [hnormal, asked_bodyOf fun l hl => by simp [List.eq_of_mem_replicate hl], List.length_map,
    bodyLines, List.dropWhile_replicate]
  simp [asked]

/-- TOP for a million lines of a message with more empty lines than a call may have arguments. -/
theorem multiline_round_trip_fails :
    ¬ ∀ (s : Setup) (nonce : Nat → Text) (e : Engine Unit) (m : Bytes) (msgnum : Nat)
      (mode : RetrieveMode), e.pending = some (.retrieve msgnum mode) →
      (e.messages.find? (·.msgnum = msgnum)).isSome → Replied s nonce e m mode := by
  intro h
  refine absurd (h plainSetup (fun _ => []) (retrieving (.top (some 1000000)))
    (List.replicate 130000 LF) 1 _ rfl (by decide)) (not_replied_of_many rfl (by decide) ?_)
  rw [asked_blank]
  decide

end Ionosphere.Pop3
