import Ionosphere.Js.Number

/-! The text of an IPv4 and an IPv6 address, read and written by the DNS codec. What is
written is read back; other texts of the same address are read too. -/
namespace Ionosphere.Dns

open Ionosphere.Js

variable {gs : List Text} {b : Bytes} {c : Char}

def octet (part : Text) : Option UInt8 :=
  let n := number part
  if n.isInteger && !n.isNegative && n.toNat ≤ 255 then some (UInt8.ofNat n.toNat) else none

def parseIpv4 (s : Text) : Option Bytes :=
  let parts := s.splitOn '.'
  if parts.length ≠ 4 then none else parts.mapM octet

def formatIpv4 (b : Bytes) : Text := join ['.'] (b.map fun x => natText x.toNat)

theorem octet_natText : ∀ n < 256, octet (natText n) = some (UInt8.ofNat n) ∧ '.' ∉ natText n := by
  decide +kernel

theorem mapM_map_of_forall {α β γ : Type} {f : β → Option γ} {g : α → β} {h : α → γ} {xs : List α}
    (hall : ∀ x ∈ xs, f (g x) = some (h x)) : (xs.map g).mapM f = some (xs.map h) := by
  induction xs with
  | nil => rfl
  | cons x xs ih =>
    have hrest := ih fun y hy => hall y (List.mem_cons_of_mem _ hy)
    rw [List.map_cons, List.mapM_cons, hall x (List.mem_cons_self ..), hrest]
    rfl

theorem parseIpv4_format (h : b.length = 4) : parseIpv4 (formatIpv4 b) = some b := by
  have hne : b.map (fun x => natText x.toNat) ≠ [] := by
    intro hnil
    rw [List.map_eq_nil_iff.mp hnil] at h
    cases h
  have hsplit : (formatIpv4 b).splitOn '.' = b.map fun x => natText x.toNat := by
    refine List.splitOn_intercalate '.' (fun part hpart => ?_) hne
    obtain ⟨x, -, rfl⟩ := List.mem_map.mp hpart
    exact (octet_natText x.toNat x.toNat_lt).2
  have hparts : (b.map fun x => natText x.toNat).mapM octet = some (b.map id) := by
    refine mapM_map_of_forall fun x _ => ?_
    rw [(octet_natText x.toNat x.toNat_lt).1, UInt8.ofNat_toNat]
    rfl
  unfold parseIpv4
  rw [hsplit]
  simp only [List.length_map, h, ne_eq, not_true_eq_false, if_false, hparts, List.map_id]

/-- `x.toString(16)`. -/
def hexText (n : Nat) : Text := Nat.toDigits 16 n

/-- `parseInt(s, 16)`: the hexadecimal digits at the front, behind white space, a sign and
`0x`; `none` is `NaN`. -/
def parseHex (s : Text) : Option Int :=
  let (neg, t) := match trimStart s with
    | '-' :: t => (true, t)
    | '+' :: t => (false, t)
    | t => (false, t)
  let t := match t with
    | '0' :: 'x' :: t => t
    | '0' :: 'X' :: t => t
    | t => t
  let ds := t.takeWhile isHexDigit
  if ds = [] then none
  else some (if neg then -(digitsValue 16 ds : Int) else digitsValue 16 ds)

/-- `s.split("::")`. -/
def splitDouble : Text → List Text
  | [] => [[]]
  | ':' :: ':' :: rest => [] :: splitDouble rest
  | c :: rest => (splitDouble rest).modifyHead (c :: ·)

def toGroups (part : Text) : List Text := if part = [] then [] else part.splitOn ':'

def groupBytes (group : Text) : Option Bytes :=
  match parseHex group with
  | none => none
  | some v =>
    if v < 0 ∨ 0xffff < v then none
    else some [UInt8.ofNat ((v.toNat >>> 8) &&& 0xff), UInt8.ofNat (v.toNat &&& 0xff)]

def parseIpv6 (s : Text) : Option Bytes :=
  match splitDouble s with
  | [whole] =>
    if (toGroups whole).length ≠ 8 then none
    else ((toGroups whole).mapM groupBytes).map List.flatten
  | [h, t] =>
    let head := toGroups h
    let tail := toGroups t
    if 8 < head.length + tail.length then none
    else
      ((head ++ List.replicate (8 - head.length - tail.length) ['0'] ++ tail).mapM groupBytes).map
        List.flatten
  | _ => none

def groupsOf : Bytes → List Nat
  | hi :: lo :: rest => ((hi.toNat <<< 8) ||| lo.toNat) :: groupsOf rest
  | _ => []

/-- The state of the search for the longest run of zeros; nothing reads `bestStart` while
`bestLen` is zero. -/
structure Runs where
  bestStart : Nat := 0
  bestLen : Nat := 0
  curStart : Option Nat := none
  curLen : Nat := 0

def Runs.step (i group : Nat) (r : Runs) : Runs :=
  if group = 0 then
    let start := r.curStart.getD i
    let len := r.curLen + 1
    if r.bestLen < len then ⟨start, len, some start, len⟩
    else { r with curStart := some start, curLen := len }
  else { r with curStart := none, curLen := 0 }

def scanRuns : Nat → List Nat → Runs → Runs
  | _, [], r => r
  | i, g :: gs, r => scanRuns (i + 1) gs (r.step i g)

def colons (groups : List Nat) : Text := join [':'] (groups.map hexText)

def formatIpv6 (b : Bytes) : Text :=
  let groups := groupsOf b
  let r := scanRuns 0 groups {}
  if r.bestLen < 2 then colons groups
  else colons (groups.take r.bestStart) ++ ':' :: ':' :: colons (groups.drop (r.bestStart + r.bestLen))

theorem isHexDigit_digitChar : ∀ n < 16, isHexDigit n.digitChar = true ∧
    digitValue n.digitChar = n ∧ n.digitChar ≠ ':' := by
  decide

theorem mem_hexText {n : Nat} : ∀ c ∈ hexText n, ∃ d : Nat, d < 16 ∧ c = d.digitChar := by
  induction n using Nat.strong_induction_on with
  | _ n ih =>
    intro c hc
    unfold hexText at hc
    by_cases hsmall : n < 16
    · rw [Nat.toDigits_of_lt_base hsmall] at hc
      exact ⟨n, hsmall, List.mem_singleton.mp hc⟩
    · rw [Nat.toDigits_of_base_le (by decide) (Nat.le_of_not_lt hsmall)] at hc
      obtain hc | hc := List.mem_append.mp hc
      · exact ih (n / 16) (by omega) c hc
      · exact ⟨n % 16, by omega, List.mem_singleton.mp hc⟩

theorem digitsValue_append (base : Nat) (ds : Text) (c : Char) :
    digitsValue base (ds ++ [c]) = digitsValue base ds * base + digitValue c := by
  simp [digitsValue]

theorem digitsValue_hexText (n : Nat) : digitsValue 16 (hexText n) = n := by
  induction n using Nat.strong_induction_on with
  | _ n ih =>
    unfold hexText
    by_cases hsmall : n < 16
    · rw [Nat.toDigits_of_lt_base hsmall]
      simp [digitsValue, (isHexDigit_digitChar n hsmall).2.1]
    · have hrest := ih (n / 16) (by omega)
      unfold hexText at hrest
      rw [Nat.toDigits_of_base_le (by decide) (Nat.le_of_not_lt hsmall), digitsValue_append, hrest,
        (isHexDigit_digitChar (n % 16) (by omega)).2.1]
      omega

theorem hexText_ne_nil (n : Nat) : hexText n ≠ [] := Nat.toDigits_ne_nil

theorem colon_notMem_hexText (n : Nat) : ':' ∉ hexText n := by
  intro hmem
  obtain ⟨d, hd, hc⟩ := mem_hexText ':' hmem
  exact (isHexDigit_digitChar d hd).2.2 hc.symm

theorem hexDigit_plain (h : isHexDigit c = true) :
    isWhiteSpace c = false ∧ c ≠ '-' ∧ c ≠ '+' ∧ c ≠ 'x' ∧ c ≠ 'X' ∧ c ≠ ':' := by
  have hcode : c.toNat < 128 := by
    simp only [isHexDigit, isDigit, Bool.or_eq_true, Bool.and_eq_true, decide_eq_true_eq] at h
    omega
  have hall : ∀ n < 128, isHexDigit (Char.ofNat n) = true →
      isWhiteSpace (Char.ofNat n) = false ∧ Char.ofNat n ≠ '-' ∧ Char.ofNat n ≠ '+' ∧
        Char.ofNat n ≠ 'x' ∧ Char.ofNat n ≠ 'X' ∧ Char.ofNat n ≠ ':' := by
    decide +kernel
  have hself := hall c.toNat hcode
  rw [Char.ofNat_toNat] at hself
  exact hself h

theorem digitValue_lt (h : isHexDigit c = true) : digitValue c < 16 := by
  simp only [isHexDigit, isDigit, Bool.or_eq_true, Bool.and_eq_true, decide_eq_true_eq] at h
  unfold digitValue
  dsimp only
  split_ifs <;> omega

theorem parseHex_digits {ds : Text} (rest : Text) (hds : ∀ c ∈ ds, isHexDigit c = true) (hne : ds ≠ [])
    (hrest : ∀ c ∈ rest.head?, isHexDigit c = false ∧ c ≠ 'x' ∧ c ≠ 'X') :
    parseHex (ds ++ rest) = some (digitsValue 16 ds : Int) := by
  have hstop : rest.takeWhile isHexDigit = [] := by
    cases rest with
    | nil => rfl
    | cons c cs => simp [(hrest c rfl).1]
  have hall : (ds ++ rest).takeWhile isHexDigit = ds := by
    rw [List.takeWhile_append_of_pos hds, hstop, List.append_nil]
  obtain ⟨d, ds', rfl⟩ := List.exists_cons_of_ne_nil hne
  obtain ⟨hblank, hminus, hplus, -⟩ := hexDigit_plain (hds d (List.mem_cons_self ..))
  have hsecond : ∀ t c, (d :: ds') ++ rest = d :: c :: t → c ≠ 'x' ∧ c ≠ 'X' := by
    intro t c heq
    cases ds' with
    | nil =>
      have hrest' : rest = c :: t := (List.cons.inj heq).2
      exact (hrest c (by rw [hrest']; rfl)).2
    | cons d' ds' =>
      have hc : d' = c := (List.cons.inj (List.cons.inj heq).2).1
      obtain ⟨-, -, -, hx, hX, -⟩ := hexDigit_plain (hds d' (by simp))
      exact ⟨hc ▸ hx, hc ▸ hX⟩
  have htrim : trimStart ((d :: ds') ++ rest) = (d :: ds') ++ rest := by
    simp [trimStart, hblank]
  unfold parseHex
  rw [htrim]
  split
  rename_i neg t hsplit
  split at hsplit
  · rename_i htext
    exact absurd (List.cons.inj htext).1 hminus
  · rename_i htext
    exact absurd (List.cons.inj htext).1 hplus
  · cases hsplit
    dsimp only
    split
    · rename_i tail htext
      obtain rfl : d = '0' := (List.cons.inj htext).1
      exact absurd rfl (hsecond tail 'x' htext).1
    · rename_i tail htext
      obtain rfl : d = '0' := (List.cons.inj htext).1
      exact absurd rfl (hsecond tail 'X' htext).2
    · rw [hall, if_neg hne]
      rfl

theorem parseHex_hexText (n : Nat) : parseHex (hexText n) = some (n : Int) := by
  have hdigits : ∀ c ∈ hexText n, isHexDigit c = true := by
    intro c hc
    obtain ⟨d, hd, rfl⟩ := mem_hexText c hc
    exact (isHexDigit_digitChar d hd).1
  have hread := parseHex_digits [] hdigits (hexText_ne_nil n) (by simp)
  rw [List.append_nil, digitsValue_hexText] at hread
  exact hread

theorem groupBytes_hexText {hi lo : UInt8} :
    groupBytes (hexText ((hi.toNat <<< 8) ||| lo.toNat)) = some [hi, lo] := by
  have hjoin : (hi.toNat <<< 8) ||| lo.toNat = hi.toNat * 256 + lo.toNat := by
    rw [← Nat.shiftLeft_add_eq_or_of_lt lo.toNat_lt, Nat.shiftLeft_eq]
  have hhi := hi.toNat_lt
  have hlo := lo.toNat_lt
  have hsmall : ¬ (((hi.toNat * 256 + lo.toNat : Nat) : Int) < 0 ∨
      (0xffff : Int) < ((hi.toNat * 256 + lo.toNat : Nat) : Int)) := by
    omega
  have hlow : (hi.toNat * 256 + lo.toNat) &&& 0xff = lo.toNat := by
    have hmask : (hi.toNat * 256 + lo.toNat) &&& 0xff = (hi.toNat * 256 + lo.toNat) % 256 :=
      Nat.and_two_pow_sub_one_eq_mod _ 8
    omega
  have hhigh : (hi.toNat * 256 + lo.toNat) >>> 8 &&& 0xff = hi.toNat := by
    have hmask : (hi.toNat * 256 + lo.toNat) >>> 8 &&& 0xff =
        (hi.toNat * 256 + lo.toNat) >>> 8 % 256 := Nat.and_two_pow_sub_one_eq_mod _ 8
    rw [hmask, Nat.shiftRight_eq_div_pow]
    omega
  unfold groupBytes
  rw [parseHex_hexText, hjoin]
  simp only [if_neg hsmall, Int.toNat_natCast, hlow, hhigh, UInt8.ofNat_toNat]

theorem splitDouble_append {g : Text} (h : ':' ∉ g) (rest : Text) :
    splitDouble (g ++ rest) = (splitDouble rest).modifyHead (g ++ ·) := by
  induction g with
  | nil =>
    rw [List.nil_append]
    cases splitDouble rest <;> rfl
  | cons c cs ih =>
    have hc : c ≠ ':' := fun hcolon => h (hcolon ▸ List.mem_cons_self ..)
    have hrest := ih fun hmem => h (List.mem_cons_of_mem _ hmem)
    have hstep : splitDouble (c :: (cs ++ rest)) =
        (splitDouble (cs ++ rest)).modifyHead (c :: ·) := by
      rw [splitDouble]
      rintro tail rfl
      exact absurd rfl hc
    rw [List.cons_append, hstep, hrest]
    cases splitDouble rest <;> rfl

theorem splitDouble_colon (h : c ≠ ':') (rest : Text) :
    splitDouble (':' :: c :: rest) = (splitDouble (c :: rest)).modifyHead (':' :: ·) := by
  rw [splitDouble]
  intro tail _ hcolon
  exact h (List.cons.inj hcolon).1

/-- Groups that single colons can join and separate again. -/
def Joinable (gs : List Text) : Prop := ∀ g ∈ gs, g ≠ [] ∧ ':' ∉ g

theorem join_cons_cons (g g' : Text) (gs : List Text) :
    join [':'] (g :: g' :: gs) = g ++ ':' :: join [':'] (g' :: gs) := by
  simp [join, List.intercalate_cons_cons]

theorem join_head {g : Text} (h : Joinable (g :: gs)) :
    ∃ c cs, join [':'] (g :: gs) = c :: cs ∧ c ≠ ':' := by
  obtain ⟨hne, hcolon⟩ := h g (List.mem_cons_self ..)
  obtain ⟨c, cs, rfl⟩ := List.exists_cons_of_ne_nil hne
  have hc : c ≠ ':' := by
    rintro rfl
    exact hcolon (List.mem_cons_self ..)
  cases gs with
  | nil => exact ⟨c, cs, by simp [join], hc⟩
  | cons g' gs => exact ⟨c, cs ++ ':' :: join [':'] (g' :: gs), by rw [join_cons_cons]; rfl, hc⟩

theorem splitDouble_join (h : Joinable gs) (rest : Text) :
    splitDouble (join [':'] gs ++ rest) = (splitDouble rest).modifyHead (join [':'] gs ++ ·) := by
  induction gs with
  | nil => exact splitDouble_append (by simp [join]) rest
  | cons g gs ih =>
    have hg := (h g (List.mem_cons_self ..)).2
    have hgs : Joinable gs := fun g' hg' => h g' (List.mem_cons_of_mem _ hg')
    cases gs with
    | nil =>
      have hone : join [':'] [g] = g := by simp [join]
      rw [hone]
      exact splitDouble_append hg rest
    | cons g' gs =>
      obtain ⟨c, cs, hhead, hc⟩ := join_head hgs
      have hcolon := splitDouble_colon hc (cs ++ rest)
      rw [← List.cons_append, ← hhead, ih hgs] at hcolon
      rw [join_cons_cons, List.append_assoc, splitDouble_append hg, List.cons_append, hcolon]
      cases splitDouble rest with
      | nil => rfl
      | cons x xs => simp

theorem splitDouble_join_single (h : Joinable gs) :
    splitDouble (join [':'] gs) = [join [':'] gs] := by
  have hwhole := splitDouble_join h []
  rw [List.append_nil] at hwhole
  rw [hwhole]
  simp [splitDouble]

theorem splitDouble_join_two {head tail : List Text} (hh : Joinable head) (ht : Joinable tail) :
    splitDouble (join [':'] head ++ ':' :: ':' :: join [':'] tail) =
      [join [':'] head, join [':'] tail] := by
  have hdouble : splitDouble (':' :: ':' :: join [':'] tail) = [[], join [':'] tail] := by
    rw [splitDouble, splitDouble_join_single ht]
  rw [splitDouble_join hh, hdouble]
  simp

theorem toGroups_join (h : Joinable gs) : toGroups (join [':'] gs) = gs := by
  cases gs with
  | nil => rfl
  | cons g gs =>
    obtain ⟨c, cs, hhead, -⟩ := join_head h
    have hne : join [':'] (g :: gs) ≠ [] := by
      rw [hhead]
      exact List.cons_ne_nil c cs
    rw [toGroups, if_neg hne]
    exact List.splitOn_intercalate ':' (fun part hpart => (h part hpart).2) (by simp)

theorem joinable_hexText (groups : List Nat) : Joinable (groups.map hexText) := by
  intro g hg
  obtain ⟨n, -, rfl⟩ := List.mem_map.mp hg
  exact ⟨hexText_ne_nil n, colon_notMem_hexText n⟩

theorem splitDouble_single (groups : List Nat) : splitDouble (colons groups) = [colons groups] :=
  splitDouble_join_single (joinable_hexText groups)

theorem splitDouble_two (head tail : List Nat) :
    splitDouble (colons head ++ ':' :: ':' :: colons tail) = [colons head, colons tail] :=
  splitDouble_join_two (joinable_hexText head) (joinable_hexText tail)

theorem toGroups_colons (groups : List Nat) : toGroups (colons groups) = groups.map hexText :=
  toGroups_join (joinable_hexText groups)

/-- What the search knows of the groups it has seen. -/
structure Runs.Knows (seen : List Nat) (r : Runs) : Prop where
  best : ∃ x y : List Nat, seen = x ++ List.replicate r.bestLen 0 ++ y ∧ (0 < r.bestLen → x.length = r.bestStart)
  cur : ∃ x : List Nat, seen = x ++ List.replicate r.curLen 0 ∧
    (r.curStart = some x.length ∨ r.curStart = none ∧ r.curLen = 0)

theorem Runs.Knows.step {seen : List Nat} {r : Runs} (h : r.Knows seen) (group : Nat) :
    (r.step seen.length group).Knows (seen ++ [group]) := by
  obtain ⟨x, y, hbest, hstart⟩ := h.best
  obtain ⟨z, hcur, hcurStart⟩ := h.cur
  unfold Runs.step
  by_cases hzero : group = 0
  · have hnow : seen ++ [0] = z ++ List.replicate (r.curLen + 1) 0 := by
      rw [hcur, List.append_assoc, List.replicate_succ']
    have hat : r.curStart.getD seen.length = z.length := by
      obtain hsome | ⟨hnone, hlen⟩ := hcurStart
      · rw [hsome]
        rfl
      · rw [hnone, hcur, hlen]
        simp
    simp only [hzero, if_true, hat]
    split_ifs
    · exact ⟨⟨z, [], by simpa using hnow, fun _ => rfl⟩, z, hnow, .inl rfl⟩
    · refine ⟨⟨x, y ++ [0], ?_, hstart⟩, z, hnow, .inl rfl⟩
      rw [hbest]
      simp
  · simp only [hzero, if_false]
    refine ⟨⟨x, y ++ [group], ?_, hstart⟩, seen ++ [group], by simp, .inr ⟨rfl, rfl⟩⟩
    rw [hbest]
    simp

theorem scanRuns_knows (groups seen : List Nat) {r : Runs} (h : r.Knows seen) :
    (scanRuns seen.length groups r).Knows (seen ++ groups) := by
  induction groups generalizing seen r with
  | nil =>
    rw [List.append_nil]
    exact h
  | cons g gs ih =>
    have hnext := ih (seen ++ [g]) (h.step g)
    rw [List.length_append, List.append_assoc] at hnext
    exact hnext

theorem scanRuns_split (groups : List Nat) (h : 0 < (scanRuns 0 groups {}).bestLen) :
    groups.take (scanRuns 0 groups {}).bestStart ++
        List.replicate (scanRuns 0 groups {}).bestLen 0 ++
        groups.drop ((scanRuns 0 groups {}).bestStart + (scanRuns 0 groups {}).bestLen) =
      groups := by
  have hnew : Runs.Knows [] {} := ⟨⟨[], [], rfl, fun hpos => absurd hpos (by decide)⟩, [], rfl, .inr ⟨rfl, rfl⟩⟩
  obtain ⟨x, y, hcut, hstart⟩ := (scanRuns_knows groups [] hnew).best
  rw [List.nil_append, List.length_nil] at hcut
  have hx := hstart h
  rw [List.length_nil] at hx
  generalize scanRuns 0 groups {} = r at hcut hx h ⊢
  have hdrop : groups.drop (r.bestStart + r.bestLen) = y := by
    rw [hcut, ← hx]
    simp
  have htake : groups.take r.bestStart = x := by
    rw [hcut, ← hx]
    simp
  rw [hdrop, htake, ← hcut]

theorem groupsOf_bytes {n : Nat} (h : b.length = 2 * n) :
    (groupsOf b).length = n ∧
      (((groupsOf b).map hexText).mapM groupBytes).map List.flatten = some b := by
  induction n generalizing b with
  | zero =>
    rw [List.length_eq_zero_iff.mp h]
    exact ⟨rfl, rfl⟩
  | succ n ih =>
    match b, h with
    | hi :: lo :: rest, h =>
      have hlen : rest.length = 2 * n := by
        simp only [List.length_cons] at h
        omega
      obtain ⟨hcount, hparse⟩ := ih hlen
      refine ⟨by simp [groupsOf, hcount], ?_⟩
      obtain ⟨groups, hgroups, hflat⟩ := Option.map_eq_some_iff.mp hparse
      simp only [groupsOf, List.map_cons, List.mapM_cons, groupBytes_hexText, hgroups]
      rw [← hflat]
      rfl

theorem parseIpv6_format (h : b.length = 16) : parseIpv6 (formatIpv6 b) = some b := by
  obtain ⟨hcount, hparse⟩ := groupsOf_bytes (n := 8) h
  unfold formatIpv6
  dsimp only
  split_ifs with hshort
  · unfold parseIpv6
    rw [splitDouble_single]
    simp only [toGroups_colons, List.length_map, hcount, ne_eq, not_true_eq_false, if_false]
    exact hparse
  · have hcut := scanRuns_split (groupsOf b) (by omega)
    generalize hrun : scanRuns 0 (groupsOf b) {} = r at hshort hcut ⊢
    have hlen := congrArg List.length hcut
    simp only [List.length_append, List.length_replicate, hcount] at hlen
    unfold parseIpv6
    rw [splitDouble_two]
    simp only [toGroups_colons, List.length_map]
    rw [if_neg (by omega)]
    have hzero : List.replicate (8 - ((groupsOf b).take r.bestStart).length -
        ((groupsOf b).drop (r.bestStart + r.bestLen)).length) ['0'] =
        (List.replicate r.bestLen 0).map hexText := by
      rw [List.map_replicate]
      congr 1
      omega
    rw [hzero, ← List.map_append, ← List.map_append, hcut]
    exact hparse

end Ionosphere.Dns
