import Ionosphere.Dns.Wire
import Ionosphere.Js.Digits

/-! The text forms of IPv6 addresses. What the codec writes is the shortened form with the
leftmost longest run of zeros left out. What it reads is more: `parseInt` takes the hexadecimal
digits at the front of a group and drops the rest, so that texts of no address are read, and
mixed ones as other addresses. -/
namespace Ionosphere.Dns

open Ionosphere.Js

variable {gs : List Text} {vs : List Nat}

def nibbles (b : Bytes) : List Text :=
  b.flatMap fun byte => [hexText (byte.toNat >>> 4), hexText (byte.toNat &&& 0x0f)]

def ptrQueryName (ip : Text) : Option Text :=
  if ':' ∈ ip then
    match parseIpv6 ip with
    | none => none
    | some b => some (join ['.'] (nibbles b).reverse ++ ".ip6.arpa".toList)
  else
    let parts := ip.splitOn '.'
    if parts.length ≠ 4 then none
    else if parts.all fun p => (octet p).isSome then
      some (join ['.'] parts.reverse ++ ".in-addr.arpa".toList)
    else none

/-- The run of `n` zeros behind `x` is the longest one, and the first of that length. -/
structure LongestZeros (groups x : List Nat) (n : Nat) (y : List Nat) : Prop where
  cut : groups = x ++ List.replicate n 0 ++ y
  longest : ∀ (x' : List Nat) n' y', groups = x' ++ List.replicate n' 0 ++ y' →
    n' < n ∨ (n' = n ∧ x.length ≤ x'.length)

/-- No run of the groups seen is longer, or as long and before, and none that ends with them is
longer than the current one. -/
structure Runs.Leads (seen : List Nat) (r : Runs) : Prop where
  best : ∀ (x : List Nat) n y, seen = x ++ List.replicate n 0 ++ y →
    n ≤ r.bestLen ∧ (n = r.bestLen → 0 < n → r.bestStart ≤ x.length)
  cur : ∀ x n, seen = x ++ List.replicate n 0 → n ≤ r.curLen

theorem Runs.Leads.step {seen : List Nat} {r : Runs} (h : r.Leads seen) (hk : r.Knows seen)
    (group : Nat) : (r.step seen.length group).Leads (seen ++ [group]) := by
  obtain ⟨bx, bY, hbest, hstart⟩ := hk.best
  obtain ⟨z, hcur, hcurStart⟩ := hk.cur
  have hlen := congrArg List.length hcur
  rw [List.length_append, List.length_replicate] at hlen
  have hblen := congrArg List.length hbest
  simp only [List.length_append, List.length_replicate] at hblen
  -- A run of the longer list is one of `seen`, or it ends with the new group.
  have hrun : ∀ x n y, seen ++ [group] = x ++ List.replicate n 0 ++ y →
      (∃ y', seen = x ++ List.replicate n 0 ++ y') ∨ n = 0 ∨
        ∃ m, n = m + 1 ∧ group = 0 ∧ seen = x ++ List.replicate m 0 := by
    intro x n y heq
    rcases List.eq_nil_or_concat' y with rfl | ⟨y', g, rfl⟩
    · cases n with
      | zero => exact .inr (.inl rfl)
      | succ m =>
        rw [List.append_nil, List.replicate_succ', ← List.append_assoc] at heq
        obtain ⟨hseen, hg⟩ := List.append_inj' heq rfl
        exact .inr (.inr ⟨m, rfl, (List.cons.inj hg).1, hseen⟩)
    · rw [← List.append_assoc] at heq
      exact .inl ⟨y', (List.append_inj' heq rfl).1⟩
  unfold Runs.step
  by_cases hzero : group = 0
  · have hat : r.curStart.getD seen.length = z.length := by
      rcases hcurStart with hsome | ⟨hnone, hzlen⟩
      · rw [hsome]
        rfl
      · rw [hnone, hlen, hzlen]
        rfl
    have hend : ∀ x n, seen ++ [group] = x ++ List.replicate n 0 → n ≤ r.curLen + 1 := by
      intro x n heq
      rcases hrun x n [] (by rw [List.append_nil]; exact heq) with ⟨y', hy'⟩ | hn | ⟨m, hm, -, hs⟩
      · have hl := congrArg List.length heq
        have hl' := congrArg List.length hy'
        simp only [List.length_append, List.length_singleton] at hl hl'
        omega
      · omega
      · have := h.cur x m hs
        omega
    simp only [hzero, if_true, hat]
    rw [hzero] at hrun hend
    split_ifs with hmore
    · refine ⟨fun x n y heq => ?_, hend⟩
      rcases hrun x n y heq with ⟨y', hy'⟩ | hn | ⟨m, hm, -, hs⟩
      · have := (h.best x n y' hy').1
        exact ⟨by dsimp only; omega, fun hn => by dsimp only at hn; omega⟩
      · exact ⟨by dsimp only; omega, fun _ hpos => by omega⟩
      · have hle := h.cur x m hs
        refine ⟨by dsimp only; omega, fun hn _ => ?_⟩
        have hl := congrArg List.length hs
        rw [List.length_append, List.length_replicate] at hl
        dsimp only at hn ⊢
        omega
    · refine ⟨fun x n y heq => ?_, hend⟩
      rcases hrun x n y heq with ⟨y', hy'⟩ | hn | ⟨m, hm, -, hs⟩
      · exact h.best x n y' hy'
      · exact ⟨by dsimp only; omega, fun _ hpos => by omega⟩
      · have hle := h.cur x m hs
        refine ⟨by dsimp only; omega, fun hn _ => ?_⟩
        have hl := congrArg List.length hs
        rw [List.length_append, List.length_replicate] at hl
        dsimp only at hn ⊢
        have hb := hstart (by omega)
        omega
  · simp only [hzero, if_false]
    refine ⟨fun x n y heq => ?_, fun x n heq => ?_⟩
    · rcases hrun x n y heq with ⟨y', hy'⟩ | hn | ⟨m, -, hg, -⟩
      · exact h.best x n y' hy'
      · exact ⟨by omega, fun _ hpos => by omega⟩
      · exact absurd hg hzero
    · cases n with
      | zero => exact le_rfl
      | succ n =>
        rw [List.replicate_succ', ← List.append_assoc] at heq
        obtain ⟨-, hg⟩ := List.append_inj' heq rfl
        exact absurd (List.cons.inj hg).1 hzero

theorem scanRuns_leads (groups seen : List Nat) {r : Runs} (h : r.Leads seen) (hk : r.Knows seen) :
    (scanRuns seen.length groups r).Leads (seen ++ groups) := by
  induction groups generalizing seen r with
  | nil =>
    rw [List.append_nil]
    exact h
  | cons g gs ih =>
    have hnext := ih (seen ++ [g]) (h.step hk g) (hk.step g)
    rw [List.length_append, List.append_assoc] at hnext
    exact hnext

theorem longestZeros_scanRuns (groups : List Nat) :
    ∃ x y, LongestZeros groups x (scanRuns 0 groups {}).bestLen y ∧
      (0 < (scanRuns 0 groups {}).bestLen → x = groups.take (scanRuns 0 groups {}).bestStart ∧
        y = groups.drop ((scanRuns 0 groups {}).bestStart + (scanRuns 0 groups {}).bestLen)) := by
  have hknows : Runs.Knows [] {} :=
    ⟨⟨[], [], rfl, fun hpos => absurd hpos (by decide)⟩, [], rfl, .inr ⟨rfl, rfl⟩⟩
  have hleads : Runs.Leads [] {} := by
    refine ⟨fun x n y heq => ?_, fun x n heq => ?_⟩
    · have hl := congrArg List.length heq
      simp only [List.length_append, List.length_replicate, List.length_nil] at hl
      exact ⟨by dsimp only; omega, fun _ hpos => by omega⟩
    · have hl := congrArg List.length heq
      simp only [List.length_append, List.length_replicate, List.length_nil] at hl
      dsimp only
      omega
  have hbest := (scanRuns_leads groups [] hleads hknows).best
  rw [List.nil_append, List.length_nil] at hbest
  by_cases hpos : 0 < (scanRuns 0 groups {}).bestLen
  · have hcut := scanRuns_split groups hpos
    refine ⟨_, _, ⟨hcut.symm, fun x n y heq => ?_⟩, fun _ => ⟨rfl, rfl⟩⟩
    obtain ⟨hle, hfirst⟩ := hbest x n y heq
    rcases Nat.lt_or_eq_of_le hle with hlt | hsame
    · exact .inl hlt
    · exact .inr ⟨hsame, (List.length_take_le _ _).trans (hfirst hsame (by omega))⟩
  · have hzero : (scanRuns 0 groups {}).bestLen = 0 := by omega
    refine ⟨[], groups, ⟨by rw [hzero]; rfl, fun x n y heq => ?_⟩, fun h => absurd h hpos⟩
    have hle := (hbest x n y heq).1
    exact .inr ⟨by omega, Nat.zero_le _⟩

theorem formatIpv6_eq (b : Bytes) : ∃ x n y, LongestZeros (groupsOf b) x n y ∧
    formatIpv6 b = if n < 2 then colons (groupsOf b) else colons x ++ ':' :: ':' :: colons y := by
  obtain ⟨x, y, hlong, heq⟩ := longestZeros_scanRuns (groupsOf b)
  refine ⟨x, _, y, hlong, ?_⟩
  rw [formatIpv6]
  split_ifs with hshort
  · rfl
  · obtain ⟨rfl, rfl⟩ := heq (by omega)
    rfl

theorem colon_mem_formatIpv6 {b : Bytes} (h : b.length = 16) : ':' ∈ formatIpv6 b := by
  obtain ⟨x, n, y, -, heq⟩ := formatIpv6_eq b
  rw [heq]
  split_ifs
  · have hcount := (groupsOf_bytes (n := 8) h).1
    match hg : groupsOf b, hcount with
    | g :: g' :: gs, _ =>
      rw [colons, List.map_cons, List.map_cons, join_cons_cons]
      simp
  · simp

theorem ptrQueryName_format {b : Bytes} (h : b.length = 16) :
    ptrQueryName (formatIpv6 b) =
      some (join ['.'] (nibbles b).reverse ++ ".ip6.arpa".toList) := by
  rw [ptrQueryName, if_pos (colon_mem_formatIpv6 h), parseIpv6_format h]

def hextet (group : Text) : Option Nat :=
  if group ≠ [] ∧ group.length ≤ 4 ∧ ∀ c ∈ group, isHexDigit c = true then
    some (digitsValue 16 group)
  else none

/-- The groups of an address, the last two of them perhaps as an IPv4 address. -/
inductive Groups : List Text → List Nat → Prop
  | hex {gs : List Text} {vs : List Nat} (h : gs.map hextet = vs.map some) : Groups gs vs
  | mixed {gs : List Text} {vs : List Nat} (h : gs.map hextet = vs.map some) (b c d e : UInt8) :
      Groups (gs ++ [formatIpv4 [b, c, d, e]])
        (vs ++ [b.toNat * 256 + c.toNat, d.toNat * 256 + e.toNat])

/-- The texts of the eight groups: all of them, or two colons for one or more zeros. -/
inductive Ipv6Text : Text → List Nat → Prop
  | full {gs : List Text} {vs : List Nat} (h : Groups gs vs) (hlen : vs.length = 8) :
      Ipv6Text (join [':'] gs) vs
  | short {hs ts : List Text} {us vs : List Nat} (hhead : hs.map hextet = us.map some)
      (htail : Groups ts vs) (hlen : us.length + vs.length < 8) :
      Ipv6Text (join [':'] hs ++ ':' :: ':' :: join [':'] ts)
        (us ++ List.replicate (8 - us.length - vs.length) 0 ++ vs)

def Denotes (s : Text) (b : Bytes) : Prop := b.length = 16 ∧ Ipv6Text s (groupsOf b)

def groupValue (group : Text) : Option Nat :=
  match parseHex group with
  | none => none
  | some v => if v < 0 ∨ 0xffff < v then none else some v.toNat

/-- Each group the reader accepts is one of an address, and so is their number. An IPv4 address
at the end is taken for its first digits, which is right only among zeros. -/
def Clean (s : Text) : Prop :=
  match splitDouble s with
  | [whole] =>
    (toGroups whole).length = 8 → (∀ g ∈ toGroups whole, (groupValue g).isSome) →
      ∀ g ∈ toGroups whole, (hextet g).isSome
  | [h, t] =>
    (toGroups h).length + (toGroups t).length ≤ 8 →
      (∀ g ∈ toGroups h ++ toGroups t, (groupValue g).isSome) →
        (toGroups h).length + (toGroups t).length < 8 ∧ (∀ g ∈ toGroups h, (hextet g).isSome) ∧
          ((∀ g ∈ toGroups t, (hextet g).isSome) ∨
            ∃ zs, toGroups t = zs ++ ["0.0.0.0".toList] ∧ (∀ z ∈ zs, hextet z = some 0) ∧
              (toGroups h).length + zs.length + 2 < 8)
  | _ => True

theorem hextet_some {g : Text} {v : Nat} (h : hextet g = some v) :
    g ≠ [] ∧ ':' ∉ g ∧ groupValue g = some v := by
  unfold hextet at h
  split_ifs at h with hg
  obtain ⟨hne, hlen, hdigits⟩ := hg
  have hv : digitsValue 16 g = v := Option.some.inj h
  have hbound : ∀ ds : Text, (∀ c ∈ ds, isHexDigit c = true) → digitsValue 16 ds < 16 ^ ds.length := by
    intro ds hds
    induction ds using List.reverseRecOn with
    | nil => decide
    | append_singleton ds c ih =>
      have hrest := ih fun d hd => hds d (List.mem_append_left _ hd)
      have hc := digitValue_lt (hds c (by simp))
      rw [digitsValue_append, List.length_append, List.length_singleton, pow_succ]
      omega
  have hsmall : v < 65536 := by
    calc v < 16 ^ g.length := hv ▸ hbound g hdigits
      _ ≤ 16 ^ 4 := Nat.pow_le_pow_right (by decide) hlen
  have hread := parseHex_digits [] hdigits hne (by simp)
  rw [List.append_nil, hv] at hread
  refine ⟨hne, fun hcolon => (hexDigit_plain (hdigits ':' hcolon)).2.2.2.2.2 rfl, ?_⟩
  rw [groupValue, hread]
  dsimp only
  rw [if_neg (by omega), Int.toNat_natCast]

theorem groupBytes_eq {g : Text} {v : Nat} (h : groupValue g = some v) :
    ∃ hi lo : UInt8, groupBytes g = some [hi, lo] ∧ (hi.toNat <<< 8) ||| lo.toNat = v := by
  unfold groupValue at h
  unfold groupBytes
  cases hparse : parseHex g with
  | none =>
    rw [hparse] at h
    exact absurd h (by simp)
  | some n =>
    rw [hparse] at h
    dsimp only at h ⊢
    split_ifs at h with hrange
    have hv : n.toNat = v := Option.some.inj h
    rw [if_neg hrange, hv]
    refine ⟨_, _, rfl, ?_⟩
    have hlow : v &&& 0xff = v % 256 := Nat.and_two_pow_sub_one_eq_mod _ 8
    have hhigh : v >>> 8 &&& 0xff = v / 256 := by
      have hmask : v >>> 8 &&& 0xff = v >>> 8 % 256 := Nat.and_two_pow_sub_one_eq_mod _ 8
      rw [hmask, Nat.shiftRight_eq_div_pow]
      omega
    rw [hlow, hhigh, UInt8.toNat_ofNat', UInt8.toNat_ofNat', Nat.mod_eq_of_lt (by omega),
      Nat.mod_eq_of_lt (by omega), ← Nat.shiftLeft_add_eq_or_of_lt (by omega), Nat.shiftLeft_eq]
    omega

theorem groupBytes_none {g : Text} (h : groupValue g = none) : groupBytes g = none := by
  unfold groupValue at h
  unfold groupBytes
  cases hparse : parseHex g with
  | none => rfl
  | some n =>
    rw [hparse] at h
    dsimp only at h ⊢
    split_ifs at h with hrange
    rw [if_pos hrange]

theorem mapM_groupBytes (h : gs.map groupValue = vs.map some) :
    ∃ b, (gs.mapM groupBytes).map List.flatten = some b ∧ groupsOf b = vs := by
  induction gs generalizing vs with
  | nil =>
    obtain rfl : vs = [] := List.map_eq_nil_iff.mp h.symm
    exact ⟨[], rfl, rfl⟩
  | cons g gs ih =>
    cases vs with
    | nil => exact absurd h (by simp)
    | cons v vs =>
      obtain ⟨hg, hgs⟩ := List.cons.inj h
      obtain ⟨hi, lo, hbytes, hv⟩ := groupBytes_eq hg
      obtain ⟨b, hrest, hvs⟩ := ih hgs
      obtain ⟨bs, hmap, hflat⟩ := Option.map_eq_some_iff.mp hrest
      refine ⟨hi :: lo :: b, ?_, by rw [groupsOf, hv, hvs]⟩
      rw [List.mapM_cons, hbytes, hmap, ← hflat]
      rfl

theorem mapM_groupBytes_some {b : Bytes}
    (h : (gs.mapM groupBytes).map List.flatten = some b) :
    gs.map groupValue = (groupsOf b).map some ∧ b.length = 2 * gs.length := by
  induction gs generalizing b with
  | nil =>
    obtain rfl : [] = b := Option.some.inj h
    exact ⟨rfl, rfl⟩
  | cons g gs ih =>
    rw [List.mapM_cons] at h
    cases hg : groupValue g with
    | none =>
      rw [groupBytes_none hg] at h
      exact absurd h (by simp)
    | some v =>
      obtain ⟨hi, lo, hbytes, hv⟩ := groupBytes_eq hg
      cases hrest : gs.mapM groupBytes with
      | none =>
        rw [hbytes, hrest] at h
        exact absurd h (by simp)
      | some bs =>
        rw [hbytes, hrest] at h
        obtain rfl : hi :: lo :: bs.flatten = b := by
          simpa using h
        obtain ⟨hvalues, hlen⟩ := ih (by rw [hrest]; rfl)
        refine ⟨by rw [List.map_cons, hg, hvalues, groupsOf, hv, List.map_cons], ?_⟩
        rw [List.length_cons, List.length_cons, List.length_cons, hlen]
        omega

theorem splitDouble_ne_nil (s : Text) : splitDouble s ≠ [] := by
  induction s using splitDouble.induct with
  | case1 => simp [splitDouble]
  | case2 rest ih => simp [splitDouble]
  | case3 c rest hno ih =>
    rw [splitDouble]
    · simpa using ih
    · exact hno

theorem join_splitDouble (s : Text) : join [':', ':'] (splitDouble s) = s := by
  induction s using splitDouble.induct with
  | case1 => rfl
  | case2 rest ih =>
    rw [splitDouble]
    cases hrest : splitDouble rest with
    | nil => exact absurd hrest (splitDouble_ne_nil rest)
    | cons x xs =>
      rw [hrest] at ih
      rw [← ih]
      simp [join, List.intercalate_cons_cons]
  | case3 c rest hno ih =>
    rw [splitDouble]
    · cases hrest : splitDouble rest with
      | nil => exact absurd hrest (splitDouble_ne_nil rest)
      | cons x xs =>
        rw [hrest] at ih
        rw [← ih]
        cases xs <;> simp [join, List.intercalate_cons_cons]
    · exact hno

theorem join_toGroups (part : Text) : join [':'] (toGroups part) = part := by
  unfold toGroups
  split_ifs with hempty
  · rw [hempty]
    rfl
  · exact List.intercalate_splitOn ':'

theorem joinable_hextets (h : gs.map hextet = vs.map some) :
    Joinable gs := by
  intro g hg
  have hsome : hextet g ∈ vs.map some := h ▸ List.mem_map_of_mem hg
  obtain ⟨v, -, hv⟩ := List.mem_map.mp hsome
  obtain ⟨hne, hcolon, -⟩ := hextet_some hv.symm
  exact ⟨hne, hcolon⟩

theorem formatIpv4_four (b c d e : UInt8) : formatIpv4 [b, c, d, e] =
    natText b.toNat ++ '.' :: (natText c.toNat ++ '.' :: (natText d.toNat ++ '.' :: natText e.toNat)) := by
  simp [formatIpv4, join, List.intercalate_cons_cons]

theorem joinable_formatIpv4 (b c d e : UInt8) :
    formatIpv4 [b, c, d, e] ≠ [] ∧ ':' ∉ formatIpv4 [b, c, d, e] := by
  have hcolon : ∀ n, ':' ∉ natText n := fun n hmem => absurd (natText_digits n ':' hmem).2 (by decide)
  rw [formatIpv4_four]
  simp [hcolon]

theorem Groups.joinable (h : Groups gs vs) : Joinable gs := by
  cases h with
  | hex h => exact joinable_hextets h
  | mixed h b c d e =>
    intro g hg
    rcases List.mem_append.mp hg with hg | hg
    · exact joinable_hextets h g hg
    · rw [List.mem_singleton.mp hg]
      exact joinable_formatIpv4 b c d e

theorem groupValues_of_hextets (h : gs.map hextet = vs.map some) :
    gs.map groupValue = vs.map some := by
  rw [← h]
  refine List.map_congr_left fun g hg => ?_
  have hsome : hextet g ∈ vs.map some := h ▸ List.mem_map_of_mem hg
  obtain ⟨v, -, hv⟩ := List.mem_map.mp hsome
  rw [← hv, (hextet_some hv.symm).2.2]

theorem hextets_of_values (h : gs.map groupValue = vs.map some)
    (hhex : ∀ g ∈ gs, (hextet g).isSome) : gs.map hextet = vs.map some := by
  rw [← h]
  refine List.map_congr_left fun g hg => ?_
  obtain ⟨v, hv⟩ := Option.isSome_iff_exists.mp (hhex g hg)
  rw [hv, (hextet_some hv).2.2]

theorem isSome_of_map {f : Text → Option Nat}
    (h : gs.map f = vs.map some) : ∀ g ∈ gs, (f g).isSome := by
  intro g hg
  have hsome : f g ∈ vs.map some := h ▸ List.mem_map_of_mem hg
  obtain ⟨v, -, hv⟩ := List.mem_map.mp hsome
  rw [← hv]
  rfl

theorem length_of_map {f : Text → Option Nat} (h : gs.map f = vs.map some) :
    gs.length = vs.length := by
  simpa using congrArg List.length h

theorem exists_map {f : Text → Option Nat} (h : ∀ g ∈ gs, (f g).isSome) :
    ∃ vs : List Nat, gs.map f = vs.map some := by
  refine ⟨gs.map fun g => (f g).getD 0, ?_⟩
  rw [List.map_map]
  refine List.map_congr_left fun g hg => ?_
  obtain ⟨v, hv⟩ := Option.isSome_iff_exists.mp (h g hg)
  simp [hv]

theorem map_some_injective {us vs : List Nat} (h : us.map some = vs.map some) : us = vs :=
  List.map_injective_iff.mpr (fun _ _ => Option.some.inj) h

theorem parseIpv6_whole {s whole : Text} (hs : splitDouble s = [whole])
    (hlen : (toGroups whole).length = 8) :
    parseIpv6 s = ((toGroups whole).mapM groupBytes).map List.flatten := by
  unfold parseIpv6
  rw [hs]
  simp [hlen]

theorem sound_whole {s whole : Text} (hs : splitDouble s = [whole]) :
    (∀ b, parseIpv6 s = some b → Denotes s b) ↔ ((toGroups whole).length = 8 →
      (∀ g ∈ toGroups whole, (groupValue g).isSome) →
        ∀ g ∈ toGroups whole, (hextet g).isSome) := by
  have hjoin : join [':'] (toGroups whole) = s := by
    rw [join_toGroups, ← join_splitDouble s, hs]
    simp [join]
  constructor
  · intro hsound hlen hread
    obtain ⟨vs, hvs⟩ := exists_map hread
    obtain ⟨b, hb, hgroups⟩ := mapM_groupBytes hvs
    have hden := (hsound b ((parseIpv6_whole hs hlen).trans hb)).2
    rw [hgroups] at hden
    cases hden with
    | @full gs _ hgs hcount =>
      rw [splitDouble_join_single hgs.joinable] at hs
      obtain rfl : join [':'] gs = whole := (List.cons.inj hs).1
      rw [toGroups_join hgs.joinable] at hlen ⊢
      cases hgs with
      | hex h => exact isSome_of_map h
      | mixed h =>
        have hsame := congrArg List.length h
        simp only [List.length_append, List.length_map, List.length_cons, List.length_nil] at *
        omega
    | @short hs' ts us vs hhead htail =>
      rw [splitDouble_join_two (joinable_hextets hhead) htail.joinable] at hs
      exact absurd hs (by simp)
  · intro hclean b hb
    have hlen : (toGroups whole).length = 8 := by
      unfold parseIpv6 at hb
      rw [hs] at hb
      dsimp only at hb
      split_ifs at hb with hlen
      omega
    rw [parseIpv6_whole hs hlen] at hb
    obtain ⟨hvs, hbytes⟩ := mapM_groupBytes_some hb
    have hhex := hextets_of_values hvs (hclean hlen (isSome_of_map hvs))
    have hcount := length_of_map hhex
    refine ⟨by omega, ?_⟩
    rw [← hjoin]
    exact .full (.hex hhex) (by omega)

/-- The groups that are read when two colons stand between `h` and `t`. -/
def filled (h t : Text) : List Text :=
  toGroups h ++ List.replicate (8 - (toGroups h).length - (toGroups t).length) ['0'] ++ toGroups t

theorem parseIpv6_two {s h t : Text} (hs : splitDouble s = [h, t])
    (hlen : (toGroups h).length + (toGroups t).length ≤ 8) :
    parseIpv6 s = ((filled h t).mapM groupBytes).map List.flatten := by
  unfold parseIpv6
  rw [hs]
  dsimp only
  rw [if_neg (by omega)]
  rfl

theorem filled_values {h t : Text} {us vs : List Nat}
    (hh : (toGroups h).map groupValue = us.map some) (ht : (toGroups t).map groupValue = vs.map some) :
    (filled h t).map groupValue =
      (us ++ List.replicate (8 - (toGroups h).length - (toGroups t).length) 0 ++ vs).map some := by
  have hzero : groupValue ['0'] = some 0 := by
    decide
  simp [filled, hh, ht, hzero]

theorem values_of_filled {h t : Text} {ws : List Nat} (hw : (filled h t).map groupValue = ws.map some) :
    ∀ g ∈ toGroups h ++ toGroups t, (groupValue g).isSome := by
  intro g hg
  refine isSome_of_map hw g ?_
  rcases List.mem_append.mp hg with hg | hg
  · simp [filled, hg]
  · simp [filled, hg]

theorem shift_zeros {l : List Nat} {x p q : Nat} (h : 0 :: (l ++ [x]) = l ++ [p, q]) :
    (∀ v ∈ l, v = 0) ∧ p = 0 ∧ x = q := by
  induction l with
  | nil => simpa [eq_comm] using h
  | cons v l ih =>
    obtain ⟨hv, hrest⟩ := List.cons.inj h
    rw [← hv] at hrest
    obtain ⟨hl, hp, hq⟩ := ih hrest
    exact ⟨fun w hw => (List.mem_cons.mp hw).elim (fun h => h.trans hv.symm) (hl w), hp, hq⟩

theorem groupValue_formatIpv4 (c d e : UInt8) : groupValue (formatIpv4 [0, c, d, e]) = some 0 := by
  have hread := parseHex_digits ('.' :: (natText c.toNat ++ '.' :: (natText d.toNat ++
    '.' :: natText e.toNat))) (show ∀ c ∈ ['0'], isHexDigit c = true by decide) (by simp)
    (by simp [isHexDigit, isDigit])
  have hfour := formatIpv4_four 0 c d e
  have hzero : natText (0 : UInt8).toNat = ['0'] := by
    decide
  rw [hzero] at hfour
  rw [groupValue, hfour, hread]
  rfl

theorem mixed_zeros {vs zs us : List Nat} {b c d e : UInt8} {k : Nat}
    (hgs : gs.map hextet = zs.map some)
    (hvs : (gs ++ [formatIpv4 [b, c, d, e]]).map groupValue = vs.map some)
    (heq : us ++ List.replicate (k + 1) 0 ++ vs = us ++ List.replicate k 0 ++
      (zs ++ [b.toNat * 256 + c.toNat, d.toNat * 256 + e.toNat])) :
    formatIpv4 [b, c, d, e] = "0.0.0.0".toList ∧ ∀ g ∈ gs, hextet g = some 0 := by
  obtain ⟨x, hx⟩ : ∃ x, groupValue (formatIpv4 [b, c, d, e]) = some x := by
    exact Option.isSome_iff_exists.mp (isSome_of_map hvs _ (by simp))
  have hvals : vs = zs ++ [x] := by
    refine map_some_injective ?_
    rw [← hvs, List.map_append, groupValues_of_hextets hgs, List.map_append]
    simp [hx]
  rw [hvals, List.replicate_succ', List.append_assoc, List.append_assoc, List.append_assoc,
    List.append_cancel_left_eq, List.append_cancel_left_eq] at heq
  obtain ⟨hall, hp, hq⟩ := shift_zeros heq
  obtain rfl : b = 0 := UInt8.toNat_inj.mp (by rw [UInt8.toNat_zero]; omega)
  obtain rfl : c = 0 := UInt8.toNat_inj.mp (by rw [UInt8.toNat_zero]; omega)
  rw [groupValue_formatIpv4] at hx
  have hx0 : 0 = x := Option.some.inj hx
  obtain rfl : d = 0 := UInt8.toNat_inj.mp (by rw [UInt8.toNat_zero]; omega)
  obtain rfl : e = 0 := UInt8.toNat_inj.mp (by rw [UInt8.toNat_zero]; omega)
  refine ⟨by decide, fun g hg => ?_⟩
  have hsome : hextet g ∈ zs.map some := hgs ▸ List.mem_map_of_mem hg
  obtain ⟨v, hv, hgv⟩ := List.mem_map.mp hsome
  rw [← hgv, hall v hv]

theorem zero_behind (us : List Nat) (k n : Nat) :
    us ++ List.replicate (k + 1) 0 ++ (List.replicate n 0 ++ [0]) =
      us ++ List.replicate k 0 ++ (List.replicate n 0 ++ [0, 0]) := by
  have hright : List.replicate n 0 ++ [0, 0] = 0 :: (List.replicate n 0 ++ [0]) := by
    rw [← List.cons_append, ← List.replicate_succ, List.replicate_succ']
    simp
  rw [List.replicate_succ', hright]
  simp

theorem sound_two {s h t : Text} (hs : splitDouble s = [h, t]) :
    (∀ b, parseIpv6 s = some b → Denotes s b) ↔
      ((toGroups h).length + (toGroups t).length ≤ 8 →
        (∀ g ∈ toGroups h ++ toGroups t, (groupValue g).isSome) →
          (toGroups h).length + (toGroups t).length < 8 ∧ (∀ g ∈ toGroups h, (hextet g).isSome) ∧
            ((∀ g ∈ toGroups t, (hextet g).isSome) ∨
              ∃ zs, toGroups t = zs ++ ["0.0.0.0".toList] ∧ (∀ z ∈ zs, hextet z = some 0) ∧
                (toGroups h).length + zs.length + 2 < 8)) := by
  have hjoin : join [':'] (toGroups h) ++ ':' :: ':' :: join [':'] (toGroups t) = s := by
    rw [join_toGroups, join_toGroups, ← join_splitDouble s, hs]
    simp [join, List.intercalate_cons_cons]
  constructor
  · intro hsound hlen hread
    obtain ⟨us, hus⟩ := exists_map fun g hg => hread g (List.mem_append_left _ hg)
    obtain ⟨vs, hvs⟩ := exists_map fun g hg => hread g (List.mem_append_right _ hg)
    obtain ⟨b, hb, hgroups⟩ := mapM_groupBytes (filled_values hus hvs)
    have hden := (hsound b ((parseIpv6_two hs hlen).trans hb)).2
    rw [hgroups] at hden
    generalize hws : us ++ _ ++ vs = ws at hden
    cases hden with
    | @full gs _ hgs =>
      rw [splitDouble_join_single hgs.joinable] at hs
      exact absurd hs (by simp)
    | @short hs' ts us' vs' hhead htail hcount =>
      rw [splitDouble_join_two (joinable_hextets hhead) htail.joinable] at hs
      obtain ⟨rfl, hts⟩ := List.cons.inj hs
      obtain rfl : join [':'] ts = t := (List.cons.inj hts).1
      rw [toGroups_join (joinable_hextets hhead)] at *
      rw [toGroups_join htail.joinable] at *
      have hsame : us = us' := by
        refine map_some_injective ?_
        rw [← hus, groupValues_of_hextets hhead]
      subst hsame
      have hhlen := length_of_map hhead
      cases htail with
      | hex hhex =>
        have htlen := length_of_map hhex
        exact ⟨by omega, isSome_of_map hhead, .inl (isSome_of_map hhex)⟩
      | @mixed gs zs hgs b c d e =>
        have hglen := length_of_map hgs
        rw [List.length_append] at hcount hws
        simp only [List.length_cons, List.length_nil, List.length_append] at hcount hws
        have hk : 8 - hs'.length - (gs.length + 1) = 8 - us.length - (zs.length + 2) + 1 := by
          omega
        rw [hk] at hws
        obtain ⟨hquad, hzero⟩ := mixed_zeros hgs hvs hws
        rw [List.length_append, List.length_singleton]
        exact ⟨by omega, isSome_of_map hhead, .inr ⟨gs, by rw [hquad], hzero, by omega⟩⟩
  · intro hclean b hb
    have hlen : (toGroups h).length + (toGroups t).length ≤ 8 := by
      unfold parseIpv6 at hb
      rw [hs] at hb
      dsimp only at hb
      split_ifs at hb with hlen
      omega
    rw [parseIpv6_two hs hlen] at hb
    obtain ⟨hvals, hbytes⟩ := mapM_groupBytes_some hb
    have hfilled : (filled h t).length = 8 := by
      simp only [filled, List.length_append, List.length_replicate]
      omega
    obtain ⟨hlt, hh, htail⟩ := hclean hlen (values_of_filled hvals)
    obtain ⟨us, hus⟩ := exists_map hh
    have hhlen := length_of_map hus
    refine ⟨by omega, ?_⟩
    rw [← hjoin]
    rcases htail with ht | ⟨zs, hzs, hzero, hcount⟩
    · obtain ⟨vs, hvs⟩ := exists_map ht
      have htlen := length_of_map hvs
      have hgroups := map_some_injective (hvals.symm.trans
        (filled_values (groupValues_of_hextets hus) (groupValues_of_hextets hvs)))
      rw [hgroups, hhlen, htlen]
      exact .short hus (.hex hvs) (by omega)
    · have hzeros : zs.map hextet = (List.replicate zs.length 0).map some := by
        rw [List.map_replicate]
        exact List.eq_replicate_iff.mpr ⟨by rw [List.length_map], by simpa using hzero⟩
      have hquad : groupValue "0.0.0.0".toList = some 0 := groupValue_formatIpv4 0 0 0
      have hvs : (toGroups t).map groupValue = (List.replicate zs.length 0 ++ [0]).map some := by
        rw [hzs, List.map_append, List.map_singleton, hquad, groupValues_of_hextets hzeros,
          List.map_append]
        rfl
      have hgroups := map_some_injective (hvals.symm.trans
        (filled_values (groupValues_of_hextets hus) hvs))
      have htlen : (toGroups t).length = zs.length + 1 := by
        rw [hzs, List.length_append, List.length_singleton]
      have hmissing : 8 - (toGroups h).length - (toGroups t).length =
          8 - us.length - (zs.length + 2) + 1 := by
        omega
      have hden := Ipv6Text.short hus (.mixed hzeros 0 0 0 0) (by
        rw [List.length_append, List.length_replicate]
        simp only [List.length_cons, List.length_nil]
        omega)
      rw [List.length_append, List.length_replicate] at hden
      rw [hgroups, hmissing, zero_behind, hzs]
      exact hden

theorem parseIpv6_sound (s : Text) : (∀ b, parseIpv6 s = some b → Denotes s b) ↔ Clean s := by
  unfold Clean
  match hs : splitDouble s with
  | [] => exact absurd hs (splitDouble_ne_nil s)
  | [whole] => exact sound_whole hs
  | [h, t] => exact sound_two hs
  | h :: m :: t :: rest =>
    refine iff_of_true (fun b hb => ?_) trivial
    unfold parseIpv6 at hb
    rw [hs] at hb
    exact absurd hb (by simp)

abbrev Ipv6Address := { b : Bytes // b.length = 16 }

/-- Of what is written all the laws hold, and of what is read as far as the text is clean. -/
theorem ipv6_text_laws (s : Text) :
    (∀ b : Ipv6Address, parseIpv6 (formatIpv6 b.val) = some b.val ∧
      (∃ x n y, LongestZeros (groupsOf b.val) x n y ∧ formatIpv6 b.val =
        if n < 2 then colons (groupsOf b.val) else colons x ++ ':' :: ':' :: colons y) ∧
      ptrQueryName (formatIpv6 b.val) =
        some (join ['.'] (nibbles b.val).reverse ++ ".ip6.arpa".toList)) ∧
      ((∀ b, parseIpv6 s = some b → Denotes s b) ↔ Clean s) :=
  ⟨fun b => ⟨parseIpv6_format b.property, formatIpv6_eq b.val, ptrQueryName_format b.property⟩,
    parseIpv6_sound s⟩

/-- An IPv4 address among the IPv6 ones, whose first number is read as a group. -/
def mappedText : Text := "::ffff:192.0.2.1".toList

theorem not_clean_mappedText : ¬ Clean mappedText := by
  intro hclean
  have hsplit : splitDouble mappedText = [[], "ffff:192.0.2.1".toList] := by
    decide
  unfold Clean at hclean
  rw [hsplit] at hclean
  obtain ⟨-, -, hhex | ⟨zs, hzs, -⟩⟩ := hclean (by decide) (by decide)
  · exact absurd (hhex "192.0.2.1".toList (by decide)) (by decide)
  · have hlast := congrArg List.getLast? hzs
    rw [List.getLast?_concat] at hlast
    exact absurd hlast (by decide)

theorem ipv6_text_laws_fails : ¬ ∀ s b, parseIpv6 s = some b → Denotes s b := by
  intro hsound
  exact not_clean_mappedText ((parseIpv6_sound mappedText).mp (hsound mappedText))

end Ionosphere.Dns
