import Ionosphere.Dns.Ipv6
import Mathlib.Data.List.Forall2

/-! The key under which the throttle counts a client: one for each IPv4 address and one for each
/64 of IPv6, however the address is spelled. -/
namespace Ionosphere.Core

open Ionosphere.Js Ionosphere.Dns

def UNKNOWN : Text := "unknown".toList

variable (u : CaseMap) (isIP : Text → Nat)

def stripBrackets (addr : Text) : Text :=
  if addr.head? = some '[' ∧ addr.getLast? = some ']' then addr.dropLast.tail else addr

def stripZone (addr : Text) : Text := addr.takeWhile (· ≠ '%')

def isOctetText (s : Text) : Bool := s ≠ [] && s.length ≤ 3 && s.all isDigit

/-- The match of `(\d{1,3})\.(\d{1,3})\.(\d{1,3})\.(\d{1,3})$`: what is before it and its four
groups. The first one takes as many digits as it can. -/
def dottedTail (s : Text) : Option (Text × List Text) :=
  match (s.splitOn '.').reverse with
  | d :: c :: b :: f :: _ =>
    let digits := f.rtakeWhile isDigit
    let a := digits.drop (digits.length - 3)
    if a ≠ [] ∧ isOctetText b ∧ isOctetText c ∧ isOctetText d then
      some (s.take (s.length - (join ['.'] [a, b, c, d]).length), [a, b, c, d])
    else none
  | _ => none

def withGroups (s : Text) : Option Text :=
  match dottedTail s with
  | some (before, [a, b, c, d]) =>
    let value := digitsValue 10
    if 255 < value a ∨ 255 < value b ∨ 255 < value c ∨ 255 < value d then none
    else some (before ++ hexText (value a * 256 + value b) ++ ':' ::
      hexText (value c * 256 + value d))
  | _ => some s

/-- `/^[0-9a-f]{1,4}$/` and `parseInt(p, 16).toString(16)`. -/
def shortGroup (p : Text) : Option Text :=
  if p ≠ [] ∧ p.length ≤ 4 ∧ p.all fun c => isDigit c || ('a' ≤ c && c ≤ 'f') then
    some (hexText (digitsValue 16 p))
  else none

def expandIpv6 (addr : Text) : Option (List Text) :=
  match withGroups (toLowerCase u addr) with
  | none => none
  | some s =>
    match splitDouble s with
    | [whole] =>
      if (toGroups whole).length = 8 then (toGroups whole).mapM shortGroup else none
    | [h, t] =>
      let head := toGroups h
      let tail := toGroups t
      if 8 < head.length + tail.length then none
      else (head ++ List.replicate (8 - head.length - tail.length) ['0'] ++ tail).mapM shortGroup
    | _ => none

def mappedPrefix : List Text := ["0", "0", "0", "0", "0", "ffff"].map String.toList

def ipv4Of (addr : Text) : Option Text :=
  if isIP addr = 4 then some addr
  else if isIP addr = 6 then
    match expandIpv6 u addr with
    | none => none
    | some hextets =>
      if hextets.take 6 = mappedPrefix then
        let hi := digitsValue 16 (hextets.getD 6 [])
        let lo := digitsValue 16 (hextets.getD 7 [])
        some (join ['.'] ([hi / 256, hi % 256, lo / 256, lo % 256].map natText))
      else none
  else none

def bareAddress (addr : Text) : Text := stripZone (stripBrackets (trim addr))

def throttleKeyOf (addr : Option Text) : Text :=
  if trim (addr.getD []) = [] then UNKNOWN
  else
    let bare := bareAddress (addr.getD [])
    match ipv4Of u isIP bare with
    | some v4 => v4
    | none =>
      if isIP bare = 6 then
        match expandIpv6 u bare with
        | none => UNKNOWN
        | some hextets => join [':'] (hextets.take 4) ++ "::/64".toList
      else UNKNOWN

inductive Client where
  | v4 (value : List Nat)
  | v6 (groups : List Nat)

/-- The groups of an IPv4-mapped address are the address that they carry. -/
def clientOf (groups : List Nat) : Client :=
  if groups.take 6 = [0, 0, 0, 0, 0, 0xffff] then
    let hi := groups.getD 6 0
    let lo := groups.getD 7 0
    .v4 [hi / 256, hi % 256, lo / 256, lo % 256]
  else .v6 groups

/-- The platform takes the text for an address of a family, and it is a text form of this one. -/
inductive Reads (addr : Text) : Client → Prop
  | v4 {b : Bytes} (hip : isIP (bareAddress addr) = 4) (hlen : b.length = 4)
      (h : bareAddress addr = formatIpv4 b) : Reads addr (.v4 (b.map UInt8.toNat))
  | v6 {groups : List Nat} (hip : isIP (bareAddress addr) = 6)
      (h : Ipv6Text (bareAddress addr) groups) : Reads addr (clientOf groups)

/-- One IPv4 address, or two IPv6 addresses in one /64. -/
def SameBucket : Client → Client → Prop
  | .v4 a, .v4 b => a = b
  | .v6 a, .v6 b => a.take 4 = b.take 4
  | _, _ => False

def Good (g : Text) (v : Nat) : Prop :=
  shortGroup g = some (hexText v) ∧ (g ≠ [] ∧ ':' ∉ g) ∧ '.' ∉ g

theorem shortGroup_digits {g : Text} (hne : g ≠ []) (hlen : g.length ≤ 4)
    (h : ∀ c ∈ g, (isDigit c || ('a' ≤ c && c ≤ 'f')) = true ∧ c ≠ ':' ∧ c ≠ '.') :
    Good g (digitsValue 16 g) :=
  ⟨if_pos ⟨hne, hlen, List.all_eq_true.mpr fun c hc => (h c hc).1⟩,
    ⟨hne, fun hc => (h _ hc).2.1 rfl⟩, fun hc => (h _ hc).2.2 rfl⟩

theorem lower_hexDigit {c : Char} (h : isHexDigit c = true) :
    ((isDigit (asciiLower c) || ('a' ≤ asciiLower c && asciiLower c ≤ 'f')) = true ∧
      asciiLower c ≠ ':' ∧ asciiLower c ≠ '.') ∧
      digitValue (asciiLower c) = digitValue c ∧ isAscii c = true := by
  have hall : ∀ n < 128, isHexDigit (Char.ofNat n) = true →
      ((isDigit (asciiLower (Char.ofNat n)) ||
        ('a' ≤ asciiLower (Char.ofNat n) && asciiLower (Char.ofNat n) ≤ 'f')) = true ∧
        asciiLower (Char.ofNat n) ≠ ':' ∧ asciiLower (Char.ofNat n) ≠ '.') ∧
        digitValue (asciiLower (Char.ofNat n)) = digitValue (Char.ofNat n) ∧
          isAscii (Char.ofNat n) = true := by decide
  have hbound : c.toNat < 128 := by
    simp only [isHexDigit, isDigit, Bool.or_eq_true, Bool.and_eq_true, decide_eq_true_eq] at h
    omega
  have hc := hall c.toNat hbound
  rw [Char.ofNat_toNat] at hc
  exact hc h

theorem good_lower {g : Text} {v : Nat} (h : hextet g = some v) :
    Good (g.map asciiLower) v ∧ ∀ c ∈ g, isAscii c = true := by
  unfold hextet at h
  split_ifs at h with hg
  obtain ⟨hne, hlen, hdigits⟩ := hg
  have hvalue : digitsValue 16 (g.map asciiLower) = v := by
    rw [← Option.some.inj h, digitsValue, digitsValue, List.foldl_map]
    refine List.foldl_ext _ _ _ fun acc c hc => ?_
    rw [(lower_hexDigit (hdigits c hc)).2.1]
  refine ⟨hvalue ▸ shortGroup_digits (by simpa using hne) (by simpa using hlen) ?_,
    fun c hc => (lower_hexDigit (hdigits c hc)).2.2⟩
  intro c hc
  obtain ⟨d, hd, rfl⟩ := List.mem_map.mp hc
  exact (lower_hexDigit (hdigits d hd)).1

theorem good_hexText {v : Nat} (h : v < 65536) : Good (hexText v) v := by
  have hall : ∀ d : Nat, d < 16 →
      (isDigit d.digitChar || ('a' ≤ d.digitChar && d.digitChar ≤ 'f')) = true ∧
        d.digitChar ≠ ':' ∧ d.digitChar ≠ '.' := by decide
  have hgood := shortGroup_digits (hexText_ne_nil v)
    ((Nat.length_toDigits_le_iff (by decide) (by decide)).mpr h : (hexText v).length ≤ 4)
    fun c hc => by
      obtain ⟨d, hd, rfl⟩ := mem_hexText c hc
      exact hall d hd
  rw [digitsValue_hexText] at hgood
  exact hgood

section

variable {gs hs ts : List Text} {us vs : List Nat}

theorem good_hextets (h : gs.map hextet = vs.map some) :
    List.Forall₂ Good (gs.map (·.map asciiLower)) vs ∧ ∀ g ∈ gs, ∀ c ∈ g, isAscii c = true := by
  induction gs generalizing vs with
  | nil =>
    rw [List.map_eq_nil_iff.mp h.symm]
    exact ⟨.nil, fun g hg => absurd hg List.not_mem_nil⟩
  | cons g gs ih =>
    cases vs with
    | nil => cases h
    | cons v vs =>
      obtain ⟨hv, hrest⟩ := List.cons.inj h
      obtain ⟨hgood, hascii⟩ := ih hrest
      exact ⟨.cons (good_lower hv).1 hgood, List.forall_mem_cons.mpr ⟨(good_lower hv).2, hascii⟩⟩

theorem mapM_good (h : List.Forall₂ Good gs vs) : gs.mapM shortGroup = some (vs.map hexText) := by
  induction h with
  | nil => rfl
  | cons hg _ ih => simp [List.mapM_cons, hg.1, ih]

theorem joinable_good (h : List.Forall₂ Good gs vs) : Joinable gs := by
  induction h with
  | nil => exact fun g hg => absurd hg List.not_mem_nil
  | cons hg _ ih => exact List.forall_mem_cons.mpr ⟨hg.2.1, ih⟩

theorem expand_full {addr : Text} (h : withGroups (toLowerCase u addr) = some (join [':'] gs))
    (hg : List.Forall₂ Good gs vs) (hlen : vs.length = 8) :
    expandIpv6 u addr = some (vs.map hexText) := by
  have hj := joinable_good hg
  unfold expandIpv6
  rw [h]
  dsimp only
  rw [splitDouble_join_single hj]
  dsimp only
  rw [toGroups_join hj, if_pos (hg.length_eq.trans hlen), mapM_good hg]

theorem expand_short {addr : Text}
    (h : withGroups (toLowerCase u addr) = some (join [':'] hs ++ ':' :: ':' :: join [':'] ts))
    (hh : List.Forall₂ Good hs us) (ht : List.Forall₂ Good ts vs)
    (hlen : us.length + vs.length < 8) : expandIpv6 u addr =
      some ((us ++ List.replicate (8 - us.length - vs.length) 0 ++ vs).map hexText) := by
  have hzero : ∀ n, List.Forall₂ Good (List.replicate n ['0']) (List.replicate n 0) := by
    intro n
    induction n with
    | zero => exact .nil
    | succ n ih => exact .cons (good_hexText (by decide : 0 < 65536)) ih
  have hjh := joinable_good hh
  have hjt := joinable_good ht
  unfold expandIpv6
  rw [h]
  dsimp only
  rw [splitDouble_join_two hjh hjt]
  dsimp only
  rw [toGroups_join hjh, toGroups_join hjt, hh.length_eq, ht.length_eq, if_neg (by omega)]
  exact mapM_good (List.rel_append (List.rel_append hh (hzero _)) ht)

def glued (gs : List Text) : Text := gs.flatMap (· ++ [':'])

theorem join_concat (gs : List Text) (x : Text) : join [':'] (gs ++ [x]) = glued gs ++ x := by
  induction gs with
  | nil => simp [join, glued]
  | cons g gs ih =>
    obtain ⟨g', rest, hrest⟩ := List.exists_cons_of_ne_nil (by simp : gs ++ [x] ≠ [])
    rw [List.cons_append, hrest, join_cons_cons, ← hrest, ih]
    simp [glued]

/-- A text that an address can begin with: it ends with a colon, and no dot is in it. -/
def Lead (p : Text) : Prop := '.' ∉ p ∧ (p = [] ∨ ∃ q, p = q ++ [':'])

theorem withGroups_undotted {s : Text} (h : '.' ∉ s) : withGroups s = some s := by
  have hsplit : s.splitOn '.' = [s] := by
    have hjoin : (['.'].intercalate [s]).splitOn '.' = [s] :=
      List.splitOn_intercalate '.' (by simpa using h) (by simp)
    simpa using hjoin
  rw [withGroups, dottedTail, hsplit]
  rfl

theorem octet_facts : ∀ n < 256, isOctetText (natText n) = true ∧ digitsValue 10 (natText n) = n ∧
    (natText n).all isDigit = true ∧ natText n ≠ [] ∧ '.' ∉ natText n := by decide +kernel

theorem plain_formatIpv4 (b c d e : UInt8) :
    (∀ x ∈ formatIpv4 [b, c, d, e], isAscii x = true) ∧
      (formatIpv4 [b, c, d, e]).map asciiLower = formatIpv4 [b, c, d, e] := by
  have hall : ∀ n < 256, (∀ x ∈ natText n, isAscii x = true) ∧
      (natText n).map asciiLower = natText n := by decide +kernel
  obtain ⟨hb, hb'⟩ := hall _ b.toNat_lt
  obtain ⟨hc, hc'⟩ := hall _ c.toNat_lt
  obtain ⟨hd, hd'⟩ := hall _ d.toNat_lt
  obtain ⟨he, he'⟩ := hall _ e.toNat_lt
  have hdot : isAscii '.' = true ∧ asciiLower '.' = '.' := by decide
  rw [formatIpv4_four]
  simp only [List.forall_mem_append, List.forall_mem_cons, List.map_append, List.map_cons]
  exact ⟨⟨hb, hdot.1, hc, hdot.1, hd, hdot.1, he⟩, by rw [hb', hc', hd', he', hdot.2]⟩

theorem withGroups_dotted {p : Text} (h : Lead p) (b c d e : UInt8) :
    withGroups (p ++ formatIpv4 [b, c, d, e]) =
      some (p ++ hexText (b.toNat * 256 + c.toNat) ++ ':' ::
        hexText (d.toNat * 256 + e.toNat)) := by
  obtain ⟨hob, hvb, hdb, hnb, hpb⟩ := octet_facts _ b.toNat_lt
  obtain ⟨hoc, hvc, hdc, -, hpc⟩ := octet_facts _ c.toNat_lt
  obtain ⟨hod, hvd, hdd, -, hpd⟩ := octet_facts _ d.toNat_lt
  obtain ⟨hoe, hve, hde, -, hpe⟩ := octet_facts _ e.toNat_lt
  have hsplit : (p ++ formatIpv4 [b, c, d, e]).splitOn '.' =
      [p ++ natText b.toNat, natText c.toNat, natText d.toNat, natText e.toNat] := by
    have hjoin : p ++ formatIpv4 [b, c, d, e] = ['.'].intercalate
        [p ++ natText b.toNat, natText c.toNat, natText d.toNat, natText e.toNat] := by
      rw [formatIpv4_four]
      simp [List.intercalate_cons_cons]
    rw [hjoin]
    refine List.splitOn_intercalate '.' ?_ (by simp)
    simp [h.1, hpb, hpc, hpd, hpe]
  have hdigits : (p ++ natText b.toNat).rtakeWhile isDigit = natText b.toNat := by
    rw [List.rtakeWhile, List.reverse_append, List.takeWhile_append_of_pos
      (fun x hx => List.all_eq_true.mp hdb x (List.mem_reverse.mp hx))]
    have hnone : p.reverse.takeWhile isDigit = [] := by
      obtain rfl | ⟨q, rfl⟩ := h.2
      · rfl
      · rw [List.reverse_append]
        rfl
    rw [hnone, List.append_nil, List.reverse_reverse]
  have hshort : (natText b.toNat).length ≤ 3 := by
    simp only [isOctetText, Bool.and_eq_true, decide_eq_true_eq] at hob
    exact hob.1.2
  have htail : dottedTail (p ++ formatIpv4 [b, c, d, e]) =
      some (p, [natText b.toNat, natText c.toNat, natText d.toNat, natText e.toNat]) := by
    unfold dottedTail
    rw [hsplit, show [p ++ natText b.toNat, natText c.toNat, natText d.toNat,
      natText e.toNat].reverse = [natText e.toNat, natText d.toNat, natText c.toNat,
        p ++ natText b.toNat] from rfl]
    dsimp only
    rw [hdigits, Nat.sub_eq_zero_of_le hshort, List.drop_zero, if_pos ⟨hnb, hoc, hod, hoe⟩]
    rw [show join ['.'] [natText b.toNat, natText c.toNat, natText d.toNat, natText e.toNat] =
      formatIpv4 [b, c, d, e] from rfl, List.length_append, Nat.add_sub_cancel, List.take_left]
  have hb := b.toNat_lt
  have hc := c.toNat_lt
  have hd := d.toNat_lt
  have he := e.toNat_lt
  rw [withGroups, htail]
  dsimp only
  rw [hvb, hvc, hvd, hve, if_neg (by omega)]

theorem lead_glued {p : Text} (hp : Lead p) (h : List.Forall₂ Good gs vs) :
    Lead (p ++ glued gs) := by
  induction h generalizing p with
  | nil =>
    rw [glued, List.flatMap_nil, List.append_nil]
    exact hp
  | @cons g v gs vs hg _ ih =>
    have hnext : Lead (p ++ (g ++ [':'])) := by
      refine ⟨?_, .inr ⟨p ++ g, by rw [List.append_assoc]⟩⟩
      simp [hp.1, hg.2.2]
    have hrest := ih hnext
    rw [List.append_assoc] at hrest
    exact hrest

theorem join_undotted (h : List.Forall₂ Good gs vs) : '.' ∉ join [':'] gs := by
  have hall : ∀ g ∈ gs, '.' ∉ g := by
    induction h with
    | nil => exact fun g hg => absurd hg List.not_mem_nil
    | cons hg _ ih => exact List.forall_mem_cons.mpr ⟨hg.2.2, ih⟩
  intro hdot
  rcases mem_join hdot with heq | ⟨g, hg, hmem⟩
  · cases heq
  · exact hall g hg hmem

theorem map_join (gs : List Text) :
    (join [':'] gs).map asciiLower = join [':'] (gs.map (·.map asciiLower)) := by
  induction gs with
  | nil => rfl
  | cons g gs ih =>
    cases gs with
    | nil => simp [join]
    | cons g' gs =>
      rw [join_cons_cons, List.map_append, List.map_cons, ih]
      exact (join_cons_cons _ _ _).symm

theorem withGroups_groups {p : Text} (hp : Lead (p.map asciiLower)) (h : Groups ts vs) :
    (∀ g ∈ ts, ∀ c ∈ g, isAscii c = true) ∧ ∃ ts', List.Forall₂ Good ts' vs ∧
      withGroups ((p ++ join [':'] ts).map asciiLower) =
        some (p.map asciiLower ++ join [':'] ts') := by
  cases h with
  | hex h =>
    obtain ⟨hgood, hascii⟩ := good_hextets h
    refine ⟨hascii, _, hgood, ?_⟩
    rw [List.map_append, map_join]
    exact withGroups_undotted (by simp [hp.1, join_undotted hgood])
  | @mixed gs vs h b c d e =>
    obtain ⟨hgood, hascii⟩ := good_hextets h
    obtain ⟨hplain, hsame⟩ := plain_formatIpv4 b c d e
    have hpair : ∀ x y : UInt8, x.toNat * 256 + y.toNat < 65536 := by
      intro x y
      have hx := x.toNat_lt
      have hy := y.toNat_lt
      omega
    refine ⟨List.forall_mem_append.mpr ⟨hascii, by simpa using hplain⟩,
      gs.map (·.map asciiLower) ++ ([hexText (b.toNat * 256 + c.toNat)] ++
        [hexText (d.toNat * 256 + e.toNat)]), ?_, ?_⟩
    · exact List.rel_append hgood
        (.cons (good_hexText (hpair b c)) (.cons (good_hexText (hpair d e)) .nil))
    · have hglued : (glued gs).map asciiLower = glued (gs.map (·.map asciiLower)) := by
        simp [glued, List.map_flatMap, List.flatMap_map, asciiLower]
      rw [join_concat, List.map_append, List.map_append, hsame, hglued, ← List.append_assoc,
        withGroups_dotted (lead_glued hp hgood), ← List.append_assoc, join_concat]
      simp [glued]

theorem ascii_join (h : ∀ g ∈ gs, ∀ c ∈ g, isAscii c = true) :
    (join [':'] gs).all isAscii = true := by
  refine List.all_eq_true.mpr fun c hc => ?_
  rcases mem_join hc with rfl | ⟨g, hg, hmem⟩
  · rfl
  · exact h g hg c hmem

theorem expandIpv6_text {addr : Text} (h : Ipv6Text addr vs) :
    expandIpv6 u addr = some (vs.map hexText) := by
  cases h with
  | full h hlen =>
    obtain ⟨hascii, ts, hgood, hw⟩ := withGroups_groups (p := []) ⟨by simp, .inl rfl⟩ h
    refine expand_full u ?_ hgood hlen
    rw [toLowerCase, if_pos (ascii_join hascii)]
    exact hw
  | @short hs ts us vs hhead htail hlen =>
    obtain ⟨hgood, hasciis⟩ := good_hextets hhead
    have hlead : Lead ((join [':'] hs ++ [':', ':']).map asciiLower) := by
      rw [List.map_append, map_join]
      refine ⟨?_, .inr ⟨join [':'] (hs.map (·.map asciiLower)) ++ [':'], by simp [asciiLower]⟩⟩
      simp [join_undotted hgood, asciiLower]
    obtain ⟨hascii, ts', hgood', hw⟩ := withGroups_groups hlead htail
    have hcut : join [':'] hs ++ ':' :: ':' :: join [':'] ts =
        join [':'] hs ++ [':', ':'] ++ join [':'] ts := by simp
    refine expand_short u ?_ hgood hgood' hlen
    have hall : (join [':'] hs ++ ':' :: ':' :: join [':'] ts).all isAscii = true := by
      simp [ascii_join hasciis, ascii_join hascii, isAscii]
    rw [toLowerCase, if_pos hall, hcut, hw, List.map_append, map_join]
    simp [asciiLower]

end

def Client.key : Client → Text
  | .v4 value => join ['.'] (value.map natText)
  | .v6 groups => join [':'] ((groups.take 4).map hexText) ++ "::/64".toList

variable {u isIP} {addr : Text} {c c' : Client}

theorem take_hexText (groups : List Nat) :
    (groups.map hexText).take 6 = mappedPrefix ↔ groups.take 6 = [0, 0, 0, 0, 0, 0xffff] := by
  have hinj : Function.Injective hexText := fun m n h => by
    rw [← digitsValue_hexText m, h, digitsValue_hexText]
  rw [← List.map_take, show mappedPrefix = [0, 0, 0, 0, 0, 0xffff].map hexText from rfl]
  exact (List.map_injective_iff.mpr hinj).eq_iff

theorem throttleKeyOf_reads (h : Reads isIP addr c) : throttleKeyOf u isIP (some addr) = c.key := by
  have hempty : trim addr = [] → bareAddress addr = [] := fun htrim => by
    rw [bareAddress, htrim]
    rfl
  cases h with
  | @v4 b hip hlen h =>
    have hsome : trim addr ≠ [] := by
      intro htrim
      rw [hempty htrim] at h
      match b, hlen with
      | [b, c, d, e], _ => exact (joinable_formatIpv4 b c d e).1 h.symm
    rw [throttleKeyOf, Option.getD_some, if_neg hsome]
    dsimp only
    rw [ipv4Of, if_pos hip, h, Client.key, formatIpv4, List.map_map]
    rfl
  | @v6 groups hip h =>
    have hexpand := expandIpv6_text u h
    have hsome : trim addr ≠ [] := by
      intro htrim
      rw [hempty htrim] at hexpand
      cases hexpand
    have hfour : isIP (bareAddress addr) ≠ 4 := by omega
    rw [throttleKeyOf, Option.getD_some, if_neg hsome]
    dsimp only
    rw [ipv4Of, if_neg hfour, if_pos hip, hexpand]
    dsimp only
    unfold clientOf
    by_cases hmapped : groups.take 6 = [0, 0, 0, 0, 0, 0xffff]
    · have hgroup : ∀ i, digitsValue 16 ((groups.map hexText).getD i []) = groups.getD i 0 := by
        intro i
        rw [List.getD_eq_getElem?_getD, List.getElem?_map, List.getD_eq_getElem?_getD]
        cases groups[i]? with
        | none => rfl
        | some n => exact digitsValue_hexText n
      rw [if_pos ((take_hexText groups).mpr hmapped), if_pos hmapped, hgroup, hgroup]
      rfl
    · rw [if_neg fun heq => hmapped ((take_hexText groups).mp heq), if_neg hmapped]
      dsimp only
      rw [if_pos hip, ← List.map_take]
      rfl

theorem value_ne_nil {value : List Nat} (h : Reads isIP addr (.v4 value)) : value ≠ [] := by
  generalize hc : Client.v4 value = c at h
  cases h with
  | v4 hip hlen h =>
    cases hc
    rintro hnil
    rw [List.map_eq_nil_iff.mp hnil] at hlen
    cases hlen
  | v6 hip h =>
    unfold clientOf at hc
    split_ifs at hc
    cases hc
    exact List.cons_ne_nil _ _

theorem dotted_inj {a b : List Nat} (ha : a ≠ []) (hb : b ≠ [])
    (h : join ['.'] (a.map natText) = join ['.'] (b.map natText)) : a = b := by
  have hsplit : ∀ xs : List Nat, xs ≠ [] →
      (join ['.'] (xs.map natText)).splitOn '.' = xs.map natText := by
    intro xs hxs
    refine List.splitOn_intercalate '.' (fun s hs => ?_) (by simpa using hxs)
    obtain ⟨n, -, rfl⟩ := List.mem_map.mp hs
    exact fun hdot => absurd (natText_digits n '.' hdot).1 (by decide)
  have hmap := congrArg (List.splitOn '.') h
  rw [hsplit a ha, hsplit b hb] at hmap
  refine List.map_injective_iff.mpr (fun m n hmn => ?_) hmap
  rw [← digitsValue_natText m, hmn, digitsValue_natText]

theorem colons_inj {a b : List Nat} (h : join [':'] (a.map hexText) = join [':'] (b.map hexText)) :
    a = b := by
  have hmap := congrArg toGroups h
  rw [toGroups_join (joinable_hexText a), toGroups_join (joinable_hexText b)] at hmap
  refine List.map_injective_iff.mpr (fun m n hmn => ?_) hmap
  rw [← digitsValue_hexText m, hmn, digitsValue_hexText]

theorem key_ne (value groups : List Nat) : (Client.v4 value).key ≠ (Client.v6 groups).key := by
  intro h
  have hslash : '/' ∈ (Client.v4 value).key := by
    rw [h]
    simp [Client.key]
  rcases mem_join hslash with heq | ⟨s, hs, hmem⟩
  · cases heq
  · obtain ⟨n, -, rfl⟩ := List.mem_map.mp hs
    exact absurd (natText_digits n '/' hmem).1 (by decide)

theorem key_inj (h : Reads isIP addr c) {addr' : Text} (h' : Reads isIP addr' c') :
    c.key = c'.key ↔ SameBucket c c' := by
  match c, c' with
  | .v4 a, .v4 b =>
    exact ⟨dotted_inj (value_ne_nil h) (value_ne_nil h'),
      fun heq => congrArg (fun x => (Client.v4 x).key) heq⟩
  | .v6 a, .v6 b =>
    refine ⟨fun heq => colons_inj (List.append_cancel_right heq), fun heq => ?_⟩
    rw [Client.key, Client.key, show a.take 4 = b.take 4 from heq]
  | .v4 a, .v6 b => exact iff_of_false (key_ne a b) id
  | .v6 a, .v4 b => exact iff_of_false (Ne.symm (key_ne b a)) id

/-- Two addresses are counted under one key exactly when they are one IPv4 address or two of one
/64. -/
theorem throttle_key {addr' : Text} (h : Reads isIP addr c) (h' : Reads isIP addr' c') :
    throttleKeyOf u isIP (some addr) = throttleKeyOf u isIP (some addr') ↔ SameBucket c c' := by
  rw [throttleKeyOf_reads h, throttleKeyOf_reads h']
  exact key_inj h h'

theorem throttle_key_spelled :
    let isIP := fun s : Text => if ':' ∈ s then 6 else 4
    let u : CaseMap := ⟨id, id⟩
    throttleKeyOf u isIP (some "10.0.0.1".toList) =
      throttleKeyOf u isIP (some "[::FFFF:A00:1%eth0]".toList) := by
  intro isIP u
  have htail : Groups ["FFFF".toList, "A00".toList, "1".toList] [0xffff, 0xa00, 1] :=
    .hex (by decide)
  have hbare : bareAddress "[::FFFF:A00:1%eth0]".toList = "::FFFF:A00:1".toList := by decide
  have htext : Ipv6Text (bareAddress "[::FFFF:A00:1%eth0]".toList)
      [0, 0, 0, 0, 0, 0xffff, 0xa00, 1] := by
    rw [hbare]
    exact .short (by rfl : ([] : List Text).map hextet = ([] : List Nat).map some) htail (by decide)
  have hv4 : Reads isIP "10.0.0.1".toList (.v4 [10, 0, 0, 1]) :=
    .v4 (b := [10, 0, 0, 1]) (by decide) rfl (by decide)
  have hv6 : Reads isIP "[::FFFF:A00:1%eth0]".toList (clientOf [0, 0, 0, 0, 0, 0xffff, 0xa00, 1]) :=
    .v6 (by decide) htext
  exact (throttle_key hv4 hv6).mpr rfl

end Ionosphere.Core
