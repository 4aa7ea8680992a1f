import Ionosphere.Dns.RoundTrip

/-! What the reader makes of a name on the wire. Labels are any bytes, and the text has no
escapes: a dot in a label reads as one between two, and bytes that are no UTF-8 all read as the
replacement character. -/
namespace Ionosphere.Dns

open Ionosphere.Js Ionosphere.Lib

/-- The labels of the name at an offset, and the rounds it takes to follow them. -/
inductive WireName (view : Bytes) : Nat → List Bytes → Nat → Prop
  | root {pos : Nat} (h : view[pos]? = some 0) : WireName view pos [] 1
  | label {pos rounds : Nat} {b : UInt8} {ls : List Bytes} (h : view[pos]? = some b)
      (hpos : 0 < b.toNat) (hlen : b.toNat < 64) (hfits : pos + 1 + b.toNat ≤ view.length)
      (rest : WireName view (pos + 1 + b.toNat) ls rounds) :
      WireName view pos ((view.drop (pos + 1)).take b.toNat :: ls) (rounds + 1)
  | pointer {pos rounds : Nat} {b low : UInt8} {ls : List Bytes} (h : view[pos]? = some b)
      (hb : 192 ≤ b.toNat) (hlow : view[pos + 1]? = some low)
      (rest : WireName view ((b.toNat - 192) * 256 + low.toNat) ls rounds) :
      WireName view pos ls (rounds + 1)

def decodeName (ls : List Bytes) : Text := join ['.'] (ls.map utf8Decode)

/-- The text of a name, cut at each dot wherever it comes from. -/
def pieces (ls : List Bytes) : List Text :=
  if ls = [] then [[]] else ls.flatMap fun l => (utf8Decode l).splitOn '.'

def PlainLabel (l : Bytes) : Prop := utf8Encode (utf8Decode l) = l ∧ '.' ∉ utf8Decode l

theorem and_c0_byte : ∀ n < 256, (n &&& 0xc0 = 0 ↔ n < 64) ∧ (n &&& 0xc0 = 0xc0 ↔ 192 ≤ n) ∧
    (192 ≤ n → n &&& 0x3f = n - 192) := by
  decide +kernel

theorem pointer_eq {b low : UInt8} (hb : 192 ≤ b.toNat) :
    ((b.toNat &&& 0x3f) <<< 8) ||| low.toNat = (b.toNat - 192) * 256 + low.toNat := by
  rw [(and_c0_byte b.toNat b.toNat_lt).2.2 hb, ← Nat.shiftLeft_add_eq_or_of_lt low.toNat_lt,
    Nat.shiftLeft_eq]

theorem nameLoop_of_wireName {view : Bytes} {pos rounds : Nat} {ls : List Bytes}
    (h : WireName view pos ls rounds) {steps : Nat} (hsteps : rounds ≤ steps) (next : Option Nat)
    (acc : List Text) : ∃ off,
      ByteReader.nameLoop view steps pos next acc = .ok (acc ++ ls.map utf8Decode, off) := by
  induction h generalizing steps next acc with
  | @root pos h =>
    obtain ⟨steps, rfl⟩ : ∃ k, steps = k + 1 := ⟨steps - 1, by omega⟩
    refine ⟨next.getD (pos + 1), ?_⟩
    rw [ByteReader.nameLoop, h]
    simp
  | @label pos rounds b ls h hpos hlen hfits rest ih =>
    obtain ⟨steps, rfl⟩ : ∃ k, steps = k + 1 := ⟨steps - 1, by omega⟩
    obtain ⟨hlow, hhigh, -⟩ := and_c0_byte b.toNat b.toNat_lt
    obtain ⟨off, hoff⟩ := ih (show rounds ≤ steps by omega) next
      (acc ++ [utf8Decode ((view.drop (pos + 1)).take b.toNat)])
    refine ⟨off, ?_⟩
    rw [ByteReader.nameLoop, h]
    dsimp only
    rw [if_neg (by omega), if_neg (fun hc => by omega), if_neg (not_not.mpr (hlow.mpr hlen)),
      if_neg (by omega), hoff]
    simp
  | @pointer pos rounds b low ls h hb hlow rest ih =>
    obtain ⟨steps, rfl⟩ : ∃ k, steps = k + 1 := ⟨steps - 1, by omega⟩
    obtain ⟨-, hhigh, -⟩ := and_c0_byte b.toNat b.toNat_lt
    obtain ⟨off, hoff⟩ := ih (show rounds ≤ steps by omega) (some (next.getD (pos + 2))) acc
    refine ⟨off, ?_⟩
    rw [ByteReader.nameLoop, h]
    dsimp only
    rw [if_neg (by omega), if_pos (hhigh.mpr hb), hlow]
    dsimp only
    rw [pointer_eq hb]
    exact hoff

theorem wireName_of_nameLoop {view : Bytes} {steps pos off : Nat} {next : Option Nat}
    {acc labels : List Text}
    (h : ByteReader.nameLoop view steps pos next acc = .ok (labels, off)) :
    ∃ ls rounds, rounds ≤ steps ∧ WireName view pos ls rounds ∧
      labels = acc ++ ls.map utf8Decode := by
  induction steps generalizing pos next acc with
  | zero => cases h
  | succ steps ih =>
    rw [ByteReader.nameLoop] at h
    cases hb : view[pos]? with
    | none =>
      rw [hb] at h
      cases h
    | some b =>
      rw [hb] at h
      dsimp only at h
      obtain ⟨hlow, hhigh, -⟩ := and_c0_byte b.toNat b.toNat_lt
      split_ifs at h with hzero hpointer hkind hfits
      · obtain ⟨rfl, -⟩ := Prod.mk.inj (Except.ok.inj h)
        obtain rfl : b = 0 := UInt8.toNat_inj.mp hzero
        exact ⟨[], 1, by omega, .root hb, by simp⟩
      · cases hl : view[pos + 1]? with
        | none =>
          rw [hl] at h
          cases h
        | some low =>
          rw [hl] at h
          dsimp only at h
          rw [pointer_eq (hhigh.mp hpointer)] at h
          obtain ⟨ls, rounds, hrounds, hname, heq⟩ := ih h
          exact ⟨ls, rounds + 1, by omega, .pointer hb (hhigh.mp hpointer) hl hname, heq⟩
      · obtain ⟨ls, rounds, hrounds, hname, heq⟩ := ih h
        have hlen : b.toNat < 64 := hlow.mp (not_not.mp hkind)
        refine ⟨_, rounds + 1, by omega, .label hb (by omega) hlen (by omega) hname, ?_⟩
        rw [heq]
        simp

theorem name_reads (view : Bytes) (c : Cursor) :
    (∃ ls rounds next, rounds ≤ ByteReader.maxNameSteps + 1 ∧
      WireName view c.offset ls rounds ∧
      ByteReader.name view c = .ok (decodeName ls, next)) ∨
    (∃ e, ByteReader.name view c = .error e) ∧
      ∀ ls rounds, WireName view c.offset ls rounds → ByteReader.maxNameSteps + 1 < rounds := by
  cases hloop : ByteReader.nameLoop view (ByteReader.maxNameSteps + 1) c.offset none [] with
  | error e =>
    refine .inr ⟨⟨e, by rw [ByteReader.name, hloop]⟩, fun ls rounds hname => ?_⟩
    refine Nat.lt_of_not_le fun hle => ?_
    obtain ⟨off, hok⟩ := nameLoop_of_wireName hname hle none []
    rw [hloop] at hok
    cases hok
  | ok r =>
    obtain ⟨labels, off⟩ := r
    obtain ⟨ls, rounds, hrounds, hname, heq⟩ := wireName_of_nameLoop hloop
    refine .inl ⟨ls, rounds, ⟨off, c.taken ++ [(c.offset, off)]⟩, hrounds, hname, ?_⟩
    rw [ByteReader.name, hloop, heq]
    rfl

theorem splitOn_join {ts : List Text} (h : ts ≠ []) :
    (join ['.'] ts).splitOn '.' = ts.flatMap (·.splitOn '.') := by
  induction ts with
  | nil => exact absurd rfl h
  | cons t ts ih =>
    cases ts with
    | nil => simp [join]
    | cons t' ts =>
      have hjoin : join ['.'] (t :: t' :: ts) = t ++ '.' :: join ['.'] (t' :: ts) := by
        simp [join, List.intercalate_cons_cons]
      rw [hjoin, List.splitOn_append_cons_self, ih (List.cons_ne_nil t' ts)]
      rfl

theorem splitOn_decodeName (ls : List Bytes) : (decodeName ls).splitOn '.' = pieces ls := by
  unfold pieces decodeName
  split_ifs with hnil
  · rw [hnil]
    rfl
  · rw [splitOn_join (by simpa using hnil), List.flatMap_map]

theorem decodeName_inj (ls ls' : List Bytes) :
    decodeName ls = decodeName ls' ↔ pieces ls = pieces ls' := by
  rw [← splitOn_decodeName, ← splitOn_decodeName]
  refine ⟨fun h => by rw [h], fun h => ?_⟩
  have hback : ∀ t : Text, join ['.'] (t.splitOn '.') = t := fun t => List.intercalate_splitOn '.'
  rw [← hback (decodeName ls), h, hback]

theorem pieces_plain {ls : List Bytes} (hplain : ∀ l ∈ ls, PlainLabel l) (hne : ls ≠ []) :
    pieces ls = ls.map utf8Decode := by
  have hone : ∀ t : Text, '.' ∉ t → t.splitOn '.' = [t] := by
    intro t ht
    have hsplit : (join ['.'] [t]).splitOn '.' = [t] :=
      List.splitOn_intercalate '.' (by simpa using ht) (by simp)
    simpa [join] using hsplit
  rw [pieces, if_neg hne, List.map_eq_flatMap]
  exact List.flatMap_congr fun l hl => hone _ (hplain l hl).2

theorem WireName.label_ne_nil {view : Bytes} {pos rounds : Nat} {ls : List Bytes}
    (h : WireName view pos ls rounds) : ∀ l ∈ ls, l ≠ [] := by
  induction h with
  | root => simp
  | label h hpos hlen hfits rest ih =>
    intro l hl
    rcases List.mem_cons.mp hl with rfl | hl
    · refine List.ne_nil_of_length_pos ?_
      rw [List.length_take, List.length_drop]
      omega
    · exact ih l hl
  | pointer h hb hlow rest ih => exact ih

theorem eq_of_plain {ls ls' : List Bytes} (hplain : ∀ l ∈ ls, PlainLabel l ∧ l ≠ [])
    (hplain' : ∀ l ∈ ls', PlainLabel l ∧ l ≠ []) (h : decodeName ls = decodeName ls') :
    ls = ls' := by
  have hback : ∀ ls : List Bytes, (∀ l ∈ ls, PlainLabel l ∧ l ≠ []) → ls ≠ [] →
      (pieces ls).map utf8Encode = ls := by
    intro ls hls hne
    rw [pieces_plain (fun l hl => (hls l hl).1) hne, List.map_map]
    conv_rhs => rw [← List.map_id ls]
    exact List.map_congr_left fun l hl => (hls l hl).1.1
  have hroot : ∀ ls : List Bytes, (∀ l ∈ ls, PlainLabel l ∧ l ≠ []) → pieces ls = [[]] →
      ls = [] := by
    intro ls hls heq
    by_contra hne
    have hone := hback ls hls hne
    rw [heq] at hone
    exact (hls [] (hone ▸ List.mem_singleton.mpr rfl)).2 rfl
  have hpieces := (decodeName_inj ls ls').mp h
  by_cases hnil : ls = []
  · rw [hnil] at hpieces ⊢
    exact (hroot ls' hplain' hpieces.symm).symm
  · by_cases hnil' : ls' = []
    · rw [hnil'] at hpieces ⊢
      exact hroot ls hplain hpieces
    · rw [← hback ls hplain hnil, hpieces, hback ls' hplain' hnil']

/-- Every name is read or refused. Two that are read have one text when their labels, decoded
and cut at dots, are the same pieces; names of plain labels are then the same. -/
theorem name_decoding (view view' : Bytes) (c c' : Cursor) :
    ((∃ e, ByteReader.name view c = .error e) ∨
      ∃ ls rounds next, WireName view c.offset ls rounds ∧
        rounds ≤ ByteReader.maxNameSteps + 1 ∧
        ByteReader.name view c = .ok (decodeName ls, next)) ∧
    ∀ ls ls' rounds rounds', WireName view c.offset ls rounds →
      WireName view' c'.offset ls' rounds' →
      (decodeName ls = decodeName ls' ↔ pieces ls = pieces ls') ∧
      ((∀ l ∈ ls, PlainLabel l) → (∀ l ∈ ls', PlainLabel l) → decodeName ls = decodeName ls' →
        ls = ls') := by
  refine ⟨?_, fun ls ls' rounds rounds' h h' => ⟨decodeName_inj ls ls', fun hp hp' heq => ?_⟩⟩
  · rcases name_reads view c with ⟨ls, rounds, next, hrounds, hname, heq⟩ | ⟨herror, -⟩
    · exact .inr ⟨ls, rounds, next, hname, hrounds, heq⟩
    · exact .inl herror
  · exact eq_of_plain (fun l hl => ⟨hp l hl, h.label_ne_nil l hl⟩)
      (fun l hl => ⟨hp' l hl, h'.label_ne_nil l hl⟩) heq

def dottedLabel : Bytes := [3, 97, 46, 98, 0]

def twoLabels : Bytes := [1, 97, 1, 98, 0]

theorem wireName_dottedLabel : WireName dottedLabel 0 [[97, 46, 98]] 2 :=
  .label (b := 3) rfl (by decide) (by decide) (by decide) (.root rfl)

theorem wireName_twoLabels : WireName twoLabels 0 [[97], [98]] 3 :=
  .label (b := 1) rfl (by decide) (by decide) (by decide)
    (.label (b := 1) rfl (by decide) (by decide) (by decide) (.root rfl))

theorem name_decoding_fails : ¬ ∀ (view view' : Bytes) (c c' : Cursor) (ls ls' : List Bytes)
    (rounds rounds' : Nat) (r r' : Text × Cursor), WireName view c.offset ls rounds →
    WireName view' c'.offset ls' rounds' → ls ≠ ls' → ByteReader.name view c = .ok r →
    ByteReader.name view' c' = .ok r' → r.1 ≠ r'.1 := by
  intro hclaim
  exact hclaim dottedLabel twoLabels ⟨0, []⟩ ⟨0, []⟩ _ _ 2 3
    ("a.b".toList, ⟨5, [(0, 5)]⟩) ("a.b".toList, ⟨5, [(0, 5)]⟩) wireName_dottedLabel
    wireName_twoLabels (by decide) rfl rfl rfl

end Ionosphere.Dns
