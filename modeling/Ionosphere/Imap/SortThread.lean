import Ionosphere.Imap.Types
import Ionosphere.Lib.Groups
import Ionosphere.Lib.Lexicographic
import Mathlib.Data.List.Lex

/-! SORT and THREAD: the sort criteria, the two response lines, and the orders they stand for. -/
namespace Ionosphere.Imap

open Ionosphere.Js Ionosphere.Lib

def SortKey.text : SortKey → Text
  | .arrival => "ARRIVAL".toList
  | .cc => "CC".toList
  | .date => "DATE".toList
  | .sender => "FROM".toList
  | .size => "SIZE".toList
  | .subject => "SUBJECT".toList
  | .recipient => "TO".toList

def sortKeys : List SortKey := [.arrival, .cc, .date, .sender, .size, .subject, .recipient]

def reverseWord : Text := "REVERSE".toList

/-- The loop over the items: `REVERSE` is for the criterion after it alone. -/
def sortSpecsFrom (u : CaseMap) : Bool → List ImapValue → Option (List SortSpec)
  | reverse, [] => if reverse then none else some []
  | reverse, item :: items =>
    match (valueText item).map (toUpperCase u) with
    | none => none
    | some t =>
      if t = reverseWord then
        if reverse then none else sortSpecsFrom u true items
      else
        match sortKeys.find? fun k => k.text = t with
        | none => none
        | some k => (sortSpecsFrom u false items).map (⟨k, reverse⟩ :: ·)

def parseSortSpec (u : CaseMap) (items : List ImapValue) : Option (List SortSpec) :=
  match sortSpecsFrom u false items with
  | some (s :: ss) => some (s :: ss)
  | _ => none

/-- The UTF-16 units of a string, which `<` compares. -/
def codeUnits (s : Text) : List Nat :=
  s.flatMap fun c =>
    if c.toNat < 0x10000 then [c.toNat]
    else [0xd800 + (c.toNat - 0x10000) / 0x400, 0xdc00 + (c.toNat - 0x10000) % 0x400]

def cmpStr (a b : Text) : Int :=
  if codeUnits a < codeUnits b then -1 else if codeUnits b < codeUnits a then 1 else 0

section

variable (sortMeta : List SortMeta)

/-- `meta.get(uid)`: a key that is set again keeps its last value. -/
def metaOf (it : SortItem) : Option SortMeta := sortMeta.reverse.find? fun m => m.uid = it.uid

def arrivalOf (it : SortItem) : Int := ((metaOf sortMeta it).map SortMeta.internalDateMs).getD 0

def messageSize (it : SortItem) : Int := ((metaOf sortMeta it).map fun m => (m.size : Int)).getD 0

def sentDate (it : SortItem) : Int :=
  if it.keys.sentAtMs = 0 then arrivalOf sortMeta it else it.keys.sentAtMs

def cmpBy (key : SortKey) (a b : SortItem) : Int :=
  match key with
  | .arrival => arrivalOf sortMeta a - arrivalOf sortMeta b
  | .size => messageSize sortMeta a - messageSize sortMeta b
  | .date => sentDate sortMeta a - sentDate sortMeta b
  | .subject => cmpStr a.keys.subjectBase b.keys.subjectBase
  | .sender => cmpStr a.keys.sender b.keys.sender
  | .recipient => cmpStr a.keys.recipient b.keys.recipient
  | .cc => cmpStr a.keys.cc b.keys.cc

def compareHits : List SortSpec → SortItem → SortItem → Int
  | [], a, b => (a.seq : Int) - b.seq
  | s :: spec, a, b =>
    let r := cmpBy sortMeta s.key a b
    if r ≠ 0 then (if s.reverse then -r else r) else compareHits spec a b

def sortedHits (hits : List SortItem) (spec : List SortSpec) : List SortItem :=
  hits.insertionSort fun a b => compareHits sortMeta spec a b ≤ 0

def numsText (hits : List SortItem) : Text := join " ".toList (hits.map fun h => natText h.num)

def sortLine (hits : List SortItem) : Text :=
  "* SORT".toList ++ if hits = [] then [] else " ".toList ++ numsText hits

def formatSortLine (hits : List SortItem) (spec : List SortSpec) : Text :=
  sortLine (sortedHits sortMeta hits spec)

end

/-- A message without a thread is one of its own; no thread id begins with NUL. -/
def threadKey (h : SortItem) : Text :=
  if h.keys.threadId = [] then Char.ofNat 0 :: "solo-".toList ++ natText h.uid else h.keys.threadId

/-- `a.keys.sentAtMs - b.keys.sentAtMs || a.seq - b.seq`. -/
def cmpDate (a b : SortItem) : Int :=
  let r := a.keys.sentAtMs - b.keys.sentAtMs
  if r ≠ 0 then r else (a.seq : Int) - b.seq

def cmpThread (algorithm : ThreadAlgorithm) (x y : SortItem) : Int :=
  let r := cmpStr x.keys.subjectBase y.keys.subjectBase
  if algorithm = .orderedsubject ∧ r ≠ 0 then r else cmpDate x y

def cmpHeads (algorithm : ThreadAlgorithm) : List SortItem → List SortItem → Int
  | x :: _, y :: _ => cmpThread algorithm x y
  | _, _ => 0

def threads (hits : List SortItem) (algorithm : ThreadAlgorithm) : List (List SortItem) :=
  let groups := (Groups.collect threadKey hits).map (·.2)
  let ordered := groups.map fun g => g.insertionSort fun a b => cmpDate a b ≤ 0
  ordered.insertionSort fun g h => cmpHeads algorithm g h ≤ 0

def threadLine (groups : List (List SortItem)) : Text :=
  let body := groups.flatMap fun g => "(".toList ++ numsText g ++ ")".toList
  "* THREAD".toList ++ if body = [] then [] else " ".toList ++ body

def formatThreadLine (hits : List SortItem) (algorithm : ThreadAlgorithm) : Text :=
  threadLine (threads hits algorithm)

def SortSpec.words (s : SortSpec) : List Text :=
  (if s.reverse then [reverseWord] else []) ++ [s.key.text]

theorem SortKey.text_ne (k : SortKey) : k.text ≠ reverseWord := by cases k <;> decide

theorem find_sortKey (k : SortKey) : sortKeys.find? (fun l => l.text = k.text) = some k := by
  cases k <;> decide

/-- The criteria that begin with a `REVERSE` or without one, and a word. -/
theorem words_cons {specs : List SortSpec} {reverse : Bool} {w : Text} {ws : List Text}
    (hw : w ≠ reverseWord) :
    (if reverse then [reverseWord] else []) ++ w :: ws = specs.flatMap SortSpec.words ↔
      ∃ k rest, w = SortKey.text k ∧ specs = ⟨k, reverse⟩ :: rest ∧
        ws = rest.flatMap SortSpec.words := by
  constructor
  · intro h
    cases specs with
    | nil => cases reverse <;> exact absurd h (by simp)
    | cons s rest =>
      obtain ⟨k, r⟩ := s
      rw [List.flatMap_cons, SortSpec.words] at h
      cases reverse with
      | true =>
        cases r with
        | true =>
          obtain ⟨htext, hrest⟩ := List.cons.inj (List.cons.inj h).2
          exact ⟨k, rest, htext, rfl, hrest⟩
        | false => exact absurd (List.cons.inj h).1.symm k.text_ne
      | false =>
        cases r with
        | true => exact absurd (List.cons.inj h).1 hw
        | false =>
          obtain ⟨htext, hrest⟩ := List.cons.inj h
          exact ⟨k, rest, htext, rfl, hrest⟩
  · rintro ⟨k, rest, rfl, rfl, rfl⟩
    rw [List.flatMap_cons, SortSpec.words, List.append_assoc]
    rfl

theorem words_reverse {specs : List SortSpec} {ws : List Text} :
    reverseWord :: reverseWord :: ws ≠ specs.flatMap SortSpec.words := by
  intro h
  cases specs with
  | nil => cases h
  | cons s rest =>
    obtain ⟨k, r⟩ := s
    rw [List.flatMap_cons, SortSpec.words] at h
    cases r with
    | true => exact k.text_ne (List.cons.inj (List.cons.inj h).2).1.symm
    | false => exact k.text_ne (List.cons.inj h).1.symm

theorem words_reverse_alone {specs : List SortSpec} :
    [reverseWord] ≠ specs.flatMap SortSpec.words := by
  intro h
  cases specs with
  | nil => cases h
  | cons s rest =>
    obtain ⟨k, r⟩ := s
    rw [List.flatMap_cons, SortSpec.words] at h
    cases r with
    | true => exact absurd (List.cons.inj h).2 (by simp)
    | false => exact k.text_ne (List.cons.inj h).1.symm

theorem sortSpecsFrom_iff (u : CaseMap) (items : List ImapValue) (reverse : Bool)
    (specs : List SortSpec) :
    sortSpecsFrom u reverse items = some specs ↔
      ∃ ws, items.mapM (fun item => (valueText item).map (toUpperCase u)) = some ws ∧
        (if reverse then [reverseWord] else []) ++ ws = specs.flatMap SortSpec.words := by
  induction items generalizing reverse specs with
  | nil =>
    rw [sortSpecsFrom, List.mapM_nil]
    cases reverse with
    | true =>
      refine iff_of_false (by simp) ?_
      rintro ⟨ws, hws, h⟩
      cases hws
      exact words_reverse_alone h
    | false =>
      constructor
      · intro h
        cases h
        exact ⟨[], rfl, rfl⟩
      · rintro ⟨ws, hws, h⟩
        cases hws
        cases specs with
        | nil => rfl
        | cons s rest =>
          have hlen := congrArg List.length h
          simp [SortSpec.words] at hlen
  | cons item items ih =>
    rw [sortSpecsFrom, List.mapM_cons]
    cases htext : (valueText item).map (toUpperCase u) with
    | none => simp
    | some t =>
      simp only [Option.pure_def, Option.bind_eq_bind, Option.bind_some]
      by_cases hrev : t = reverseWord
      · rw [if_pos hrev, hrev]
        cases reverse with
        | true =>
          refine iff_of_false (by simp) ?_
          rintro ⟨ws, hws, h⟩
          obtain ⟨vs, -, hvs⟩ := Option.bind_eq_some_iff.mp hws
          rw [← Option.some.inj hvs] at h
          exact words_reverse h
        | false =>
          rw [if_neg Bool.false_ne_true, ih true specs]
          constructor
          · rintro ⟨ws, hws, h⟩
            exact ⟨reverseWord :: ws, by rw [hws]; rfl, h⟩
          · rintro ⟨ws, hws, h⟩
            obtain ⟨vs, hvs, heq⟩ := Option.bind_eq_some_iff.mp hws
            rw [← Option.some.inj heq] at h
            exact ⟨vs, hvs, h⟩
      · rw [if_neg hrev]
        constructor
        · intro h
          split at h
          · cases h
          · rename_i k hfind
            obtain ⟨rest, hrest, rfl⟩ := Option.map_eq_some_iff.mp h
            obtain ⟨ws, hws, hwords⟩ := (ih false rest).mp hrest
            have htext : t = k.text := by
              have hk := List.find?_some hfind
              exact (of_decide_eq_true hk).symm
            exact ⟨t :: ws, by rw [hws]; rfl,
              (words_cons hrev).mpr ⟨k, rest, htext, rfl, hwords⟩⟩
        · rintro ⟨ws, hws, h⟩
          obtain ⟨vs, hvs, heq⟩ := Option.bind_eq_some_iff.mp hws
          rw [← Option.some.inj heq] at h
          obtain ⟨k, rest, rfl, rfl, hwords⟩ := (words_cons hrev).mp h
          rw [find_sortKey]
          exact Option.map_eq_some_iff.mpr ⟨rest, (ih false rest).mpr ⟨vs, hvs, hwords⟩, rfl⟩

/-- The criteria are read as they are written: `REVERSE` marks the one after it. -/
theorem parseSortSpec_iff (u : CaseMap) (items : List ImapValue) (specs : List SortSpec) :
    parseSortSpec u items = some specs ↔
      specs ≠ [] ∧ items.mapM (fun item => (valueText item).map (toUpperCase u)) =
        some (specs.flatMap SortSpec.words) := by
  have hfrom : sortSpecsFrom u false items = some specs ↔
      items.mapM (fun item => (valueText item).map (toUpperCase u)) =
        some (specs.flatMap SortSpec.words) := by
    rw [sortSpecsFrom_iff]
    constructor
    · rintro ⟨ws, hws, h⟩
      rw [hws]
      exact congrArg some h
    · intro h
      exact ⟨_, h, rfl⟩
  rw [← hfrom, parseSortSpec]
  cases hspecs : sortSpecsFrom u false items with
  | none => simp
  | some ss =>
    cases ss with
    | nil =>
      refine iff_of_false (by simp) ?_
      rintro ⟨hne, heq⟩
      exact hne (Option.some.inj heq).symm
    | cons s ss =>
      constructor
      · intro h
        exact ⟨by rw [← Option.some.inj h]; simp, h⟩
      · exact And.right

section

variable (sortMeta : List SortMeta)

def keyOrder (key : SortKey) (a b : SortItem) : Prop :=
  match key with
  | .arrival => arrivalOf sortMeta a ≤ arrivalOf sortMeta b
  | .size => messageSize sortMeta a ≤ messageSize sortMeta b
  | .date => sentDate sortMeta a ≤ sentDate sortMeta b
  | .subject => codeUnits a.keys.subjectBase ≤ codeUnits b.keys.subjectBase
  | .sender => codeUnits a.keys.sender ≤ codeUnits b.keys.sender
  | .recipient => codeUnits a.keys.recipient ≤ codeUnits b.keys.recipient
  | .cc => codeUnits a.keys.cc ≤ codeUnits b.keys.cc

def specOrder (s : SortSpec) (a b : SortItem) : Prop :=
  if s.reverse then keyOrder sortMeta s.key b a else keyOrder sortMeta s.key a b

def seqOrder (a b : SortItem) : Prop := a.seq ≤ b.seq

def sortOrder (spec : List SortSpec) : SortItem → SortItem → Prop :=
  Lexicographic.lex (spec.map (specOrder sortMeta)) seqOrder

def sentOrder : SortItem → SortItem → Prop :=
  Lexicographic.lex [fun a b => sentDate sortMeta a ≤ sentDate sortMeta b] seqOrder

end

def dateOrder : SortItem → SortItem → Prop :=
  Lexicographic.lex [fun a b => a.keys.sentAtMs ≤ b.keys.sentAtMs] seqOrder

theorem seqOrder_total : Lexicographic.TotalPreorder seqOrder := .ofValue SortItem.seq

theorem cmpStr_spec (a b : Text) :
    (cmpStr a b ≤ 0 ↔ codeUnits a ≤ codeUnits b) ∧ (0 ≤ cmpStr a b ↔ codeUnits b ≤ codeUnits a) := by
  rw [cmpStr]
  split_ifs with hlt hgt
  · exact ⟨iff_of_true (by decide) hlt.le, iff_of_false (by decide) hlt.not_ge⟩
  · exact ⟨iff_of_false (by decide) hgt.not_ge, iff_of_true (by decide) hgt.le⟩
  · exact ⟨iff_of_true (by decide) (not_lt.mp hgt), iff_of_true (by decide) (not_lt.mp hlt)⟩

section

variable {sortMeta : List SortMeta}

theorem cmpBy_spec (key : SortKey) (a b : SortItem) :
    (cmpBy sortMeta key a b ≤ 0 ↔ keyOrder sortMeta key a b) ∧
      (0 ≤ cmpBy sortMeta key a b ↔ keyOrder sortMeta key b a) := by
  cases key with
  | arrival | size | date =>
    simp only [cmpBy, keyOrder]
    omega
  | subject | sender | recipient | cc => exact cmpStr_spec _ _

theorem keyOrder_total (key : SortKey) : Lexicographic.TotalPreorder (keyOrder sortMeta key) := by
  cases key with
  | arrival => exact .ofValue (arrivalOf sortMeta)
  | size => exact .ofValue (messageSize sortMeta)
  | date => exact .ofValue (sentDate sortMeta)
  | subject => exact .ofValue fun a : SortItem => codeUnits a.keys.subjectBase
  | sender => exact .ofValue fun a : SortItem => codeUnits a.keys.sender
  | recipient => exact .ofValue fun a : SortItem => codeUnits a.keys.recipient
  | cc => exact .ofValue fun a : SortItem => codeUnits a.keys.cc

theorem specOrder_total (s : SortSpec) : Lexicographic.TotalPreorder (specOrder sortMeta s) := by
  have hkey : Lexicographic.TotalPreorder (keyOrder sortMeta s.key) := keyOrder_total s.key
  unfold specOrder
  cases s.reverse with
  | false => exact hkey
  | true => exact hkey.flip

theorem sortOrder_total (spec : List SortSpec) :
    Lexicographic.TotalPreorder (sortOrder sortMeta spec) := by
  refine .lex ?_ seqOrder_total
  simp only [List.forall_mem_map]
  exact fun s _ => specOrder_total s

theorem compareHits_le (spec : List SortSpec) (a b : SortItem) :
    compareHits sortMeta spec a b ≤ 0 ↔ sortOrder sortMeta spec a b := by
  induction spec with
  | nil =>
    show (a.seq : Int) - b.seq ≤ 0 ↔ a.seq ≤ b.seq
    omega
  | cons s spec ih =>
    obtain ⟨hle, hge⟩ := @cmpBy_spec sortMeta s.key a b
    have horder : sortOrder sortMeta (s :: spec) a b ↔
        specOrder sortMeta s a b ∧ (specOrder sortMeta s b a → sortOrder sortMeta spec a b) :=
      Iff.rfl
    rw [horder, ← ih, compareHits, specOrder, specOrder]
    cases s.reverse with
    | false =>
      simp only [Bool.false_eq_true, if_false, ← hle, ← hge]
      split_ifs with hne <;> omega
    | true =>
      simp only [if_true, ← hle, ← hge]
      split_ifs with hne <;> omega

theorem cmpDate_le (a b : SortItem) : cmpDate a b ≤ 0 ↔ dateOrder a b := by
  have horder : dateOrder a b ↔ a.keys.sentAtMs ≤ b.keys.sentAtMs ∧
      (b.keys.sentAtMs ≤ a.keys.sentAtMs → a.seq ≤ b.seq) := Iff.rfl
  rw [horder, cmpDate]
  split_ifs with hne <;> omega

theorem dateOrder_total : Lexicographic.TotalPreorder dateOrder :=
  .lex (by simp only [List.forall_mem_singleton]; exact .ofValue fun a : SortItem => a.keys.sentAtMs)
    seqOrder_total

theorem sentOrder_total : Lexicographic.TotalPreorder (sentOrder sortMeta) :=
  .lex (by simp only [List.forall_mem_singleton]; exact .ofValue (sentDate sortMeta))
    seqOrder_total

theorem sortedHits_sorted (hits : List SortItem) (spec : List SortSpec) :
    (sortedHits sortMeta hits spec).Perm hits ∧
      (sortedHits sortMeta hits spec).Pairwise (sortOrder sortMeta spec) := by
  have hcmp : Lexicographic.TotalPreorder fun a b => compareHits sortMeta spec a b ≤ 0 := by
    have heq : (fun a b => compareHits sortMeta spec a b ≤ 0) = sortOrder sortMeta spec := by
      funext a b
      exact propext (compareHits_le spec a b)
    rw [heq]
    exact sortOrder_total spec
  refine ⟨List.perm_insertionSort _ _, (hcmp.sorted hits).imp ?_⟩
  exact fun h => (compareHits_le spec _ _).mp h

end

def sortThreadGroup (g : List SortItem) : List SortItem :=
  g.insertionSort fun a b => cmpDate a b ≤ 0

theorem sortThreadGroup_sorted (g : List SortItem) :
    (sortThreadGroup g).Perm g ∧ (sortThreadGroup g).Pairwise dateOrder := by
  have hcmp : Lexicographic.TotalPreorder fun a b => cmpDate a b ≤ 0 := by
    have heq : (fun a b => cmpDate a b ≤ 0) = dateOrder := by
      funext a b
      exact propext (cmpDate_le a b)
    rw [heq]
    exact dateOrder_total
  refine ⟨List.perm_insertionSort _ _, (hcmp.sorted g).imp ?_⟩
  exact fun h => (cmpDate_le _ _).mp h

variable {hits : List SortItem} {algorithm : ThreadAlgorithm}

theorem perm_threads : (threads hits algorithm).Perm
    (((Groups.collect threadKey hits).map (·.2)).map sortThreadGroup) :=
  List.perm_insertionSort _ _

theorem perm_flatten_threads : (threads hits algorithm).flatten.Perm hits := by
  have hgroups := Groups.perm_collect threadKey hits
  have hsorted : (((Groups.collect threadKey hits).map (·.2)).flatMap sortThreadGroup).Perm
      (((Groups.collect threadKey hits).map (·.2)).flatMap id) :=
    List.Perm.flatMap_left _ fun g _ => (sortThreadGroup_sorted g).1
  refine (perm_threads.flatten).trans ?_
  rw [← List.flatMap_def]
  refine hsorted.trans ?_
  rw [List.flatMap_map]
  exact hgroups

theorem mem_threads {g : List SortItem} (h : g ∈ threads hits algorithm) :
    (∃ key, g.Perm (hits.filter fun x => threadKey x = key)) ∧ g.Pairwise dateOrder := by
  obtain ⟨group, hgroup, rfl⟩ := List.mem_map.mp (perm_threads.mem_iff.mp h)
  obtain ⟨⟨key, members⟩, hmem, rfl⟩ := List.mem_map.mp hgroup
  obtain ⟨hperm, hsorted⟩ := sortThreadGroup_sorted members
  refine ⟨⟨key, ?_⟩, hsorted⟩
  rw [← (Groups.mem_collect threadKey hmem).1]
  exact hperm

theorem exists_thread {a : SortItem} (ha : a ∈ hits) :
    ∃ g ∈ threads hits algorithm, g.Perm (hits.filter fun x => threadKey x = threadKey a) := by
  obtain ⟨g, hg, hag⟩ := List.mem_flatten.mp
    ((@perm_flatten_threads hits algorithm).mem_iff.mpr ha)
  obtain ⟨⟨key, hperm⟩, -⟩ := mem_threads hg
  have hkey : threadKey a = key := by
    have hmem := (List.mem_filter.mp (hperm.mem_iff.mp hag)).2
    simpa using hmem
  exact ⟨g, hg, by rw [hkey]; exact hperm⟩

section

variable {sortMeta : List SortMeta}

/-- No two hits of one thread, one of them without a Date, stand otherwise by the Date header than
by the sent date. -/
def DatesAgree (sortMeta : List SortMeta) (hits : List SortItem) : Prop :=
  ∀ a ∈ hits, ∀ b ∈ hits, threadKey a = threadKey b →
    a.keys.sentAtMs = 0 ∨ b.keys.sentAtMs = 0 → (dateOrder a b ↔ sentOrder sortMeta a b)

theorem dated_order {a b : SortItem} (ha : a.keys.sentAtMs ≠ 0) (hb : b.keys.sentAtMs ≠ 0) :
    dateOrder a b ↔ sentOrder sortMeta a b := by
  have hsent : ∀ it : SortItem, it.keys.sentAtMs ≠ 0 → sentDate sortMeta it = it.keys.sentAtMs :=
    fun it h => if_neg h
  simp only [dateOrder, sentOrder, Lexicographic.lex, hsent a ha, hsent b hb]

theorem seq_eq_of_both {r : SortItem → SortItem → Prop} {a b : SortItem}
    (hab : Lexicographic.lex [r] seqOrder a b) (hba : Lexicographic.lex [r] seqOrder b a) :
    a.seq = b.seq :=
  Nat.le_antisymm (hab.2 hba.1) (hba.2 hab.1)

theorem sent_sorted_iff (hseq : (hits.map SortItem.seq).Nodup) :
    (∀ g ∈ threads hits algorithm, g.Pairwise (sentOrder sortMeta)) ↔ DatesAgree sortMeta hits := by
  constructor
  · intro h a ha b hb hkey _
    obtain ⟨g, hg, hperm⟩ := @exists_thread hits algorithm a ha
    have hag : a ∈ g := hperm.mem_iff.mpr (List.mem_filter.mpr ⟨ha, by simp⟩)
    have hbg : b ∈ g := hperm.mem_iff.mpr (List.mem_filter.mpr ⟨hb, by simp [hkey]⟩)
    have hboth := (mem_threads hg).2.and (h g hg)
    -- one of the two comes first, and then it does in both orders
    have hcases := Lexicographic.before_or_after hboth hag hbg
    rcases hcases with rfl | hab | hba
    · have hdate := or_self_iff.mp (dateOrder_total.total a a)
      have hsent := or_self_iff.mp ((@sentOrder_total sortMeta).total a a)
      exact iff_of_true hdate hsent
    · exact iff_of_true hab.1 hab.2
    · by_cases heq : a = b
      · rw [heq]
        rw [heq] at hba
        exact iff_of_true hba.1 hba.2
      · have hne : a.seq ≠ b.seq := fun hsame => heq (List.inj_on_of_nodup_map hseq ha hb hsame)
        exact iff_of_false (fun hab => hne (seq_eq_of_both hab hba.1))
          fun hab => hne (seq_eq_of_both hab hba.2)
  · intro hagree g hg
    obtain ⟨⟨key, hperm⟩, hsorted⟩ := mem_threads hg
    refine hsorted.imp_of_mem fun {a b} ha hb hab => ?_
    obtain ⟨haHit, hakey⟩ := List.mem_filter.mp (hperm.mem_iff.mp ha)
    obtain ⟨hbHit, hbkey⟩ := List.mem_filter.mp (hperm.mem_iff.mp hb)
    have hkey : threadKey a = threadKey b := by
      rw [of_decide_eq_true hakey, of_decide_eq_true hbkey]
    by_cases hzero : a.keys.sentAtMs = 0 ∨ b.keys.sentAtMs = 0
    · exact (hagree a haHit b hbHit hkey hzero).mp hab
    · obtain ⟨ha0, hb0⟩ := not_or.mp hzero
      exact (dated_order ha0 hb0).mp hab

/-- The criteria are read as they are written; SORT lists the hits in their order, ties in mailbox
order; THREAD has every hit once, in a thread with the others of its key. A thread is by the sent
date exactly when the missing Date headers make no difference to it. -/
theorem sort_thread (u : CaseMap) (spec : List SortSpec) (hseq : (hits.map SortItem.seq).Nodup) :
    ((∀ items, parseSortSpec u items = some spec ↔
        spec ≠ [] ∧ items.mapM (fun item => (valueText item).map (toUpperCase u)) =
          some (spec.flatMap SortSpec.words)) ∧
      formatSortLine sortMeta hits spec = sortLine (sortedHits sortMeta hits spec) ∧
      (sortedHits sortMeta hits spec).Perm hits ∧
      (sortedHits sortMeta hits spec).Pairwise (sortOrder sortMeta spec) ∧
      formatThreadLine hits algorithm = threadLine (threads hits algorithm) ∧
      (threads hits algorithm).flatten.Perm hits ∧
      (∀ g ∈ threads hits algorithm, ∃ key, g.Perm (hits.filter fun x => threadKey x = key)) ∧
      ∀ g ∈ threads hits algorithm, g.Pairwise (sentOrder sortMeta)) ↔
    DatesAgree sortMeta hits := by
  rw [← sent_sorted_iff hseq]
  have hsorted := @sortedHits_sorted sortMeta hits spec
  constructor
  · rintro ⟨-, -, -, -, -, -, -, h⟩
    exact h
  · intro h
    exact ⟨fun items => parseSortSpec_iff u items spec, rfl, hsorted.1, hsorted.2, rfl,
      perm_flatten_threads, fun g hg => (mem_threads hg).1, h⟩

end

def threadedHit (seq sentAtMs : Nat) : SortItem :=
  ⟨seq, seq, seq, { sentAtMs := sentAtMs, threadId := "T".toList }⟩

/-- The first message has no Date header and arrived after the second was sent. -/
def undated : List SortItem := [threadedHit 1 0, threadedHit 2 100]

def undatedMeta : List SortMeta := [⟨1, 300, 10⟩, ⟨2, 400, 10⟩]

theorem sort_thread_undated :
    ((∀ items, parseSortSpec ⟨id, id⟩ items = some [⟨.date, true⟩] ↔
        [SortSpec.mk .date true] ≠ [] ∧
          items.mapM (fun item => (valueText item).map (toUpperCase ⟨id, id⟩)) =
            some ([SortSpec.mk .date true].flatMap SortSpec.words)) ∧
      formatSortLine undatedMeta undated [⟨.date, true⟩] =
        sortLine (sortedHits undatedMeta undated [⟨.date, true⟩]) ∧
      (sortedHits undatedMeta undated [⟨.date, true⟩]).Perm undated ∧
      (sortedHits undatedMeta undated [⟨.date, true⟩]).Pairwise
        (sortOrder undatedMeta [⟨.date, true⟩]) ∧
      formatThreadLine undated .references = threadLine (threads undated .references) ∧
      (threads undated .references).flatten.Perm undated ∧
      (∀ g ∈ threads undated .references,
        ∃ key, g.Perm (undated.filter fun x => threadKey x = key)) ∧
      ∀ g ∈ threads undated .references, g.Pairwise (sentOrder undatedMeta)) ↔
    DatesAgree undatedMeta undated :=
  sort_thread ⟨id, id⟩ [⟨.date, true⟩] (by decide)

theorem sort_thread_fails :
    ¬ ∀ (sortMeta : List SortMeta) (hits : List SortItem) (algorithm : ThreadAlgorithm),
      (hits.map SortItem.seq).Nodup →
        ∀ g ∈ threads hits algorithm, g.Pairwise (sentOrder sortMeta) := by
  intro h
  have hthreads : threads undated .references = [undated] := by decide +kernel
  have hsorted := h undatedMeta undated .references (by decide) undated (by simp [hthreads])
  have hfirst := (List.pairwise_cons.mp hsorted).1 (threadedHit 2 100) List.mem_cons_self
  have hle : sentDate undatedMeta (threadedHit 1 0) ≤ sentDate undatedMeta (threadedHit 2 100) :=
    hfirst.1
  revert hle
  decide +kernel

end Ionosphere.Imap
