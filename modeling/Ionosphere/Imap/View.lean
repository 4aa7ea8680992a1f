import Ionosphere.Lib.Slots
import Ionosphere.Imap.Frame
import Ionosphere.Imap.UidSet

/-! The numbering of a selected mailbox as its client knows it. The client is told
EXISTS, EXPUNGE and VANISHED; it keeps a uid for every message number and fetches
the uids of numbers that are new to it. -/
namespace Ionosphere.Imap

open Ionosphere.Js Ionosphere.Core Ionosphere.Lib

variable {uids : List Nat} {view : SelectedView} {start : Option (List Nat)}

variable {e : Engine} {res : ImapBackendResponse} {removed : List Nat}
  {r : Engine × List ImapAction}

/-- The client's map from message number to uid; `none` is a number without one yet. -/
abbrev Numbering := List (Option Nat)

def Reply.replay (c : Numbering) : Reply → Numbering
  | .exists n => c ++ List.replicate (n - c.length) none
  | .expunge n => c.eraseIdx (n - 1)
  | .vanished set => c.filter fun slot => slot.all fun u => !inUidSet set u
  | .line _ => c

def ImapAction.replay (c : Numbering) : ImapAction → Numbering
  | .reply r => r.replay c
  | _ => c

def replays (c : Numbering) (acts : List ImapAction) : Numbering := acts.foldl ImapAction.replay c

theorem replays_append (c : Numbering) (as bs : List ImapAction) :
    replays c (as ++ bs) = replays (replays c as) bs := List.foldl_append

theorem replays_hushed (c : Numbering) {acts : List ImapAction} (h : Hushed acts) :
    replays c acts = c := by
  induction acts with
  | nil => rfl
  | cons a acts ih =>
    have ha : a.replay c = c := by
      have hquiet := h a List.mem_cons_self
      cases a with
      | reply r =>
        cases r with
        | line text => rfl
        | _ => simp [ImapAction.announces, Reply.announces] at hquiet
      | _ => rfl
    rw [replays, List.foldl_cons, ha]
    exact ih fun b hb => h b (List.mem_cons_of_mem _ hb)

/-- The client's numbering when it knows `known` and has just been told of `new`. -/
def numbering (known new : List Nat) : Numbering :=
  known.map some ++ List.replicate new.length none

theorem nodup_of_ascending (h : uids.Pairwise (· < ·)) : uids.Nodup :=
  h.imp Nat.ne_of_lt

theorem filter_not_mem_congr {xs ys zs : List Nat} (h : ∀ u ∈ xs, u ∈ ys ↔ u ∈ zs) :
    (xs.filter fun u => decide (u ∉ ys)) = xs.filter fun u => decide (u ∉ zs) := by
  apply List.filter_congr
  intro u hu
  simp [h u hu]

theorem foldl_spliceUid (hnodup : removed.Nodup) (huids : uids.Nodup)
    (hsub : ∀ u ∈ removed, u ∈ uids) :
    removed.foldl spliceUid uids = uids.filter fun u => decide (u ∉ removed) := by
  induction removed generalizing uids with
  | nil => simp
  | cons r removed ih =>
    rw [List.nodup_cons] at hnodup
    have hr : spliceUid uids r = uids.erase r := if_pos (hsub r List.mem_cons_self)
    have hrest : ∀ u ∈ removed, u ∈ uids.erase r := by
      intro u hu
      have hne : u ≠ r := fun h => hnodup.1 (h ▸ hu)
      exact (List.mem_erase_of_ne hne).mpr (hsub u (List.mem_cons_of_mem _ hu))
    rw [List.foldl_cons, hr, ih hnodup.2 (huids.erase r) hrest, huids.erase_eq_filter,
      List.filter_filter]
    apply List.filter_congr
    intro u _
    by_cases hur : u = r <;> simp [hur]

theorem mem_expungeOrder {i : Nat} :
    i ∈ expungeOrder uids removed ↔ ∃ u ∈ removed, uids.idxOf? u = some i := by
  rw [expungeOrder, List.mem_insertionSort, List.mem_filterMap]

theorem idxOf?_getElem! {u i : Nat} (h : uids.idxOf? u = some i) :
    i < uids.length ∧ uids[i]! = u := by
  rw [List.idxOf?_eq_some_iff] at h
  obtain ⟨hi, hu, -⟩ := h
  rw [getElem!_pos uids i hi]
  exact ⟨hi, by simpa using hu⟩

theorem expungeOrder_lt {i : Nat} (h : i ∈ expungeOrder uids removed) :
    i < uids.length := by
  obtain ⟨u, -, hi⟩ := mem_expungeOrder.mp h
  exact (idxOf?_getElem! hi).1

theorem expungeOrder_desc (hnodup : removed.Nodup) :
    (expungeOrder uids removed).Pairwise (· > ·) := by
  have hsorted : (expungeOrder uids removed).Pairwise (· ≥ ·) := List.pairwise_insertionSort _ _
  have hdistinct : (expungeOrder uids removed).Nodup := by
    rw [expungeOrder, (List.perm_insertionSort _ _).nodup_iff]
    refine List.Nodup.filterMap (fun u v i hu hv => ?_) hnodup
    rw [← (idxOf?_getElem! hu).2, ← (idxOf?_getElem! hv).2]
  exact (hsorted.and hdistinct).imp fun {i j} h => lt_of_le_of_ne h.1 (Ne.symm h.2)

theorem expungeOrder_removed {u : Nat} (hu : u ∈ uids) :
    u ∈ ((expungeOrder uids removed).map fun i => uids[i]!) ↔ u ∈ removed := by
  rw [List.mem_map]
  constructor
  · rintro ⟨i, hi, rfl⟩
    obtain ⟨v, hv, hidx⟩ := mem_expungeOrder.mp hi
    rwa [(idxOf?_getElem! hidx).2]
  · intro hrem
    cases hidx : uids.idxOf? u with
    | none => exact absurd hu (List.idxOf?_eq_none_iff.mp hidx)
    | some i => exact ⟨i, mem_expungeOrder.mpr ⟨u, hrem, hidx⟩, (idxOf?_getElem! hidx).2⟩

theorem eraseAll_expungeOrder (hnodup : removed.Nodup)
    (huids : uids.Nodup) :
    Slots.eraseAll uids (expungeOrder uids removed) = uids.filter fun u => decide (u ∉ removed) := by
  rw [Slots.eraseAll_eq_diff huids (expungeOrder_desc hnodup) fun i hi => expungeOrder_lt hi,
    huids.sdiff_eq_filter]
  exact filter_not_mem_congr fun u hu => expungeOrder_removed hu

theorem replays_expunge (c : Numbering) (idxs : List Nat) :
    replays c ((idxs.map fun i => Reply.expunge (i + 1)).map .reply) = Slots.eraseAll c idxs := by
  induction idxs generalizing c with
  | nil => rfl
  | cons i idxs ih => exact ih _

theorem filter_numbering (keep : Nat → Bool) (known new : List Nat) :
    ((numbering known new).filter fun slot => slot.all keep) =
      numbering (known.filter keep) new := by
  have hnone : ((List.replicate new.length (none : Option Nat)).filter fun slot => slot.all keep) =
      List.replicate new.length none := by
    rw [List.filter_eq_self]
    intro slot hslot
    rw [List.eq_of_mem_replicate hslot]
    rfl
  rw [numbering, List.filter_append, hnone, List.filter_map]
  rfl

theorem filter_append_disjoint {uids new removed : List Nat} (hnew : ∀ u ∈ new, u ∉ removed) :
    ((uids ++ new).filter fun u => decide (u ∉ removed)) =
      (uids.filter fun u => decide (u ∉ removed)) ++ new := by
  have hkept : (new.filter fun u => decide (u ∉ removed)) = new := by
    rw [List.filter_eq_self]
    intro u hu
    simpa using hnew u hu
  rw [List.filter_append, hkept]

/-- What `removal` takes out of a view whose last uids `new` the client does not know
yet: the removed ones, on both sides. -/
theorem removal_spec (qresync : Bool) {removed uids new : List Nat} (hnodup : removed.Nodup)
    (huids : (uids ++ new).Nodup) (hnew : ∀ u ∈ new, u ∉ removed) :
    (removal qresync removed (uids ++ new)).1 =
        (uids.filter fun u => decide (u ∉ removed)) ++ new ∧
      replays (numbering uids new) ((removal qresync removed (uids ++ new)).2.map .reply) =
        numbering (uids.filter fun u => decide (u ∉ removed)) new := by
  cases qresync with
  | false =>
    have hlt : ∀ i ∈ expungeOrder (uids ++ new) removed, i < uids.length := by
      intro i hi
      obtain ⟨u, hu, hidx⟩ := mem_expungeOrder.mp hi
      have hat := idxOf?_getElem! hidx
      by_contra hge
      have hmem : u ∈ new := by
        rw [← hat.2, getElem!_pos _ i hat.1, List.getElem_append_right (by omega)]
        exact List.getElem_mem _
      exact hnew u hmem hu
    have hdesc : (expungeOrder (uids ++ new) removed).Pairwise (· > ·) := expungeOrder_desc hnodup
    have herased := eraseAll_expungeOrder hnodup huids
    rw [filter_append_disjoint hnew] at herased
    refine ⟨herased, ?_⟩
    have hknown : Slots.eraseAll uids (expungeOrder (uids ++ new) removed) =
        uids.filter fun u => decide (u ∉ removed) := by
      rw [Slots.eraseAll_append uids new hdesc hlt] at herased
      exact List.append_cancel_right herased
    simp only [removal, Bool.false_eq_true, if_false, replays_expunge]
    rw [numbering, Slots.eraseAll_append _ _ hdesc (by simpa using hlt), Slots.eraseAll_map,
      hknown, numbering]
  | true =>
    have hpresent : ∀ u ∈ uids ++ new,
        (u ∈ removed.filter fun u => (uids ++ new).contains u) ↔ u ∈ removed := by
      intro u hu
      simp only [List.mem_filter, List.contains_iff_mem]
      exact ⟨fun h => h.1, fun h => ⟨h, hu⟩⟩
    have hsub : ∀ u ∈ removed.filter fun u => (uids ++ new).contains u, u ∈ uids ++ new := by
      intro u hu
      simpa using (List.mem_filter.mp hu).2
    simp only [removal, if_true]
    generalize hpre : (removed.filter fun u => (uids ++ new).contains u) = present at *
    have hsplice := foldl_spliceUid (hpre ▸ hnodup.filter _ : present.Nodup) huids hsub
    rw [filter_not_mem_congr hpresent, filter_append_disjoint hnew] at hsplice
    refine ⟨hsplice, ?_⟩
    have hkept : (uids.filter fun u => !inUidSet (uidSetRanges present) u) =
        uids.filter fun u => decide (u ∉ removed) := by
      apply List.filter_congr
      intro u hu
      have hiff := (inUidSet_uidSetRanges present u).trans (hpresent u (List.mem_append_left _ hu))
      by_cases hmem : u ∈ removed
      · simp [hmem, hiff.mpr hmem]
      · have hout : inUidSet (uidSetRanges present) u = false := by
          simpa using mt hiff.mp hmem
        simp [hmem, hout]
    split
    · rename_i hempty
      have hall : (uids.filter fun u => decide (u ∉ removed)) = uids := by
        rw [List.filter_eq_self]
        intro u hu
        have := hpresent u (List.mem_append_left _ hu)
        simpa [hempty] using this
      rw [hall]
      rfl
    · rw [← hkept]
      exact filter_numbering _ uids new

theorem sortUids_append {uids added : List Nat} (huids : uids.Pairwise (· < ·))
    (habove : ∀ a ∈ added, ∀ u ∈ uids, u < a) :
    sortUids (uids ++ added) = uids ++ sortUids added := by
  have hperm : (sortUids (uids ++ added)).Perm (uids ++ sortUids added) :=
    (List.perm_insertionSort _ _).trans ((List.perm_insertionSort _ added).symm.append_left uids)
  refine hperm.eq_of_pairwise' (r := (· ≤ ·)) (List.pairwise_insertionSort _ _) ?_
  rw [List.pairwise_append]
  refine ⟨huids.imp Nat.le_of_lt, List.pairwise_insertionSort _ _, fun u hu a ha => ?_⟩
  exact Nat.le_of_lt (habove a ((List.mem_insertionSort _).mp ha) u hu)

/-- New uids above all others go to the end, and EXISTS tells how many. -/
theorem insertUids_spec {added : List Nat} (hnodup : added.Nodup)
    (hasc : view.uids.Pairwise (· < ·)) (habove : ∀ a ∈ added, ∀ u ∈ view.uids, u < a) :
    (insertUids added view).1.uids = view.uids ++ sortUids added ∧
      (view.uids ++ sortUids added).Pairwise (· < ·) ∧
      replays (numbering view.uids []) ((insertUids added view).2.map .reply) =
        numbering view.uids (sortUids added) := by
  have hall : (view.uids ++ sortUids added).Pairwise (· < ·) := by
    rw [List.pairwise_append]
    refine ⟨hasc, sortUids_ascending hnodup, fun u hu a ha => ?_⟩
    exact habove a ((List.mem_insertionSort _).mp ha) u hu
  unfold insertUids
  split
  · rename_i hempty
    subst hempty
    refine ⟨by simp [sortUids], hall, rfl⟩
  · have huids : (addUids added view).uids = view.uids ++ sortUids added := sortUids_append hasc habove
    refine ⟨huids, hall, ?_⟩
    simp only [huids, List.map_cons, List.map_nil, replays, List.foldl_cons, List.foldl_nil,
      ImapAction.replay, Reply.replay, numbering, List.length_append, List.length_map,
      List.length_nil, List.replicate_zero, List.append_nil, Nat.add_sub_cancel_left]

theorem foldl_newUids_nodup (uids added acc : List Nat) (hacc : acc.Nodup) :
    (added.foldl (fun acc u => if uids.contains u || acc.contains u then acc else acc ++ [u])
      acc).Nodup := by
  induction added generalizing acc with
  | nil => exact hacc
  | cons u added ih =>
    rw [List.foldl_cons]
    apply ih
    split
    · exact hacc
    · rename_i hnew
      simp only [Bool.or_eq_true, List.contains_iff_mem, not_or] at hnew
      exact List.nodup_append.mpr ⟨hacc, by simp, fun a ha b hb => by
        rw [List.mem_singleton.mp hb]
        exact fun h => hnew.2 (h ▸ ha)⟩

theorem newUids_nodup (uids added : List Nat) : (newUids uids added).Nodup :=
  foldl_newUids_nodup uids added [] List.nodup_nil

def viewOf (e : Engine) : Option (List Nat) := e.selected.map (·.uids)

/-- The announcements `acts` take a client that knows `old` to `new`: some entries are
gone, and what is new stands at the end. -/
def Renumbered (old : List Nat) (acts : List ImapAction) (new : List Nat) : Prop :=
  ∃ kept added, new = kept ++ added ∧ kept.Sublist old ∧ new.Pairwise (· < ·) ∧
    replays (old.map some) acts = numbering kept added

theorem Renumbered.same {acts : List ImapAction} (hasc : uids.Pairwise (· < ·))
    (hacts : Hushed acts) : Renumbered uids acts uids :=
  ⟨uids, [], (List.append_nil uids).symm, List.Sublist.refl uids, hasc, by
    rw [replays_hushed _ hacts, numbering]
    simp⟩

theorem Renumbered.quiet {old new : List Nat} {acts more : List ImapAction}
    (h : Renumbered old acts new) (hmore : Hushed more) : Renumbered old (acts ++ more) new := by
  obtain ⟨kept, added, hnew, hsub, hasc, hrep⟩ := h
  exact ⟨kept, added, hnew, hsub, hasc, by rw [replays_append, hrep, replays_hushed _ hmore]⟩

theorem Renumbered.after_quiet {old new : List Nat} {acts before : List ImapAction}
    (h : Renumbered old acts new) (hbefore : Hushed before) :
    Renumbered old (before ++ acts) new := by
  obtain ⟨kept, added, hnew, hsub, hasc, hrep⟩ := h
  exact ⟨kept, added, hnew, hsub, hasc, by rw [replays_append, replays_hushed _ hbefore, hrep]⟩

/-- Whatever view a handler leaves, its announcements lead there from `start`. -/
def Tracks (start : Option (List Nat)) (r : Engine × List ImapAction) : Prop :=
  ∀ new, viewOf r.1 = some new → ∃ old, start = some old ∧ Renumbered old r.2 new

theorem Silent.tracks (h : Silent e r)
    (hasc : ∀ uids ∈ viewOf e, uids.Pairwise (· < ·)) : Tracks (viewOf e) r := by
  intro new hnew
  rcases h.view with hnone | hsame
  · simp [viewOf, hnone] at hnew
  · have hold : viewOf e = some new := hsame.symm.trans hnew
    exact ⟨new, hold, .same (hasc new hold) h.hushed⟩

theorem Tracks.append {r q : Engine × List ImapAction}
    (hr : Tracks start r) (hq : Silent r.1 q) : Tracks start (q.1, r.2 ++ q.2) := by
  intro new hnew
  rcases hq.view with hnone | hsame
  · simp [viewOf, hnone] at hnew
  · obtain ⟨old, hold, hren⟩ := hr new (hsame.symm.trans hnew)
    exact ⟨old, hold, hren.quiet hq.hushed⟩

theorem removal_renumbered (qresync : Bool) {removed uids : List Nat} (hnodup : removed.Nodup)
    (hasc : uids.Pairwise (· < ·)) :
    Renumbered uids ((removal qresync removed uids).2.map .reply) (removal qresync removed uids).1 := by
  have huids : (uids ++ []).Nodup := by
    rw [List.append_nil]
    exact nodup_of_ascending hasc
  have hspec := removal_spec qresync hnodup huids fun u hu => absurd hu List.not_mem_nil
  simp only [List.append_nil] at hspec
  refine ⟨_, [], hspec.1.trans (List.append_nil _).symm, List.filter_sublist, ?_, ?_⟩
  · rw [hspec.1]
    exact hasc.filter _
  · simpa [numbering] using hspec.2

theorem removalActions_tracks {removed : List Nat} (hnodup : removed.Nodup)
    (hasc : ∀ uids ∈ viewOf e, uids.Pairwise (· < ·)) :
    Tracks (viewOf e) (removalActions removed e) := by
  unfold removalActions
  cases hsel : e.selected with
  | none => intro new hnew; simp [viewOf, hsel] at hnew
  | some view =>
    intro new hnew
    have hview : viewOf e = some view.uids := by simp [viewOf, hsel]
    cases hnew
    exact ⟨view.uids, hview, removal_renumbered _ hnodup (hasc _ hview)⟩

def above (added uids : List Nat) : Bool := added.all fun a => uids.all fun u => u < a

theorem above_iff {added uids : List Nat} :
    above added uids = true ↔ ∀ a ∈ added, ∀ u ∈ uids, u < a := by
  simp [above, List.all_eq_true]

/-- A backend result that fits the view it meets: uids come distinct, snapshots
ascending, and a uid that is new to the view is above every uid that stays in it. -/
def orderly (selected : Option SelectedView) : Resume → ImapBackendResponse → Bool
  | .select _ _ _, .selected _ uids _ _ => decide (uids.Pairwise (· < ·))
  | .refresh _, .selected _ uids _ _ =>
    decide (uids.Pairwise (· < ·)) && selected.all fun view =>
      above (uids.filter fun u => !view.uids.contains u) (view.uids.filter fun u => uids.contains u)
  | .append _ name, .appended _ uid uids =>
    selected.all fun view =>
      view.name ≠ name || above (newUids view.uids (uids.getD [uid])) view.uids
  | .replace _ _ dest, .replaced _ uid expungedUid =>
    selected.all fun view =>
      view.name ≠ dest || above (newUids view.uids [uid]) view.uids &&
        (newUids view.uids [uid]).all fun u => expungedUid ≠ some u
  | .expunge _ _, .expunged uids => decide uids.Nodup
  | .copyMove _ _ .move, .copied _ srcUids _ => decide srcUids.Nodup
  | _, _ => true

def opens : Resume → ImapBackendResponse → Bool
  | .select _ _ _, .selected _ _ _ _ => true
  | _, _ => false

def startView (k : Resume) (res : ImapBackendResponse) (e : Engine) : Option (List Nat) :=
  if opens k res then some [] else viewOf e

def Ascending (e : Engine) : Prop := ∀ uids ∈ viewOf e, uids.Pairwise (· < ·)

theorem resumeSelect_tracks (tag : Text) (readWrite : Bool) (q : Option Qresync) (hasc : Ascending e)
    (h : orderly e.selected (.select tag readWrite q) res = true) :
    Tracks (startView (.select tag readWrite q) res e) (resumeSelect tag readWrite q res e) := by
  cases res with
  | selected m uids first keywords =>
    have hup : uids.Pairwise (· < ·) := by simpa [orderly] using h
    have hren : ∀ more, Hushed more → Renumbered [] (([say (flagsLine keywords),
        .reply (.exists uids.length)] ++
          (selectLines m readWrite e.enabled.imap4rev2 first).map say) ++ more) uids := by
      intro more hmore
      refine Renumbered.quiet ⟨[], uids, rfl, List.Sublist.refl [], hup, ?_⟩ hmore
      rw [replays_append, replays_hushed _ (hushed_map_say _)]
      rfl
    intro new hnew
    refine ⟨[], rfl, ?_⟩
    simp only [resumeSelect] at hnew ⊢
    split at hnew
    · cases hnew
      exact hren _ (.one rfl)
    · cases hnew
      exact hren _ (.one rfl)
  | _ => exact (Silent.same rfl (.one rfl)).tracks hasc

theorem insert_renumbered {added : List Nat} (hnodup : added.Nodup)
    (hasc : view.uids.Pairwise (· < ·)) (habove : above added view.uids = true) :
    Renumbered view.uids ((insertUids added view).2.map .reply) (insertUids added view).1.uids := by
  obtain ⟨huids, hall, hrep⟩ := insertUids_spec hnodup hasc (above_iff.mp habove)
  rw [huids]
  refine ⟨view.uids, sortUids added, rfl, List.Sublist.refl _, hall, ?_⟩
  simpa [numbering] using hrep

theorem resumeAppend_tracks (tag name : Text)
    (hasc : Ascending e) (h : orderly e.selected (.append tag name) res = true) :
    Tracks (viewOf e) (resumeAppend tag name res e) := by
  cases res with
  | appended uidvalidity uid uids =>
    simp only [resumeAppend]
    cases hsel : e.selected with
    | none => exact (Silent.same rfl (.one rfl)).tracks hasc
    | some view =>
      have hview : viewOf e = some view.uids := by simp [viewOf, hsel]
      simp only
      split
      · rename_i hname
        have habove : above (newUids view.uids (uids.getD [uid])) view.uids = true := by
          simpa [orderly, hsel, hname] using h
        intro new hnew
        cases hnew
        exact ⟨view.uids, hview,
          (insert_renumbered (newUids_nodup _ _) (hasc _ hview) habove).quiet (.one rfl)⟩
      · exact (Silent.same rfl (.one rfl)).tracks hasc
  | _ => exact (Silent.same rfl (.one rfl)).tracks hasc

theorem insert_removal_renumbered (qresync : Bool) {added removed : List Nat}
    (hadded : added.Nodup) (hasc : view.uids.Pairwise (· < ·)) (habove : above added view.uids = true)
    (hremoved : removed.Nodup) (hspare : ∀ u ∈ added, u ∉ removed) :
    Renumbered view.uids
      ((insertUids added view).2.map .reply ++
        (removal qresync removed (insertUids added view).1.uids).2.map .reply)
      (removal qresync removed (insertUids added view).1.uids).1 := by
  obtain ⟨huids, hall, hrep⟩ := insertUids_spec hadded hasc (above_iff.mp habove)
  have hspec := removal_spec qresync hremoved (nodup_of_ascending hall)
    fun u hu => hspare u ((List.mem_insertionSort _).mp hu)
  rw [huids]
  refine ⟨_, sortUids added, hspec.1, List.filter_sublist, ?_, ?_⟩
  · rw [hspec.1]
    exact hall.sublist (List.filter_sublist.append (List.Sublist.refl _))
  · have hstart : view.uids.map some = numbering view.uids [] := by simp [numbering]
    rw [replays_append, hstart, hrep, hspec.2]

theorem resumeReplace_tracks (tag verb dest : Text)
    (hasc : Ascending e) (h : orderly e.selected (.replace tag verb dest) res = true) :
    Tracks (viewOf e) (resumeReplace tag verb dest res e) := by
  cases res with
  | replaced uidvalidity uid expungedUid =>
    simp only [resumeReplace]
    cases hsel : e.selected with
    | none => exact (Silent.same rfl (.one rfl)).tracks hasc
    | some view =>
      have hview : viewOf e = some view.uids := by simp [viewOf, hsel]
      have hone : expungedUid.toList.Nodup := by cases expungedUid <;> simp
      intro new hnew
      refine ⟨view.uids, hview, ?_⟩
      by_cases hname : view.name = dest
      · have hfit : above (newUids view.uids [uid]) view.uids = true ∧
            ∀ u ∈ newUids view.uids [uid], ¬ expungedUid = some u := by
          simpa [orderly, hsel, hname] using h
        simp only [if_pos hname, removalActions] at hnew ⊢
        cases hnew
        refine (insert_removal_renumbered e.enabled.qresync (newUids_nodup _ _) (hasc _ hview)
          hfit.1 hone fun u hu hmem => hfit.2 u hu ?_).quiet (.one rfl)
        simpa using hmem
      · simp only [if_neg hname, removalActions] at hnew ⊢
        cases hnew
        exact (removal_renumbered _ hone (hasc _ hview)).quiet (.one rfl)
  | _ => exact (Silent.same rfl (.one rfl)).tracks hasc

theorem resumeCopyMove_tracks (tag verb : Text) (op : CopyOp) (hasc : Ascending e)
    (h : orderly e.selected (.copyMove tag verb op) res = true) :
    Tracks (viewOf e) (resumeCopyMove tag verb op res e) := by
  cases res with
  | copied uidvalidity srcUids dstUids =>
    cases op with
    | copy => exact (Silent.same rfl (.one rfl)).tracks hasc
    | move =>
      have hnodup : srcUids.Nodup := by simpa [orderly] using h
      intro new hnew
      obtain ⟨old, hold, hren⟩ := removalActions_tracks hnodup hasc new hnew
      exact ⟨old, hold, (hren.after_quiet (.one rfl)).quiet (.one rfl)⟩
  | _ => exact (Silent.same rfl (.one rfl)).tracks hasc

theorem resumeExpunge_tracks (tag verb : Text)
    (hasc : Ascending e) (h : orderly e.selected (.expunge tag verb) res = true) :
    Tracks (viewOf e) (resumeExpunge tag verb res e) := by
  cases res with
  | expunged uids =>
    have hnodup : uids.Nodup := by simpa [orderly] using h
    intro new hnew
    obtain ⟨old, hold, hren⟩ := removalActions_tracks hnodup hasc new hnew
    exact ⟨old, hold, hren.quiet (.one rfl)⟩
  | _ => exact (Silent.same rfl (.one rfl)).tracks hasc

theorem removal_missing (qresync : Bool) (hasc : uids.Pairwise (· < ·))
    (snapshot : List Nat) :
    (removal qresync (uids.filter fun u => !snapshot.contains u) uids).1 =
        (uids.filter fun u => snapshot.contains u) ∧
      replays (uids.map some)
          ((removal qresync (uids.filter fun u => !snapshot.contains u) uids).2.map .reply) =
        numbering (uids.filter fun u => snapshot.contains u) [] := by
  have hnodup := nodup_of_ascending hasc
  have hkept : (uids.filter fun u => decide (u ∉ uids.filter fun u => !snapshot.contains u)) =
      uids.filter fun u => snapshot.contains u := by
    apply List.filter_congr
    intro u hu
    by_cases hmem : u ∈ snapshot <;> simp [hu, hmem]
  have huids : (uids ++ []).Nodup := by rwa [List.append_nil]
  have hspec := removal_spec qresync (hnodup.filter fun u => !snapshot.contains u) huids
    fun u hu => absurd hu List.not_mem_nil
  rw [hkept] at hspec
  simp only [List.append_nil] at hspec
  refine ⟨hspec.1, ?_⟩
  have hstart : uids.map some = numbering uids [] := by simp [numbering]
  rw [hstart, hspec.2]

theorem refreshView_renumbered (qresync : Bool) (uidnext : Nat) (hasc : view.uids.Pairwise (· < ·))
    (huids : uids.Pairwise (· < ·))
    (habove : above (uids.filter fun u => !view.uids.contains u)
      (view.uids.filter fun u => uids.contains u) = true) :
    Renumbered view.uids ((refreshView qresync uids uidnext view).2.map .reply)
      (refreshView qresync uids uidnext view).1.uids := by
  obtain ⟨hkept, hgone⟩ := removal_missing qresync hasc uids
  have hadded : (uids.filter fun u => !(view.uids.filter fun u => uids.contains u).contains u) =
      uids.filter fun u => !view.uids.contains u := by
    apply List.filter_congr
    intro u hu
    by_cases hmem : u ∈ view.uids <;> simp [hu, hmem]
  simp only [refreshView, hkept, hadded]
  generalize hview : ({ view with
    uids := view.uids.filter (fun u => uids.contains u)
    uidnext := view.uidnext.max uidnext } : SelectedView) = view'
  have hkept' : view'.uids = view.uids.filter fun u => uids.contains u := by rw [← hview]
  have hasc' : view'.uids.Pairwise (· < ·) := by
    rw [hkept']
    exact hasc.filter _
  obtain ⟨hnew, hall, hrep⟩ := insertUids_spec ((nodup_of_ascending huids).filter _) hasc'
    (above_iff.mp (hkept' ▸ habove))
  refine ⟨view'.uids, _, hnew, ?_, ?_, ?_⟩
  · rw [hkept']
    exact List.filter_sublist
  · rw [hnew]
    exact hall
  · rw [List.map_append, replays_append, hgone, ← hkept', hrep]

theorem resumeRefresh_tracks (taggedOk : Option Text)
    (hasc : Ascending e) (h : orderly e.selected (.refresh taggedOk) res = true) :
    Tracks (viewOf e) (resumeRefresh taggedOk res e) := by
  have hok : Hushed (taggedOk.toList.map say) := hushed_map_say _
  cases res with
  | selected m uids first keywords =>
    cases hsel : e.selected with
    | none =>
      simp only [resumeRefresh, hsel]
      exact (Silent.same rfl hok).tracks hasc
    | some view =>
      have hview : viewOf e = some view.uids := by simp [viewOf, hsel]
      have hfit : uids.Pairwise (· < ·) ∧ above (uids.filter fun u => !view.uids.contains u)
          (view.uids.filter fun u => uids.contains u) = true := by
        simpa [orderly, hsel] using h
      have hren := refreshView_renumbered e.enabled.qresync m.uidnext (hasc _ hview) hfit.1 hfit.2
      intro new hnew
      refine ⟨view.uids, hview, ?_⟩
      by_cases hsynced : m.highestmodseq ≤
          (refreshView e.enabled.qresync uids m.uidnext view).1.lastSyncModseq
      · simp only [resumeRefresh, hsel, if_pos hsynced] at hnew ⊢
        cases hnew
        exact (hren.quiet (hushed_map_say _)).quiet hok
      · simp only [resumeRefresh, hsel, if_neg hsynced] at hnew ⊢
        cases hnew
        exact hren.quiet (.one rfl)
  | _ => exact (Silent.same rfl hok).tracks hasc

section

variable (s : Setup)

theorem resumeRefreshSync_silent (taggedOk : Option Text) (n : Nat) (dbKeywords : List Text)
    (res : ImapBackendResponse) (e : Engine) :
    Silent e (resumeRefreshSync s taggedOk n dbKeywords res e) := by
  have hok : Hushed (taggedOk.toList.map say) := hushed_map_say _
  cases hsel : e.selected with
  | none =>
    simp only [resumeRefreshSync, hsel]
    exact .same rfl hok
  | some view =>
    cases res <;> simp only [resumeRefreshSync, hsel]
    case sync vanished changed =>
      exact ⟨.inr (by simp [hsel]), (hushed_append _ _).mpr
        ⟨(hushed_append _ _).mpr ⟨hushed_map_say _, hushed_map_say _⟩, hok⟩⟩
    all_goals
      exact ⟨.inr (by simp [hsel]), (hushed_append _ _).mpr ⟨hushed_map_say _, hok⟩⟩

theorem resume_tracks (k : Resume) (hasc : Ascending e)
    (h : orderly e.selected k res = true) : Tracks (startView k res e) (resume s k res e) := by
  cases k with
  | select tag readWrite q => exact resumeSelect_tracks tag readWrite q hasc h
  | append tag name => exact resumeAppend_tracks tag name hasc h
  | replace tag verb dest => exact resumeReplace_tracks tag verb dest hasc h
  | copyMove tag verb op => exact resumeCopyMove_tracks tag verb op hasc h
  | expunge tag verb => exact resumeExpunge_tracks tag verb hasc h
  | refresh taggedOk => exact resumeRefresh_tracks taggedOk hasc h
  | refreshSync taggedOk n kws => exact (resumeRefreshSync_silent s taggedOk n kws res e).tracks hasc
  | _ => exact (apply_silent _ e).tracks hasc

def orderlyStep (i : Input) (e : Engine) : Bool :=
  match i.call, e.pending with
  | .backendResult res, some (.backend k) => orderly e.selected k res
  | _, _ => true

def stepStart (i : Input) (e : Engine) : Option (List Nat) :=
  match i.call, e.pending with
  | .backendResult res, some (.backend k) => startView k res e
  | _, _ => viewOf e

theorem greeting_silent (e : Engine) : Silent e (e, greeting s e) :=
  .same rfl (.one rfl)

theorem feed_silent (nonce : Nat → Text) (chunk : Bytes) (e : Engine) :
    Silent e (feed s nonce chunk e) := by
  unfold feed
  split
  · exact .same rfl .nil
  · have h := handleEvents_silent s nonce (e.reader.feed chunk).2
      { e with reader := (e.reader.feed chunk).1 }
    exact ⟨h.view, h.hushed⟩

theorem scramKeysResult_silent {keys : Option ScramStoredKeys}
    (h : scramKeysResult s keys e = some r) : Silent e r := by
  simp only [scramKeysResult] at h
  split at h
  · split at h <;> cases h
    · exact .same rfl (.one rfl)
    · exact .same rfl (scramRejected_repliesOnly _ _).hushed
  · cases h

theorem authResult_silent {nonce : Nat → Text} {ok : Bool} (h : authResult s nonce ok e = some r) :
    Silent e r := by
  obtain ⟨tag, -, rfl⟩ := authResult_spec s h
  have hanswered : Silent e (authAnswered s tag ok { e with pending := none }) := by
    cases ok
    · exact .same rfl (.one rfl)
    · exact .same rfl (.one rfl)
  exact hanswered.append (drainQueued_silent s nonce _)

theorem idleTick_silent (e : Engine) : Silent e (idleTick e) := by
  unfold idleTick
  split
  · exact .same rfl .nil
  · exact apply_silent _ e

theorem step_tracks {i : Input} (hasc : Ascending e)
    (hstep : step s i e = some r) (horderly : orderlyStep i e = true) :
    Tracks (stepStart i e) r := by
  obtain ⟨call, nonce⟩ := i
  cases call with
  | greeting => cases hstep; exact (greeting_silent s e).tracks hasc
  | feed chunk => cases hstep; exact (feed_silent s nonce chunk e).tracks hasc
  | scramKeysResult keys => exact (scramKeysResult_silent s hstep).tracks hasc
  | authResult ok => exact (authResult_silent s hstep).tracks hasc
  | tlsEstablished => cases hstep; exact (Silent.same rfl .nil).tracks hasc
  | idleTick => cases hstep; exact (idleTick_silent e).tracks hasc
  | backendResult res =>
    obtain ⟨k, hpending, rfl⟩ := backendResult_spec s hstep
    simp only [orderlyStep, hpending] at horderly
    have hresumed := resume_tracks s k (e := { e with pending := none }) hasc horderly
    simp only [stepStart, hpending]
    exact hresumed.append (drainQueued_silent s nonce _)

theorem Tracks.ascending (h : Tracks start r) : Ascending r.1 := by
  intro uids huids
  obtain ⟨-, -, -, -, -, -, hasc, -⟩ := h uids huids
  exact hasc

/-- The client after a call: it replays the announcements and fetches the uids of the
numbers that are new. `none` while no mailbox is selected. -/
def observe (start : Option Numbering) (r : Engine × List ImapAction) : Option Numbering :=
  (viewOf r.1).map fun uids => Slots.learn uids (replays (start.getD []) r.2)

theorem Tracks.observe (h : Tracks start r) :
    observe (start.map (List.map some)) r = (viewOf r.1).map (List.map some) := by
  unfold Imap.observe
  cases hview : viewOf r.1 with
  | none => rfl
  | some new =>
    obtain ⟨old, rfl, kept, added, rfl, -, -, hrep⟩ := h new hview
    simp only [Option.map_some, Option.getD_some, hrep, numbering, Slots.learn_known]

def clientStart (i : Input) (e : Engine) (client : Option Numbering) : Option Numbering :=
  match i.call, e.pending with
  | .backendResult res, some (.backend k) => if opens k res then some [] else client
  | _, _ => client

def clientRun (e : Engine) (client : Option Numbering) :
    List Input → Option (Engine × Option Numbering)
  | [] => some (e, client)
  | i :: is =>
    match step s i e with
    | none => none
    | some r => clientRun r.1 (observe (clientStart i e client) r) is

/-- Every backend result of the run fits the view it meets. -/
def orderlyRun (e : Engine) : List Input → Bool
  | [] => true
  | i :: is =>
    orderlyStep i e && match step s i e with
      | none => true
      | some r => orderlyRun r.1 is

theorem clientStart_eq (i : Input) (e : Engine) :
    clientStart i e ((viewOf e).map (List.map some)) = (stepStart i e).map (List.map some) := by
  unfold clientStart stepStart
  split
  · unfold startView
    split <;> rfl
  · rfl

theorem clientRun_agrees {is : List Input} {e e' : Engine} {client : Option Numbering}
    (hasc : Ascending e) (horderly : orderlyRun s e is = true)
    (hrun : clientRun s e ((viewOf e).map (List.map some)) is = some (e', client)) :
    client = (viewOf e').map (List.map some) ∧ Ascending e' := by
  induction is generalizing e with
  | nil => cases hrun; exact ⟨rfl, hasc⟩
  | cons i is ih =>
    simp only [clientRun] at hrun
    cases hstep : step s i e with
    | none => simp [hstep] at hrun
    | some r =>
      simp only [orderlyRun, hstep, Bool.and_eq_true] at horderly
      have htracks := step_tracks s hasc hstep horderly.1
      simp only [hstep, clientStart_eq, htracks.observe] at hrun
      exact ih htracks.ascending horderly.2 hrun

end

/-- In every run whose backend results fit the view, the client's numbering is the
engine's, the view is ascending, and a further such call only drops entries it
announces and appends at the end. -/
theorem view_agreement (s : Setup) (is : List Input) (e : Engine) (client : Option Numbering)
    (hrun : clientRun s (newEngine s s.options.secure) none is = some (e, client))
    (horderly : orderlyRun s (newEngine s s.options.secure) is = true) :
    client = (viewOf e).map (List.map some) ∧
      (∀ uids ∈ viewOf e, uids.Pairwise (· < ·)) ∧
      ∀ (i : Input) (e' : Engine) (acts : List ImapAction) (new : List Nat),
        step s i e = some (e', acts) → orderlyStep i e = true → viewOf e' = some new →
          ∃ old kept added, stepStart i e = some old ∧ new = kept ++ added ∧ kept.Sublist old ∧
            replays (old.map some) acts =
              kept.map some ++ List.replicate added.length none := by
  have hempty : Ascending (newEngine s s.options.secure) := by
    intro uids huids
    cases huids
  obtain ⟨hclient, hasc⟩ := clientRun_agrees s hempty horderly hrun
  refine ⟨hclient, hasc, fun i e' acts new hstep hfits hnew => ?_⟩
  obtain ⟨old, hold, kept, added, hsplit, hsub, -, hrep⟩ := step_tracks s hasc hstep hfits new hnew
  exact ⟨old, kept, added, hold, hsplit, hsub, hrep⟩

/-- A mailbox with messages 1 and 2, selected; another session delivers 4 before the
client appends 5, and `snapshot` is what the next refresh reads. -/
def appendRun (snapshot : List Nat) : List Input :=
  [⟨.feed (wireToBytes "a LOGIN u p\r\n"), fun _ => []⟩,
    ⟨.authResult true, fun _ => []⟩,
    ⟨.feed (wireToBytes "b SELECT INBOX\r\n"), fun _ => []⟩,
    ⟨.backendResult (.selected ⟨"INBOX", none, none, 1, 3, 1, 2, 0, 0, none, none, none, none⟩
      [1, 2] none []), fun _ => []⟩,
    ⟨.feed (wireToBytes "c APPEND INBOX {1}\r\nx\r\n"), fun _ => []⟩,
    ⟨.backendResult (.appended 1 5 none), fun _ => []⟩,
    ⟨.feed (wireToBytes "d NOOP\r\n"), fun _ => []⟩,
    ⟨.backendResult (.selected ⟨"INBOX", none, none, 1, 6, 1, 4, 0, 0, none, none, none, none⟩
      snapshot none []), fun _ => []⟩]

/-- Message 4 takes number 3 in the view; the client is told of a fourth message. -/
theorem view_agreement_fails :
    ¬ ∀ (s : Setup) (is : List Input) (e : Engine) (client : Option Numbering),
      clientRun s (newEngine s s.options.secure) none is = some (e, client) →
        client = (viewOf e).map (List.map some) ∧ ∀ uids ∈ viewOf e, uids.Pairwise (· < ·) := by
  intro h
  have hends : ((clientRun bareSetup (newEngine bareSetup false) none (appendRun [1, 2, 4, 5])).map
      fun p => (p.2, viewOf p.1)) = some (some [some 1, some 2, some 5, some 5], some [1, 2, 4, 5]) := by
    decide +kernel
  obtain ⟨⟨e, client⟩, hrun, hlast⟩ := Option.map_eq_some_iff.mp hends
  have hagree := (h bareSetup (appendRun [1, 2, 4, 5]) e client hrun).1
  simp only [Prod.mk.injEq] at hlast
  rw [hlast.1, hlast.2] at hagree
  exact absurd hagree (by decide)

/-- Nothing came in before the appended message: 6 follows it. -/
theorem view_agreement_appended :
    ∃ (e : Engine) (client : Option Numbering),
      clientRun bareSetup (newEngine bareSetup false) none (appendRun [1, 2, 5, 6]) = some (e, client) ∧
        viewOf e = some [1, 2, 5, 6] ∧ client = (viewOf e).map (List.map some) := by
  have hends : ((clientRun bareSetup (newEngine bareSetup false) none (appendRun [1, 2, 5, 6])).map
      fun p => viewOf p.1) = some (some [1, 2, 5, 6]) := by
    decide +kernel
  obtain ⟨⟨e, client⟩, hrun, hlast⟩ := Option.map_eq_some_iff.mp hends
  exact ⟨e, client, hrun, hlast,
    (view_agreement bareSetup (appendRun [1, 2, 5, 6]) e client hrun (by decide +kernel)).1⟩

end Ionosphere.Imap
