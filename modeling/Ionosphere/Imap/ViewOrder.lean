import Ionosphere.Imap.Moments
import Ionosphere.Imap.View

/-! The view is in ascending order as soon as the snapshots of the backend are: what is
added is sorted in, and a removal only drops entries. -/
namespace Ionosphere.Imap

open Ionosphere.Js Ionosphere.Lib

variable {e : Engine}

def ImapBackendResponse.SnapshotAscending : ImapBackendResponse → Prop
  | .selected _ uids _ _ => uids.Pairwise (· < ·)
  | _ => True

def Move.SnapshotAscending : Move → Prop
  | .backendResult res => res.SnapshotAscending
  | _ => True

instance : DecidablePred ImapBackendResponse.SnapshotAscending
  | .selected _ uids _ _ => inferInstanceAs (Decidable (uids.Pairwise (· < ·)))
  | .mailboxes _ | .messages _ | .flagsUpdated _ _ | .sync _ _ | .expunged _ | .appended _ _ _
  | .replaced _ _ _ | .copied _ _ _ | .acl _ _ | .rights _ _ _ | .quota _ _ _ | .ok | .no _ =>
    isTrue trivial

instance : DecidablePred Move.SnapshotAscending
  | .backendResult res => inferInstanceAs (Decidable res.SnapshotAscending)
  | .greeting | .read _ | .tell _ | .line _ _ | .enqueue _ | .dequeue _ _ | .settle
  | .scramKeysResult _ | .authResult _ | .tlsEstablished | .idleTick => isTrue trivial

theorem foldl_sublist {α β : Type*} {f : List α → β → List α} (hf : ∀ l b, (f l b).Sublist l)
    (bs : List β) (l : List α) : (bs.foldl f l).Sublist l := by
  induction bs generalizing l with
  | nil => exact List.Sublist.refl l
  | cons b bs ih => exact (ih (f l b)).trans (hf l b)

theorem spliceUid_sublist (uids : List Nat) (u : Nat) : (spliceUid uids u).Sublist uids := by
  unfold spliceUid
  split_ifs
  · exact List.erase_sublist
  · exact List.dropLast_sublist uids

theorem removal_sublist (qresync : Bool) (removed uids : List Nat) :
    (removal qresync removed uids).1.Sublist uids := by
  unfold removal
  split_ifs
  · exact foldl_sublist spliceUid_sublist _ uids
  · exact foldl_sublist (fun l i => List.eraseIdx_sublist l i) _ uids

theorem insertUids_ascending {added : List Nat} {view : SelectedView} (hnodup : added.Nodup)
    (hnew : ∀ a ∈ added, a ∉ view.uids) (hasc : view.uids.Pairwise (· < ·)) :
    (insertUids added view).1.uids.Pairwise (· < ·) := by
  unfold insertUids
  split_ifs
  · exact hasc
  · refine sortUids_ascending (List.nodup_append.mpr ⟨nodup_of_ascending hasc, hnodup, ?_⟩)
    intro u hu a ha heq
    exact hnew a ha (heq ▸ hu)

theorem foldl_newUids_not_mem (uids added acc : List Nat) (hacc : ∀ u ∈ acc, u ∉ uids) :
    ∀ u ∈ added.foldl (fun acc u => if uids.contains u || acc.contains u then acc else acc ++ [u])
      acc, u ∉ uids := by
  induction added generalizing acc with
  | nil => exact hacc
  | cons v added ih =>
    rw [List.foldl_cons]
    apply ih
    split
    · exact hacc
    · rename_i hnew
      simp only [Bool.or_eq_true, List.contains_iff_mem, not_or] at hnew
      intro u hu
      obtain hold | hlast := List.mem_append.mp hu
      · exact hacc u hold
      · rw [List.mem_singleton.mp hlast]
        exact hnew.1

theorem newUids_not_mem (uids added : List Nat) : ∀ u ∈ newUids uids added, u ∉ uids :=
  foldl_newUids_not_mem uids added [] (by simp)

theorem refreshView_ascending (qresync : Bool) {uids : List Nat} (uidnext : Nat)
    {view : SelectedView} (huids : uids.Pairwise (· < ·)) (hasc : view.uids.Pairwise (· < ·)) :
    (refreshView qresync uids uidnext view).1.uids.Pairwise (· < ·) := by
  unfold refreshView
  refine insertUids_ascending ((nodup_of_ascending huids).filter _) ?_
    (hasc.sublist (removal_sublist qresync _ view.uids))
  intro a ha hmem
  have hnew := (List.mem_filter.mp ha).2
  rw [List.contains_iff_mem.mpr hmem] at hnew
  cases hnew

theorem Ascending.of_view {view : SelectedView} (hsel : e.selected = some view)
    (hasc : view.uids.Pairwise (· < ·)) : Ascending e := by
  intro uids huids
  rw [viewOf, hsel] at huids
  cases huids
  exact hasc

theorem Ascending.view {view : SelectedView} (h : Ascending e)
    (hsel : e.selected = some view) : view.uids.Pairwise (· < ·) :=
  h view.uids (by rw [viewOf, hsel]; rfl)

theorem Silent.ascending {r : Engine × List ImapAction} (h : Silent e r)
    (hasc : Ascending e) : Ascending r.1 := by
  intro uids huids
  obtain hnone | hkept := h.view
  · rw [viewOf, hnone] at huids
    cases huids
  · exact hasc uids (by rw [viewOf, ← hkept]; exact huids)

theorem removalActions_ascending (removed : List Nat) (hasc : Ascending e) :
    Ascending (removalActions removed e).1 := by
  unfold removalActions
  cases hsel : e.selected with
  | none => exact hasc
  | some view => exact .of_view rfl ((hasc.view hsel).sublist (removal_sublist _ removed view.uids))

theorem resumeAppend_ascending (tag name : Text) (res : ImapBackendResponse)
    (hasc : Ascending e) : Ascending (resumeAppend tag name res e).1 := by
  cases res with
  | appended uidvalidity uid uids =>
    simp only [resumeAppend]
    cases hsel : e.selected with
    | none => exact hasc
    | some view =>
      dsimp only
      split_ifs
      · exact .of_view rfl (insertUids_ascending (newUids_nodup _ _) (newUids_not_mem _ _)
          (hasc.view hsel))
      · exact hasc
  | _ => exact hasc

theorem resumeReplace_ascending (tag verb dest : Text) (res : ImapBackendResponse)
    (hasc : Ascending e) : Ascending (resumeReplace tag verb dest res e).1 := by
  cases res with
  | replaced uidvalidity uid expungedUid =>
    simp only [resumeReplace]
    cases hsel : e.selected with
    | none => exact hasc
    | some view =>
      refine removalActions_ascending expungedUid.toList (.of_view rfl ?_)
      split_ifs
      · exact insertUids_ascending (newUids_nodup _ _) (newUids_not_mem _ _) (hasc.view hsel)
      · exact hasc.view hsel
  | _ => exact hasc

theorem resumeRefresh_ascending (taggedOk : Option Text) {res : ImapBackendResponse}
    (hsnap : res.SnapshotAscending) (hasc : Ascending e) :
    Ascending (resumeRefresh taggedOk res e).1 := by
  cases res with
  | selected m uids first keywords =>
    cases hsel : e.selected with
    | none =>
      simp only [resumeRefresh, hsel]
      exact hasc
    | some view =>
      have hview := refreshView_ascending e.enabled.qresync m.uidnext hsnap (hasc.view hsel)
      simp only [resumeRefresh, hsel]
      split_ifs
      · exact .of_view rfl hview
      · exact .of_view rfl hview
  | _ =>
    simp only [resumeRefresh]
    exact hasc

section

variable (s : Setup)

theorem resume_ascending (k : Resume) {res : ImapBackendResponse}
    (hsnap : res.SnapshotAscending) (hasc : Ascending e) : Ascending (resume s k res e).1 := by
  cases k with
  | select tag readWrite q =>
    cases res with
    | selected m uids first keywords =>
      simp only [resume, resumeSelect]
      split
      · exact .of_view rfl hsnap
      · exact .of_view rfl hsnap
    | _ => exact hasc
  | append tag name => exact resumeAppend_ascending tag name res hasc
  | replace tag verb dest => exact resumeReplace_ascending tag verb dest res hasc
  | copyMove tag verb op =>
    cases res with
    | copied uidvalidity srcUids dstUids =>
      cases op with
      | copy => exact hasc
      | move => exact removalActions_ascending srcUids hasc
    | _ => exact hasc
  | expunge tag verb =>
    cases res with
    | expunged uids => exact removalActions_ascending uids hasc
    | _ => exact hasc
  | refresh taggedOk => exact resumeRefresh_ascending taggedOk hsnap hasc
  | refreshSync taggedOk n kws =>
    exact (resumeRefreshSync_silent s taggedOk n kws res e).ascending hasc
  | _ => exact (apply_silent _ e).ascending hasc

theorem act_ascending {m : Move} (hallowed : m.Allowed e)
    (hsnap : m.SnapshotAscending) (hasc : Ascending e) : Ascending (m.act s e).1 := by
  cases m with
  | line nonce parts => exact (handleLine_silent s nonce parts e).ascending hasc
  | enqueue parts =>
    simp only [Move.act, enqueue]
    split_ifs
    · exact hasc
    · exact hasc
  | dequeue nonce parts =>
    have hunqueued : Ascending (unqueue parts e) := hasc
    exact (handleLine_silent s nonce parts (unqueue parts e)).ascending hunqueued
  | settle =>
    simp only [Move.act, settleQueue]
    split_ifs
    · exact hasc
    · exact hasc
  | backendResult res =>
    obtain ⟨k, hk⟩ := hallowed
    have hfree : Ascending { e with pending := none } := hasc
    simp only [Move.act, hk]
    exact resume_ascending s k hsnap hfree
  | scramKeysResult keys =>
    obtain ⟨tag, session, stage, username, hp⟩ := hallowed
    simp only [Move.act, scramKeysResult, hp]
    split
    · exact hasc
    · exact hasc
  | authResult ok =>
    obtain ⟨tag, hp⟩ := hallowed
    simp only [Move.act, hp, authAnswered]
    split_ifs
    · exact hasc
    · exact hasc
  | idleTick => exact (idleTick_silent e).ascending hasc
  | _ => exact hasc

theorem history_ascending {e e' : Engine} {ms : List Moment} (h : History s e ms e')
    (hsnap : ∀ m ∈ ms, m.move.SnapshotAscending) (hasc : Ascending e) : Ascending e' :=
  (Trace.Linked.invariant h hasc fun m hm hok hprev => act_ascending s hok (hsnap m hm) hprev).2

end

end Ionosphere.Imap
