import Mathlib.Data.List.Perm.Basic
import Ionosphere.Core.ThrottleKey
import Ionosphere.Lib.Assoc

/-! `PeerConnectionLimiter`, and the listeners that take a place of it for each connection and give
it back when the connection closes. -/
namespace Ionosphere.Core.PeerLimit

open Ionosphere.Js Ionosphere.Lib

variable (u : CaseMap) (isIP : Text → Nat) (limit : Nat)

/-- A number of connections for each key. -/
abbrev Counts : Type := List (Text × Nat)

def countFor (counts : Counts) (address : Option Text) : Nat :=
  (Assoc.get counts (throttleKeyOf u isIP address)).getD 0

def tryAcquire (counts : Counts) (address : Option Text) : Option Counts :=
  let cur := countFor u isIP counts address
  if limit ≤ cur then none
  else some (Assoc.set counts (throttleKeyOf u isIP address) (cur + 1))

def release (counts : Counts) (address : Option Text) : Counts :=
  let key := throttleKeyOf u isIP address
  match Assoc.get counts key with
  | none => counts
  | some cur => if cur ≤ 1 then Assoc.erase counts key else Assoc.set counts key (cur - 1)

/-- `connections` are the open ones, by their addresses. -/
structure Listeners where
  counts : Counts := []
  connections : List (Option Text) := []

inductive PeerMove where
  | connect (address : Option Text)
  | close (i : Nat)

def peerStep (w : Listeners) : PeerMove → Listeners
  | .connect address =>
    match tryAcquire u isIP (max 1 limit) w.counts address with
    | none => w
    | some counts => { counts, connections := w.connections ++ [address] }
  | .close i =>
    match w.connections[i]? with
    | none => w
    | some address =>
      { counts := release u isIP w.counts address, connections := w.connections.eraseIdx i }

/-- How many of the connections have the key. -/
def openOf (connections : List (Option Text)) (key : Text) : Nat :=
  connections.countP fun a => throttleKeyOf u isIP a = key

structure Counted (w : Listeners) : Prop where
  counts : ∀ key, Assoc.get w.counts key =
    if openOf u isIP w.connections key = 0 then none else some (openOf u isIP w.connections key)
  bound : ∀ key, openOf u isIP w.connections key ≤ max 1 limit

variable {u isIP limit} {w : Listeners}

theorem Counted.tryAcquire_eq (h : Counted u isIP limit w) (address : Option Text) :
    tryAcquire u isIP (max 1 limit) w.counts address =
      let cur := openOf u isIP w.connections (throttleKeyOf u isIP address)
      if max 1 limit ≤ cur then none
      else some (Assoc.set w.counts (throttleKeyOf u isIP address) (cur + 1)) := by
  have hcur : countFor u isIP w.counts address =
      openOf u isIP w.connections (throttleKeyOf u isIP address) := by
    rw [countFor, h.counts]
    split_ifs with hzero
    · exact hzero.symm
    · rfl
  rw [tryAcquire, hcur]

theorem counted_connect (h : Counted u isIP limit w) (address : Option Text) :
    Counted u isIP limit (peerStep u isIP limit w (.connect address)) := by
  rw [peerStep, h.tryAcquire_eq]
  dsimp only
  by_cases hfull : max 1 limit ≤ openOf u isIP w.connections (throttleKeyOf u isIP address)
  · rw [if_pos hfull]
    exact h
  · rw [if_neg hfull]
    have hnew : ∀ key, openOf u isIP (w.connections ++ [address]) key =
        openOf u isIP w.connections key + if throttleKeyOf u isIP address = key then 1 else 0 := by
      simp [openOf, List.countP_append, List.countP_singleton]
    refine ⟨fun key => ?_, fun key => ?_⟩ <;> rw [hnew]
    · rw [Assoc.get_set, h.counts]
      split_ifs <;> simp_all
    · have hbound := h.bound key
      split_ifs with hkey
      · rw [← hkey]
        omega
      · exact hbound

theorem counted_close (h : Counted u isIP limit w) (i : Nat) :
    Counted u isIP limit (peerStep u isIP limit w (.close i)) := by
  rw [peerStep]
  split
  · exact h
  · rename_i address hi
    obtain ⟨hlt, rfl⟩ := List.getElem?_eq_some_iff.mp hi
    have hold : ∀ key, openOf u isIP w.connections key = openOf u isIP (w.connections.eraseIdx i) key +
        if throttleKeyOf u isIP w.connections[i] = key then 1 else 0 := fun key => by
      rw [openOf, ← (List.getElem_cons_eraseIdx_perm hlt).countP_eq, List.countP_cons]
      simp [openOf]
    refine ⟨fun key => ?_, fun key => (Nat.le_add_right _ _).trans ((hold key).symm.trans_le (h.bound key))⟩
    have hkey := hold key
    rw [release, h.counts, if_neg (by rw [hold, if_pos rfl]; omega)]
    dsimp only
    rw [apply_ite (Assoc.get · key), Assoc.get_erase, Assoc.get_set, h.counts]
    split_ifs at hkey ⊢ <;> simp_all

theorem counted_run (h : Counted u isIP limit w) (moves : List PeerMove) :
    Counted u isIP limit (moves.foldl (peerStep u isIP limit) w) := by
  induction moves generalizing w with
  | nil => exact h
  | cons m moves ih =>
    cases m with
    | connect address => exact ih (counted_connect h address)
    | close i => exact ih (counted_close h i)

/-- In every run a connection is let in exactly if less than the limit are open of its IPv4 address
or /64, so no more ever are, and there are counters only of those that are connected. -/
theorem peer_limited (moves : List PeerMove) :
    let w := moves.foldl (peerStep u isIP limit) {}
    (∀ key, openOf u isIP w.connections key ≤ max 1 limit) ∧
      (∀ address, tryAcquire u isIP (max 1 limit) w.counts address ≠ none ↔
        openOf u isIP w.connections (throttleKeyOf u isIP address) < max 1 limit) ∧
      ∀ key, Assoc.get w.counts key ≠ none ↔ ∃ a ∈ w.connections, throttleKeyOf u isIP a = key := by
  intro w
  have h : Counted u isIP limit w := counted_run ⟨fun key => rfl, fun key => by simp [openOf]⟩ moves
  refine ⟨h.bound, fun address => ?_, fun key => ?_⟩
  · rw [h.tryAcquire_eq, ← not_le]
    dsimp only
    rw [ite_ne_left_iff, and_iff_left (Option.some_ne_none _).symm]
  · rw [h.counts, ite_ne_left_iff, and_iff_left (Option.some_ne_none _).symm, ← ne_eq,
      ← Nat.pos_iff_ne_zero]
    simp [openOf, List.countP_pos_iff]

end Ionosphere.Core.PeerLimit
