import Ionosphere.Lib.Assoc
import Mathlib.Algebra.Ring.Nat

/-! The throttle of failed authentications. Failures are counted in the process and in a store
the servers share; a bucket whose failure could not be written to the store is marked, and as
long as its mark lasts the stricter of the two counters decides. -/
namespace Ionosphere.Core

open Ionosphere.Lib

structure ThrottleCounter where
  fails : Nat
  lastFailAt : Nat
  deriving DecidableEq, Repr

structure ThrottlePolicy where
  freeFailures : Nat := 5
  baseDelayMs : Nat := 1000
  maxDelayMs : Nat := 900000
  resetAfterMs : Nat := 900000

def sharedSweepIntervalMs : Nat := 600000
def readMemoMs : Nat := 30000
def maxReadMemo : Nat := 10000
def maxBlockCache : Nat := 10000

def delayOf (p : ThrottlePolicy) (fails : Nat) : Nat :=
  min (p.baseDelayMs * 2 ^ min (fails - p.freeFailures) 30) p.maxDelayMs

def blockedUntil (c : Option ThrottleCounter) (now : Nat) (p : ThrottlePolicy) : Nat :=
  match c with
  | none => 0
  | some c =>
    if c.fails < p.freeFailures then 0
    else if c.lastFailAt + p.resetAfterMs ≤ now then 0
    else
      let till := c.lastFailAt + delayOf p c.fails
      if now < till then till else 0

def countFailure (p : ThrottlePolicy) (prev : Option ThrottleCounter) (now : Nat) :
    ThrottleCounter :=
  match prev with
  | none => ⟨1, now⟩
  | some c => if c.lastFailAt + p.resetAfterMs ≤ now then ⟨1, now⟩ else ⟨c.fails + 1, now⟩

structure ReadMemo where
  readAt : Nat
  present : Bool
  deriving DecidableEq, Repr

section

variable {κ : Type} [DecidableEq κ]

/-- The process and the store; `shared` is `none` when no store is attached. -/
structure Throttle (κ : Type) where
  counters : List (κ × ThrottleCounter) := []
  readMemo : List (κ × ReadMemo) := []
  blockCache : List (κ × Nat) := []
  unsynced : List (κ × Nat) := []
  lastLocalSweep : Nat := 0
  lastSharedSweep : Nat := 0
  shared : Option (List (κ × ThrottleCounter)) := none

/-- How a write to the store ends; a write that is done can still look failed. -/
inductive WriteOutcome where
  | done
  | lost
  | doubtful
  deriving DecidableEq, Repr

def countLocal (p : ThrottlePolicy) (now : Nat) (s : Throttle κ) (key : κ) : Throttle κ :=
  { s with
    counters := Assoc.set s.counters key (countFailure p (Assoc.get s.counters key) now)
    readMemo := Assoc.erase s.readMemo key }

def sweepLocal (p : ThrottlePolicy) (now : Nat) (s : Throttle κ) : Throttle κ :=
  if now < s.lastLocalSweep + p.resetAfterMs then s
  else
    { s with
      lastLocalSweep := now
      counters := s.counters.filter fun e => decide (now < e.2.lastFailAt + p.resetAfterMs)
      readMemo := s.readMemo.filter fun e => decide (now < e.2.readAt + readMemoMs)
      blockCache := s.blockCache.filter fun e => decide (now < e.2)
      unsynced := s.unsynced.filter fun e => decide (now < e.2) }

def writeShared (p : ThrottlePolicy) (now : Nat) (key : κ) (s : Throttle κ) : Throttle κ :=
  { s with shared := s.shared.map fun db =>
      Assoc.set db key (countFailure p (Assoc.get db key) now) }

def markUnsynced (p : ThrottlePolicy) (now : Nat) (key : κ) (s : Throttle κ) : Throttle κ :=
  let marks := if maxBlockCache ≤ s.unsynced.length then [] else s.unsynced
  { s with unsynced := Assoc.set marks key (now + p.resetAfterMs) }

def writeFailure (p : ThrottlePolicy) (now : Nat) (outcome : κ → WriteOutcome) (s : Throttle κ)
    (key : κ) : Throttle κ :=
  match outcome key with
  | .done => writeShared p now key s
  | .lost => markUnsynced p now key s
  | .doubtful => markUnsynced p now key (writeShared p now key s)

def sweepShared (p : ThrottlePolicy) (now : Nat) (swept : Bool) (s : Throttle κ) : Throttle κ :=
  if now < s.lastSharedSweep + sharedSweepIntervalMs then s
  else
    { s with
      lastSharedSweep := now
      shared := if swept then s.shared.map fun db => db.filter fun e =>
          decide (now ≤ e.2.lastFailAt + p.resetAfterMs)
        else s.shared }

/-- `keys` are the buckets of the subject, `outcome` and `swept` what the store does. -/
def recordFailure (p : ThrottlePolicy) (keys : List κ) (now : Nat) (outcome : κ → WriteOutcome)
    (swept : Bool) (s : Throttle κ) : Throttle κ :=
  let s := sweepLocal p now (keys.foldl (countLocal p now) s)
  if s.shared.isNone ∨ keys = [] then s
  else sweepShared p now swept (keys.foldl (writeFailure p now outcome) s)

def seconds (ms : Nat) : Nat := max 1 ((ms + 999) / 1000)

/-- The latest end of a block that is remembered; what is over is forgotten. -/
def readCache (now : Nat) : List κ → Throttle κ → Throttle κ × Nat
  | [], s => (s, 0)
  | key :: keys, s =>
    match Assoc.get s.blockCache key with
    | none => readCache now keys s
    | some u =>
      if now < u then
        let r := readCache now keys s
        (r.1, max u r.2)
      else readCache now keys { s with blockCache := Assoc.erase s.blockCache key }

def readShared (keys : List κ) (now : Nat) (readOk : Bool) (s : Throttle κ) :
    Throttle κ × Option (κ → Option ThrottleCounter) :=
  match s.shared with
  | none => (s, none)
  | some db =>
    if readOk then
      let memo := if maxReadMemo ≤ s.readMemo.length then [] else s.readMemo
      let seen := keys.foldl (fun m k => Assoc.set m k ⟨now, (Assoc.get db k).isSome⟩) memo
      ({ s with readMemo := seen }, some (Assoc.get db))
    else (s, none)

def isUnsynced (key : κ) (now : Nat) (s : Throttle κ) : Throttle κ × Bool :=
  match Assoc.get s.unsynced key with
  | none => (s, false)
  | some u =>
    if now < u then (s, true)
    else ({ s with unsynced := Assoc.erase s.unsynced key }, false)

def judge (p : ThrottlePolicy) (now : Nat) (shared : Option (κ → Option ThrottleCounter))
    (s : Throttle κ) (key : κ) : Throttle κ × Nat :=
  let own := blockedUntil (Assoc.get s.counters key) now p
  match shared with
  | none => (s, own)
  | some got =>
    let r := isUnsynced key now s
    (r.1, if r.2 then max own (blockedUntil (got key) now p) else blockedUntil (got key) now p)

def judgeAll (p : ThrottlePolicy) (now : Nat) (shared : Option (κ → Option ThrottleCounter)) :
    List κ → Throttle κ → Throttle κ × Nat
  | [], s => (s, 0)
  | key :: keys, s =>
    let r := judge p now shared s key
    let cache := if maxBlockCache ≤ r.1.blockCache.length then [] else r.1.blockCache
    let s := if now < r.2 then { r.1 with blockCache := Assoc.set cache key r.2 } else r.1
    let q := judgeAll p now shared keys s
    (q.1, max r.2 q.2)

def retryAfterSeconds (p : ThrottlePolicy) (keys : List κ) (now : Nat) (readOk : Bool)
    (s : Throttle κ) : Throttle κ × Nat :=
  if keys = [] then (s, 0)
  else
    let r := readCache now keys s
    if now < r.2 then (r.1, seconds (r.2 - now))
    else
      let q := readShared keys now readOk r.1
      let v := judgeAll p now q.2 keys q.1
      (v.1, if now < v.2 then seconds (v.2 - now) else 0)

end

inductive AxisName where
  | ip
  | account
  deriving DecidableEq, Repr

/-- Whom an attempt counts against, by names that are normalised already. -/
structure AuthSubject (ι : Type) where
  ip : Option ι
  account : Option ι

def axesOf {ι : Type} (subject : AuthSubject ι) : List (AxisName × ι) :=
  (subject.ip.map (AxisName.ip, ·)).toList ++ (subject.account.map (AxisName.account, ·)).toList

inductive ThrottleCall (ι : Type) where
  | recordFailure (subject : AuthSubject ι) (now : Nat) (outcome : AxisName × ι → WriteOutcome)
      (swept : Bool)
  | retryAfterSeconds (subject : AuthSubject ι) (now : Nat) (readOk : Bool)

namespace ThrottleCall

variable {ι : Type} [DecidableEq ι]

def now : ThrottleCall ι → Nat
  | .recordFailure _ now _ _ => now
  | .retryAfterSeconds _ now _ => now

def run (p : ThrottlePolicy) (s : Throttle (AxisName × ι)) :
    ThrottleCall ι → Throttle (AxisName × ι)
  | .recordFailure subject now outcome swept =>
    Core.recordFailure p (axesOf subject) now outcome swept s
  | .retryAfterSeconds subject now readOk =>
    (Core.retryAfterSeconds p (axesOf subject) now readOk s).1

end ThrottleCall

end Ionosphere.Core
