import Ionosphere.Lib.Schedule
import Ionosphere.Lib.Statements
import Ionosphere.Store.Schema

/-! Blobs are files named by their content and a generation, and rows that count as their
ledger. Writers bring a file and then commit a reference to it; the collector marks rows without
references, and when the grace period is over claims them and removes their files. -/
namespace Ionosphere.Store.BlobGc

open Ionosphere.Lib

inductive RefKind where
  | message
  | queue
  | upload
  deriving DecidableEq

/-- A row of `blob_refs`. -/
structure Ref where
  blobId : Id
  refKind : RefKind
  refId : Id
  createdAt : Nat
  deriving DecidableEq

variable {now : Nat} {r : Ref} {blobs : List Blob} {refs : List Ref}

def deleteMessageRefs (ids : List Id) (refs : List Ref) : List Ref :=
  Statements.delete (fun r => r.refKind = .message && ids.contains r.refId) refs

/-- `lookupBlob`. -/
def lookupBlob (id : Id) (blobs : List Blob) : Option Blob := Statements.row Blob.id id blobs

/-- `EXISTS (SELECT 1 FROM blob_refs …)`. -/
def referenced (refs : List Ref) (id : Id) : Bool := refs.any fun r => r.blobId = id

/-- `WHERE id = ? AND status = live AND NOT EXISTS …`. -/
def unused (refs : List Ref) (id : Id) (b : Blob) : Bool :=
  b.id = id && b.status = .live && !referenced refs b.id

/-- `WHERE id = ? AND status = doomed AND generation = ? AND NOT EXISTS …`. -/
def claimable (refs : List Ref) (id : Id) (generation : Nat) (b : Blob) : Bool :=
  b.id = id && b.status = .doomed && b.generation = generation && !referenced refs b.id

/-- `WHERE status = doomed AND doomed_at IS NOT NULL AND doomed_at < ?`. -/
def due (now graceMs : Nat) (b : Blob) : Bool :=
  b.status = .doomed && b.doomedAt.any fun d => d + graceMs < now

structure Options where
  graceMs : Nat
  uploadTtlMs : Nat
  batchSize : Nat

inductive BlobGcMode where
  | off
  | mark
  | sweep
  deriving DecidableEq

/-- Someone about to commit a reference: `putBlob` writes the file of the generation it found
out, `Email/set` reads the file of the row's generation. -/
structure Writer where
  id : Id
  sizeBytes : Nat
  generation : Nat
  puts : Bool
  /-- The file is written, or read. -/
  ready : Bool
  /-- When the row was looked up. -/
  since : Nat
  /-- Until when no collector can claim the generation from under this writer, if there is such
  a time: a grace period from the lookup and from every mark on the row. -/
  deadline : Option Nat
  deriving DecidableEq

variable {x : Writer}

/-- What a round of the collector does next. -/
inductive Phase where
  | releaseTerminalQueueRefs
  | expireUploadRefs
  | selectLive
  | markDoomed (ids : List Id)
  | selectDoomed
  | claim (rows : List (Id × Nat))
  /-- Remove the file of `next`, up to the generation claimed. -/
  | remove (id : Id) (generation next : Nat) (rows : List (Id × Nat))
  deriving DecidableEq

structure Round where
  mode : BlobGcMode
  now : Nat
  phase : Phase
  deriving DecidableEq

structure World where
  time : Nat := 0
  blobs : List Blob := []
  refs : List Ref := []
  files : List (Id × Nat) := []
  writers : List Writer := []
  rounds : List Round := []
  deriving DecidableEq

variable {w : World}

inductive Move where
  | tick (ms : Nat)
  /-- The lookup of `putBlob`. -/
  | putBlob (id : Id) (sizeBytes : Nat)
  /-- The lookup of `Email/set` for a blob the client names. -/
  | emailCreate (id : Id)
  /-- Writes the file, or reads it. -/
  | file (i : Nat)
  /-- The batch with the reference. -/
  | commit (i : Nat) (refKind : RefKind) (refId : Id)
  | giveUp (i : Nat)
  /-- Messages are deleted. -/
  | deleteRefs (refIds : List Id)
  | runBlobGc (mode : BlobGcMode)
  /-- The next step of a round: `picked` are the rows a query returns, or the queue entries that
  are in a terminal state. -/
  | round (j : Nat) (picked : List Id)
  | crash (j : Nat)

section

variable (opts : Options)

/-- `putBlob`: the generation after that of a row that is not live. -/
def putGeneration : Option Blob → Nat
  | none => 0
  | some b => if b.status = .live then b.generation else b.generation + 1

def takeOverDeadline (now : Nat) (b : Blob) : Option Nat :=
  match b.status, b.doomedAt with
  | .swept, _ => none
  | .doomed, some d => some (min (now + opts.graceMs) (d + opts.graceMs))
  | _, _ => some (now + opts.graceMs)

def commitBatch (x : Writer) (r : Ref) (w : World) : World :=
  { w with
    blobs := across Stmt.onBlobs [.insertBlob ⟨x.id, x.sizeBytes, .live, x.generation, none⟩,
      .reviveBlob x.id x.generation] w.blobs
    refs := w.refs ++ [r] }

/-- A row is marked: whoever relies on its generation, or an earlier one, has a grace period. -/
def Writer.marked (now : Nat) (blobs : List Blob) (refs : List Ref) (id : Id) (x : Writer) :
    Writer :=
  if x.id = id && blobs.any fun b => unused refs id b && x.generation ≤ b.generation then
    { x with deadline := x.deadline.map fun d => min d (now + opts.graceMs) }
  else x

/-- One statement of `markDoomed`. -/
def mark (now : Nat) (w : World) (id : Id) : World :=
  { w with
    blobs := Statements.update (unused w.refs id)
      (fun b => { b with status := .doomed, doomedAt := some now }) w.blobs
    writers := w.writers.map (Writer.marked opts now w.blobs w.refs id) }

/-- The statement of `sweepDoomed` that comes before the files of a row are removed. -/
def claim (id : Id) (generation : Nat) (w : World) : World :=
  { w with
    blobs := Statements.update (claimable w.refs id generation)
      (fun b => { b with status := .swept }) w.blobs }

/-- The rows of `picked` that meet a condition, as a query with a limit returns them. -/
def selected (p : Blob → Bool) (picked : List Id) (w : World) : List Blob :=
  ((picked.filterMap fun id => lookupBlob id w.blobs).filter p).take opts.batchSize

def releaseTerminalQueueRefs (finished : List Id) (refs : List Ref) : List Ref :=
  Statements.delete (fun x => x.refKind = .queue && finished.contains x.refId) refs

def expireUploadRefs (now : Nat) (refs : List Ref) : List Ref :=
  Statements.delete (fun x => x.refKind = .upload && x.createdAt + opts.uploadTtlMs < now) refs

def Round.step (r : Round) (picked : List Id) (w : World) : World × Option Phase :=
  match r.phase with
  | .releaseTerminalQueueRefs =>
    ({ w with refs := BlobGc.releaseTerminalQueueRefs picked w.refs }, some .expireUploadRefs)
  | .expireUploadRefs =>
    ({ w with refs := BlobGc.expireUploadRefs opts r.now w.refs }, some .selectLive)
  | .selectLive =>
    (w, some (.markDoomed ((selected opts
      (fun b => b.status = .live && !referenced w.refs b.id) picked w).map Blob.id)))
  | .markDoomed ids =>
    (ids.foldl (mark opts r.now) w, if r.mode = .sweep then some .selectDoomed else none)
  | .selectDoomed =>
    (w, some (.claim ((selected opts (due r.now opts.graceMs) picked w).map
      fun b => (b.id, b.generation))))
  | .claim [] => (w, none)
  | .claim ((id, generation) :: rows) =>
    (claim id generation w,
      if 0 < w.blobs.countP (claimable w.refs id generation) then
        some (.remove id generation 0 rows)
      else some (.claim rows))
  | .remove id generation next rows =>
    ({ w with files := w.files.filter fun f => f ≠ (id, next) },
      if next < generation then some (.remove id generation (next + 1) rows)
      else some (.claim rows))

def step : Move → World → Option World
  | .tick ms, w => some { w with time := w.time + ms }
  | .putBlob id sizeBytes, w => some { w with
      writers := w.writers ++ [{ id, sizeBytes, generation := putGeneration (lookupBlob id w.blobs)
                                 puts := true, ready := false, since := w.time
                                 deadline := some (w.time + opts.graceMs) }] }
  | .emailCreate id, w => (lookupBlob id w.blobs).map fun b => { w with
      writers := w.writers ++ [{ id, sizeBytes := b.sizeBytes, generation := b.generation
                                 puts := false, ready := false, since := w.time
                                 deadline := takeOverDeadline opts w.time b }] }
  | .file i, w => (w.writers[i]?).bind fun x =>
    if x.puts then some { w with
      files := (x.id, x.generation) :: w.files
      writers := w.writers.set i { x with ready := true } }
    else if (x.id, x.generation) ∈ w.files then some { w with
      writers := w.writers.set i { x with ready := true } }
    else some { w with writers := w.writers.eraseIdx i }
  | .commit i refKind refId, w => (w.writers[i]?).bind fun x =>
    if x.ready then
      some { commitBatch x ⟨x.id, refKind, refId, w.time⟩ w with
             writers := w.writers.eraseIdx i }
    else none
  | .giveUp i, w => some { w with writers := w.writers.eraseIdx i }
  | .deleteRefs refIds, w => some { w with refs := deleteMessageRefs refIds w.refs }
  | .runBlobGc mode, w => some { w with
      rounds := if mode = .off then w.rounds
        else w.rounds ++ [⟨mode, w.time, .releaseTerminalQueueRefs⟩] }
  | .round j picked, w => (w.rounds[j]?).map fun r =>
    let out := r.step opts picked w
    { out.1 with
      rounds := match out.2 with
        | some phase => w.rounds.set j { r with phase }
        | none => w.rounds.eraseIdx j }
  | .crash j, w => some { w with rounds := w.rounds.eraseIdx j }

end

section

variable {opts : Options} {id id' : Id} {g g' : Nat}

theorem insertBlob_eq (b : Blob) :
    Stmt.onBlobs (.insertBlob b) blobs = Statements.insertIgnore Blob.id b blobs := by
  have hany : (blobs.any fun b' => b'.id = b.id) = (Statements.row Blob.id b.id blobs).isSome := by
    rw [Statements.row, List.isSome_find?]
  rw [Stmt.onBlobs, Statements.insertIgnore, hany]

theorem lookup_revive :
    lookupBlob id' (Stmt.onBlobs (.reviveBlob id g) blobs) =
      (lookupBlob id' blobs).map fun b => if b.id = id && b.generation ≤ g then
        { b with status := .live, doomedAt := none, generation := g } else b :=
  Statements.row_update fun _ => rfl

theorem lookup_insert (b : Blob) :
    lookupBlob id (Stmt.onBlobs (.insertBlob b) blobs) =
      (lookupBlob id blobs).or (if b.id = id then some b else none) := by
  rw [insertBlob_eq]
  exact Statements.row_insertIgnore b

def Writer.committed (x : Writer) : Option Blob → Blob
  | none => ⟨x.id, x.sizeBytes, .live, x.generation, none⟩
  | some b => if b.generation ≤ x.generation then
      { b with status := .live, doomedAt := none, generation := x.generation }
    else b

theorem lookup_commit :
    lookupBlob id (commitBatch x r w).blobs =
      if id = x.id then some (x.committed (lookupBlob id w.blobs)) else lookupBlob id w.blobs := by
  change lookupBlob id (Stmt.onBlobs (.reviveBlob x.id x.generation)
    (Stmt.onBlobs (.insertBlob _) w.blobs)) = _
  rw [lookup_revive, lookup_insert]
  by_cases hid' : id = x.id
  · subst hid'
    cases hrow : lookupBlob x.id w.blobs with
    | none => simp [Writer.committed]
    | some b =>
      have hid : b.id = x.id := (Statements.row_mem hrow).2
      simp [Writer.committed, hid]
  · rw [if_neg hid', if_neg (Ne.symm hid'), Option.or_none]
    cases hrow : lookupBlob id w.blobs with
    | none => rfl
    | some b =>
      have hid : b.id ≠ x.id := by
        rw [(Statements.row_mem hrow).2]
        exact hid'
      simp [hid]

theorem committed_cases (x : Writer) (row : Option Blob) :
    ((x.committed row).status = .live ∧ (x.committed row).doomedAt = none ∧
      (x.committed row).generation = x.generation ∧
        ∀ b, row = some b → b.generation ≤ x.generation) ∨
      ∃ b, row = some b ∧ x.generation < b.generation ∧ x.committed row = b := by
  cases row with
  | none => exact .inl ⟨rfl, rfl, rfl, nofun⟩
  | some b =>
    rw [Writer.committed]
    by_cases hle : b.generation ≤ x.generation
    · rw [if_pos hle]
      refine .inl ⟨rfl, rfl, rfl, ?_⟩
      rintro _ ⟨⟩
      exact hle
    · rw [if_neg hle]
      exact .inr ⟨b, rfl, Nat.lt_of_not_le hle, rfl⟩

theorem lookup_mark :
    lookupBlob id' (mark opts now w id).blobs =
      (lookupBlob id' w.blobs).map fun b => if unused w.refs id b then
        { b with status := .doomed, doomedAt := some now } else b :=
  Statements.row_update fun _ => rfl

theorem lookup_claim :
    lookupBlob id' (claim id g w).blobs =
      (lookupBlob id' w.blobs).map fun b => if claimable w.refs id g b then
        { b with status := .swept } else b :=
  Statements.row_update fun _ => rfl

theorem unused_iff {b : Blob} :
    unused refs id b = true ↔ b.id = id ∧ b.status = .live ∧ referenced refs b.id = false := by
  simp [unused, and_assoc]

theorem claimable_iff {b : Blob} :
    claimable refs id g b = true ↔
      b.id = id ∧ b.status = .doomed ∧ b.generation = g ∧ referenced refs b.id = false := by
  simp [claimable, and_assoc]

theorem referenced_of_mem (h : r ∈ refs) : referenced refs r.blobId = true :=
  List.any_eq_true.mpr ⟨r, h, by simp⟩

end

def Passed (blobs : List Blob) (id : Id) (g : Nat) : Prop :=
  ∃ b, lookupBlob id blobs = some b ∧ (g < b.generation ∨ b.status = .swept ∧ g ≤ b.generation)

def Phase.Safe (blobs : List Blob) : Phase → Prop
  | .remove id generation next _ => next ≤ generation ∧ Passed blobs id generation
  | _ => True

structure Safe (w : World) : Prop where
  keyed : (w.blobs.map Blob.id).Nodup
  refs : ∀ r ∈ w.refs, ∃ b, lookupBlob r.blobId w.blobs = some b ∧ b.status ≠ .swept
  files : ∀ id b, lookupBlob id w.blobs = some b → b.status ≠ .swept → (id, b.generation) ∈ w.files
  writers : ∀ x ∈ w.writers, x.ready = true →
    (x.id, x.generation) ∈ w.files ∨ Passed w.blobs x.id x.generation
  rounds : ∀ r ∈ w.rounds, r.phase.Safe w.blobs

def Unswept (w : World) : Move → Prop
  | .commit i _ _ => ∀ x ∈ w.writers[i]?, ∀ b ∈ lookupBlob x.id w.blobs,
      b.status = .swept → b.generation < x.generation
  | _ => True

/-- Every reference leads to a row, and the file of its generation is there. -/
def Intact (w : World) : Prop :=
  ∀ r ∈ w.refs, ∃ b, lookupBlob r.blobId w.blobs = some b ∧ (r.blobId, b.generation) ∈ w.files

section

variable {opts : Options} {w' : World} {id id' : Id} {g g' : Nat}

theorem Safe.intact (h : Safe w) : Intact w := by
  intro r hr
  obtain ⟨b, hb, hne⟩ := h.refs r hr
  exact ⟨b, hb, h.files _ b hb hne⟩

theorem Passed.mono (hle : g' ≤ g) (h : Passed blobs id g) :
    Passed blobs id g' := by
  obtain ⟨b, hb, hlt | ⟨hswept, hle'⟩⟩ := h
  · exact ⟨b, hb, .inl (by omega)⟩
  · exact ⟨b, hb, .inr ⟨hswept, by omega⟩⟩

theorem Passed.map {blobs blobs' : List Blob} {f : Blob → Blob}
    (hrow : lookupBlob id blobs' = (lookupBlob id blobs).map f)
    (hgen : ∀ b, b.generation ≤ (f b).generation) (hswept : ∀ b, b.status = .swept →
      (f b).status = .swept) (h : Passed blobs id g) : Passed blobs' id g := by
  obtain ⟨b, hb, hlt | ⟨hst, hle⟩⟩ := h
  · refine ⟨f b, by rw [hrow, hb]; rfl, .inl ?_⟩
    have := hgen b
    omega
  · refine ⟨f b, by rw [hrow, hb]; rfl, .inr ⟨hswept b hst, ?_⟩⟩
    have := hgen b
    omega

theorem Passed.mark (h : Passed w.blobs id' g) :
    Passed (mark opts now w id).blobs id' g := by
  refine h.map lookup_mark ?_ ?_
  · intro b
    split <;> exact Nat.le_refl _
  · intro b hswept
    rw [if_neg ?_]
    · exact hswept
    · intro hunused
      rw [(unused_iff.mp hunused).2.1] at hswept
      cases hswept

theorem Passed.claim (h : Passed w.blobs id' g') : Passed (claim id g w).blobs id' g' := by
  refine h.map lookup_claim ?_ ?_
  · intro b
    split <;> exact Nat.le_refl _
  · intro b hswept
    split
    · rfl
    · exact hswept

theorem Passed.commit (hx : ∀ b, lookupBlob x.id w.blobs = some b → b.status = .swept →
    b.generation < x.generation)
    (h : Passed w.blobs id g) : Passed (commitBatch x r w).blobs id g := by
  obtain ⟨b, hb, hpassed⟩ := h
  rw [Passed, lookup_commit]
  by_cases hid : id = x.id
  · subst hid
    rw [if_pos rfl, hb, Writer.committed]
    refine ⟨_, rfl, ?_⟩
    by_cases hle : b.generation ≤ x.generation
    · rw [if_pos hle]
      obtain hlt | ⟨hswept, hle'⟩ := hpassed
      · exact .inl (hlt.trans_le hle)
      · exact .inl (hle'.trans_lt (hx b hb hswept))
    · rw [if_neg hle]
      exact hpassed
  · rw [if_neg hid]
    exact ⟨b, hb, hpassed⟩

theorem Phase.Safe.imp {blobs blobs' : List Blob} {p : Phase}
    (hpassed : ∀ id g, Passed blobs id g → Passed blobs' id g) (h : p.Safe blobs) :
    p.Safe blobs' := by
  cases p with
  | remove id generation next rows => exact ⟨h.1, hpassed id generation h.2⟩
  | _ => trivial

theorem Safe.of_same (h : Safe w) (hblobs : w'.blobs = w.blobs) (hfiles : w'.files = w.files)
    (hrefs : w'.refs ⊆ w.refs) (hwriters : ∀ x ∈ w'.writers, x.ready = true →
      (x.id, x.generation) ∈ w.files ∨ Passed w.blobs x.id x.generation)
    (hrounds : ∀ r ∈ w'.rounds, r.phase.Safe w.blobs) : Safe w' where
  keyed := hblobs ▸ h.keyed
  refs := fun r hr => hblobs ▸ h.refs r (hrefs hr)
  files := hblobs ▸ hfiles ▸ h.files
  writers := hblobs ▸ hfiles ▸ hwriters
  rounds := hblobs ▸ hrounds

@[simp] theorem marked_id (x : Writer) :
    (x.marked opts now blobs refs id).id = x.id := by
  rw [Writer.marked]
  split <;> rfl

@[simp] theorem marked_generation (x : Writer) :
    (x.marked opts now blobs refs id).generation = x.generation := by
  rw [Writer.marked]
  split <;> rfl

@[simp] theorem marked_ready (x : Writer) :
    (x.marked opts now blobs refs id).ready = x.ready := by
  rw [Writer.marked]
  split <;> rfl

theorem safe_mark (h : Safe w) : Safe (mark opts now w id) where
  keyed := Statements.nodup_update (fun _ => rfl) h.keyed
  refs := by
    intro r hr
    obtain ⟨b, hb, hne⟩ := h.refs r hr
    rw [lookup_mark, hb]
    refine ⟨_, rfl, ?_⟩
    dsimp only
    split
    · nofun
    · exact hne
  files := by
    intro id' b hb hne
    rw [lookup_mark, Option.map_eq_some_iff] at hb
    obtain ⟨b, hb, rfl⟩ := hb
    split at hne
    · rename_i hunused
      rw [if_pos hunused]
      refine h.files id' b hb ?_
      rw [(unused_iff.mp hunused).2.1]
      nofun
    · rename_i hunused
      rw [if_neg hunused]
      exact h.files id' b hb hne
  writers := by
    intro x hx hready
    obtain ⟨y, hy, rfl⟩ := List.mem_map.mp hx
    rw [marked_ready] at hready
    rw [marked_id, marked_generation]
    exact (h.writers y hy hready).imp_right Passed.mark
  rounds := fun r hr => (h.rounds r hr).imp fun _ _ => Passed.mark

theorem safe_claim (h : Safe w) : Safe (claim id g w) where
  keyed := Statements.nodup_update (fun _ => rfl) h.keyed
  refs := by
    intro r hr
    obtain ⟨b, hb, hne⟩ := h.refs r hr
    rw [lookup_claim, hb]
    refine ⟨_, rfl, ?_⟩
    dsimp only
    -- A row that a reference leads to is not claimed.
    rw [if_neg ?_]
    · exact hne
    · intro hclaim
      have href := (claimable_iff.mp hclaim).2.2.2
      rw [(Statements.row_mem hb).2] at href
      exact Bool.false_ne_true (href.symm.trans (referenced_of_mem hr))
  files := by
    intro id' b hb hne
    rw [lookup_claim, Option.map_eq_some_iff] at hb
    obtain ⟨b, hb, rfl⟩ := hb
    split at hne
    · exact absurd rfl hne
    · rename_i hclaim
      rw [if_neg hclaim]
      exact h.files id' b hb hne
  writers := fun x hx hready => (h.writers x hx hready).imp_right Passed.claim
  rounds := fun r hr => (h.rounds r hr).imp fun _ _ => Passed.claim

theorem passed_claim (h : Safe w) (hone : 0 < w.blobs.countP (claimable w.refs id g)) :
    Passed (claim id g w).blobs id g := by
  obtain ⟨b, hb, hclaim⟩ := (Statements.changes_pos h.keyed fun b hb => (claimable_iff.mp hb).1).mp
    hone
  refine ⟨{ b with status := .swept }, ?_, .inr ⟨rfl, ?_⟩⟩
  · rw [lookup_claim, lookupBlob, hb, Option.map_some, if_pos hclaim]
  · rw [(claimable_iff.mp hclaim).2.2.1]

theorem safe_remove {k : Nat} (hk : k ≤ g) (hpassed : Passed w.blobs id g) (h : Safe w) :
    Safe { w with files := w.files.filter fun f => f ≠ (id, k) } where
  keyed := h.keyed
  refs := h.refs
  files := by
    intro id' b hb hne
    refine List.mem_filter.mpr ⟨h.files id' b hb hne, ?_⟩
    rw [decide_eq_true_eq]
    intro heq
    obtain ⟨rfl, rfl⟩ := Prod.mk.inj heq
    obtain ⟨b', hb', hpassed⟩ := hpassed
    dsimp only at hb
    rw [hb] at hb'
    cases hb'
    obtain hlt | ⟨hswept, -⟩ := hpassed
    · omega
    · exact hne hswept
  writers := by
    intro x hx hready
    obtain hfile | hpassed' := h.writers x hx hready
    · by_cases heq : (x.id, x.generation) = (id, k)
      · obtain ⟨hid, hgen⟩ := Prod.mk.inj heq
        rw [hid, hgen]
        exact .inr (hpassed.mono hk)
      · exact .inl (List.mem_filter.mpr ⟨hfile, decide_eq_true heq⟩)
    · exact .inr hpassed'
  rounds := h.rounds

theorem safe_commit (hr : r.blobId = x.id)
    (hready : (x.id, x.generation) ∈ w.files ∨ Passed w.blobs x.id x.generation)
    (hx : ∀ b, lookupBlob x.id w.blobs = some b → b.status = .swept → b.generation < x.generation)
    (h : Safe w) : Safe (commitBatch x r w) where
  keyed := by
    change ((Stmt.onBlobs (.reviveBlob x.id x.generation)
      (Stmt.onBlobs (.insertBlob _) w.blobs)).map Blob.id).Nodup
    rw [insertBlob_eq]
    exact Statements.nodup_update (fun _ => rfl) (Statements.nodup_insertIgnore h.keyed)
  refs := by
    have hown : (x.committed (lookupBlob x.id w.blobs)).status ≠ .swept := by
      obtain ⟨hlive, -⟩ | ⟨b, hb, hlt, heq⟩ := committed_cases x (lookupBlob x.id w.blobs)
      · rw [hlive]
        nofun
      · rw [heq]
        exact fun hswept => hlt.not_gt (hx b hb hswept)
    intro r' hr'
    rw [lookup_commit]
    by_cases hid : r'.blobId = x.id
    · rw [if_pos hid, hid]
      exact ⟨_, rfl, hown⟩
    · rw [if_neg hid]
      obtain hr' | hr' := List.mem_append.mp hr'
      · exact h.refs r' hr'
      · cases List.mem_singleton.mp hr'
        exact absurd hr hid
  files := by
    intro id' b' hb' hne
    change (id', b'.generation) ∈ w.files
    rw [lookup_commit] at hb'
    by_cases hid : id' = x.id
    · subst hid
      rw [if_pos rfl] at hb'
      cases hb'
      obtain ⟨-, -, hgen, hle⟩ | ⟨b, hb, hlt, heq⟩ := committed_cases x (lookupBlob x.id w.blobs)
      · rw [hgen]
        refine hready.resolve_right ?_
        rintro ⟨b, hb, hlt | ⟨hswept, hge⟩⟩
        · exact hlt.not_ge (hle b hb)
        · exact hge.not_gt (hx b hb hswept)
      · rw [heq] at hne ⊢
        exact h.files x.id b hb hne
    · rw [if_neg hid] at hb'
      exact h.files id' b' hb' hne
  writers := fun y hy hready => (h.writers y hy hready).imp_right (Passed.commit hx)
  rounds := fun r hr => (h.rounds r hr).imp fun _ _ => Passed.commit hx

theorem safe_marks (ids : List Id) (h : Safe w) :
    Safe (ids.foldl (mark opts now) w) := by
  induction ids generalizing w with
  | nil => exact h
  | cons id ids ih => exact ih (safe_mark h)

theorem marks_rounds (ids : List Id) :
    (ids.foldl (mark opts now) w).rounds = w.rounds := by
  induction ids generalizing w with
  | nil => rfl
  | cons id ids ih => exact ih

theorem Round.step_rounds (r : Round) (picked : List Id) :
    (r.step opts picked w).1.rounds = w.rounds := by
  obtain ⟨mode, now, phase⟩ := r
  cases phase with
  | markDoomed ids => exact marks_rounds ids
  | claim rows => cases rows <;> rfl
  | _ => rfl

theorem safe_round {r : Round} (hr : r.phase.Safe w.blobs) (picked : List Id) (h : Safe w) :
    Safe (r.step opts picked w).1 ∧
      ∀ phase, (r.step opts picked w).2 = some phase → phase.Safe (r.step opts picked w).1.blobs := by
  obtain ⟨mode, now, phase⟩ := r
  cases phase with
  | releaseTerminalQueueRefs =>
    refine ⟨h.of_same rfl rfl (List.filter_subset_self _) h.writers h.rounds, ?_⟩
    rintro _ ⟨⟩
    trivial
  | expireUploadRefs =>
    refine ⟨h.of_same rfl rfl (List.filter_subset_self _) h.writers h.rounds, ?_⟩
    rintro _ ⟨⟩
    trivial
  | selectLive =>
    refine ⟨h, ?_⟩
    rintro _ ⟨⟩
    trivial
  | markDoomed ids =>
    refine ⟨safe_marks ids h, ?_⟩
    intro phase hphase
    dsimp only [Round.step] at hphase
    split at hphase
    · cases hphase
      trivial
    · cases hphase
  | selectDoomed =>
    refine ⟨h, ?_⟩
    rintro _ ⟨⟩
    trivial
  | claim rows =>
    cases rows with
    | nil => exact ⟨h, nofun⟩
    | cons row rows =>
      refine ⟨safe_claim h, ?_⟩
      intro phase hphase
      dsimp only [Round.step] at hphase
      split at hphase
      · rename_i hone
        cases hphase
        exact ⟨Nat.zero_le _, passed_claim h hone⟩
      · cases hphase
        trivial
  | remove id generation next rows =>
    refine ⟨safe_remove hr.1 hr.2 h, ?_⟩
    intro phase hphase
    dsimp only [Round.step] at hphase
    split at hphase
    · rename_i hlt
      cases hphase
      exact ⟨hlt, hr.2⟩
    · cases hphase
      trivial

theorem safe_round_step {j : Nat} {picked : List Id} (h : Safe w)
    (hw : step opts (.round j picked) w = some w') : Safe w' := by
  obtain ⟨r, hr, rfl⟩ := Option.map_eq_some_iff.mp hw
  obtain ⟨hsafe, hphase⟩ := safe_round (h.rounds r (List.mem_of_getElem? hr)) picked h
  refine hsafe.of_same rfl rfl (List.Subset.refl _) hsafe.writers ?_
  have hold : ∀ r' ∈ w.rounds, r'.phase.Safe (r.step opts picked w).1.blobs := by
    intro r' hr'
    refine hsafe.rounds r' ?_
    rw [Round.step_rounds]
    exact hr'
  intro r' hr'
  dsimp only at hr'
  split at hr'
  · rename_i phase hsome
    obtain hr' | rfl := List.mem_or_eq_of_mem_set hr'
    · exact hold r' hr'
    · exact hphase phase hsome
  · exact hold r' (List.mem_of_mem_eraseIdx hr')

theorem Safe.of_writers {writers : List Writer} (h : Safe w)
    (hwriters : ∀ x ∈ writers, x.ready = true → x ∈ w.writers) :
    Safe { w with writers } :=
  h.of_same rfl rfl (List.Subset.refl _)
    (fun x hx hready => h.writers x (hwriters x hx hready) hready) h.rounds

theorem safe_file {i : Nat} (h : Safe w) (hw : step opts (.file i) w = some w') : Safe w' := by
  obtain ⟨x, hx, hw⟩ := Option.bind_eq_some_iff.mp hw
  have hset : ∀ files, (x.id, x.generation) ∈ files → w.files ⊆ files →
      ∀ y ∈ w.writers.set i { x with ready := true }, y.ready = true →
        (y.id, y.generation) ∈ files ∨ Passed w.blobs y.id y.generation := by
    intro files hfile hsub y hy hready
    obtain hy | rfl := List.mem_or_eq_of_mem_set hy
    · exact (h.writers y hy hready).imp_left fun hmem => hsub hmem
    · exact .inl hfile
  split at hw
  · cases hw
    exact {
      keyed := h.keyed
      refs := h.refs
      files := fun id b hb hne => List.mem_cons_of_mem _ (h.files id b hb hne)
      writers := hset _ List.mem_cons_self (List.subset_cons_self _ _)
      rounds := h.rounds }
  · split at hw
    · rename_i hfile
      cases hw
      exact h.of_same rfl rfl (List.Subset.refl _) (hset _ hfile (List.Subset.refl _)) h.rounds
    · cases hw
      exact h.of_writers fun x hx _ => List.mem_of_mem_eraseIdx hx

theorem step_safe {m : Move} (h : Safe w) (hm : Unswept w m) (hw : step opts m w = some w') :
    Safe w' := by
  cases m with
  | tick ms =>
    cases hw
    exact h.of_same rfl rfl (List.Subset.refl _) h.writers h.rounds
  | putBlob id sizeBytes =>
    cases hw
    refine h.of_writers fun x hx hready => ?_
    obtain hx | hx := List.mem_append.mp hx
    · exact hx
    · cases List.mem_singleton.mp hx
      cases hready
  | emailCreate id =>
    obtain ⟨b, hb, rfl⟩ := Option.map_eq_some_iff.mp hw
    refine h.of_writers fun x hx hready => ?_
    obtain hx | hx := List.mem_append.mp hx
    · exact hx
    · cases List.mem_singleton.mp hx
      cases hready
  | file i => exact safe_file h hw
  | commit i refKind refId =>
    obtain ⟨x, hx, hw⟩ := Option.bind_eq_some_iff.mp hw
    split at hw
    · rename_i hready
      cases hw
      have hafter : Safe (commitBatch x ⟨x.id, refKind, refId, w.time⟩ w) :=
        safe_commit rfl (h.writers x (List.mem_of_getElem? hx) hready) (hm x hx) h
      exact hafter.of_writers fun y hy _ => List.mem_of_mem_eraseIdx hy
    · cases hw
  | giveUp i =>
    cases hw
    exact h.of_writers fun x hx _ => List.mem_of_mem_eraseIdx hx
  | deleteRefs refIds =>
    cases hw
    exact h.of_same rfl rfl (List.filter_subset_self _) h.writers h.rounds
  | runBlobGc mode =>
    cases hw
    refine h.of_same rfl rfl (List.Subset.refl _) h.writers ?_
    dsimp only
    split
    · exact h.rounds
    · exact List.forall_mem_append.mpr ⟨h.rounds, by simp [Phase.Safe]⟩
  | round j picked => exact safe_round_step h hw
  | crash j =>
    cases hw
    exact h.of_same rfl rfl (List.Subset.refl _) h.writers fun r hr =>
      h.rounds r (List.mem_of_mem_eraseIdx hr)

end

end Ionosphere.Store.BlobGc
