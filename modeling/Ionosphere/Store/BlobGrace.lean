import Ionosphere.Store.BlobGc

/-! Why the grace period is enough for writers that are prompt: a collector claims a row only
when whoever relies on its generation is late. And where it is not enough. -/
namespace Ionosphere.Store.BlobGc

open Ionosphere.Lib

variable {row : Id × Nat} {blobs : List Blob}

variable {now : Nat} {m : Move} {x : Writer}

def Phase.marks : Phase → List Id
  | .markDoomed ids => ids
  | _ => []

def InTime (w : World) : Move → Prop
  | .commit i _ _ => ∀ x ∈ w.writers[i]?, ∃ d ∈ x.deadline, w.time ≤ d
  | _ => True

def WithinGrace (opts : Options) (w : World) : Move → Prop
  | .commit i _ _ => ∀ x ∈ w.writers[i]?, w.time ≤ x.since + opts.graceMs
  | _ => True

/-- The commit comes within a grace period of the lookup; nobody takes over a row that is not
live; and no row is marked with a time before the lookup of a writer of that blob. -/
def Prompt (opts : Options) (w : World) : Move → Prop
  | .commit i _ _ => ∀ x ∈ w.writers[i]?, w.time ≤ x.since + opts.graceMs
  | .emailCreate id => ∀ b ∈ lookupBlob id w.blobs, b.status = .live
  | .round j _ => ∀ r ∈ w.rounds[j]?, ∀ x ∈ w.writers, x.id ∈ r.phase.marks → x.since ≤ r.now
  | _ => True

/-- As long as a writer is in time, its row is not claimed from under it, and if the row is
marked the grace period outlasts the writer. -/
def Fresh (opts : Options) (time : Nat) (blobs : List Blob) (x : Writer) : Prop :=
  ∀ d, x.deadline = some d → time ≤ d → ∀ b, lookupBlob x.id blobs = some b →
    x.generation ≤ b.generation → b.status ≠ .swept ∧
      (b.status = .doomed → ∀ d', b.doomedAt = some d' → d ≤ d' + opts.graceMs)

/-- What a round is to claim was marked a grace period ago, if it is still what the round saw. -/
def Stale (opts : Options) (time : Nat) (blobs : List Blob) (row : Id × Nat) : Prop :=
  ∃ b, lookupBlob row.1 blobs = some b ∧ (row.2 < b.generation ∨ b.generation = row.2 ∧
    (b.status = .swept ∨
      b.status = .doomed ∧ ∃ d, b.doomedAt = some d ∧ d + opts.graceMs < time))

def Phase.rows : Phase → List (Id × Nat)
  | .claim rows | .remove _ _ _ rows => rows
  | _ => []

structure Punctual (opts : Options) (w : World) : Prop where
  writers : ∀ x ∈ w.writers, Fresh opts w.time w.blobs x
  now : ∀ r ∈ w.rounds, r.now ≤ w.time
  rounds : ∀ r ∈ w.rounds, ∀ row ∈ r.phase.rows, Stale opts w.time w.blobs row

section

variable {opts : Options} {w w' : World} {id id' : Id} {g g' : Nat}

theorem Punctual.unswept (h : Punctual opts w) (hm : InTime w m) : Unswept w m := by
  cases m with
  | commit i refKind refId =>
    intro x hx b hb hswept
    obtain ⟨d, hd, hle⟩ := hm x hx
    by_contra hge
    exact (h.writers x (List.mem_of_getElem? hx) d hd hle b hb (Nat.le_of_not_lt hge)).1 hswept
  | _ => trivial

theorem Fresh.later {time time' : Nat} (hle : time ≤ time')
    (h : Fresh opts time blobs x) : Fresh opts time' blobs x :=
  fun d hd htime => h d hd (hle.trans htime)

theorem Stale.later {time time' : Nat} (hle : time ≤ time')
    (h : Stale opts time blobs row) : Stale opts time' blobs row := by
  obtain ⟨b, hb, hlt | ⟨hgen, hswept | ⟨hdoomed, d, hd, hdue⟩⟩⟩ := h
  · exact ⟨b, hb, .inl hlt⟩
  · exact ⟨b, hb, .inr ⟨hgen, .inl hswept⟩⟩
  · exact ⟨b, hb, .inr ⟨hgen, .inr ⟨hdoomed, d, hd, hdue.trans_le hle⟩⟩⟩

theorem fresh_putBlob {sizeBytes : Nat} :
    Fresh opts w.time w.blobs
      { id, sizeBytes, generation := putGeneration (lookupBlob id w.blobs), puts := true
        ready := false, since := w.time, deadline := some (w.time + opts.graceMs) } := by
  intro d hd htime b hb hle
  dsimp only at hb hle
  rw [hb, putGeneration] at hle
  split at hle
  · rename_i hlive
    rw [hlive]
    exact ⟨nofun, nofun⟩
  · omega

theorem fresh_emailCreate {b : Blob} (hb : lookupBlob id w.blobs = some b) :
    Fresh opts w.time w.blobs
      { id, sizeBytes := b.sizeBytes, generation := b.generation, puts := false
        ready := false, since := w.time, deadline := takeOverDeadline opts w.time b } := by
  intro d hd htime b' hb' hle
  dsimp only at hd hb'
  rw [hb] at hb'
  cases hb'
  rw [takeOverDeadline] at hd
  cases hstatus : b.status with
  | live => exact ⟨nofun, nofun⟩
  | swept =>
    rw [hstatus] at hd
    cases hd
  | doomed =>
    refine ⟨nofun, fun _ d' hd' => ?_⟩
    rw [hstatus, hd'] at hd
    cases hd
    exact min_le_right _ _

theorem fresh_mark (h : Fresh opts w.time w.blobs x) :
    Fresh opts w.time (mark opts now w id).blobs (x.marked opts now w.blobs w.refs id) := by
  intro d hd htime b hb hle
  rw [marked_id, lookup_mark, Option.map_eq_some_iff] at hb
  rw [marked_generation] at hle
  obtain ⟨b, hb, rfl⟩ := hb
  have hdeadline : ∃ d₀, x.deadline = some d₀ ∧ d ≤ d₀ := by
    rw [Writer.marked] at hd
    split at hd
    · obtain ⟨d₀, hd₀, rfl⟩ := Option.map_eq_some_iff.mp hd
      exact ⟨d₀, hd₀, min_le_left _ _⟩
    · exact ⟨d, hd, le_rfl⟩
  obtain ⟨d₀, hd₀, hle₀⟩ := hdeadline
  by_cases hunused : unused w.refs id b = true
  · rw [if_pos hunused] at hle ⊢
    refine ⟨fun hswept => (by cases hswept), ?_⟩
    rintro - _ ⟨⟩
    have hcond : (x.id = id && w.blobs.any fun b =>
        unused w.refs id b && x.generation ≤ b.generation) = true := by
      have hid : x.id = id := (Statements.row_mem hb).2.symm.trans (unused_iff.mp hunused).1
      rw [Bool.and_eq_true, decide_eq_true_eq, List.any_eq_true]
      refine ⟨hid, b, (Statements.row_mem hb).1, ?_⟩
      rw [hunused, Bool.true_and]
      exact decide_eq_true hle
    rw [Writer.marked, if_pos hcond] at hd
    obtain ⟨d₁, -, rfl⟩ := Option.map_eq_some_iff.mp hd
    exact min_le_right _ _
  · rw [if_neg hunused] at hle ⊢
    obtain ⟨hne, hmarked⟩ := h d₀ hd₀ (htime.trans hle₀) b hb hle
    exact ⟨hne, fun hdoomed d' hd' => hle₀.trans (hmarked hdoomed d' hd')⟩

theorem stale_mark (h : Stale opts w.time w.blobs row) :
    Stale opts w.time (mark opts now w id).blobs row := by
  obtain ⟨b, hb, hstale⟩ := h
  rw [Stale, lookup_mark, hb]
  refine ⟨_, rfl, ?_⟩
  dsimp only
  split
  · rename_i hunused
    have hlive := (unused_iff.mp hunused).2.1
    rw [hlive] at hstale
    obtain hlt | ⟨-, hswept | ⟨hdoomed, -⟩⟩ := hstale
    · exact .inl hlt
    · cases hswept
    · cases hdoomed
  · exact hstale

theorem fresh_claim (hstale : Stale opts w.time w.blobs (id, g))
    (h : Fresh opts w.time w.blobs x) : Fresh opts w.time (claim id g w).blobs x := by
  intro d hd htime b hb hle
  rw [lookup_claim, Option.map_eq_some_iff] at hb
  obtain ⟨b, hb, rfl⟩ := hb
  by_cases hclaim : claimable w.refs id g b = true
  · rw [if_pos hclaim] at hle
    obtain ⟨hid, hdoomed, hgen, -⟩ := claimable_iff.mp hclaim
    obtain ⟨b', hb', hstale⟩ := hstale
    dsimp only at hb' hle hstale
    rw [← hid, (Statements.row_mem hb).2, hb] at hb'
    cases hb'
    rw [hdoomed] at hstale
    obtain hlt | ⟨-, hswept | ⟨-, d', hd', hdue⟩⟩ := hstale
    · omega
    · cases hswept
    · have := (h d hd htime b hb hle).2 hdoomed d' hd'
      omega
  · rw [if_neg hclaim] at hle ⊢
    exact h d hd htime b hb hle

theorem stale_claim (h : Stale opts w.time w.blobs row) :
    Stale opts w.time (claim id g w).blobs row := by
  obtain ⟨b, hb, hstale⟩ := h
  rw [Stale, lookup_claim, hb]
  refine ⟨_, rfl, ?_⟩
  dsimp only
  split
  · exact hstale.imp_right fun hgen => ⟨hgen.1, .inl rfl⟩
  · exact hstale

theorem fresh_commit {x y : Writer} (r : Ref) (h : Fresh opts w.time w.blobs y) :
    Fresh opts w.time (commitBatch x r w).blobs y := by
  intro d hd htime b hb hle
  rw [lookup_commit] at hb
  by_cases hid : y.id = x.id
  · rw [if_pos hid] at hb
    cases hb
    obtain ⟨hlive, -⟩ | ⟨b, hb, -, heq⟩ := committed_cases x (lookupBlob y.id w.blobs)
    · rw [hlive]
      exact ⟨nofun, nofun⟩
    · rw [heq] at hle ⊢
      exact h d hd htime b hb hle
  · rw [if_neg hid] at hb
    exact h d hd htime b hb hle

theorem stale_commit (r : Ref)
    (hx : Fresh opts w.time w.blobs x) (htime : ∃ d, x.deadline = some d ∧ w.time ≤ d)
    (h : Stale opts w.time w.blobs row) : Stale opts w.time (commitBatch x r w).blobs row := by
  obtain ⟨b, hb, hstale⟩ := h
  rw [Stale, lookup_commit]
  by_cases hid : row.1 = x.id
  · rw [if_pos hid]
    refine ⟨_, rfl, ?_⟩
    obtain ⟨-, -, hgen, hle⟩ | ⟨b', hb', -, heq⟩ := committed_cases x (lookupBlob row.1 w.blobs)
    · rw [hgen]
      have hge := hle b hb
      obtain hlt | ⟨hsame, hclaim⟩ := hstale
      · exact .inl (hlt.trans_le hge)
      · refine .inl (lt_of_le_of_ne (hsame ▸ hge) fun heq => ?_)
        obtain ⟨d, hd, hdle⟩ := htime
        obtain ⟨hne, hmarked⟩ := hx d hd hdle b (hid ▸ hb) (by omega)
        obtain hswept | ⟨hdoomed, d', hd', hdue⟩ := hclaim
        · exact hne hswept
        · have := hmarked hdoomed d' hd'
          omega
    · rw [heq]
      rw [hb] at hb'
      cases hb'
      exact hstale
  · rw [if_neg hid]
    exact ⟨b, hb, hstale⟩

theorem punctual_mark (h : Punctual opts w) : Punctual opts (mark opts now w id) where
  writers := by
    intro x hx
    obtain ⟨y, hy, rfl⟩ := List.mem_map.mp hx
    exact fresh_mark (h.writers y hy)
  now := h.now
  rounds := fun r hr row hrow => stale_mark (h.rounds r hr row hrow)

theorem punctual_marks (ids : List Id) (h : Punctual opts w) :
    Punctual opts (ids.foldl (mark opts now) w) := by
  induction ids generalizing w with
  | nil => exact h
  | cons id ids ih => exact ih (punctual_mark h)

theorem punctual_of_same (htime : w.time ≤ w'.time)
    (hblobs : w'.blobs = w.blobs) (hwriters : ∀ x ∈ w'.writers, Fresh opts w.time w.blobs x)
    (hnow : ∀ r ∈ w'.rounds, r.now ≤ w'.time)
    (hrounds : ∀ r ∈ w'.rounds, ∀ row ∈ r.phase.rows, Stale opts w.time w.blobs row) :
    Punctual opts w' where
  writers := fun x hx => hblobs ▸ (hwriters x hx).later htime
  now := hnow
  rounds := fun r hr row hrow => hblobs ▸ (hrounds r hr row hrow).later htime

theorem stale_selected (hnow : now ≤ w.time) (picked : List Id) :
    ∀ row ∈ (selected opts (due now opts.graceMs) picked w).map fun b => (b.id, b.generation),
      Stale opts w.time w.blobs row := by
  intro row hrow
  obtain ⟨b, hb, rfl⟩ := List.mem_map.mp hrow
  obtain ⟨hb, hdue⟩ := List.mem_filter.mp (List.mem_of_mem_take hb)
  obtain ⟨id, -, hrow⟩ := List.mem_filterMap.mp hb
  rw [due, Bool.and_eq_true, decide_eq_true_eq, Option.any_eq_true] at hdue
  obtain ⟨hdoomed, d, hd, hlt⟩ := hdue
  refine ⟨b, ?_, .inr ⟨rfl, .inr ⟨hdoomed, d, hd, ?_⟩⟩⟩
  · dsimp only
    rw [(Statements.row_mem hrow).2]
    exact hrow
  · exact (of_decide_eq_true hlt).trans_le hnow

theorem punctual_round {r : Round} (hnow : r.now ≤ w.time)
    (hrows : ∀ row ∈ r.phase.rows, Stale opts w.time w.blobs row) (picked : List Id)
    (h : Punctual opts w) :
    Punctual opts (r.step opts picked w).1 ∧ ∀ phase, (r.step opts picked w).2 = some phase →
      ∀ row ∈ phase.rows, Stale opts (r.step opts picked w).1.time
        (r.step opts picked w).1.blobs row := by
  obtain ⟨mode, now, phase⟩ := r
  cases phase with
  | releaseTerminalQueueRefs =>
    refine ⟨punctual_of_same le_rfl rfl h.writers h.now h.rounds, ?_⟩
    rintro _ ⟨⟩
    nofun
  | expireUploadRefs =>
    refine ⟨punctual_of_same le_rfl rfl h.writers h.now h.rounds, ?_⟩
    rintro _ ⟨⟩
    nofun
  | selectLive =>
    refine ⟨h, ?_⟩
    rintro _ ⟨⟩
    nofun
  | markDoomed ids =>
    refine ⟨punctual_marks ids h, ?_⟩
    intro phase hphase
    dsimp only [Round.step] at hphase
    split at hphase
    · cases hphase
      nofun
    · cases hphase
  | selectDoomed =>
    refine ⟨h, ?_⟩
    rintro _ ⟨⟩
    exact stale_selected hnow picked
  | claim rows =>
    cases rows with
    | nil => exact ⟨h, nofun⟩
    | cons row rows =>
      obtain ⟨hrow, hrows⟩ := List.forall_mem_cons.mp hrows
      refine ⟨⟨fun x hx => fresh_claim hrow (h.writers x hx), h.now,
        fun r hr row hrow => stale_claim (h.rounds r hr row hrow)⟩, ?_⟩
      intro phase hphase row hmem
      dsimp only [Round.step] at hphase
      split at hphase
      · cases hphase
        exact stale_claim (hrows row hmem)
      · cases hphase
        exact stale_claim (hrows row hmem)
  | remove id generation next rows =>
    refine ⟨punctual_of_same le_rfl rfl h.writers h.now h.rounds, ?_⟩
    intro phase hphase
    dsimp only [Round.step] at hphase
    split at hphase
    · cases hphase
      exact hrows
    · cases hphase
      exact hrows

theorem punctual_commit (r : Ref) (hx : Fresh opts w.time w.blobs x)
    (htime : ∃ d, x.deadline = some d ∧ w.time ≤ d) (h : Punctual opts w) :
    Punctual opts (commitBatch x r w) where
  writers := fun y hy => fresh_commit r (h.writers y hy)
  now := h.now
  rounds := fun r' hr' row hrow => stale_commit r hx htime (h.rounds r' hr' row hrow)

theorem marks_time (ids : List Id) :
    (ids.foldl (mark opts now) w).time = w.time := by
  induction ids generalizing w with
  | nil => rfl
  | cons id ids ih => exact ih

theorem Round.step_time (r : Round) (picked : List Id) :
    (r.step opts picked w).1.time = w.time := by
  obtain ⟨mode, now, phase⟩ := r
  cases phase with
  | markDoomed ids => exact marks_time ids
  | claim rows => cases rows <;> rfl
  | _ => rfl

theorem punctual_round_step {j : Nat} {picked : List Id} (h : Punctual opts w)
    (hw : step opts (.round j picked) w = some w') : Punctual opts w' := by
  obtain ⟨r, hr, hw⟩ := Option.map_eq_some_iff.mp hw
  have hr := List.mem_of_getElem? hr
  obtain ⟨hafter, hphase⟩ := punctual_round (h.now r hr) (h.rounds r hr) picked h
  -- Every round after the step is one there was, or this one in its next phase.
  have hcases : ∀ r' ∈ w'.rounds,
      r' ∈ w.rounds ∨ ∃ phase, (r.step opts picked w).2 = some phase ∧ r' = { r with phase } := by
    intro r' hr'
    rw [← hw] at hr'
    dsimp only at hr'
    cases hout : (r.step opts picked w).2 with
    | some phase =>
      rw [hout] at hr'
      exact (List.mem_or_eq_of_mem_set hr').imp_right fun heq => ⟨phase, rfl, heq⟩
    | none =>
      rw [hout] at hr'
      exact .inl (List.mem_of_mem_eraseIdx hr')
  subst hw
  refine punctual_of_same le_rfl rfl hafter.writers ?_ ?_
  · intro r' hr'
    dsimp only
    rw [Round.step_time]
    obtain hr' | ⟨phase, -, rfl⟩ := hcases r' hr'
    · exact h.now r' hr'
    · exact h.now r hr
  · intro r' hr' row hrow
    obtain hr' | ⟨phase, hsome, rfl⟩ := hcases r' hr'
    · exact hafter.rounds r' (by rw [Round.step_rounds]; exact hr') row hrow
    · exact hphase phase hsome row hrow

theorem step_punctual (h : Punctual opts w) (hm : InTime w m)
    (hw : step opts m w = some w') : Punctual opts w' := by
  cases m with
  | tick ms =>
    cases hw
    exact punctual_of_same (Nat.le_add_right _ _) rfl h.writers
      (fun r hr => (h.now r hr).trans (Nat.le_add_right _ _)) h.rounds
  | putBlob id sizeBytes =>
    cases hw
    refine punctual_of_same le_rfl rfl (List.forall_mem_append.mpr ⟨h.writers, ?_⟩) h.now h.rounds
    rw [List.forall_mem_singleton]
    exact fresh_putBlob
  | emailCreate id =>
    obtain ⟨b, hb, rfl⟩ := Option.map_eq_some_iff.mp hw
    refine punctual_of_same le_rfl rfl (List.forall_mem_append.mpr ⟨h.writers, ?_⟩) h.now h.rounds
    rw [List.forall_mem_singleton]
    exact fresh_emailCreate hb
  | file i =>
    obtain ⟨x, hx, hw⟩ := Option.bind_eq_some_iff.mp hw
    have hset : ∀ y ∈ w.writers.set i { x with ready := true }, Fresh opts w.time w.blobs y := by
      intro y hy
      obtain hy | rfl := List.mem_or_eq_of_mem_set hy
      · exact h.writers y hy
      · exact h.writers x (List.mem_of_getElem? hx)
    split at hw
    · cases hw
      exact punctual_of_same le_rfl rfl hset h.now h.rounds
    · split at hw
      · cases hw
        exact punctual_of_same le_rfl rfl hset h.now h.rounds
      · cases hw
        exact punctual_of_same le_rfl rfl (fun x hx => h.writers x (List.mem_of_mem_eraseIdx hx)) h.now
          h.rounds
  | commit i refKind refId =>
    obtain ⟨x, hx, hw⟩ := Option.bind_eq_some_iff.mp hw
    split at hw
    · cases hw
      have hafter := punctual_commit ⟨x.id, refKind, refId, w.time⟩
        (h.writers x (List.mem_of_getElem? hx)) (hm x hx) h
      exact punctual_of_same le_rfl rfl
        (fun y hy => hafter.writers y (List.mem_of_mem_eraseIdx hy)) hafter.now hafter.rounds
    · cases hw
  | giveUp i =>
    cases hw
    exact punctual_of_same le_rfl rfl (fun x hx => h.writers x (List.mem_of_mem_eraseIdx hx)) h.now h.rounds
  | deleteRefs refIds =>
    cases hw
    exact punctual_of_same le_rfl rfl h.writers h.now h.rounds
  | runBlobGc mode =>
    cases hw
    have hstart : ∀ r ∈ (if mode = .off then w.rounds
        else w.rounds ++ [⟨mode, w.time, .releaseTerminalQueueRefs⟩]),
        r ∈ w.rounds ∨ r = ⟨mode, w.time, .releaseTerminalQueueRefs⟩ := by
      intro r hr
      split at hr
      · exact .inl hr
      · exact (List.mem_append.mp hr).imp_right List.mem_singleton.mp
    refine punctual_of_same le_rfl rfl h.writers ?_ ?_
    · intro r hr
      obtain hr | rfl := hstart r hr
      · exact h.now r hr
      · exact le_rfl
    · intro r hr
      obtain hr | rfl := hstart r hr
      · exact h.rounds r hr
      · nofun
  | round j picked => exact punctual_round_step h hw
  | crash j =>
    cases hw
    exact punctual_of_same le_rfl rfl h.writers (fun r hr => h.now r (List.mem_of_mem_eraseIdx hr))
      fun r hr => h.rounds r (List.mem_of_mem_eraseIdx hr)

@[simp] theorem marked_since {refs : List Ref} (x : Writer) :
    (x.marked opts now blobs refs id).since = x.since := by
  rw [Writer.marked]
  split <;> rfl

def Regular (opts : Options) (w : World) : Prop :=
  ∀ x ∈ w.writers, x.deadline = some (x.since + opts.graceMs)

theorem regular_marks (ids : List Id) (h : Regular opts w)
    (hsince : ∀ x ∈ w.writers, x.id ∈ ids → x.since ≤ now) :
    Regular opts (ids.foldl (mark opts now) w) := by
  induction ids generalizing w with
  | nil => exact h
  | cons id ids ih =>
    refine ih ?_ ?_
    · intro x hx
      obtain ⟨y, hy, rfl⟩ := List.mem_map.mp hx
      rw [marked_since, Writer.marked]
      split
      · rename_i hcond
        have hid : y.id = id := of_decide_eq_true (Bool.and_eq_true _ _ |>.mp hcond).1
        have hle := hsince y hy (hid ▸ List.mem_cons_self)
        rw [h y hy, Option.map_some, min_eq_left (by omega)]
      · exact h y hy
    · intro x hx hmem
      obtain ⟨y, hy, rfl⟩ := List.mem_map.mp hx
      rw [marked_id] at hmem
      rw [marked_since]
      exact hsince y hy (List.mem_cons_of_mem _ hmem)

theorem regular_round {r : Round} (picked : List Id) (h : Regular opts w)
    (hsince : ∀ x ∈ w.writers, x.id ∈ r.phase.marks → x.since ≤ r.now) :
    Regular opts (r.step opts picked w).1 := by
  obtain ⟨mode, now, phase⟩ := r
  cases phase with
  | markDoomed ids => exact regular_marks ids h hsince
  | claim rows => cases rows <;> exact h
  | _ => exact h

theorem step_regular (h : Regular opts w) (hm : Prompt opts w m)
    (hw : step opts m w = some w') : Regular opts w' := by
  cases m with
  | tick ms =>
    cases hw
    exact h
  | putBlob id sizeBytes =>
    cases hw
    exact List.forall_mem_append.mpr ⟨h, by simp⟩
  | emailCreate id =>
    obtain ⟨b, hb, rfl⟩ := Option.map_eq_some_iff.mp hw
    refine List.forall_mem_append.mpr ⟨h, ?_⟩
    rw [List.forall_mem_singleton, takeOverDeadline, hm b hb]
  | file i =>
    obtain ⟨x, hx, hw⟩ := Option.bind_eq_some_iff.mp hw
    have hset : ∀ y ∈ w.writers.set i { x with ready := true },
        y.deadline = some (y.since + opts.graceMs) := by
      intro y hy
      obtain hy | rfl := List.mem_or_eq_of_mem_set hy
      · exact h y hy
      · exact h x (List.mem_of_getElem? hx)
    split at hw
    · cases hw
      exact hset
    · split at hw
      · cases hw
        exact hset
      · cases hw
        exact fun y hy => h y (List.mem_of_mem_eraseIdx hy)
  | commit i refKind refId =>
    obtain ⟨x, hx, hw⟩ := Option.bind_eq_some_iff.mp hw
    split at hw
    · cases hw
      exact fun y hy => h y (List.mem_of_mem_eraseIdx hy)
    · cases hw
  | giveUp i =>
    cases hw
    exact fun y hy => h y (List.mem_of_mem_eraseIdx hy)
  | deleteRefs refIds =>
    cases hw
    exact h
  | runBlobGc mode =>
    cases hw
    exact h
  | round j picked =>
    obtain ⟨r, hr, rfl⟩ := Option.map_eq_some_iff.mp hw
    exact regular_round picked h (hm r hr)
  | crash j =>
    cases hw
    exact h

theorem Prompt.inTime (h : Regular opts w) (hm : Prompt opts w m) : InTime w m := by
  cases m with
  | commit i refKind refId =>
    intro x hx
    exact ⟨_, h x (List.mem_of_getElem? hx), hm x hx⟩
  | _ => trivial

/-- No row is gone, and none has gone back. -/
def Grown (blobs blobs' : List Blob) : Prop :=
  ∀ id b, lookupBlob id blobs = some b →
    ∃ b', lookupBlob id blobs' = some b' ∧ b.generation ≤ b'.generation

theorem Grown.refl (blobs : List Blob) : Grown blobs blobs := fun _ b hb => ⟨b, hb, le_rfl⟩

theorem Grown.trans {blobs₁ blobs₂ blobs₃ : List Blob} (h : Grown blobs₁ blobs₂)
    (h' : Grown blobs₂ blobs₃) : Grown blobs₁ blobs₃ := by
  intro id b hb
  obtain ⟨b', hb', hle⟩ := h id b hb
  obtain ⟨b'', hb'', hle'⟩ := h' id b' hb'
  exact ⟨b'', hb'', hle.trans hle'⟩

theorem grown_mark : Grown w.blobs (mark opts now w id).blobs := by
  intro id' b hb
  rw [lookup_mark, hb]
  refine ⟨_, rfl, ?_⟩
  dsimp only
  split <;> exact le_rfl

theorem grown_marks (ids : List Id) :
    Grown w.blobs (ids.foldl (mark opts now) w).blobs := by
  induction ids generalizing w with
  | nil => exact Grown.refl _
  | cons id ids ih => exact grown_mark.trans ih

theorem grown_claim : Grown w.blobs (claim id g w).blobs := by
  intro id' b hb
  rw [lookup_claim, hb]
  refine ⟨_, rfl, ?_⟩
  dsimp only
  split <;> exact le_rfl

theorem grown_commit (x : Writer) (r : Ref) : Grown w.blobs (commitBatch x r w).blobs := by
  intro id b hb
  rw [lookup_commit]
  by_cases hid : id = x.id
  · rw [if_pos hid]
    refine ⟨_, rfl, ?_⟩
    obtain ⟨-, -, hgen, hle⟩ | ⟨b', hb', -, heq⟩ := committed_cases x (lookupBlob id w.blobs)
    · rw [hgen]
      exact hle b hb
    · rw [hb] at hb'
      cases hb'
      rw [heq]
  · rw [if_neg hid]
    exact ⟨b, hb, le_rfl⟩

theorem grown_round (r : Round) (picked : List Id) :
    Grown w.blobs (r.step opts picked w).1.blobs := by
  obtain ⟨mode, now, phase⟩ := r
  cases phase with
  | markDoomed ids => exact grown_marks ids
  | claim rows =>
    cases rows with
    | nil => exact Grown.refl _
    | cons row rows => exact grown_claim
  | _ => exact Grown.refl _

theorem step_grown (hw : step opts m w = some w') : Grown w.blobs w'.blobs := by
  cases m with
  | commit i refKind refId =>
    obtain ⟨x, -, hw⟩ := Option.bind_eq_some_iff.mp hw
    split at hw
    · cases hw
      exact grown_commit x ⟨x.id, refKind, refId, w.time⟩
    · cases hw
  | round j picked =>
    obtain ⟨r, -, rfl⟩ := Option.map_eq_some_iff.mp hw
    exact grown_round r picked
  | emailCreate id =>
    obtain ⟨b, -, rfl⟩ := Option.map_eq_some_iff.mp hw
    exact Grown.refl _
  | file i =>
    obtain ⟨x, -, hw⟩ := Option.bind_eq_some_iff.mp hw
    split at hw
    · cases hw
      exact Grown.refl _
    · split at hw
      · cases hw
        exact Grown.refl _
      · cases hw
        exact Grown.refl _
  | _ =>
    cases hw
    exact Grown.refl _

theorem run_grown {ms : List Move} (h : Schedule.run (step opts) ms w = some w') :
    Grown w.blobs w'.blobs := by
  have hall : Schedule.Always (step opts) (fun _ _ => True) ms w :=
    Schedule.always_of_all (fun _ _ _ => trivial) _
  refine hall.invariant (P := fun w' => Grown w.blobs w'.blobs) (Grown.refl _) ?_ h
  intro w₁ m w₂ hgrown _ hstep
  exact hgrown.trans (step_grown hstep)

end

theorem safe_start : Safe {} where
  keyed := List.nodup_nil
  refs := nofun
  files := nofun
  writers := nofun
  rounds := nofun

theorem punctual_start {opts : Options} : Punctual opts {} := ⟨nofun, nofun, nofun⟩

/-- However the steps of writers and collectors come: writers that are prompt are in time, those
in time find their rows unswept, and if they do every reference leads to a file. Generations
only grow. -/
theorem blob_gc_safe {opts : Options} {ms ms' : List Move} {w w' : World}
    (h : Schedule.run (step opts) ms {} = some w) (h' : Schedule.run (step opts) ms' w = some w') :
    (Schedule.Always (step opts) (Prompt opts) ms {} → Schedule.Always (step opts) InTime ms {}) ∧
    (Schedule.Always (step opts) InTime ms {} → Schedule.Always (step opts) Unswept ms {}) ∧
    (Schedule.Always (step opts) Unswept ms {} → Intact w) ∧
    ∀ id b, lookupBlob id w.blobs = some b →
      ∃ b', lookupBlob id w'.blobs = some b' ∧ b.generation ≤ b'.generation := by
  refine ⟨fun hprompt => ?_, fun htime => ?_, fun hunswept => ?_, run_grown h'⟩
  · exact hprompt.imp (P := Regular opts) nofun (fun _ _ _ => step_regular) fun _ _ => Prompt.inTime
  · exact htime.imp punctual_start (fun _ _ _ => step_punctual) fun _ _ => Punctual.unswept
  · exact (hunswept.invariant safe_start (fun _ _ _ => step_safe) h).intact

instance {opts : Options} {w : World} {m : Move} : Decidable (Prompt opts w m) := by
  cases m <;> unfold Prompt <;> infer_instance

instance {opts : Options} {w : World} {m : Move} : Decidable (WithinGrace opts w m) := by
  cases m <;> unfold WithinGrace <;> infer_instance

/-- A message is deleted and its blob marked; the same content comes again before the collector
has removed the file, and is committed after. -/
def revival : List Move :=
  [.putBlob ['m'] 3, .file 0, .commit 0 .message ['x'], .deleteRefs [['x']], .runBlobGc .mark,
    .round 0 [], .round 0 [], .round 0 [['m']], .round 0 [], .tick 15, .putBlob ['m'] 3,
    .runBlobGc .sweep, .round 0 [], .round 0 [], .round 0 [], .round 0 [], .round 0 [['m']],
    .round 0 [], .file 0, .round 0 [], .tick 5, .commit 0 .message ['y']]

theorem blob_gc_safe_revival :
    ∃ w, Schedule.run (step ⟨10, 5, 5⟩) revival {} = some w ∧ w.files = [(['m'], 1)] ∧
      w.refs = [⟨['m'], .message, ['y'], 20⟩] ∧ Intact w := by
  have hrun : (Schedule.run (step ⟨10, 5, 5⟩) revival {}).map (fun w => (w.files, w.refs)) =
      some ([(['m'], 1)], [⟨['m'], .message, ['y'], 20⟩]) := by
    decide +kernel
  obtain ⟨w, hw, hrun⟩ := Option.map_eq_some_iff.mp hrun
  obtain ⟨hfiles, hrefs⟩ := Prod.mk.inj hrun
  have hsafe := @blob_gc_safe ⟨10, 5, 5⟩ revival [] w w hw rfl
  exact ⟨w, hw, hfiles, hrefs, hsafe.2.2.1 (hsafe.2.1 (hsafe.1 (by decide +kernel)))⟩

/-- An upload expires and its blob is marked. At the end of the grace period `Email/set` takes
the row over as it is; the collector comes before the commit. -/
def takeOver : List Move :=
  [.putBlob ['m'] 3, .file 0, .commit 0 .upload ['m'], .tick 20, .runBlobGc .mark, .round 0 [],
    .round 0 [], .round 0 [['m']], .round 0 [], .tick 10, .emailCreate ['m'], .file 0, .tick 1,
    .runBlobGc .sweep, .round 0 [], .round 0 [], .round 0 [], .round 0 [], .round 0 [['m']],
    .round 0 [], .round 0 [], .commit 0 .message ['x']]

theorem blob_gc_safe_fails :
    ¬ ∀ (opts : Options) (ms : List Move) (w : World), Schedule.run (step opts) ms {} = some w →
      Schedule.Always (step opts) (WithinGrace opts) ms {} → Intact w := by
  intro h
  have hrun : (Schedule.run (step ⟨10, 5, 5⟩) takeOver {}).map (fun w => (w.files, w.refs)) =
      some ([], [⟨['m'], .message, ['x'], 31⟩]) := by
    decide +kernel
  obtain ⟨w, hw, hrun⟩ := Option.map_eq_some_iff.mp hrun
  obtain ⟨hfiles, hrefs⟩ := Prod.mk.inj hrun
  obtain ⟨b, -, hfile⟩ := h ⟨10, 5, 5⟩ takeOver w hw (by decide +kernel) ⟨['m'], .message, ['x'], 31⟩
    (by rw [hrefs]; exact List.mem_singleton_self _)
  rw [hfiles] at hfile
  cases hfile

end Ionosphere.Store.BlobGc
