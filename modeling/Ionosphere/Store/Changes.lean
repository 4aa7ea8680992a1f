import Mathlib.Data.List.Sort
import Mathlib.Data.Set.Basic
import Ionosphere.Lib.Assoc
import Ionosphere.Store.Attempt

/-! `jmapChanges`: the objects of one type that changed since a state, page by page. A page
ends between two modseqs. States are numbers; their texts are `String(n)`. -/
namespace Ionosphere.Store

open Ionosphere.Js Ionosphere.Lib

structure JmapDelta where
  oldState : Nat
  newState : Nat
  hasMoreChanges : Bool
  created : List Id
  updated : List Id
  destroyed : List Id
  deriving DecidableEq

variable {objects : Set Id} {id : Id} {lo mid hi : Nat} {since : Nat} {d : JmapDelta}

inductive JmapChanges where
  | cannotCalculate
  | delta (d : JmapDelta)
  deriving DecidableEq

/-- `acc[stateCol]`. -/
def AccountRow.stateOf (a : AccountRow) : Entity → Nat
  | .email => a.stateEmail
  | .mailbox => a.stateMailbox
  | .thread => a.stateThread
  | .submission => a.stateSubmission
  | .identity => a.stateIdentity

/-- What has happened to an object. -/
structure Kinds where
  c : Bool := false
  u : Bool := false
  d : Bool := false
  deriving DecidableEq

def Kinds.note (k : Kinds) : ChangeKind → Kinds
  | .created => { k with c := true }
  | .updated => { k with u := true }
  | .destroyed => { k with d := true }

abbrev KindMap : Type := List (Id × Kinds)

def noteRow (kinds : KindMap) (r : ChangeRow) : KindMap :=
  Assoc.set kinds r.objectId (((Assoc.get kinds r.objectId).getD {}).note r.kind)

def freshIds (kinds : KindMap) (group : List ChangeRow) : List Id :=
  ((group.map (·.objectId)).filter fun id => (Assoc.get kinds id).isNone).eraseDups

/-- The loop over the groups of one modseq: the kinds, the last modseq taken, and whether it
stopped before the end. The fuel is the number of rows. -/
def pageLoop (maxChanges : Nat) : Nat → List ChangeRow → KindMap → Nat → KindMap × Nat × Bool
  | fuel + 1, r :: rows, kinds, last =>
    let group := r :: rows.takeWhile fun x => x.modseq = r.modseq
    if kinds ≠ [] ∧ maxChanges < kinds.length + (freshIds kinds group).length then
      (kinds, last, true)
    else
      pageLoop maxChanges fuel (rows.dropWhile fun x => x.modseq = r.modseq)
        (group.foldl noteRow kinds) r.modseq
  | _, _, kinds, last => (kinds, last, false)

/-- `WHERE entity = ? AND modseq > ? ORDER BY modseq ASC`. -/
def changesAfter (entity : Entity) (since : Nat) (db : Db) : List ChangeRow :=
  (db.changeLog.filter fun r => r.entity = entity && since < r.modseq).insertionSort
    fun a b => a.modseq ≤ b.modseq

def pageOf (since current maxChanges : Nat) (rows : List ChangeRow) : JmapDelta :=
  let (kinds, last, stopped) := pageLoop maxChanges rows.length rows [] since
  { oldState := since
    newState := if stopped then last else current
    hasMoreChanges := stopped
    created := (kinds.filter fun p => p.2.c && !p.2.d).map (·.1)
    updated := (kinds.filter fun p => !p.2.c && !p.2.d).map (·.1)
    destroyed := (kinds.filter fun p => !p.2.c && p.2.d).map (·.1) }

/-- `since` is `Number(sinceState)`, and `none` unless that is a safe integer from 0 on. -/
def jmapChanges (entity : Entity) (since : Option Nat) (maxChanges : Nat) : Reads JmapChanges :=
  match since with
  | none => pure .cannotCalculate
  | some since => do
    let acc ← Reads.select (·.account)
    let current := acc.stateOf entity
    if since < acc.changelogFloor ∨ current < since then pure .cannotCalculate
    else if since = current then pure (.delta ⟨since, since, false, [], [], []⟩)
    else do
      let rows ← Reads.select (changesAfter entity since)
      pure (.delta (pageOf since current maxChanges rows))

def tells (rows : List ChangeRow) (id : Id) (kind : ChangeKind) : Bool :=
  rows.any fun r => r.objectId = id && r.kind = kind

theorem tells_iff (rows : List ChangeRow) (id : Id) (kind : ChangeKind) :
    tells rows id kind = true ↔ ∃ r ∈ rows, r.objectId = id ∧ r.kind = kind := by
  simp [tells, List.any_eq_true]

theorem get_noteRows (rows : List ChangeRow) (kinds : KindMap) (id : Id) :
    Assoc.get (rows.foldl noteRow kinds) id =
      if (∃ r ∈ rows, r.objectId = id) ∨ (Assoc.get kinds id).isSome then
        let k := (Assoc.get kinds id).getD {}
        some ⟨k.c || tells rows id .created, k.u || tells rows id .updated,
          k.d || tells rows id .destroyed⟩
      else none := by
  induction rows generalizing kinds with
  | nil => cases h : Assoc.get kinds id <;> simp [tells, h]
  | cons r rows ih =>
    rw [List.foldl_cons, ih, noteRow, Assoc.get_set]
    by_cases hid : r.objectId = id
    · subst hid
      cases hk : r.kind <;> simp [tells, hk, Kinds.note]
    · simp [hid, tells]

theorem noteRows_nodup (rows : List ChangeRow) {kinds : KindMap} (h : (kinds.map (·.1)).Nodup) :
    ((rows.foldl noteRow kinds).map (·.1)).Nodup := by
  induction rows generalizing kinds with
  | nil => exact h
  | cons r rows ih => exact ih (Assoc.nodup_set h _ _)

theorem mem_kinds (rows : List ChangeRow) (p : Kinds → Bool) (id : Id) :
    id ∈ ((rows.foldl noteRow []).filter fun q => p q.2).map (·.1) ↔
      (∃ r ∈ rows, r.objectId = id) ∧
        p ⟨tells rows id .created, tells rows id .updated, tells rows id .destroyed⟩ = true := by
  have hnodup : ((rows.foldl noteRow []).map (·.1)).Nodup := noteRows_nodup rows (by simp)
  have hget := get_noteRows rows [] id
  simp only [Assoc.get_nil, Option.isSome_none, Bool.false_eq_true, or_false, Option.getD_none,
    Bool.false_or] at hget
  simp only [List.mem_map, List.mem_filter, Prod.exists, exists_and_right, exists_eq_right,
    Assoc.mem_iff_get hnodup, hget]
  split
  · rename_i hrow
    simp [hrow]
  · rename_i hrow
    simp [hrow]

theorem lt_of_mem_dropWhile {n : Nat} {rows : List ChangeRow}
    (hsorted : rows.Pairwise fun a b => a.modseq ≤ b.modseq) (hge : ∀ x ∈ rows, n ≤ x.modseq) :
    ∀ x ∈ rows.dropWhile fun x => x.modseq = n, n < x.modseq := by
  induction rows with
  | nil => simp
  | cons r rows ih =>
    rw [List.pairwise_cons] at hsorted
    by_cases hr : r.modseq = n
    · rw [List.dropWhile_cons_of_pos (by simpa using hr)]
      exact ih hsorted.2 fun x hx => hge x (List.mem_cons_of_mem _ hx)
    · rw [List.dropWhile_cons_of_neg (by simpa using hr)]
      have hlt : n < r.modseq := Nat.lt_of_le_of_ne (hge r List.mem_cons_self) (Ne.symm hr)
      intro x hx
      rcases List.mem_cons.mp hx with rfl | hx
      · exact hlt
      · exact Nat.lt_of_lt_of_le hlt (hsorted.1 x hx)

/-- How far the loop comes: it takes the rows up to some modseq, and stops if there are more.
Unless the page has something already, it takes something. -/
theorem pageLoop_spec (maxChanges fuel : Nat) {rows : List ChangeRow} {kinds : KindMap} {last : Nat}
    (hfuel : rows.length ≤ fuel) (hsorted : rows.Pairwise fun a b => a.modseq ≤ b.modseq)
    (hlast : ∀ r ∈ rows, last < r.modseq) :
    ∃ taken left last', rows = taken ++ left ∧
      pageLoop maxChanges fuel rows kinds last =
        (taken.foldl noteRow kinds, last', decide (left ≠ [])) ∧
      last ≤ last' ∧ (∀ r ∈ taken, r.modseq ≤ last') ∧ (∀ r ∈ left, last' < r.modseq) ∧
      (kinds = [] → rows ≠ [] → last < last') := by
  induction fuel generalizing rows kinds last with
  | zero =>
    obtain rfl : rows = [] := List.length_eq_zero_iff.mp (Nat.le_zero.mp hfuel)
    exact ⟨[], [], last, rfl, rfl, le_rfl, by simp, by simp, fun _ h => absurd rfl h⟩
  | succ fuel ih =>
    cases rows with
    | nil => exact ⟨[], [], last, rfl, rfl, le_rfl, by simp, by simp, fun _ h => absurd rfl h⟩
    | cons r rows =>
      have hr : last < r.modseq := hlast r List.mem_cons_self
      rw [pageLoop]
      split
      · rename_i hfull
        exact ⟨[], r :: rows, last, rfl, by simp, le_rfl, by simp, hlast,
          fun h => absurd h hfull.1⟩
      · rw [List.pairwise_cons] at hsorted
        obtain ⟨taken, left, last', hsplit, hloop, hle, htaken, hleft, -⟩ :=
          @ih (rows.dropWhile fun x => x.modseq = r.modseq)
            ((r :: rows.takeWhile fun x => x.modseq = r.modseq).foldl noteRow kinds) r.modseq
            ((List.length_dropWhile_le _ rows).trans (Nat.le_of_succ_le_succ hfuel))
            (hsorted.2.sublist (List.dropWhile_sublist _))
            (lt_of_mem_dropWhile hsorted.2 hsorted.1)
        refine ⟨(r :: rows.takeWhile fun x => x.modseq = r.modseq) ++ taken, left, last', ?_, ?_,
          hr.le.trans hle, ?_, hleft, fun _ _ => Nat.lt_of_lt_of_le hr hle⟩
        · rw [List.append_assoc, ← hsplit, List.cons_append, List.takeWhile_append_dropWhile]
        · rw [hloop, List.foldl_append]
        · intro x hx
          rcases List.mem_append.mp hx with hx | hx
          · rcases List.mem_cons.mp hx with rfl | hx
            · exact hle
            · have hsame : x.modseq = r.modseq := by simpa using List.mem_takeWhile_imp hx
              rw [hsame]
              exact hle
          · exact htaken x hx

section

variable (db : Db) (entity : Entity)

/-- After `lo`, and not after `hi`, the log says that this happened to the object. -/
def Touched (lo hi : Nat) (id : Id) (kind : ChangeKind) : Prop :=
  ∃ r ∈ db.changeLog, r.entity = entity ∧ lo < r.modseq ∧ r.modseq ≤ hi ∧ r.objectId = id ∧
    r.kind = kind

/-- An object is created once and before it is destroyed, and the state of the account is not
behind the log. -/
structure Kept : Prop where
  state : ∀ r ∈ db.changeLog, r.entity = entity → r.modseq ≤ db.account.stateOf entity
  once : ∀ r ∈ db.changeLog, ∀ r' ∈ db.changeLog, r.entity = entity → r'.entity = entity →
    r.objectId = r'.objectId → r.kind = .created → r'.kind = .created → r.modseq = r'.modseq
  order : ∀ r ∈ db.changeLog, ∀ r' ∈ db.changeLog, r.entity = entity → r'.entity = entity →
    r.objectId = r'.objectId → r.kind = .created → r'.kind = .destroyed → r.modseq < r'.modseq

/-- A state `jmapChanges` can start from. -/
def Valid (since : Nat) : Prop :=
  db.account.changelogFloor ≤ since ∧ since ≤ db.account.stateOf entity

def Answers (maxChanges since : Nat) (d : JmapDelta) : Prop :=
  (jmapChanges entity (some since) maxChanges).on db = .ok (.delta d)

/-- Calls from `since` on, each from the state the one before it gave, until there is no more. -/
inductive Paged (maxChanges : Nat) : Nat → List JmapDelta → Prop
  | last {since : Nat} {d : JmapDelta} (h : Answers db entity maxChanges since d)
      (hdone : d.hasMoreChanges = false) : Paged maxChanges since [d]
  | more {since : Nat} {d : JmapDelta} {pages : List JmapDelta}
      (h : Answers db entity maxChanges since d) (hmore : d.hasMoreChanges = true)
      (hrest : Paged maxChanges d.newState pages) : Paged maxChanges since (d :: pages)

def replay (since : Nat) (objects : Set Id) : Set Id :=
  {id | (id ∈ objects ∨ ∃ r ∈ changesAfter entity since db, r.objectId = id ∧ r.kind = .created) ∧
    ∀ r ∈ changesAfter entity since db, r.objectId = id → r.kind = .destroyed →
      ∃ r' ∈ changesAfter entity since db, r'.objectId = id ∧ r'.kind = .created ∧
        r.modseq < r'.modseq}

end

def JmapDelta.apply (objects : Set Id) (d : JmapDelta) : Set Id :=
  {id | id ∈ d.created ∨ id ∈ objects ∧ id ∉ d.destroyed}

section

variable {db : Db} {entity : Entity}

theorem mem_changesAfter {r : ChangeRow} :
    r ∈ changesAfter entity since db ↔ r ∈ db.changeLog ∧ r.entity = entity ∧ since < r.modseq := by
  simp [changesAfter, (List.perm_insertionSort _ _).mem_iff]

theorem changesAfter_sorted (since : Nat) :
    (changesAfter entity since db).Pairwise fun a b => a.modseq ≤ b.modseq :=
  List.pairwise_insertionSort (fun a b : ChangeRow => a.modseq ≤ b.modseq) _

/-- A page tells what happened in its window. -/
structure Window (db : Db) (entity : Entity) (d : JmapDelta) : Prop where
  created : ∀ id, id ∈ d.created ↔ Touched db entity d.oldState d.newState id .created ∧
    ¬ Touched db entity d.oldState d.newState id .destroyed
  updated : ∀ id, id ∈ d.updated ↔ Touched db entity d.oldState d.newState id .updated ∧
    ¬ Touched db entity d.oldState d.newState id .created ∧
    ¬ Touched db entity d.oldState d.newState id .destroyed
  destroyed : ∀ id, id ∈ d.destroyed ↔ ¬ Touched db entity d.oldState d.newState id .created ∧
    Touched db entity d.oldState d.newState id .destroyed

theorem tells_window {since upto : Nat} {taken left : List ChangeRow}
    (hrows : changesAfter entity since db = taken ++ left) (htaken : ∀ r ∈ taken, r.modseq ≤ upto)
    (hleft : ∀ r ∈ left, upto < r.modseq) (id : Id) (kind : ChangeKind) :
    tells taken id kind = true ↔ Touched db entity since upto id kind := by
  rw [tells_iff]
  constructor
  · rintro ⟨r, hr, hid, hkind⟩
    have hmem : r ∈ changesAfter entity since db := hrows ▸ List.mem_append_left left hr
    obtain ⟨hlog, hentity, hafter⟩ := mem_changesAfter.mp hmem
    exact ⟨r, hlog, hentity, hafter, htaken r hr, hid, hkind⟩
  · rintro ⟨r, hlog, hentity, hafter, hupto, hid, hkind⟩
    have hmem : r ∈ taken ++ left := hrows ▸ mem_changesAfter.mpr ⟨hlog, hentity, hafter⟩
    rcases List.mem_append.mp hmem with hr | hr
    · exact ⟨r, hr, hid, hkind⟩
    · exact absurd hupto (Nat.not_le.mpr (hleft r hr))

theorem exists_row_iff (rows : List ChangeRow) (id : Id) :
    (∃ r ∈ rows, r.objectId = id) ↔ tells rows id .created = true ∨ tells rows id .updated = true ∨
      tells rows id .destroyed = true := by
  simp only [tells_iff]
  constructor
  · rintro ⟨r, hr, hid⟩
    cases hkind : r.kind with
    | created => exact .inl ⟨r, hr, hid, hkind⟩
    | updated => exact .inr (.inl ⟨r, hr, hid, hkind⟩)
    | destroyed => exact .inr (.inr ⟨r, hr, hid, hkind⟩)
  · rintro (⟨r, hr, hid, -⟩ | ⟨r, hr, hid, -⟩ | ⟨r, hr, hid, -⟩) <;> exact ⟨r, hr, hid⟩

theorem answers_behind (hkept : Kept db entity) (maxChanges : Nat)
    (hvalid : Valid db entity since) (hbehind : since < db.account.stateOf entity) :
    ∃ d, Answers db entity maxChanges since d ∧ d.oldState = since ∧ since < d.newState ∧
      d.newState ≤ db.account.stateOf entity ∧
      (d.hasMoreChanges = false → d.newState = db.account.stateOf entity) ∧
      (d.hasMoreChanges = true → d.newState < db.account.stateOf entity) ∧
      Window db entity d := by
  obtain ⟨taken, left, last, hrows, hloop, -, htaken, hleft, hprogress⟩ :=
    @pageLoop_spec maxChanges _ (changesAfter entity since db) [] since le_rfl
      (changesAfter_sorted since) fun r hr => (mem_changesAfter.mp hr).2.2
  have hstate : ∀ r ∈ taken ++ left, r.modseq ≤ db.account.stateOf entity := by
    intro r hr
    obtain ⟨hlog, hentity, -⟩ := mem_changesAfter.mp (hrows ▸ hr)
    exact hkept.state r hlog hentity
  refine ⟨pageOf since (db.account.stateOf entity) maxChanges (changesAfter entity since db), ?_, rfl,
    ?_⟩
  · have hguard : ¬ (since < db.account.changelogFloor ∨ db.account.stateOf entity < since) := by
      rintro (h | h)
      · exact Nat.not_lt.mpr hvalid.1 h
      · exact Nat.not_lt.mpr hvalid.2 h
    simp only [Answers, jmapChanges, Reads.on_select_bind, if_neg hguard, if_neg hbehind.ne]
    rfl
  generalize hnew : (if decide (left ≠ []) = true then last else db.account.stateOf entity) = upto
  have hpage : pageOf since (db.account.stateOf entity) maxChanges (changesAfter entity since db) =
      { oldState := since
        newState := upto
        hasMoreChanges := decide (left ≠ [])
        created := ((taken.foldl noteRow []).filter fun p => p.2.c && !p.2.d).map (·.1)
        updated := ((taken.foldl noteRow []).filter fun p => !p.2.c && !p.2.d).map (·.1)
        destroyed := ((taken.foldl noteRow []).filter fun p => !p.2.c && p.2.d).map (·.1) } := by
    rw [pageOf, hloop, ← hnew]
  have hupto : since < upto ∧ upto ≤ db.account.stateOf entity ∧
      (left ≠ [] → upto < db.account.stateOf entity) ∧ (∀ r ∈ taken, r.modseq ≤ upto) ∧
      ∀ r ∈ left, upto < r.modseq := by
    by_cases hstop : left = []
    · rw [if_neg (by simpa using hstop)] at hnew
      subst hnew
      exact ⟨hbehind, le_rfl, fun h => absurd hstop h,
        fun r hr => hstate r (List.mem_append_left _ hr), by simp [hstop]⟩
    · rw [if_pos (by simpa using hstop)] at hnew
      subst hnew
      obtain ⟨r, hr⟩ := List.exists_mem_of_ne_nil left hstop
      have hbound := Nat.lt_of_lt_of_le (hleft r hr) (hstate r (List.mem_append_right _ hr))
      exact ⟨hprogress rfl (by rw [hrows]; simp [hstop]), hbound.le, fun _ => hbound, htaken, hleft⟩
  obtain ⟨hlt, hle, hmore, htaken, hleft⟩ := hupto
  have htells := tells_window hrows htaken hleft
  rw [hpage]
  refine ⟨hlt, hle, fun hdone => ?_, fun h => hmore (of_decide_eq_true h), ?_, ?_, ?_⟩
  · rw [if_neg (Bool.eq_false_iff.mp hdone)] at hnew
    exact hnew.symm
  · intro id
    rw [mem_kinds taken (fun k => k.c && !k.d) id, exists_row_iff, ← htells, ← htells]
    cases tells taken id .created <;> cases tells taken id .destroyed <;> simp
  · intro id
    rw [mem_kinds taken (fun k => !k.c && !k.d) id, exists_row_iff, ← htells, ← htells, ← htells]
    cases tells taken id .created <;> cases tells taken id .destroyed <;> simp
  · intro id
    rw [mem_kinds taken (fun k => !k.c && k.d) id, exists_row_iff, ← htells, ← htells]
    cases tells taken id .created <;> cases tells taken id .destroyed <;> simp

def net (db : Db) (entity : Entity) (lo hi : Nat) (objects : Set Id) : Set Id :=
  {id | (id ∈ objects ∨ Touched db entity lo hi id .created) ∧
    ¬ Touched db entity lo hi id .destroyed}

theorem mem_net {lo hi : Nat} :
    id ∈ net db entity lo hi objects ↔ (id ∈ objects ∨ Touched db entity lo hi id .created) ∧
      ¬ Touched db entity lo hi id .destroyed := Iff.rfl

theorem JmapDelta.mem_apply :
    id ∈ JmapDelta.apply objects d ↔ id ∈ d.created ∨ id ∈ objects ∧ id ∉ d.destroyed := Iff.rfl

theorem touched_trans (hlo : lo ≤ mid) (hhi : mid ≤ hi) (id : Id)
    (kind : ChangeKind) :
    Touched db entity lo hi id kind ↔
      Touched db entity lo mid id kind ∨ Touched db entity mid hi id kind := by
  constructor
  · rintro ⟨r, hr, hentity, hafter, hupto, hid, hkind⟩
    rcases Nat.lt_or_ge mid r.modseq with hlt | hge
    · exact .inr ⟨r, hr, hentity, hlt, hupto, hid, hkind⟩
    · exact .inl ⟨r, hr, hentity, hafter, hge, hid, hkind⟩
  · rintro (⟨r, hr, hentity, hafter, hupto, hid, hkind⟩ | ⟨r, hr, hentity, hafter, hupto, hid, hkind⟩)
    · exact ⟨r, hr, hentity, hafter, hupto.trans hhi, hid, hkind⟩
    · exact ⟨r, hr, hentity, Nat.lt_of_le_of_lt hlo hafter, hupto, hid, hkind⟩

theorem not_touched_self (lo : Nat) (id : Id) (kind : ChangeKind) :
    ¬ Touched db entity lo lo id kind := by
  rintro ⟨r, -, -, hafter, hupto, -⟩
  exact Nat.not_lt.mpr hupto hafter

theorem net_self (lo : Nat) (objects : Set Id) : net db entity lo lo objects = objects := by
  ext id
  simp [net, not_touched_self]

theorem Kept.not_destroyed (hkept : Kept db entity)
    (hcreated : Touched db entity mid hi id .created) :
    ¬ Touched db entity lo mid id .destroyed := by
  rintro ⟨r', hr', hentity', -, hupto', hid', hkind'⟩
  obtain ⟨r, hr, hentity, hafter, -, hid, hkind⟩ := hcreated
  have hlt := hkept.order r hr r' hr' hentity hentity' (hid.trans hid'.symm) hkind hkind'
  omega

theorem Kept.not_created (hkept : Kept db entity)
    (hcreated : Touched db entity mid hi id .created) :
    ¬ Touched db entity lo mid id .created := by
  rintro ⟨r', hr', hentity', -, hupto', hid', hkind'⟩
  obtain ⟨r, hr, hentity, hafter, -, hid, hkind⟩ := hcreated
  have heq := hkept.once r hr r' hr' hentity hentity' (hid.trans hid'.symm) hkind hkind'
  omega

theorem net_trans (hkept : Kept db entity) (hlo : lo ≤ mid) (hhi : mid ≤ hi)
    (objects : Set Id) :
    net db entity mid hi (net db entity lo mid objects) = net db entity lo hi objects := by
  ext id
  have hlate : Touched db entity mid hi id .created → ¬ Touched db entity lo mid id .destroyed :=
    hkept.not_destroyed
  simp only [mem_net, touched_trans hlo hhi]
  tauto

theorem replay_eq (hkept : Kept db entity) (since : Nat) (objects : Set Id) :
    replay db entity since objects = net db entity since (db.account.stateOf entity) objects := by
  have hrow : ∀ id kind, (∃ r ∈ changesAfter entity since db, r.objectId = id ∧ r.kind = kind) ↔
      Touched db entity since (db.account.stateOf entity) id kind := by
    intro id kind
    constructor
    · rintro ⟨r, hr, hid, hkind⟩
      obtain ⟨hlog, hentity, hafter⟩ := mem_changesAfter.mp hr
      exact ⟨r, hlog, hentity, hafter, hkept.state r hlog hentity, hid, hkind⟩
    · rintro ⟨r, hlog, hentity, hafter, -, hid, hkind⟩
      exact ⟨r, mem_changesAfter.mpr ⟨hlog, hentity, hafter⟩, hid, hkind⟩
  ext id
  rw [mem_net]
  apply and_congr (or_congr_right (hrow id .created))
  rw [← hrow id .destroyed]
  constructor
  · rintro hall ⟨r, hr, hid, hkind⟩
    obtain ⟨r', hr', hid', hkind', hlt⟩ := hall r hr hid hkind
    obtain ⟨hlog, hentity, -⟩ := mem_changesAfter.mp hr
    obtain ⟨hlog', hentity', -⟩ := mem_changesAfter.mp hr'
    have horder := hkept.order r' hlog' r hlog hentity' hentity (hid'.trans hid.symm) hkind' hkind
    omega
  · intro hnone r hr hid hkind
    exact absurd ⟨r, hr, hid, hkind⟩ hnone

theorem Window.apply_eq (hwindow : Window db entity d)
    (hclient : ∀ id, Touched db entity d.oldState d.newState id .created → id ∉ objects) :
    JmapDelta.apply objects d = net db entity d.oldState d.newState objects := by
  ext id
  have hnew := hclient id
  rw [JmapDelta.mem_apply, mem_net, hwindow.created, hwindow.destroyed]
  tauto

theorem answers_cases (hkept : Kept db entity) {maxChanges since : Nat}
    (hvalid : Valid db entity since) (h : Answers db entity maxChanges since d) :
    (since = db.account.stateOf entity ∧ d = ⟨since, since, false, [], [], []⟩) ∨
      (d.oldState = since ∧ since < d.newState ∧ d.newState ≤ db.account.stateOf entity ∧
        (d.hasMoreChanges = false → d.newState = db.account.stateOf entity) ∧
        (d.hasMoreChanges = true → d.newState < db.account.stateOf entity) ∧
        Window db entity d) := by
  rcases Nat.lt_or_eq_of_le hvalid.2 with hbehind | rfl
  · obtain ⟨d', h', hpage⟩ := answers_behind hkept maxChanges hvalid hbehind
    rw [Answers, h'] at h
    cases h
    exact .inr hpage
  · left
    have hguard : ¬ (db.account.stateOf entity < db.account.changelogFloor ∨
        db.account.stateOf entity < db.account.stateOf entity) := by
      simpa using hvalid.1
    simp only [Answers, jmapChanges, Reads.on_select_bind, if_neg hguard, if_pos] at h
    cases h
    exact ⟨rfl, rfl⟩

theorem exists_paged (hkept : Kept db entity) (maxChanges : Nat)
    (hvalid : Valid db entity since) : ∃ pages, Paged db entity maxChanges since pages := by
  induction hn : db.account.stateOf entity - since using Nat.strong_induction_on
    generalizing since with
  | _ n ih =>
    rcases Nat.lt_or_eq_of_le hvalid.2 with hbehind | heq
    · obtain ⟨d, h, hold, hlt, hle, -⟩ := answers_behind hkept maxChanges hvalid hbehind
      cases hmore : d.hasMoreChanges with
      | false => exact ⟨[d], .last h hmore⟩
      | true =>
        obtain ⟨pages, hrest⟩ := ih (db.account.stateOf entity - d.newState) (by omega)
          ⟨hvalid.1.trans hlt.le, hle⟩ rfl
        exact ⟨d :: pages, .more h hmore hrest⟩
    · refine ⟨[⟨since, since, false, [], [], []⟩], .last ?_ rfl⟩
      have hguard : ¬ (since < db.account.changelogFloor ∨ db.account.stateOf entity < since) := by
        rintro (h | h)
        · exact Nat.not_lt.mpr hvalid.1 h
        · exact Nat.not_lt.mpr hvalid.2 h
      simp only [Answers, jmapChanges, Reads.on_select_bind, if_neg hguard, if_pos heq]
      rfl

theorem Paged.spec (hkept : Kept db entity) {maxChanges since : Nat} {pages : List JmapDelta}
    (h : Paged db entity maxChanges since pages) (hvalid : Valid db entity since)
    (hclient : ∀ id, Touched db entity since (db.account.stateOf entity) id .created → id ∉ objects) :
    pages.foldl JmapDelta.apply objects =
        net db entity since (db.account.stateOf entity) objects ∧
      (∀ d ∈ pages, d.oldState < d.newState ∨ since = db.account.stateOf entity) ∧
      (∀ d ∈ pages, ∀ id ∈ d.created, id ∉ d.destroyed) ∧
      ∀ id kind, Touched db entity since (db.account.stateOf entity) id kind →
        id ∈ net db entity since (db.account.stateOf entity) objects →
        ∃ d ∈ pages, id ∈ d.created ∨ id ∈ d.updated := by
  -- a window tells what happened to what is left in the end
  have hseen : ∀ d : JmapDelta, Window db entity d → ∀ id kind,
      Touched db entity d.oldState d.newState id kind →
      ¬ Touched db entity d.oldState d.newState id .destroyed → id ∈ d.created ∨ id ∈ d.updated := by
    intro d hwindow id kind htouched hnot
    rw [hwindow.created, hwindow.updated]
    cases kind <;> tauto
  have hdisjoint : ∀ d : JmapDelta, Window db entity d → ∀ id ∈ d.created, id ∉ d.destroyed := by
    intro d hwindow id hcreated hdestroyed
    exact ((hwindow.created id).mp hcreated).2 ((hwindow.destroyed id).mp hdestroyed).2
  induction h generalizing objects with
  | @last since d h hdone =>
    rcases answers_cases hkept hvalid h with ⟨heq, rfl⟩ | ⟨hold, hlt, hle, hend, -, hwindow⟩
    · refine ⟨?_, by simp [heq], by simp, fun id kind htouched => ?_⟩
      · rw [← heq, net_self]
        ext id
        simp [JmapDelta.apply]
      · rw [← heq] at htouched
        exact absurd htouched (not_touched_self _ _ _)
    · subst hold
      have hnew := hend hdone
      rw [← hnew] at hclient ⊢
      refine ⟨hwindow.apply_eq hclient, by simp [hlt], by simpa using hdisjoint d hwindow, ?_⟩
      intro id kind htouched hin
      exact ⟨d, by simp, hseen d hwindow id kind htouched hin.2⟩
  | @more since d pages h hmore hrest ih =>
    rcases answers_cases hkept hvalid h with ⟨-, rfl⟩ | ⟨hold, hlt, hle, -, hleft, hwindow⟩
    · cases hmore
    · subst hold
      have hfirst : JmapDelta.apply objects d = net db entity d.oldState d.newState objects :=
        hwindow.apply_eq fun id hid =>
          hclient id ((touched_trans hlt.le hle id .created).mpr (.inl hid))
      have hnext : ∀ id, Touched db entity d.newState (db.account.stateOf entity) id .created →
          id ∉ net db entity d.oldState d.newState objects := by
        rintro id hid ⟨hobjects | hcreated, -⟩
        · exact hclient id ((touched_trans hlt.le hle id .created).mpr (.inr hid)) hobjects
        · exact hkept.not_created hid hcreated
      obtain ⟨hnet, hforward, hapart, hfound⟩ := ih ⟨hvalid.1.trans hlt.le, hle⟩ hnext
      rw [net_trans hkept hlt.le hle] at hnet hfound
      refine ⟨by rw [List.foldl_cons, hfirst, hnet], ?_, ?_, ?_⟩
      · intro d' hd'
        rcases List.mem_cons.mp hd' with rfl | hd'
        · exact .inl hlt
        · rcases hforward d' hd' with hless | heq
          · exact .inl hless
          · exact absurd heq (hleft hmore).ne
      · intro d' hd'
        rcases List.mem_cons.mp hd' with rfl | hd'
        · exact hdisjoint _ hwindow
        · exact hapart d' hd'
      · intro id kind htouched hin
        rcases (touched_trans hlt.le hle id kind).mp htouched with hhere | hlater
        · refine ⟨d, List.mem_cons_self, hseen d hwindow id kind hhere fun hgone => hin.2 ?_⟩
          exact (touched_trans hlt.le hle id .destroyed).mpr (.inl hgone)
        · obtain ⟨d', hd', hd''⟩ := hfound id kind hlater hin
          exact ⟨d', List.mem_cons_of_mem _ hd', hd''⟩

end

/-- A client that goes from page to page comes to an end. Each page goes forward, unless the
client was up to date; together they do to its objects what the log does, and what one page
without a limit does; what changed and is still there was in some page. -/
theorem changes_paging (db : Db) (entity : Entity) (maxChanges since : Nat)
    (hkept : Kept db entity) (hvalid : Valid db entity since) (objects : Set Id)
    (hclient : ∀ r ∈ changesAfter entity since db, r.kind = .created → r.objectId ∉ objects) :
    (∃ pages, Paged db entity maxChanges since pages) ∧
    ∀ pages, Paged db entity maxChanges since pages →
      (∀ d ∈ pages, d.oldState < d.newState ∨ since = db.account.stateOf entity) ∧
      pages.foldl JmapDelta.apply objects = replay db entity since objects ∧
      (∀ limit whole, Answers db entity limit since whole → whole.hasMoreChanges = false →
        JmapDelta.apply objects whole = replay db entity since objects) ∧
      (∀ d ∈ pages, ∀ id ∈ d.created, id ∉ d.destroyed) ∧
      ∀ r ∈ changesAfter entity since db, r.objectId ∈ replay db entity since objects →
        ∃ d ∈ pages, r.objectId ∈ d.created ∨ r.objectId ∈ d.updated := by
  have hnew : ∀ id, Touched db entity since (db.account.stateOf entity) id .created →
      id ∉ objects := by
    rintro id ⟨r, hr, hentity, hafter, -, rfl, hkind⟩
    exact hclient r (mem_changesAfter.mpr ⟨hr, hentity, hafter⟩) hkind
  refine ⟨exists_paged hkept maxChanges hvalid, fun pages hpages => ?_⟩
  rw [replay_eq hkept]
  obtain ⟨hnet, hforward, hapart, hfound⟩ := hpages.spec hkept hvalid hnew
  refine ⟨hforward, hnet, ?_, hapart, ?_⟩
  · intro limit whole hanswer hdone
    have hone := (Paged.last hanswer hdone).spec hkept hvalid hnew
    exact hone.1
  · intro r hr hin
    obtain ⟨hlog, hentity, hafter⟩ := mem_changesAfter.mp hr
    exact hfound r.objectId r.kind
      ⟨r, hlog, hentity, hafter, hkept.state r hlog hentity, rfl, rfl⟩ hin

/-- Two mails come and the first one goes. -/
def threeChanges : Db :=
  { account := { stateEmail := 3 }
    changeLog :=
      [⟨1, .email, ['a'], .created, 0⟩, ⟨2, .email, ['b'], .created, 0⟩,
        ⟨3, .email, ['a'], .destroyed, 0⟩] }

theorem changes_paging_three :
    ∃ pages, Paged threeChanges .email 1 0 pages ∧
      pages.foldl JmapDelta.apply ∅ = replay threeChanges .email 0 ∅ := by
  obtain ⟨⟨pages, hpages⟩, hall⟩ := changes_paging threeChanges .email 1 0
    ⟨by decide, by decide, by simp [threeChanges]⟩ ⟨by decide, by decide⟩ ∅
    fun _ _ _ => Set.notMem_empty _
  exact ⟨pages, hpages, (hall pages hpages).2.1⟩

/-- A mail comes, goes, and comes again under its old id. -/
def createdAgain : Db :=
  { account := { stateEmail := 3 }
    changeLog :=
      [⟨1, .email, ['a'], .created, 0⟩, ⟨2, .email, ['a'], .destroyed, 0⟩,
        ⟨3, .email, ['a'], .created, 0⟩] }

theorem changes_paging_fails :
    (¬ ∀ (db : Db) (entity : Entity) (maxChanges since : Nat), 1 ≤ maxChanges →
      Valid db entity since → ∀ pages, Paged db entity maxChanges since pages →
        ∀ d ∈ pages, d.oldState < d.newState) ∧
    ¬ ∀ (db : Db) (entity : Entity) (maxChanges since : Nat) (whole : JmapDelta), 1 ≤ maxChanges →
      Valid db entity since → Answers db entity maxChanges since whole →
        whole.hasMoreChanges = false →
        JmapDelta.apply ∅ whole = replay db entity since ∅ := by
  constructor
  · intro h
    have hpage : Paged {} .email 1 0 [⟨0, 0, false, [], [], []⟩] := .last rfl rfl
    exact Nat.lt_irrefl 0 (h {} .email 1 0 le_rfl ⟨by decide, by decide⟩ _ hpage _
      List.mem_cons_self)
  · intro h
    have hset := h createdAgain .email 5 0 ⟨0, 3, false, [], [], []⟩ (by decide)
      ⟨by decide, by decide⟩ rfl rfl
    have hthere : (['a'] : Id) ∈ replay createdAgain .email 0 ∅ := by
      refine ⟨.inr (by decide), ?_⟩
      decide
    rw [← hset] at hthere
    simp [JmapDelta.mem_apply] at hthere

end Ionosphere.Store
