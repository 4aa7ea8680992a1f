import Mathlib.Data.List.Perm.Basic
import Ionosphere.Js.Text

/-! `WriterQueue`, of one account: writes go through a chain of promises, and items of one kind that
wait behind the same write are handed to one call of their executor. -/
namespace Ionosphere.Store.WriterQueue

open Ionosphere.Js

/-- Items are named by the order in which they were submitted. -/
structure Group where
  key : Text
  items : List Nat
  closed : Bool := false

inductive Progress where
  | waiting
  | running
  /-- The group failed as a whole, and its items before `i` have been tried alone. -/
  | alone (i : Nat)
  | settled
  deriving DecidableEq

/-- A task of the chain, of a group or not, that starts once the task at `prev` has settled. -/
structure Run where
  prev : Option Nat
  group : Option Group
  progress : Progress := .waiting

variable {ρ ε : Type*}

/-- `calls` are the executors' calls that have come back, each with its items, and `answers` what
the items were told. -/
structure Queue (ρ ε : Type*) where
  runs : List Run := []
  tail : Option Nat := none
  group : Option Nat := none
  submitted : Nat := 0
  calls : List (List Nat × Except ε (List ρ)) := []
  answers : List (Nat × Except ε (Option ρ)) := []

variable (q : Queue ρ ε)

def Queue.run (group : Option Group) : Queue ρ ε :=
  { q with runs := q.runs ++ [{ prev := q.tail, group }], tail := some q.runs.length }

/-- The group that an item can still join. -/
def Queue.openGroup (key : Text) (maxSize : Nat) : Option (Nat × Run × Group) := do
  let i ← q.group
  let r ← q.runs[i]?
  let g ← r.group
  if g.closed ∨ g.key ≠ key ∨ maxSize ≤ g.items.length then none else some (i, r, g)

def Queue.submitCoalesced (key : Text) (maxSize : Nat) : Queue ρ ε :=
  match q.openGroup key maxSize with
  | some (i, r, g) =>
    { q with runs := q.runs.set i { r with group := some { g with items := g.items ++ [q.submitted] } }
             submitted := q.submitted + 1 }
  | none =>
    { q.run (some { key, items := [q.submitted] }) with
      group := some q.runs.length
      submitted := q.submitted + 1 }

def Queue.ready (r : Run) : Bool :=
  r.progress = .waiting && r.prev.all fun p => (q.runs[p]?.map Run.progress) = some .settled

def Run.inFlight (r : Run) : Bool :=
  match r.progress with
  | .running | .alone _ => true
  | _ => false

/-- The items of the call in flight, none of a task that is no group's. -/
def Run.called (r : Run) : List Nat :=
  match r.group, r.progress with
  | some g, .running => g.items
  | some g, .alone i => g.items[i]?.toList
  | _, _ => []

/-- The items are tried one by one, from `i` on. -/
def Group.alone (g : Group) (i : Nat) : Progress := if i < g.items.length then .alone i else .settled

/-- What `runGroup` makes of the result of the call in flight. -/
def Run.finish (r : Run) (result : Except ε (List ρ)) :
    List (Nat × Except ε (Option ρ)) × Progress :=
  match r.group, r.progress, result with
  | some g, .running, .ok results => (g.items.zipIdx.map fun p => (p.1, .ok results[p.2]?), .settled)
  | some g, .running, .error e =>
    if g.items.length = 1 then (g.items.map (·, .error e), .settled) else ([], g.alone 0)
  | some g, .alone i, .ok results => (r.called.map (·, .ok results[0]?), g.alone (i + 1))
  | some g, .alone i, .error e => (r.called.map (·, .error e), g.alone (i + 1))
  | _, _, _ => ([], .settled)

inductive Move (ρ ε : Type*) where
  | run
  | submitCoalesced (key : Text) (maxSize : Nat)
  | start (i : Nat)
  | finish (i : Nat) (result : Except ε (List ρ))

def step : Move ρ ε → Queue ρ ε
  | .run => q.run none
  | .submitCoalesced key maxSize => q.submitCoalesced key maxSize
  | .start i =>
    match q.runs[i]?.filter q.ready with
    | none => q
    | some r =>
      { q with
        runs := q.runs.set i { r with
          group := r.group.map ({ · with closed := true })
          progress := .running }
        group := if r.group.isSome ∧ q.group = some i then none else q.group }
  | .finish i result =>
    match q.runs[i]?.filter Run.inFlight with
    | none => q
    | some r =>
      { q with
        runs := q.runs.set i { r with progress := (r.finish result).2 }
        calls := q.calls ++ [(r.called, result)]
        answers := q.answers ++ (r.finish result).1 }

def before : Nat → Option Nat
  | 0 => none
  | n + 1 => some n

/-- Each task waits until those before it have settled. -/
structure Serial (q : Queue ρ ε) : Prop where
  tail : q.tail = before q.runs.length
  prev : ∀ i r, q.runs[i]? = some r → r.prev = before i
  waits : ∀ (i j : Nat) (s r : Run), i < j → q.runs[i]? = some s → q.runs[j]? = some r →
    r.progress = .waiting ∨ s.progress = .settled

variable {q} {r r' : Run} {i : Nat}

theorem Serial.run (h : Serial q) (group : Option Group) : Serial (q.run group) := by
  refine ⟨by simp [Queue.run, before], fun i r hr => ?_, fun i j s r hij hs hr => ?_⟩
  · rw [Queue.run, List.getElem?_append] at hr
    split_ifs at hr with hi
    · exact h.prev i r hr
    · rw [List.getElem?_singleton] at hr
      split_ifs at hr
      cases hr
      rw [h.tail, show i = q.runs.length by omega]
  · rw [Queue.run, List.getElem?_append] at hs hr
    split_ifs at hr with hj
    · rw [if_pos (by omega)] at hs
      exact h.waits i j s r hij hs hr
    · rw [List.getElem?_singleton] at hr
      split_ifs at hr
      cases hr
      exact .inl rfl

theorem Serial.set {q' : Queue ρ ε} (h : Serial q) (hr : q.runs[i]? = some r)
    (hq : q'.runs = q.runs.set i r' ∧ q'.tail = q.tail) (hprev : r'.prev = r.prev)
    (hbefore : r'.progress = .waiting ∨ ∀ j < i, ∀ s, q.runs[j]? = some s → s.progress = .settled)
    (hafter : r.progress = .settled → r'.progress = .settled) : Serial q' := by
  have hi := (List.getElem?_eq_some_iff.mp hr).1
  refine ⟨by rw [hq.1, hq.2, List.length_set, h.tail], fun j s hs => ?_, fun j k s t hjk hs ht => ?_⟩
  · rw [hq.1, List.getElem?_set] at hs
    split_ifs at hs with hij
    · cases hs
      rw [hprev, h.prev i r hr, hij]
    · exact h.prev j s hs
  · rw [hq.1, List.getElem?_set] at hs ht
    rcases eq_or_ne i j with rfl | hij
    · rw [if_pos rfl, if_pos hi] at hs
      rw [if_neg hjk.ne] at ht
      cases hs
      exact (h.waits i k r t hjk hr ht).imp_right hafter
    · rw [if_neg hij] at hs
      split_ifs at ht with hik
      · subst hik
        cases ht
        exact hbefore.imp_right fun hsettled => hsettled j hjk s hs
      · exact h.waits j k s t hjk hs ht

theorem ready_waiting (h : q.ready r = true) : r.progress = .waiting := by
  rw [Queue.ready, Bool.and_eq_true, decide_eq_true_eq] at h
  exact h.1

theorem Serial.before_ready (h : Serial q) (hr : q.runs[i]? = some r) (hready : q.ready r = true) :
    ∀ j < i, ∀ s, q.runs[j]? = some s → s.progress = .settled := by
  intro j hj s hs
  obtain ⟨p, rfl⟩ := Nat.exists_eq_succ_of_ne_zero (show i ≠ 0 by omega)
  rw [Queue.ready, h.prev _ r hr, Bool.and_eq_true, before, Option.all_some, decide_eq_true_eq,
    decide_eq_true_eq] at hready
  obtain ⟨t, ht, hsettled⟩ := Option.map_eq_some_iff.mp hready.2
  rcases Nat.lt_or_eq_of_le (Nat.le_of_lt_succ hj) with hlt | rfl
  · exact (h.waits j p s t hlt hs ht).resolve_left (by rw [hsettled]; decide)
  · cases hs.symm.trans ht
    exact hsettled

theorem openGroup_some {key : Text} {maxSize : Nat} {g : Group}
    (h : q.openGroup key maxSize = some (i, r, g)) :
    q.runs[i]? = some r ∧ r.group = some g ∧ g.closed = false := by
  unfold Queue.openGroup at h
  simp only [Option.bind_eq_bind, Option.bind_eq_some_iff] at h
  obtain ⟨k, -, s, hs, g', hg, h⟩ := h
  split_ifs at h with hopen
  cases h
  exact ⟨hs, hg, by simpa using fun hclosed => hopen (.inl hclosed)⟩

theorem inFlight_progress (h : r.inFlight = true) : r.progress ≠ .waiting ∧ r.progress ≠ .settled := by
  unfold Run.inFlight at h
  cases hp : r.progress <;> simp_all

theorem serial_step (h : Serial q) (m : Move ρ ε) : Serial (step q m) := by
  cases m with
  | run => exact h.run none
  | submitCoalesced key maxSize =>
    rw [step, Queue.submitCoalesced]
    split
    · rename_i i r g hopen
      obtain ⟨hr, -, -⟩ := openGroup_some hopen
      refine h.set hr ⟨rfl, rfl⟩ rfl (or_iff_not_imp_left.mpr fun hstarted j hj s hs => ?_) id
      exact (h.waits j i s r hj hs hr).resolve_left hstarted
    · have hrun := h.run (some { key, items := [q.submitted] })
      exact ⟨hrun.tail, hrun.prev, hrun.waits⟩
  | start i =>
    rw [step]
    split
    · exact h
    · rename_i r hfilter
      obtain ⟨hr, hready⟩ := Option.filter_eq_some_iff.mp hfilter
      refine h.set hr ⟨rfl, rfl⟩ rfl (.inr (h.before_ready hr hready)) fun hsettled => ?_
      rw [ready_waiting hready] at hsettled
      cases hsettled
  | finish i result =>
    rw [step]
    split
    · exact h
    · rename_i r hfilter
      obtain ⟨hr, hflight⟩ := Option.filter_eq_some_iff.mp hfilter
      obtain ⟨hstarted, hleft⟩ := inFlight_progress hflight
      refine h.set hr ⟨rfl, rfl⟩ rfl (.inr fun j hj s hs => ?_) fun hsettled => absurd hsettled hleft
      exact (h.waits j i s r hj hs hr).resolve_left hstarted

/-- The items of a task that have not been answered. -/
def Run.pending (r : Run) : List Nat :=
  match r.group, r.progress with
  | some g, .waiting | some g, .running => g.items
  | some g, .alone i => g.items.drop i
  | _, _ => []

/-- An item is told its own result of a call, and it fails only if a call of it alone has failed. -/
def Told (calls : List (List Nat × Except ε (List ρ))) : Nat × Except ε (Option ρ) → Prop
  | (x, .ok v) => ∃ items results, ∃ i : Nat, (items, .ok results) ∈ calls ∧ items[i]? = some x ∧
      results[i]? = v
  | (x, .error e) => ([x], .error e) ∈ calls

def Succeeded (call : List Nat × Except ε (List ρ)) : Prop := ∃ results, call.2 = .ok results

structure Accounted (q : Queue ρ ε) : Prop where
  items : (q.answers.map Prod.fst ++ q.runs.flatMap Run.pending).Perm (List.range q.submitted)
  waits : ∀ r ∈ q.runs, ∀ g ∈ r.group, g.closed = false → r.progress = .waiting
  told : ∀ a ∈ q.answers, Told q.calls a
  spent : ∀ c ∈ q.calls, Succeeded c → c.1 ⊆ q.answers.map Prod.fst
  once : q.calls.Pairwise fun c d => Succeeded c → c.1.Disjoint d.1

theorem pending_alone (r : Run) (g : Group) (i : Nat) :
    Run.pending { r with group := some g, progress := g.alone i } = g.items.drop i := by
  unfold Group.alone
  split_ifs with hi
  · rfl
  · exact (List.drop_eq_nil_of_le (by omega)).symm

theorem told_mono {calls more : List (List Nat × Except ε (List ρ))} {a : Nat × Except ε (Option ρ)} :
    (Told calls a → Told (calls ++ more) a) ∧ (Told more a → Told (calls ++ more) a) := by
  obtain ⟨x, e | v⟩ := a
  · exact ⟨List.mem_append_left _, List.mem_append_right _⟩
  · constructor <;> rintro ⟨items, results, i, hcall, hi⟩
    · exact ⟨items, results, i, List.mem_append_left _ hcall, hi⟩
    · exact ⟨items, results, i, List.mem_append_right _ hcall, hi⟩

/-- A call that comes back answers the first of the items that wait for it, each from the call; if
it succeeded it answers all that it was given. -/
structure Finishes (r : Run) (result : Except ε (List ρ)) : Prop where
  pending : r.pending = (r.finish result).1.map Prod.fst ++
    Run.pending { r with progress := (r.finish result).2 }
  told : ∀ a ∈ (r.finish result).1, Told [(r.called, result)] a
  called : r.called ⊆ r.pending
  spent : Succeeded (r.called, result) → r.called ⊆ (r.finish result).1.map Prod.fst

variable (prev : Option Nat) (g : Group)

theorem finishes_ok (results : List ρ) :
    Finishes ⟨prev, some g, .running⟩ (.ok results : Except ε (List ρ)) := by
  have hfst : (g.items.zipIdx.map fun p =>
      (p.1, (.ok results[p.2]? : Except ε (Option ρ)))).map Prod.fst = g.items := by
    rw [List.map_map]
    exact List.zipIdx_map_fst 0 g.items
  refine ⟨(congrArg (· ++ []) hfst).trans (List.append_nil _) |>.symm, fun a ha => ?_,
    List.Subset.refl _, fun _ => hfst.symm ▸ List.Subset.refl _⟩
  obtain ⟨p, hp, rfl⟩ := List.mem_map.mp ha
  exact ⟨g.items, results, p.2, List.mem_singleton_self _, List.mem_zipIdx_iff_getElem?.mp hp, rfl⟩

theorem finishes_error (e : ε) :
    Finishes ⟨prev, some g, .running⟩ (.error e : Except ε (List ρ)) := by
  refine ⟨?_, fun a ha => ?_, List.Subset.refl _, fun ⟨results, hno⟩ => by cases hno⟩ <;>
    by_cases hone : g.items.length = 1
  · obtain ⟨x, hx⟩ := List.length_eq_one_iff.mp hone
    simp [Run.finish, Run.pending, hx]
  · simp only [Run.finish, if_neg hone]
    exact (pending_alone ⟨prev, some g, .running⟩ g 0).symm
  · obtain ⟨x, hx⟩ := List.length_eq_one_iff.mp hone
    obtain rfl : a = (x, .error e) := by simpa [Run.finish, hx] using ha
    simp [Told, Run.called, hx]
  · simp [Run.finish, hone] at ha

theorem finishes_alone (i : Nat) (result : Except ε (List ρ)) :
    Finishes ⟨prev, some g, .alone i⟩ result := by
  have hrest : g.items.drop i = g.items[i]?.toList ++ g.items.drop (i + 1) :=
    List.drop_eq_getElem?_toList_append
  have hone : (Run.finish ⟨prev, some g, .alone i⟩ result).1.map Prod.fst = g.items[i]?.toList ∧
      (Run.finish ⟨prev, some g, .alone i⟩ result).2 = g.alone (i + 1) := by
    cases result <;> simp [Run.finish, Run.called, Function.comp_def]
  refine ⟨?_, fun a ha => ?_, fun x hx => ?_, fun _ => hone.1 ▸ List.Subset.refl _⟩
  · rw [hone.1, hone.2, pending_alone ⟨prev, some g, .alone i⟩]
    exact hrest
  · cases hx : g.items[i]? with
    | none => cases result <;> simp [Run.finish, Run.called, hx] at ha
    | some x => cases result with
      | ok results =>
        obtain rfl : a = (x, .ok results[0]?) := by simpa [Run.finish, Run.called, hx] using ha
        exact ⟨[x], results, 0, by simp [Run.called, hx], rfl, rfl⟩
      | error e =>
        obtain rfl : a = (x, .error e) := by simpa [Run.finish, Run.called, hx] using ha
        simp [Told, Run.called, hx]
  · exact (congrArg (x ∈ ·) hrest).mpr (List.mem_append_left _ hx)

theorem finishes (h : r.inFlight = true) (result : Except ε (List ρ)) : Finishes r result := by
  obtain ⟨prev, group, progress⟩ := r
  cases group with
  | none =>
    exact ⟨rfl, fun a ha => (List.not_mem_nil ha).elim, List.Subset.refl _, fun _ => List.Subset.refl _⟩
  | some g =>
    cases progress with
    | waiting | settled => cases h
    | running =>
      cases result with
      | ok results => exact finishes_ok prev g results
      | error e => exact finishes_error prev g e
    | alone i => exact finishes_alone prev g i result

theorem flatMap_set {runs : List Run} (hr : runs[i]? = some r) {x y : List Nat}
    (h : (y ++ r.pending).Perm (x ++ r'.pending)) :
    (y ++ runs.flatMap Run.pending).Perm (x ++ (runs.set i r').flatMap Run.pending) := by
  obtain ⟨hi, rfl⟩ := List.getElem?_eq_some_iff.mp hr
  have hold := (List.getElem_cons_eraseIdx_perm hi).flatMap_right Run.pending
  have hnew := (List.set_perm_cons_eraseIdx hi r').flatMap_right Run.pending
  rw [List.flatMap_cons] at hold hnew
  refine (hold.symm.append_left y).trans (.trans ?_ (hnew.symm.append_left x))
  rw [← List.append_assoc, ← List.append_assoc]
  exact h.append_right _

theorem Accounted.run (h : Accounted q) {g : Option Group} {n : Nat}
    (hitems : List.range n = List.range q.submitted ++ (g.map Group.items).getD []) :
    Accounted { q.run g with submitted := n } := by
  refine ⟨?_, fun r hr g' hg hopen => ?_, h.told, h.spent, h.once⟩
  · have hpending : Run.pending { prev := q.tail, group := g } = (g.map Group.items).getD [] := by
      cases g <;> rfl
    rw [Queue.run, List.flatMap_append, List.flatMap_singleton, hpending, ← List.append_assoc, hitems]
    exact h.items.append_right _
  · rcases List.mem_append.mp hr with hr | hr
    · exact h.waits r hr g' hg hopen
    · rw [List.mem_singleton.mp hr]

theorem Accounted.waits_set (h : Accounted q)
    (h' : ∀ g ∈ r'.group, g.closed = false → r'.progress = .waiting) :
    ∀ r ∈ q.runs.set i r', ∀ g ∈ r.group, g.closed = false → r.progress = .waiting := by
  intro s hs
  rcases List.mem_or_eq_of_mem_set hs with hs | rfl
  · exact h.waits s hs
  · exact h'

theorem accounted_step (h : Accounted q) (m : Move ρ ε) : Accounted (step q m) := by
  cases m with
  | run => exact h.run (g := none) (by simp)
  | submitCoalesced key maxSize =>
    rw [step, Queue.submitCoalesced]
    split
    · rename_i i r g hopen
      obtain ⟨hr, hg, hclosed⟩ := openGroup_some hopen
      have hwaiting := h.waits r (List.mem_of_getElem? hr) g hg hclosed
      refine ⟨?_, h.waits_set fun g _ _ => hwaiting, h.told, h.spent, h.once⟩
      refine (flatMap_set (y := q.answers.map Prod.fst ++ [q.submitted]) hr ?_).symm.trans ?_
      · simp only [Run.pending, hg, hwaiting, List.append_assoc]
        exact List.perm_append_comm.append_left _
      · rw [List.append_assoc, List.range_succ]
        refine (List.perm_append_comm.append_left _).trans ?_
        rw [← List.append_assoc]
        exact h.items.append_right _
    · have hrun := h.run (g := some { key, items := [q.submitted] }) List.range_succ
      exact ⟨hrun.items, hrun.waits, hrun.told, hrun.spent, hrun.once⟩
  | start i =>
    rw [step]
    split
    · exact h
    · rename_i r hfilter
      obtain ⟨hr, hready⟩ := Option.filter_eq_some_iff.mp hfilter
      refine ⟨?_, h.waits_set fun g hg hno => ?_, h.told, h.spent, h.once⟩
      · refine (flatMap_set hr ?_).symm.trans h.items
        simp only [Run.pending, ready_waiting hready]
        cases r.group <;> exact List.Perm.refl _
      · obtain ⟨g', -, rfl⟩ := Option.map_eq_some_iff.mp hg
        cases hno
  | finish i result =>
    rw [step]
    split
    · exact h
    · rename_i r hfilter
      obtain ⟨hr, hflight⟩ := Option.filter_eq_some_iff.mp hfilter
      have hfinish := finishes hflight result
      have hwait : ∀ x ∈ r.called, x ∉ q.answers.map Prod.fst := fun x hx hanswered =>
        (List.nodup_append.mp (h.items.nodup_iff.mpr List.nodup_range)).2.2 x hanswered x
          (List.mem_flatMap.mpr ⟨r, List.mem_of_getElem? hr, hfinish.called hx⟩) rfl
      refine ⟨?_, h.waits_set fun g hg hopen => ?_, fun a ha => ?_, fun c hc hsuccess => ?_, ?_⟩
      · rw [List.map_append]
        refine (flatMap_set hr ?_).symm.trans h.items
        rw [List.append_assoc, ← hfinish.pending]
      · exact absurd (h.waits r (List.mem_of_getElem? hr) g hg hopen) (inFlight_progress hflight).1
      · exact (List.mem_append.mp ha).elim (fun ha => told_mono.1 (h.told a ha))
          fun ha => told_mono.2 (hfinish.told a ha)
      · rw [List.map_append]
        rcases List.mem_append.mp hc with hc | hc
        · exact List.subset_append_of_subset_left _ (h.spent c hc hsuccess)
        · rw [List.mem_singleton.mp hc] at hsuccess ⊢
          exact List.subset_append_of_subset_right _ (hfinish.spent hsuccess)
      · refine List.pairwise_append.mpr ⟨h.once, List.pairwise_singleton _ _, ?_⟩
        intro c hc d hd hsuccess x hx hx'
        rw [List.mem_singleton.mp hd] at hx'
        exact hwait x hx' (h.spent c hc hsuccess hx)

theorem settled_of_idle (h : Serial q)
    (hidle : ∀ r ∈ q.runs, ¬ (q.ready r = true ∨ r.inFlight = true)) :
    ∀ (i : Nat) (r : Run), q.runs[i]? = some r → r.progress = .settled := by
  intro i
  induction i with
  | zero =>
    intro r hr
    have hr' := hidle r (List.mem_of_getElem? hr)
    rw [Queue.ready, h.prev 0 r hr] at hr'
    unfold Run.inFlight at hr'
    cases hp : r.progress <;> simp_all [before]
  | succ i ih =>
    intro r hr
    have hr' := hidle r (List.mem_of_getElem? hr)
    have hi := (List.getElem?_eq_some_iff.mp hr).1
    have hlast := ih q.runs[i] (List.getElem?_eq_getElem (by omega))
    rw [Queue.ready, h.prev _ r hr, before, Option.all_some, List.getElem?_eq_getElem (by omega),
      Option.map_some, hlast] at hr'
    unfold Run.inFlight at hr'
    cases hp : r.progress <;> simp_all

variable (moves : List (Move ρ ε))

theorem queue_sound :
    Serial (moves.foldl step ({} : Queue ρ ε)) ∧ Accounted (moves.foldl step ({} : Queue ρ ε)) := by
  have hall : ∀ q : Queue ρ ε, Serial q ∧ Accounted q →
      Serial (moves.foldl step q) ∧ Accounted (moves.foldl step q) := by
    induction moves with
    | nil => exact fun _ h => h
    | cons m moves ih => exact fun q h => ih _ ⟨serial_step h.1 m, accounted_step h.2 m⟩
  exact hall {} ⟨⟨rfl, by simp, by simp⟩, ⟨by simp, by simp, by simp, by simp, List.Pairwise.nil⟩⟩

/-- Tasks never overlap, and they start in the order in which they came. -/
theorem tasks_serial : Serial (moves.foldl step ({} : Queue ρ ε)) := (queue_sound moves).1

/-- Every item is answered once or still waits, with its own result or the failure of a call of it
alone; nothing that succeeded is called again; and while an item waits some task can go on. -/
theorem items_answered :
    let q : Queue ρ ε := moves.foldl step {}
    (q.answers.map Prod.fst ++ q.runs.flatMap Run.pending).Perm (List.range q.submitted) ∧
      (∀ a ∈ q.answers, Told q.calls a) ∧
      (q.calls.Pairwise fun c d => Succeeded c → c.1.Disjoint d.1) ∧
      ((∃ r ∈ q.runs, q.ready r = true ∨ r.inFlight = true) ∨
        (q.answers.map Prod.fst).Perm (List.range q.submitted)) := by
  intro q
  obtain ⟨hserial, h⟩ := queue_sound moves
  refine ⟨h.items, h.told, h.once, or_iff_not_imp_left.mpr fun hidle => ?_⟩
  have hnone : q.runs.flatMap Run.pending = [] := by
    refine List.flatMap_eq_nil_iff.mpr fun r hr => ?_
    obtain ⟨i, hi⟩ := List.mem_iff_getElem?.mp hr
    have hsettled := settled_of_idle hserial (fun r hr hgo => hidle ⟨r, hr, hgo⟩) i r hi
    unfold Run.pending
    rw [hsettled]
    cases r.group <;> rfl
  have hitems := h.items
  change (q.answers.map Prod.fst ++ q.runs.flatMap Run.pending).Perm (List.range q.submitted) at hitems
  rwa [hnone, List.append_nil] at hitems

end Ionosphere.Store.WriterQueue
