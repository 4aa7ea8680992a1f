import Ionosphere.Core.Totp
import Ionosphere.Lib.Slots

/-! The second factor of a web login: attempts that race on one row, one statement at a time. -/
namespace Ionosphere.Store.SecondFactor

open Ionosphere.Js Ionosphere.Core

def freeFailures : Nat := 5

def baseLockMs : Nat := 60000

def maxLockMs : Nat := 24 * 60 * 60 * 1000

def lockUntilAfter (failures nowMs : Nat) : Option Nat :=
  if failures < freeFailures then none
  else some (nowMs + min (baseLockMs * 2 ^ min (failures - freeFailures) 30) maxLockMs)

structure MfaRow where
  active : Bool := true
  totpSecret : Option Text := none
  totpPendingSecret : Option Text := none
  totpLastStep : Option Nat := none
  totpFailures : Nat := 0
  totpLockedUntil : Option Nat := none

/-- What a request holds of what it was given and of the row that it read first. -/
inductive Factor where
  | totp (code secret : Text) (lastStep : Option Nat)
  | enrollment (code pending : Text) (recovery : List Text)
  | recovery (codeHash : Text)

/-- The statement that a request sends next. -/
inductive Phase where
  | claim
  | count
  | lock (failures : Nat)
  | settle
  | renew
  | done

structure Attempt where
  now : Nat
  factor : Factor
  phase : Phase := .claim

/-- `accepted` and `redeemed` are the steps and the recovery codes let in since the secret and the
codes were last replaced, and `claims` the clocks of the attempts that took a slot; no statement
reads them. -/
structure MfaWorld where
  row : MfaRow := {}
  recovery : List Text := []
  attempts : List Attempt := []
  accepted : List Nat := []
  redeemed : List Text := []
  claims : List Nat := []

def MfaRow.cleared (row : MfaRow) : MfaRow :=
  { row with totpSecret := none, totpPendingSecret := none, totpLastStep := none, totpFailures := 0
             totpLockedUntil := none }

/-- Whether an attempt may take a slot at its clock. -/
def MfaRow.open (row : MfaRow) (now : Nat) : Prop :=
  row.totpFailures < freeFailures ∨ ∃ until_ ∈ row.totpLockedUntil, until_ ≤ now

instance (row : MfaRow) (now : Nat) : Decidable (row.open now) :=
  inferInstanceAs (Decidable (_ ∨ ∃ until_ ∈ row.totpLockedUntil, until_ ≤ now))

variable (verify : Text → Text → Nat → Option Nat → Option Nat)

/-- The last statements of an attempt: its check, and the write that the check leads to. -/
def settle (a : Attempt) (w : MfaWorld) : MfaWorld × Phase :=
  match a.factor with
  | .totp code secret lastStep =>
    match verify secret code a.now lastStep with
    | none => (w, .done)
    | some step =>
      if ∀ last ∈ w.row.totpLastStep, last < step then
        ({ w with row := { w.row with totpLastStep := some step, totpFailures := 0
                                      totpLockedUntil := none }
                  accepted := w.accepted ++ [step] }, .done)
      else (w, .done)
  | .enrollment code pending _ =>
    match verify pending code a.now none with
    | none => (w, .done)
    | some step =>
      if w.row.totpSecret = none ∧ w.row.totpPendingSecret = some pending then
        ({ w with row := { w.row with totpSecret := some pending, totpPendingSecret := none
                                      totpLastStep := some step, totpFailures := 0
                                      totpLockedUntil := none }
                  accepted := [step] }, .renew)
      else (w, .done)
  | .recovery codeHash =>
    if codeHash ∈ w.recovery then
      ({ w with recovery := w.recovery.filter (· ≠ codeHash)
                redeemed := w.redeemed ++ [codeHash] }, .renew)
    else (w, .done)

/-- The batch after the one that was won. -/
def renew (a : Attempt) (w : MfaWorld) : MfaWorld :=
  match a.factor with
  | .totp .. => w
  | .enrollment _ _ recovery => { w with recovery, redeemed := [] }
  | .recovery _ => { w with row := w.row.cleared, accepted := [] }

/-- The next statement of an attempt. -/
def statement (a : Attempt) (w : MfaWorld) : MfaWorld × Phase :=
  match a.phase with
  | .claim =>
    if w.row.open a.now then
      ({ w with row := { w.row with totpFailures := w.row.totpFailures + 1, totpLockedUntil := none }
                claims := w.claims ++ [a.now] }, .count)
    else (w, .done)
  | .count => (w, .lock w.row.totpFailures)
  | .lock failures =>
    match lockUntilAfter failures a.now with
    | none => (w, .settle)
    | some until_ => ({ w with row := { w.row with totpLockedUntil := some until_ } }, .settle)
  | .settle => settle verify a w
  | .renew => (renew a w, .done)
  | .done => (w, .done)

inductive Request where
  | login (code : Text)
  | confirm (code : Text) (recovery : List Text)
  | redeem (codeHash : Text)

/-- The row as a request reads it first, if it goes on. -/
def MfaRow.begin (row : MfaRow) : Request → Option Factor
  | .login code =>
    if row.active then row.totpSecret.map (Factor.totp code · row.totpLastStep) else none
  | .confirm code recovery =>
    if row.active ∧ row.totpSecret = none then
      row.totpPendingSecret.map (Factor.enrollment code · recovery)
    else none
  | .redeem codeHash => some (.recovery codeHash)

inductive MfaMove where
  | begin (now : Nat) (request : Request)
  | next (i : Nat)
  | enroll (secret : Text)
  | reset
  | setActive (active : Bool)

def mfaStep (w : MfaWorld) : MfaMove → MfaWorld
  | .begin now request =>
    { w with attempts := w.attempts ++ ((w.row.begin request).map fun factor =>
        ({ now, factor } : Attempt)).toList }
  | .next i =>
    match w.attempts[i]? with
    | none => w
    | some a =>
      let out := statement verify a w
      { out.1 with attempts := w.attempts.set i { a with phase := out.2 } }
  | .enroll secret =>
    if w.row.active ∧ w.row.totpSecret = none then
      { w with row := { w.row with totpPendingSecret := some secret } }
    else w
  | .reset => { w with row := w.row.cleared, recovery := [], accepted := [], redeemed := [] }
  | .setActive active => { w with row := { w.row with active } }

/-- The steps that were let in came in their order, and no recovery code is left that was used. -/
structure Admitted (accepted : List Nat) (lastStep : Option Nat) (redeemed recovery : List Text) : Prop where
  ordered : accepted.Pairwise (· < ·)
  last : accepted.getLast? = lastStep
  spent : redeemed.Nodup
  gone : ∀ c ∈ redeemed, c ∉ recovery

def InOrder (w : MfaWorld) : Prop := Admitted w.accepted w.row.totpLastStep w.redeemed w.recovery

variable {verify} {w : MfaWorld} {a : Attempt}

theorem InOrder.accept (h : InOrder w) {step : Nat} (hstep : ∀ last ∈ w.row.totpLastStep, last < step) :
    (w.accepted ++ [step]).Pairwise (· < ·) := by
  refine List.pairwise_append.mpr ⟨h.ordered, List.pairwise_singleton _ _, fun s hs s' hs' => ?_⟩
  rw [List.mem_singleton.mp hs']
  obtain ⟨last, hlast⟩ := Option.ne_none_iff_exists'.mp
    (mt List.getLast?_eq_none_iff.mp (List.ne_nil_of_mem hs))
  have hlt : last < step := hstep last (h.last ▸ hlast)
  have hordered := h.ordered
  rw [← List.dropLast_append_getLast? last hlast] at hs hordered
  rcases List.mem_append.mp hs with hs | hs
  · exact ((List.pairwise_append.mp hordered).2.2 s hs last (List.mem_singleton_self _)).trans hlt
  · exact (List.mem_singleton.mp hs) ▸ hlt

theorem inOrder_settle (h : InOrder w) : InOrder (settle verify a w).1 := by
  unfold settle
  split
  · split
    · exact h
    · split_ifs with hstep
      · exact ⟨h.accept hstep, by simp, h.spent, h.gone⟩
      · exact h
  · split
    · exact h
    · split_ifs
      · exact ⟨List.pairwise_singleton _ _, rfl, h.spent, h.gone⟩
      · exact h
  · split_ifs with hleft
    · refine ⟨h.ordered, h.last, List.nodup_append.mpr ⟨h.spent, by simp, ?_⟩, fun c hc => ?_⟩
      · intro c hc c' hc' heq
        exact h.gone c hc (heq ▸ (List.mem_singleton.mp hc') ▸ hleft)
      · rw [List.mem_filter, decide_eq_true_eq, not_and_not_right]
        intro hin
        exact (List.mem_append.mp hc).elim (fun hc => absurd hin (h.gone c hc)) List.mem_singleton.mp
    · exact h

variable (verify a) in
theorem inOrder_statement (h : InOrder w) : InOrder (statement verify a w).1 := by
  unfold statement
  split
  · split_ifs <;> exact h
  · exact h
  · split <;> exact h
  · exact inOrder_settle h
  · unfold renew
    split
    · exact h
    · exact ⟨h.ordered, h.last, List.nodup_nil, List.forall_mem_nil _⟩
    · exact ⟨List.Pairwise.nil, rfl, h.spent, h.gone⟩
  · exact h

theorem inOrder_step (h : InOrder w) (m : MfaMove) : InOrder (mfaStep verify w m) := by
  cases m with
  | begin now request => exact h
  | next i =>
    rw [mfaStep]
    split
    · exact h
    · exact inOrder_statement verify _ h
  | enroll secret =>
    rw [mfaStep]
    split_ifs <;> exact h
  | reset => exact ⟨List.Pairwise.nil, rfl, List.nodup_nil, List.forall_mem_nil _⟩
  | setActive active => exact h

/-- However the requests race, no step of the code generator is let in twice between two changes of
the secret, nor one before a step that was let in, and no recovery code is redeemed twice. -/
theorem second_factor_once (moves : List MfaMove) :
    (moves.foldl (mfaStep verify) {}).accepted.Pairwise (· < ·) ∧
      (moves.foldl (mfaStep verify) {}).redeemed.Nodup := by
  have hall : ∀ w, InOrder w → InOrder (moves.foldl (mfaStep verify) w) := by
    induction moves with
    | nil => exact fun w h => h
    | cons m moves ih => exact fun w h => ih _ (inOrder_step h m)
  have h := hall {} ⟨List.Pairwise.nil, rfl, List.nodup_nil, List.forall_mem_nil _⟩
  exact ⟨h.ordered, h.spent⟩

/-- The attempts with a clock before `t` that may still write a lock. -/
def mayLock (t : Nat) (a : Attempt) : Bool :=
  a.now < t && match a.phase with
    | .count | .lock _ => true
    | _ => false

def lockBefore (t : Nat) (lockedUntil : Option Nat) : Nat :=
  if ∃ until_ ∈ lockedUntil, until_ < t then 1 else 0

/-- A slot behind the free ones is one that a lock opened, and a lock is written by an attempt that
took its slot at least `baseLockMs` before. -/
def Paced (w : MfaWorld) : Prop := ∀ t, w.claims.countP (· < t + baseLockMs) +
  w.attempts.countP (mayLock t) + lockBefore (t + baseLockMs) w.row.totpLockedUntil ≤
    min w.row.totpFailures freeFailures + w.claims.countP (· < t)

theorem lockUntilAfter_le {failures now until_ : Nat} (h : lockUntilAfter failures now = some until_) :
    now + baseLockMs ≤ until_ := by
  unfold lockUntilAfter at h
  split_ifs at h
  cases h
  have hpos : 0 < 2 ^ min (failures - freeFailures) 30 := Nat.two_pow_pos _
  have hbase : baseLockMs ≤ baseLockMs * 2 ^ min (failures - freeFailures) 30 :=
    Nat.le_mul_of_pos_right _ hpos
  have hmax : baseLockMs ≤ maxLockMs := by decide
  omega

theorem countP_set {p : Attempt → Bool} {as : List Attempt} {i : Nat} {b : Attempt}
    (h : as[i]? = some a) : (as.set i b).countP p + (p a).toNat = as.countP p + (p b).toNat := by
  obtain ⟨hi, rfl⟩ := List.getElem?_eq_some_iff.mp h
  have hset := (List.set_perm_cons_eraseIdx hi b).countP_eq p
  have hold := (List.getElem_cons_eraseIdx_perm hi).countP_eq p
  rw [List.countP_cons] at hset hold
  rw [hset, ← hold]
  cases p as[i] <;> cases p b <;> simp

theorem lockBefore_none (t : Nat) : lockBefore t none = 0 := by simp [lockBefore]

theorem Paced.keep {w' : MfaWorld} (h : Paced w) (hclaims : w'.claims = w.claims)
    (hfailures : w.row.totpFailures ≤ w'.row.totpFailures)
    (hattempts : ∀ t, w'.attempts.countP (mayLock t) ≤ w.attempts.countP (mayLock t))
    (hlock : w'.row.totpLockedUntil = none ∨ w'.row.totpLockedUntil = w.row.totpLockedUntil) :
    Paced w' := by
  intro t
  have ht := h t
  have hpending := hattempts t
  have hlocked : lockBefore (t + baseLockMs) w'.row.totpLockedUntil ≤
      lockBefore (t + baseLockMs) w.row.totpLockedUntil := by
    rcases hlock with hnone | hsame
    · rw [hnone, lockBefore_none]
      exact Nat.zero_le _
    · rw [hsame]
  rw [hclaims]
  omega

theorem paced_claim {i : Nat} (h : Paced w) (ha : w.attempts[i]? = some a) (hphase : a.phase = .claim)
    (hopen : w.row.open a.now) :
    Paced { w with
      row := { w.row with totpFailures := w.row.totpFailures + 1, totpLockedUntil := none }
      claims := w.claims ++ [a.now], attempts := w.attempts.set i { a with phase := .count } } := by
  intro t
  have ht := h t
  have hset := countP_set (p := mayLock t) (b := { a with phase := .count }) ha
  have hbefore : mayLock t a = false := by simp [mayLock, hphase]
  have hafter : mayLock t { a with phase := .count } = decide (a.now < t) := by simp [mayLock]
  rw [hbefore, hafter] at hset
  dsimp only
  rw [lockBefore_none, List.countP_append, List.countP_append, List.countP_singleton,
    List.countP_singleton]
  simp only [decide_eq_true_eq]
  have hbase : 0 < baseLockMs := by decide
  have hcases : a.now < t + baseLockMs → w.row.totpFailures < freeFailures ∨
      lockBefore (t + baseLockMs) w.row.totpLockedUntil = 1 := by
    intro hnow
    refine hopen.imp id fun ⟨until_, hlocked, hle⟩ => ?_
    exact if_pos ⟨until_, hlocked, by omega⟩
  by_cases hnow : a.now < t + baseLockMs
  · have hslot := hcases hnow
    by_cases hearly : a.now < t <;> simp [hnow, hearly] at hset ⊢ <;> omega
  · have hlate : ¬ a.now < t := by omega
    simp [hnow, hlate] at hset ⊢
    omega

theorem paced_lock {i failures until_ : Nat} (h : Paced w) (ha : w.attempts[i]? = some a)
    (hphase : a.phase = .lock failures) (hlock : lockUntilAfter failures a.now = some until_) :
    Paced { w with
      row := { w.row with totpLockedUntil := some until_ }
      attempts := w.attempts.set i { a with phase := .settle } } := by
  intro t
  have ht := h t
  have hset := countP_set (p := mayLock t) (b := { a with phase := .settle }) ha
  have hbefore : mayLock t a = decide (a.now < t) := by simp [mayLock, hphase]
  have hafter : mayLock t { a with phase := .settle } = false := by simp [mayLock]
  rw [hbefore, hafter] at hset
  have hle := lockUntilAfter_le hlock
  dsimp only
  by_cases hearly : a.now < t
  · have hone : lockBefore (t + baseLockMs) (some until_) ≤ 1 := by
      unfold lockBefore
      split_ifs <;> decide
    rw [decide_eq_true hearly, Bool.toNat_true, Bool.toNat_false] at hset
    omega
  · have hnone : lockBefore (t + baseLockMs) (some until_) = 0 :=
      if_neg fun ⟨x, hx, hlt⟩ => by
        cases hx
        omega
    rw [decide_eq_false hearly, Bool.toNat_false] at hset
    omega

/-- An attempt whose next statement does not take a slot or write a lock does not become one that
may write a lock. -/
theorem countP_next {i : Nat} {phase : Phase} (t : Nat) (ha : w.attempts[i]? = some a)
    (h : mayLock t { a with phase } = true → mayLock t a = true) :
    (w.attempts.set i { a with phase }).countP (mayLock t) ≤ w.attempts.countP (mayLock t) := by
  have hset := countP_set (p := mayLock t) (b := { a with phase }) ha
  cases hafter : mayLock t { a with phase }
  · rw [hafter] at hset
    simp at hset
    omega
  · rw [hafter, h hafter] at hset
    omega

variable (verify) in
theorem settle_row (a : Attempt) (w : MfaWorld) : (settle verify a w).1.claims = w.claims ∧
    ((settle verify a w).2 = .done ∨ (settle verify a w).2 = .renew) ∧
    ((settle verify a w).1.row.totpLockedUntil = none ∨
      (settle verify a w).1.row.totpLockedUntil = w.row.totpLockedUntil) := by
  unfold settle
  split
  · split
    · exact ⟨rfl, .inl rfl, .inr rfl⟩
    · split_ifs
      · exact ⟨rfl, .inl rfl, .inl rfl⟩
      · exact ⟨rfl, .inl rfl, .inr rfl⟩
  · split
    · exact ⟨rfl, .inl rfl, .inr rfl⟩
    · split_ifs
      · exact ⟨rfl, .inr rfl, .inl rfl⟩
      · exact ⟨rfl, .inl rfl, .inr rfl⟩
  · split_ifs
    · exact ⟨rfl, .inr rfl, .inr rfl⟩
    · exact ⟨rfl, .inl rfl, .inr rfl⟩

theorem paced_next {i : Nat} (h : Paced w)
    (hkeep : w.row.totpFailures ≤ (mfaStep verify w (.next i)).row.totpFailures) :
    Paced (mfaStep verify w (.next i)) := by
  rw [mfaStep] at hkeep ⊢
  cases ha : w.attempts[i]? with
  | none => exact h
  | some a =>
    rw [ha] at hkeep
    dsimp only at hkeep ⊢
    unfold statement at hkeep ⊢
    cases hphase : a.phase with
    | claim =>
      dsimp only
      by_cases hopen : w.row.open a.now
      · rw [if_pos hopen]
        exact paced_claim h ha hphase hopen
      · rw [if_neg hopen]
        exact h.keep rfl le_rfl (fun t => countP_next t ha (by simp [mayLock])) (.inr rfl)
    | count => exact h.keep rfl le_rfl (fun t => countP_next t ha (by simp [mayLock, hphase])) (.inr rfl)
    | lock failures =>
      dsimp only
      cases hlock : lockUntilAfter failures a.now with
      | none => exact h.keep rfl le_rfl (fun t => countP_next t ha (by simp [mayLock])) (.inr rfl)
      | some until_ => exact paced_lock h ha hphase hlock
    | settle =>
      rw [hphase] at hkeep
      obtain ⟨hclaims, hend, hlock⟩ := settle_row verify a w
      refine h.keep hclaims hkeep (fun t => countP_next t ha ?_) hlock
      rcases hend with heq | heq <;> simp [mayLock, heq]
    | renew =>
      rw [hphase] at hkeep
      have hrenew : (renew a w).claims = w.claims ∧ ((renew a w).row.totpLockedUntil = none ∨
          (renew a w).row.totpLockedUntil = w.row.totpLockedUntil) := by
        unfold renew
        split
        · exact ⟨rfl, .inr rfl⟩
        · exact ⟨rfl, .inr rfl⟩
        · exact ⟨rfl, .inl rfl⟩
      exact h.keep hrenew.1 hkeep (fun t => countP_next t ha (by simp [mayLock])) hrenew.2
    | done => exact h.keep rfl le_rfl (fun t => countP_next t ha (by simp [mayLock])) (.inr rfl)

theorem paced_step {m : MfaMove} (h : Paced w)
    (hkeep : w.row.totpFailures ≤ (mfaStep verify w m).row.totpFailures) :
    Paced (mfaStep verify w m) := by
  cases m with
  | begin now request =>
    refine h.keep rfl le_rfl (fun t => ?_) (.inr rfl)
    cases hfactor : w.row.begin request <;> simp [mfaStep, mayLock, hfactor]
  | next i => exact paced_next h hkeep
  | enroll secret =>
    rw [mfaStep]
    split_ifs <;> exact h
  | reset => exact h.keep rfl hkeep (fun t => le_rfl) (.inl rfl)
  | setActive active => exact h

/-- No step of the run sets the failures back, as a success or a reset does. -/
def Unforgiven (verify : Text → Text → Nat → Option Nat → Option Nat) :
    MfaWorld → List MfaMove → Prop
  | _, [] => True
  | w, m :: moves => w.row.totpFailures ≤ (mfaStep verify w m).row.totpFailures ∧
      Unforgiven verify (mfaStep verify w m) moves

theorem paced_run {moves : List MfaMove} (h : Paced w) (hrun : Unforgiven verify w moves) :
    Paced (moves.foldl (mfaStep verify) w) := by
  induction moves generalizing w with
  | nil => exact h
  | cons m moves ih => exact ih (paced_step h hrun.1) hrun.2

/-- However the requests race, from any time on at most five slots more are taken in each minute
as long as no attempt succeeds. -/
theorem second_factor_paced {moves : List MfaMove} (hrun : Unforgiven verify {} moves) (t k : Nat) :
    (moves.foldl (mfaStep verify) {}).claims.countP (· < t + k * baseLockMs) ≤
      freeFailures * k + (moves.foldl (mfaStep verify) {}).claims.countP (· < t) := by
  have hpaced : Paced (moves.foldl (mfaStep verify) {}) :=
    paced_run (fun t => by simp [lockBefore]) hrun
  induction k with
  | zero => simp
  | succ k ih =>
    have hstep := hpaced (t + k * baseLockMs)
    rw [Nat.succ_mul, ← Nat.add_assoc]
    have hmin : min (moves.foldl (mfaStep verify) {}).row.totpFailures freeFailures ≤ freeFailures :=
      Nat.min_le_right _ _
    rw [Nat.mul_succ]
    omega

/-- Guessed recovery codes at the given clocks, one request after the other. -/
def guesses (clocks : List Nat) : List MfaMove :=
  clocks.zipIdx.flatMap fun guess =>
    .begin guess.1 (.redeem []) :: List.replicate 4 (.next guess.2)

/-- The fifth guess locks the account: the sixth takes no slot, the one a minute later does. -/
theorem second_factor_paced_refused :
    let w := (guesses [0, 1, 2, 3, 4, 5, 60004]).foldl (mfaStep fun _ _ _ _ => none) {}
    w.claims = [0, 1, 2, 3, 4, 60004] ∧
      w.claims.countP (· < 0 + 1 * baseLockMs) ≤ freeFailures * 1 + w.claims.countP (· < 0) := by
  intro w
  have hrun : Unforgiven (fun _ _ _ _ => none) {} (guesses [0, 1, 2, 3, 4, 5, 60004]) := by
    repeat' first
      | exact trivial
      | refine ⟨by decide, ?_⟩
  exact ⟨by decide, second_factor_paced hrun 0 1⟩

end Ionosphere.Store.SecondFactor
