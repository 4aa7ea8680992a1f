import Mathlib.Algebra.Order.Ring.Rat
import Mathlib.Data.List.Nodup
import Mathlib.Data.Nat.Cast.Order.Basic
import Ionosphere.Js.Text
import Ionosphere.Lib.Cache
import Ionosphere.Lib.Schedule

/-! MTA-STS policies of the domains a worker sends to. A policy that was fetched is held on to
when a later fetch fails; the cache it is held in is bounded and shared by all domains. Groups
of one domain are sent one after the other, groups of different domains side by side. -/
namespace Ionosphere.Mta.Sts

open Ionosphere.Js Ionosphere.Lib

inductive MtaStsMode where
  | enforce
  | testing
  | none
  deriving DecidableEq

structure MtaStsPolicy where
  mode : MtaStsMode
  mx : List Text
  /-- In seconds: any finite number that is not negative. -/
  maxAge : ℚ
  deriving DecidableEq

structure MtaStsLookup where
  found : Bool
  policyId : Option Text := .none
  policy : Option MtaStsPolicy := .none
  deriving DecidableEq

inductive StsEnforcement where
  | requireTls
  | reportOnly
  | none
  deriving DecidableEq

def stsEnforcement (lookup : MtaStsLookup) : StsEnforcement :=
  if !lookup.found then .none
  else
    match lookup.policy with
    | .none => .none
    | some policy =>
      match policy.mode with
      | .enforce => .requireTls
      | .testing => .reportOnly
      | .none => .none

def MAX_STS_CACHE_ENTRIES : ℕ := 4096

def STS_NEGATIVE_TTL_MS : ℚ := 5 * 60 * 1000

def MAX_STS_MAX_AGE_S : ℚ := 31557600

def MIN_STS_MAX_AGE_S : ℚ := 300

/-- The last lookup that got a policy. -/
structure Retained where
  lookup : MtaStsLookup
  expiresAt : ℚ
  deriving DecidableEq

structure Entry where
  lookup : MtaStsLookup
  expiresAt : ℚ
  policy : Option Retained
  deriving DecidableEq

def MtaStsPolicy.maxAgeMs (policy : MtaStsPolicy) : ℚ :=
  min (max policy.maxAge MIN_STS_MAX_AGE_S) MAX_STS_MAX_AGE_S * 1000

structure MtaStsOptions where
  cacheTtlMs : Option ℚ := .none

/-- What becomes of a lookup that was made, when the entry before it was `cached`: the entry
after it, and whether the cache is cleaned then. The answer is the lookup of that entry. -/
def refresh (opts : MtaStsOptions) (now : ℕ) (cached : Option Entry) (lookup : MtaStsLookup) :
    Entry × Bool :=
  let retained := cached.bind Entry.policy
  match lookup.policy with
  | some policy =>
    (⟨lookup, now + opts.cacheTtlMs.getD policy.maxAgeMs, some ⟨lookup, now + policy.maxAgeMs⟩⟩,
      true)
  | .none =>
    match retained.filter fun r => (now : ℚ) < r.expiresAt with
    | some r => (⟨r.lookup, now + STS_NEGATIVE_TTL_MS, some r⟩, false)
    | .none => (⟨lookup, now + STS_NEGATIVE_TTL_MS, retained⟩, true)

def Entry.fresh (now : ℕ) (e : Entry) : Bool := (now : ℚ) < e.expiresAt

/-- A lookup under way: when it began and what it found in the cache. -/
structure Pending where
  now : ℕ
  cached : Option Entry
  deriving DecidableEq

/-- A policy that was fetched, and when its lookup began. -/
structure Fetched where
  lookup : MtaStsLookup
  policy : MtaStsPolicy
  since : ℕ
  deriving DecidableEq

structure World where
  time : ℕ := 0
  mtaStsCache : List (Text × Entry) := []
  pending : List (Text × Pending) := []
  /-- The policy of each domain that was fetched last. -/
  fetched : List (Text × Fetched) := []
  deriving DecidableEq

inductive Move where
  | tick (ms : ℕ)
  | lookup (domain : Text)
  /-- The fetch of a lookup ends, with an exception or some result. -/
  | fetch (domain : Text) (result : Option MtaStsLookup)

section

variable (opts : MtaStsOptions)

def fetchedLookup (result : Option MtaStsLookup) : MtaStsLookup := result.getD { found := false }

def refreshed (domain : Text) (p : Pending) (result : Option MtaStsLookup)
    (cache : List (Text × Entry)) : List (Text × Entry) :=
  Assoc.set cache domain (refresh opts p.now p.cached (fetchedLookup result)).1

def step : Move → World → Option World
  | .tick ms, w => some { w with time := w.time + ms }
  | .lookup domain, w =>
    if (Assoc.get w.pending domain).isSome then none
    else
      let cached := Assoc.get w.mtaStsCache domain
      if cached.any (Entry.fresh w.time) then some w
      else some { w with pending := Assoc.set w.pending domain ⟨w.time, cached⟩ }
  | .fetch domain result, w => (Assoc.get w.pending domain).map fun p =>
    let out := refresh opts p.now p.cached (fetchedLookup result)
    let cache := refreshed opts domain p result w.mtaStsCache
    { w with
      mtaStsCache :=
        if out.2 then Cache.clean MAX_STS_CACHE_ENTRIES (Entry.fresh p.now) cache else cache
      pending := Assoc.erase w.pending domain
      fetched :=
        match (fetchedLookup result).policy with
        | some policy => Assoc.set w.fetched domain ⟨fetchedLookup result, policy, p.now⟩
        | none => w.fetched }

def answer (w : World) : Move → Option (Text × ℕ × MtaStsLookup)
  | .tick _ => none
  | .lookup domain =>
    ((Assoc.get w.mtaStsCache domain).filter (Entry.fresh w.time)).map fun e =>
      (domain, w.time, e.lookup)
  | .fetch domain result =>
    if (fetchedLookup result).policy.isSome then none
    else (Assoc.get w.pending domain).map fun p =>
      (domain, p.now, (refresh opts p.now p.cached (fetchedLookup result)).1.lookup)

def Fetched.retained (f : Fetched) : Retained := ⟨f.lookup, f.since + f.policy.maxAgeMs⟩

def Entry.Enforces (time : ℕ) (e : Entry) : Prop :=
  ∃ r ∈ e.policy, stsEnforcement r.lookup = .requireTls ∧ (time : ℚ) < r.expiresAt

/-- A lookup that begins while the policy of its domain that was fetched last is to be enforced,
and that fetches no other policy, ends with one that is enforced. -/
def Retains (w : World) (m : Move) : Prop :=
  ∀ d now l, answer opts w m = some (d, now, l) → ∀ f, Assoc.get w.fetched d = some f →
    stsEnforcement f.lookup = .requireTls → (now : ℚ) < f.since + f.policy.maxAgeMs →
      stsEnforcement l = .requireTls

/-- If the cache is cleaned, no entry goes that holds on to a policy that is to be enforced and
of whose domain no other lookup is under way. -/
def Spares (w : World) : Move → Prop
  | .fetch domain result => ∀ p ∈ Assoc.get w.pending domain,
    (refresh opts p.now p.cached (fetchedLookup result)).2 = true →
      ∀ q ∈ refreshed opts domain p result w.mtaStsCache,
        q.1 = domain ∨ Assoc.get w.pending q.1 = none → q.2.Enforces w.time →
          Cache.Spared MAX_STS_CACHE_ENTRIES (Entry.fresh p.now)
            (refreshed opts domain p result w.mtaStsCache) q.1
  | _ => True

end

section

variable {opts : MtaStsOptions} {now : ℕ} {cached : Option Entry} {lookup : MtaStsLookup}

theorem refresh_policy {policy : MtaStsPolicy} (h : lookup.policy = some policy) :
    refresh opts now cached lookup =
      (⟨lookup, now + opts.cacheTtlMs.getD policy.maxAgeMs,
        some ⟨lookup, now + policy.maxAgeMs⟩⟩, true) := by
  rw [refresh, h]

theorem refresh_retained {r : Retained} (h : lookup.policy = none)
    (hr : cached.bind Entry.policy = some r) (hexp : (now : ℚ) < r.expiresAt) :
    refresh opts now cached lookup =
      (⟨r.lookup, now + STS_NEGATIVE_TTL_MS, some r⟩, false) := by
  rw [refresh, h, hr]
  dsimp only
  rw [Option.filter_some, if_pos (decide_eq_true hexp)]

end

/-- The policy fetched last is there as long as it is to be enforced: in the entry of its domain
if no lookup is under way, else in what that lookup found. -/
structure Kept (w : World) : Prop where
  keys : (w.mtaStsCache.map (·.1)).Nodup
  began : ∀ d p, Assoc.get w.pending d = some p → p.now ≤ w.time
  held : ∀ d f e, Assoc.get w.fetched d = some f → stsEnforcement f.lookup = .requireTls →
    (w.time : ℚ) < f.retained.expiresAt → Assoc.get w.mtaStsCache d = some e →
      e.lookup = f.lookup ∧ e.policy = some f.retained
  there : ∀ d f, Assoc.get w.fetched d = some f → stsEnforcement f.lookup = .requireTls →
    (w.time : ℚ) < f.retained.expiresAt → Assoc.get w.pending d = none →
      ∃ e, Assoc.get w.mtaStsCache d = some e
  found : ∀ d f p, Assoc.get w.fetched d = some f → stsEnforcement f.lookup = .requireTls →
    Assoc.get w.pending d = some p → (p.now : ℚ) < f.retained.expiresAt →
      p.cached.bind Entry.policy = some f.retained

theorem kept_start : Kept {} where
  keys := List.nodup_nil
  began _ _ hp := by cases hp
  held _ _ _ hf := by cases hf
  there _ _ hf := by cases hf
  found _ _ _ hf := by cases hf

section

variable {opts : MtaStsOptions} {w w' : World} {d : Text}

theorem kept_tick (h : Kept w) (ms : ℕ) : Kept { w with time := w.time + ms } := by
  have hle : ∀ {t : ℚ}, ((w.time + ms : ℕ) : ℚ) < t → (w.time : ℚ) < t := fun hlt =>
    lt_of_le_of_lt (Nat.cast_le.mpr (Nat.le_add_right _ _)) hlt
  exact
    { keys := h.keys
      began := fun d p hp => (h.began d p hp).trans (Nat.le_add_right _ _)
      held := fun d f e hf henf hlt he => h.held d f e hf henf (hle hlt) he
      there := fun d f hf henf hlt hp => h.there d f hf henf (hle hlt) hp
      found := h.found }

theorem kept_lookup (h : Kept w) (hnone : Assoc.get w.pending d = none) :
    Kept { w with
      pending := Assoc.set w.pending d ⟨w.time, Assoc.get w.mtaStsCache d⟩ } := by
  refine { keys := h.keys, began := ?_, held := h.held, there := ?_, found := ?_ }
  · intro d' p hp
    dsimp only at hp ⊢
    rw [Assoc.get_set] at hp
    split at hp
    · cases hp
      exact le_rfl
    · exact h.began d' p hp
  · intro d' f hf henf hlt hp
    dsimp only at hp
    rw [Assoc.get_set] at hp
    split at hp
    · cases hp
    · exact h.there d' f hf henf hlt hp
  · intro d' f p hf henf hp hlt
    dsimp only at hp hf
    rw [Assoc.get_set] at hp
    split at hp
    next heq =>
      -- The lookup begins with what the cache holds.
      subst heq
      cases hp
      obtain ⟨e, he⟩ := h.there d f hf henf hlt hnone
      rw [he, Option.bind_some]
      exact (h.held d f e hf henf hlt he).2
    next => exact h.found d' f p hf henf hp hlt

variable {p : Pending} {result : Option MtaStsLookup}

def cleaned (opts : MtaStsOptions) (w : World) (d : Text) (p : Pending)
    (result : Option MtaStsLookup) : List (Text × Entry) :=
  if (refresh opts p.now p.cached (fetchedLookup result)).2 then
    Cache.clean MAX_STS_CACHE_ENTRIES (Entry.fresh p.now)
      (refreshed opts d p result w.mtaStsCache)
  else refreshed opts d p result w.mtaStsCache

def fetchedAfter (w : World) (d : Text) (p : Pending) (result : Option MtaStsLookup) :
    List (Text × Fetched) :=
  match (fetchedLookup result).policy with
  | some policy => Assoc.set w.fetched d ⟨fetchedLookup result, policy, p.now⟩
  | none => w.fetched

theorem nodup_refreshed (h : Kept w) :
    ((refreshed opts d p result w.mtaStsCache).map (·.1)).Nodup :=
  Assoc.nodup_set h.keys _ _

theorem get_of_cleaned (h : Kept w) {x : Text} {e : Entry}
    (he : Assoc.get (cleaned opts w d p result) x = some e) :
    Assoc.get (refreshed opts d p result w.mtaStsCache) x = some e := by
  rw [cleaned] at he
  split at he
  · exact Cache.get_of_get_clean (nodup_refreshed h) he
  · exact he

theorem get_cleaned (h : Kept w) (hm : Spares opts w (.fetch d result))
    (hp : Assoc.get w.pending d = some p) {x : Text} {e : Entry}
    (he : Assoc.get (refreshed opts d p result w.mtaStsCache) x = some e)
    (hx : x = d ∨ Assoc.get w.pending x = none) (henf : e.Enforces w.time) :
    Assoc.get (cleaned opts w d p result) x = some e := by
  rw [cleaned]
  split
  next hclean =>
    rw [Cache.get_clean (nodup_refreshed h), he]
    exact hm p hp hclean (x, e) ((Assoc.mem_iff_get (nodup_refreshed h) x e).mpr he) hx henf
  next => exact he

theorem refresh_holds (opts : MtaStsOptions) (h : Kept w) (hp : Assoc.get w.pending d = some p)
    {f : Fetched}
    (hf : Assoc.get (fetchedAfter w d p result) d = some f)
    (henf : stsEnforcement f.lookup = .requireTls)
    (hlt : (p.now : ℚ) < f.retained.expiresAt) :
    (refresh opts p.now p.cached (fetchedLookup result)).1.lookup = f.lookup ∧
      (refresh opts p.now p.cached (fetchedLookup result)).1.policy = some f.retained := by
  rw [fetchedAfter] at hf
  cases hpolicy : (fetchedLookup result).policy with
  | some policy =>
    rw [hpolicy] at hf
    dsimp only at hf
    rw [Assoc.get_set_self] at hf
    cases hf
    rw [refresh_policy hpolicy]
    exact ⟨rfl, rfl⟩
  | none =>
    rw [hpolicy] at hf
    rw [refresh_retained hpolicy (h.found d f p hf henf hp hlt) hlt]
    exact ⟨rfl, rfl⟩

theorem fetchedAfter_ne {x : Text} (hx : x ≠ d) :
    Assoc.get (fetchedAfter w d p result) x = Assoc.get w.fetched x := by
  rw [fetchedAfter]
  split
  · exact Assoc.get_set_ne _ _ hx.symm
  · rfl

theorem refreshed_ne {x : Text} (hx : x ≠ d) :
    Assoc.get (refreshed opts d p result w.mtaStsCache) x = Assoc.get w.mtaStsCache x :=
  Assoc.get_set_ne _ _ hx.symm

theorem refreshed_self : Assoc.get (refreshed opts d p result w.mtaStsCache) d =
    some (refresh opts p.now p.cached (fetchedLookup result)).1 :=
  Assoc.get_set_self _ _ _

theorem kept_fetch (h : Kept w) (hm : Spares opts w (.fetch d result))
    (hp : Assoc.get w.pending d = some p) :
    Kept { w with
      mtaStsCache := cleaned opts w d p result
      pending := Assoc.erase w.pending d
      fetched := fetchedAfter w d p result } := by
  have hnow : ∀ {t : ℚ}, (w.time : ℚ) < t → (p.now : ℚ) < t := fun hlt =>
    lt_of_le_of_lt (Nat.cast_le.mpr (h.began d p hp)) hlt
  have hpending : ∀ {x q}, Assoc.get (Assoc.erase w.pending d) x = some q →
      x ≠ d ∧ Assoc.get w.pending x = some q := by
    intro x q hq
    rw [Assoc.get_erase] at hq
    split at hq
    · cases hq
    next hne => exact ⟨Ne.symm hne, hq⟩
  refine { keys := ?_, began := ?_, held := ?_, there := ?_, found := ?_ }
  · dsimp only
    rw [cleaned]
    split
    · exact Cache.nodup_clean (nodup_refreshed h)
    · exact nodup_refreshed h
  · intro x q hq
    exact h.began x q (hpending hq).2
  · intro x f e hf henf hlt he
    have he := get_of_cleaned h he
    by_cases hx : x = d
    · subst hx
      rw [refreshed_self] at he
      cases he
      exact refresh_holds opts h hp hf henf (hnow hlt)
    · rw [refreshed_ne hx] at he
      rw [fetchedAfter_ne hx] at hf
      exact h.held x f e hf henf hlt he
  · intro x f hf henf hlt hnone
    by_cases hx : x = d
    · subst hx
      obtain ⟨-, hpolicy⟩ := refresh_holds opts h hp hf henf (hnow hlt)
      exact ⟨_, get_cleaned h hm hp refreshed_self (.inl rfl) ⟨_, hpolicy, henf, hlt⟩⟩
    · dsimp only at hf hnone
      rw [fetchedAfter_ne hx] at hf
      rw [Assoc.get_erase, if_neg (Ne.symm hx)] at hnone
      obtain ⟨e, he⟩ := h.there x f hf henf hlt hnone
      obtain ⟨-, hpolicy⟩ := h.held x f e hf henf hlt he
      exact ⟨e, get_cleaned h hm hp ((refreshed_ne hx).trans he) (.inr hnone)
        ⟨_, hpolicy, henf, hlt⟩⟩
  · intro x f q hf henf hq hlt
    obtain ⟨hx, hq⟩ := hpending hq
    dsimp only at hf
    rw [fetchedAfter_ne hx] at hf
    exact h.found x f q hf henf hq hlt

theorem kept_step {m : Move} (h : Kept w) (hm : Spares opts w m) (hw : step opts m w = some w') :
    Kept w' := by
  cases m with
  | tick ms =>
    cases hw
    exact kept_tick h ms
  | lookup domain =>
    rw [step] at hw
    split at hw
    · cases hw
    next hnone =>
      dsimp only at hw
      split at hw
      · cases hw
        exact h
      · cases hw
        exact kept_lookup h (by simpa using hnone)
  | fetch domain result =>
    obtain ⟨p, hp, rfl⟩ := Option.map_eq_some_iff.mp hw
    exact kept_fetch h hm hp

theorem retains_of_kept (h : Kept w) (m : Move) : Retains opts w m := by
  intro x now l hanswer f hf henf hlt
  cases m with
  | tick ms => cases hanswer
  | lookup domain =>
    obtain ⟨e, he, heq⟩ := Option.map_eq_some_iff.mp hanswer
    obtain ⟨he, -⟩ := Option.filter_eq_some_iff.mp he
    cases heq
    rw [(h.held x f e hf henf hlt he).1]
    exact henf
  | fetch domain result =>
    rw [answer] at hanswer
    split at hanswer
    · cases hanswer
    next hnone =>
      obtain ⟨p, hp, heq⟩ := Option.map_eq_some_iff.mp hanswer
      cases heq
      have hpolicy : (fetchedLookup result).policy = none := by simpa using hnone
      rw [refresh_retained hpolicy (h.found x f p hf henf hp hlt) hlt]
      exact henf

/-- As long as the cleaning of the cache spares what is to be enforced, no lookup loses a policy
before it ends, whatever becomes of the fetches of all the domains. -/
theorem sts_retention {ms : List Move} (h : Schedule.Always (step opts) (Spares opts) ms {}) :
    Schedule.Always (step opts) (Retains opts) ms {} :=
  h.imp kept_start (fun _ _ _ => kept_step) fun _ m hw _ => retains_of_kept hw m

end

instance {time : ℕ} {e : Entry} : Decidable (e.Enforces time) :=
  inferInstanceAs (Decidable (∃ r ∈ e.policy, _))

instance {opts : MtaStsOptions} {w : World} {m : Move} : Decidable (Spares opts w m) := by
  cases m <;> unfold Spares <;> infer_instance

def testLookup : MtaStsLookup :=
  { found := true, policyId := some ['1'], policy := some ⟨.enforce, [['m', 'x']], 86400⟩ }

/-- The policy of a domain is fetched, and an hour later it cannot be. -/
def outage : List Move :=
  [.lookup ['e'], .fetch ['e'] (some testLookup), .tick 3600000, .lookup ['e'],
    .fetch ['e'] (some { found := false })]

theorem sts_retention_outage :
    Schedule.Always (step { cacheTtlMs := some 0 }) (Retains { cacheTtlMs := some 0 }) outage {} :=
  sts_retention (by decide +kernel)

def blank : Entry := ⟨{ found := false }, STS_NEGATIVE_TTL_MS, none⟩

def flood (ds : List Text) : List Move := ds.flatMap fun d => [.lookup d, .fetch d none]

theorem exists_domains (n : ℕ) :
    ∃ (ds : List Text) (d : Text), (['e'] :: (ds ++ [d])).Nodup ∧ ds.length = n := by
  have hnodup : (['e'] :: (List.range (n + 1)).map fun i => List.replicate (i + 1) 'x').Nodup := by
    rw [List.nodup_cons]
    constructor
    · intro hmem
      obtain ⟨i, -, heq⟩ := List.mem_map.mp hmem
      have hx : 'x' ∈ ['e'] := heq ▸ List.mem_replicate.mpr ⟨Nat.succ_ne_zero i, rfl⟩
      exact absurd hx (by decide)
    · refine List.Nodup.map (fun i j heq => ?_) List.nodup_range
      simpa using congrArg List.length heq
  rw [List.range_succ, List.map_append] at hnodup
  exact ⟨_, _, hnodup, by rw [List.length_map, List.length_range]⟩

section

variable (opts : MtaStsOptions) {cache : List (Text × Entry)} (fetched : List (Text × Fetched))
  {d : Text}

theorem run_blank (ms : List Move) (hd : d ∉ cache.map (·.1)) :
    Schedule.run (step opts) (.lookup d :: .fetch d none :: ms)
      { mtaStsCache := cache, fetched } =
      Schedule.run (step opts) ms
        { mtaStsCache :=
            Cache.clean MAX_STS_CACHE_ENTRIES (Entry.fresh 0) (cache ++ [(d, blank)])
          fetched } := by
  have hnone : Assoc.get cache d = none := Assoc.get_eq_none.mpr hd
  simp [Schedule.run, step, hnone, Assoc.get, Assoc.set, Assoc.erase, refreshed, refresh,
    fetchedLookup, Assoc.set_of_notMem hd, blank]

theorem run_flood (ms : List Move) (ds : List Text) (hds : (cache.map (·.1) ++ ds).Nodup)
    (hle : cache.length + ds.length ≤ MAX_STS_CACHE_ENTRIES) :
    Schedule.run (step opts) (flood ds ++ ms) { mtaStsCache := cache, fetched } =
      Schedule.run (step opts) ms
        { mtaStsCache := cache ++ ds.map fun d => (d, blank), fetched } := by
  induction ds generalizing cache with
  | nil => simp [flood]
  | cons d ds ih =>
    have hd : d ∉ cache.map (·.1) := fun hmem =>
      (List.nodup_append.mp hds).2.2 d hmem d List.mem_cons_self rfl
    rw [List.length_cons] at hle
    have hclean : Cache.clean MAX_STS_CACHE_ENTRIES (Entry.fresh 0) (cache ++ [(d, blank)]) =
        cache ++ [(d, blank)] := by
      refine Cache.clean_of_length_le ?_
      rw [List.length_append, List.length_singleton]
      omega
    have hrun := run_blank opts fetched (flood ds ++ ms) hd
    rw [hclean] at hrun
    refine hrun.trans ?_
    rw [ih, List.append_assoc]
    · rfl
    · simpa using hds
    · rw [List.length_append, List.length_singleton]
      omega

end

def enforced : Entry := (refresh {} 0 none testLookup).1

theorem enforced_fresh : enforced.fresh 0 = true := by decide +kernel

/-- A policy is fetched, and then as many domains are looked up as the cache has room for. -/
def flooded (ds : List Text) (d : Text) : List Move :=
  .lookup ['e'] :: .fetch ['e'] (some testLookup) ::
    (flood ds ++ [Move.lookup d, .fetch d none, .lookup ['e']])

theorem run_flooded {ds : List Text} {d : Text} (hnodup : (['e'] :: (ds ++ [d])).Nodup)
    (hlen : ds.length + 1 = MAX_STS_CACHE_ENTRIES) :
    Schedule.run (step {}) (flooded ds d) {} =
      some
        { mtaStsCache := ds.map (fun d => (d, blank)) ++ [(d, blank)]
          pending := [(['e'], ⟨0, none⟩)]
          fetched := [(['e'], ⟨testLookup, ⟨.enforce, [['m', 'x']], 86400⟩, 0⟩)] } := by
  have hfirst : ∀ ms, Schedule.run (step {})
      (.lookup ['e'] :: .fetch ['e'] (some testLookup) :: ms) {} =
        Schedule.run (step {}) ms
          { mtaStsCache := [(['e'], enforced)]
            fetched := [(['e'], ⟨testLookup, ⟨.enforce, [['m', 'x']], 86400⟩, 0⟩)] } :=
    fun ms => rfl
  have hkeys : (ds.map fun d => ((d, blank) : Text × Entry)).map (·.1) = ds := by
    rw [List.map_map]
    exact List.map_id ds
  have hclean : Cache.clean MAX_STS_CACHE_ENTRIES (Entry.fresh 0)
      ([(['e'], enforced)] ++ ds.map (fun d => (d, blank)) ++ [(d, blank)]) =
        ds.map (fun d => (d, blank)) ++ [(d, blank)] := by
    rw [List.append_assoc, List.singleton_append]
    refine Cache.clean_cons (fun q hq => ?_) ?_
    · have hq : q = (['e'], enforced) ∨ q.2 = blank := by
        simp only [List.mem_cons, List.mem_append, List.mem_map] at hq
        obtain rfl | ⟨d, -, rfl⟩ | rfl | hq := hq
        · exact .inl rfl
        · exact .inr rfl
        · exact .inr rfl
        · cases hq
      rcases hq with rfl | hq
      · exact enforced_fresh
      · rw [hq]
        decide +kernel
    · rw [List.length_append, List.length_map]
      exact hlen
  have hgone : Assoc.get (ds.map (fun d => (d, blank)) ++ [(d, blank)]) ['e'] = none := by
    rw [Assoc.get_eq_none, List.map_append, hkeys]
    exact (List.nodup_cons.mp hnodup).1
  have hlast : d ∉ ([(['e'], enforced)] ++ ds.map fun d => (d, blank)).map (·.1) := by
    rw [List.map_append, hkeys]
    rw [← List.cons_append] at hnodup
    exact fun hmem => (List.nodup_append.mp hnodup).2.2 d hmem d (List.mem_singleton_self _) rfl
  rw [flooded, hfirst, run_flood]
  · rw [run_blank _ _ _ hlast, hclean]
    simp [Schedule.run, step, Assoc.get, Assoc.set, hgone]
  · rw [← List.cons_append] at hnodup
    exact (List.nodup_append.mp hnodup).1
  · rw [List.length_singleton]
    omega

theorem sts_retention_fails :
    ¬ ∀ (opts : MtaStsOptions) (ms : List Move),
      Schedule.Always (step opts) (Retains opts) ms {} := by
  intro h
  obtain ⟨ds, d, hnodup, hlen⟩ := exists_domains 4095
  have hrun := run_flooded hnodup (by rw [hlen]; rfl)
  have hretains := ((h {} (flooded ds d ++ [.fetch ['e'] none])).drop hrun).1
    ['e'] 0 { found := false } rfl _ rfl rfl
  -- The policy would hold for a day.
  exact absurd (hretains (by decide +kernel)) (by decide)

end Ionosphere.Mta.Sts
