import Ionosphere.MailAuth.SpfRules

/-! Where the explanation of a fail comes from. The reference evaluation hands an explanation on
with the result of a record: `redirect` passes both through and `include` keeps neither. -/
namespace Ionosphere.MailAuth

open Ionosphere.Js Ionosphere.Lib

def EvalCtx.explained (ctx : EvalCtx) (e : Option Text) : EvalCtx :=
  { ctx with pendingExplanation := e }

/-- The computation neither reads nor writes the explanation. -/
def Silent {α : Type} (x : SpfM α) : Prop :=
  ∀ e, Trial.Ignores (EvalCtx.explained · e) x

section

variable {α β : Type}

theorem silent_pure (a : α) : Silent (pure a : SpfM α) := fun _ => .pure a

theorem silent_fail (t : SpfThrown) : Silent (Trial.fail t : SpfM α) := fun _ => .fail t

theorem silent_permerror (message : Text) : Silent (throwPermerror message : SpfM α) :=
  silent_fail _

theorem silent_change {f : EvalCtx → EvalCtx} (h : ∀ ctx e, f (ctx.explained e) = (f ctx).explained e) :
    Silent (Trial.change f) := fun e => .change fun ctx => h ctx e

theorem Silent.bind {x : SpfM α} {f : α → SpfM β} (hx : Silent x) (hf : ∀ a, Silent (f a)) :
    Silent (x >>= f) := fun e => (hx e).bind fun a => hf a e

theorem silent_state_bind {f : EvalCtx → SpfM β} (hf : ∀ ctx, Silent (f ctx))
    (hsame : ∀ ctx e, f (ctx.explained e) = f ctx) : Silent (Trial.state >>= f) :=
  fun e => .state_bind (fun ctx => hf ctx e) fun ctx => hsame ctx e

theorem Silent.recover {x : SpfM α} {handler : SpfThrown → SpfM α} (hx : Silent x)
    (hh : ∀ t, Silent (handler t)) : Silent (Trial.recover x handler) :=
  fun e => (hx e).recover fun t => hh t e

theorem silent_countLookup : Silent countLookup := by
  unfold countLookup
  refine (silent_change fun _ _ => rfl).bind fun _ => silent_state_bind (fun ctx => ?_) fun _ _ => rfl
  split
  · exact silent_permerror _
  · exact silent_change fun _ _ => rfl

theorem silent_countVoidLookup : Silent countVoidLookup := by
  unfold countVoidLookup
  refine (silent_change fun _ _ => rfl).bind fun _ => silent_state_bind (fun ctx => ?_) fun _ _ => rfl
  split
  · exact silent_permerror _
  · exact silent_pure _

theorem silent_rules : SpfRules fun _ x => Silent x where
  pure := silent_pure
  fail _ := silent_fail _
  bind := Silent.bind
  recover := Silent.recover
  mono _ h := h
  ask _ := (silent_change fun _ _ => rfl).bind fun _ => silent_pure _
  void := silent_countVoidLookup
  counted h := silent_countLookup.bind fun _ => h
  cached _ h := by
    refine silent_state_bind (fun ctx => ?_) fun _ _ => rfl
    split
    · exact silent_pure _
    · exact h.bind fun value => (silent_change fun _ _ => rfl).bind fun _ => silent_pure _

end

/-- What the evaluation of a record says: its result, the explanation that the record which
decided delivered, and those of the records reached through `include`, in order. -/
structure Verdict where
  result : SpfResultValue
  own : Option Text := none
  included : List Text := []
  deriving DecidableEq

def Verdict.delivered (v : Verdict) : List Text := v.included ++ v.own.toList

def explanationText (expSpec : Text) (mctx : MacroCtx) : SpfM (Option Text) :=
  Trial.recover
    (do
      let domain ← expandDomainSpec expSpec mctx
      match ← resolved (mctx.resolver.txt domain) with
      | [] => pure none
      | txt :: _ => expandMacros txt mctx true)
    fun _ => pure none

def ownExplanation (outcome : SpfResultValue) (expSpec : Option Text) (mctx : MacroCtx) :
    SpfM (Option Text) :=
  match outcome, expSpec with
  | .fail, some spec => explanationText spec mctx
  | _, _ => pure none

section

variable (u : CaseMap)

def explainedMechanism (host : Text → SpfM Verdict) (mech : MechanismType) (mctx : MacroCtx)
    (included : List Text) : SpfM (Bool × List Text) :=
  match mech with
  | .include arg => do
    countLookup
    let domain ← expandDomainSpec arg mctx
    let sub ← host domain
    pure (sub.result = .pass, included ++ sub.delivered)
  | mech => do
    let matched ← evalMechanism u (fun _ => Trial.fail .exhausted) mech mctx
    pure (matched, included)

def explainedMechanisms (host : Text → SpfM Verdict) (expSpec : Option Text) (mctx : MacroCtx) :
    List Mechanism → List Text → SpfM (List Text ⊕ Verdict)
  | [], included => pure (.inl included)
  | mech :: mechs, included => do
    let (matched, included) ← explainedMechanism u host mech.type mctx included
    if matched then
      let outcome := qualifierToResult mech.qualifier
      let own ← ownExplanation outcome expSpec mctx
      pure (.inr ⟨outcome, own, included⟩)
    else explainedMechanisms host expSpec mctx mechs included

def explainedRecord (host : MacroCtx → Text → SpfM Verdict) (record currentDomain : Text)
    (mb : MacroCtx) : SpfM Verdict := do
  let mctx := { mb with currentDomain }
  match parseSpfRecord record with
  | .error message => throwPermerror message
  | .ok parsed =>
    match ← explainedMechanisms u (host mctx) parsed.expSpec mctx parsed.mechanisms [] with
    | .inr verdict => pure verdict
    | .inl included =>
      match parsed.redirectSpec with
      | none => pure { result := .neutral, included }
      | some spec =>
        countLookup
        let domain ← expandDomainSpec spec mctx
        let verdict ← host mctx domain
        pure { verdict with included := included ++ verdict.included }

def explainedHost : Nat → MacroCtx → Text → (isTop : Bool) → SpfM Verdict
  | 0, _, _, _ => Trial.fail .exhausted
  | nesting + 1, mb, domain, isTop =>
    if isValidDomain domain then do
      match ← fetchSpfRecord mb.resolver domain !isTop with
      | none =>
        if isTop then pure { result := .none }
        else throwPermerror (domain ++ ": SPF 레코드 없음".toList)
      | some record =>
        explainedRecord u (fun mctx domain => explainedHost nesting mctx domain false) record
          domain mb
    else if isTop then pure { result := .none }
    else throwPermerror ("잘못된 도메인: ".toList ++ domain)

def spfVerdict (input : SpfInput) (resolver : DnsResolver) (now : Nat) : Option Verdict :=
  let senderDomain := (spfSender input).domain
  (parseIp input.ip).bind fun clientIp =>
    if isValidDomain senderDomain then
      (explainedHost u nestingLimit (macroCtx input resolver now clientIp) senderDomain true
        {}).1.toOption
    else none

end

def latest (delivered : List Text) (pending : Option Text) : Option Text :=
  delivered.getLast?.or pending

@[simp] theorem latest_nil (p : Option Text) : latest [] p = p := rfl

theorem latest_append (xs ys : List Text) (p : Option Text) :
    latest (xs ++ ys) p = latest ys (latest xs p) := by
  unfold latest
  rw [List.getLast?_append, Option.or_assoc]

theorem latest_toList (own p : Option Text) : latest own.toList p = own.or p := by
  cases own <;> rfl

section

variable {α β γ δ : Type} {before : List Text} {x : SpfM α} {view : β → α} {left : β → List Text}
  {y : SpfM β}

/-- Behind the explanations `before`, the code `x` runs as the reference `y` does, and what it
leaves pending is the latest of the explanations that were delivered. -/
def Tracks (before : List Text) (x : SpfM α) (y : SpfM β) (view : β → α)
    (left : β → List Text) : Prop :=
  ∀ ctx p, match y ctx with
    | (.ok b, ctx') =>
      x (ctx.explained (latest before p)) = (.ok (view b), ctx'.explained (latest (left b) p))
    | (.error t, ctx') => ∃ q, x (ctx.explained (latest before p)) = (.error t, ctx'.explained q)

theorem Silent.tracks (hx : Silent x) :
    Tracks before x x id fun _ => before := by
  intro ctx p
  have hrun : x (ctx.explained (latest before p)) =
      ((x ctx).1, (x ctx).2.explained (latest before p)) := hx (latest before p) ctx
  rcases hres : x ctx with ⟨t | a, ctx'⟩
  · rw [hres] at hrun
    exact ⟨latest before p, hrun⟩
  · rw [hres] at hrun
    exact hrun

theorem Tracks.bind {f : α → SpfM γ} {g : β → SpfM δ} {view' : δ → γ} {left' : δ → List Text}
    (hx : Tracks before x y view left)
    (hf : ∀ b, Tracks (left b) (f (view b)) (g b) view' left') :
    Tracks before (x >>= f) (y >>= g) view' left' := by
  intro ctx p
  have h := hx ctx p
  rw [Trial.bind_run, Trial.bind_run]
  rcases hres : y ctx with ⟨t | b, ctx'⟩
  · rw [hres] at h
    obtain ⟨q, hq⟩ := h
    rw [hq]
    exact ⟨q, rfl⟩
  · rw [hres] at h
    rw [show x (ctx.explained (latest before p)) = _ from h]
    exact hf b ctx' p

theorem Silent.tracks_bind {f : α → SpfM γ} {g : α → SpfM δ} {view : δ → γ}
    {left : δ → List Text} (hx : Silent x) (hf : ∀ a, Tracks before (f a) (g a) view left) :
    Tracks before (x >>= f) (x >>= g) view left := hx.tracks.bind hf

theorem tracks_pure (view : β → α) (left : β → List Text) (b : β) (hleft : left b = before) :
    Tracks before (pure (view b)) (pure b) view left := by
  intro ctx p
  rw [← hleft]
  rfl

theorem tracks_fail (t : SpfThrown) :
    Tracks before (Trial.fail t) (Trial.fail t) view left := fun _ p => ⟨latest before p, rfl⟩

theorem Tracks.map {h : β → δ}
    {view' : δ → α} {left' : δ → List Text} (hx : Tracks before x y view left)
    (hview : ∀ b, view' (h b) = view b) (hleft : ∀ b, left' (h b) = left b) :
    Tracks before x (y >>= fun b => pure (h b)) view' left' := by
  intro ctx p
  have hrun := hx ctx p
  rw [Trial.bind_run]
  rcases hres : y ctx with ⟨t | b, ctx'⟩
  · rw [hres] at hrun
    exact hrun
  · rw [hres] at hrun
    change _ = (Except.ok (view' (h b)), ctx'.explained (latest (left' (h b)) p))
    rw [hview, hleft]
    exact hrun

end

theorem silent_explanationText (expSpec : Text) (mctx : MacroCtx) :
    Silent (explanationText expSpec mctx) := by
  unfold explanationText
  refine Silent.recover ?_ fun _ => silent_pure _
  refine (silent_rules.expandDomainSpec expSpec mctx).bind fun domain => ?_
  refine (silent_rules.resolved _).bind fun txts => ?_
  split
  · exact silent_pure _
  · exact silent_rules.expandMacros _ _ _

theorem tryFetchExplanation_run (expSpec : Text) (mctx : MacroCtx) (ctx : EvalCtx) :
    ∃ own ctx', explanationText expSpec mctx ctx = (.ok own, ctx') ∧
      tryFetchExplanation expSpec mctx ctx =
        (.ok (), ctx'.explained (own.or ctx'.pendingExplanation)) := by
  unfold explanationText tryFetchExplanation Trial.recover
  simp only [Trial.bind_run]
  rcases expandDomainSpec expSpec mctx ctx with ⟨t | domain, ctx₁⟩
  · exact ⟨none, ctx₁, rfl, rfl⟩
  · simp only [Trial.andThen_ok, Trial.bind_run]
    rcases resolved (mctx.resolver.txt domain) ctx₁ with ⟨t | txts, ctx₂⟩
    · exact ⟨none, ctx₂, rfl, rfl⟩
    · cases txts with
      | nil => exact ⟨none, ctx₂, rfl, rfl⟩
      | cons txt rest =>
        simp only [Trial.andThen_ok, Trial.bind_run]
        rcases expandMacros txt mctx true ctx₂ with ⟨t | expanded, ctx₃⟩
        · exact ⟨none, ctx₃, rfl, rfl⟩
        · cases expanded with
          | none => exact ⟨none, ctx₃, rfl, rfl⟩
          | some text => exact ⟨some text, ctx₃, rfl, rfl⟩

theorem tracks_tryFetch (before : List Text) (expSpec : Text) (mctx : MacroCtx) :
    Tracks before (tryFetchExplanation expSpec mctx) (explanationText expSpec mctx)
      (fun _ => ()) fun own => before ++ own.toList := by
  intro ctx p
  have hsilent := silent_explanationText expSpec mctx (latest before p) ctx
  obtain ⟨own, ctx', htext, htry⟩ := tryFetchExplanation_run expSpec mctx
    (ctx.explained (latest before p))
  rw [hsilent] at htext
  rcases hres : explanationText expSpec mctx ctx with ⟨t | own', ctx''⟩
  · rw [hres] at htext
    cases htext
  · rw [hres] at htext
    cases htext
    have hlatest : latest (before ++ own.toList) p = own.or (latest before p) := by
      rw [latest_append, latest_toList]
    rw [htry]
    exact congrArg (fun e => (Except.ok (), ctx''.explained e)) hlatest.symm

theorem tracks_ownExplanation (before : List Text) (outcome : SpfResultValue)
    (expSpec : Option Text) (mctx : MacroCtx) :
    Tracks before (explainFail outcome expSpec mctx) (ownExplanation outcome expSpec mctx)
      (fun _ => ()) fun own => before ++ own.toList := by
  have hnone : Tracks before (pure ()) (pure none) (fun _ => ())
      fun own : Option Text => before ++ own.toList :=
    tracks_pure (fun _ => ()) (fun own => before ++ own.toList) none (List.append_nil before)
  cases expSpec with
  | none => cases outcome <;> exact hnone
  | some spec =>
    cases outcome with
    | fail => exact tracks_tryFetch before spec mctx
    | _ => exact hnone

section

variable (u : CaseMap) {host : Text → SpfM SpfResultValue} {host' : Text → SpfM Verdict}

theorem tracks_mechanism (hhost : ∀ before domain,
      Tracks before (host domain) (host' domain) Verdict.result fun v => before ++ v.delivered)
    (mech : MechanismType) (mctx : MacroCtx) (before : List Text) :
    Tracks before (evalMechanism u host mech mctx) (explainedMechanism u host' mech mctx before)
      Prod.fst Prod.snd := by
  have hshared : ∀ mech : MechanismType,
      Silent (evalMechanism u (fun _ => Trial.fail .exhausted) mech mctx) := by
    refine silent_rules.evalMechanism u fun arg => silent_countLookup.bind fun _ => ?_
    exact Silent.bind (silent_rules.expandDomainSpec arg mctx) fun _ =>
      (silent_fail _).bind fun _ => silent_pure _
  cases mech with
  | «include» arg =>
    refine silent_countLookup.tracks_bind fun _ =>
      (silent_rules.expandDomainSpec arg mctx).tracks_bind fun domain => ?_
    exact (hhost before domain).bind fun sub =>
      tracks_pure Prod.fst Prod.snd (decide (sub.result = .pass), before ++ sub.delivered) rfl
  | all => exact (hshared .all).tracks.map (fun _ => rfl) fun _ => rfl
  | ip4 network cidr4 => exact (hshared (.ip4 network cidr4)).tracks.map (fun _ => rfl) fun _ => rfl
  | ip6 network cidr6 => exact (hshared (.ip6 network cidr6)).tracks.map (fun _ => rfl) fun _ => rfl
  | a arg cidr4 cidr6 => exact (hshared (.a arg cidr4 cidr6)).tracks.map (fun _ => rfl) fun _ => rfl
  | mx arg cidr4 cidr6 =>
    exact (hshared (.mx arg cidr4 cidr6)).tracks.map (fun _ => rfl) fun _ => rfl
  | ptr arg => exact (hshared (.ptr arg)).tracks.map (fun _ => rfl) fun _ => rfl
  | «exists» arg => exact (hshared (.exists arg)).tracks.map (fun _ => rfl) fun _ => rfl

def decided : List Text ⊕ Verdict → Option SpfResultValue
  | .inl _ => none
  | .inr v => some v.result

def deliveredSoFar : List Text ⊕ Verdict → List Text
  | .inl included => included
  | .inr v => v.delivered

theorem tracks_mechanisms (hhost : ∀ before domain,
      Tracks before (host domain) (host' domain) Verdict.result fun v => before ++ v.delivered)
    (expSpec : Option Text) (mctx : MacroCtx) (mechs : List Mechanism) (before : List Text) :
    Tracks before (evalMechanisms u host expSpec mctx mechs)
      (explainedMechanisms u host' expSpec mctx mechs before) decided deliveredSoFar := by
  induction mechs generalizing before with
  | nil => exact tracks_pure decided deliveredSoFar (.inl before) rfl
  | cons mech mechs ih =>
    unfold evalMechanisms explainedMechanisms
    refine (tracks_mechanism u hhost mech.type mctx before).bind fun step => ?_
    obtain ⟨matched, included⟩ := step
    cases matched with
    | true =>
      refine (tracks_ownExplanation included (qualifierToResult mech.qualifier) expSpec mctx).bind
        fun own => ?_
      exact tracks_pure decided deliveredSoFar (.inr ⟨_, own, included⟩) rfl
    | false => exact ih included

end

theorem tracks_record (u : CaseMap) {host : MacroCtx → Text → SpfM SpfResultValue}
    {host' : MacroCtx → Text → SpfM Verdict}
    (hhost : ∀ before mctx domain, Tracks before (host mctx domain) (host' mctx domain)
      Verdict.result fun v => before ++ v.delivered)
    (record currentDomain : Text) (mb : MacroCtx) :
    Tracks [] (evaluateRecord u host record currentDomain mb)
      (explainedRecord u host' record currentDomain mb) Verdict.result Verdict.delivered := by
  unfold evaluateRecord explainedRecord
  dsimp only
  cases parseSpfRecord record with
  | error message => exact tracks_fail _
  | ok parsed =>
    refine (tracks_mechanisms u (fun before => hhost before _) parsed.expSpec _ parsed.mechanisms
      []).bind fun outcome => ?_
    rcases outcome with included | verdict
    · cases parsed.redirectSpec with
      | none =>
        exact tracks_pure Verdict.result Verdict.delivered ⟨.neutral, none, included⟩
          (List.append_nil included)
      | some spec =>
        refine silent_countLookup.tracks_bind fun _ =>
          (silent_rules.expandDomainSpec spec _).tracks_bind fun domain => ?_
        refine (hhost included _ domain).map (fun _ => rfl) fun verdict => ?_
        exact List.append_assoc included verdict.included verdict.own.toList
    · exact tracks_pure Verdict.result Verdict.delivered verdict rfl

theorem Tracks.after {α β : Type} {x : SpfM α} {y : SpfM β} {view : β → α} {left : β → List Text}
    (h : Tracks [] x y view left) (before : List Text) :
    Tracks before x y view fun b => before ++ left b := by
  intro ctx p
  have hrun := h ctx (latest before p)
  simp only [latest_append]
  exact hrun

theorem tracks_host (u : CaseMap) (nesting : Nat) (mb : MacroCtx) (domain : Text) (isTop : Bool) :
    Tracks [] (checkHostInner u nesting mb domain isTop) (explainedHost u nesting mb domain isTop)
      Verdict.result Verdict.delivered := by
  induction nesting generalizing mb domain isTop with
  | zero => exact tracks_fail _
  | succ nesting ih =>
    unfold checkHostInner explainedHost
    split
    · refine (silent_rules.fetchSpfRecord _ _ _).tracks_bind fun record => ?_
      cases record with
      | none =>
        cases isTop
        · exact tracks_fail _
        · exact tracks_pure Verdict.result Verdict.delivered ⟨.none, none, []⟩ rfl
      | some record =>
        exact tracks_record u (fun before mctx domain => (ih mctx domain false).after before) record
          domain mb
    · cases isTop
      · exact tracks_fail _
      · exact tracks_pure Verdict.result Verdict.delivered ⟨.none, none, []⟩ rfl

section

variable (u : CaseMap) (input : SpfInput) (resolver : DnsResolver) (now : Nat)

theorem checkSpf_cases :
    (∃ v, spfVerdict u input resolver now = some v ∧
      (checkSpf u input resolver now).result = v.result ∧
      (v.result = .fail → (checkSpf u input resolver now).explanation = latest v.delivered none)) ∨
    (spfVerdict u input resolver now = none ∧ (checkSpf u input resolver now).result ≠ .fail) := by
  unfold spfVerdict checkSpf
  rcases hip : parseIp input.ip with - | clientIp
  · exact .inr ⟨rfl, fun hfail => by cases hfail⟩
  · dsimp only [Option.bind_some]
    by_cases hdomain : isValidDomain (spfSender input).domain = true
    · rw [if_pos hdomain, if_pos hdomain]
      have htracks := tracks_host u nestingLimit (macroCtx input resolver now clientIp)
        (spfSender input).domain true {} none
      rcases hrun : explainedHost u nestingLimit (macroCtx input resolver now clientIp)
        (spfSender input).domain true {} with ⟨t | v, ctx⟩
      · rw [hrun] at htracks
        obtain ⟨q, hq⟩ := htracks
        have hcode : checkHostInner u nestingLimit (macroCtx input resolver now clientIp)
            (spfSender input).domain true {} = (.error t, ctx.explained q) := hq
        refine .inr ⟨rfl, ?_⟩
        rw [hcode]
        cases t with
        | evalError kind message => cases kind <;> exact fun hfail => by cases hfail
        | resolverError => exact fun hfail => by cases hfail
        | exhausted => exact fun hfail => by cases hfail
      · rw [hrun] at htracks
        have hcode : checkHostInner u nestingLimit (macroCtx input resolver now clientIp)
            (spfSender input).domain true {} =
            (.ok v.result, ctx.explained (latest v.delivered none)) := htracks
        refine .inl ⟨v, rfl, ?_⟩
        rw [hcode]
        by_cases hfail : v.result = .fail
        · simp only [hfail, if_true, true_and]
          exact fun _ => rfl
        · simp only [hfail, if_false, true_and]
          exact fun habsurd => absurd habsurd (by simp)
    · rw [if_neg hdomain, if_neg hdomain]
      exact .inr ⟨rfl, fun hfail => by cases hfail⟩

theorem checkSpf_of_verdict {v : Verdict} (h : spfVerdict u input resolver now = some v) :
    (checkSpf u input resolver now).result = v.result ∧
      (v.result = .fail →
        (checkSpf u input resolver now).explanation = latest v.delivered none) := by
  rcases checkSpf_cases u input resolver now with ⟨w, hw, hcode⟩ | ⟨hnone, -⟩
  · cases h.symm.trans hw
    exact hcode
  · cases h.symm.trans hnone

theorem verdict_of_fail (h : (checkSpf u input resolver now).result = .fail) :
    ∃ v, spfVerdict u input resolver now = some v ∧ v.result = .fail := by
  rcases checkSpf_cases u input resolver now with ⟨v, hv, hresult, -⟩ | ⟨-, hother⟩
  · exact ⟨v, hv, hresult.symm.trans h⟩
  · exact absurd h hother

def ExplainedByDecider : Prop :=
  ∀ e, (checkSpf u input resolver now).result = .fail →
    (checkSpf u input resolver now).explanation = some e →
    ∃ v, spfVerdict u input resolver now = some v ∧ v.own = some e

/-- A fail carries the explanation of its own record exactly when that record delivers one or no
record reached through an `include` has. -/
theorem explanation_provenance :
    ExplainedByDecider u input resolver now ↔
      ∀ v, spfVerdict u input resolver now = some v → v.result = .fail →
        v.own.isSome ∨ v.included = [] := by
  constructor
  · intro hown v hv hfail
    obtain ⟨hresult, hexplanation⟩ := checkSpf_of_verdict u input resolver now hv
    rcases hlast : latest v.delivered none with - | e
    · refine .inr ?_
      have hempty : v.delivered = [] := by
        rw [latest, Option.or_none] at hlast
        exact List.getLast?_eq_none_iff.mp hlast
      exact (List.append_eq_nil_iff.mp hempty).1
    · obtain ⟨w, hw, hdecider⟩ := hown e (hresult.trans hfail) ((hexplanation hfail).trans hlast)
      cases hv.symm.trans hw
      exact .inl (by rw [hdecider]; rfl)
  · intro hcond e hfail he
    obtain ⟨v, hv, hvfail⟩ := verdict_of_fail u input resolver now hfail
    have hlatest : latest v.delivered none = some e :=
      ((checkSpf_of_verdict u input resolver now hv).2 hvfail).symm.trans he
    refine ⟨v, hv, ?_⟩
    rw [Verdict.delivered, latest_append, latest_toList] at hlatest
    rcases hcond v hv hvfail with hown | hnone
    · obtain ⟨own, hown⟩ := Option.isSome_iff_exists.mp hown
      rw [hown] at hlatest ⊢
      exact hlatest
    · rw [hnone, latest_nil, Option.or_none] at hlatest
      exact hlatest

end

/-! A fail of `a.example` with the text of `b.example`, which it includes. -/

def leakyZone : DnsResolver where
  txt name :=
    if name = "a.example".toList then .records ["v=spf1 include:b.example -all".toList]
    else if name = "b.example".toList then .records ["v=spf1 -all exp=e.b.example".toList]
    else if name = "e.b.example".toList then .records ["b refuses".toList]
    else .notFound
  mx _ := .notFound
  a _ := .notFound
  aaaa _ := .notFound
  ptr _ := .notFound

def leakyInput : SpfInput where
  ip := "192.0.2.1".toList
  helo := "client.example".toList
  mailFrom := "user@a.example".toList

theorem explanation_provenance_fails :
    ¬ ∀ u input resolver now, ExplainedByDecider u input resolver now := by
  intro hall
  have hcheck : checkSpf ⟨id, id⟩ leakyInput leakyZone 0 =
      { result := .fail, domain := "a.example".toList, explanation := some "b refuses".toList } := by
    decide +kernel
  have hverdict : spfVerdict ⟨id, id⟩ leakyInput leakyZone 0 =
      some { result := .fail, included := ["b refuses".toList] } := by
    decide +kernel
  obtain ⟨v, hv, hown⟩ := hall ⟨id, id⟩ leakyInput leakyZone 0 "b refuses".toList
    (by rw [hcheck]) (by rw [hcheck])
  cases hverdict.symm.trans hv
  cases hown

end Ionosphere.MailAuth
