import Ionosphere.MailAuth.Spf

/-! What holds of the parts of a check because of the steps they are made of. A graded property
says how many questions of its own a computation asks; a counted term pays for thirteen. -/
namespace Ionosphere.MailAuth

open Ionosphere.Js Ionosphere.Lib

/-- A property that the steps have and that is handed on from the parts to the whole. -/
structure SpfRules (P : {α : Type} → Nat → SpfM α → Prop) : Prop where
  pure : ∀ {α : Type} (a : α), P 0 (pure a)
  fail : ∀ {α : Type} {e : SpfThrown}, e ≠ .exhausted → P 0 (Trial.fail e : SpfM α)
  bind : ∀ {α β : Type} {k l : Nat} {x : SpfM α} {f : α → SpfM β},
    P k x → (∀ a, P l (f a)) → P (k + l) (x >>= f)
  recover : ∀ {α : Type} {k : Nat} {x : SpfM α} {handler : SpfThrown → SpfM α},
    P k x → (∀ e, P 0 (handler e)) → P k (Trial.recover x handler)
  mono : ∀ {α : Type} {k l : Nat} {x : SpfM α}, k ≤ l → P k x → P l x
  ask : ∀ {α : Type} (answer : DnsAnswer α), P 1 (ask answer)
  void : P 0 countVoidLookup
  counted : ∀ {β : Type} {f : Unit → SpfM β}, P 13 (f ()) → P 0 (countLookup >>= f)
  cached : ∀ mctx, P 0 (resolvePMacro mctx) → P 0 (pMacro mctx)

namespace SpfRules

variable {P : {α : Type} → Nat → SpfM α → Prop} (R : SpfRules P)

include R

theorem evalError {α : Type} (kind : SpfErrorKind) (message : Text) :
    P 0 (Trial.fail (.evalError kind message) : SpfM α) := R.fail (by simp)

theorem countVoidIf (condition : Bool) : P 0 (countVoidIf condition) := by
  cases condition with
  | false => exact R.pure ()
  | true => exact R.void

theorem resolved {α : Type} (answer : DnsAnswer α) : P 1 (resolved answer) := by
  refine R.bind (l := 0) (R.ask answer) fun answer => ?_
  split
  · exact R.pure _
  · exact R.fail (by simp)

theorem fetchSpfRecord (resolver : DnsResolver) (domain : Text) (countVoidIfEmpty : Bool) :
    P 1 (fetchSpfRecord resolver domain countVoidIfEmpty) := by
  refine R.bind (l := 0) (R.ask _) fun answer => ?_
  split
  · exact R.bind (R.countVoidIf _) fun _ => R.pure _
  · exact R.evalError _ _
  · split
    · exact R.bind (R.countVoidIf _) fun _ => R.pure _
    · split
      · exact R.pure _
      · exact R.pure _
      · exact R.evalError _ _

theorem lookupAddrs (resolver : DnsResolver) (domain : Text) (version : IpVersion)
    (countVoid : Bool) : P 1 (lookupAddrs resolver domain version countVoid) := by
  refine R.bind (l := 0) (R.ask _) fun answer => ?_
  split
  · exact R.bind (R.countVoidIf _) fun _ => R.pure _
  · exact R.evalError _ _
  · exact R.bind (R.countVoidIf _) fun _ => R.pure _

theorem safeRecords {α : Type} (type name : Text) (answer : DnsAnswer α) :
    P 1 (safeRecords type name answer) := by
  refine R.bind (l := 0) (R.ask answer) fun answer => ?_
  split
  · exact R.bind R.void fun _ => R.pure _
  · exact R.evalError _ _
  · exact R.bind (R.recover R.void fun _ => R.evalError _ _) fun _ => R.pure _
  · exact R.pure _

theorem confirmName (mctx : MacroCtx) (names : List Text) : P 0 (confirmName mctx names) := by
  induction names with
  | nil => exact R.pure _
  | cons name names ih =>
    refine R.counted (R.mono (by decide : 1 + 0 ≤ 13) (R.bind (R.resolved _) fun raw => ?_))
    split
    · exact R.pure _
    · exact ih

theorem pMacro (mctx : MacroCtx) : P 0 (pMacro mctx) := by
  refine R.cached mctx (R.recover ?_ fun _ => R.pure _)
  exact R.counted (R.mono (by decide : 1 + 0 ≤ 13)
    (R.bind (R.resolved _) fun names => R.confirmName mctx _))

theorem macroValue (letter : Char) (mctx : MacroCtx) (forExp : Bool) :
    P 0 (macroValue letter mctx forExp) := by
  unfold MailAuth.macroValue
  split
  case h_5 => split <;> exact R.pure _
  case h_7 => split <;> exact R.pure _
  case h_8 => exact R.bind (R.pMacro mctx) fun _ => R.pure _
  all_goals exact R.pure _

theorem expandMacro (mctx : MacroCtx) (forExp : Bool) (inner : Text) :
    P 0 (expandMacro mctx forExp inner) := by
  unfold MailAuth.expandMacro
  split
  · exact R.pure _
  · refine R.bind (l := 0) (R.macroValue _ mctx forExp) fun value => ?_
    split
    · exact R.pure _
    · exact R.pure _

theorem expandFrom (mctx : MacroCtx) (forExp : Bool) (scan : MacroScan) (out rest : Text) :
    P 0 (expandFrom mctx forExp scan out rest) := by
  fun_induction MailAuth.expandFrom mctx forExp scan out rest with
  | case1 => exact R.pure _
  | case2 _ _ ih => exact ih
  | case3 _ _ _ _ ih => exact ih
  | case4 => exact R.pure _
  | case5 _ _ ih => exact ih
  | case6 _ _ _ ih => exact ih
  | case7 _ _ _ _ ih => exact ih
  | case8 _ _ _ _ _ ih => exact ih
  | case9 => exact R.pure _
  | case10 => exact R.pure _
  | case11 inner out rest ih =>
    refine R.bind (l := 0) (R.expandMacro mctx forExp inner) fun value => ?_
    cases value with
    | none => exact R.pure _
    | some value => exact ih value
  | case12 _ _ _ _ _ ih => exact ih

theorem expandMacros (template : Text) (mctx : MacroCtx) (forExp : Bool) :
    P 0 (expandMacros template mctx forExp) := R.expandFrom mctx forExp _ _ _

theorem expandDomainSpec (spec : Text) (mctx : MacroCtx) : P 0 (expandDomainSpec spec mctx) := by
  refine R.bind (l := 0) (R.expandMacros spec mctx false) fun expanded => ?_
  split
  · exact R.evalError _ _
  · dsimp only
    split
    · exact R.pure _
    · exact R.evalError _ _

theorem targetDomain (arg : Option Text) (mctx : MacroCtx) : P 0 (targetDomain arg mctx) := by
  cases arg with
  | none => exact R.pure _
  | some spec => exact R.expandDomainSpec spec mctx

theorem matchNetwork (version : IpVersion) (name network : Text) (cidr : Nat) (ip : ParsedIp) :
    P 0 (matchNetwork version name network cidr ip) := by
  unfold MailAuth.matchNetwork
  split
  · exact R.evalError _ _
  · split
    · exact R.evalError _ _
    · exact R.pure _

theorem matchMx (mctx : MacroCtx) (prefixLen : Nat) (records : List DnsMxRecord) :
    P records.length (matchMx mctx prefixLen records) := by
  induction records with
  | nil => exact R.pure _
  | cons mx rest ih =>
    refine R.mono (by rw [List.length_cons]; omega : 1 + rest.length ≤ (mx :: rest).length)
      (R.bind (R.lookupAddrs _ _ _ _) fun addrs => ?_)
    split
    · exact R.mono (Nat.zero_le _) (R.pure _)
    · exact ih

theorem matchPtr (u : CaseMap) (mctx : MacroCtx) (domain : Text) (names : List Text) :
    P names.length (matchPtr u mctx domain names) := by
  induction names with
  | nil => exact R.pure _
  | cons name names ih =>
    refine R.mono (by rw [List.length_cons]; omega : 1 + names.length ≤ (name :: names).length)
      (R.bind (R.lookupAddrs _ _ _ _) fun addrs => ?_)
    split
    · exact R.mono (Nat.zero_le _) (R.pure _)
    · exact ih

theorem evalMechanism (u : CaseMap) {host : Text → SpfM SpfResultValue} {mctx : MacroCtx}
    (hinclude : ∀ arg, P 0 (evalMechanism u host (.include arg) mctx)) (mech : MechanismType) :
    P 0 (evalMechanism u host mech mctx) := by
  cases mech with
  | all => exact R.pure _
  | ip4 network cidr4 => exact R.matchNetwork _ _ _ _ _
  | ip6 network cidr6 => exact R.matchNetwork _ _ _ _ _
  | a arg cidr4 cidr6 =>
    refine R.counted (R.mono (by decide : 0 + (1 + 0) ≤ 13)
      (R.bind (R.targetDomain arg mctx) fun domain => ?_))
    exact R.bind (R.lookupAddrs _ _ _ _) fun _ => R.pure _
  | mx arg cidr4 cidr6 =>
    refine R.counted (R.mono (by decide : 0 + (1 + 10) ≤ 13)
      (R.bind (R.targetDomain arg mctx) fun domain => R.bind (R.safeRecords _ _ _) fun records => ?_))
    exact R.mono (List.length_take_le _ _) (R.matchMx _ _ _)
  | ptr arg =>
    refine R.counted (R.mono (by decide : 0 + (1 + 10) ≤ 13)
      (R.bind (R.targetDomain arg mctx) fun domain => R.bind (R.safeRecords _ _ _) fun names => ?_))
    exact R.mono (List.length_take_le _ _) (R.matchPtr _ _ _ _)
  | «include» arg => exact hinclude arg
  | «exists» arg =>
    refine R.counted (R.mono (by decide : 0 + (1 + 0) ≤ 13)
      (R.bind (R.expandDomainSpec arg mctx) fun domain => ?_))
    exact R.bind (R.lookupAddrs _ _ _ _) fun _ => R.pure _

end SpfRules

end Ionosphere.MailAuth
