import Ionosphere.Lib.Climb
import Ionosphere.MailAuth.Dmarc

/-! The organisational domain of a name and of the names below it. The caches of an
evaluation only keep what the zone says, so the walk is a climb along the labels; the
labels in front only bring its limit nearer. -/
namespace Ionosphere.MailAuth

open Ionosphere.Js Ionosphere.Lib

variable {ctx : DmarcCtx} {labels : List Text}

section

variable (u : CaseMap) (txt : Text → TxtAnswer)

def zoneTags (domain : Text) : Option Tags :=
  match txt (dmarcName domain) with
  | .records txts => dmarcTags u txts
  | _ => none

/-- A name with labels whose record says that it is a public suffix. -/
def suffixMark (labels : List Text) : Bool :=
  !labels.isEmpty && isPsd u (zoneTags u txt (join ['.'] labels))

def orgLabels (labels : List Text) : List Text :=
  if labels.length ≤ 2 then labels
  else
    (Climb.climb (suffixMark u txt) (min (labels.length - 1) walkMaxSteps) labels).getD
      (labels.drop (labels.length - 2))

def orgDomain (domain : Text) : Text := join ['.'] (orgLabels u txt (domain.splitOn '.'))

def Answers : Prop := ∀ name, txt name ≠ .failed

/-- What an evaluation remembers is what the zone says. -/
structure Faithful (ctx : DmarcCtx) : Prop where
  tags : ∀ domain v, Assoc.get ctx.tagCache domain = some v → v = zoneTags u txt domain
  orgs : ∀ domain v, Assoc.get ctx.orgCache domain = some v → v = orgDomain u txt domain

theorem faithful_fresh : Faithful u txt {} := by
  constructor
  · intro domain v h
    cases h
  · intro domain v h
    cases h

variable {u txt}

theorem fetchDmarcTags_ok (hanswers : Answers txt) (h : Faithful u txt ctx)
    (hroom : ctx.lookups < maxDmarcLookups) (domain : Text) :
    ∃ ctx', fetchDmarcTags u txt domain ctx = .ok (zoneTags u txt domain, ctx') ∧
      Faithful u txt ctx' ∧ ctx'.lookups ≤ ctx.lookups + 1 := by
  unfold fetchDmarcTags
  cases hcached : Assoc.get ctx.tagCache domain with
  | some v =>
    have hv := h.tags domain v hcached
    exact ⟨ctx, by rw [hv], h, Nat.le_succ _⟩
  | none =>
    have hspent : ¬ maxDmarcLookups < ctx.lookups + 1 := by omega
    have hremember : Faithful u txt
        { ctx with
          lookups := ctx.lookups + 1
          tagCache := Assoc.set ctx.tagCache domain (zoneTags u txt domain) } := by
      refine ⟨fun name v hget => ?_, h.orgs⟩
      dsimp only at hget
      rw [Assoc.get_set] at hget
      split_ifs at hget with hname
      · rw [← hname]
        exact (Option.some.inj hget).symm
      · exact h.tags name v hget
    dsimp only
    rw [if_neg hspent]
    unfold zoneTags at hremember ⊢
    cases hanswer : txt (dmarcName domain) with
    | failed => exact absurd hanswer (hanswers _)
    | notFound =>
      rw [hanswer] at hremember
      exact ⟨_, rfl, hremember, Nat.le_refl _⟩
    | records txts =>
      rw [hanswer] at hremember
      exact ⟨_, rfl, hremember, Nat.le_refl _⟩

theorem walkUp_ok (hanswers : Answers txt) (labels : List Text) (steps i : Nat)
    (h : Faithful u txt ctx) (hroom : ctx.lookups + steps ≤ maxDmarcLookups)
    (hsteps : i + steps < labels.length) :
    ∃ ctx', walkUp u txt labels steps (i + 1) ctx =
        .ok ((Climb.climb (suffixMark u txt) steps (labels.drop i)).map (join ['.']), ctx') ∧
      Faithful u txt ctx' ∧ ctx'.lookups ≤ ctx.lookups + steps := by
  induction steps generalizing i ctx with
  | zero => exact ⟨ctx, rfl, h, Nat.le_refl _⟩
  | succ steps ih =>
    obtain ⟨ctx₁, hfetch, hfaithful, hspent⟩ :=
      fetchDmarcTags_ok hanswers h (by omega) (join ['.'] (labels.drop (i + 1)))
    have hdrop : labels.drop i = labels[i] :: labels.drop (i + 1) :=
      List.drop_eq_getElem_cons (by omega)
    have hmark : suffixMark u txt (labels.drop (i + 1)) =
        isPsd u (zoneTags u txt (join ['.'] (labels.drop (i + 1)))) := by
      have hne : (labels.drop (i + 1)).isEmpty = false := by
        rw [List.isEmpty_eq_false_iff, Ne, List.drop_eq_nil_iff]
        omega
      rw [suffixMark, hne]
      rfl
    rw [walkUp, hfetch, hdrop, Climb.climb, hmark]
    dsimp only
    split_ifs with hpsd
    · refine ⟨ctx₁, ?_, hfaithful, by omega⟩
      rw [Option.map_some, ← hdrop]
      rfl
    · obtain ⟨ctx₂, hwalk, hfaithful₂, hspent₂⟩ := ih (i + 1) hfaithful (by omega) (by omega)
      exact ⟨ctx₂, hwalk, hfaithful₂, by omega⟩

theorem computeOrgDomain_ok (hanswers : Answers txt) (h : Faithful u txt ctx)
    (hroom : ctx.lookups + walkMaxSteps ≤ maxDmarcLookups) (domain : Text) :
    ∃ ctx', computeOrgDomain u txt domain ctx = .ok (orgDomain u txt domain, ctx') ∧
      Faithful u txt ctx' ∧ ctx'.lookups ≤ ctx.lookups + walkMaxSteps := by
  have hremember : ∀ {ctx' : DmarcCtx}, Faithful u txt ctx' → Faithful u txt
      { ctx' with orgCache := Assoc.set ctx'.orgCache domain (orgDomain u txt domain) } := by
    intro ctx' h'
    refine ⟨h'.tags, fun name v hget => ?_⟩
    dsimp only at hget
    rw [Assoc.get_set] at hget
    split_ifs at hget with hname
    · rw [← hname]
      exact (Option.some.inj hget).symm
    · exact h'.orgs name v hget
  unfold computeOrgDomain
  cases hcached : Assoc.get ctx.orgCache domain with
  | some v =>
    have hv := h.orgs domain v hcached
    exact ⟨ctx, by rw [hv], h, Nat.le_add_right _ _⟩
  | none =>
    dsimp only
    split_ifs with hshort
    · have hself : orgDomain u txt domain = domain := by
        rw [orgDomain, orgLabels, if_pos hshort]
        exact List.intercalate_splitOn '.'
      refine ⟨_, ?_, hremember h, Nat.le_add_right _ _⟩
      rw [hself]
    · obtain ⟨ctx', hwalk, hfaithful, hspent⟩ := walkUp_ok hanswers (domain.splitOn '.')
        (min ((domain.splitOn '.').length - 1) walkMaxSteps) 0 h (by omega) (by omega)
      rw [List.drop_zero] at hwalk
      have horg : orgDomain u txt domain = join ['.']
          ((Climb.climb (suffixMark u txt) (min ((domain.splitOn '.').length - 1) walkMaxSteps)
            (domain.splitOn '.')).getD
              ((domain.splitOn '.').drop ((domain.splitOn '.').length - 2))) := by
        rw [orgDomain, orgLabels, if_neg hshort]
      rw [hwalk]
      refine ⟨_, ?_, hremember hfaithful, by dsimp only; omega⟩
      rw [horg]
      cases Climb.climb (suffixMark u txt) (min ((domain.splitOn '.').length - 1) walkMaxSteps)
        (domain.splitOn '.') with
      | none => rfl
      | some found => rfl

theorem suffixMark_nil : suffixMark u txt [] = false := rfl

theorem Below.lt_pred {i : Nat}
    (h : Climb.Below (suffixMark u txt) labels i) : i + 1 < labels.length := by
  by_contra hlong
  have hmark := h.mark
  rw [List.drop_eq_nil_of_le (by omega), suffixMark_nil] at hmark
  cases hmark

theorem orgLabels_of_below (hlong : 3 ≤ labels.length) {i : Nat}
    (h : Climb.Below (suffixMark u txt) labels i) :
    orgLabels u txt labels =
      labels.drop (if i < walkMaxSteps then i else labels.length - 2) := by
  have hlt := Below.lt_pred h
  rw [orgLabels, if_neg (by omega), Climb.climb_of_below h]
  by_cases hreach : i < walkMaxSteps
  · rw [if_pos hreach, if_pos (by omega)]
    rfl
  · rw [if_neg hreach, if_neg (by omega)]
    rfl

theorem orgLabels_of_unmarked (hlong : 3 ≤ labels.length)
    (h : ∀ i, ¬ Climb.Below (suffixMark u txt) labels i) :
    orgLabels u txt labels = labels.drop (labels.length - 2) := by
  rw [orgLabels, if_neg (by omega), Climb.climb_of_unmarked h]
  rfl

theorem drop_front (ls : List Text) {ds : List Text} {k : Nat} (h : k ≤ ds.length) :
    (ls ++ ds).drop ((ls ++ ds).length - k) = ds.drop (ds.length - k) := by
  rw [List.length_append, show ls.length + ds.length - k = ls.length + (ds.length - k) by omega,
    List.drop_append]
  simp

/-- The labels agree unless the public suffix is within reach of the walk from the shorter
name only, and is not the last label. -/
theorem orgLabels_append {ls ds : List Text} (hlong : 3 ≤ ds.length)
    (hfront : ∀ i < ls.length, suffixMark u txt (ls.drop (i + 1) ++ ds) = false) :
    orgLabels u txt (ls ++ ds) = orgLabels u txt ds ↔
      ∀ i, Climb.Below (suffixMark u txt) ds i → i < walkMaxSteps →
        ls.length + i < walkMaxSteps ∨ i + 2 = ds.length := by
  have hall : 3 ≤ (ls ++ ds).length := by
    rw [List.length_append]
    omega
  have hdefault := drop_front ls (show 2 ≤ ds.length by omega)
  by_cases hsome : ∃ i, Climb.Below (suffixMark u txt) ds i
  · obtain ⟨i, hi⟩ := hsome
    have hlt := Below.lt_pred hi
    have hbelow : Climb.Below (suffixMark u txt) (ls ++ ds) (ls.length + i) :=
      (Climb.below_append hfront).mpr ⟨Nat.le_add_right _ _, by rwa [Nat.add_sub_cancel_left]⟩
    have hwhere : (∀ j, Climb.Below (suffixMark u txt) ds j → j < walkMaxSteps →
        ls.length + j < walkMaxSteps ∨ j + 2 = ds.length) ↔
        (i < walkMaxSteps → ls.length + i < walkMaxSteps ∨ i + 2 = ds.length) :=
      ⟨fun h => h i hi, fun h j hj => by rwa [hj.unique hi]⟩
    have hfar : (ls ++ ds).drop (ls.length + i) = ds.drop i := by
      rw [List.drop_append]
      simp
    rw [hwhere, orgLabels_of_below hlong hi, orgLabels_of_below hall hbelow]
    by_cases hnear : ls.length + i < walkMaxSteps
    · rw [if_pos hnear, if_pos (by omega), hfar]
      exact iff_of_true rfl fun _ => .inl hnear
    · rw [if_neg hnear, hdefault]
      by_cases hreach : i < walkMaxSteps
      · rw [if_pos hreach]
        constructor
        · intro heq _
          have hlength := congrArg List.length heq
          rw [List.length_drop, List.length_drop] at hlength
          exact .inr (by omega)
        · intro h
          obtain hshort | hlast := h hreach
          · exact absurd hshort hnear
          · rw [show ds.length - 2 = i by omega]
      · rw [if_neg hreach]
        exact iff_of_true rfl fun h => absurd h hreach
  · have hnone : ∀ i, ¬ Climb.Below (suffixMark u txt) ds i := fun i hi => hsome ⟨i, hi⟩
    have hnoneAll : ∀ i, ¬ Climb.Below (suffixMark u txt) (ls ++ ds) i := fun i hi =>
      hnone _ ((Climb.below_append hfront).mp hi).2
    rw [orgLabels_of_unmarked hlong hnone, orgLabels_of_unmarked hall hnoneAll, hdefault]
    exact iff_of_true rfl fun i hi => absurd hi (hnone i)

theorem notMem_of_mem_splitOn {c : Char} {s l : Text} (h : l ∈ s.splitOn c) : c ∉ l := by
  induction s generalizing l with
  | nil =>
    rw [List.splitOn_nil, List.mem_singleton] at h
    rw [h]
    exact List.not_mem_nil
  | cons x s ih =>
    rw [List.splitOn_cons_eq_if_modifyHead] at h
    split_ifs at h with hx
    · obtain rfl | hl := List.mem_cons.mp h
      · exact List.not_mem_nil
      · exact ih hl
    · obtain ⟨first, rest, hsplit⟩ := List.exists_cons_of_ne_nil (List.splitOn_ne_nil c s)
      rw [hsplit, List.modifyHead_cons] at h
      have hfirst : c ∉ first := ih (by rw [hsplit]; exact List.mem_cons_self)
      obtain rfl | hl := List.mem_cons.mp h
      · intro hmem
        obtain rfl | hmem := List.mem_cons.mp hmem
        · simp at hx
        · exact hfirst hmem
      · exact ih (by rw [hsplit]; exact List.mem_cons_of_mem _ hl)

theorem join_inj {xs ys : List Text} (hx : xs ≠ []) (hy : ys ≠ []) (hxs : ∀ l ∈ xs, '.' ∉ l)
    (hys : ∀ l ∈ ys, '.' ∉ l) : join ['.'] xs = join ['.'] ys ↔ xs = ys := by
  refine ⟨fun h => ?_, congrArg _⟩
  have hsplit := congrArg (List.splitOn '.') h
  rwa [join, join, List.splitOn_intercalate '.' hxs hx,
    List.splitOn_intercalate '.' hys hy] at hsplit

theorem orgLabels_suffix (u : CaseMap) (txt : Text → TxtAnswer) (labels : List Text) :
    ∃ i, i ≤ labels.length - 2 ∧ orgLabels u txt labels = labels.drop i := by
  by_cases hlong : 3 ≤ labels.length
  · by_cases hsome : ∃ i, Climb.Below (suffixMark u txt) labels i
    · obtain ⟨i, hi⟩ := hsome
      have hlt := Below.lt_pred hi
      refine ⟨_, ?_, orgLabels_of_below hlong hi⟩
      split_ifs <;> omega
    · exact ⟨_, Nat.le_refl _, orgLabels_of_unmarked hlong fun i hi => hsome ⟨i, hi⟩⟩
  · exact ⟨0, Nat.zero_le _, by rw [orgLabels, if_pos (by omega), List.drop_zero]⟩

theorem orgDomain_inj {a b : Text} (u : CaseMap) (txt : Text → TxtAnswer) :
    orgDomain u txt a = orgDomain u txt b ↔
      orgLabels u txt (a.splitOn '.') = orgLabels u txt (b.splitOn '.') := by
  have hlabels : ∀ s : Text, orgLabels u txt (s.splitOn '.') ≠ [] ∧
      ∀ l ∈ orgLabels u txt (s.splitOn '.'), '.' ∉ l := by
    intro s
    obtain ⟨i, hi, heq⟩ := orgLabels_suffix u txt (s.splitOn '.')
    have hpos := List.length_pos_iff.mpr (List.splitOn_ne_nil '.' s)
    rw [heq]
    refine ⟨?_, fun l hl => ?_⟩
    · rw [Ne, List.drop_eq_nil_iff]
      omega
    · exact notMem_of_mem_splitOn (List.mem_of_mem_drop hl)
  exact join_inj (hlabels a).1 (hlabels b).1 (hlabels a).2 (hlabels b).2

end

/-- For a name of three labels or more and any labels in front of it, with no public suffix
at the name or in between: both walks return, and they find the same organisational domain
if and only if the first public suffix above the name that its walk reaches is reached by
the longer walk as well, or is the last label. -/
theorem org_domain_stable (u : CaseMap) (txt : Text → TxtAnswer) (hanswers : Answers txt)
    (front domain : Text) (hlong : 3 ≤ (domain.splitOn '.').length)
    (hfront : ∀ i < (front.splitOn '.').length,
      isPsd u (zoneTags u txt (join ['.'] ((front.splitOn '.').drop (i + 1) ++
        domain.splitOn '.'))) = false)
    (ctx ctx' : DmarcCtx) (hctx : Faithful u txt ctx) (hctx' : Faithful u txt ctx')
    (hroom : ctx.lookups + walkMaxSteps ≤ maxDmarcLookups)
    (hroom' : ctx'.lookups + walkMaxSteps ≤ maxDmarcLookups) :
    ∃ longer shorter last last',
      computeOrgDomain u txt (front ++ '.' :: domain) ctx = .ok (longer, last) ∧
      computeOrgDomain u txt domain ctx' = .ok (shorter, last') ∧
      (longer = shorter ↔
        ∀ i, Climb.Below (suffixMark u txt) (domain.splitOn '.') i → i < walkMaxSteps →
          (front.splitOn '.').length + i < walkMaxSteps ∨ i + 2 = (domain.splitOn '.').length) := by
  obtain ⟨last, hlonger, -, -⟩ :=
    computeOrgDomain_ok hanswers hctx hroom (front ++ '.' :: domain)
  obtain ⟨last', hshorter, -, -⟩ := computeOrgDomain_ok hanswers hctx' hroom' domain
  refine ⟨_, _, last, last', hlonger, hshorter, ?_⟩
  rw [orgDomain_inj, List.splitOn_append_cons_self]
  refine orgLabels_append hlong fun i hi => ?_
  rw [suffixMark, hfront i hi, Bool.and_false]

/-- A registry at `co.uk`, and nothing else. -/
def registryZone (name : Text) : TxtAnswer :=
  if name = "_dmarc.co.uk".toList then .records ["v=DMARC1; psd=y".toList] else .notFound

theorem registryZone_answers : Answers registryZone := by
  intro name
  unfold registryZone
  split_ifs
  · exact fun h => by cases h
  · exact fun h => by cases h

/-- From nine labels below, the tenth step ends just before `co.uk`. -/
theorem org_domain_stable_fails :
    ¬ ∀ (u : CaseMap) (txt : Text → TxtAnswer), Answers txt → ∀ front domain : Text,
      3 ≤ (domain.splitOn '.').length →
      (∀ i < (front.splitOn '.').length,
        isPsd u (zoneTags u txt (join ['.'] ((front.splitOn '.').drop (i + 1) ++
          domain.splitOn '.'))) = false) →
      (computeOrgDomain u txt (front ++ '.' :: domain) {}).toOption.map (·.1) =
        (computeOrgDomain u txt domain {}).toOption.map (·.1) := by
  intro h
  have hsame := h ⟨id, id⟩ registryZone registryZone_answers "a.b.c.d.e.f.g.h.i".toList
    "mail.example.co.uk".toList (by decide +kernel) (by decide +kernel)
  have hlonger : (computeOrgDomain ⟨id, id⟩ registryZone ("a.b.c.d.e.f.g.h.i".toList ++
      '.' :: "mail.example.co.uk".toList) {}).toOption.map (·.1) = some "co.uk".toList := by
    decide +kernel
  have hshorter : (computeOrgDomain ⟨id, id⟩ registryZone
      "mail.example.co.uk".toList {}).toOption.map (·.1) = some "example.co.uk".toList := by
    decide +kernel
  rw [hlonger, hshorter] at hsame
  exact absurd hsame (by decide)

/-- From eight labels below, the walk still reaches it. -/
theorem org_domain_stable_registry :
    ∃ longer shorter last last',
      computeOrgDomain ⟨id, id⟩ registryZone "a.b.c.d.e.f.g.h.mail.example.co.uk".toList {} =
        .ok (longer, last) ∧
      computeOrgDomain ⟨id, id⟩ registryZone "mail.example.co.uk".toList {} = .ok (shorter, last') ∧
      longer = shorter := by
  obtain ⟨longer, shorter, last, last', hlonger, hshorter, hiff⟩ :=
    org_domain_stable ⟨id, id⟩ registryZone registryZone_answers "a.b.c.d.e.f.g.h".toList
      "mail.example.co.uk".toList (by decide +kernel) (by decide +kernel) {} {}
      (faithful_fresh _ _) (faithful_fresh _ _) (by decide) (by decide)
  have hbelow : Climb.Below (suffixMark ⟨id, id⟩ registryZone)
      ("mail.example.co.uk".toList.splitOn '.') 1 :=
    ⟨by decide +kernel, by decide +kernel, by decide +kernel⟩
  refine ⟨longer, shorter, last, last', hlonger, hshorter, hiff.mpr fun i hi _ => .inl ?_⟩
  rw [hi.unique hbelow]
  decide +kernel

end Ionosphere.MailAuth
