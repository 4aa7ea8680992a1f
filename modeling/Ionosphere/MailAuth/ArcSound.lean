import Ionosphere.MailAuth.Arc
import Ionosphere.MailAuth.RoundTrip

/-! What a chain that passes is worth: the signatures verify over the sets that were gathered, but
neither `cv=` nor fields that were not gathered are looked at. -/
namespace Ionosphere.MailAuth

open Ionosphere.Js Ionosphere.Core Ionosphere.Lib

variable {f : HeaderField} {sets : List FullSet}

def ArcSet.part (s : ArcSet) : ArcKind → Option HeaderField
  | .aar => s.aar
  | .ams => s.ams
  | .seal => s.sealField

def FullSet.part (s : FullSet) : ArcKind → HeaderField
  | .aar => s.aar
  | .ams => s.ams
  | .seal => s.sealField

def FullSet.toSet (s : FullSet) (i : Nat) : ArcSet := ⟨some i, s.aar, s.ams, s.sealField⟩

theorem FullSet.part_toSet (s : FullSet) (i : Nat) (kind : ArcKind) :
    (s.toSet i).part kind = some (s.part kind) := by
  cases kind <;> rfl

theorem ArcSet.part_put (s : ArcSet) (f : HeaderField) (kind kind' : ArcKind) :
    (s.put f kind).part kind' = if kind = kind' then some f else s.part kind' := by
  cases kind <;> cases kind' <;> rfl

section

variable (u : CaseMap)

def fieldsOf (fields : List HeaderField) (kind : ArcKind) (i : Option Nat) : List HeaderField :=
  fields.filter fun f => arcKind u f = some kind && instanceOf f = some i

variable {u} {fields : List HeaderField} {kind : ArcKind} {i : Option Nat}

theorem mem_fieldsOf : f ∈ fieldsOf u fields kind i ↔
    f ∈ fields ∧ arcKind u f = some kind ∧ instanceOf f = some i := by
  simp [fieldsOf]

theorem addArc_eq (sets : List (Option Nat × ArcSet))
    (hkind : arcKind u f = some kind) (hinst : instanceOf f = some i) (hi : i ≠ some 0) :
    addArc u sets f =
      Assoc.set sets i (((Assoc.get sets i).getD { inst := i }).put f kind) := by
  rw [addArc, hkind, hinst]
  exact if_neg hi

theorem addArc_other (sets : List (Option Nat × ArcSet))
    (h : ∀ kind i, arcKind u f = some kind → instanceOf f = some i → i = some 0) :
    addArc u sets f = sets := by
  rw [addArc]
  split
  next kind i hkind hinst => exact if_pos (h kind i hkind hinst)
  next => rfl

theorem addArc_cases (f : HeaderField) :
    (∃ kind i, arcKind u f = some kind ∧ instanceOf f = some i ∧ i ≠ some 0) ∨
      ∀ kind i, arcKind u f = some kind → instanceOf f = some i → i = some 0 := by
  by_cases h : ∃ kind i, arcKind u f = some kind ∧ instanceOf f = some i ∧ i ≠ some 0
  · exact .inl h
  · refine .inr fun kind i hkind hinst => ?_
    by_contra hi
    exact h ⟨kind, i, hkind, hinst, hi⟩

/-- The sets are found under their instance, once each. -/
structure Gathered (sets : List (Option Nat × ArcSet)) : Prop where
  nodup : (sets.map Prod.fst).Nodup
  inst : ∀ i s, Assoc.get sets i = some s → s.inst = i

theorem gathered_addArc {sets : List (Option Nat × ArcSet)} (h : Gathered sets) (f : HeaderField) :
    Gathered (addArc u sets f) := by
  rcases addArc_cases (u := u) f with ⟨kind, i, hkind, hinst, hi⟩ | hother
  · rw [addArc_eq sets hkind hinst hi]
    refine ⟨Assoc.nodup_set h.nodup _ _, fun j s hs => ?_⟩
    rw [Assoc.get_set] at hs
    split_ifs at hs with hij
    · have hput : ∀ s : ArcSet, (s.put f kind).inst = s.inst := by
        intro s
        cases kind <;> rfl
      rw [← Option.some.inj hs, hput, ← hij]
      cases hget : Assoc.get sets i with
      | none => rfl
      | some s => exact h.inst i s hget
    · exact h.inst j s hs
  · rw [addArc_other sets hother]
    exact h

theorem gathered_foldl (fields : List HeaderField) : Gathered (fields.foldl (addArc u) []) := by
  induction fields using List.reverseRecOn with
  | nil => exact ⟨List.nodup_nil, fun i s hs => nomatch hs⟩
  | append_singleton fields f ih =>
    rw [List.foldl_concat]
    exact gathered_addArc ih f

theorem part_foldl (fields : List HeaderField) (kind : ArcKind) (hi : i ≠ some 0) :
    (Assoc.get (fields.foldl (addArc u) []) i).bind (fun s => s.part kind) =
      (fieldsOf u fields kind i).getLast? := by
  induction fields using List.reverseRecOn with
  | nil => rfl
  | append_singleton fields f ih =>
    rw [List.foldl_concat, fieldsOf, List.filter_append, ← fieldsOf]
    rcases addArc_cases (u := u) f with ⟨kind', j, hkind, hinst, hj⟩ | hother
    · rw [addArc_eq _ hkind hinst hj, Assoc.get_set]
      by_cases hij : j = i
      · rw [if_pos hij, Option.bind_some, ArcSet.part_put, hij]
        by_cases hsame : kind' = kind
        · rw [if_pos hsame, List.filter_cons_of_pos (by simp [hkind, hinst, hij, hsame])]
          simp
        · rw [if_neg hsame, List.filter_cons_of_neg (by simp [hkind, hsame]), List.filter_nil,
            List.append_nil, ← ih]
          cases Assoc.get (fields.foldl (addArc u) []) i with
          | none => cases kind <;> rfl
          | some s => rfl
      · rw [if_neg hij, List.filter_cons_of_neg (by simp [hinst, hij]), List.filter_nil,
          List.append_nil, ih]
    · have hnone : fieldsOf u [f] kind i = [] := by
        refine List.filter_eq_nil_iff.mpr fun g hg => ?_
        rw [List.mem_singleton.mp hg, Bool.and_eq_true, decide_eq_true_eq, decide_eq_true_eq]
        exact fun h => hi (hother kind i h.1 h.2)
      rw [addArc_other _ hother, ← fieldsOf, hnone, List.append_nil, ih]

theorem mem_chainOf {s : ArcSet} :
    s ∈ chainOf u fields ↔ Assoc.get (fields.foldl (addArc u) []) s.inst = some s := by
  have hgathered := gathered_foldl (u := u) fields
  rw [chainOf, List.mem_insertionSort, List.mem_map]
  constructor
  · rintro ⟨⟨i, s⟩, hmem, rfl⟩
    have hget := (Assoc.mem_iff_get hgathered.nodup i s).mp hmem
    rw [hgathered.inst i s hget]
    exact hget
  · intro hget
    exact ⟨(s.inst, s), (Assoc.mem_iff_get hgathered.nodup _ _).mpr hget, rfl⟩

theorem completeFrom_eq_ok {k : Nat} {chain : List ArcSet} :
    completeFrom k chain = .ok sets ↔
      chain = (sets.zipIdx (k + 1)).map fun p => p.1.toSet p.2 := by
  induction chain generalizing k sets with
  | nil =>
    rw [completeFrom]
    cases sets <;> simp
  | cons s chain ih =>
    constructor
    · intro h
      rw [completeFrom] at h
      split at h
      next aar ams sealField haar hams hseal =>
        split_ifs at h with hinst
        cases hrest : completeFrom (k + 1) chain with
        | error s =>
          rw [hrest] at h
          cases h
        | ok full =>
          rw [hrest] at h
          obtain rfl := Except.ok.inj h
          have hs : s = FullSet.toSet ⟨aar, ams, sealField⟩ (k + 1) := by
            rw [FullSet.toSet, ← haar, ← hams, ← hseal, ← not_not.mp hinst]
          rw [List.zipIdx_cons, List.map_cons, ← ih.mp hrest, ← hs]
      next => cases h
    · intro h
      cases sets with
      | nil => cases h
      | cons full sets =>
        rw [List.zipIdx_cons, List.map_cons] at h
        obtain ⟨rfl, hrest⟩ := List.cons.inj h
        rw [completeFrom, FullSet.toSet]
        dsimp only
        rw [if_neg (not_not.mpr rfl), ih.mpr hrest]
        rfl

end

section

variable {K : Type} (c : Crypto K) (u : CaseMap)

/-- One field of each kind for each instance up to `n` and no other field of the chain; the first
seal says `cv=none` and the later ones `cv=pass`. -/
structure WellFormedChain (fields : List HeaderField) (n : Nat) : Prop where
  one : ∀ kind i, 1 ≤ i → i ≤ n → ∃ f, fieldsOf u fields kind (some i) = [f]
  others : ∀ f ∈ fields, ∀ kind, arcKind u f = some kind →
    ∃ i, 1 ≤ i ∧ i ≤ n ∧ instanceOf f = some (some i)
  cv : ∀ f ∈ fields, arcKind u f = some .seal → Assoc.get (parseTags u f) "cv".toList =
    some (if instanceOf f = some (some 1) then "none".toList else "pass".toList)

/-- The message carries these sets and nothing else of a chain, and they verify. -/
structure Sound (resolveTxt : Text → Except Text (List Text)) (raw : Bytes) (sets : List FullSet) :
    Prop where
  ne_nil : sets ≠ []
  chain : WellFormedChain u (readMessage raw).1 sets.length
  carried : ∀ k s, sets[k]? = some s → ∀ kind,
    fieldsOf u (readMessage raw).1 kind (some (k + 1)) = [s.part kind]
  seals : ∀ k s, sets[k]? = some s → verifySeal c u resolveTxt (sets.take k) s = .ok none
  ams : ∀ s, sets.getLast? = some s → verifyAms c u resolveTxt raw s.ams = .ok none

def sealTagNames : List String := ["d", "s", "a", "b"]

def amsTagNames : List String := ["d", "s", "a", "bh", "b", "h"]

/-- The message gets as far as its signatures: the chain is complete and not too long, and the tags
that are needed are there. -/
structure Presentable (raw : Bytes) (sets : List FullSet) : Prop where
  complete : completeFrom 0 (parseArcChain u raw) = .ok sets
  ne_nil : sets ≠ []
  length : sets.length ≤ maxArcSets
  seals : ∀ s ∈ sets, ∀ name ∈ sealTagNames, getTag (parseTags u s.sealField) name ≠ []
  ams : ∀ s, sets.getLast? = some s → (∀ name ∈ amsTagNames, getTag (parseTags u s.ams) name ≠ []) ∧
    ∃ digest : Bytes, digest.length = 32 ∧ getTag (parseTags u s.ams) "bh" = base64Encode digest

variable {c u} {resolveTxt : Text → Except Text (List Text)} {raw : Bytes}

theorem verifySeals_eq_ok {prior sets : List FullSet} :
    verifySeals c u resolveTxt prior sets = .ok none ↔
      ∀ k s, sets[k]? = some s → verifySeal c u resolveTxt (prior ++ sets.take k) s = .ok none := by
  induction sets generalizing prior with
  | nil => exact iff_of_true rfl fun k s h => nomatch h
  | cons current sets ih =>
    rw [verifySeals]
    constructor
    · intro h k s hk
      cases hseal : verifySeal c u resolveTxt prior current with
      | error err =>
        rw [hseal] at h
        cases h
      | ok result =>
        cases result with
        | some reason =>
          rw [hseal] at h
          cases h
        | none =>
          rw [hseal] at h
          cases k with
          | zero =>
            obtain rfl := Option.some.inj hk
            rw [List.take_zero, List.append_nil]
            exact hseal
          | succ k =>
            have hrest := ih.mp h k s hk
            rwa [List.append_assoc] at hrest
    · intro h
      have hfirst := h 0 current rfl
      rw [List.take_zero, List.append_nil] at hfirst
      rw [hfirst]
      refine ih.mpr fun k s hk => ?_
      rw [List.append_assoc]
      exact h (k + 1) s hk

theorem length_of_complete (h : completeFrom 0 (parseArcChain u raw) = .ok sets) :
    (parseArcChain u raw).length = sets.length := by
  rw [completeFrom_eq_ok.mp h, List.length_map, List.length_zipIdx]

theorem arcVerify_pass {r : ArcVerifyResult} :
    arcVerify c u raw resolveTxt = .ok r ∧ r.cv = .pass ↔
      ∃ sets, r = { cv := .pass, instances := sets.length } ∧ sets ≠ [] ∧
        sets.length ≤ maxArcSets ∧ completeFrom 0 (parseArcChain u raw) = .ok sets ∧
        (∀ s, sets.getLast? = some s → verifyAms c u resolveTxt raw s.ams = .ok none) ∧
        ∀ k s, sets[k]? = some s → verifySeal c u resolveTxt (sets.take k) s = .ok none := by
  rw [arcVerify]
  dsimp only
  constructor
  · rintro ⟨h, hpass⟩
    have hother : ∀ {cv n reason}, Except.ok (⟨cv, n, reason⟩ : ArcVerifyResult) =
        (Except.ok r : Except Text _) → cv = .pass := by
      rintro cv n reason h
      obtain rfl := Except.ok.inj h
      exact hpass
    split_ifs at h with hlong
    · cases hother h
    cases hcomplete : completeFrom 0 (parseArcChain u raw) with
    | error s =>
      rw [hcomplete] at h
      cases hother h
    | ok sets =>
      rw [hcomplete] at h
      dsimp only at h
      cases hlast : sets.getLast? with
      | none =>
        rw [hlast] at h
        cases hother h
      | some newest =>
        rw [hlast] at h
        dsimp only at h
        split at h
        next => cases h
        next => cases hother h
        next hams =>
          split at h
          next => cases h
          next => cases hother h
          next hseals =>
            have hlength := length_of_complete hcomplete
            obtain rfl := Except.ok.inj h
            have hne : sets ≠ [] := by
              rintro rfl
              cases hlast
            have hams' : ∀ s, sets.getLast? = some s →
                verifyAms c u resolveTxt raw s.ams = .ok none := by
              intro s hs
              obtain rfl := Option.some.inj (hlast.symm.trans hs)
              exact hams
            have hr : (⟨.pass, (parseArcChain u raw).length, none⟩ : ArcVerifyResult) =
                ⟨.pass, sets.length, none⟩ := by
              rw [hlength]
            have hshort : sets.length ≤ maxArcSets := hlength ▸ Nat.not_lt.mp hlong
            have hseals' : ∀ k s, sets[k]? = some s →
                verifySeal c u resolveTxt (sets.take k) s = .ok none := by
              intro k s hk
              have hseal := verifySeals_eq_ok.mp hseals k s hk
              rwa [List.nil_append] at hseal
            exact ⟨sets, hr, hne, hshort, rfl, hams', hseals'⟩
  · rintro ⟨sets, rfl, hne, hshort, hcomplete, hams, hseals⟩
    have hlength := length_of_complete hcomplete
    obtain ⟨newest, hlast⟩ := Option.ne_none_iff_exists'.mp
      (fun hnone => hne (List.getLast?_eq_none_iff.mp hnone))
    have hseals' : verifySeals c u resolveTxt [] sets = .ok none := by
      refine verifySeals_eq_ok.mpr fun k s hk => ?_
      rw [List.nil_append]
      exact hseals k s hk
    rw [if_neg (by omega), hcomplete]
    dsimp only
    rw [hlast]
    dsimp only
    rw [hams newest hlast]
    dsimp only
    rw [hseals', hlength]
    exact ⟨rfl, rfl⟩

end

def permissive (digest : Bytes) (h : digest.length = 32) : Crypto Unit where
  sha256 := fun _ => digest
  sha256_length := fun _ => h
  sign := fun _ _ _ => .ok []
  verify := fun _ _ _ _ => .ok true
  publicKeyFromDer := fun _ => .ok ((), some 2048)
  publicKeyFromJwk := fun _ => .ok ()

def anyRecord : Text := "p=".toList ++ base64Encode (List.replicate 32 0)

section

variable {u : CaseMap} {digest : Bytes} {hdigest : digest.length = 32} {raw : Bytes}

theorem publicKeyFromTxt_permissive (a : Text) :
    publicKeyFromTxt (permissive digest hdigest) u [anyRecord] a = some () := by
  have hk : matchTag 'k' (pickRun isKeyTypeChar) [anyRecord].flatten = none := by decide +kernel
  have hp : matchTag 'p' (fun s => some (s.takeWhile isKeyChar)) [anyRecord].flatten =
      some (base64Encode (List.replicate 32 0)) := by decide +kernel
  have hstrip : stripWhite (base64Encode (List.replicate 32 0)) =
      base64Encode (List.replicate 32 0) := by decide +kernel
  have hne : base64Encode (List.replicate 32 0) ≠ [] := by decide +kernel
  rw [publicKeyFromTxt, hk]
  dsimp only
  rw [publicKeyFromTxt.importKey, hp]
  dsimp only
  rw [hstrip, if_neg hne, base64Lenient_encode]
  cases keyAlgorithm a <;> rfl

theorem verifySig_permissive (data : Bytes) (b domain selector a : Text) :
    verifySig (permissive digest hdigest) u (fun _ => .ok [anyRecord]) data b domain selector a =
      .ok none := by
  rw [verifySig]
  dsimp only
  rw [publicKeyFromTxt_permissive]
  cases checkAlgorithm a <;> rfl

theorem arcVerify_permissive (h : Presentable u raw sets)
    (hbh : ∀ s, sets.getLast? = some s → getTag (parseTags u s.ams) "bh" = base64Encode digest) :
    arcVerify (permissive digest hdigest) u raw (fun _ => .ok [anyRecord]) =
      .ok { cv := .pass, instances := sets.length } := by
  refine (arcVerify_pass.mpr ⟨sets, rfl, h.ne_nil, h.length, h.complete, fun s hs => ?_,
    fun k s hk => ?_⟩).1
  · have htags := (h.ams s hs).1
    simp only [amsTagNames, List.forall_mem_cons] at htags
    obtain ⟨hd, hs', ha, hbh', hb, hh, -⟩ := htags
    have hdigest' : ∀ t, sha256Text (permissive digest hdigest) t = digest := fun _ => rfl
    rw [verifyAms]
    dsimp only
    rw [if_neg (by simp [hd, hs', ha, hbh', hb, hh]), hbh s hs, hdigest',
      if_neg (not_not.mpr rfl), verifySig_permissive]
  · have htags := h.seals s (List.mem_of_getElem? hk)
    simp only [sealTagNames, List.forall_mem_cons] at htags
    obtain ⟨hd, hs', ha, hb, -⟩ := htags
    rw [verifySeal, if_neg (by simp [hd, hs', ha, hb]), verifySig_permissive]

end

section

variable {K : Type} {c : Crypto K} {u : CaseMap} {resolveTxt : Text → Except Text (List Text)}
  {raw : Bytes}

theorem presentable_of_pass {r : ArcVerifyResult}
    (h : arcVerify c u raw resolveTxt = .ok r ∧ r.cv = .pass) : ∃ sets, Presentable u raw sets := by
  obtain ⟨sets, -, hne, hshort, hcomplete, hams, hseals⟩ := arcVerify_pass.mp h
  refine ⟨sets, hcomplete, hne, hshort, fun s hs => ?_, fun s hs => ?_⟩
  · obtain ⟨k, hk⟩ := List.getElem?_of_mem hs
    have hseal := hseals k s hk
    rw [verifySeal] at hseal
    split at hseal
    next => cases hseal
    next htags =>
      simp only [not_or] at htags
      simpa [sealTagNames] using htags
  · have hok := hams s hs
    rw [verifyAms] at hok
    dsimp only at hok
    split at hok
    next => cases hok
    next htags =>
      simp only [not_or] at htags
      split at hok
      next => cases hok
      next hbh =>
        refine ⟨by simpa [amsTagNames] using htags, _, c.sha256_length _, (not_not.mp hbh).symm⟩

theorem getLast_fieldsOf (h : completeFrom 0 (parseArcChain u raw) = .ok sets) {k : Nat}
    {s : FullSet} (hk : sets[k]? = some s) (kind : ArcKind) :
    (fieldsOf u (readMessage raw).1 kind (some (k + 1))).getLast? = some (s.part kind) := by
  have hmem : s.toSet (k + 1) ∈ parseArcChain u raw := by
    rw [completeFrom_eq_ok.mp h, List.mem_map]
    refine ⟨(s, k + 1), List.mem_of_getElem? (i := k) ?_, rfl⟩
    rw [List.getElem?_zipIdx, hk, Option.map_some, Nat.zero_add, Nat.add_comm]
  have hget := mem_chainOf.mp hmem
  rw [← part_foldl _ kind (by simp), show some (k + 1) = (s.toSet (k + 1)).inst from rfl, hget,
    Option.bind_some, s.part_toSet]

theorem le_length_of_fieldsOf (h : completeFrom 0 (parseArcChain u raw) = .ok sets) {n : Nat}
    {kind : ArcKind} (hn : 1 ≤ n)
    (hf : fieldsOf u (readMessage raw).1 kind (some n) = [f]) : n ≤ sets.length := by
  have hne : some n ≠ some 0 := fun h => Nat.ne_of_gt hn (Option.some.inj h)
  have hpart := part_foldl (u := u) (readMessage raw).1 kind hne
  rw [hf, List.getLast?_singleton] at hpart
  obtain ⟨s, hget, -⟩ := Option.bind_eq_some_iff.mp hpart
  have hinst := (gathered_foldl (readMessage raw).1).inst _ s hget
  have hmem : s ∈ parseArcChain u raw := mem_chainOf.mpr (by rw [hinst, hget])
  rw [completeFrom_eq_ok.mp h, List.mem_map] at hmem
  obtain ⟨⟨full, j⟩, hfull, rfl⟩ := hmem
  have hj := (List.mem_zipIdx hfull).2.1
  have hjn : j = n := Option.some.inj hinst
  omega

/-- A chain that passes is sound in every scheme exactly if it is well formed, or is turned away
before its signatures. -/
theorem arc_soundness (u : CaseMap) (raw : Bytes) :
    (∀ (K : Type) (c : Crypto K) (resolveTxt : Text → Except Text (List Text))
      (r : ArcVerifyResult), arcVerify c u raw resolveTxt = .ok r ∧ r.cv = .pass →
        ∃ sets, Sound c u resolveTxt raw sets ∧ r.instances = sets.length) ↔
      ((∃ sets, Presentable u raw sets) → ∃ n, WellFormedChain u (readMessage raw).1 n) := by
  constructor
  · rintro hsound ⟨sets, hpres⟩
    obtain ⟨newest, hlast⟩ := Option.ne_none_iff_exists'.mp
      (fun hnone => hpres.ne_nil (List.getLast?_eq_none_iff.mp hnone))
    obtain ⟨digest, hdigest, hbh⟩ := (hpres.ams newest hlast).2
    have hnewest : ∀ s, sets.getLast? = some s →
        getTag (parseTags u s.ams) "bh" = base64Encode digest := by
      intro s hs
      obtain rfl := Option.some.inj (hlast.symm.trans hs)
      exact hbh
    have hpass : arcVerify (permissive digest hdigest) u raw (fun _ => .ok [anyRecord]) =
        .ok { cv := .pass, instances := sets.length } := arcVerify_permissive hpres hnewest
    obtain ⟨sets', hs, -⟩ := hsound Unit _ _ _ ⟨hpass, rfl⟩
    exact ⟨_, hs.chain⟩
  · intro hwf K c resolveTxt r hpass
    obtain ⟨n, hchain⟩ := hwf (presentable_of_pass hpass)
    obtain ⟨sets, rfl, hne, -, hcomplete, hams, hseals⟩ := arcVerify_pass.mp hpass
    have hle : ∀ k s, sets[k]? = some s → k + 1 ≤ n := by
      intro k s hk
      have hlast := getLast_fieldsOf hcomplete hk .aar
      obtain ⟨hmem, hkind, hinst⟩ := mem_fieldsOf.mp (List.mem_of_getLast? hlast)
      obtain ⟨i, -, hi, hinst'⟩ := hchain.others _ hmem _ hkind
      have hik : i = k + 1 := Option.some.inj (Option.some.inj (hinst'.symm.trans hinst))
      omega
    have hlength : n = sets.length := by
      refine Nat.le_antisymm ?_ ?_
      · rcases Nat.eq_zero_or_pos n with hzero | hpos
        · omega
        · obtain ⟨f, hf⟩ := hchain.one .aar n hpos (Nat.le_refl n)
          exact le_length_of_fieldsOf hcomplete hpos hf
      · have hpos := List.length_pos_iff.mpr hne
        have hlast := hle (sets.length - 1) _ (List.getElem?_eq_getElem (by omega))
        omega
    subst hlength
    refine ⟨sets, ⟨hne, hchain, fun k s hk kind => ?_, hseals, hams⟩, rfl⟩
    obtain ⟨f, hf⟩ := hchain.one kind (k + 1) (by omega) (hle k s hk)
    have hlast := getLast_fieldsOf hcomplete hk kind
    rw [hf, List.getLast?_singleton] at hlast
    rw [hf, Option.some.inj hlast]

end

def sampleSeal (cv : ArcCv) : ArcSealOptions :=
  ⟨"example.com".toList, "s".toList, [], .ed25519Sha256, "mx; dkim=pass".toList, some cv, none, none⟩

def sampleHop (cv : ArcCv) (raw : Bytes) : Bytes :=
  match arcSeal sampleCrypto sampleCaseMap 1000 raw (sampleSeal cv) with
  | .error _ => raw
  | .ok header => prependHeader raw header

def brokenChain : Bytes := sampleHop .fail (sampleHop .none sampleMessage)

/-- It passes. -/
theorem arc_soundness_fails : ¬ ∀ (raw : Bytes) (r : ArcVerifyResult),
    arcVerify sampleCrypto sampleCaseMap raw (fun _ => .ok sampleRecords) = .ok r ∧ r.cv = .pass →
      ∃ sets, Sound sampleCrypto sampleCaseMap (fun _ => .ok sampleRecords) raw sets ∧
        r.instances = sets.length := by
  intro h
  have hpass : arcVerify sampleCrypto sampleCaseMap brokenChain (fun _ => .ok sampleRecords) =
      .ok { cv := .pass, instances := 2 } := by decide +kernel
  obtain ⟨sets, hsound, -⟩ := h brokenChain _ ⟨hpass, rfl⟩
  have hcv : ∃ f ∈ (readMessage brokenChain).1, arcKind sampleCaseMap f = some .seal ∧
      Assoc.get (parseTags sampleCaseMap f) "cv".toList = some "fail".toList := by decide +kernel
  obtain ⟨f, hf, hkind, htag⟩ := hcv
  have hchain := hsound.chain.cv f hf hkind
  rw [htag] at hchain
  split at hchain <;> exact absurd (Option.some.inj hchain) (by decide)

end Ionosphere.MailAuth
