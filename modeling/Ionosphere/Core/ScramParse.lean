import Ionosphere.Core.Base64

/-! What the hand-written parsers of the SCRAM messages read: the attributes of a message, the
name behind its escapes and the proof at the end of the last message. -/
namespace Ionosphere.Core

open Ionosphere.Js Ionosphere.Lib

/-- The value behind the first part that starts with the key and `=`. -/
def attributeOf (key s : Text) : Option Text :=
  (s.splitOn ',').findSome? (stripPrefix (key ++ ['=']))

theorem stripPrefix_append (pre rest : Text) : stripPrefix pre (pre ++ rest) = some rest := by
  simp [stripPrefix]

theorem stripPrefix_key {key key' v : Text} (h : '=' ∉ key) (h' : '=' ∉ key') :
    stripPrefix (key ++ ['=']) (key' ++ '=' :: v) = if key' = key then some v else none := by
  split_ifs with hkey
  · have heq : key' ++ '=' :: v = (key ++ ['=']) ++ v := by
      rw [hkey]
      simp
    rw [heq, stripPrefix_append]
  · have hno : ¬ (key ++ ['=']).isPrefixOf (key' ++ '=' :: v) = true := by
      intro hpre
      obtain ⟨rest, hrest⟩ := List.isPrefixOf_iff_prefix.mp hpre
      have hboth : some (key, rest) = some (key', v) := by
        rw [← splitFirst_of_notMem h rest, ← splitFirst_of_notMem h' v, ← hrest]
        simp
      exact hkey (Prod.mk.inj (Option.some.inj hboth)).1.symm
    rw [stripPrefix, if_neg hno]

theorem get_scramAttrs {s : Text} {attrs : List (Text × Text)} (h : scramAttrs s = some attrs)
    {key : Text} (hkey : '=' ∉ key) : Assoc.get attrs key = attributeOf key s := by
  unfold attributeOf
  unfold scramAttrs at h
  generalize s.splitOn ',' = parts at h ⊢
  suffices hall : Assoc.get attrs key =
      (Assoc.get [] key).or (parts.findSome? (stripPrefix (key ++ ['=']))) by
    simpa using hall
  generalize ([] : List (Text × Text)) = acc at h ⊢
  induction parts generalizing acc with
  | nil =>
    obtain rfl : acc = attrs := Option.some.inj h
    simp
  | cons part parts ih =>
    rw [List.foldlM_cons] at h
    cases hsplit : splitFirst '=' part with
    | none =>
      rw [hsplit] at h
      cases h
    | some kv =>
      obtain ⟨k, v⟩ := kv
      rw [hsplit] at h
      dsimp only at h
      obtain ⟨rfl, hk⟩ := eq_of_splitFirst hsplit
      have hpart := stripPrefix_key (v := v) hkey hk
      split_ifs at h with hempty hseen
      · cases h
      · rw [ih acc h, List.findSome?_cons, hpart]
        split_ifs with hsame
        · obtain ⟨w, hw⟩ := Option.isSome_iff_exists.mp (hsame ▸ hseen)
          simp [hw]
        · rfl
      · rw [ih _ h, List.findSome?_cons, hpart, Assoc.get_set]
        split_ifs with hsame
        · have hnone : Assoc.get acc key = none := by
            rw [← hsame]
            simpa using hseen
          simp [hnone]
        · rfl

def escapeName (name : Text) : Text :=
  name.flatMap fun c => if c = ',' then "=2C".toList else if c = '=' then "=3D".toList else [c]

theorem escapeName_cons (c : Char) (name : Text) : escapeName (c :: name) =
    (if c = ',' then "=2C".toList else if c = '=' then "=3D".toList else [c]) ++ escapeName name :=
  rfl

theorem comma_notMem_escapeName (name : Text) : ',' ∉ escapeName name := by
  intro hmem
  obtain ⟨c, -, hc⟩ := List.mem_flatMap.mp hmem
  split_ifs at hc with hcomma hequals
  · exact absurd hc (by decide)
  · exact absurd hc (by decide)
  · exact hcomma (List.mem_singleton.mp hc).symm

theorem saslNameOk_escapeName (name : Text) : saslNameOk (escapeName name) = true := by
  induction name with
  | nil => rfl
  | cons c name ih =>
    rw [escapeName_cons]
    split_ifs with hcomma hequals
    · simpa [saslNameOk] using ih
    · simpa [saslNameOk] using ih
    · have hstep : saslNameOk (c :: escapeName name) = saslNameOk (escapeName name) := by
        rw [saslNameOk]
        exact fun h => hequals h
      rw [List.singleton_append, hstep, ih]

theorem replaceEscapeExact_cons {x y r c : Char} (hc : c ≠ '=') (rest : Text) :
    replaceEscapeExact x y r (c :: rest) = c :: replaceEscapeExact x y r rest := by
  rw [replaceEscapeExact]
  exact fun a b tail h => absurd h hc

theorem replaceEscapeExact_hit {x y r : Char} (rest : Text) :
    replaceEscapeExact x y r ('=' :: x :: y :: rest) = r :: replaceEscapeExact x y r rest := by
  rw [replaceEscapeExact, if_pos ⟨rfl, rfl⟩]

theorem replaceEscapeExact_miss {x y r a b : Char} (hab : ¬ (a = x ∧ b = y)) (rest : Text) :
    replaceEscapeExact x y r ('=' :: a :: b :: rest) =
      '=' :: replaceEscapeExact x y r (a :: b :: rest) := by
  rw [replaceEscapeExact, if_neg hab]

/-- Commas come back first, then equals signs; neither brings back the other's escape. -/
theorem unescapeName_escapeName (name : Text) : unescapeName (escapeName name) = some name := by
  have hcommas : replaceEscapeExact '2' 'C' ',' (escapeName name) =
      name.flatMap fun c => if c = '=' then "=3D".toList else [c] := by
    induction name with
    | nil => rfl
    | cons c name ih =>
      rw [escapeName_cons, List.flatMap_cons, ← ih]
      by_cases hcomma : c = ','
      · rw [hcomma]
        exact replaceEscapeExact_hit (escapeName name)
      · rw [if_neg hcomma]
        split_ifs with hc
        · have hmiss := replaceEscapeExact_miss (x := '2') (y := 'C') (r := ',')
            (show ¬ ('3' = '2' ∧ 'D' = 'C') by decide) (escapeName name)
          have hplain : replaceEscapeExact '2' 'C' ',' ('3' :: 'D' :: escapeName name) =
              '3' :: 'D' :: replaceEscapeExact '2' 'C' ',' (escapeName name) := by
            rw [replaceEscapeExact_cons (by decide), replaceEscapeExact_cons (by decide)]
          rw [hc, hplain] at *
          exact hmiss
        · exact replaceEscapeExact_cons hc (escapeName name)
  have hequals : replaceEscapeExact '3' 'D' '='
      (name.flatMap fun c => if c = '=' then "=3D".toList else [c]) = name := by
    clear hcommas
    induction name with
    | nil => rfl
    | cons c name ih =>
      rw [List.flatMap_cons]
      split_ifs with hc
      · have hhit := replaceEscapeExact_hit (x := '3') (y := 'D') (r := '=')
          (name.flatMap fun c => if c = '=' then "=3D".toList else [c])
        rw [ih] at hhit
        rw [hc]
        exact hhit
      · rw [List.singleton_append, replaceEscapeExact_cons hc, ih]
  rw [unescapeName, if_pos (saslNameOk_escapeName name), hcommas, hequals]

theorem splitLast_none {pat s : Text} (h : splitLast pat s = none) (hpat : pat ≠ [])
    (a b : Text) : s ≠ a ++ pat ++ b := by
  induction s generalizing a with
  | nil =>
    intro heq
    simp [hpat] at heq
  | cons c cs ih =>
    rw [splitLast] at h
    cases hrest : splitLast pat cs with
    | some r =>
      rw [hrest] at h
      cases h
    | none =>
      rw [hrest] at h
      dsimp only at h
      split_ifs at h with hpre
      intro heq
      cases a with
      | nil => exact hpre (List.isPrefixOf_iff_prefix.mpr ⟨b, by simpa using heq.symm⟩)
      | cons d a => exact ih hrest a (List.cons.inj heq).2

theorem splitLast_some {pat s a b : Text} (h : splitLast pat s = some (a, b)) (hpat : pat ≠ []) :
    s = a ++ pat ++ b ∧ ∀ a' b', s = a' ++ pat ++ b' → a'.length ≤ a.length := by
  induction s generalizing a with
  | nil => cases h
  | cons c cs ih =>
    rw [splitLast] at h
    cases hrest : splitLast pat cs with
    | some r =>
      obtain ⟨a₁, b₁⟩ := r
      rw [hrest] at h
      obtain ⟨rfl, rfl⟩ := Prod.mk.inj (Option.some.inj h)
      obtain ⟨heq, hlast⟩ := ih hrest
      refine ⟨by rw [heq]; rfl, fun a' b' ha' => ?_⟩
      cases a' with
      | nil => exact Nat.zero_le _
      | cons d a' => exact Nat.succ_le_succ (hlast a' b' (List.cons.inj ha').2)
    | none =>
      rw [hrest] at h
      dsimp only at h
      split_ifs at h with hpre
      obtain ⟨rfl, rfl⟩ := Prod.mk.inj (Option.some.inj h)
      obtain ⟨rest, hcs⟩ := List.isPrefixOf_iff_prefix.mp hpre
      refine ⟨by rw [← hcs]; simp, fun a' b' ha' => ?_⟩
      cases a' with
      | nil => exact Nat.zero_le _
      | cons d a' => exact absurd (List.cons.inj ha').2 (splitLast_none hrest hpat a' b')

theorem splitLast_of_notMem {x : Char} {pat : Text} {s : Text} (h : x ∉ s) :
    splitLast (x :: pat) s = none := by
  induction s with
  | nil => rfl
  | cons c cs ih =>
    have hc : x ≠ c := fun hxc => h (hxc ▸ List.mem_cons_self ..)
    rw [splitLast, ih fun hmem => h (List.mem_cons_of_mem c hmem)]
    simp [hc]

theorem splitLast_append {x : Char} {pat b : Text} (hpat : x ∉ pat) (hb : x ∉ b) (a : Text) :
    splitLast (x :: pat) (a ++ (x :: pat) ++ b) = some (a, b) := by
  induction a with
  | nil =>
    have hrest : splitLast (x :: pat) (pat ++ b) = none :=
      splitLast_of_notMem (by simp [hpat, hb])
    rw [List.nil_append, List.cons_append, splitLast, hrest]
    simp
  | cons c a ih =>
    rw [List.cons_append, List.cons_append, splitLast, ih]

end Ionosphere.Core
