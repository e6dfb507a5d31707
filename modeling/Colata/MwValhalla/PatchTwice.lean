/-
# Patching a patched class

The patcher rewrites one site of each case, the detector looks for any match. Each of
the two writings changes one digit of the dump: the match at the rewritten site is gone,
and all others are still there.
-/

import Colata.MwValhalla.PatchAsmClassReader

namespace Colata.MwValhalla.PatchAsm

open Colata.Math.Occurrence

/-- Writing a byte with the same first digit changes one digit of the dump. -/
theorem getClassBytes_set {data : List UInt8} {k : ℕ} {old : UInt8} (new : UInt8)
    (hold : data[k]? = some old) (hhigh : old.toNat / 16 = new.toNat / 16) :
    getClassBytes (some (data.set k new)) =
      (getClassBytes (some data)).set (2 * k + 1) (Nat.digitChar (new.toNat % 16)) := by
  simp only [getClassBytes, Option.getD_some]
  induction data generalizing k with
  | nil => simp
  | cons byte data ih =>
      cases k with
      | zero =>
          obtain rfl : byte = old := by simpa using hold
          simp [hexByte, hhigh]
      | succ k => simpa [hexByte, Nat.mul_succ] using ih (by simpa using hold)

section CaseA

variable {data : List UInt8} {idx : ℕ}

theorem SiteA.getClassBytes_set (hsite : SiteA data idx) :
    getClassBytes (some (data.set (idx + 1) 72)) =
      (getClassBytes (some data)).set (2 * idx + 3) '8' :=
  PatchAsm.getClassBytes_set 72 hsite.getElem?.2.1 rfl

/-- The digits of a site from the second one on. -/
theorem SiteA.digits (hsite : SiteA data idx) :
    (getClassBytes (some data))[2 * idx + 1]? = some '0' ∧
      (getClassBytes (some data))[2 * idx + 3]? = some '7' ∧
        (getClassBytes (some data))[2 * idx + 5]? = some '4' := by
  obtain ⟨hfirst, hsecond, hthird⟩ := hsite.getElem?
  refine ⟨?_, ?_, ?_⟩
  · rw [getClassBytes_getElem?_odd, hfirst]
    decide
  · rw [show 2 * idx + 3 = 2 * (idx + 1) + 1 by omega, getClassBytes_getElem?_odd, hsecond]
    decide
  · rw [show 2 * idx + 5 = 2 * (idx + 2) + 1 by omega, getClassBytes_getElem?_odd, hthird]
    decide

/-- Rewriting a site of case A removes the match there. -/
theorem SiteA.matchesAt_major_set (hsite : SiteA data idx) (p : ℕ) :
    MatchesAt "1047a4" (data.set (idx + 1) 72) p ↔ MatchesAt "1047a4" data p ∧ p ≠ 2 * idx := by
  have hlost : telling (· ≠ '\n') (regex "1047a4") '7' '8' = [3] := by decide
  rw [MatchesAt, hsite.getClassBytes_set, occursAt_set_iff hsite.digits.2.1 (by decide),
    hlost]
  simp [MatchesAt]

/-- The last digits of bipush 72 and of the two branches differ. -/
theorem SiteA.matchesAt_bipush_set (hsite : SiteA data idx) (p : ℕ) :
    MatchesAt "1048a3" (data.set (idx + 1) 72) p ↔ MatchesAt "1048a3" data p := by
  have hlost : telling (· ≠ '\n') (regex "1048a3") '7' '8' = [] := by decide
  have hnew : telling (· ≠ '\n') (regex "1048a3") '8' '7' = [3] := by decide
  rw [MatchesAt, hsite.getClassBytes_set]
  constructor
  · intro hmatches
    refine hmatches.of_set hsite.digits.2.1 ?_
    simp only [hnew, List.mem_singleton, forall_eq]
    intro hp
    obtain ⟨x, hx, haccepts⟩ := hmatches 5 (some '3') (by decide)
    rw [List.getElem?_set_ne (by omega), show p + 5 = 2 * idx + 5 by omega,
      hsite.digits.2.2] at hx
    obtain rfl : '4' = x := by simpa using hx
    exact absurd haccepts (by decide)
  · intro hmatches
    refine OccursAt.set hmatches hsite.digits.2.1 ?_
    rw [hlost]
    exact fun i hi => absurd hi List.not_mem_nil

/-- The only 7 of the preview expression comes two digits after a c. -/
theorem SiteA.matchesAt_preview_set (hsite : SiteA data idx) (p : ℕ) :
    MatchesAt "150410..a0....2a1c0760b6....99" (data.set (idx + 1) 72) p ↔
      MatchesAt "150410..a0....2a1c0760b6....99" data p := by
  have hlost : telling (· ≠ '\n') (regex "150410..a0....2a1c0760b6....99") '7' '8' = [19] := by
    decide
  rw [MatchesAt, hsite.getClassBytes_set, occursAt_set_iff hsite.digits.2.1 (by decide),
    hlost]
  refine and_iff_left_of_imp fun hmatches => ?_
  simp only [List.mem_singleton, forall_eq]
  intro hp
  obtain ⟨x, hx, haccepts⟩ := hmatches 17 (some 'c') (by decide)
  rw [show p + 17 = 2 * idx + 1 by omega, hsite.digits.1] at hx
  obtain rfl : '0' = x := by simpa using hx
  exact absurd haccepts (by decide)

end CaseA

section CaseB

variable {data : List UInt8} {start : ℕ}

theorem SiteB.getClassBytes_set (hsite : SiteB data start) :
    getClassBytes (some (data.set (start + 14) 0x9e)) =
      (getClassBytes (some data)).set (2 * start + 29) 'e' :=
  PatchAsm.getClassBytes_set 0x9e hsite.getElem?.2 rfl

/-- The second digit of a site and the second digit of its `ifeq`. -/
theorem SiteB.digits (hsite : SiteB data start) :
    (getClassBytes (some data))[2 * start + 1]? = some '5' ∧
      (getClassBytes (some data))[2 * start + 29]? = some '9' := by
  obtain ⟨hfirst, hlast⟩ := hsite.getElem?
  refine ⟨?_, ?_⟩
  · rw [getClassBytes_getElem?_odd, hfirst]
    decide
  · rw [show 2 * start + 29 = 2 * (start + 14) + 1 by omega, getClassBytes_getElem?_odd, hlast]
    decide

theorem SiteB.matchesAt_major_set (hsite : SiteB data start) (p : ℕ) :
    MatchesAt "1047a4" (data.set (start + 14) 0x9e) p ↔ MatchesAt "1047a4" data p := by
  rw [MatchesAt, hsite.getClassBytes_set]
  exact occursAt_set_iff_of_indifferent hsite.digits.2 (by decide) (by decide +kernel)

theorem SiteB.matchesAt_bipush_set (hsite : SiteB data start) (p : ℕ) :
    MatchesAt "1048a3" (data.set (start + 14) 0x9e) p ↔ MatchesAt "1048a3" data p := by
  rw [MatchesAt, hsite.getClassBytes_set]
  exact occursAt_set_iff_of_indifferent hsite.digits.2 (by decide) (by decide +kernel)

/-- Rewriting a site of case B removes the match there. A match one digit later would
start with the second digit of the site. -/
theorem SiteB.matchesAt_preview_set (hsite : SiteB data start) (p : ℕ) :
    MatchesAt "150410..a0....2a1c0760b6....99" (data.set (start + 14) 0x9e) p ↔
      MatchesAt "150410..a0....2a1c0760b6....99" data p ∧ p ≠ 2 * start := by
  have hlost : telling (· ≠ '\n') (regex "150410..a0....2a1c0760b6....99") '9' 'e' = [28, 29] := by
    decide
  rw [MatchesAt, hsite.getClassBytes_set, occursAt_set_iff hsite.digits.2 (by decide),
    hlost]
  refine and_congr_right fun hmatches => ?_
  have hodd : p ≠ 2 * start + 1 := by
    rintro rfl
    obtain ⟨x, hx, haccepts⟩ := hmatches 0 (some '1') (by decide)
    rw [Nat.add_zero, hsite.digits.1] at hx
    obtain rfl : '5' = x := by simpa using hx
    exact absurd haccepts (by decide)
  simp only [List.mem_cons, List.not_mem_nil, or_false, forall_eq_or_imp, forall_eq]
  omega

end CaseB

/-! ## What a case leaves of the matches -/

/-- The matches of the expression after a case that rewrites one of its sites. -/
def Rewrites (expression : String) (site : List UInt8 → ℕ → Prop)
    (data patched : List UInt8) : Prop :=
  (∃ m, site data m ∧
      ∀ p, MatchesAt expression patched p ↔ MatchesAt expression data p ∧ p ≠ 2 * m) ∨
    (∀ m, ¬site data m) ∧ ∀ p, MatchesAt expression patched p ↔ MatchesAt expression data p

/-- No match is left exactly when every match was the one site. -/
theorem Rewrites.forall_not_matchesAt_iff {expression : String}
    {site : List UInt8 → ℕ → Prop} {data patched : List UInt8}
    (hrewrites : Rewrites expression site data patched)
    (hsite : ∀ m, site data m → MatchesAt expression data (2 * m)) :
    (∀ p, ¬MatchesAt expression patched p) ↔
      (∀ p, MatchesAt expression data p → ∃ m, p = 2 * m ∧ site data m) ∧
        ∀ m n, site data m → site data n → m = n := by
  rcases hrewrites with ⟨k, hk, hmatches⟩ | ⟨hnone, hmatches⟩
  · simp only [hmatches, not_and, not_not]
    constructor
    · intro hall
      refine ⟨fun p hp => ⟨k, hall p hp, hk⟩, fun m n hm hn => ?_⟩
      have hmk := hall _ (hsite m hm)
      have hnk := hall _ (hsite n hn)
      omega
    · rintro ⟨hall, hone⟩ p hp
      obtain ⟨m, rfl, hm⟩ := hall p hp
      rw [hone m k hm hk]
  · simp only [hmatches]
    constructor
    · intro hall
      exact ⟨fun p hp => absurd hp (hall p), fun m _ hm => absurd hm (hnone m)⟩
    · rintro ⟨hall, -⟩ p hp
      obtain ⟨m, -, hm⟩ := hall p hp
      exact hnone m hm

theorem caseA_rewrites (data : List UInt8) (changes : ℕ) :
    let patched := (caseA ⟨data, changes⟩).patched
    Rewrites "1047a4" SiteA data patched ∧
      (∀ p, MatchesAt "1048a3" patched p ↔ MatchesAt "1048a3" data p) ∧
      (∀ p, MatchesAt "150410..a0....2a1c0760b6....99" patched p ↔
        MatchesAt "150410..a0....2a1c0760b6....99" data p) ∧
      ∀ p, SiteB patched p ↔ SiteB data p := by
  rcases caseA_cases ⟨data, changes⟩ with ⟨idx, hsite, hA⟩ | ⟨hnone, hA⟩
  · simp only [hA]
    exact ⟨Or.inl ⟨idx, hsite, hsite.matchesAt_major_set⟩, hsite.matchesAt_bipush_set,
      hsite.matchesAt_preview_set, fun _ => siteB_set_iff hsite.getElem?.2.1⟩
  · rw [hA]
    exact ⟨Or.inr ⟨hnone, fun _ => Iff.rfl⟩, fun _ => Iff.rfl, fun _ => Iff.rfl, fun _ => Iff.rfl⟩

theorem caseB_rewrites (data : List UInt8) (changes : ℕ) :
    let patched := (caseB ⟨data, changes⟩).patched
    Rewrites "150410..a0....2a1c0760b6....99" SiteB data patched ∧
      (∀ p, MatchesAt "1048a3" patched p ↔ MatchesAt "1048a3" data p) ∧
      ∀ p, MatchesAt "1047a4" patched p ↔ MatchesAt "1047a4" data p := by
  rcases caseB_cases ⟨data, changes⟩ with ⟨start, hsite, hB⟩ | ⟨hnone, hB⟩
  · simp only [hB]
    exact ⟨Or.inl ⟨start, hsite, hsite.matchesAt_preview_set⟩, hsite.matchesAt_bipush_set,
      hsite.matchesAt_major_set⟩
  · rw [hB]
    exact ⟨Or.inr ⟨hnone, fun _ => Iff.rfl⟩, fun _ => Iff.rfl, fun _ => Iff.rfl⟩

/-- The patcher as a whole: each case acts as if it was alone. -/
theorem patch_rewrites {data patched : List UInt8} (hpatch : patch data = some patched) :
    Rewrites "1047a4" SiteA data patched ∧
      Rewrites "150410..a0....2a1c0760b6....99" SiteB data patched ∧
      ∀ p, MatchesAt "1048a3" patched p ↔ MatchesAt "1048a3" data p := by
  simp only [patch, Option.ite_none_left_eq_some, Option.some.injEq] at hpatch
  obtain ⟨-, rfl⟩ := hpatch
  obtain ⟨hmajorA, hbipushA, hpreviewA, hsiteA⟩ := caseA_rewrites data 0
  set middle := caseA ⟨data, 0⟩ with hmiddle
  obtain ⟨hpreviewB, hbipushB, hmajorB⟩ := caseB_rewrites middle.patched middle.changes
  refine ⟨?_, ?_, fun p => (hbipushB p).trans (hbipushA p)⟩
  · simpa only [Rewrites, hmajorB] using hmajorA
  · simpa only [Rewrites, hpreviewA, hsiteA] using hpreviewB

/-! ## Detection after the patch -/

theorem not_strayMajor_iff (data : List UInt8) :
    ¬StrayMajor data ↔ ∀ p, MatchesAt "1047a4" data p → ∃ m, p = 2 * m ∧ SiteA data m := by
  constructor
  · intro hstray p hp
    obtain ⟨m, rfl | rfl⟩ : ∃ m, p = 2 * m ∨ p = 2 * m + 1 := ⟨p / 2, by omega⟩
    · exact ⟨m, rfl, (matchesAt_major_even data m).1 hp⟩
    · exact absurd ⟨m, hp⟩ hstray
  · rintro hall ⟨p, hp⟩
    obtain ⟨m, hm, -⟩ := hall _ hp
    omega

theorem not_strayPreview_iff (data : List UInt8) :
    ¬StrayPreview data ↔ ((∃ p, MatchesAt "1048a3" data p) →
      ∀ p, MatchesAt "150410..a0....2a1c0760b6....99" data p →
        ∃ m, p = 2 * m ∧ SiteB data m) := by
  constructor
  · intro hstray hbipush p hp
    obtain ⟨m, rfl | rfl⟩ : ∃ m, p = 2 * m ∨ p = 2 * m + 1 := ⟨p / 2, by omega⟩
    · rcases (matchesAt_preview_even_iff data m).1 hp with hsite | hline
      · exact ⟨m, rfl, hsite⟩
      · exact absurd ⟨hbipush, Or.inr ⟨m, hline⟩⟩ hstray
    · exact absurd ⟨hbipush, Or.inl ⟨m, hp⟩⟩ hstray
  · rintro hall ⟨hbipush, ⟨p, hp⟩ | ⟨p, hp, i, hplace, hline⟩⟩
    · obtain ⟨m, hm, -⟩ := hall hbipush _ hp
      omega
    · obtain ⟨m, hm, hsite⟩ := hall hbipush _ hp
      obtain rfl : p = m := by omega
      exact ((siteB_iff data p).1 hsite).2 i _ hplace hline rfl

/-- The class has no stray match and at most one site of each case that is due. -/
structure Clean (data : List UInt8) : Prop where
  major : ¬StrayMajor data
  preview : ¬StrayPreview data
  oneSiteA : ∀ p q, SiteA data p → SiteA data q → p = q
  oneSiteB : (∃ p, MatchesAt "1048a3" data p) →
    ∀ p q, SiteB data p → SiteB data q → p = q

theorem needsPatch_eq_false_iff (data : List UInt8) :
    needsPatch (some data) = false ↔
      (∀ p, ¬MatchesAt "1047a4" data p) ∧ ((∃ p, MatchesAt "1048a3" data p) →
        ∀ p, ¬MatchesAt "150410..a0....2a1c0760b6....99" data p) := by
  rw [← Bool.not_eq_true, needsPatch_iff, not_or, not_exists, not_and, not_exists]

/-- A patched class is not detected again exactly when it was clean. -/
theorem needsPatch_patch_iff {data patched : List UInt8} (hpatch : patch data = some patched) :
    needsPatch (some patched) = false ↔ Clean data := by
  obtain ⟨hmajor, hpreview, hbipush⟩ := patch_rewrites hpatch
  rw [needsPatch_eq_false_iff, exists_congr hbipush,
    hmajor.forall_not_matchesAt_iff fun m => (matchesAt_major_even data m).2,
    hpreview.forall_not_matchesAt_iff fun m hm => (matchesAt_preview_even_iff data m).2 (Or.inl hm),
    ← not_strayMajor_iff]
  constructor
  · rintro ⟨⟨hstray, honeA⟩, hdue⟩
    exact ⟨hstray, (not_strayPreview_iff data).2 fun hb => (hdue hb).1, honeA, fun hb => (hdue hb).2⟩
  · rintro ⟨hstray, hpreviewStray, honeA, honeB⟩
    exact ⟨⟨hstray, honeA⟩, fun hb => ⟨(not_strayPreview_iff data).1 hpreviewStray hb, honeB hb⟩⟩

/-! ## Running the script twice -/

/-- A jar after a run that reaches its end. -/
def served (jar : Jar) : Jar := if needsPatch jar then jar.bind patch else jar

theorem patchEachJar_jars {jars : List Jar} (hcompleted : (patchEachJar jars).completed = true) :
    (patchEachJar jars).jars = jars.map served := by
  induction jars with
  | nil => rfl
  | cons jar jars ih =>
      cases hneeds : needsPatch jar with
      | false =>
          rw [patchEachJar_cons_of_clean hneeds] at hcompleted ⊢
          simp [served, hneeds, ih hcompleted]
      | true =>
          cases jar with
          | none => exact absurd (hneeds.symm.trans needsPatch_none) (by decide)
          | some data =>
              cases hpatch : patch data with
              | none =>
                  rw [patchEachJar_cons_of_none hneeds hpatch] at hcompleted
                  exact absurd hcompleted Bool.false_ne_true
              | some patched =>
                  rw [patchEachJar_cons_of_some hneeds hpatch] at hcompleted ⊢
                  simp [served, hneeds, hpatch, ih hcompleted]

theorem script_jars {jars : List Jar} (hcompleted : (script jars).completed = true) :
    (script jars).jars = jars.map served := by
  by_cases hany : jars.any needsPatch = true
  · rw [script, if_pos hany] at hcompleted ⊢
    exact patchEachJar_jars hcompleted
  · rw [script, if_neg hany]
    refine (List.map_congr_left fun jar hjar => ?_).trans (List.map_id _) |>.symm
    rw [served, if_neg fun hneeds => hany (List.any_eq_true.2 ⟨jar, hjar, hneeds⟩), id]

/-- A run over jars that are all patched changes nothing. -/
theorem script_of_forall_not_needsPatch {jars : List Jar}
    (hclean : ∀ jar ∈ jars, needsPatch jar = false) : script jars = ⟨jars, true⟩ := by
  rw [script, if_neg]
  rw [List.any_eq_true]
  rintro ⟨jar, hjar, hneeds⟩
  exact Bool.false_ne_true ((hclean jar hjar).symm.trans hneeds)

theorem forall_served_iff {jars : List Jar} (hcompleted : (script jars).completed = true) :
    (∀ jar ∈ jars.map served, needsPatch jar = false) ↔
      ∀ data, some data ∈ jars → needsPatch (some data) = true → Clean data := by
  have hpatches := (script_completed_iff jars).1 hcompleted
  rw [List.forall_mem_map]
  constructor
  · intro hall data hdata hneeds
    obtain ⟨patched, hpatch⟩ := Option.isSome_iff_exists.1 (hpatches data hdata hneeds)
    have hdetected := hall _ hdata
    rw [served, if_pos hneeds, Option.bind_some, hpatch] at hdetected
    exact (needsPatch_patch_iff hpatch).1 hdetected
  · intro hclean jar hjar
    cases hneeds : needsPatch jar with
    | false => rw [served, hneeds, if_neg Bool.false_ne_true, hneeds]
    | true =>
        cases jar with
        | none => exact absurd (hneeds.symm.trans needsPatch_none) (by decide)
        | some data =>
            obtain ⟨patched, hpatch⟩ := Option.isSome_iff_exists.1 (hpatches data hjar hneeds)
            rw [served, if_pos hneeds, Option.bind_some, hpatch]
            exact (needsPatch_patch_iff hpatch).2 (hclean data hjar hneeds)

/-- The patcher settles a class exactly when the class was clean. A run that reaches its
end settles all jars, so that a second run changes nothing, exactly when the classes it
patches were clean. -/
theorem patch_settles_iff (data patched : List UInt8) (jars : List Jar) :
    (patch data = some patched → (needsPatch (some patched) = false ↔ Clean data)) ∧
      ((script jars).completed = true →
        (((∀ jar ∈ (script jars).jars, needsPatch jar = false) ∧
            script (script jars).jars = ⟨(script jars).jars, true⟩) ↔
          ∀ other, some other ∈ jars → needsPatch (some other) = true → Clean other)) := by
  refine ⟨needsPatch_patch_iff, fun hcompleted => ?_⟩
  rw [← forall_served_iff hcompleted, ← script_jars hcompleted]
  exact and_iff_left_of_imp script_of_forall_not_needsPatch

/-- A class with one constant `0x001047a4`, and a jar without the class. -/
theorem patch_settles_one_constant :
    Clean (classFile 1 [3, 0x00, 0x10, 0x47, 0xa4]) ∧
      ∀ other, some other ∈ [none, some (classFile 1 [3, 0x00, 0x10, 0x47, 0xa4])] →
        needsPatch (some other) = true → Clean other :=
  have hsettles := patch_settles_iff (classFile 1 [3, 0x00, 0x10, 0x47, 0xa4])
    (classFile 1 [3, 0x00, 0x10, 0x48, 0xa4])
    [none, some (classFile 1 [3, 0x00, 0x10, 0x47, 0xa4])]
  ⟨(hsettles.1 (by decide +kernel)).1 (by decide +kernel),
    (hsettles.2 (by decide +kernel)).1 (by decide +kernel)⟩

/-- Of two constants `0x001047a4` only the first is rewritten. -/
theorem not_forall_patch_settles :
    ¬∀ data patched, patch data = some patched → needsPatch (some patched) = false := by
  intro hall
  have hsettled := hall (classFile 2 [3, 0x00, 0x10, 0x47, 0xa4, 3, 0x00, 0x10, 0x47, 0xa4])
    (classFile 2 [3, 0x00, 0x10, 0x48, 0xa4, 3, 0x00, 0x10, 0x47, 0xa4]) (by decide +kernel)
  exact absurd hsettled (by decide +kernel)

end Colata.MwValhalla.PatchAsm
