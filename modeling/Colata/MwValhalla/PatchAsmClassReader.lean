/-
# Detecting and patching the version check of ASM

`needs_patch` greps the hex dump of `ClassReader.class`, one line of digits without
separators. The embedded Python program searches the bytes. The dump has twice as many
positions as the class, and only the even ones are bytes.
-/

import Colata.Math.Occurrence

namespace Colata.MwValhalla.PatchAsm

open Colata.Math.Occurrence

/-! ## Detection -/

/-- A byte as `od -An -tx1` prints it. -/
def hexByte (byte : UInt8) : List Char :=
  [Nat.digitChar (byte.toNat / 16), Nat.digitChar (byte.toNat % 16)]

/-- `ClassReader.class` of a jar; `none` when the jar does not contain it. -/
abbrev Jar := Option (List UInt8)

/-- `get_class_bytes`. -/
def getClassBytes (jar : Jar) : List Char := (jar.getD []).flatMap hexByte

/-- A regular expression made of characters and dots. -/
def regex (expression : String) : Pattern Char :=
  expression.toList.map fun c => if c = '.' then none else some c

/-- `grep -q` on one line. -/
def grep (expression : String) (line : List Char) : Bool :=
  (find (· ≠ '\n') (regex expression) line).isSome

def needsPatchMajor (classBytes : List Char) : Bool := grep "1047a4" classBytes

def needsPatchPreview (classBytes : List Char) : Bool :=
  if grep "1048a3" classBytes then
    if grep "150410..a0....2a1c0760b6....99" classBytes then true else false
  else false

def needsPatch (jar : Jar) : Bool :=
  let classBytes := getClassBytes jar
  if classBytes = [] then false
  else if needsPatchMajor classBytes || needsPatchPreview classBytes then true
  else false

/-! ## The embedded patcher -/

/-- bipush 71, if_icmple -/
def patternA : Pattern UInt8 := [some 0x10, some 71, some 0xa4]

/-- iload_4, bipush, if_icmpne, aload_0, iload_2, iconst_4, iadd, invokevirtual, ifeq -/
def patternB : Pattern UInt8 :=
  [some 0x15, some 0x04, some 0x10, none, some 0xa0, none, none, some 0x2a, some 0x1c,
    some 0x07, some 0x60, some 0xb6, none, none, some 0x99]

/-- The bytes that a dot of a Python expression matches: all but the newline. -/
def dot (byte : UInt8) : Bool := byte ≠ 0x0a

/-- `data[:offset] + bytes([byte]) + data[offset+1:]`. -/
def replaceByte (data : List UInt8) (offset : ℕ) (byte : UInt8) : List UInt8 :=
  data.take offset ++ [byte] ++ data.drop (offset + 1)

/-- The variables `patched` and `changes`. -/
structure Progress where
  patched : List UInt8
  changes : ℕ

def caseA (progress : Progress) : Progress :=
  match find dot patternA progress.patched with
  | none => progress
  | some idx => ⟨replaceByte progress.patched (idx + 1) 72, progress.changes + 1⟩

def caseB (progress : Progress) : Progress :=
  match find dot patternB progress.patched with
  | none => progress
  | some start =>
      let ifeqOffset := start + 14
      if progress.patched[ifeqOffset]? = some 0x99 then
        ⟨replaceByte progress.patched ifeqOffset 0x9e, progress.changes + 1⟩
      else progress

/-- The bytes written back; `none` for the exit without applicable patches. -/
def patch (data : List UInt8) : Option (List UInt8) :=
  let progress := caseB (caseA ⟨data, 0⟩)
  if progress.changes = 0 then none else some progress.patched

/-! ## The script -/

/-- The jars after the script and whether it reached its end. -/
structure Outcome where
  jars : List Jar
  completed : Bool
  deriving DecidableEq

/-- The loop over the jars; a failing patcher ends the script at once. -/
def patchEachJar : List Jar → Outcome
  | [] => ⟨[], true⟩
  | jar :: jars =>
      let later := patchEachJar jars
      if needsPatch jar then
        match jar with
        | none => ⟨jar :: later.jars, later.completed⟩
        | some data =>
            match patch data with
            | none => ⟨jar :: jars, false⟩
            | some patched => ⟨some patched :: later.jars, later.completed⟩
      else ⟨jar :: later.jars, later.completed⟩

def script (jars : List Jar) : Outcome :=
  if jars.any needsPatch then patchEachJar jars else ⟨jars, true⟩

/-! ## Digits and bytes -/

/-- The expression matches at the digit of the dump of the class. -/
def MatchesAt (expression : String) (data : List UInt8) (p : ℕ) : Prop :=
  OccursAt (· ≠ '\n') (regex expression) (getClassBytes (some data)) p

/-- The bytes at the offset are those of case A. -/
def SiteA (data : List UInt8) (p : ℕ) : Prop := OccursAt dot patternA data p

/-- The bytes at the offset are those of case B. -/
def SiteB (data : List UInt8) (p : ℕ) : Prop := OccursAt dot patternB data p

theorem grep_iff (expression : String) (data : List UInt8) :
    grep expression (getClassBytes (some data)) = true ↔ ∃ p, MatchesAt expression data p :=
  find_isSome_iff _ _

/-- An empty dump matches nothing, so the test for it decides nothing. -/
theorem needsPatch_iff (data : List UInt8) :
    needsPatch (some data) = true ↔
      (∃ p, MatchesAt "1047a4" data p) ∨
        (∃ p, MatchesAt "1048a3" data p) ∧
          ∃ p, MatchesAt "150410..a0....2a1c0760b6....99" data p := by
  simp only [← grep_iff]
  by_cases hempty : getClassBytes (some data) = []
  · simp only [needsPatch, hempty, if_true]
    decide
  · simp [needsPatch, needsPatchMajor, needsPatchPreview, hempty]

theorem digitChar_inj {m n : ℕ} (hm : m < 16) (hn : n < 16)
    (heq : Nat.digitChar m = Nat.digitChar n) : m = n := by
  have hall : ∀ i j : Fin 16, Nat.digitChar i = Nat.digitChar j → i = j := by decide
  simpa using hall ⟨m, hm⟩ ⟨n, hn⟩ heq

theorem getClassBytes_getElem?_even (data : List UInt8) (p : ℕ) :
    (getClassBytes (some data))[2 * p]? =
      data[p]?.map fun byte => Nat.digitChar (byte.toNat / 16) := by
  simp only [getClassBytes, Option.getD_some]
  induction data generalizing p with
  | nil => simp
  | cons byte data ih =>
      cases p with
      | zero => simp [hexByte]
      | succ p => simpa [hexByte, Nat.mul_succ] using ih p

theorem getClassBytes_getElem?_odd (data : List UInt8) (p : ℕ) :
    (getClassBytes (some data))[2 * p + 1]? =
      data[p]?.map fun byte => Nat.digitChar (byte.toNat % 16) := by
  simp only [getClassBytes, Option.getD_some]
  induction data generalizing p with
  | nil => simp
  | cons byte data ih =>
      cases p with
      | zero => simp [hexByte]
      | succ p => simpa [hexByte, Nat.mul_succ] using ih p

/-- The digits of a pattern of bytes. -/
def hexPattern (pattern : Pattern UInt8) : Pattern Char :=
  pattern.flatMap fun
    | none => [none, none]
    | some byte => (hexByte byte).map some

/-- Two bytes are equal when their digits are. -/
theorem hexByte_inj {byte other : UInt8}
    (hhigh : Nat.digitChar (byte.toNat / 16) = Nat.digitChar (other.toNat / 16))
    (hlow : Nat.digitChar (byte.toNat % 16) = Nat.digitChar (other.toNat % 16)) :
    byte = other := by
  have hbyte := byte.toNat_lt
  have hother := other.toNat_lt
  have h1 := digitChar_inj (by omega) (by omega) hhigh
  have h2 := digitChar_inj (by omega) (by omega) hlow
  exact UInt8.toNat_inj.1 (by omega)

/-- At an even digit the digits of a pattern match exactly where its bytes do. -/
theorem occursAt_hexPattern (pattern : Pattern UInt8) (data : List UInt8) (p : ℕ) :
    OccursAt (· ≠ '\n') (hexPattern pattern) (getClassBytes (some data)) (2 * p) ↔
      OccursAt (fun _ => true) pattern data p := by
  induction pattern generalizing p with
  | nil => simp [hexPattern]
  | cons place pattern ih =>
      have ih := ih (p + 1)
      rw [show 2 * (p + 1) = 2 * p + 1 + 1 by omega] at ih
      cases place with
      | none =>
          change OccursAt _ (none :: none :: hexPattern pattern) _ _ ↔ _
          rw [occursAt_cons, occursAt_cons, occursAt_cons, ih, getClassBytes_getElem?_even,
            getClassBytes_getElem?_odd]
          cases hbyte : data[p]? with
          | none => simp
          | some byte => simp [accepts]
      | some byte =>
          change OccursAt _ (some _ :: some _ :: hexPattern pattern) _ _ ↔ _
          rw [occursAt_cons, occursAt_cons, occursAt_cons, ih, getClassBytes_getElem?_even,
            getClassBytes_getElem?_odd, ← and_assoc]
          refine and_congr_left fun _ => ?_
          cases hother : data[p]? with
          | none => simp
          | some other =>
              simp only [accepts, Option.map_some, Option.some.injEq, exists_eq_left', beq_iff_eq]
              constructor
              · rintro ⟨hhigh, hlow⟩
                exact hexByte_inj hhigh hlow
              · rintro rfl
                exact ⟨rfl, rfl⟩

/-- The dots of `dot` only leave out the newline. -/
theorem siteB_iff (data : List UInt8) (p : ℕ) :
    SiteB data p ↔ OccursAt (fun _ => true) patternB data p ∧
      ∀ i x, patternB[i]? = some none → data[p + i]? = some x → x ≠ 0x0a := by
  constructor
  · intro hsite
    refine ⟨hsite.of_wild fun _ _ _ _ => rfl, fun i x hplace hx => ?_⟩
    obtain ⟨y, hy, haccepts⟩ := hsite i none hplace
    obtain rfl : y = x := by simpa [hy] using hx
    simpa [accepts, dot] using haccepts
  · rintro ⟨hoccurs, hdots⟩
    exact hoccurs.of_wild fun i x hplace hx => by simpa [dot] using hdots i x hplace hx

theorem matchesAt_major_even (data : List UInt8) (p : ℕ) :
    MatchesAt "1047a4" data (2 * p) ↔ SiteA data p := by
  have hregex : regex "1047a4" = hexPattern patternA := by decide
  rw [MatchesAt, hregex, occursAt_hexPattern]
  have hfixed : ∀ i : ℕ, patternA[i]? ≠ some none := by
    intro i hplace
    simpa [patternA] using List.mem_of_getElem? hplace
  constructor <;> intro hoccurs <;> exact hoccurs.of_wild fun i _ hi _ => absurd hi (hfixed i)

theorem matchesAt_preview_even (data : List UInt8) (p : ℕ) :
    MatchesAt "150410..a0....2a1c0760b6....99" data (2 * p) ↔
      OccursAt (fun _ => true) patternB data p := by
  have hregex : regex "150410..a0....2a1c0760b6....99" = hexPattern patternB := by
    decide
  rw [MatchesAt, hregex, occursAt_hexPattern]

/-! ## What the patcher writes -/

theorem replaceByte_eq_set {data : List UInt8} {offset : ℕ} (byte : UInt8)
    (hoffset : offset < data.length) : replaceByte data offset byte = data.set offset byte := by
  rw [List.set_eq_take_append_cons_drop, if_pos hoffset, replaceByte, List.append_assoc,
    List.singleton_append]

theorem SiteA.getElem? {data : List UInt8} {p : ℕ} (hsite : SiteA data p) :
    data[p]? = some 0x10 ∧ data[p + 1]? = some 71 ∧ data[p + 2]? = some 0xa4 := by
  simpa [SiteA, patternA, occursAt_cons, accepts] using hsite

/-- The first byte, the length of the branch and the `ifeq`. -/
theorem SiteB.getElem? {data : List UInt8} {p : ℕ} (hsite : SiteB data p) :
    data[p]? = some 0x15 ∧ data[p + 14]? = some 0x99 := by
  simp [SiteB, patternB, occursAt_cons, accepts] at hsite
  tauto

/-- Case A rewrites the first of its sites, if there is one. -/
theorem caseA_cases (progress : Progress) :
    (∃ idx, SiteA progress.patched idx ∧
        caseA progress = ⟨progress.patched.set (idx + 1) 72, progress.changes + 1⟩) ∨
      (∀ p, ¬SiteA progress.patched p) ∧ caseA progress = progress := by
  rw [caseA]
  cases hfind : find dot patternA progress.patched with
  | none => exact Or.inr ⟨(find_eq_none_iff _ _).1 hfind, rfl⟩
  | some idx =>
      have hsite : SiteA progress.patched idx := occursAt_of_find_eq_some hfind
      have hlength := (List.getElem?_eq_some_iff.1 hsite.getElem?.2.1).1
      exact Or.inl ⟨idx, hsite, by rw [← replaceByte_eq_set 72 hlength]⟩

/-- Case B rewrites the first of its sites, if there is one. -/
theorem caseB_cases (progress : Progress) :
    (∃ start, SiteB progress.patched start ∧
        caseB progress = ⟨progress.patched.set (start + 14) 0x9e, progress.changes + 1⟩) ∨
      (∀ p, ¬SiteB progress.patched p) ∧ caseB progress = progress := by
  rw [caseB]
  cases hfind : find dot patternB progress.patched with
  | none => exact Or.inr ⟨(find_eq_none_iff _ _).1 hfind, rfl⟩
  | some start =>
      have hsite : SiteB progress.patched start := occursAt_of_find_eq_some hfind
      have hifeq := hsite.getElem?.2
      have hlength := (List.getElem?_eq_some_iff.1 hifeq).1
      refine Or.inl ⟨start, hsite, ?_⟩
      simp only [hifeq, if_true, replaceByte_eq_set 0x9e hlength]

/-- Only a dot of case B meets a byte that case A changes. -/
theorem siteB_set_iff {data : List UInt8} {k p : ℕ} (hk : data[k]? = some 71) :
    SiteB (data.set k 72) p ↔ SiteB data p :=
  occursAt_set_iff_of_indifferent hk (by decide) (by decide)

/-- The patcher finds something to do exactly when one of its sites exists. -/
theorem patch_isSome_iff (data : List UInt8) :
    (patch data).isSome = true ↔ (∃ p, SiteA data p) ∨ ∃ p, SiteB data p := by
  rw [patch]
  rcases caseA_cases ⟨data, 0⟩ with ⟨idx, hsiteA, hA⟩ | ⟨hnoA, hA⟩
  · rw [hA]
    have hchanges : (caseB ⟨data.set (idx + 1) 72, 0 + 1⟩).changes ≠ 0 := by
      rcases caseB_cases ⟨data.set (idx + 1) 72, 0 + 1⟩ with ⟨start, -, hB⟩ | ⟨-, hB⟩ <;>
        rw [hB] <;> simp
    rw [if_neg hchanges]
    exact iff_of_true rfl (Or.inl ⟨idx, hsiteA⟩)
  · rw [hA]
    rcases caseB_cases ⟨data, 0⟩ with ⟨start, hsiteB, hB⟩ | ⟨hnoB, hB⟩
    · rw [hB]
      exact iff_of_true rfl (Or.inr ⟨start, hsiteB⟩)
    · rw [hB]
      refine iff_of_false (by simp) ?_
      rintro (⟨p, hp⟩ | ⟨p, hp⟩)
      · exact hnoA p hp
      · exact hnoB p hp

/-! ## Detected classes are patched -/

/-- The dump has the digits of case A across three bytes and a half. -/
def StrayMajor (data : List UInt8) : Prop := ∃ p, MatchesAt "1047a4" data (2 * p + 1)

/-- The dump has the digits of case B, but starting in the middle of a byte or with a
newline where the patcher has a dot. -/
def StrayPreview (data : List UInt8) : Prop :=
  (∃ p, MatchesAt "1048a3" data p) ∧
    ((∃ p, MatchesAt "150410..a0....2a1c0760b6....99" data (2 * p + 1)) ∨
      ∃ p, MatchesAt "150410..a0....2a1c0760b6....99" data (2 * p) ∧
        ∃ i, patternB[i]? = some none ∧ data[p + i]? = some 0x0a)

/-- A stray match comes together with a site of the patcher. -/
def Accompanied (data : List UInt8) : Prop :=
  StrayMajor data ∨ StrayPreview data → (∃ p, SiteA data p) ∨ ∃ p, SiteB data p

theorem exists_iff_even_or_odd (holds : ℕ → Prop) :
    (∃ p, holds p) ↔ (∃ p, holds (2 * p)) ∨ ∃ p, holds (2 * p + 1) := by
  constructor
  · rintro ⟨p, hp⟩
    obtain ⟨q, rfl | rfl⟩ : ∃ q, p = 2 * q ∨ p = 2 * q + 1 := ⟨p / 2, by omega⟩
    · exact Or.inl ⟨q, hp⟩
    · exact Or.inr ⟨q, hp⟩
  · rintro (⟨q, hq⟩ | ⟨q, hq⟩)
    · exact ⟨_, hq⟩
    · exact ⟨_, hq⟩

/-- An even match of the preview expression is a site, or a dot meets a newline. -/
theorem matchesAt_preview_even_iff (data : List UInt8) (p : ℕ) :
    MatchesAt "150410..a0....2a1c0760b6....99" data (2 * p) ↔
      SiteB data p ∨ MatchesAt "150410..a0....2a1c0760b6....99" data (2 * p) ∧
        ∃ i, patternB[i]? = some none ∧ data[p + i]? = some 0x0a := by
  rw [siteB_iff, matchesAt_preview_even]
  constructor
  · intro hmatches
    by_cases hline : ∃ i, patternB[i]? = some none ∧ data[p + i]? = some 0x0a
    · exact Or.inr ⟨hmatches, hline⟩
    · refine Or.inl ⟨hmatches, fun i x hplace hx heq => hline ⟨i, hplace, ?_⟩⟩
      rw [hx, heq]
  · rintro (⟨hmatches, -⟩ | ⟨hmatches, -⟩) <;> exact hmatches

/-- The detector sees the sites, if the preview patch is due, and the stray matches. -/
theorem needsPatch_iff_site_or_stray (data : List UInt8) :
    needsPatch (some data) = true ↔
      (∃ p, SiteA data p) ∨ (∃ p, MatchesAt "1048a3" data p) ∧ (∃ p, SiteB data p) ∨
        StrayMajor data ∨ StrayPreview data := by
  rw [needsPatch_iff, exists_iff_even_or_odd (MatchesAt "1047a4" data),
    exists_iff_even_or_odd (MatchesAt "150410..a0....2a1c0760b6....99" data),
    exists_congr (matchesAt_major_even data), exists_congr (matchesAt_preview_even_iff data),
    exists_or]
  constructor
  · rintro ((hsite | hstray) | ⟨hgate, (hsite | hline) | hodd⟩)
    · exact Or.inl hsite
    · exact Or.inr (Or.inr (Or.inl hstray))
    · exact Or.inr (Or.inl ⟨hgate, hsite⟩)
    · exact Or.inr (Or.inr (Or.inr ⟨hgate, Or.inr hline⟩))
    · exact Or.inr (Or.inr (Or.inr ⟨hgate, Or.inl hodd⟩))
  · rintro (hsite | ⟨hgate, hsite⟩ | hstray | ⟨hgate, hodd | hline⟩)
    · exact Or.inl (Or.inl hsite)
    · exact Or.inr ⟨hgate, Or.inl (Or.inl hsite)⟩
    · exact Or.inl (Or.inr hstray)
    · exact Or.inr ⟨hgate, Or.inr hodd⟩
    · exact Or.inr ⟨hgate, Or.inl (Or.inr hline)⟩

section Loop

variable {jars : List Jar} {data patched : List UInt8}

theorem patchEachJar_cons_of_clean {jar : Jar} (hclean : needsPatch jar = false) :
    patchEachJar (jar :: jars) =
      ⟨jar :: (patchEachJar jars).jars, (patchEachJar jars).completed⟩ := by
  simp [patchEachJar, hclean]

theorem patchEachJar_cons_of_none (hneeds : needsPatch (some data) = true)
    (hpatch : patch data = none) : patchEachJar (some data :: jars) = ⟨some data :: jars, false⟩ := by
  simp [patchEachJar, hneeds, hpatch]

theorem patchEachJar_cons_of_some (hneeds : needsPatch (some data) = true)
    (hpatch : patch data = some patched) :
    patchEachJar (some data :: jars) =
      ⟨some patched :: (patchEachJar jars).jars, (patchEachJar jars).completed⟩ := by
  simp [patchEachJar, hneeds, hpatch]

/-- A jar without the class is skipped. -/
theorem needsPatch_none : needsPatch none = false := by decide

end Loop

theorem patchEachJar_completed_iff (jars : List Jar) :
    (patchEachJar jars).completed = true ↔
      ∀ data, some data ∈ jars → needsPatch (some data) = true → (patch data).isSome = true := by
  induction jars with
  | nil => simp [patchEachJar]
  | cons jar jars ih =>
      simp only [List.mem_cons, or_imp, forall_and]
      cases hneeds : needsPatch jar with
      | false =>
          rw [patchEachJar_cons_of_clean hneeds, ih]
          refine (and_iff_right fun data hdata hneedsData => ?_).symm
          rw [hdata, hneeds] at hneedsData
          exact absurd hneedsData Bool.false_ne_true
      | true =>
          cases jar with
          | none => exact absurd (hneeds.symm.trans needsPatch_none) (by decide)
          | some data =>
              cases hpatch : patch data with
              | none =>
                  rw [patchEachJar_cons_of_none hneeds hpatch]
                  refine iff_of_false Bool.false_ne_true fun hall => ?_
                  simpa [hpatch] using hall.1 data rfl hneeds
              | some patched =>
                  rw [patchEachJar_cons_of_some hneeds hpatch, ih]
                  refine (and_iff_right fun other hother _ => ?_).symm
                  obtain rfl : other = data := by simpa using hother
                  simp [hpatch]

/-- The script reaches its end when the patcher serves every jar that is detected. -/
theorem script_completed_iff (jars : List Jar) :
    (script jars).completed = true ↔
      ∀ data, some data ∈ jars → needsPatch (some data) = true → (patch data).isSome = true := by
  rw [script]
  split
  · exact patchEachJar_completed_iff jars
  · rename_i hnone
    refine iff_of_true rfl fun data hdata hneeds => ?_
    exact absurd (List.any_eq_true.2 ⟨some data, hdata, hneeds⟩) hnone

theorem needsPatch_imp_patch_isSome_iff (data : List UInt8) :
    (needsPatch (some data) = true → (patch data).isSome = true) ↔ Accompanied data := by
  rw [needsPatch_iff_site_or_stray, patch_isSome_iff, Accompanied]
  constructor
  · intro hall hstray
    exact hall (Or.inr (Or.inr hstray))
  · rintro hall (hsite | ⟨-, hsite⟩ | hstray)
    · exact Or.inl hsite
    · exact Or.inr hsite
    · exact hall hstray

/-- The patcher serves a detected class exactly when its stray matches come with a site,
and the script is not aborted exactly when this holds of all its jars. -/
theorem patch_serves_iff (data : List UInt8) (jars : List Jar) :
    ((needsPatch (some data) = true → (patch data).isSome = true) ↔ Accompanied data) ∧
      ((script jars).completed = true ↔ ∀ other, some other ∈ jars → Accompanied other) := by
  refine ⟨needsPatch_imp_patch_isSome_iff data, ?_⟩
  rw [script_completed_iff]
  exact forall₂_congr fun other _ => needsPatch_imp_patch_isSome_iff other

section Classes

/-- A name in the constant pool: tag, length and characters. -/
def utf8 (name : String) : List UInt8 :=
  [1, 0, UInt8.ofNat name.length] ++ name.toList.map fun c => UInt8.ofNat c.toNat

/-- A class file without members, with some more constants in its pool. -/
def classFile (count : UInt8) (constants : List UInt8) : List UInt8 :=
  [0xca, 0xfe, 0xba, 0xbe, 0, 0, 0, 52, 0, 5 + count, 7, 0, 2] ++
    utf8 "org/objectweb/asm/ClassReader" ++ [7, 0, 4] ++ utf8 "java/lang/Object" ++ constants ++
      [0, 0x21, 0, 1, 0, 3, 0, 0, 0, 0, 0, 0, 0, 0]

/-- The constant `0x01047a40` is detected, but it has no byte 71 to replace. -/
theorem not_forall_patch_serves :
    ¬∀ data, needsPatch (some data) = true → (patch data).isSome = true := by
  intro hall
  have hpatch := hall (classFile 1 [3, 0x01, 0x04, 0x7a, 0x40]) (by decide +kernel)
  exact absurd hpatch (by decide +kernel)

end Classes

end Colata.MwValhalla.PatchAsm
