/-
# Dense class names

`denseClassNames` shortens the benchmark names for the rows. The components in lower case
that all names start with are dropped, or cut to their first letters where one of the
names made the prefix shorter. Names are texts of UTF-16 code units, of which `charAt`
reads one, and `toLowerCase` is a parameter, since it depends on the locale.
-/

import Colata.BenchmarkCompare.ReadCsv
import Colata.Math.CommonPrefix
import Colata.Math.Pieces

namespace Colata.BenchmarkCompare

open Colata.Math Colata.Java

/-- A text as its UTF-16 code units. -/
abbrev Units := List ℕ

/-- The code unit of a full stop. -/
def dot : ℕ := 0x2e

/-- `s.split("\\.")`; empty strings at the end are dropped, unless there is no full stop. -/
def splitDots (s : Units) : List Units :=
  if dot ∈ s then (s.splitOn dot).rdropWhile List.isEmpty else [s]

variable (toLowerCase : Units → Units)

def isLowerCase (n : Units) : Bool := toLowerCase n = n

/-- The loop over the components of a name that agree with the prefix, which counts them. -/
def agreeing : List Units → List Units → ℕ
  | p :: prefixNames, n :: names =>
      if n = p ∧ isLowerCase toLowerCase n then agreeing prefixNames names + 1 else 0
  | _, _ => 0

/-- The variables of the loop that narrows the prefix. -/
structure PrefixScan where
  first : Bool
  prefixCut : Bool
  prefixNames : List Units

def PrefixScan.initial : PrefixScan := ⟨true, false, []⟩

def PrefixScan.step (scan : PrefixScan) (s : Units) : PrefixScan :=
  let names := splitDots s
  if scan.first then
    { scan with first := false, prefixNames := names.takeWhile (isLowerCase toLowerCase) }
  else
    let c := agreeing toLowerCase scan.prefixNames names
    { scan with
      prefixCut := scan.prefixCut || scan.prefixNames.length != c
      prefixNames := scan.prefixNames.take c }

def scanNames (src : List Units) : PrefixScan := src.foldl (PrefixScan.step toLowerCase) .initial

/-- `prefixCut ? String.valueOf(prefix[c].charAt(0)) : ""` -/
def shorten (prefixCut : Bool) (p : Units) : Except Failure Units :=
  if prefixCut then
    match p with
    | [] => .error .indexOutOfBounds
    | unit :: _ => .ok [unit]
  else .ok []

/-- The components that are not empty, joined again. -/
def denseOf (names : List Units) : Units :=
  let dense := names.foldl (fun dense n => if n.isEmpty then dense else dense ++ (n ++ [dot])) []
  if dense.getLast? = some dot then dense.dropLast else dense

/-- `System.arraycopy(prefix, 0, names, 0, prefixLen)` -/
def copyPrefix (prefixNames names : List Units) : Except Failure (List Units) :=
  if prefixNames.length ≤ names.length then .ok (prefixNames ++ names.drop prefixNames.length)
  else .error .indexOutOfBounds

/-- One turn of the loop that fills the map. -/
def putDense (prefixNames : List Units) (result : HashMap Units Units) (s : Units) :
    Except Failure (HashMap Units Units) := do
  let names ← copyPrefix prefixNames (splitDots s)
  pure (result.insert s (denseOf names))

def denseClassNames (src : List Units) : Except Failure (HashMap Units Units) := do
  let scan := scanNames toLowerCase src
  let prefixNames ← scan.prefixNames.mapM (shorten scan.prefixCut)
  src.foldlM (putDense prefixNames) ∅

/-! ## Names and their packages -/

/-- A name is made of components that are not empty. -/
def WellNamed (s : Units) : Prop := ∀ n ∈ s.splitOn dot, n ≠ []

instance (s : Units) : Decidable (WellNamed s) :=
  inferInstanceAs (Decidable (∀ n ∈ s.splitOn dot, n ≠ []))

/-- The components in lower case that a name starts with. -/
def packageOf (s : Units) : List Units := (splitDots s).takeWhile (isLowerCase toLowerCase)

theorem WellNamed.splitDots_eq {s : Units} (h : WellNamed s) : splitDots s = s.splitOn dot := by
  unfold splitDots
  split_ifs with hdot
  · rw [List.rdropWhile_eq_self_iff]
    intro hne
    simpa using h _ (List.getLast_mem hne)
  · rw [List.splitOn_eq_singleton hdot]

theorem WellNamed.joinable {s : Units} (h : WellNamed s) : Joinable dot (splitDots s) := by
  rw [h.splitDots_eq]
  exact ⟨h, fun _ => notMem_of_mem_splitOn⟩

theorem WellNamed.eq_of_splitDots_eq {s t : Units} (hs : WellNamed s) (ht : WellNamed t)
    (h : splitDots s = splitDots t) : s = t := by
  rw [hs.splitDots_eq, ht.splitDots_eq] at h
  have hjoin : [dot].intercalate (s.splitOn dot) = s := List.intercalate_splitOn dot
  rw [← hjoin, h, List.intercalate_splitOn]

theorem isPrefix_packageOf_iff {list : List Units} {s : Units} :
    list <+: packageOf toLowerCase s ↔
      list <+: splitDots s ∧ ∀ n ∈ list, isLowerCase toLowerCase n := by
  unfold packageOf
  generalize splitDots s = names
  induction names generalizing list with
  | nil => simp +contextual
  | cons n names ih =>
    cases list with
    | nil => simp
    | cons m list =>
      rw [List.cons_prefix_cons, List.forall_mem_cons]
      by_cases hn : isLowerCase toLowerCase n
      · rw [List.takeWhile_cons_of_pos hn, List.cons_prefix_cons, ih]
        constructor
        · rintro ⟨rfl, hleading, hlower⟩
          exact ⟨⟨rfl, hleading⟩, hn, hlower⟩
        · rintro ⟨⟨rfl, hleading⟩, _, hlower⟩
          exact ⟨rfl, hleading, hlower⟩
      · rw [List.takeWhile_cons_of_neg hn]
        simp only [List.prefix_nil, List.cons_ne_nil, false_iff]
        rintro ⟨⟨rfl, _⟩, hm, _⟩
        exact hn hm

/-! ## The narrowed prefix -/

/-- The loop over the components takes the common prefix, as long as the prefix is in
lower case. -/
theorem take_agreeing {prefixNames : List Units}
    (h : ∀ p ∈ prefixNames, isLowerCase toLowerCase p) (names : List Units) :
    prefixNames.take (agreeing toLowerCase prefixNames names) = commonPrefix prefixNames names := by
  induction prefixNames generalizing names with
  | nil => cases names <;> rfl
  | cons p prefixNames ih =>
    rw [List.forall_mem_cons] at h
    cases names with
    | nil => rfl
    | cons n names =>
      unfold agreeing commonPrefix
      by_cases hn : p = n
      · rw [if_pos hn, if_pos ⟨hn.symm, hn ▸ h.1⟩, List.take_succ_cons, ih h.2]
      · rw [if_neg hn, if_neg fun hboth => hn hboth.1.symm, List.take_zero]

theorem agreeing_le (prefixNames names : List Units) :
    agreeing toLowerCase prefixNames names ≤ prefixNames.length := by
  induction prefixNames generalizing names with
  | nil => cases names <;> exact le_rfl
  | cons p prefixNames ih =>
    cases names with
    | nil => exact Nat.zero_le _
    | cons n names =>
      unfold agreeing
      split_ifs
      · exact Nat.succ_le_succ (ih names)
      · exact Nat.zero_le _

/-- After a first name and others, the prefix is the longest one of all packages, and it
is cut if the first package is longer. -/
structure Scanned (first : Units) (seen : List Units) (scan : PrefixScan) : Prop where
  first_eq : scan.first = false
  isPrefix_iff : ∀ list, list <+: scan.prefixNames ↔
    list <+: packageOf toLowerCase first ∧ ∀ s ∈ seen, list <+: splitDots s
  cut_iff : scan.prefixCut = false ↔ scan.prefixNames = packageOf toLowerCase first

theorem scanned_first (first : Units) :
    Scanned toLowerCase first [] (PrefixScan.initial.step toLowerCase first) where
  first_eq := rfl
  isPrefix_iff list := by
    refine ⟨fun h => ⟨h, List.forall_mem_nil _⟩, And.left⟩
  cut_iff := ⟨fun _ => rfl, fun _ => rfl⟩

theorem Scanned.step {first : Units} {seen : List Units} {scan : PrefixScan}
    (h : Scanned toLowerCase first seen scan) (s : Units) :
    Scanned toLowerCase first (seen ++ [s]) (scan.step toLowerCase s) := by
  have hpackage : scan.prefixNames <+: packageOf toLowerCase first :=
    ((h.isPrefix_iff _).mp List.prefix_rfl).1
  have hlower : ∀ p ∈ scan.prefixNames, isLowerCase toLowerCase p :=
    ((isPrefix_packageOf_iff toLowerCase).mp hpackage).2
  have htake := take_agreeing toLowerCase hlower (splitDots s)
  have hstep : scan.step toLowerCase s =
      { scan with
        prefixCut := scan.prefixCut ||
          scan.prefixNames.length != agreeing toLowerCase scan.prefixNames (splitDots s)
        prefixNames := commonPrefix scan.prefixNames (splitDots s) } := by
    rw [PrefixScan.step, if_neg (by simp [h.first_eq])]
    dsimp only
    rw [htake]
  rw [hstep]
  refine ⟨h.first_eq, fun list => ?_, ?_⟩
  · rw [isPrefix_commonPrefix_iff, h.isPrefix_iff, and_assoc, List.forall_mem_append,
      List.forall_mem_singleton]
  · have hsame : scan.prefixNames.length = agreeing toLowerCase scan.prefixNames (splitDots s) ↔
        commonPrefix scan.prefixNames (splitDots s) = scan.prefixNames := by
      have hle := agreeing_le toLowerCase scan.prefixNames (splitDots s)
      rw [← htake, List.take_eq_self_iff]
      omega
    dsimp only
    rw [Bool.or_eq_false_iff, h.cut_iff, bne_eq_false_iff_eq, hsame]
    constructor
    · rintro ⟨hpre, hcommon⟩
      exact hcommon.trans hpre
    · intro hcommon
      have hshort := (isPrefix_commonPrefix_iff.mp (List.prefix_refl
        (commonPrefix scan.prefixNames (splitDots s)))).1
      have hpre : scan.prefixNames = packageOf toLowerCase first :=
        hpackage.eq_of_length_le (hcommon ▸ hshort.length_le)
      exact ⟨hpre, hcommon.trans hpre.symm⟩

theorem scanned_scanNames (first : Units) (rest : List Units) :
    Scanned toLowerCase first rest (scanNames toLowerCase (first :: rest)) := by
  have hrun : ∀ seen scan, Scanned toLowerCase first seen scan →
      Scanned toLowerCase first (seen ++ rest) (rest.foldl (PrefixScan.step toLowerCase) scan) := by
    induction rest with
    | nil =>
      intro seen scan h
      rwa [List.append_nil]
    | cons s rest ih =>
      intro seen scan h
      have hnext := ih (seen ++ [s]) _ (h.step toLowerCase s)
      rwa [List.append_assoc, List.singleton_append] at hnext
  exact hrun [] _ (scanned_first toLowerCase first)

/-- The prefix is the longest one that all packages start with. -/
theorem isPrefix_prefixNames_iff {src : List Units} (hne : src ≠ []) {list : List Units} :
    list <+: (scanNames toLowerCase src).prefixNames ↔
      ∀ s ∈ src, list <+: packageOf toLowerCase s := by
  obtain ⟨first, rest, rfl⟩ := List.exists_cons_of_ne_nil hne
  rw [(scanned_scanNames toLowerCase first rest).isPrefix_iff, List.forall_mem_cons]
  refine and_congr_right fun hfirst => forall₂_congr fun s _ => ?_
  have hlower := ((isPrefix_packageOf_iff toLowerCase).mp hfirst).2
  rw [isPrefix_packageOf_iff]
  exact (and_iff_left hlower).symm

theorem prefixNames_isPrefix {src : List Units} {s : Units} (hs : s ∈ src) :
    (scanNames toLowerCase src).prefixNames <+: packageOf toLowerCase s :=
  (isPrefix_prefixNames_iff toLowerCase (List.ne_nil_of_mem hs)).mp List.prefix_rfl s hs

theorem packageOf_isPrefix (s : Units) : packageOf toLowerCase s <+: splitDots s :=
  List.takeWhile_prefix _

/-- The prefix is cut unless it is the whole package of the first name. -/
theorem prefixCut_cons (first : Units) (rest : List Units) :
    (scanNames toLowerCase (first :: rest)).prefixCut = false ↔
      (scanNames toLowerCase (first :: rest)).prefixNames = packageOf toLowerCase first :=
  (scanned_scanNames toLowerCase first rest).cut_iff

/-- The order of the names does not change the prefix. -/
theorem prefixNames_eq_of_perm {src other : List Units} (h : src.Perm other) :
    (scanNames toLowerCase src).prefixNames = (scanNames toLowerCase other).prefixNames := by
  by_cases hnil : src = []
  · rw [hnil] at h ⊢
    rw [h.nil_eq]
  · have hnil' : other ≠ [] := fun hempty => hnil (hempty ▸ h).eq_nil
    apply eq_of_isPrefix_iff
    intro list
    rw [isPrefix_prefixNames_iff toLowerCase hnil, isPrefix_prefixNames_iff toLowerCase hnil']
    exact forall_congr' fun s => by rw [h.mem_iff]

/-! ## The labels -/

/-- What is left of the prefix. -/
def shortened (prefixCut : Bool) (prefixNames : List Units) : List Units :=
  if prefixCut then prefixNames.map (List.take 1) else []

/-- The label of a name. -/
def denseLabel (prefixCut : Bool) (prefixNames : List Units) (s : Units) : Units :=
  [dot].intercalate (shortened prefixCut prefixNames ++ (splitDots s).drop prefixNames.length)

theorem foldl_append_dot (dense : Units) (names : List Units) :
    names.foldl (fun dense n => if n.isEmpty then dense else dense ++ (n ++ [dot])) dense =
      dense ++ (names.filter fun n => !n.isEmpty).flatMap (· ++ [dot]) := by
  induction names generalizing dense with
  | nil => simp
  | cons n names ih =>
    rw [List.foldl_cons, ih]
    cases n with
    | nil => simp
    | cons unit n => simp

theorem flatMap_append_dot {names : List Units} (hne : names ≠ []) :
    names.flatMap (· ++ [dot]) = [dot].intercalate names ++ [dot] := by
  induction names with
  | nil => exact absurd rfl hne
  | cons n names ih =>
    cases names with
    | nil => simp
    | cons m names =>
      rw [List.flatMap_cons, ih (List.cons_ne_nil m names), List.intercalate_cons_cons]
      simp

/-- The components that are not empty are joined by full stops. -/
theorem denseOf_eq (names : List Units) :
    denseOf names = [dot].intercalate (names.filter fun n => !n.isEmpty) := by
  unfold denseOf
  rw [foldl_append_dot, List.nil_append]
  by_cases hnil : (names.filter fun n => !n.isEmpty) = []
  · rw [hnil]
    rfl
  · dsimp only
    rw [flatMap_append_dot hnil, if_pos List.getLast?_concat, List.dropLast_concat]

theorem mapM_shorten {prefixCut : Bool} {prefixNames : List Units}
    (h : ∀ p ∈ prefixNames, p ≠ []) :
    prefixNames.mapM (shorten prefixCut) =
      .ok (prefixNames.map fun p => if prefixCut then p.take 1 else []) := by
  apply mapM_eq_ok
  intro p hp
  obtain ⟨unit, units, rfl⟩ := List.exists_cons_of_ne_nil (h p hp)
  unfold shorten
  split_ifs
  · rfl
  · rfl

theorem putDense_eq {prefixCut : Bool} {prefixNames : List Units} {s : Units}
    (hne : ∀ p ∈ prefixNames, p ≠ []) (hs : WellNamed s) (hleading : prefixNames <+: splitDots s)
    (result : HashMap Units Units) :
    putDense (prefixNames.map fun p => if prefixCut then p.take 1 else []) result s =
      .ok (result.insert s (denseLabel prefixCut prefixNames s)) := by
  have hrest : ((splitDots s).drop prefixNames.length).filter (fun n => !n.isEmpty) =
      (splitDots s).drop prefixNames.length := by
    rw [List.filter_eq_self]
    intro n hn
    simpa using hs.joinable.ne_nil n (List.mem_of_mem_drop hn)
  have hshort : (prefixNames.map fun p => if prefixCut then p.take 1 else []).filter
      (fun n => !n.isEmpty) = shortened prefixCut prefixNames := by
    unfold shortened
    split_ifs with hcut
    · rw [List.filter_eq_self]
      intro n hn
      obtain ⟨p, hp, rfl⟩ := List.mem_map.mp hn
      simpa using hne p hp
    · simp
  rw [putDense, copyPrefix, List.length_map, if_pos hleading.length_le]
  show Except.ok (result.insert s (denseOf _)) = _
  rw [denseOf_eq, List.filter_append, hrest, hshort]
  rfl

/-- A loop that puts a value under each name gives every name its value. -/
theorem exists_foldlM_insert
    {put : HashMap Units Units → Units → Except Failure (HashMap Units Units)}
    {value : Units → Units} {names : List Units}
    (hput : ∀ s ∈ names, ∀ result, put result s = .ok (result.insert s (value s)))
    (start : HashMap Units Units) :
    ∃ result, names.foldlM put start = .ok result ∧
      ∀ s, result.lookup s = if s ∈ names then some (value s) else start.lookup s := by
  induction names generalizing start with
  | nil => exact ⟨start, rfl, fun s => by simp⟩
  | cons name names ih =>
    rw [List.forall_mem_cons] at hput
    obtain ⟨result, hresult, hlookup⟩ := ih hput.2 (start.insert name (value name))
    refine ⟨result, ?_, fun s => ?_⟩
    · rw [List.foldlM_cons, hput.1]
      exact hresult
    · rw [hlookup]
      by_cases hs : s ∈ names
      · simp [hs]
      · rcases eq_or_ne s name with rfl | hother
        · simp [hs]
        · simp [hs, hother]

/-- For well-formed names the map gives every name its label. -/
theorem exists_denseClassNames {src : List Units} (hsrc : ∀ s ∈ src, WellNamed s) :
    ∃ result, denseClassNames toLowerCase src = .ok result ∧ ∀ s, result.lookup s =
      if s ∈ src then
        some (denseLabel (scanNames toLowerCase src).prefixCut
          (scanNames toLowerCase src).prefixNames s)
      else none := by
  have hleading : ∀ s ∈ src, (scanNames toLowerCase src).prefixNames <+: splitDots s :=
    fun s hs => (prefixNames_isPrefix toLowerCase hs).trans (packageOf_isPrefix toLowerCase s)
  have hne : ∀ p ∈ (scanNames toLowerCase src).prefixNames, p ≠ [] := by
    intro p hp
    cases src with
    | nil => cases hp
    | cons s src =>
      have hmem := (hleading s List.mem_cons_self).subset hp
      exact (hsrc s List.mem_cons_self).joinable.ne_nil p hmem
  rw [denseClassNames, mapM_shorten hne]
  exact exists_foldlM_insert (fun s hs => putDense_eq hne (hsrc s hs) (hleading s hs)) ∅

theorem joinable_pieces {prefixNames : List Units} {s : Units} (hs : WellNamed s)
    (hleading : prefixNames <+: splitDots s) (prefixCut : Bool) :
    Joinable dot (shortened prefixCut prefixNames ++ (splitDots s).drop prefixNames.length) := by
  have hnames := hs.joinable
  have hshort : ∀ piece ∈ shortened prefixCut prefixNames, piece ≠ [] ∧ dot ∉ piece := by
    unfold shortened
    split_ifs
    · intro piece hpiece
      obtain ⟨p, hp, rfl⟩ := List.mem_map.mp hpiece
      have hmem := hleading.subset hp
      refine ⟨by simpa using hnames.ne_nil p hmem, fun hdot => ?_⟩
      exact hnames.notMem p hmem (List.mem_of_mem_take hdot)
    · exact List.forall_mem_nil _
  refine ⟨fun piece hpiece => ?_, fun piece hpiece => ?_⟩
  · rcases List.mem_append.mp hpiece with hmem | hmem
    · exact (hshort piece hmem).1
    · exact hnames.ne_nil piece (List.mem_of_mem_drop hmem)
  · rcases List.mem_append.mp hpiece with hmem | hmem
    · exact (hshort piece hmem).2
    · exact hnames.notMem piece (List.mem_of_mem_drop hmem)

/-- Names with the same prefix and the same label are the same. -/
theorem eq_of_denseLabel_eq {prefixCut : Bool} {prefixNames : List Units} {s t : Units}
    (hs : WellNamed s) (ht : WellNamed t) (hsleading : prefixNames <+: splitDots s)
    (htleading : prefixNames <+: splitDots t)
    (h : denseLabel prefixCut prefixNames s = denseLabel prefixCut prefixNames t) : s = t := by
  have hpieces := (joinable_pieces hs hsleading prefixCut).intercalate_inj
    (joinable_pieces ht htleading prefixCut) h
  have hdrop := List.append_cancel_left hpieces
  obtain ⟨srest, hsrest⟩ := hsleading
  obtain ⟨trest, htrest⟩ := htleading
  rw [← hsrest, ← htrest, List.drop_left, List.drop_left] at hdrop
  exact hs.eq_of_splitDots_eq ht (by rw [← hsrest, ← htrest, hdrop])

/-- For well-formed names no index is out of bounds, every name has a label, and no two
names have the same one. -/
theorem denseClassNames_injective {src : List Units} (hsrc : ∀ s ∈ src, WellNamed s) :
    ∃ result, denseClassNames toLowerCase src = .ok result ∧
      (∀ s, s ∈ src ↔ (result.lookup s).isSome) ∧
      ∀ s ∈ src, ∀ t ∈ src, result.lookup s = result.lookup t → s = t := by
  obtain ⟨result, hresult, hlookup⟩ := exists_denseClassNames toLowerCase hsrc
  refine ⟨result, hresult, fun s => ?_, fun s hs t ht heq => ?_⟩
  · rw [hlookup]
    by_cases hs : s ∈ src <;> simp [hs]
  · have hleading : ∀ u ∈ src, (scanNames toLowerCase src).prefixNames <+: splitDots u :=
      fun u hu => (prefixNames_isPrefix toLowerCase hu).trans (packageOf_isPrefix toLowerCase u)
    rw [hlookup, hlookup, if_pos hs, if_pos ht, Option.some_inj] at heq
    exact eq_of_denseLabel_eq (hsrc s hs) (hsrc t ht) (hleading s hs) (hleading t ht) heq

/-- `toLowerCase` on texts of ASCII. -/
def asciiLowerCase (n : Units) : Units :=
  n.map fun unit => if 'A'.toNat ≤ unit ∧ unit ≤ 'Z'.toNat then unit + 0x20 else unit

/-- Two benchmarks, the package of one of them inside that of the other. -/
def nestedNames : List Units := [utf16 "org.foo.Bench", utf16 "org.foo.sub.Bench"]

theorem denseClassNames_injective_nestedNames :
    ∃ result, denseClassNames asciiLowerCase nestedNames = .ok result ∧
      (∀ s, s ∈ nestedNames ↔ (result.lookup s).isSome) ∧
      ∀ s ∈ nestedNames, ∀ t ∈ nestedNames, result.lookup s = result.lookup t → s = t :=
  denseClassNames_injective asciiLowerCase (by decide +kernel)

/-! ## Other orders -/

/-- The two maps are there and give the same labels. -/
def SameLabels (first second : Except Failure (HashMap Units Units)) : Prop :=
  ∃ left right, first = .ok left ∧ second = .ok right ∧ ∀ s, left.lookup s = right.lookup s

/-- One of the packages is that of all names, but not of each of them the whole package. -/
def Nested (src : List Units) : Prop :=
  ∃ s ∈ src, packageOf toLowerCase s ≠ [] ∧
    (∀ t ∈ src, packageOf toLowerCase s <+: packageOf toLowerCase t) ∧
    ∃ t ∈ src, packageOf toLowerCase t ≠ packageOf toLowerCase s

theorem nested_iff_of_perm {src other : List Units} (h : other.Perm src) :
    Nested toLowerCase other ↔ Nested toLowerCase src := by
  simp only [Nested, h.mem_iff]

theorem Nested.prefixNames_eq {src : List Units} {s : Units} (hs : s ∈ src)
    (hall : ∀ t ∈ src, packageOf toLowerCase s <+: packageOf toLowerCase t) :
    (scanNames toLowerCase src).prefixNames = packageOf toLowerCase s :=
  (prefixNames_isPrefix toLowerCase hs).eq_of_length_le
    ((isPrefix_prefixNames_iff toLowerCase (List.ne_nil_of_mem hs)).mpr hall).length_le

/-- Names in another order whose prefix is cut where that of the first order is not. -/
theorem nested_of_prefixCut_ne {src other : List Units} (hperm : other.Perm src)
    (hne : (scanNames toLowerCase src).prefixNames ≠ [])
    (hsrc : (scanNames toLowerCase src).prefixCut = false)
    (hother : (scanNames toLowerCase other).prefixCut = true) : Nested toLowerCase src := by
  have hsame := prefixNames_eq_of_perm toLowerCase hperm
  cases src with
  | nil => exact absurd rfl hne
  | cons s src =>
    cases other with
    | nil => cases hother
    | cons t other =>
      have hs := (prefixCut_cons toLowerCase s src).mp hsrc
      have ht : (scanNames toLowerCase (t :: other)).prefixNames ≠ packageOf toLowerCase t := by
        intro heq
        rw [(prefixCut_cons toLowerCase t other).mpr heq] at hother
        cases hother
      refine ⟨s, List.mem_cons_self, hs ▸ hne, fun u hu => ?_, t,
        hperm.mem_iff.mp List.mem_cons_self, fun heq => ht ?_⟩
      · rw [← hs]
        exact prefixNames_isPrefix toLowerCase hu
      · rw [hsame, hs, heq]

theorem denseLabel_nil (prefixCut : Bool) (s : Units) :
    denseLabel prefixCut [] s = [dot].intercalate (splitDots s) := by
  cases prefixCut <;> rfl

/-- Cut and dropped prefixes give different labels. -/
theorem denseLabel_ne {prefixNames : List Units} {s : Units} (hs : WellNamed s)
    (hleading : prefixNames <+: splitDots s) (hne : prefixNames ≠ []) :
    denseLabel false prefixNames s ≠ denseLabel true prefixNames s := by
  intro heq
  have hpieces := (joinable_pieces hs hleading false).intercalate_inj
    (joinable_pieces hs hleading true) heq
  have hlength := congrArg List.length hpieces
  simp only [shortened, Bool.false_eq_true, if_false, if_true, List.length_append,
    List.length_map, List.length_nil] at hlength
  have hpos := List.length_pos_iff.mpr hne
  omega

/-- Without nested packages another order gives the same labels. -/
theorem sameLabels_of_perm {src other : List Units} (hsrc : ∀ s ∈ src, WellNamed s)
    (hnested : ¬ Nested toLowerCase src) (hperm : other.Perm src) :
    SameLabels (denseClassNames toLowerCase src) (denseClassNames toLowerCase other) := by
  have hother : ∀ s ∈ other, WellNamed s := fun s hs => hsrc s (hperm.mem_iff.mp hs)
  obtain ⟨result, hresult, hlookup⟩ := exists_denseClassNames toLowerCase hsrc
  obtain ⟨result', hresult', hlookup'⟩ := exists_denseClassNames toLowerCase hother
  refine ⟨result, result', hresult, hresult', fun s => ?_⟩
  have hsame := prefixNames_eq_of_perm toLowerCase hperm
  rw [hlookup, hlookup', hsame]
  simp only [hperm.mem_iff]
  by_cases hnil : (scanNames toLowerCase src).prefixNames = []
  · rw [hnil, denseLabel_nil, denseLabel_nil]
  · have hcut : (scanNames toLowerCase src).prefixCut =
        (scanNames toLowerCase other).prefixCut := by
      by_contra hne
      apply hnested
      cases hfirst : (scanNames toLowerCase src).prefixCut with
      | false =>
        rw [hfirst, eq_comm, Bool.not_eq_false] at hne
        exact nested_of_prefixCut_ne toLowerCase hperm hnil hfirst hne
      | true =>
        rw [hfirst, eq_comm, Bool.not_eq_true] at hne
        rw [← nested_iff_of_perm toLowerCase hperm]
        exact nested_of_prefixCut_ne toLowerCase hperm.symm (hsame ▸ hnil) hne hfirst
    rw [hcut]

/-- The labels do not depend on the order of the names exactly when no package is nested in
another one that all names have in common. -/
theorem denseClassNames_perm_iff {src : List Units} (hsrc : ∀ s ∈ src, WellNamed s) :
    (∀ other : List Units, other.Perm src →
      SameLabels (denseClassNames toLowerCase src) (denseClassNames toLowerCase other)) ↔
      ¬ Nested toLowerCase src := by
  have hwell : ∀ other : List Units, other.Perm src → ∀ s ∈ other, WellNamed s :=
    fun other hperm s hs => hsrc s (hperm.mem_iff.mp hs)
  constructor
  · rintro hall ⟨s, hs, hne, hleading, t, ht, hpackage⟩
    have hprefixNames := Nested.prefixNames_eq toLowerCase hs hleading
    have hsfirst := List.perm_cons_erase hs
    have htfirst := List.perm_cons_erase ht
    obtain ⟨left, right, hleft, hright, hsame⟩ := hall _ hsfirst.symm
    obtain ⟨left', other, hleft', hother, hsame'⟩ := hall _ htfirst.symm
    obtain rfl : left = left' := Except.ok.inj (hleft.symm.trans hleft')
    obtain ⟨result, hresult, hlookup⟩ :=
      exists_denseClassNames toLowerCase (hwell _ hsfirst.symm)
    obtain ⟨result', hresult', hlookup'⟩ :=
      exists_denseClassNames toLowerCase (hwell _ htfirst.symm)
    obtain rfl : right = result := Except.ok.inj (hright.symm.trans hresult)
    obtain rfl : other = result' := Except.ok.inj (hother.symm.trans hresult')
    have hscut := (prefixCut_cons toLowerCase s (src.erase s)).mpr
      ((prefixNames_eq_of_perm toLowerCase hsfirst).symm.trans hprefixNames)
    have htcut : (scanNames toLowerCase (t :: src.erase t)).prefixCut = true := by
      by_contra hfalse
      have hwhole := (prefixCut_cons toLowerCase t (src.erase t)).mp
        (Bool.eq_false_of_not_eq_true hfalse)
      rw [← prefixNames_eq_of_perm toLowerCase htfirst, hprefixNames] at hwhole
      exact hpackage hwhole.symm
    have hlabels := (hsame s).symm.trans (hsame' s)
    rw [hlookup, hlookup', if_pos List.mem_cons_self, if_pos (htfirst.mem_iff.mp hs), hscut, htcut,
      ← prefixNames_eq_of_perm toLowerCase hsfirst, ← prefixNames_eq_of_perm toLowerCase htfirst,
      hprefixNames, Option.some_inj] at hlabels
    exact denseLabel_ne (hsrc s hs) (packageOf_isPrefix toLowerCase s) hne hlabels
  · exact fun hnested other hperm => sameLabels_of_perm toLowerCase hsrc hnested hperm

theorem denseClassNames_perm_iff_nestedNames :
    (∀ other : List Units, other.Perm nestedNames →
      SameLabels (denseClassNames asciiLowerCase nestedNames)
        (denseClassNames asciiLowerCase other)) ↔
      ¬ Nested asciiLowerCase nestedNames :=
  denseClassNames_perm_iff asciiLowerCase (by decide +kernel)

/-- In this order the outer benchmark has the label `Bench`, and in the other one it has
the label `o.f.Bench`. -/
theorem not_forall_denseClassNames_perm :
    ¬ ∀ (toLowerCase : Units → Units) (src other : List Units), (∀ s ∈ src, WellNamed s) →
      other.Perm src →
        SameLabels (denseClassNames toLowerCase src) (denseClassNames toLowerCase other) := by
  intro hall
  obtain ⟨left, right, hleft, hright, hsame⟩ := hall asciiLowerCase nestedNames nestedNames.reverse
    (by decide +kernel) (List.reverse_perm nestedNames)
  have hfirst : (denseClassNames asciiLowerCase nestedNames).toOption.bind
      (AList.lookup (utf16 "org.foo.Bench")) = some (utf16 "Bench") := by decide +kernel
  have hsecond : (denseClassNames asciiLowerCase nestedNames.reverse).toOption.bind
      (AList.lookup (utf16 "org.foo.Bench")) = some (utf16 "o.f.Bench") := by decide +kernel
  rw [hleft] at hfirst
  rw [hright] at hsecond
  have hlabels := hfirst.symm.trans ((hsame _).trans hsecond)
  exact absurd hlabels (by decide +kernel)

/-! ## The orders of the rows -/

inductive Order
  | alpha
  | ascending
  | descending

/-- `reorder`. The sorts are stable. -/
def reorder (order : Order) (runResults : List RunResult) : List RunResult :=
  match order with
  | .alpha => runResults
  | .ascending =>
      runResults.mergeSort fun first second => first.primaryResult.diff ≤ second.primaryResult.diff
  | .descending =>
      runResults.mergeSort fun first second => second.primaryResult.diff ≤ first.primaryResult.diff

theorem reorder_perm (order : Order) (runResults : List RunResult) :
    (reorder order runResults).Perm runResults := by
  cases order with
  | alpha => exact List.Perm.refl runResults
  | ascending => exact List.mergeSort_perm runResults _
  | descending => exact List.mergeSort_perm runResults _

end Colata.BenchmarkCompare
