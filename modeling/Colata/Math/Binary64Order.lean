/-
# The order of doubles

Comparisons do not tell the two zeros apart, and none holds of NaN. The maximum and the
minimum follow a total order of the numbers, in which the negative zero stands right before
the positive one, and pass NaN on.
-/

import Colata.Math.Binary64Integer
import Colata.Math.Reduction

namespace Colata.Math.Binary64

attribute [local irreducible] one unitExponent overflow

/-- `x == y`. -/
protected def eq : Binary64 → Binary64 → Bool
  | .nan, _ => false
  | _, .nan => false
  | .infinity s, .infinity t => s == t
  | .infinity _, .finite .. => false
  | .finite .., .infinity _ => false
  | .finite s m _, .finite t n _ => decide (signed s m = signed t n)

/-- `x <= y`. -/
protected def le (x y : Binary64) : Bool := x.lt y || x.eq y

def negativeZero : Binary64 := .finite true 0 isMagnitude_zero

theorem isMagnitude_one : IsMagnitude 1 := by
  have hone : 1 * one < overflow := (isMagnitude_nat (Nat.one_le_two_pow : 1 ≤ 2 ^ 53)).1
  constructor
  · exact (Nat.le_mul_of_pos_right 1 one_pos).trans_lt hone
  · exact one_dvd 1

/-- The positive number next to zero. -/
def leastPositive : Binary64 := .finite false 1 isMagnitude_one

def isNegative : Binary64 → Bool
  | .nan => false
  | .infinity negative => negative
  | .finite negative _ _ => negative

/-- The magnitude in units, where infinity comes right behind the finite range. -/
def extent : Binary64 → ℕ
  | .nan => 0
  | .infinity _ => overflow
  | .finite _ magnitude _ => magnitude

/-- What comparisons look at. -/
def value (x : Binary64) : ℤ := signed x.isNegative x.extent

/-- The place in the order. Negative numbers count down from the negative zero, which stands
at `-1`. -/
def rank (x : Binary64) : ℤ := if x.isNegative then -x.extent - 1 else x.extent

protected def max (x y : Binary64) : Binary64 :=
  if x = .nan ∨ y = .nan then .nan else if x.rank < y.rank then y else x

protected def min (x y : Binary64) : Binary64 :=
  if x = .nan ∨ y = .nan then .nan else if y.rank < x.rank then y else x

section Order

variable {x y : Binary64}

theorem eq_self_iff : x.eq x = true ↔ x ≠ .nan := by
  cases x with
  | nan => simp [Binary64.eq]
  | infinity s => simp [Binary64.eq]
  | finite s m h => simp [Binary64.eq]

theorem lt_eq_decide (hx : x ≠ .nan) (hy : y ≠ .nan) : x.lt y = decide (x.value < y.value) := by
  have hpos := overflow_pos
  cases x with
  | nan => exact absurd rfl hx
  | infinity s =>
      cases y with
      | nan => exact absurd rfl hy
      | infinity t =>
          cases s <;> cases t <;> simp [Binary64.lt, value, isNegative, extent, signed, hpos]
      | finite t n hn =>
          have hlt := hn.1
          cases s <;> cases t <;> simp [Binary64.lt, value, isNegative, extent, signed] <;> omega
  | finite s m hm =>
      have hlt := hm.1
      cases y with
      | nan => exact absurd rfl hy
      | infinity t =>
          cases s <;> cases t <;> simp [Binary64.lt, value, isNegative, extent, signed] <;> omega
      | finite t n hn => rfl

theorem eq_eq_decide (hx : x ≠ .nan) (hy : y ≠ .nan) : x.eq y = decide (x.value = y.value) := by
  have hpos := overflow_pos
  cases x with
  | nan => exact absurd rfl hx
  | infinity s =>
      cases y with
      | nan => exact absurd rfl hy
      | infinity t =>
          cases s <;> cases t <;> simp [Binary64.eq, value, isNegative, extent, signed]
          all_goals omega
      | finite t n hn =>
          have hlt := hn.1
          cases s <;> cases t <;> simp [Binary64.eq, value, isNegative, extent, signed] <;> omega
  | finite s m hm =>
      have hlt := hm.1
      cases y with
      | nan => exact absurd rfl hy
      | infinity t =>
          cases s <;> cases t <;> simp [Binary64.eq, value, isNegative, extent, signed] <;> omega
      | finite t n hn => rfl

theorem lt_iff : x.lt y = true ↔ x ≠ .nan ∧ y ≠ .nan ∧ x.value < y.value := by
  by_cases hx : x = .nan
  · simp [hx, Binary64.lt]
  · by_cases hy : y = .nan
    · cases x <;> simp [hy, Binary64.lt]
    · simp [hx, hy, lt_eq_decide]

theorem eq_iff : x.eq y = true ↔ x ≠ .nan ∧ y ≠ .nan ∧ x.value = y.value := by
  by_cases hx : x = .nan
  · simp [hx, Binary64.eq]
  · by_cases hy : y = .nan
    · cases x <;> simp [hy, Binary64.eq]
    · simp [hx, hy, eq_eq_decide]

theorem le_iff : x.le y = true ↔ x ≠ .nan ∧ y ≠ .nan ∧ x.value ≤ y.value := by
  rw [Binary64.le, Bool.or_eq_true, lt_iff, eq_iff, le_iff_lt_or_eq]
  tauto

protected theorem eq_comm (x y : Binary64) : x.eq y = y.eq x := by
  rw [Bool.eq_iff_iff, eq_iff, eq_iff, eq_comm (a := x.value)]
  tauto

theorem eq_of_parts_eq (hx : x ≠ .nan) (hy : y ≠ .nan) (hsign : x.isNegative = y.isNegative)
    (hextent : x.extent = y.extent) : x = y := by
  cases x with
  | nan => exact absurd rfl hx
  | infinity s =>
      cases y with
      | nan => exact absurd rfl hy
      | infinity t => exact congrArg Binary64.infinity hsign
      | finite t n hn => exact absurd hextent.symm hn.1.ne
  | finite s m hm =>
      cases y with
      | nan => exact absurd rfl hy
      | infinity t => exact absurd hextent hm.1.ne
      | finite t n hn =>
          obtain rfl : s = t := hsign
          obtain rfl : m = n := hextent
          rfl

/-- Numbers follow each other as comparisons say, apart from the two zeros. -/
theorem rank_lt_iff : x.rank < y.rank ↔
    x.value < y.value ∨
      x.value = 0 ∧ y.value = 0 ∧ x.isNegative = true ∧ y.isNegative = false := by
  cases hs : x.isNegative with
  | true =>
      cases ht : y.isNegative with
      | true => simp [rank, value, signed, hs, ht]
      | false =>
          simp only [rank, value, signed, hs, ht, ↓reduceIte, Bool.false_eq_true, and_true]
          omega
  | false =>
      cases ht : y.isNegative with
      | true =>
          simp only [rank, value, signed, hs, ht, ↓reduceIte, Bool.false_eq_true, reduceCtorEq,
            and_false, or_false]
          omega
      | false => simp [rank, value, signed, hs, ht]

theorem rank_le_of_value_lt (h : x.value < y.value) : x.rank ≤ y.rank :=
  (rank_lt_iff.mpr (Or.inl h)).le

theorem rank_injective (hx : x ≠ .nan) (hy : y ≠ .nan) (h : x.rank = y.rank) : x = y := by
  rw [rank, rank] at h
  cases hs : x.isNegative with
  | true =>
      cases ht : y.isNegative with
      | true =>
          rw [hs, ht, if_pos rfl, if_pos rfl] at h
          exact eq_of_parts_eq hx hy (hs.trans ht.symm) (by omega)
      | false =>
          rw [hs, ht, if_pos rfl, if_neg Bool.false_ne_true] at h
          omega
  | false =>
      cases ht : y.isNegative with
      | true =>
          rw [hs, ht, if_neg Bool.false_ne_true, if_pos rfl] at h
          omega
      | false =>
          rw [hs, ht, if_neg Bool.false_ne_true, if_neg Bool.false_ne_true] at h
          exact eq_of_parts_eq hx hy (hs.trans ht.symm) (by omega)

theorem value_eq_zero_iff (hx : x ≠ .nan) :
    x.value = 0 ↔ x = .finite x.isNegative 0 isMagnitude_zero := by
  constructor
  · intro h
    refine eq_of_parts_eq hx (by simp) rfl ?_
    show x.extent = 0
    rw [value, signed] at h
    split_ifs at h <;> omega
  · intro h
    rw [h, value, extent, signed]
    split_ifs <;> rfl

theorem value_zero : zero.value = 0 := rfl

/-- Equality with zero holds of both zeros. -/
theorem eq_zero_iff : x.eq zero = true ↔ x ≠ .nan ∧ x.value = 0 := by
  rw [eq_iff, value_zero]
  simp [zero]

theorem eq_self_eq_false_iff : x.eq x = false ↔ x = .nan := by
  rw [← Bool.not_eq_true, eq_self_iff, not_not]

theorem eq_negativeZero_iff (hx : x ≠ .nan) :
    x = negativeZero ↔ x.value = 0 ∧ x.isNegative = true := by
  rw [value_eq_zero_iff hx]
  constructor
  · intro h
    rw [h]
    exact ⟨rfl, rfl⟩
  · rintro ⟨h, hnegative⟩
    rw [h, hnegative]
    rfl

/-- Only the negative zero stands before a number it is equal to. -/
theorem rank_le_of_value_eq (hx : x ≠ .nan) (hvalue : x.value = y.value)
    (hne : x ≠ negativeZero) : y.rank ≤ x.rank := by
  by_contra hnot
  rcases rank_lt_iff.mp (not_le.mp hnot) with hlt | ⟨hzero, -, hnegative, -⟩
  · exact hlt.ne hvalue
  · exact hne ((eq_negativeZero_iff hx).mpr ⟨hzero, hnegative⟩)

theorem rank_negativeZero_le (hvalue : x.value = 0) : negativeZero.rank ≤ x.rank := by
  by_contra hnot
  rcases rank_lt_iff.mp (not_le.mp hnot) with hlt | ⟨-, -, -, hnegative⟩
  · exact hlt.ne hvalue
  · exact Bool.false_ne_true hnegative.symm

/-- Numbers that compare neither as less nor as equal are greater. -/
theorem value_lt_of_not (hx : x ≠ .nan) (hy : y ≠ .nan) (hlt : ¬y.lt x = true)
    (heq : ¬x.eq y = true) : x.value < y.value := by
  rw [lt_eq_decide hy hx, decide_eq_true_eq] at hlt
  rw [eq_eq_decide hx hy, decide_eq_true_eq] at heq
  omega

end Order

/-! ## The greatest and the least number of a list -/

section Extremum

variable {x y : Binary64}

theorem max_eq_nan_iff : x.max y = .nan ↔ x = .nan ∨ y = .nan := by
  constructor
  · intro h
    by_contra hnot
    obtain ⟨hx, hy⟩ := not_or.mp hnot
    rw [Binary64.max, if_neg hnot] at h
    split_ifs at h
    · exact hy h
    · exact hx h
  · intro h
    rw [Binary64.max, if_pos h]

theorem min_eq_nan_iff : x.min y = .nan ↔ x = .nan ∨ y = .nan := by
  constructor
  · intro h
    by_contra hnot
    obtain ⟨hx, hy⟩ := not_or.mp hnot
    rw [Binary64.min, if_neg hnot] at h
    split_ifs at h
    · exact hy h
    · exact hx h
  · intro h
    rw [Binary64.min, if_pos h]

theorem max_eq_left (hx : x ≠ .nan) (hy : y ≠ .nan) (h : y.rank ≤ x.rank) : x.max y = x := by
  rw [Binary64.max, if_neg (not_or.mpr ⟨hx, hy⟩), if_neg (not_lt.mpr h)]

theorem max_eq_right (hx : x ≠ .nan) (hy : y ≠ .nan) (h : x.rank ≤ y.rank) : x.max y = y := by
  rcases h.lt_or_eq with hlt | heq
  · rw [Binary64.max, if_neg (not_or.mpr ⟨hx, hy⟩), if_pos hlt]
  · rw [max_eq_left hx hy heq.ge, rank_injective hx hy heq]

theorem min_eq_left (hx : x ≠ .nan) (hy : y ≠ .nan) (h : x.rank ≤ y.rank) : x.min y = x := by
  rw [Binary64.min, if_neg (not_or.mpr ⟨hx, hy⟩), if_neg (not_lt.mpr h)]

theorem min_eq_right (hx : x ≠ .nan) (hy : y ≠ .nan) (h : y.rank ≤ x.rank) : x.min y = y := by
  rcases h.lt_or_eq with hlt | heq
  · rw [Binary64.min, if_neg (not_or.mpr ⟨hx, hy⟩), if_pos hlt]
  · rw [min_eq_left hx hy heq.ge, rank_injective hy hx heq]

protected theorem max_comm (x y : Binary64) : x.max y = y.max x := by
  by_cases hnan : x = .nan ∨ y = .nan
  · rw [Binary64.max, if_pos hnan, Binary64.max, if_pos hnan.symm]
  · obtain ⟨hx, hy⟩ := not_or.mp hnan
    rcases le_total x.rank y.rank with h | h
    · rw [max_eq_right hx hy h, max_eq_left hy hx h]
    · rw [max_eq_left hx hy h, max_eq_right hy hx h]

/-- A fold whose steps pass NaN on ends with NaN if it meets one. -/
theorem foldl_eq_nan_iff {op : Binary64 → Binary64 → Binary64}
    (hop : ∀ x y, op x y = .nan ↔ x = .nan ∨ y = .nan) (list : List Binary64)
    (start : Binary64) : list.foldl op start = .nan ↔ .nan ∈ start :: list := by
  induction list generalizing start with
  | nil => simp [eq_comm]
  | cons x list ih =>
      have hcomm : op start x = .nan ↔ .nan = start ∨ .nan = x := by
        rw [hop, eq_comm, eq_comm (a := x)]
      rw [List.foldl_cons, ih, List.mem_cons, eq_comm, hcomm, List.mem_cons, List.mem_cons,
        or_assoc]

theorem max_spec (hx : x ≠ .nan) (hy : y ≠ .nan) :
    (x.max y = x ∨ x.max y = y) ∧ x.rank ≤ (x.max y).rank ∧ y.rank ≤ (x.max y).rank := by
  rcases le_total x.rank y.rank with h | h
  · rw [max_eq_right hx hy h]
    exact ⟨.inr rfl, h, le_rfl⟩
  · rw [max_eq_left hx hy h]
    exact ⟨.inl rfl, le_rfl, h⟩

theorem min_spec (hx : x ≠ .nan) (hy : y ≠ .nan) :
    (x.min y = x ∨ x.min y = y) ∧ -x.rank ≤ -(x.min y).rank ∧ -y.rank ≤ -(x.min y).rank := by
  rcases le_total x.rank y.rank with h | h
  · rw [min_eq_left hx hy h]
    exact ⟨.inl rfl, le_rfl, neg_le_neg h⟩
  · rw [min_eq_right hx hy h]
    exact ⟨.inr rfl, neg_le_neg h, le_rfl⟩

/-- The greatest of the numbers, or NaN if one of them is none. -/
def IsMaximum (list : List Binary64) (result : Binary64) : Prop :=
  if .nan ∈ list then result = .nan
  else result ∈ list ∧ ∀ x ∈ list, x.rank ≤ result.rank

def IsMinimum (list : List Binary64) (result : Binary64) : Prop :=
  if .nan ∈ list then result = .nan
  else result ∈ list ∧ ∀ x ∈ list, result.rank ≤ x.rank

theorem ne_nan_of_mem {list : List Binary64} (hlist : .nan ∉ list) : ∀ x ∈ list, x ≠ .nan := by
  rintro x hx rfl
  exact hlist hx

theorem isMaximum_foldl (list : List Binary64) (start : Binary64) :
    IsMaximum (start :: list) (list.foldl Binary64.max start) := by
  rw [IsMaximum]
  split_ifs with hnan
  · exact (foldl_eq_nan_iff (fun _ _ => max_eq_nan_iff) list start).mpr hnan
  · exact foldl_greatest (fun _ _ => max_spec) (ne_nan_of_mem hnan)

theorem isMinimum_foldl (list : List Binary64) (start : Binary64) :
    IsMinimum (start :: list) (list.foldl Binary64.min start) := by
  rw [IsMinimum]
  split_ifs with hnan
  · exact (foldl_eq_nan_iff (fun _ _ => min_eq_nan_iff) list start).mpr hnan
  · obtain ⟨hmem, hleast⟩ := foldl_greatest (fun _ _ => min_spec) (ne_nan_of_mem hnan)
    exact ⟨hmem, fun x hx => neg_le_neg_iff.mp (hleast x hx)⟩

end Extremum

/-! ## Integers -/

section Integers

variable {a b : ℤ}

theorem signed_natAbs (value : ℤ) : signed (decide (value < 0)) value.natAbs = value := by
  rw [signed]
  split_ifs with h
  · rw [decide_eq_true_eq] at h
    omega
  · rw [decide_eq_true_eq] at h
    omega

/-- Up to `2 ^ 53` every integer is a double. -/
theorem ofInt_eq_finite (ha : a.natAbs ≤ 2 ^ 53) :
    ofInt a = .finite (decide (a < 0)) (a.natAbs * one) (isMagnitude_nat ha) := by
  have hpos : (0 : ℤ) < one := Int.natCast_pos.mpr one_pos
  have hsign : a * one < 0 ↔ a < 0 := by
    have hscale : a * one < 0 * one ↔ a < 0 := mul_lt_mul_iff_of_pos_right hpos
    rwa [zero_mul] at hscale
  rw [ofInt, ofUnits, decide_eq_decide.mpr hsign, Int.natAbs_mul, Int.natAbs_natCast,
    round_of_isMagnitude _ (isMagnitude_nat ha)]

theorem lt_ofInt (ha : a.natAbs ≤ 2 ^ 53) (hb : b.natAbs ≤ 2 ^ 53) :
    (ofInt a).lt (ofInt b) = decide (a < b) := by
  have hpos : (0 : ℤ) < one := Int.natCast_pos.mpr one_pos
  rw [ofInt_eq_finite ha, ofInt_eq_finite hb, Binary64.lt, signed_mul, signed_mul, signed_natAbs,
    signed_natAbs, decide_eq_decide, mul_lt_mul_iff_of_pos_right hpos]

theorem eq_ofInt (ha : a.natAbs ≤ 2 ^ 53) (hb : b.natAbs ≤ 2 ^ 53) :
    (ofInt a).eq (ofInt b) = decide (a = b) := by
  have hne : (one : ℤ) ≠ 0 := (Int.natCast_pos.mpr one_pos).ne'
  rw [ofInt_eq_finite ha, ofInt_eq_finite hb, Binary64.eq, signed_mul, signed_mul, signed_natAbs,
    signed_natAbs, decide_eq_decide, mul_left_inj' hne]

/-- No integer converts to the negative zero. -/
theorem ofInt_ne_negativeZero (ha : a.natAbs ≤ 2 ^ 53) : ofInt a ≠ negativeZero := by
  rw [ofInt_eq_finite ha, negativeZero]
  intro h
  obtain ⟨hsign, hmagnitude⟩ := Binary64.finite.inj h
  have hzero : a.natAbs = 0 := (mul_eq_zero.mp hmagnitude).resolve_right one_pos.ne'
  have hnegative : a < 0 := of_decide_eq_true hsign
  omega

theorem ofInt_zero : ofInt 0 = zero := by
  have h : (0 : ℤ).natAbs ≤ 2 ^ 53 := Nat.zero_le _
  rw [ofInt_eq_finite h, zero]
  simp

end Integers

/-! ## Differences -/

section Differences

variable {units : ℤ}

/-- What is no zero is not rounded to one. -/
theorem roundMagnitude_pos (hunits : units ≠ 0) : 0 < roundMagnitude units.natAbs 1 := by
  have hone : 2 ^ 0 ≤ units.natAbs / 1 := by
    rw [Nat.div_one]
    exact Int.natAbs_pos.mpr hunits
  exact two_pow_le_roundMagnitude hone

theorem signed_zero (negative : Bool) : signed negative 0 = 0 := by
  cases negative <;> rfl

theorem signed_not (negative : Bool) (magnitude : ℕ) :
    signed (!negative) magnitude = -signed negative magnitude := by
  cases negative <;> simp [signed]

theorem compare_ofUnits (hunits : units ≠ 0) :
    (ofUnits units).lt zero = decide (units < 0) ∧
      zero.lt (ofUnits units) = decide (0 < units) := by
  have hpos := roundMagnitude_pos hunits
  rw [ofUnits, round]
  by_cases hnegative : units < 0
  · have hpositive : ¬0 < units := hnegative.asymm
    split_ifs with hfinite
    · simp [Binary64.lt, zero, signed, hnegative, hpositive, hpos]
    · simp [Binary64.lt, zero, hnegative, hpositive]
  · have hpositive : 0 < units := by omega
    split_ifs with hfinite
    · simp [Binary64.lt, zero, signed, hnegative, hpositive, hpos]
    · simp [Binary64.lt, zero, hnegative, hpositive]

variable (x y : Binary64)

/-- A difference has the sign of the order, however close the two numbers are. -/
theorem compare_sub : (x - y).lt zero = x.lt y ∧ zero.lt (x - y) = y.lt x := by
  change (x.add y.neg).lt zero = x.lt y ∧ zero.lt (x.add y.neg) = y.lt x
  cases x with
  | nan => cases y <;> exact ⟨rfl, rfl⟩
  | infinity s =>
      cases y with
      | nan => exact ⟨rfl, rfl⟩
      | infinity t => cases s <;> cases t <;> exact ⟨rfl, rfl⟩
      | finite t n hn => cases s <;> exact ⟨rfl, rfl⟩
  | finite s m hm =>
      cases y with
      | nan => exact ⟨rfl, rfl⟩
      | infinity t => cases t <;> exact ⟨rfl, rfl⟩
      | finite t n hn =>
          rw [Binary64.neg, Binary64.add, signed_not, ← sub_eq_add_neg]
          split_ifs with hzero
          · have heq : signed s m = signed t n := sub_eq_zero.mp hzero
            simp [Binary64.lt, zero, signed_zero, heq]
          · obtain ⟨hbelow, habove⟩ := compare_ofUnits hzero
            rw [hbelow, habove, Binary64.lt, Binary64.lt, decide_eq_decide, decide_eq_decide]
            exact ⟨sub_neg, sub_pos⟩

theorem sub_lt_zero : (x - y).lt zero = x.lt y := (compare_sub x y).1

theorem zero_lt_sub : zero.lt (x - y) = y.lt x := (compare_sub x y).2

end Differences

end Colata.Math.Binary64
