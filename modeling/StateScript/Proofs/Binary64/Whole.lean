/-
Whole numbers in binary64, and places counted in it. A whole number below 2^53 is exact, and a greater one
that is rounded stays at 2^53 or above. So in a list of fewer than 2^53 items it makes no difference to the
place that a number counts to whether the list's length, the number and their sum are rounded to binary64 or
are counted as they are.
-/
import StateScript.Collection

namespace StateScript

/-- The place in a list of this length that a number counts to, counted in binary64: the length and the
number are rounded to it, and so is the sum of the two for a number that counts from the end. -/
def Number.roundedPlace (n : Number) (length : Nat) : Nat :=
  match n.toBinary64?, Binary64.ofInt? length with
  | some x, some size =>
    if x.truncate < 0 then
      match (Binary64.ofInt? x.truncate).bind size.add? with
      | some fromEnd => fromEnd.truncate.toNat
      -- a sum beyond the format lies before the front of the list
      | none => 0
    else if size.truncate ≤ x.truncate then length
    else x.truncate.toNat
  | _, _ => length

theorem le_roundQuotient (n d : Nat) : n / d ≤ roundQuotient n d ∧ roundQuotient n d ≤ n / d + 1 := by
  unfold roundQuotient
  split <;> omega

theorem roundQuotient_mul (k : Nat) {d : Nat} (hd : 0 < d) : roundQuotient (k * d) d = k := by
  unfold roundQuotient
  rw [Nat.mul_mod_left, if_pos (.inl hd), Nat.mul_div_cancel k hd]

namespace Binary64

/-! ## Exact whole numbers -/

/-- The number is this whole one. -/
def IsInt (x : Binary64) (i : Int) : Prop :=
  (if x.negative then -(x.numerator : Int) else x.numerator) = i * x.denominator

instance (x : Binary64) (i : Int) : Decidable (x.IsInt i) := inferInstanceAs (Decidable (_ = _))

theorem denominator_pos (x : Binary64) : 0 < x.denominator := Nat.two_pow_pos _

theorem IsInt.truncate_eq {x : Binary64} {i : Int} (h : x.IsInt i) : x.truncate = i := by
  have hpos : (x.denominator : Int) ≠ 0 := Int.natCast_ne_zero.2 (Nat.ne_of_gt x.denominator_pos)
  unfold IsInt at h
  unfold truncate
  split at h
  · next hneg =>
    have hnum : (x.numerator : Int) = -i * x.denominator := by rw [Int.neg_mul, ← h, Int.neg_neg]
    rw [if_pos hneg, Int.natCast_ediv, hnum, Int.mul_ediv_cancel _ hpos, Int.neg_neg]
  · next hneg => rw [if_neg hneg, Int.natCast_ediv, h, Int.mul_ediv_cancel _ hpos]

/-- In units of a power of two that divides it, a whole number is as many as it says. -/
theorem IsInt.units_eq {x : Binary64} {i e : Int} (h : x.IsInt i) (hx : e ≤ x.exponent) (he : e ≤ 0) :
    x.units e = i * Nat.pow 2 (-e).toNat := by
  have hscaled : (x.significand * 2 ^ (x.exponent - e).toNat) * x.denominator =
      x.numerator * 2 ^ (-e).toNat := by
    show x.significand * 2 ^ (x.exponent - e).toNat * 2 ^ (-x.exponent).toNat =
      x.significand * 2 ^ x.exponent.toNat * 2 ^ (-e).toNat
    rw [Nat.mul_assoc, Nat.mul_assoc, ← Nat.pow_add, ← Nat.pow_add]
    congr 2
    omega
  have hpos : (x.denominator : Int) ≠ 0 := Int.natCast_ne_zero.2 (Nat.ne_of_gt x.denominator_pos)
  have hscaled' : ((x.significand * 2 ^ (x.exponent - e).toNat : Nat) : Int) * x.denominator =
      x.numerator * Nat.pow 2 (-e).toNat := by exact_mod_cast hscaled
  refine Int.eq_of_mul_eq_mul_right hpos ?_
  rw [Int.mul_right_comm, ← h]
  unfold units
  split
  · rw [Int.neg_mul, Int.neg_mul]
    exact congrArg _ hscaled'
  · exact hscaled'

theorem binade_mul {v d : Nat} (hv : 0 < v) (hd : 0 < d) : binade (v * d) d = v.log2 := by
  have hlow : v.log2 + d.log2 ≤ (v * d).log2 := by
    rw [Nat.le_log2 (Nat.ne_of_gt (Nat.mul_pos hv hd)), Nat.pow_add]
    exact Nat.mul_le_mul (Nat.log2_self_le (Nat.ne_of_gt hv)) (Nat.log2_self_le (Nat.ne_of_gt hd))
  have hhigh : (v * d).log2 < v.log2 + 1 + (d.log2 + 1) := by
    rw [Nat.log2_lt (Nat.ne_of_gt (Nat.mul_pos hv hd)), Nat.pow_add]
    exact Nat.mul_lt_mul'' Nat.lt_log2_self Nat.lt_log2_self
  have hcancel : ∀ k, v * d < d * 2 ^ k ↔ v < 2 ^ k := by
    intro k
    rw [Nat.mul_comm d]
    exact Nat.mul_lt_mul_right hd
  unfold binade
  rcases (by omega : (v * d).log2 = v.log2 + d.log2 ∨ (v * d).log2 = v.log2 + d.log2 + 1) with hlog | hlog
  · have he : ((v * d).log2 : Int) - d.log2 = v.log2 := by omega
    simp only [he]
    have hnot : ¬ v * d * Nat.pow 2 (-(v.log2 : Int)).toNat < d * Nat.pow 2 (v.log2 : Int).toNat := by
      rw [show (-(v.log2 : Int)).toNat = 0 by omega, Int.toNat_natCast]
      show ¬ v * d * 1 < d * 2 ^ v.log2
      rw [Nat.mul_one, hcancel, Nat.not_lt]
      exact Nat.log2_self_le (Nat.ne_of_gt hv)
    rw [if_neg hnot]
  · have he : ((v * d).log2 : Int) - d.log2 = ((v.log2 + 1 : Nat) : Int) := by omega
    simp only [he]
    have hlt : v * d * Nat.pow 2 (-((v.log2 + 1 : Nat) : Int)).toNat <
        d * Nat.pow 2 ((v.log2 + 1 : Nat) : Int).toNat := by
      rw [show (-((v.log2 + 1 : Nat) : Int)).toNat = 0 by omega, Int.toNat_natCast]
      show v * d * 1 < d * 2 ^ (v.log2 + 1)
      rw [Nat.mul_one, hcancel]
      exact Nat.lt_log2_self
    rw [if_pos hlt]
    omega

theorem binade_one {v : Nat} (hv : 0 < v) : binade v 1 = v.log2 := by
  have h := binade_mul hv Nat.one_pos
  rwa [Nat.mul_one] at h

/-- The parts of a number in the form that the format gives it. -/
theorem ofParts?_eq_some (negative : Bool) {m : Nat} {e : Int} (hm : 0x10000000000000 ≤ m ∧ m < 0x20000000000000)
    (he : -1074 ≤ e ∧ e ≤ 971) :
    ofParts? negative m e = some ⟨negative, m, e, hm.2, he.1, he.2, .inl hm.1⟩ := by
  unfold ofParts?
  rw [dif_pos ⟨hm.2, he.1, he.2, .inl hm.1⟩]

/-- A ratio that is a whole number below 2^53 is exact. -/
theorem exists_ofRatio?_mul (negative : Bool) {v d : Nat} (hv : v < 0x20000000000000) (hd : 0 < d) :
    ∃ x, ofRatio? negative (v * d) d = some x ∧ x.negative = negative ∧ x.numerator = v * x.denominator := by
  rcases Nat.eq_zero_or_pos v with rfl | hpos
  · refine ⟨zero negative, by rw [Nat.zero_mul, ofRatio?, if_pos rfl], rfl, ?_⟩
    rw [Nat.zero_mul, numerator, zero, Nat.zero_mul]
  · have hlog : v.log2 ≤ 52 := by
      have := (Nat.log2_lt (Nat.ne_of_gt hpos)).2 (show v < 2 ^ 53 from hv)
      omega
    have he : max (binade (v * d) d - 52) (-1074) = (v.log2 : Int) - 52 := by
      rw [binade_mul hpos hd]
      omega
    have hquotient : roundQuotient (v * d * Nat.pow 2 (-((v.log2 : Int) - 52)).toNat)
        (d * Nat.pow 2 ((v.log2 : Int) - 52).toNat) = v * 2 ^ (52 - v.log2) := by
      rw [show (-((v.log2 : Int) - 52)).toNat = 52 - v.log2 by omega, show ((v.log2 : Int) - 52).toNat = 0 by omega]
      show roundQuotient (v * d * 2 ^ (52 - v.log2)) (d * 1) = _
      rw [Nat.mul_one, Nat.mul_right_comm]
      exact roundQuotient_mul _ hd
    have hm : 0x10000000000000 ≤ v * 2 ^ (52 - v.log2) ∧ v * 2 ^ (52 - v.log2) < 0x20000000000000 := by
      have hlow := Nat.mul_le_mul_right (2 ^ (52 - v.log2)) (Nat.log2_self_le (Nat.ne_of_gt hpos))
      have hhigh := Nat.mul_lt_mul_of_pos_right (@Nat.lt_log2_self v) (Nat.two_pow_pos (52 - v.log2))
      rw [← Nat.pow_add] at hlow hhigh
      rw [show v.log2 + (52 - v.log2) = 52 by omega] at hlow
      rw [show v.log2 + 1 + (52 - v.log2) = 53 by omega] at hhigh
      exact ⟨hlow, hhigh⟩
    have hexponent : -1074 ≤ (v.log2 : Int) - 52 ∧ (v.log2 : Int) - 52 ≤ 971 := by omega
    refine ⟨⟨negative, v * 2 ^ (52 - v.log2), (v.log2 : Int) - 52, hm.2, hexponent.1, hexponent.2, .inl hm.1⟩,
      ?_, rfl, ?_⟩
    · unfold ofRatio?
      rw [if_neg (Nat.ne_of_gt (Nat.mul_pos hpos hd))]
      simp only [he, hquotient]
      rw [if_neg (Nat.ne_of_lt hm.2), ofParts?_eq_some negative hm hexponent]
    · show v * 2 ^ (52 - v.log2) * 2 ^ ((v.log2 : Int) - 52).toNat = v * 2 ^ (-((v.log2 : Int) - 52)).toNat
      rw [show ((v.log2 : Int) - 52).toNat = 0 by omega, show (-((v.log2 : Int) - 52)).toNat = 52 - v.log2 by omega,
        Nat.pow_zero, Nat.mul_one]

theorem isInt_of_numerator {x : Binary64} {i : Int} (hsign : x.negative = decide (i < 0))
    (h : x.numerator = i.natAbs * x.denominator) : x.IsInt i := by
  unfold IsInt
  rw [h, Int.natCast_mul, hsign]
  by_cases hi : i < 0
  · rw [if_pos (decide_eq_true hi), ← Int.neg_mul, show -(i.natAbs : Int) = i by omega]
  · rw [if_neg (by simpa using hi), show (i.natAbs : Int) = i by omega]

/-- An integer of at most 2^53 in size is exact. -/
theorem exists_ofInt?_isInt {i : Int} (h : i.natAbs ≤ 0x20000000000000) : ∃ x, ofInt? i = some x ∧ x.IsInt i := by
  rcases Nat.lt_or_eq_of_le h with hlt | heq
  · obtain ⟨x, hx, hsign, hnumerator⟩ := exists_ofRatio?_mul (i < 0) hlt Nat.one_pos
    rw [Nat.mul_one] at hx
    exact ⟨x, hx, isInt_of_numerator hsign hnumerator⟩
  · -- 2^53 has one bit more, and is the least number of the next binade
    rcases Int.natAbs_eq i with hi | hi <;> rw [hi, heq]
    · exact ⟨⟨false, 0x10000000000000, 1, by decide⟩, by decide, by decide⟩
    · exact ⟨⟨true, 0x10000000000000, 1, by decide⟩, by decide, by decide⟩

/-! ## Rounded whole numbers -/

/-- The number has its full significand and no part after the point: its size is at least 2^53. -/
def IsLarge (x : Binary64) : Prop := 0x10000000000000 ≤ x.significand ∧ 1 ≤ x.exponent

theorem IsLarge.le_numerator {x : Binary64} (h : x.IsLarge) : 0x20000000000000 ≤ x.numerator ∧ x.denominator = 1 := by
  obtain ⟨hm, he⟩ := h
  constructor
  · show 2 ^ 52 * 2 ^ 1 ≤ x.significand * 2 ^ x.exponent.toNat
    exact Nat.mul_le_mul hm (Nat.pow_le_pow_right (by decide) (by omega))
  · unfold denominator
    rw [show (-x.exponent).toNat = 0 by omega]

/-- What an integer of 2^53 or more is rounded to has no less than 2^53. -/
theorem isLarge_of_ofInt? {i : Int} {x : Binary64} (hi : 0x20000000000000 ≤ i.natAbs) (h : ofInt? i = some x) :
    x.negative = decide (i < 0) ∧ x.IsLarge := by
  have hpos : 0 < i.natAbs := by omega
  have hlog : 53 ≤ i.natAbs.log2 := (Nat.le_log2 (Nat.ne_of_gt hpos)).2 hi
  have hlarge : ∀ {m : Nat} {e : Int}, 1 ≤ e → ofParts? (decide (i < 0)) m e = some x →
      x.negative = decide (i < 0) ∧ x.IsLarge := by
    intro m e he hparts
    obtain ⟨hsign, -, hexponent⟩ := ofParts?_parts hparts
    have hfull : 0x10000000000000 ≤ x.significand ∨ x.exponent = -1074 := x.canonical.2.2.2
    exact ⟨hsign, by omega, by omega⟩
  unfold ofInt? ofRatio? at h
  rw [if_neg (Nat.ne_of_gt hpos)] at h
  simp only [binade_one hpos] at h
  split at h
  · exact hlarge (by omega) h
  · exact hlarge (by omega) h

/-- An integer of 64 bits, signed or not, is not too large to be rounded. -/
theorem isSome_ofInt? {i : Int} (hi : FitsWord i) : (ofInt? i).isSome = true := by
  by_cases hsmall : i.natAbs < 0x20000000000000
  · obtain ⟨x, hx, -⟩ := exists_ofInt?_isInt (Nat.le_of_lt hsmall)
    rw [hx]
    rfl
  · have hpos : 0 < i.natAbs := by omega
    have hne := Nat.ne_of_gt hpos
    have hlog : 53 ≤ i.natAbs.log2 := (Nat.le_log2 hne).2 (Nat.not_lt.1 hsmall)
    have hlog' : i.natAbs.log2 < 64 := (Nat.log2_lt hne).2 (by have := hi.1; have := hi.2; omega)
    obtain ⟨k, hk⟩ : ∃ k, i.natAbs.log2 = 52 + k := ⟨i.natAbs.log2 - 52, by omega⟩
    have he : max ((i.natAbs.log2 : Int) - 52) (-1074) = k := by omega
    have hquotient : 0x10000000000000 ≤ i.natAbs / 2 ^ k ∧ i.natAbs / 2 ^ k < 0x20000000000000 := by
      have hlow := Nat.log2_self_le hne
      have hhigh := @Nat.lt_log2_self i.natAbs
      rw [hk, Nat.pow_add] at hlow
      rw [hk, Nat.add_right_comm, Nat.pow_add] at hhigh
      exact ⟨(Nat.le_div_iff_mul_le (Nat.two_pow_pos k)).2 hlow, (Nat.div_lt_iff_lt_mul (Nat.two_pow_pos k)).2 hhigh⟩
    have hround := le_roundQuotient i.natAbs (2 ^ k)
    have hm : roundQuotient (i.natAbs * Nat.pow 2 (-(k : Int)).toNat) (1 * Nat.pow 2 (k : Int).toNat) =
        roundQuotient i.natAbs (2 ^ k) := by
      rw [show (-(k : Int)).toNat = 0 by omega, Int.toNat_natCast, Nat.one_mul]
      exact congrArg (roundQuotient · _) (Nat.mul_one _)
    unfold ofInt? ofRatio?
    rw [if_neg hne]
    simp only [binade_one hpos, he, hm]
    split
    · rw [ofParts?_eq_some _ (by omega) (by omega)]
      rfl
    · rw [ofParts?_eq_some _ (by omega) (by omega)]
      rfl

/-! ## Sums -/

/-- A whole number below 2^53 is no multiple of a power of two that the format would have to keep apart. -/
theorem IsInt.exponent_nonpos {x : Binary64} {i : Int} (h : x.IsInt i) (hi : i.natAbs < 0x20000000000000) :
    x.exponent ≤ 0 := by
  refine Int.not_lt.1 fun hexponent => ?_
  have hfull : 0x10000000000000 ≤ x.significand ∨ x.exponent = -1074 := x.canonical.2.2.2
  have hlarge : x.IsLarge := ⟨by omega, by omega⟩
  obtain ⟨hnumerator, hdenominator⟩ := hlarge.le_numerator
  unfold IsInt at h
  rw [hdenominator] at h
  split at h <;> omega

theorem negative_of_ofRatio? {negative : Bool} {n d : Nat} {x : Binary64} (h : ofRatio? negative n d = some x) :
    x.negative = negative := by
  unfold ofRatio? at h
  split at h
  · cases h
    rfl
  · dsimp only at h
    split at h
    · exact (ofParts?_parts h).1
    · exact (ofParts?_parts h).1

/-- A sum of whole numbers that stays below 2^53 is exact. -/
theorem IsInt.exists_add? {x y : Binary64} {i j : Int} (hx : x.IsInt i) (hy : y.IsInt j)
    (hi : i.natAbs < 0x20000000000000) (hsum : (i + j).natAbs < 0x20000000000000) :
    ∃ z, x.add? y = some z ∧ z.IsInt (i + j) := by
  have he : min x.exponent y.exponent ≤ 0 := Int.le_trans (Int.min_le_left ..) (hx.exponent_nonpos hi)
  have hunits : x.units (min x.exponent y.exponent) + y.units (min x.exponent y.exponent) =
      (i + j) * Nat.pow 2 (-min x.exponent y.exponent).toNat := by
    rw [hx.units_eq (Int.min_le_left ..) he, hy.units_eq (Int.min_le_right ..) he, Int.add_mul]
  unfold add?
  simp only [hunits]
  generalize min x.exponent y.exponent = e at he
  have hunit : (0 : Int) < Nat.pow 2 (-e).toNat := Int.natCast_pos.2 (Nat.two_pow_pos _)
  by_cases hzero : i + j = 0
  · rw [hzero, Int.zero_mul, if_pos rfl]
    refine ⟨_, rfl, ?_⟩
    have hnumerator : ∀ negative, (zero negative).numerator = 0 := fun _ => Nat.zero_mul _
    unfold IsInt
    rw [hnumerator, Int.zero_mul]
    split <;> rfl
  · rw [if_neg (Int.mul_ne_zero hzero (Int.ne_of_gt hunit))]
    have hsign : decide ((i + j) * (Nat.pow 2 (-e).toNat : Int) < 0) = decide (i + j < 0) := by
      rw [decide_eq_decide]
      constructor
      · intro h
        refine Int.not_le.1 fun hnonneg => ?_
        exact absurd (Int.mul_nonneg hnonneg (Int.le_of_lt hunit)) (Int.not_le.2 h)
      · intro h
        exact Int.mul_neg_of_neg_of_pos h hunit
    have hsize : ((i + j) * (Nat.pow 2 (-e).toNat : Int)).natAbs * Nat.pow 2 e.toNat =
        (i + j).natAbs * 2 ^ (-e).toNat := by
      rw [Int.natAbs_mul, Int.natAbs_natCast, show e.toNat = 0 by omega]
      exact Nat.mul_one _
    obtain ⟨z, hz, hznegative, hnumerator⟩ :=
      exists_ofRatio?_mul (decide (i + j < 0)) hsum (Nat.two_pow_pos (-e).toNat)
    rw [hsign, hsize]
    exact ⟨z, hz, isInt_of_numerator hznegative hnumerator⟩

/-- The sum of a whole number below 2^53 and a negative number of 2^53 or more in size is not positive. -/
theorem IsInt.truncate_add?_nonpos {x y z : Binary64} {i : Int} (hx : x.IsInt i) (hi : i.natAbs < 0x20000000000000)
    (hy : y.IsLarge) (hnegative : y.negative = true) (h : x.add? y = some z) : z.truncate ≤ 0 := by
  have he : min x.exponent y.exponent ≤ 0 := Int.le_trans (Int.min_le_left ..) (hx.exponent_nonpos hi)
  have hxunits : x.units (min x.exponent y.exponent) =
      i * ((2 ^ (-min x.exponent y.exponent).toNat : Nat) : Int) := hx.units_eq (Int.min_le_left ..) he
  have hle : min x.exponent y.exponent ≤ y.exponent := Int.min_le_right ..
  unfold add? at h
  generalize min x.exponent y.exponent = e at he hxunits hle h
  have hsum : x.units e + y.units e < 0 := by
    have hysize : 0x20000000000000 * 2 ^ (-e).toNat ≤ y.significand * 2 ^ (y.exponent - e).toNat := by
      obtain ⟨hm, hexponent⟩ := hy
      calc 0x20000000000000 * 2 ^ (-e).toNat = 0x10000000000000 * 2 ^ (1 + (-e).toNat) := by
            rw [Nat.pow_add, ← Nat.mul_assoc]
        _ ≤ y.significand * 2 ^ (y.exponent - e).toNat :=
            Nat.mul_le_mul hm (Nat.pow_le_pow_right (by decide) (by omega))
    have hyunits : y.units e = -((y.significand * 2 ^ (y.exponent - e).toNat : Nat) : Int) := by
      unfold units
      rw [if_pos hnegative]
      rfl
    have hxsize : i * ((2 ^ (-e).toNat : Nat) : Int) < 0x20000000000000 * ((2 ^ (-e).toNat : Nat) : Int) :=
      Int.mul_lt_mul_of_pos_right (by omega) (Int.natCast_pos.2 (Nat.two_pow_pos _))
    rw [hxunits, hyunits]
    generalize y.significand * 2 ^ (y.exponent - e).toNat = ysize at hysize
    generalize 2 ^ (-e).toNat = unit at hysize hxsize
    omega
  simp only [if_neg (Int.ne_of_lt hsum)] at h
  have hsign : z.negative = true := (negative_of_ofRatio? h).trans (decide_eq_true hsum)
  unfold truncate
  rw [if_pos hsign]
  exact Int.neg_nonpos_of_nonneg (Int.natCast_nonneg _)

end Binary64

/-! ## Places -/

namespace Number

/-- A number as a binary64 has the same whole part, or both are 2^53 or more in size. -/
theorem exists_toBinary64? (n : Number) : ∃ x, n.toBinary64? = some x ∧
    (x.truncate = n.truncate ∨
      0x20000000000000 ≤ n.truncate.natAbs ∧ x.IsLarge ∧ x.negative = decide (n.truncate < 0)) := by
  cases n with
  | float x => exact ⟨x, rfl, .inl rfl⟩
  | int i hi =>
    by_cases hsmall : i.natAbs < 0x20000000000000
    · obtain ⟨x, hx, hint⟩ := Binary64.exists_ofInt?_isInt (Nat.le_of_lt hsmall)
      exact ⟨x, hx, .inl hint.truncate_eq⟩
    · obtain ⟨x, hx⟩ := Option.isSome_iff_exists.1 (Binary64.isSome_ofInt? hi)
      obtain ⟨hsign, hlarge⟩ := Binary64.isLarge_of_ofInt? (Nat.not_lt.1 hsmall) hx
      exact ⟨x, hx, .inr ⟨Nat.not_lt.1 hsmall, hlarge, hsign⟩⟩

theorem truncate_of_isLarge {x : Binary64} (h : x.IsLarge) :
    x.truncate = if x.negative then -(x.numerator : Int) else x.numerator := by
  rw [Binary64.truncate, h.le_numerator.2, Nat.div_one]

/-- A number that does not count from the end counts to the same place, rounded or not. -/
theorem roundedPlace_of_nonneg {n : Number} (hn : 0 ≤ n.truncate) {length : Nat} (hlength : length ≤ 0x20000000000000) :
    n.roundedPlace length = n.spliceIndex length := by
  obtain ⟨size, hsize, hsizeint⟩ := @Binary64.exists_ofInt?_isInt length (by omega)
  obtain ⟨x, hx, hwhole⟩ := n.exists_toBinary64?
  have hsplice : n.spliceIndex length = min n.truncate.toNat length := by
    rw [spliceIndex, if_neg (by omega)]
  unfold roundedPlace
  rw [hsplice]
  simp only [hx, hsize, hsizeint.truncate_eq]
  rcases hwhole with heq | ⟨hsizen, hlarge, hsign⟩
  · rw [heq, if_neg (by omega)]
    split <;> omega
  · have htruncate : x.truncate = x.numerator := by
      rw [truncate_of_isLarge hlarge, hsign, if_neg (by simpa using hn)]
    have hnumerator := hlarge.le_numerator.1
    rw [htruncate, if_neg (by omega), if_pos (by omega)]
    omega

/-- In a list of fewer than 2^53 items every number counts to the same place, rounded or not. -/
theorem roundedPlace_eq_spliceIndex (n : Number) {length : Nat} (hlength : length < 0x20000000000000) :
    n.roundedPlace length = n.spliceIndex length := by
  rcases Int.lt_or_le n.truncate 0 with hn | hn
  · obtain ⟨size, hsize, hsizeint⟩ := @Binary64.exists_ofInt?_isInt length (by omega)
    obtain ⟨x, hx, hwhole⟩ := n.exists_toBinary64?
    have hsplice : n.spliceIndex length = (length + n.truncate).toNat := by rw [spliceIndex, if_pos hn]
    -- either the whole part is kept, or it lies before the front of the list, before and after the rounding
    have htruncate : x.truncate = n.truncate ∨
        0x20000000000000 ≤ n.truncate.natAbs ∧ 0x20000000000000 ≤ x.truncate.natAbs ∧ x.truncate < 0 := by
      refine hwhole.imp id ?_
      rintro ⟨hsizen, hlarge, hsign⟩
      have hnumerator := hlarge.le_numerator.1
      have hx : x.truncate = -(x.numerator : Int) := by
        rw [truncate_of_isLarge hlarge, hsign, if_pos (decide_eq_true hn)]
      omega
    unfold roundedPlace
    rw [hsplice]
    simp only [hx, hsize]
    rw [if_pos (by omega)]
    by_cases hsmall : x.truncate.natAbs < 0x20000000000000
    · obtain ⟨y, hy, hyint⟩ := Binary64.exists_ofInt?_isInt (Nat.le_of_lt hsmall)
      obtain ⟨z, hz, hzint⟩ := hsizeint.exists_add? hyint (by omega) (by omega)
      rw [hy, Option.bind_some, hz]
      show z.truncate.toNat = _
      rw [hzint.truncate_eq]
      omega
    · have hfront : (length + n.truncate).toNat = 0 := by omega
      rw [hfront]
      cases hy : Binary64.ofInt? x.truncate with
      | none => rfl
      | some y =>
        obtain ⟨hsign, hlarge⟩ := Binary64.isLarge_of_ofInt? (Nat.not_lt.1 hsmall) hy
        rw [Option.bind_some]
        cases hz : size.add? y with
        | none => rfl
        | some z =>
          have hnegative : y.negative = true := hsign.trans (decide_eq_true (by omega))
          exact Int.toNat_of_nonpos (hsizeint.truncate_add?_nonpos (by omega) hlarge hnegative hz)
  · exact roundedPlace_of_nonneg hn (Nat.le_of_lt hlength)

end Number

end StateScript
