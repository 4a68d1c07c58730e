import TemplateMigration.Expression.Token

/-!
# TemplateMigration.Proofs.Expression.NumberEquality

When two numbers of expressions count as equal.

Equality is tried three ways: the same number, a distance of zero, at most two units in the last
place.  The keys of the two patterns decide it alone.  They lie on a circle of words
(`circleDistance`), and each of the three tests passes only for keys at most two apart: a distance
of zero is one of the exact numbers, because rounding takes no fraction from the smallest positive
number on to zero (`ofFraction_pos`), and equal finite numbers have equal patterns up to the sign
of zero (`fields_eq_of_magnitude_eq`).
-/

namespace TemplateMigration

/-- The distance of two words on the circle of all words. -/
def circleDistance (a b : UInt64) : Nat := min (a - b).toNat (b - a).toNat

theorem circleDistance_self (a : UInt64) : circleDistance a a = 0 := by
  simp [circleDistance]

theorem circleDistance_comm (a b : UInt64) : circleDistance a b = circleDistance b a :=
  Nat.min_comm _ _

namespace Binary64

variable {x y : Binary64}

/-! ## Patterns and their keys -/

theorem toNat_bits_lt (x : Binary64) : x.bits.toNat < Nat.pow 2 64 := x.bits.toNat_lt

/-- A pattern is its sign, its exponent and its fraction. -/
theorem toNat_bits_eq (x : Binary64) :
    x.bits.toNat = (if x.isNegative then Nat.pow 2 63 else 0) + x.biasedExponent * Nat.pow 2 52 +
      x.fraction := by
  have hlt := x.toNat_bits_lt
  simp only [isNegative, biasedExponent, fraction, Nat.reducePow, Nat.pow_eq, beq_iff_eq] at *
  split <;> omega

theorem fraction_lt (x : Binary64) : x.fraction < Nat.pow 2 52 := Nat.mod_lt _ (by decide)

/-- Flipping the highest bit of a word below it adds that bit. -/
theorem xor_two_pow {n k : Nat} (h : n < Nat.pow 2 k) : n ^^^ Nat.pow 2 k = n + Nat.pow 2 k := by
  have hpos : 0 < Nat.pow 2 k := Nat.two_pow_pos k
  have hdiv : (n ^^^ Nat.pow 2 k) / Nat.pow 2 k = 1 := by
    calc (n ^^^ Nat.pow 2 k) / Nat.pow 2 k
        = n / Nat.pow 2 k ^^^ Nat.pow 2 k / Nat.pow 2 k := Nat.xor_div_two_pow
      _ = 1 := by rw [Nat.div_eq_of_lt h, Nat.div_self hpos]; rfl
  have hmod : (n ^^^ Nat.pow 2 k) % Nat.pow 2 k = n := by
    calc (n ^^^ Nat.pow 2 k) % Nat.pow 2 k
        = n % Nat.pow 2 k ^^^ Nat.pow 2 k % Nat.pow 2 k := Nat.xor_mod_two_pow
      _ = n := by rw [Nat.mod_eq_of_lt h, Nat.mod_self, Nat.xor_zero]
  have hsplit := Nat.div_add_mod (n ^^^ Nat.pow 2 k) (Nat.pow 2 k)
  rw [hdiv, hmod] at hsplit
  omega

/-- Negative patterns come first, from the largest down, then the others as they are. -/
theorem toNat_orderKey (x : Binary64) : x.orderKey.toNat =
    if x.isNegative then Nat.pow 2 64 - 1 - x.bits.toNat else x.bits.toNat + Nat.pow 2 63 := by
  rw [orderKey]
  split
  · exact UInt64.toNat_not x.bits
  · next hsign =>
      have hlt := x.toNat_bits_lt
      have hlow : x.bits.toNat < Nat.pow 2 63 := by
        simp only [isNegative, Nat.reducePow, Nat.pow_eq, beq_iff_eq] at *
        omega
      rw [UInt64.toNat_xor]
      exact xor_two_pow hlow

/-! ## Units in the last place -/

/-- The distance in units in the last place is small exactly where the keys lie close. -/
theorem ulps_le_two_iff (x y : Binary64) :
    x.ulps y ≤ 2 ↔ circleDistance x.orderKey y.orderKey ≤ 2 := by
  simp only [ulps, circleDistance]
  generalize x.orderKey = a, y.orderKey = b
  have ha : a.toNat < 18446744073709551616 := a.toNat_lt
  have hb : b.toNat < 18446744073709551616 := b.toNat_lt
  rw [UInt64.toNat_sub, UInt64.toNat_sub]
  simp only [Nat.reducePow, Nat.pow_eq]
  split
  · omega
  · split <;> omega

/-! ## The same number -/

theorem circleDistance_orderKey_of_sameNumber (h : x.sameNumber y = true) :
    circleDistance x.orderKey y.orderKey ≤ 2 := by
  simp only [sameNumber, Bool.and_eq_true, Bool.or_eq_true, beq_iff_eq] at h
  obtain ⟨-, hbits | ⟨hx, hy⟩⟩ := h
  · have hxy : x = y := by
      cases x
      cases y
      simpa using hbits
    rw [hxy, circleDistance_self]
    exact Nat.zero_le 2
  · -- the keys of the two zeros are neighbours
    have hzero : ∀ z : Binary64, z.isZero = true →
        z.orderKey.toNat = 9223372036854775807 ∨ z.orderKey.toNat = 9223372036854775808 := by
      intro z hz
      have hlt := z.toNat_bits_lt
      rw [toNat_orderKey]
      simp only [isZero, isNegative, Nat.reducePow, Nat.pow_eq, beq_iff_eq] at *
      split <;> omega
    have hkx := hzero x hx
    have hky := hzero y hy
    rw [circleDistance, UInt64.toNat_sub, UInt64.toNat_sub]
    omega

/-! ## Exact numbers -/

/-- Of two equal numbers with significands of full length, the exponents do not differ. -/
theorem exponent_le_of_mul_eq {m n a b : Nat} (hm : m < 2 * Nat.pow 2 52) (hn : Nat.pow 2 52 ≤ n)
    (h : m * Nat.pow 2 a = n * Nat.pow 2 b) : b ≤ a := by
  refine Nat.le_of_not_lt fun hlt => ?_
  obtain ⟨k, rfl⟩ : ∃ k, b = a + k + 1 := ⟨b - a - 1, by omega⟩
  have hpos : 0 < Nat.pow 2 a := Nat.two_pow_pos a
  have hpow : Nat.pow 2 (a + k + 1) = Nat.pow 2 k * 2 * Nat.pow 2 a := by
    show 2 ^ (a + k + 1) = 2 ^ k * 2 * 2 ^ a
    rw [Nat.pow_succ, Nat.pow_add, Nat.mul_assoc, Nat.mul_comm]
  have hsig : m = n * (Nat.pow 2 k * 2) := by
    refine Nat.eq_of_mul_eq_mul_right hpos ?_
    rw [h, hpow, ← Nat.mul_assoc]
  have hge : n * 2 ≤ n * (Nat.pow 2 k * 2) :=
    Nat.mul_le_mul_left n (Nat.mul_le_mul_right 2 (Nat.two_pow_pos k))
  omega

/-- A magnitude is written in one way. -/
theorem fields_eq_of_magnitude_eq (h : x.magnitude = y.magnitude) :
    x.biasedExponent = y.biasedExponent ∧ x.fraction = y.fraction := by
  have hx := x.fraction_lt
  have hy := y.fraction_lt
  have hlarge : ∀ (f e : Nat), Nat.pow 2 52 ≤ (Nat.pow 2 52 + f) * Nat.pow 2 e := by
    intro f e
    exact Nat.le_trans (Nat.le_add_right _ f) (Nat.le_mul_of_pos_right _ (Nat.two_pow_pos e))
  unfold magnitude at h
  split at h
  · next hex =>
      split at h
      · next hey => exact ⟨by rw [hex, hey], h⟩
      · have := hlarge y.fraction (y.biasedExponent - 1)
        omega
  · next hex =>
      split at h
      · have := hlarge x.fraction (x.biasedExponent - 1)
        omega
      · next hey =>
          have hle := exponent_le_of_mul_eq (by omega) (Nat.le_add_right _ _) h
          have hge := exponent_le_of_mul_eq (by omega) (Nat.le_add_right _ _) h.symm
          have hexp : x.biasedExponent - 1 = y.biasedExponent - 1 := Nat.le_antisymm hge hle
          rw [hexp] at h
          have hsig := Nat.eq_of_mul_eq_mul_right (Nat.two_pow_pos _) h
          omega

/-- Only the zeros have no magnitude. -/
theorem isZero_of_magnitude_eq_zero (h : x.magnitude = 0) : x.isZero = true := by
  have hzero : zero.magnitude = 0 := by decide
  obtain ⟨hexponent, hfraction⟩ := fields_eq_of_magnitude_eq (h.trans hzero.symm)
  have hbits := x.toNat_bits_eq
  rw [hexponent, hfraction] at hbits
  rw [isZero, hbits]
  cases x.isNegative <;> decide

/-- Numbers that are exactly equal are the same number. -/
theorem sameNumber_of_units_eq (hx : x.isNaN = false) (hy : y.isNaN = false)
    (h : x.units = y.units) : x.sameNumber y = true := by
  have hmagnitude : x.magnitude = y.magnitude := by
    unfold units at h
    split at h <;> split at h <;> omega
  rw [sameNumber, hx, hy]
  by_cases hsign : x.isNegative = y.isNegative
  · obtain ⟨hexponent, hfraction⟩ := fields_eq_of_magnitude_eq hmagnitude
    have hbits : x.bits = y.bits := by
      apply UInt64.toNat_inj.mp
      rw [x.toNat_bits_eq, y.toNat_bits_eq, hsign, hexponent, hfraction]
    simp [hbits]
  · -- numbers with different signs are equal only when they are zero
    have hzero : x.magnitude = 0 := by
      unfold units at h
      split at h <;> split at h <;> first | omega | simp_all
    rw [isZero_of_magnitude_eq_zero hzero, isZero_of_magnitude_eq_zero (hmagnitude ▸ hzero)]
    simp

/-! ## Rounding -/

theorem le_roundHalfEven (num den : Nat) : num / den ≤ roundHalfEven num den := by
  simp only [roundHalfEven]
  split
  · exact Nat.le_refl _
  · split <;> omega

/-- The power of two found for a fraction is not above it; the exponent is given as a difference. -/
theorem mul_two_pow_le_of_floorLog2 {num den a b : Nat} (hnum : num ≠ 0)
    (h : floorLog2 num den + b = a) : den * Nat.pow 2 a ≤ num * Nat.pow 2 b := by
  have hpow : ∀ m n, Nat.pow 2 (m + n) = Nat.pow 2 m * Nat.pow 2 n := fun m n => Nat.pow_add 2 m n
  simp only [floorLog2] at h
  generalize hk : (num.log2 : Int) - (den.log2 : Int) = k at h
  -- the logarithms alone give one power less
  have hlogs : k - 1 + b = a → den * Nat.pow 2 a ≤ num * Nat.pow 2 b := by
    intro hab
    have hlow : Nat.pow 2 num.log2 ≤ num := Nat.log2_self_le hnum
    have hhigh : den ≤ Nat.pow 2 (den.log2 + 1) := Nat.le_of_lt Nat.lt_log2_self
    have hexp : den.log2 + 1 + a = num.log2 + b := by omega
    calc den * Nat.pow 2 a
        ≤ Nat.pow 2 (den.log2 + 1) * Nat.pow 2 a := Nat.mul_le_mul_right _ hhigh
      _ = Nat.pow 2 num.log2 * Nat.pow 2 b := by rw [← hpow, hexp, hpow]
      _ ≤ num * Nat.pow 2 b := Nat.mul_le_mul_right _ hlow
  by_cases hsign : 0 ≤ k
  · rw [if_pos hsign] at h
    split at h
    · next hfits =>
        have hle := of_decide_eq_true hfits
        obtain rfl : a = k.toNat + b := by omega
        rw [hpow, ← Nat.mul_assoc]
        exact Nat.mul_le_mul_right _ hle
    · exact hlogs h
  · rw [if_neg hsign] at h
    split at h
    · next hfits =>
        have hle := of_decide_eq_true hfits
        obtain rfl : b = (-k).toNat + a := by omega
        rw [hpow, ← Nat.mul_assoc]
        exact Nat.mul_le_mul_right _ hle
    · exact hlogs h

/-- Rounding a fraction of at least one gives at least one. -/
theorem roundHalfEven_pos {num den : Nat} (hden : den ≠ 0) (h : den ≤ num) :
    0 < roundHalfEven num den :=
  Nat.lt_of_lt_of_le (Nat.div_pos h (Nat.pos_of_ne_zero hden)) (le_roundHalfEven num den)

/-- The significand of a fraction that is at least the smallest positive number is not zero, with
the scale that rounding gives it. -/
theorem significand_pos {num den places : Nat} {q : Int} (hnum : num ≠ 0) (hden : den ≠ 0)
    (hplaces : 0 < places) (h : den ≤ num * Nat.pow 2 places)
    (hq : max (floorLog2 num den - 52) (-places) = q) :
    0 < if 0 ≤ q then roundHalfEven num (den * Nat.pow 2 q.toNat)
      else roundHalfEven (num * Nat.pow 2 (-q).toNat) den := by
  split
  · next hsign =>
      have hle : den * Nat.pow 2 (q.toNat + 52) ≤ num * Nat.pow 2 0 :=
        mul_two_pow_le_of_floorLog2 hnum (by omega)
      have hpos : 0 < Nat.pow 2 q.toNat := Nat.two_pow_pos _
      have hgrow : Nat.pow 2 q.toNat ≤ Nat.pow 2 (q.toNat + 52) :=
        Nat.pow_le_pow_right Nat.two_pos (Nat.le_add_right _ _)
      refine roundHalfEven_pos (Nat.mul_ne_zero hden (Nat.ne_of_gt hpos)) ?_
      exact Nat.le_trans (Nat.mul_le_mul_left den hgrow) (by simpa using hle)
  · next hsign =>
      refine roundHalfEven_pos hden ?_
      by_cases hleast : q = -places
      · obtain rfl : (-q).toNat = places := by omega
        exact h
      · have hle : den * Nat.pow 2 52 ≤ num * Nat.pow 2 (-q).toNat :=
          mul_two_pow_le_of_floorLog2 hnum (by omega)
        exact Nat.le_trans (Nat.le_mul_of_pos_right den (Nat.two_pow_pos 52)) hle

/-- A fraction that is at least the smallest positive number is not rounded to zero. -/
theorem ofFraction_pos {num den : Nat} (hnum : num ≠ 0) (hden : den ≠ 0)
    (h : den ≤ num * Nat.pow 2 1074) :
    0 < (ofFraction num den).bits.toNat ∧
      (ofFraction num den).bits.toNat ≤ infinity.bits.toNat := by
  simp only [ofFraction]
  generalize hq : max (floorLog2 num den - 52) (-1074) = q
  have hm := significand_pos hnum hden (by decide) h hq
  generalize (if 0 ≤ q then roundHalfEven num (den * Nat.pow 2 q.toNat)
      else roundHalfEven (num * Nat.pow 2 (-q).toNat) den) = m at hm ⊢
  have hpattern : 0 < if m < Nat.pow 2 52 then m
      else (q + 1075).toNat * Nat.pow 2 52 + (m - Nat.pow 2 52) := by
    split
    · exact hm
    · have hexponent : 0 < (q + 1075).toNat := by omega
      exact Nat.add_pos_left (Nat.mul_pos hexponent (Nat.two_pow_pos 52)) _
  generalize (if m < Nat.pow 2 52 then m
      else (q + 1075).toNat * Nat.pow 2 52 + (m - Nat.pow 2 52)) = pattern at hpattern ⊢
  split
  · next hlt =>
      have hfits : pattern < 18446744073709551616 := Nat.lt_trans hlt (by decide)
      have hbits : pattern.toUInt64.toNat = pattern := Nat.mod_eq_of_lt hfits
      rw [hbits]
      exact ⟨hpattern, Nat.le_of_lt hlt⟩
  · exact ⟨by decide, Nat.le_refl _⟩

/-! ## A distance of zero -/

/-- No positive number is at most zero. -/
theorem isAtMost_zero_of_pos (hpos : 0 < x.bits.toNat)
    (hle : x.bits.toNat ≤ infinity.bits.toNat) : x.isAtMost zero = false := by
  have hlt : x.bits.toNat < Nat.pow 2 63 := Nat.lt_of_le_of_lt hle (by decide)
  have hsign : x.isNegative = false := by
    rw [isNegative, Nat.div_eq_of_lt hlt]
    rfl
  have hzero : x.isZero = false := by
    rw [isZero, Nat.mod_eq_of_lt hlt]
    exact beq_eq_false_iff_ne.mpr (Nat.ne_of_gt hpos)
  have hkey : ¬ x.orderKey ≤ zero.orderKey := by
    rw [UInt64.le_iff_toNat_le, toNat_orderKey, toNat_orderKey, hsign]
    show ¬ x.bits.toNat + Nat.pow 2 63 ≤ 0 + Nat.pow 2 63
    omega
  rw [isAtMost, decide_eq_false hkey, hzero]
  simp

/-- A distance of zero is one of equal numbers. -/
theorem sameNumber_of_isAtMost_distance (h : (x.distance y).isAtMost zero = true) :
    x.sameNumber y = true := by
  unfold distance at h
  split at h
  · contradiction
  · next hnan =>
      rw [Bool.or_eq_true, not_or, Bool.not_eq_true, Bool.not_eq_true] at hnan
      split at h
      · split at h <;> contradiction
      · refine sameNumber_of_units_eq hnan.1 hnan.2 ?_
        refine Decidable.byContradiction fun hne => ?_
        have hnum : (x.units - y.units).natAbs ≠ 0 := by omega
        have hscale : ∀ n, Nat.pow 2 n ≠ 0 := fun n => Nat.ne_of_gt (Nat.two_pow_pos n)
        obtain ⟨hpos, hle⟩ := ofFraction_pos hnum (hscale 1074)
          (Nat.le_mul_of_pos_left _ (Nat.pos_of_ne_zero hnum))
        rw [isAtMost_zero_of_pos hpos hle] at h
        contradiction

/-! ## Equality -/

/-- Numbers count as equal exactly when their keys are at most two apart on the circle of words. -/
theorem near_iff (x y : Binary64) :
    x.near y = true ↔ circleDistance x.orderKey y.orderKey ≤ 2 := by
  constructor
  · intro h
    rw [near, Bool.or_eq_true, Bool.or_eq_true] at h
    obtain (hsame | hdistance) | hulps := h
    · exact circleDistance_orderKey_of_sameNumber hsame
    · exact circleDistance_orderKey_of_sameNumber (sameNumber_of_isAtMost_distance hdistance)
    · exact (ulps_le_two_iff x y).mp (of_decide_eq_true hulps)
  · intro h
    rw [near, decide_eq_true ((ulps_le_two_iff x y).mpr h), Bool.or_true]

-- The circle closes between the last patterns of either sign, neither of which is a number.
example : near ⟨0x7fffffffffffffff⟩ ⟨0xffffffffffffffff⟩ = true := by decide

end Binary64

/-- **Equality of numbers is closeness of their keys**, so it holds of every pattern with itself,
also where the pattern is no number, and does not depend on the order of the two. -/
theorem Literal.sameValue_number_iff :
    (∀ x y : Binary64, sameValue (number x) (number y) = true ↔
      circleDistance x.orderKey y.orderKey ≤ 2) ∧
    (∀ x : Binary64, sameValue (number x) (number x) = true) ∧
    ∀ x y : Binary64, sameValue (number x) (number y) = sameValue (number y) (number x) := by
  have hnear : ∀ x y : Binary64, sameValue (number x) (number y) = true ↔
      circleDistance x.orderKey y.orderKey ≤ 2 := Binary64.near_iff
  refine ⟨hnear, ?_, ?_⟩
  · intro x
    rw [hnear, circleDistance_self]
    exact Nat.zero_le 2
  · intro x y
    rw [Bool.eq_iff_iff, hnear, hnear, circleDistance_comm]

end TemplateMigration
