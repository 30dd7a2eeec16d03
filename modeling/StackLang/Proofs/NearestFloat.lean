import Mathlib.Algebra.Group.Nat.Defs
import StackLang.Decimal

/-!
# Rounding to a float and back

Rounding looks at the value of a fraction and not at its terms: a common factor
makes no difference, and nor do zeros at the end of a decimal. The exact value
of a float is rounded to that float, so whichever decimal is found as its
shortest is rounded to it as well.
-/
namespace StackLang

namespace Ratio

section Scale

variable {factor : Nat} (positive : 0 < factor)

include positive

theorem magnitude_scale (n : Nat) {d : Nat} (proper : 0 < d) :
    magnitude ⟨factor * n, factor * d⟩ = magnitude ⟨n, d⟩ := by
  have whole : factor * n / (factor * d) = n / d := Nat.mul_div_mul_left n d positive
  have inverse : (factor * d - 1) / (factor * n) = (d - 1) / n := by
    have part : (factor * d - 1) / factor = d - 1 := by
      rw [Nat.div_eq_iff positive]
      obtain ⟨d, rfl⟩ := Nat.exists_eq_succ_of_ne_zero (Nat.ne_of_gt proper)
      rw [Nat.mul_succ, Nat.succ_sub_one]
      have turned : factor * d = d * factor := Nat.mul_comm factor d
      constructor <;> omega
    rw [← Nat.div_div_eq_div_mul, part]
  rw [magnitude, magnitude, whole, inverse]
  simp only [Nat.mul_le_mul_left_iff positive]

theorem round_scale (n d : Nat) : round ⟨factor * n, factor * d⟩ = round ⟨n, d⟩ := by
  have rest : 2 * (factor * n % (factor * d)) = factor * (2 * (n % d)) := by
    rw [Nat.mul_mod_mul_left, Nat.mul_left_comm]
  simp only [round, Nat.mul_div_mul_left n d positive, rest, Nat.mul_lt_mul_left positive,
    Nat.mul_left_cancel_iff positive]

theorem nearestBits_scale (n : Nat) {d : Nat} (proper : 0 < d) :
    nearestBits ⟨factor * n, factor * d⟩ = nearestBits ⟨n, d⟩ := by
  have halves : ∀ exponent, round (halved ⟨factor * n, factor * d⟩ exponent) =
      round (halved ⟨n, d⟩ exponent) := by
    intro exponent
    cases exponent with
    | ofNat e | negSucc e =>
      simp only [halved, Nat.shiftLeft_eq, Nat.mul_assoc]
      exact round_scale positive _ _
  rw [nearestBits, nearestBits, magnitude_scale positive n proper]
  simp only [halves]

end Scale

/-- Fractions of one value are rounded alike. -/
theorem nearestBits_congr {r s : Ratio} (proper : 0 < r.denominator) (other : 0 < s.denominator)
    (same : r.numerator * s.denominator = s.numerator * r.denominator) :
    r.nearestBits = s.nearestBits := by
  obtain ⟨n, d⟩ := r
  obtain ⟨m, b⟩ := s
  calc nearestBits ⟨n, d⟩ = nearestBits ⟨b * n, b * d⟩ := (nearestBits_scale other n proper).symm
    _ = nearestBits ⟨d * m, d * b⟩ := by rw [Nat.mul_comm b n, same, Nat.mul_comm m, Nat.mul_comm b]
    _ = nearestBits ⟨m, b⟩ := nearestBits_scale proper m other

section Exact

variable {significand : Nat} (positive : 0 < significand)

include positive

theorem magnitude_ofBinary (exponent : Int) :
    (ofBinary significand exponent).magnitude = significand.log2 + exponent := by
  have lower := Nat.log2_self_le (Nat.ne_of_gt positive)
  have upper : significand < 2 ^ (significand.log2 + 1) := Nat.lt_log2_self
  generalize significand.log2 = length at lower upper
  cases exponent with
  | ofNat e =>
    have whole : (significand * 2 ^ e).log2 = length + e := by
      have wide : 0 < 2 ^ e := Nat.two_pow_pos e
      rw [Nat.log2_eq_iff (Nat.ne_of_gt (Nat.mul_pos positive wide)), Nat.add_right_comm,
        Nat.pow_add, Nat.pow_add]
      exact ⟨Nat.mul_le_mul_right _ lower, Nat.mul_lt_mul_of_pos_right upper wide⟩
    have proper : 1 ≤ significand * 2 ^ e := Nat.mul_pos positive (Nat.two_pow_pos e)
    simp only [ofBinary, magnitude, Nat.shiftLeft_eq, if_pos proper, Nat.div_one, whole]
    rfl
  | negSucc e =>
    rw [ofBinary, magnitude, Nat.shiftLeft_eq, Nat.one_mul]
    dsimp only
    split
    next reached =>
      -- The whole part of the fraction has lost the last digits of the significand.
      have long : e + 1 ≤ length :=
        Nat.lt_succ_iff.mp
          ((Nat.pow_lt_pow_iff_right Nat.one_lt_two).mp (Nat.lt_of_le_of_lt reached upper))
      obtain ⟨left, rfl⟩ := Nat.exists_eq_add_of_le' long
      have part : (significand / 2 ^ (e + 1)).log2 = left := by
        have wide := Nat.two_pow_pos (e + 1)
        rw [Nat.log2_eq_iff (Nat.ne_of_gt (Nat.div_pos reached wide)),
          Nat.le_div_iff_mul_le wide, Nat.div_lt_iff_lt_mul wide, ← Nat.pow_add, ← Nat.pow_add]
        refine ⟨lower, ?_⟩
        rwa [Nat.add_right_comm]
      rw [part]
      omega
    next below =>
      have short : length < e + 1 :=
        (Nat.pow_lt_pow_iff_right Nat.one_lt_two).mp
          (Nat.lt_of_le_of_lt lower (Nat.lt_of_not_le below))
      obtain ⟨left, same⟩ := Nat.exists_eq_add_of_le short
      have inverse : ((2 ^ (e + 1) - 1) / significand).log2 = left := by
        have least : 2 ^ left * significand ≤ 2 ^ (e + 1) - 1 := by
          have bound := Nat.mul_le_mul_left (2 ^ left) upper
          have whole : 2 ^ (e + 1) = 2 ^ left * 2 ^ (length + 1) := by
            rw [same, ← Nat.pow_add, Nat.add_comm left]
          have wide := Nat.two_pow_pos left
          rw [Nat.mul_succ, ← whole] at bound
          omega
        have most : 2 ^ (e + 1) - 1 < 2 ^ (left + 1) * significand := by
          have bound := Nat.mul_le_mul_left (2 ^ (left + 1)) lower
          have whole : 2 ^ (e + 1) = 2 ^ (left + 1) * 2 ^ length := by
            rw [same, ← Nat.pow_add]
            congr 1
            omega
          have wide := Nat.two_pow_pos (e + 1)
          rw [← whole] at bound
          omega
        have reached := (Nat.le_div_iff_mul_le positive).mpr least
        have nonzero := Nat.lt_of_lt_of_le (Nat.two_pow_pos left) reached
        rw [Nat.log2_eq_iff (Nat.ne_of_gt nonzero), Nat.div_lt_iff_lt_mul positive]
        exact ⟨reached, most⟩
      rw [inverse]
      omega

omit positive in
/-- The exact value of a significand is a whole number of steps of its exponent. -/
theorem round_halved_ofBinary (exponent : Int) :
    ((ofBinary significand exponent).halved exponent).round = significand := by
  cases exponent with
  | ofNat e =>
    simp only [ofBinary, halved, Nat.shiftLeft_eq, Nat.one_mul]
    exact round_mul significand _ (Nat.two_pow_pos e)
  | negSucc e =>
    simp only [ofBinary, halved, Nat.shiftLeft_eq, Nat.one_mul]
    exact round_mul significand _ (Nat.two_pow_pos (e + 1))

theorem nearestBits_ofBinary {exponent : Int} (short : significand < 2 ^ 53)
    (least : -1074 ≤ exponent) (full : 2 ^ 52 ≤ significand ∨ exponent = -1074) :
    (ofBinary significand exponent).nearestBits =
      min ((exponent + 1074).toNat * 2 ^ 52 + significand) infinityBits := by
  have steps : max ((ofBinary significand exponent).magnitude - 52) (-1074) = exponent := by
    have bound : significand.log2 < 53 := (Nat.log2_lt (Nat.ne_of_gt positive)).mpr short
    rw [magnitude_ofBinary positive]
    rcases full with full | rfl
    · have := (Nat.le_log2 (Nat.ne_of_gt positive)).mpr full
      omega
    · omega
  rw [nearestBits, steps, round_halved_ofBinary, Nat.shiftLeft_eq]

end Exact

theorem ofBinary_eq (significand : Nat) (exponent : Int) :
    ofBinary significand exponent =
      ⟨significand * 2 ^ exponent.toNat, 2 ^ (-exponent).toNat⟩ := by
  cases exponent with
  | ofNat e =>
    rw [ofBinary, Nat.shiftLeft_eq]
    cases e <;> rfl
  | negSucc e =>
    rw [ofBinary, Nat.shiftLeft_eq, Nat.one_mul]
    exact congrArg (Ratio.mk · _) (Nat.mul_one significand).symm

/-- The exact value of a positive finite float has a significand of at most 53 bits. -/
theorem ofFloat_eq {x : Float} (positive : 0 < x.toBits.toNat)
    (finite : x.toBits.toNat < infinityBits) :
    ∃ significand exponent, ofFloat x = ofBinary significand exponent ∧ 0 < significand ∧
      significand < 2 ^ 53 ∧ -1074 ≤ exponent ∧ (2 ^ 52 ≤ significand ∨ exponent = -1074) ∧
      (exponent + 1074).toNat * 2 ^ 52 + significand = x.toBits.toNat := by
  have bound : x.toBits.toNat < 2047 * 2 ^ 52 := finite
  rw [ofFloat]
  generalize x.toBits.toNat = bits at positive bound
  have power : (bits >>> 52) % (1 <<< 11) = bits / 2 ^ 52 := by
    rw [Nat.shiftRight_eq_div_pow, Nat.shiftLeft_eq]
    omega
  have fraction : bits % (1 <<< 52) = bits % 2 ^ 52 := rfl
  rw [power, fraction]
  split
  next subnormal =>
    refine ⟨_, _, rfl, ?_, ?_, Int.le_refl _, .inr rfl, ?_⟩
    · omega
    · omega
    · omega
  next normal =>
    have implicit : 1 <<< 52 = 2 ^ 52 := rfl
    rw [implicit]
    refine ⟨_, _, rfl, ?_, ?_, ?_, .inl ?_, ?_⟩
    · omega
    · omega
    · omega
    · omega
    · omega

/-- The exact value of a positive finite float is rounded to its own bits. -/
theorem nearestBits_ofFloat {x : Float} (positive : 0 < x.toBits.toNat)
    (finite : x.toBits.toNat < infinityBits) : (ofFloat x).nearestBits = x.toBits.toNat := by
  obtain ⟨significand, exponent, binary, nonzero, short, least, full, same⟩ :=
    ofFloat_eq positive finite
  rw [binary, nearestBits_ofBinary nonzero short least full, same]
  exact Nat.min_eq_left (Nat.le_of_lt finite)

end Ratio

namespace Text

theorem pow_length_decimal_le {n : Nat} (positive : 0 < n) :
    10 ^ ((decimal n).length - 1) ≤ n := by
  fun_induction decimal n with
  | case1 n small => exact positive
  | case2 n large ih =>
    have shorter := ih (by omega)
    have digits : 0 < (decimal (n / 10)).length := List.length_pos_iff.mpr (decimal_ne_nil _)
    obtain ⟨k, same⟩ := Nat.exists_eq_add_of_lt digits
    rw [List.length_append, List.length_singleton, same]
    rw [same] at shorter
    simp only [Nat.zero_add, Nat.add_sub_cancel] at shorter ⊢
    rw [Nat.pow_succ]
    omega

theorem lt_pow_length_decimal (n : Nat) : n < 10 ^ (decimal n).length := by
  fun_induction decimal n with
  | case1 n small => simpa using small
  | case2 n large ih =>
    rw [List.length_append, List.length_singleton, Nat.pow_succ]
    omega

/-- Each factor of ten is one more digit. -/
theorem length_decimal_mul_pow {n : Nat} (positive : 0 < n) (k : Nat) :
    (decimal (n * 10 ^ k)).length = (decimal n).length + k := by
  induction k with
  | zero => simp
  | succ k ih =>
    have large : ¬ n * 10 ^ (k + 1) < 10 := by
      have := Nat.mul_pos positive (Nat.pow_pos (n := k) (show 0 < 10 by decide))
      rw [Nat.pow_succ, ← Nat.mul_assoc]
      omega
    have shorter : n * 10 ^ (k + 1) / 10 = n * 10 ^ k := by
      rw [Nat.pow_succ, ← Nat.mul_assoc]
      exact Nat.mul_div_cancel _ (by decide)
    rw [decimal, if_neg large, shorter, List.length_append, ih]
    rfl

end Text

namespace Decimal

theorem ratio_eq (d : Decimal) :
    d.ratio = ⟨d.coefficient * 10 ^ d.exponent.toNat, 10 ^ (-d.exponent).toNat⟩ := by
  obtain ⟨coefficient, exponent⟩ := d
  cases exponent with
  | ofNat e =>
    cases e with
    | zero => exact congrArg (Ratio.mk · 1) (Nat.mul_one coefficient).symm
    | succ e => rfl
  | negSucc e =>
    change Ratio.mk coefficient (1 * 10 ^ (e + 1)) = ⟨coefficient * 1, 10 ^ (e + 1)⟩
    rw [Nat.one_mul, Nat.mul_one]

/-- Zeros at the end of a decimal make no difference. -/
theorem nearestBits_zeros (coefficient k : Nat) (exponent : Int) :
    nearestBits ⟨coefficient * 10 ^ k, exponent⟩ = nearestBits ⟨coefficient, exponent + k⟩ := by
  have wide : ∀ n, 0 < 10 ^ n := fun n => Nat.pow_pos (by decide)
  by_cases zero : coefficient = 0
  · simp [nearestBits, zero]
  have nonzero : coefficient * 10 ^ k ≠ 0 := Nat.mul_ne_zero zero (Nat.ne_of_gt (wide k))
  have digits : ((length ⟨coefficient * 10 ^ k, exponent⟩ : Nat) : Int) + exponent =
      (length ⟨coefficient, exponent + k⟩ : Nat) + (exponent + k) := by
    rw [length, length, Text.length_decimal_mul_pow (Nat.pos_of_ne_zero zero)]
    dsimp only
    omega
  have value : (ratio ⟨coefficient * 10 ^ k, exponent⟩).nearestBits =
      (ratio ⟨coefficient, exponent + k⟩).nearestBits := by
    rw [ratio_eq, ratio_eq]
    refine Ratio.nearestBits_congr (wide _) (wide _) ?_
    dsimp only
    rw [Nat.mul_assoc, Nat.mul_assoc, Nat.mul_assoc, ← Nat.pow_add, ← Nat.pow_add, ← Nat.pow_add]
    congr 2
    omega
  rw [nearestBits, nearestBits, if_neg nonzero, if_neg zero, digits, value]

theorem exact_eq (numerator places : Nat) :
    exact ⟨numerator, 2 ^ places⟩ = ⟨numerator * 5 ^ places, -places⟩ := by
  rw [exact, Nat.log2_two_pow]
  rfl

/-- A fraction over a power of two is a decimal. -/
theorem nearestBits_ratio_exact (numerator places : Nat) :
    (exact ⟨numerator, 2 ^ places⟩).ratio.nearestBits =
      Ratio.nearestBits ⟨numerator, 2 ^ places⟩ := by
  have whole : (-(places : Int)).toNat = 0 := by omega
  rw [exact_eq, ratio_eq]
  refine Ratio.nearestBits_congr (Nat.pow_pos (by decide)) (Nat.two_pow_pos places) ?_
  dsimp only
  rw [whole, Int.neg_neg, Int.toNat_natCast, Nat.pow_zero, Nat.mul_one, Nat.mul_assoc]
  exact congrArg _ (Nat.mul_pow 5 2 places).symm

/-- Seven fives outdo sixteen twos. -/
theorem two_pow_le_five_pow (k : Nat) : 2 ^ (16 * k) ≤ 5 ^ (7 * k) := by
  rw [Nat.pow_mul, Nat.pow_mul]
  exact Nat.pow_le_pow_left (by decide) k

/-- The exact value of a float is neither so great nor so small that it is not looked at. -/
theorem length_exact {numerator places : Nat} (positive : 0 < numerator)
    (finite : numerator < 10 ^ 309) (least : places ≤ 1074) :
    let digits := (Text.decimal (numerator * 5 ^ places)).length
    digits ≤ 309 + places ∧ places ≤ digits + 330 := by
  intro digits
  have nonzero : 0 < numerator * 5 ^ places := Nat.mul_pos positive (Nat.pow_pos (by decide))
  have lower := Text.pow_length_decimal_le nonzero
  have upper := Text.lt_pow_length_decimal (numerator * 5 ^ places)
  change 10 ^ (digits - 1) ≤ _ at lower
  change _ < 10 ^ digits at upper
  constructor
  · have bound : 10 ^ (digits - 1) < 10 ^ (309 + places) := calc
      10 ^ (digits - 1) ≤ numerator * 5 ^ places := lower
      _ ≤ numerator * 10 ^ places := Nat.mul_le_mul_left _ (Nat.pow_le_pow_left (by decide) _)
      _ < 10 ^ 309 * 10 ^ places := Nat.mul_lt_mul_of_pos_right finite (Nat.pow_pos (by decide))
      _ = 10 ^ (309 + places) := by rw [Nat.pow_add]
    have := (Nat.pow_lt_pow_iff_right (by decide)).mp bound
    omega
  · -- Were the decimal shorter, fives would be outdone by as many twos as it has digits.
    refine Nat.le_of_not_lt fun short => ?_
    obtain ⟨k, twos, fives⟩ : ∃ k, digits ≤ 16 * k ∧ digits + 7 * k ≤ places :=
      ⟨digits / 16 + 1, by omega, by omega⟩
    have bound : 10 ^ digits < 10 ^ digits := calc
      10 ^ digits = 5 ^ digits * 2 ^ digits := Nat.mul_pow 5 2 digits
      _ ≤ 5 ^ digits * 2 ^ (16 * k) :=
        Nat.mul_le_mul_left _ (Nat.pow_le_pow_right (by decide) twos)
      _ ≤ 5 ^ digits * 5 ^ (7 * k) := Nat.mul_le_mul_left _ (two_pow_le_five_pow k)
      _ = 5 ^ (digits + 7 * k) := (Nat.pow_add 5 digits (7 * k)).symm
      _ ≤ 5 ^ places := Nat.pow_le_pow_right (by decide) fives
      _ ≤ numerator * 5 ^ places := Nat.le_mul_of_pos_left _ positive
      _ < 10 ^ digits := upper
    exact Nat.lt_irrefl _ bound

/-- The exact value of a positive finite float is rounded to that float. -/
theorem nearestBits_exact {x : Float} (positive : 0 < x.toBits.toNat)
    (finite : x.toBits.toNat < infinityBits) :
    (exact (Ratio.ofFloat x)).nearestBits = x.toBits.toNat := by
  have rounds := Ratio.nearestBits_ofFloat positive finite
  obtain ⟨significand, exponent, binary, nonzero, short, least, _, same⟩ :=
    Ratio.ofFloat_eq positive finite
  have most : exponent.toNat ≤ 971 := by
    have : x.toBits.toNat < 2047 * 2 ^ 52 := finite
    omega
  have largest : 2 ^ 1024 ≤ 10 ^ 309 := by decide +kernel
  have numerator : significand * 2 ^ exponent.toNat < 10 ^ 309 := calc
    significand * 2 ^ exponent.toNat < 2 ^ 53 * 2 ^ exponent.toNat :=
      Nat.mul_lt_mul_of_pos_right short (Nat.two_pow_pos _)
    _ = 2 ^ (53 + exponent.toNat) := (Nat.pow_add 2 53 _).symm
    _ ≤ 10 ^ 309 := Nat.le_trans (Nat.pow_le_pow_right (by decide) (by omega)) largest
  have positive := Nat.mul_pos nonzero (Nat.two_pow_pos exponent.toNat)
  obtain ⟨upper, lower⟩ := length_exact positive numerator (show (-exponent).toNat ≤ 1074 by omega)
  have some : significand * 2 ^ exponent.toNat * 5 ^ (-exponent).toNat ≠ 0 :=
    Nat.ne_of_gt (Nat.mul_pos positive (Nat.pow_pos (by decide)))
  rw [binary, Ratio.ofBinary_eq] at rounds ⊢
  rw [← rounds, ← nearestBits_ratio_exact, nearestBits, exact_eq, if_neg some, length, if_neg,
    if_neg]
  · dsimp only
    omega
  · dsimp only
    omega

theorem nearestBits_shortest {x : Float} (positive : 0 < x.toBits.toNat)
    (finite : x.toBits.toNat < infinityBits) : (shortest x).nearestBits = x.toBits.toNat := by
  rw [shortest]
  cases found : (List.range 17).findSome? fun n => ofLength? x (n + 1) with
  | none => exact nearestBits_exact positive finite
  | some d =>
    obtain ⟨n, _, hit⟩ := List.exists_of_findSome?_eq_some found
    simpa using List.find?_some hit

end Decimal

end StackLang
