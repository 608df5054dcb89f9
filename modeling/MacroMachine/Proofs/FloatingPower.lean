import Mathlib.Data.Int.Log
import Mathlib.Data.Rat.Floor
import Mathlib.Tactic.Linarith
import Mathlib.Tactic.NormNum
import MacroMachine.Machine.Operators

/-!
# Powers through floating point

Powers are defined on integers.  A host may compute them in floating point instead: raise the base
to the exponent, round the result to an integer and refuse it if it lies outside the 32-bit range.
This module shows that the two agree if the floating-point power is right to one part in 2 ^ 40, and
that both give the exact power wherever it lies in the range.

*Numbers.*  A floating-point number is taken by its value, which is rational unless it is infinite
or not a number (`Double`).

*Why one part in 2 ^ 40.*  The power is an integer wherever it is computed.  Within the range its
error is then below one half, so rounding gives the power itself.  Outside the range the error is
small against the distance to the nearest number that would be rounded into it.
-/

namespace MacroMachine

/-! ## Floating-point numbers -/

/-- A floating-point number, by its value. -/
inductive Double where
  | finite (value : ℚ)
  | infinite (negative : Bool)
  | notNumber
deriving DecidableEq

namespace Double

/-- The number with an integer value. -/
def ofInt (n : ℤ) : Double :=
  .finite n

/-- The nearest integer, halves away from zero. -/
def nearest (q : ℚ) : ℤ :=
  if 0 ≤ q then ⌊q + 1 / 2⌋ else ⌈q - 1 / 2⌉

/-- Rounds to the nearest integer. -/
def round : Double → Double
  | .finite q => ofInt (nearest q)
  | d => d

/-- Whether a number is less than another; what is not a number compares with nothing. -/
def lt : Double → Double → Bool
  | .finite p, .finite q => decide (p < q)
  | .finite _, .infinite negative => !negative
  | .infinite negative, .finite _ => negative
  | .infinite negative, .infinite negative' => negative && !negative'
  | _, _ => false

/-- The integer part, forced into the 32-bit range; 0 for what is not a number. -/
def toInt32 : Double → Int32
  | .finite q =>
    let whole := if 0 ≤ q then ⌊q⌋ else ⌈q⌉
    Int32.ofInt (max Int32.minValue.toInt (min Int32.maxValue.toInt whole))
  | .infinite negative => if negative then Int32.minValue else Int32.maxValue
  | .notNumber => 0

/-- Rounds a number and refuses it outside the 32-bit range. -/
def settle (d : Double) : Except Fault Int32 :=
  if d.round.lt (ofInt Int32.minValue.toInt) || (ofInt Int32.maxValue.toInt).lt d.round then
    .error .powerOutOfRange
  else
    .ok d.round.toInt32

/-- The number is right to one part in 2 ^ 40.  It may be infinite, with the right sign, if it
should be 2 ^ 1023 or more. -/
def Approximates : Double → ℚ → Prop
  | .finite q, x => |q - x| ≤ |x| / 2 ^ 40
  | .infinite negative, x => 2 ^ 1023 ≤ |x| ∧ (negative = true ↔ x < 0)
  | .notNumber, _ => False

end Double

/-- Integer power by means of a floating-point power.  A negative exponent needs none unless the
base is 1 or -1. -/
def powerBy (pow : Double → Double → Double) (base exponent : Int32) : Except Fault Int32 :=
  if exponent.toInt < 0 ∧ base ≠ 1 ∧ base ≠ -1 then
    if base ≠ 0 then .ok 0 else .error .powerOutOfRange
  else
    (pow (.ofInt base.toInt) (.ofInt exponent.toInt)).settle

/-- A floating-point power is right to one part in 2 ^ 40 wherever the power of two 32-bit integers
is an integer. -/
def AccuratePower (pow : Double → Double → Double) : Prop :=
  ∀ base exponent : Int32, 0 ≤ exponent.toInt ∨ base = 1 ∨ base = -1 →
    (pow (.ofInt base.toInt) (.ofInt exponent.toInt)).Approximates
      ((base.toInt : ℚ) ^ exponent.toInt)

/-- The integer lies in the 32-bit range. -/
def InInt32 (n : ℤ) : Prop :=
  -2147483648 ≤ n ∧ n ≤ 2147483647

instance (n : ℤ) : Decidable (InInt32 n) :=
  inferInstanceAs (Decidable (_ ∧ _))

/-- The integer as a 32-bit number, refused outside the range. -/
def int32OrFault (n : ℤ) : Except Fault Int32 :=
  if InInt32 n then .ok (Int32.ofInt n) else .error .powerOutOfRange

/-! ## Rounding -/

namespace Double

variable {q : ℚ} {n : ℤ}

theorem le_nearest (hn : 0 < n) (h : n - 1 / 2 ≤ q) : n ≤ nearest q := by
  have hone : (1 : ℚ) ≤ n := by exact_mod_cast hn
  rw [nearest, if_pos (by linarith), Int.le_floor]
  linarith

theorem nearest_le (hn : n < 0) (h : q ≤ n + 1 / 2) : nearest q ≤ n := by
  have hone : (n : ℚ) ≤ -1 := by exact_mod_cast Int.le_sub_one_of_lt hn
  rw [nearest, if_neg (by linarith), Int.ceil_le]
  linarith

theorem nearest_eq (hlow : n - 1 / 2 < q) (hhigh : q < n + 1 / 2) : nearest q = n := by
  unfold nearest
  split
  · rw [Int.floor_eq_iff]
    constructor <;> linarith
  · rw [Int.ceil_eq_iff]
    constructor <;> linarith

theorem lt_ofInt (m n : ℤ) : (ofInt m).lt (ofInt n) = decide (m < n) := by
  simp [ofInt, lt]

theorem toInt32_ofInt (h : InInt32 n) : (ofInt n).toInt32 = Int32.ofInt n := by
  have hwhole : (if 0 ≤ (n : ℚ) then ⌊(n : ℚ)⌋ else ⌈(n : ℚ)⌉) = n := by
    rw [Int.floor_intCast, Int.ceil_intCast, ite_self]
  have hlow : Int32.minValue.toInt = -2147483648 := rfl
  have hhigh : Int32.maxValue.toInt = 2147483647 := rfl
  simp only [ofInt, toInt32, hwhole, hlow, hhigh]
  rw [min_eq_right h.2, max_eq_right h.1]

theorem settle_finite (q : ℚ) : (Double.finite q).settle = int32OrFault (nearest q) := by
  have hlow : Int32.minValue.toInt = -2147483648 := rfl
  have hhigh : Int32.maxValue.toInt = 2147483647 := rfl
  have hround : (Double.finite q).round = ofInt (nearest q) := rfl
  rw [settle, int32OrFault, hround, lt_ofInt, lt_ofInt, hlow, hhigh]
  by_cases hin : InInt32 (nearest q)
  · have hlt : ¬ nearest q < -2147483648 := not_lt.2 hin.1
    have hgt : ¬ 2147483647 < nearest q := not_lt.2 hin.2
    simp only [hlt, hgt, decide_false, Bool.or_self, Bool.false_eq_true, if_false, if_pos hin,
      toInt32_ofInt hin]
  · have hout : nearest q < -2147483648 ∨ 2147483647 < nearest q := by
      unfold InInt32 at hin
      omega
    simp [hout, hin]

theorem settle_infinite (negative : Bool) :
    (Double.infinite negative).settle = .error .powerOutOfRange := by
  cases negative <;> rfl

/-- Within the range an approximation of an integer is off by less than one half. -/
theorem nearest_of_inInt32 (hin : InInt32 n) (h : |q - n| ≤ |(n : ℚ)| / 2 ^ 40) :
    nearest q = n := by
  have hlow : (-2147483648 : ℚ) ≤ n := by exact_mod_cast hin.1
  have hhigh : (n : ℚ) ≤ 2147483647 := by exact_mod_cast hin.2
  have hsize : |(n : ℚ)| ≤ 2147483648 := abs_le.2 ⟨hlow, by linarith⟩
  obtain ⟨hbelow, habove⟩ := abs_le.1 h
  exact nearest_eq (by linarith) (by linarith)

/-- Outside the range an approximation of an integer is not rounded into it. -/
theorem not_inInt32_nearest (hout : ¬ InInt32 n) (h : |q - n| ≤ |(n : ℚ)| / 2 ^ 40) :
    ¬ InInt32 (nearest q) := by
  obtain ⟨hbelow, habove⟩ := abs_le.1 h
  have hside : n ≤ -2147483649 ∨ 2147483648 ≤ n := by
    unfold InInt32 at hout
    omega
  rintro ⟨hlow, hhigh⟩
  rcases hside with hn | hn
  · have hcast : (n : ℚ) ≤ -2147483649 := by exact_mod_cast hn
    rw [abs_of_neg (by linarith)] at habove
    have hnearest : nearest q ≤ -2147483649 :=
      nearest_le (by decide) (by push_cast; linarith)
    omega
  · have hcast : (2147483648 : ℚ) ≤ n := by exact_mod_cast hn
    rw [abs_of_pos (by linarith)] at hbelow
    have hnearest : 2147483648 ≤ nearest q :=
      le_nearest (by decide) (by push_cast; linarith)
    omega

theorem not_inInt32_of_large (h : 2 ^ 1023 ≤ |(n : ℚ)|) : ¬ InInt32 n := by
  rintro ⟨hlow, hhigh⟩
  have hcast : |(n : ℚ)| < 2 ^ 32 := by
    rw [abs_lt]
    constructor
    · have hn : (-2147483648 : ℚ) ≤ n := by exact_mod_cast hlow
      linarith
    · have hn : (n : ℚ) ≤ 2147483647 := by exact_mod_cast hhigh
      linarith
  have hpow : (2 : ℚ) ^ 32 ≤ 2 ^ 1023 := pow_le_pow_right₀ one_le_two (by decide)
  exact absurd hcast (not_lt.2 (hpow.trans h))

/-- An approximation of an integer settles as the integer does. -/
theorem settle_of_approximates {d : Double} (h : d.Approximates n) : d.settle = int32OrFault n := by
  cases d with
  | notNumber => exact h.elim
  | infinite negative =>
    rw [settle_infinite, int32OrFault, if_neg (not_inInt32_of_large h.1)]
  | finite q =>
    rw [settle_finite]
    by_cases hin : InInt32 n
    · rw [nearest_of_inInt32 hin h]
    · rw [int32OrFault, int32OrFault, if_neg hin, if_neg (not_inInt32_nearest hin h)]

end Double

/-! ## Exact powers -/

/-- A base other than 0, 1 and -1 leaves the range within 32 factors. -/
theorem not_inInt32_pow {base : ℤ} (hbase : 2 ≤ |base|) {exponent : ℕ} (hexponent : 32 ≤ exponent) :
    ¬ InInt32 (base ^ exponent) := by
  have hlarge : (2 : ℤ) ^ 32 ≤ |base ^ exponent| := by
    rw [abs_pow]
    calc (2 : ℤ) ^ 32 ≤ 2 ^ exponent := pow_le_pow_right₀ one_le_two hexponent
      _ ≤ |base| ^ exponent := pow_le_pow_left₀ zero_le_two hbase exponent
  rintro ⟨hlow, hhigh⟩
  have hsmall : |base ^ exponent| ≤ 2147483648 := abs_le.2 ⟨hlow, by omega⟩
  omega

/-- Leaving out factors does not change the answer. -/
theorem powerOfNat_eq (base : ℤ) (exponent : ℕ) :
    powerOfNat base exponent = int32OrFault (base ^ exponent) := by
  have hdefinition : ∀ reduced : ℕ, (if base = 0 ∨ base = 1 then min exponent 1
      else if base = -1 then exponent % 2 else min exponent 32) = reduced →
      powerOfNat base exponent = int32OrFault (base ^ reduced) := by
    rintro reduced rfl
    rfl
  by_cases hunit : base = 0 ∨ base = 1
  · rw [hdefinition _ (if_pos hunit)]
    congr 1
    rcases hunit with rfl | rfl
    · cases exponent with
      | zero => rfl
      | succ exponent =>
        rw [Nat.min_eq_right (Nat.le_add_left 1 _), pow_one, zero_pow (Nat.succ_ne_zero _)]
    · rw [one_pow, one_pow]
  by_cases hminus : base = -1
  · rw [hdefinition _ ((if_neg hunit).trans (if_pos hminus)), hminus]
    rw [← neg_one_pow_eq_pow_mod_two]
  · rw [hdefinition _ ((if_neg hunit).trans (if_neg hminus))]
    have hbase : 2 ≤ |base| := by
      rw [le_abs]
      omega
    rcases Nat.le_total exponent 32 with hle | hle
    · rw [Nat.min_eq_left hle]
    · rw [Nat.min_eq_right hle, int32OrFault, int32OrFault, if_neg (not_inInt32_pow hbase hle),
        if_neg (not_inInt32_pow hbase (Nat.le_refl 32))]

theorem power_of_nonneg {base exponent : Int32} (h : 0 ≤ exponent.toInt) :
    power base exponent = int32OrFault (base.toInt ^ exponent.toInt.toNat) := by
  rw [power, if_neg (not_lt.2 h), powerOfNat_eq]

/-- A floating-point power settles as the integer power that it approximates. -/
theorem AccuratePower.settle {pow : Double → Double → Double} (h : AccuratePower pow)
    {base exponent : Int32} (hwhole : 0 ≤ exponent.toInt ∨ base = 1 ∨ base = -1) {n : ℤ}
    (hn : (base.toInt : ℚ) ^ exponent.toInt = n) :
    (pow (.ofInt base.toInt) (.ofInt exponent.toInt)).settle = int32OrFault n := by
  refine Double.settle_of_approximates ?_
  rw [← hn]
  exact h base exponent hwhole

/-- A sufficiently accurate floating-point power can stand for the integer power. -/
theorem powerBy_eq_power {pow : Double → Double → Double} (h : AccuratePower pow)
    (base exponent : Int32) : powerBy pow base exponent = power base exponent := by
  by_cases hneg : exponent.toInt < 0
  · by_cases hone : base = 1
    · subst hone
      rw [powerBy, if_neg (by simp), h.settle (n := 1) (by simp) (by simp), power, if_pos hneg,
        if_pos rfl]
      rfl
    by_cases hminus : base = -1
    · subst hminus
      have hbase : ((-1 : Int32).toInt : ℚ) = -1 := by
        rw [show (-1 : Int32).toInt = -1 from rfl]
        norm_num
      rw [powerBy, if_neg (by simp), power, if_pos hneg, if_neg hone, if_pos rfl]
      by_cases heven : exponent.toInt % 2 = 0
      · rw [if_pos heven, h.settle (n := 1) (by simp)]
        · rfl
        · rw [hbase, (Int.even_iff.2 heven).neg_one_zpow, Int.cast_one]
      · have hodd : Odd exponent.toInt := Int.odd_iff.2 (by omega)
        rw [if_neg heven, h.settle (n := -1) (by simp)]
        · rfl
        · rw [hbase, hodd.neg_one_zpow, Int.cast_neg, Int.cast_one]
    · rw [powerBy, if_pos ⟨hneg, hone, hminus⟩, power, if_pos hneg, if_neg hone, if_neg hminus]
      by_cases hzero : base = 0
      · rw [if_neg (not_not.2 hzero), if_pos hzero]
      · rw [if_pos hzero, if_neg hzero]
  · have hpos : 0 ≤ exponent.toInt := not_lt.1 hneg
    rw [powerBy, if_neg fun hguard => hneg hguard.1, power_of_nonneg hpos]
    refine h.settle (.inl hpos) ?_
    obtain ⟨e, he⟩ := Int.eq_ofNat_of_zero_le hpos
    rw [he]
    push_cast
    rw [zpow_natCast]
    rfl

/-- Integer powers are exact.  Any floating-point power that is right to one part in 2 ^ 40 gives,
once it is rounded and tested for the 32-bit range, the same answers as the integer power.  These
are, for an exponent of 0 or more, the power itself if it lies in the range, and otherwise that it
does not.  For an exponent below 0 they are 1 for the base 1, for -1 the sign given by the parity of
the exponent, a fault for 0, and 0 for every other base. -/
theorem power_is_exact {pow : Double → Double → Double} (h : AccuratePower pow)
    (base exponent : Int32) :
    powerBy pow base exponent = power base exponent ∧
    (0 ≤ exponent.toInt → InInt32 (base.toInt ^ exponent.toInt.toNat) →
      ∃ n, power base exponent = .ok n ∧ n.toInt = base.toInt ^ exponent.toInt.toNat) ∧
    (0 ≤ exponent.toInt → ¬ InInt32 (base.toInt ^ exponent.toInt.toNat) →
      power base exponent = .error .powerOutOfRange) ∧
    (exponent.toInt < 0 →
      (base = 1 → power base exponent = .ok 1) ∧
      (base = -1 → power base exponent = .ok (if Even exponent.toInt then 1 else -1)) ∧
      (base = 0 → power base exponent = .error .powerOutOfRange) ∧
      (base ≠ 1 → base ≠ -1 → base ≠ 0 → power base exponent = .ok 0)) := by
  refine ⟨powerBy_eq_power h base exponent, fun hpos hin => ?_, fun hpos hout => ?_, fun hneg => ?_⟩
  · refine ⟨Int32.ofInt (base.toInt ^ exponent.toInt.toNat), ?_, ?_⟩
    · rw [power_of_nonneg hpos, int32OrFault, if_pos hin]
    · exact Int32.toInt_ofInt_of_le hin.1 (Int.lt_of_le_sub_one hin.2)
  · rw [power_of_nonneg hpos, int32OrFault, if_neg hout]
  · rw [power, if_pos hneg]
    refine ⟨?_, ?_, ?_, ?_⟩
    · rintro rfl
      rfl
    · rintro rfl
      rw [if_neg (by decide), if_pos rfl]
      simp only [Int.even_iff]
    · rintro rfl
      rfl
    · intro hone hminus hzero
      rw [if_neg hone, if_neg hminus, if_neg hzero]

namespace Sample

/-- The first 53 binary digits of a number. -/
def chop (x : ℚ) : ℚ :=
  ⌊x / 2 ^ (Int.log 2 |x| - 52)⌋ * 2 ^ (Int.log 2 |x| - 52)

/-- The power to 53 binary digits, infinite from 2 ^ 1024 on. -/
def choppedPower : Double → Double → Double
  | .finite base, .finite exponent =>
    let x := base ^ ⌊exponent⌋
    if 2 ^ 1024 ≤ |x| then .infinite (decide (x < 0)) else .finite (chop x)
  | _, _ => .notNumber

theorem abs_chop_sub_le (x : ℚ) : |chop x - x| ≤ |x| / 2 ^ 40 := by
  rcases eq_or_ne x 0 with rfl | hx
  · simp [chop]
  · have hlog : (2 : ℚ) ^ Int.log 2 |x| ≤ |x| :=
      Int.zpow_log_le_self one_lt_two (abs_pos.2 hx)
    have hsmall : (2 : ℚ) ^ (Int.log 2 |x| - 52) ≤ |x| / 2 ^ 40 := by
      rw [zpow_sub₀ two_ne_zero]
      calc (2 : ℚ) ^ Int.log 2 |x| / 2 ^ (52 : ℤ) ≤ |x| / 2 ^ (52 : ℤ) := by gcongr
        _ ≤ |x| / 2 ^ 40 := by
          have hnonneg := abs_nonneg x
          norm_num
          linarith
    have hunit : (0 : ℚ) < 2 ^ (Int.log 2 |x| - 52) := zpow_pos two_pos _
    rw [chop]
    generalize (2 : ℚ) ^ (Int.log 2 |x| - 52) = unit at hsmall hunit
    have hlow := (le_div_iff₀ hunit).1 (Int.floor_le (x / unit))
    have hhigh := (div_lt_iff₀ hunit).1 (Int.lt_floor_add_one (x / unit))
    rw [abs_le]
    constructor <;> linarith

theorem accuratePower_choppedPower : AccuratePower choppedPower := by
  intro base exponent _
  have hpow : choppedPower (.ofInt base.toInt) (.ofInt exponent.toInt) =
      if 2 ^ 1024 ≤ |(base.toInt : ℚ) ^ exponent.toInt| then
        .infinite (decide ((base.toInt : ℚ) ^ exponent.toInt < 0))
      else .finite (chop ((base.toInt : ℚ) ^ exponent.toInt)) := by
    simp only [choppedPower, Double.ofInt, Int.floor_intCast]
  rw [hpow]
  split
  · next hlarge =>
    exact ⟨(pow_le_pow_right₀ one_le_two (by decide)).trans hlarge, decide_eq_true_iff⟩
  · exact abs_chop_sub_le _

end Sample

/-- The least number in the range is a power, its negative lies just outside the range, and a power
that is infinite in floating point lies far outside. -/
theorem power_is_exact_at_bounds : AccuratePower Sample.choppedPower ∧
    powerBy Sample.choppedPower (-2) 31 = .ok Int32.minValue ∧
    powerBy Sample.choppedPower 2 31 = .error .powerOutOfRange ∧
    powerBy Sample.choppedPower (-1) (-3) = .ok (-1) ∧
    powerBy Sample.choppedPower 10 400 = .error .powerOutOfRange := by
  have hpower := fun base exponent =>
    (power_is_exact Sample.accuratePower_choppedPower base exponent).1
  exact ⟨Sample.accuratePower_choppedPower, (hpower _ _).trans rfl, (hpower _ _).trans rfl,
    (hpower _ _).trans rfl, (hpower _ _).trans rfl⟩

end MacroMachine
