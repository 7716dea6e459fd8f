import ArithVM.Decimal.Rounding
import Mathlib.Algebra.Order.Floor.Semifield
import Mathlib.Data.Int.Log
import Mathlib.Data.Rat.Floor
import Mathlib.Tactic.Linarith
import Mathlib.Tactic.Positivity
import Mathlib.Tactic.Ring

/-!
# Nearest integers and exponents

Rounding takes two steps: the exponent of a number is its logarithm, and the coefficient is the
integer nearest to what is left.  Both are read off the digits of integers; what they come to is
stated here, and nothing else of them is used later.
-/

namespace ArithVM.Decimal

/-! ## Nearest integers -/

/-- `n` is an integer nearest to `q`, and even if another one is as near. -/
structure IsNearest (q : Rat) (n : Int) : Prop where
  distance_le : |q - n| ≤ 1 / 2
  even_of_tie : |q - n| = 1 / 2 → Even n

theorem IsNearest.of_lt {q : Rat} {n : Int} (h : |q - n| < 1 / 2) : IsNearest q n :=
  ⟨le_of_lt h, fun htie => absurd htie (ne_of_lt h)⟩

theorem isNearest_roundHalfEven (q : Rat) : IsNearest q (roundHalfEven q) := by
  have hfloor := Rat.floor_le q
  have hnext : q < q.floor + 1 := by exact_mod_cast Rat.lt_floor_add_one q
  unfold roundHalfEven
  dsimp only
  split
  next hbelow =>
    have habs : |q - q.floor| = q - q.floor := abs_of_nonneg (by linarith)
    apply IsNearest.of_lt
    linarith
  next hbelow =>
    have habs : |q - ((q.floor + 1 : Int) : Rat)| = q.floor + 1 - q := by
      push_cast
      rw [abs_of_nonpos (by linarith)]
      ring
    split
    next habove =>
      apply IsNearest.of_lt
      linarith
    next habove =>
      have htie : q - q.floor = 1 / 2 := by linarith
      split
      next heven =>
        have hdistance : |q - q.floor| ≤ 1 / 2 := by rw [htie]; norm_num
        exact ⟨hdistance, fun _ => Int.even_iff.2 heven⟩
      next hodd =>
        have hdistance : |q - ((q.floor + 1 : Int) : Rat)| ≤ 1 / 2 := by rw [habs]; linarith
        have heven : Even (q.floor + 1) := Int.even_iff.2 (by omega)
        exact ⟨hdistance, fun _ => heven⟩

theorem abs_div_sub {scale : Rat} (hscale : 0 < scale) (p c : Rat) :
    |p / scale - c| = |p - c * scale| / scale := by
  rw [← abs_of_pos hscale, ← abs_div, abs_of_pos hscale, sub_div,
    mul_div_cancel_right₀ c (ne_of_gt hscale)]

namespace IsNearest

variable {p q : Rat} {m n : Int}

theorem mono (hm : IsNearest p m) (hn : IsNearest q n) (h : p ≤ q) : m ≤ n := by
  by_contra hlt
  have hstep : n + 1 ≤ m := by omega
  have hcast : (n : Rat) + 1 ≤ m := by exact_mod_cast hstep
  have hp := abs_le.1 hm.distance_le
  have hq := abs_le.1 hn.distance_le
  -- Then both numbers lie half-way between neighbours, and both of these are even.
  have htie : |p - m| = 1 / 2 := by rw [abs_of_nonpos (by linarith)]; linarith
  have htie' : |q - n| = 1 / 2 := by rw [abs_of_nonneg (by linarith)]; linarith
  have heq : m = n + 1 := by
    have hle : (m : Rat) ≤ n + 1 := by linarith
    have hle' : m ≤ n + 1 := by exact_mod_cast hle
    omega
  have heven := hm.even_of_tie htie
  have heven' := hn.even_of_tie htie'
  rw [Int.even_iff] at heven heven'
  omega

theorem unique (hm : IsNearest q m) (hn : IsNearest q n) : m = n :=
  Int.le_antisymm (hm.mono hn (le_refl q)) (hn.mono hm (le_refl q))

theorem of_close {scale : Rat} (hscale : 0 < scale) (h : |q - n * scale| < scale / 2) :
    IsNearest (q / scale) n := by
  apply of_lt
  rw [abs_div_sub hscale, div_lt_iff₀ hscale]
  linarith

theorem intCast (n : Int) : IsNearest n n :=
  of_lt (by rw [sub_self, abs_zero]; norm_num)

theorem neg (h : IsNearest q n) : IsNearest (-q) (-n) := by
  have habs : |-q - ((-n : Int) : Rat)| = |q - n| := by
    push_cast
    rw [← abs_neg]
    congr 1
    ring
  exact ⟨by rw [habs]; exact h.distance_le, fun htie => (h.even_of_tie (by rwa [habs] at htie)).neg⟩

end IsNearest

/-! ## Exponents -/

theorem digitCount_eq {base n : Nat} (hbase : 1 < base) (hn : 0 < n) :
    digitCount base n = Nat.log base n + 1 := by
  induction n using Nat.strong_induction_on with
  | h n ih =>
    rw [digitCount, dif_pos ⟨hbase, hn⟩]
    by_cases hlt : n < base
    · rw [Nat.div_eq_of_lt hlt, Nat.log_of_lt hlt, digitCount, dif_neg (by omega)]
    · have hle := Nat.le_of_not_lt hlt
      have hpos := Nat.div_pos hle (by omega)
      rw [ih _ (Nat.div_lt_self hn hbase) hpos, Nat.log_of_one_lt_of_le hbase hle]

theorem lt_pow_digitCount {base : Nat} (hbase : 1 < base) (n : Nat) :
    n < base ^ digitCount base n := by
  rcases Nat.eq_zero_or_pos n with rfl | hn
  · exact Nat.pow_pos (by omega)
  · rw [digitCount_eq hbase hn]
    exact Nat.lt_pow_succ_log_self hbase n

theorem pow_digitCount_le {base n : Nat} (hbase : 1 < base) (hn : 0 < n) :
    base ^ (digitCount base n - 1) ≤ n := by
  rw [digitCount_eq hbase hn, Nat.add_sub_cancel]
  exact Nat.pow_log_le_self base (Nat.ne_of_gt hn)

theorem digitCount_pos {base n : Nat} (hbase : 1 < base) (hn : 0 < n) :
    0 < digitCount base n := by
  rw [digitCount_eq hbase hn]
  exact Nat.succ_pos _

/-- The exponent of a number in a base is its logarithm, rounded down. -/
theorem eq_log_of_le_of_lt {base : Nat} {q : Rat} {e : Int} (hbase : 1 < base) (hq : 0 < q)
    (hle : (base : Rat) ^ e ≤ q) (hlt : q < (base : Rat) ^ (e + 1)) : Int.log base q = e := by
  have hle' := (Int.zpow_le_iff_le_log hbase hq).1 hle
  have hlt' := (Int.lt_zpow_iff_log_lt hbase hq).1 hlt
  omega

theorem log_div_of_le {base a b : Nat} (hbase : 1 < base) (hb : 0 < b) (h : b ≤ a) :
    Int.log base (a / b : Rat) = digitCount base (a / b) - 1 := by
  have hone : (1 : Rat) ≤ a / b := by
    rw [one_le_div (by exact_mod_cast hb)]
    exact_mod_cast h
  rw [Int.log_of_one_le_right base hone, Nat.floor_div_eq_div,
    digitCount_eq hbase (Nat.div_pos h hb), Nat.cast_succ, Int.add_sub_cancel]

theorem log_div_of_lt {base a b : Nat} (hbase : 1 < base) (ha : 0 < a) (h : a < b) :
    Int.log base (a / b : Rat) = -digitCount base ((b - 1) / a) := by
  have hcount := digitCount_pos hbase (Nat.div_pos (show a ≤ b - 1 by omega) ha)
  have haq : (0 : Rat) < a := by exact_mod_cast ha
  have hbq : (0 : Rat) < b := by exact_mod_cast Nat.lt_trans ha h
  have hbaseq : (0 : Rat) < base := by exact_mod_cast Nat.lt_trans Nat.one_pos hbase
  -- The reciprocal lies between two powers of the base.
  have hlow : base ^ (digitCount base ((b - 1) / a) - 1) * a < b := by
    have hle := pow_digitCount_le hbase (Nat.div_pos (show a ≤ b - 1 by omega) ha)
    rw [Nat.le_div_iff_mul_le ha] at hle
    omega
  have hhigh : b ≤ base ^ digitCount base ((b - 1) / a) * a := by
    have hlt := lt_pow_digitCount hbase ((b - 1) / a)
    rw [Nat.div_lt_iff_lt_mul ha] at hlt
    omega
  generalize digitCount base ((b - 1) / a) = count at hcount hlow hhigh ⊢
  apply eq_log_of_le_of_lt hbase (div_pos haq hbq)
  · rw [zpow_neg, zpow_natCast, inv_le_comm₀ (by positivity) (by positivity), inv_div,
      div_le_iff₀ haq]
    exact_mod_cast hhigh
  · rw [show -(count : Int) + 1 = -((count - 1 : Nat) : Int) by omega, zpow_neg, zpow_natCast,
      lt_inv_comm₀ (by positivity) (by positivity), inv_div, lt_div_iff₀ haq]
    exact_mod_cast hlow

theorem floorLog_eq_log {base : Nat} {q : Rat} (hbase : 1 < base) (hq : 0 < q) :
    floorLog base q = Int.log base q := by
  have hnum : 0 < q.num := Rat.num_pos.2 hq
  have hfraction : (q.num.toNat : Rat) / q.den = q := by
    have hcast : ((q.num.toNat : Int) : Rat) = q.num := by rw [Int.toNat_of_nonneg hnum.le]
    rw [← Int.cast_natCast, hcast, Rat.num_div_den]
  unfold floorLog
  dsimp only
  split
  next hle => rw [← log_div_of_le hbase q.den_pos hle, hfraction]
  next hlt => rw [← log_div_of_lt hbase (by omega) (Nat.lt_of_not_le hlt), hfraction]

end ArithVM.Decimal
