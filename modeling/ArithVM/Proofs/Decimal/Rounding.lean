import ArithVM.Proofs.Decimal.Nearest

/-!
# Roundings — what it means that a number is rounded to its first digits

The last place of a number follows from its logarithm, and the rounded number is the multiple of the
last place that is nearest.  A rounding keeps the order of numbers and does not leave the interval
between two powers of the base; where it arrives at the upper one, the last place of the result is
the next one, and rounding afresh at that place still gives the same number.
-/

namespace ArithVM.Decimal

/-- The number that a coefficient with its exponent stands for. -/
def Scaled.toRat (base : Nat) (s : Scaled) : Rat :=
  s.coefficient * (base : Rat) ^ s.exponent

/-- The exponent of the last of the first `digits` digits of `q`. -/
def lastPlace (base digits : Nat) (q : Rat) : Int :=
  Int.log base |q| + 1 - digits

/-- `r` is the multiple of the last place of `q` that is nearest to `q`, half-way between two of them
    the even one. -/
def IsRounding (base digits : Nat) (q r : Rat) : Prop :=
  ∃ n : Int, IsNearest (q / (base : Rat) ^ lastPlace base digits q) n ∧
    r = n * (base : Rat) ^ lastPlace base digits q

/-- The coefficient has exactly so many digits. -/
structure Scaled.Normal (base digits : Nat) (s : Scaled) : Prop where
  le_coefficient : base ^ (digits - 1) ≤ s.coefficient
  coefficient_lt : s.coefficient < base ^ digits

variable {base digits : Nat} {q r : Rat}

/-! ## Powers of the base -/

theorem base_pos (hbase : 1 < base) : (0 : Rat) < base := by
  exact_mod_cast Nat.lt_trans Nat.one_pos hbase

theorem two_le_base (hbase : 1 < base) : (2 : Rat) ≤ base := by
  exact_mod_cast hbase

theorem scale_pos (hbase : 1 < base) (e : Int) : (0 : Rat) < (base : Rat) ^ e :=
  zpow_pos (base_pos hbase) e

theorem scale_mono (hbase : 1 < base) {d e : Int} (h : d ≤ e) : (base : Rat) ^ d ≤ (base : Rat) ^ e :=
  zpow_le_zpow_right₀ (by exact_mod_cast hbase.le) h

theorem scale_succ (hbase : 1 < base) (e : Int) :
    (base : Rat) ^ (e + 1) = (base : Rat) ^ e * base :=
  zpow_add_one₀ (ne_of_gt (base_pos hbase)) e

theorem pow_mul_scale (hbase : 1 < base) (count : Nat) (e : Int) :
    ((base ^ count : Nat) : Rat) * (base : Rat) ^ e = (base : Rat) ^ (count + e) := by
  rw [Nat.cast_pow, ← zpow_natCast, zpow_add₀ (ne_of_gt (base_pos hbase))]

/-! ## Last places -/

theorem lastPlace_of_pos (hq : 0 < q) : lastPlace base digits q = Int.log base q + 1 - digits := by
  rw [lastPlace, abs_of_pos hq]

theorem lastPlace_neg (base digits : Nat) (q : Rat) :
    lastPlace base digits (-q) = lastPlace base digits q := by
  rw [lastPlace, abs_neg, lastPlace]

theorem lastPlace_of_log_eq {e : Int} (hq : 0 < q) (h : Int.log base q = e + digits - 1) :
    lastPlace base digits q = e := by
  rw [lastPlace_of_pos hq, h]
  omega

theorem scaled_bounds (hbase : 1 < base) (hdigits : 0 < digits) (hq : 0 < q) :
    ((base ^ (digits - 1) : Nat) : Rat) ≤ q / (base : Rat) ^ lastPlace base digits q ∧
      q / (base : Rat) ^ lastPlace base digits q < ((base ^ digits : Nat) : Rat) := by
  have hscale := scale_pos hbase (lastPlace base digits q)
  have hplace : lastPlace base digits q = Int.log base q + 1 - digits := lastPlace_of_pos hq
  rw [le_div_iff₀ hscale, div_lt_iff₀ hscale, pow_mul_scale hbase, pow_mul_scale hbase, hplace]
  constructor
  · have hle := Int.zpow_log_le_self hbase hq
    rwa [show ((digits - 1 : Nat) : Int) + (Int.log base q + 1 - digits) = Int.log base q by omega]
  · have hlt := Int.lt_zpow_succ_log_self hbase q
    rwa [show (digits : Int) + (Int.log base q + 1 - digits) = Int.log base q + 1 by omega]

theorem IsNearest.bounds {n : Int} (hbase : 1 < base) (hdigits : 0 < digits) (hq : 0 < q)
    (h : IsNearest (q / (base : Rat) ^ lastPlace base digits q) n) :
    ((base ^ (digits - 1) : Nat) : Int) ≤ n ∧ n ≤ ((base ^ digits : Nat) : Int) := by
  have hbounds := scaled_bounds hbase hdigits hq
  constructor
  · exact (intCast _).mono h (by exact_mod_cast hbounds.1)
  · exact h.mono (intCast _) (by exact_mod_cast hbounds.2.le)

/-! ## Normal numbers -/

namespace Scaled.Normal

variable {s t : Scaled}

/-- Between which powers of the base a normal number lies, and how far it stays from the upper. -/
theorem bounds (h : s.Normal base digits) (hbase : 1 < base) (hdigits : 0 < digits) :
    (base : Rat) ^ (s.exponent + digits - 1) ≤ s.toRat base ∧
      s.toRat base + (base : Rat) ^ s.exponent ≤ (base : Rat) ^ (s.exponent + digits) := by
  have hscale := (scale_pos hbase s.exponent).le
  have hle : ((base ^ (digits - 1) : Nat) : Rat) ≤ s.coefficient := by
    exact_mod_cast h.le_coefficient
  have hlt : (s.coefficient : Rat) + 1 ≤ ((base ^ digits : Nat) : Rat) := by
    exact_mod_cast h.coefficient_lt
  constructor
  · have hfirst := mul_le_mul_of_nonneg_right hle hscale
    rw [pow_mul_scale hbase] at hfirst
    rwa [show s.exponent + digits - 1 = ((digits - 1 : Nat) : Int) + s.exponent by omega]
  · have hlast := mul_le_mul_of_nonneg_right hlt hscale
    rwa [pow_mul_scale hbase, add_mul, one_mul, Int.add_comm] at hlast

theorem toRat_pos (h : s.Normal base digits) (hbase : 1 < base) (hdigits : 0 < digits) :
    0 < s.toRat base :=
  lt_of_lt_of_le (scale_pos hbase _) (h.bounds hbase hdigits).1

theorem log_eq (h : s.Normal base digits) (hbase : 1 < base) (hdigits : 0 < digits) :
    Int.log base (s.toRat base) = s.exponent + digits - 1 := by
  have hbounds := h.bounds hbase hdigits
  have hscale := scale_pos hbase s.exponent
  apply eq_log_of_le_of_lt hbase (h.toRat_pos hbase hdigits) hbounds.1
  rw [Int.sub_add_cancel]
  linarith

theorem unique (hs : s.Normal base digits) (ht : t.Normal base digits) (hbase : 1 < base)
    (hdigits : 0 < digits) (h : s.toRat base = t.toRat base) : s = t := by
  have hlog := hs.log_eq hbase hdigits
  rw [h, ht.log_eq hbase hdigits] at hlog
  have hexponent : s.exponent = t.exponent := by omega
  unfold toRat at h
  rw [hexponent, mul_left_inj' (ne_of_gt (scale_pos hbase _)), Nat.cast_inj] at h
  cases s
  cases t
  exact congrArg₂ Scaled.mk h hexponent

end Scaled.Normal

/-! ## Rounding -/

theorem roundToDigits_spec (hbase : 1 < base) (hdigits : 0 < digits) (hq : 0 < q) :
    (roundToDigits base digits q).Normal base digits ∧
      IsRounding base digits q ((roundToDigits base digits q).toRat base) := by
  have hplace : floorLog base q + 1 - digits = lastPlace base digits q := by
    rw [lastPlace_of_pos hq, floorLog_eq_log hbase hq]
  have hnearest := isNearest_roundHalfEven (q / (base : Rat) ^ lastPlace base digits q)
  have hbounds := hnearest.bounds hbase hdigits hq
  unfold roundToDigits
  rw [hplace]
  unfold roundAt
  dsimp only
  generalize roundHalfEven (q / (base : Rat) ^ lastPlace base digits q) = n at hnearest hbounds ⊢
  rcases Int.eq_ofNat_of_zero_le (show 0 ≤ n by omega) with ⟨n, rfl⟩
  have hle : base ^ (digits - 1) ≤ n := by exact_mod_cast hbounds.1
  have hle' : n ≤ base ^ digits := by exact_mod_cast hbounds.2
  rw [Int.toNat_natCast]
  split
  next hcarry =>
    -- One digit too many: the same number has a shorter coefficient at the next exponent.
    have hgrow : base ^ (digits - 1) < base ^ digits := Nat.pow_lt_pow_right hbase (by omega)
    have hvalue : ((base ^ (digits - 1) : Nat) : Rat) * (base : Rat) ^ (lastPlace base digits q + 1) =
        ((n : Int) : Rat) * (base : Rat) ^ lastPlace base digits q := by
      rw [Int.cast_natCast, hcarry]
      show ((base ^ (digits - 1) : Nat) : Rat) * _ = ((base ^ digits : Nat) : Rat) * _
      rw [pow_mul_scale hbase, pow_mul_scale hbase]
      congr 1
      omega
    exact ⟨⟨Nat.le_refl _, hgrow⟩, n, hnearest, hvalue⟩
  next hcarry => exact ⟨⟨hle, Nat.lt_of_le_of_ne hle' hcarry⟩, n, hnearest, rfl⟩

theorem exists_isRounding (base digits : Nat) (q : Rat) : ∃ r, IsRounding base digits q r :=
  ⟨_, _, isNearest_roundHalfEven _, rfl⟩

namespace IsRounding

theorem neg (h : IsRounding base digits q r) : IsRounding base digits (-q) (-r) := by
  rcases h with ⟨n, hn, rfl⟩
  have hneg := hn.neg
  rw [← neg_div, ← lastPlace_neg] at hneg
  exact ⟨-n, hneg, by rw [lastPlace_neg, Int.cast_neg, neg_mul]⟩

theorem eq_zero (h : IsRounding base digits 0 r) : r = 0 := by
  rcases h with ⟨n, hn, rfl⟩
  rw [zero_div] at hn
  rw [hn.unique (IsNearest.intCast 0), Int.cast_zero, zero_mul]

theorem bounds (h : IsRounding base digits q r) (hbase : 1 < base) (hdigits : 0 < digits)
    (hq : 0 < q) :
    (base : Rat) ^ Int.log base q ≤ r ∧ r ≤ (base : Rat) ^ (Int.log base q + 1) := by
  rcases h with ⟨n, hn, rfl⟩
  have hbounds := hn.bounds hbase hdigits hq
  have hscale := (scale_pos hbase (lastPlace base digits q)).le
  have hle : ((base ^ (digits - 1) : Nat) : Rat) ≤ n := by exact_mod_cast hbounds.1
  have hle' : (n : Rat) ≤ ((base ^ digits : Nat) : Rat) := by exact_mod_cast hbounds.2
  have hplace : lastPlace base digits q = Int.log base q + 1 - digits := lastPlace_of_pos hq
  constructor
  · have hfirst := mul_le_mul_of_nonneg_right hle hscale
    rw [pow_mul_scale hbase] at hfirst
    rwa [show Int.log base q = ((digits - 1 : Nat) : Int) + lastPlace base digits q by omega]
  · have hlast := mul_le_mul_of_nonneg_right hle' hscale
    rw [pow_mul_scale hbase] at hlast
    rwa [show Int.log base q + 1 = digits + lastPlace base digits q by omega]

theorem pos (h : IsRounding base digits q r) (hbase : 1 < base) (hdigits : 0 < digits)
    (hq : 0 < q) : 0 < r :=
  lt_of_lt_of_le (scale_pos hbase _) (h.bounds hbase hdigits hq).1

theorem log_bounds (h : IsRounding base digits q r) (hbase : 1 < base) (hdigits : 0 < digits)
    (hq : 0 < q) :
    Int.log base q ≤ Int.log base r ∧ Int.log base r ≤ Int.log base q + 1 := by
  have hbounds := h.bounds hbase hdigits hq
  have hle := Int.log_mono_right (b := base) (scale_pos hbase _) hbounds.1
  have hle' := Int.log_mono_right (b := base) (h.pos hbase hdigits hq) hbounds.2
  rw [Int.log_zpow hbase] at hle hle'
  exact ⟨hle, hle'⟩

theorem mono_of_pos {p s : Rat} (hr : IsRounding base digits p r) (hs : IsRounding base digits q s)
    (hbase : 1 < base) (hdigits : 0 < digits) (hp : 0 < p) (h : p ≤ q) : r ≤ s := by
  have hq := lt_of_lt_of_le hp h
  have hlog : Int.log base p ≤ Int.log base q := Int.log_mono_right hp h
  rcases Int.lt_or_eq_of_le hlog with hlt | heq
  · -- A power of the base lies between the two numbers, and rounding does not pass it.
    calc r
        ≤ (base : Rat) ^ (Int.log base p + 1) := (hr.bounds hbase hdigits hp).2
      _ ≤ (base : Rat) ^ Int.log base q := zpow_le_zpow_right₀ (by exact_mod_cast hbase.le) hlt
      _ ≤ s := (hs.bounds hbase hdigits hq).1
  · -- Both numbers have one last place, so the nearest integers decide.
    have hplace : lastPlace base digits p = lastPlace base digits q := by
      rw [lastPlace_of_pos hp, lastPlace_of_pos hq, heq]
    rcases hr with ⟨m, hm, rfl⟩
    rcases hs with ⟨n, hn, rfl⟩
    rw [hplace] at hm ⊢
    have hscale := scale_pos hbase (lastPlace base digits q)
    have hmn := hm.mono hn (div_le_div_of_nonneg_right h hscale.le)
    exact mul_le_mul_of_nonneg_right (by exact_mod_cast hmn) hscale.le

theorem mono {p s : Rat} (hr : IsRounding base digits p r) (hs : IsRounding base digits q s)
    (hbase : 1 < base) (hdigits : 0 < digits) (h : p ≤ q) : r ≤ s := by
  rcases lt_trichotomy p 0 with hp | rfl | hp
  · rcases lt_trichotomy q 0 with hq | rfl | hq
    · have hle := hs.neg.mono_of_pos hr.neg hbase hdigits (neg_pos.2 hq) (neg_le_neg h)
      exact neg_le_neg_iff.1 hle
    · have hpos := hr.neg.pos hbase hdigits (neg_pos.2 hp)
      rw [hs.eq_zero]
      linarith
    · have hpos := hr.neg.pos hbase hdigits (neg_pos.2 hp)
      have hpos' := hs.pos hbase hdigits hq
      linarith
  · rw [hr.eq_zero]
    rcases eq_or_lt_of_le h with rfl | hq
    · rw [hs.eq_zero]
    · exact (hs.pos hbase hdigits hq).le
  · exact hr.mono_of_pos hs hbase hdigits hp h

theorem unique {s : Rat} (hr : IsRounding base digits q r) (hs : IsRounding base digits q s)
    (hbase : 1 < base) (hdigits : 0 < digits) : r = s :=
  le_antisymm (hr.mono hs hbase hdigits le_rfl) (hs.mono hr hbase hdigits le_rfl)

protected theorem abs (h : IsRounding base digits q r) (hbase : 1 < base) (hdigits : 0 < digits) :
    IsRounding base digits |q| |r| := by
  rcases lt_trichotomy q 0 with hq | rfl | hq
  · have hpos := h.neg.pos hbase hdigits (neg_pos.2 hq)
    rw [abs_of_neg hq, abs_of_neg (neg_pos.1 hpos)]
    exact h.neg
  · have hzero := h.eq_zero
    subst hzero
    rwa [abs_zero]
  · rwa [abs_of_pos hq, abs_of_pos (h.pos hbase hdigits hq)]

theorem eq_ite_abs (h : IsRounding base digits q r) (hbase : 1 < base) (hdigits : 0 < digits) :
    r = if q < 0 then -|r| else |r| := by
  split
  next hq =>
    have hpos := h.neg.pos hbase hdigits (neg_pos.2 hq)
    rw [abs_of_neg (neg_pos.1 hpos), neg_neg]
  next hq =>
    rcases eq_or_lt_of_le (not_lt.1 hq) with rfl | hq
    · rw [h.eq_zero, abs_zero]
    · rw [abs_of_pos (h.pos hbase hdigits hq)]

theorem abs_sub_le_half (h : IsRounding base digits q r) (hbase : 1 < base) :
    |q - r| ≤ (base : Rat) ^ lastPlace base digits q / 2 := by
  rcases h with ⟨n, hn, rfl⟩
  have hscale := scale_pos hbase (lastPlace base digits q)
  have hdistance := hn.distance_le
  rw [abs_div_sub hscale, div_le_iff₀ hscale] at hdistance
  linarith

/-- The error of a rounding, in proportion to the number. -/
theorem abs_sub_le (h : IsRounding base digits q r) (hbase : 1 < base) (hq : 0 < q) :
    |q - r| ≤ q * base / (2 * ((base ^ digits : Nat) : Rat)) := by
  have hpower : (0 : Rat) < ((base ^ digits : Nat) : Rat) := by
    exact_mod_cast Nat.pow_pos (Nat.lt_trans Nat.one_pos hbase)
  have hplace : ((base ^ digits : Nat) : Rat) * (base : Rat) ^ lastPlace base digits q =
      (base : Rat) ^ Int.log base q * base := by
    rw [pow_mul_scale hbase, ← scale_succ hbase, lastPlace_of_pos hq]
    congr 1
    omega
  rw [le_div_iff₀ (by positivity)]
  calc |q - r| * (2 * ((base ^ digits : Nat) : Rat))
      ≤ (base : Rat) ^ lastPlace base digits q / 2 * (2 * ((base ^ digits : Nat) : Rat)) :=
        mul_le_mul_of_nonneg_right (h.abs_sub_le_half hbase) (by positivity)
    _ = ((base ^ digits : Nat) : Rat) * (base : Rat) ^ lastPlace base digits q := by ring
    _ = (base : Rat) ^ Int.log base q * base := hplace
    _ ≤ q * base := mul_le_mul_of_nonneg_right (Int.zpow_log_le_self hbase hq) (base_pos hbase).le

end IsRounding

/-! ## Neighbours of a normal number -/

namespace Scaled.Normal

variable {s : Scaled}

/-- From its own power of the base upwards, a normal number is the rounding of all that is nearer to
    it than half a unit. -/
theorem isRounding_of_le (hs : s.Normal base digits) (hbase : 1 < base) (hdigits : 0 < digits)
    (hq : 0 < q) (hle : (base : Rat) ^ (s.exponent + digits - 1) ≤ q)
    (hclose : |q - s.toRat base| < (base : Rat) ^ s.exponent / 2) :
    IsRounding base digits q (s.toRat base) := by
  have hbounds := hs.bounds hbase hdigits
  have hdistance := abs_lt.1 hclose
  have hscale := scale_pos hbase s.exponent
  have hlog : Int.log base q = s.exponent + digits - 1 := by
    apply eq_log_of_le_of_lt hbase hq hle
    rw [Int.sub_add_cancel]
    linarith
  have hplace := lastPlace_of_log_eq hq hlog
  have hnearest : IsNearest (q / (base : Rat) ^ lastPlace base digits q) s.coefficient := by
    rw [hplace]
    exact IsNearest.of_close hscale hclose
  exact ⟨s.coefficient, hnearest, by rw [hplace]; rfl⟩

/-- The only normal number with something below its power of the base nearer than a unit is that
    power itself. -/
theorem eq_pow_of_lt (hs : s.Normal base digits) (hbase : 1 < base) (hdigits : 0 < digits)
    (hlt : q < (base : Rat) ^ (s.exponent + digits - 1))
    (hclose : s.toRat base - q < (base : Rat) ^ s.exponent) :
    s.toRat base = (base : Rat) ^ (s.exponent + digits - 1) := by
  have hfirst : ((base ^ (digits - 1) : Nat) : Rat) * (base : Rat) ^ s.exponent =
      (base : Rat) ^ (s.exponent + digits - 1) := by
    rw [pow_mul_scale hbase]
    congr 1
    omega
  have hnext : (s.coefficient : Rat) * (base : Rat) ^ s.exponent <
      ((base ^ (digits - 1) : Nat) + 1) * (base : Rat) ^ s.exponent := by
    rw [add_mul, one_mul, hfirst]
    show s.toRat base < _
    linarith
  have hlt' : s.coefficient < base ^ (digits - 1) + 1 := by
    exact_mod_cast lt_of_mul_lt_mul_right hnext (scale_pos hbase s.exponent).le
  rw [← hfirst, Nat.le_antisymm hs.le_coefficient (Nat.le_of_lt_succ hlt')]
  rfl

end Scaled.Normal

theorem isRounding_pow_of_lt {e : Int} (hbase : 1 < base) (hdigits : 0 < digits) (hq : 0 < q)
    (hlt : q < (base : Rat) ^ (e + digits))
    (hclose : (base : Rat) ^ (e + digits) - q < (base : Rat) ^ e / 2) :
    IsRounding base digits q ((base : Rat) ^ (e + digits)) := by
  have hscale := scale_pos hbase e
  -- Below a power of the base the last place is a smaller one.
  have hlog : Int.log base q = e + digits - 1 := by
    apply eq_log_of_le_of_lt hbase hq
    · have htwo := two_le_base hbase
      have hbelow := scale_succ hbase (e + digits - 1)
      rw [Int.sub_add_cancel] at hbelow
      have hmore : (base : Rat) ^ e ≤ (base : Rat) ^ (e + digits - 1) := scale_mono hbase (by omega)
      nlinarith
    · rwa [Int.sub_add_cancel]
  have hplace := lastPlace_of_log_eq hq hlog
  have hpower : (((base ^ digits : Nat) : Int) : Rat) * (base : Rat) ^ e =
      (base : Rat) ^ (e + digits) := by
    rw [Int.cast_natCast, pow_mul_scale hbase, Int.add_comm]
  have hnearest : IsNearest (q / (base : Rat) ^ lastPlace base digits q) (base ^ digits : Nat) := by
    rw [hplace]
    apply IsNearest.of_close hscale
    rwa [hpower, abs_sub_comm, abs_of_pos (sub_pos.2 hlt)]
  exact ⟨(base ^ digits : Nat), hnearest, by rw [hplace, hpower]⟩

/-- A number as near as this to a normal one rounds to it, also from below a power of the base,
    where the last place is a smaller one. -/
theorem roundToDigits_eq {s : Scaled} (hs : s.Normal base digits) (hbase : 1 < base)
    (hdigits : 0 < digits) (hq : 0 < q)
    (hclose : |q - s.toRat base| < (base : Rat) ^ (s.exponent - 1) / 2) :
    roundToDigits base digits q = s := by
  have hsmall : (base : Rat) ^ (s.exponent - 1) ≤ (base : Rat) ^ s.exponent :=
    scale_mono hbase (by omega)
  have hround : IsRounding base digits q (s.toRat base) := by
    by_cases hle : (base : Rat) ^ (s.exponent + digits - 1) ≤ q
    · exact hs.isRounding_of_le hbase hdigits hq hle (by linarith)
    · have hlt := lt_of_not_ge hle
      have hscale := scale_pos hbase s.exponent
      rw [abs_sub_comm, abs_lt] at hclose
      have hpower := hs.eq_pow_of_lt hbase hdigits hlt (by linarith)
      rw [show s.exponent + digits - 1 = s.exponent - 1 + digits by omega] at hpower hlt
      rw [hpower] at hclose ⊢
      exact isRounding_pow_of_lt hbase hdigits hq hlt hclose.2
  have hspec := roundToDigits_spec hbase hdigits hq
  exact hspec.1.unique hs hbase hdigits (hspec.2.unique hround hbase hdigits)

/-- The same with the distance in proportion to the number, one digit more than is kept. -/
theorem roundToDigits_of_abs_sub_le {s : Scaled} (hs : s.Normal base digits) (hbase : 1 < base)
    (hdigits : 0 < digits) (hq : 0 < q)
    (hclose : |q - s.toRat base| * (2 * ((base ^ (digits + 1) : Nat) : Rat)) ≤ s.toRat base) :
    roundToDigits base digits q = s := by
  have hscale := scale_pos hbase s.exponent
  have hupper := (hs.bounds hbase hdigits).2
  have hpower : ((base ^ (digits + 1) : Nat) : Rat) * (base : Rat) ^ (s.exponent - 1) =
      (base : Rat) ^ (s.exponent + digits) := by
    rw [pow_mul_scale hbase]
    congr 1
    omega
  have hpos : (0 : Rat) < ((base ^ (digits + 1) : Nat) : Rat) := by
    exact_mod_cast Nat.pow_pos (Nat.lt_trans Nat.one_pos hbase)
  apply roundToDigits_eq hs hbase hdigits hq
  rw [← hpower] at hupper
  rw [lt_div_iff₀ two_pos]
  apply lt_of_mul_lt_mul_left _ hpos.le
  linarith

/-! ## Rounding afresh -/

namespace IsRounding

/-- The rounded number is nearest at its own last place, even if that is not the place that it was
    rounded at. -/
theorem isNearest_coefficient {s : Scaled} (hs : s.Normal base digits)
    (h : IsRounding base digits q (s.toRat base)) (hbase : 1 < base) (hdigits : 0 < digits)
    (hq : 0 < q) : IsNearest (q / (base : Rat) ^ s.exponent) s.coefficient := by
  have hbounds := h.log_bounds hbase hdigits hq
  rw [hs.log_eq hbase hdigits] at hbounds
  have hplace : lastPlace base digits q = Int.log base q + 1 - digits := lastPlace_of_pos hq
  have hscale := scale_pos hbase s.exponent
  rcases Int.lt_or_eq_of_le hbounds.1 with hlt | heq
  · -- Rounding has carried into a new power of the base, and half of the old unit is less than half
    -- of the new one.
    have hcarry : lastPlace base digits q < s.exponent := by omega
    have hstep := scale_succ hbase (lastPlace base digits q)
    have hmore := scale_mono hbase (show lastPlace base digits q + 1 ≤ s.exponent by omega)
    have htwo := two_le_base hbase
    have hscale' := scale_pos hbase (lastPlace base digits q)
    have hdistance := h.abs_sub_le_half hbase
    apply IsNearest.of_close hscale
    show |q - s.toRat base| < _
    nlinarith
  · have hsame : lastPlace base digits q = s.exponent := by omega
    rcases h with ⟨n, hn, hvalue⟩
    rw [hsame] at hn hvalue
    rw [Scaled.toRat, mul_left_inj' (ne_of_gt hscale)] at hvalue
    have hcoefficient : (s.coefficient : Int) = n := by exact_mod_cast hvalue
    rwa [hcoefficient]

theorem again_of_pos (h : IsRounding base digits q r) (hbase : 1 < base) (hdigits : 0 < digits)
    (hq : 0 < q) {n : Int} (hn : IsNearest (q / (base : Rat) ^ lastPlace base digits r) n) :
    n * (base : Rat) ^ lastPlace base digits r = r := by
  have hspec := roundToDigits_spec hbase hdigits hq
  have hr := hspec.2.unique h hbase hdigits
  generalize roundToDigits base digits q = s at hspec hr
  subst hr
  have hplace := lastPlace_of_log_eq (h.pos hbase hdigits hq) (hspec.1.log_eq hbase hdigits)
  rw [hplace] at hn ⊢
  rw [hn.unique (isNearest_coefficient hspec.1 h hbase hdigits hq)]
  rfl

/-- Rounding afresh at the last place of the rounded number changes nothing. -/
theorem again (h : IsRounding base digits q r) (hbase : 1 < base) (hdigits : 0 < digits)
    (hq : q ≠ 0) {n : Int} (hn : IsNearest (q / (base : Rat) ^ lastPlace base digits r) n) :
    n * (base : Rat) ^ lastPlace base digits r = r := by
  rcases lt_or_gt_of_ne hq with hq | hq
  · have hneg := hn.neg
    rw [← neg_div, ← lastPlace_neg] at hneg
    have hagain := h.neg.again_of_pos hbase hdigits (neg_pos.2 hq) hneg
    rwa [lastPlace_neg, Int.cast_neg, neg_mul, neg_inj] at hagain
  · exact h.again_of_pos hbase hdigits hq hn

end IsRounding

end ArithVM.Decimal
