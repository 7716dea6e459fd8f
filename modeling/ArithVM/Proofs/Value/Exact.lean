import ArithVM.Value
import Mathlib

/-!
# Exact values — the rationals that binary64 numbers denote

A finite value is a mantissa of at most fifty-three binary digits, scaled by a power of two; it has
fewer digits only at the least exponent.  In this form the order of values is that of the rationals,
and values of full precision survive being packed into a machine word.
-/

namespace ArithVM.Value

open Float.Model (UnpackedFloat)
open Float.Model.UnpackedFloat

/-- The rational that a finite value denotes; both zeros denote zero. -/
def toRat? (v : Value) : Option Rat :=
  match v.meaning with
  | .zero _ => some 0
  | .number negative magnitude => some (if negative then -magnitude else magnitude)
  | .nan => none
  | .infinity _ => none

theorem isSome_toRat? (v : Value) : v.toRat?.isSome = v.isFinite := by
  show v.toRat?.isSome = v.toModel.unpack.isFinite
  unfold toRat? meaning
  cases v.toModel.unpack <;> rfl

/-- The mantissa and the exponent of a finite value. -/
structure Canonical (mantissa : Nat) (exponent : Int) : Prop where
  mantissa_lt : mantissa < 2 ^ 53
  le_exponent : -1074 ≤ exponent
  exponent_le : exponent ≤ 971
  full_or_least : 2 ^ 52 ≤ mantissa ∨ exponent = -1074

theorem toNat_one_append (mantissa : BitVec 52) : (1#1 ++ mantissa).toNat = 2 ^ 52 + mantissa.toNat := by
  rw [BitVec.toNat_append, ← Nat.shiftLeft_add_eq_or_of_lt mantissa.isLt]
  rfl

theorem canonical_of_unpack {v : Value} {sign : Sign} {m : Nat} {e : Int} {hm : 0 < m}
    (h : v.toModel.unpack = .finite sign m e hm) : Canonical m e := by
  have hbias : Float.Model.Format.binary64.exponentBias = 1023 := rfl
  unfold Float.Model.unpack UnpackedFloat.unpack at h
  dsimp only at h
  rw [hbias] at h
  have hmantissa : (@unpackMantissa .binary64 v.toModel.toBits.toBitVec).toNat < 2 ^ 52 :=
    BitVec.isLt _
  have hexponent : (@unpackExponent .binary64 v.toModel.toBits.toBitVec).toNat < 2048 :=
    BitVec.isLt _
  split at h
  -- The greatest exponent is the one of the infinities and of what is not a number.
  next => split at h <;> contradiction
  next hall =>
    have hne : (@unpackExponent .binary64 v.toModel.toBits.toBitVec).toNat ≠ 2047 :=
      fun hnat => hall (BitVec.eq_of_toNat_eq hnat)
    split at h
    next hleast =>
      split at h
      next => contradiction
      next =>
        rw [UnpackedFloat.finite.injEq] at h
        have hzero : (@unpackExponent .binary64 v.toModel.toBits.toBitVec).toNat = 0 :=
          congrArg BitVec.toNat hleast
        exact ⟨by omega, by omega, by omega, by omega⟩
    next hleast =>
      rw [UnpackedFloat.finite.injEq, toNat_one_append] at h
      have hpos : (@unpackExponent .binary64 v.toModel.toBits.toBitVec).toNat ≠ 0 :=
        fun hnat => hleast (BitVec.eq_of_toNat_eq hnat)
      exact ⟨by omega, by omega, by omega, by omega⟩

/-! ## Order -/

theorem two_zpow_pos (e : Int) : (0 : Rat) < (2 : Rat) ^ e :=
  zpow_pos (by norm_num) e

theorem lt_or_le_of_isLE {m n : Nat} {d e : Int}
    (h : ((compare d e).then (compare m n)).isLE = true) : d < e ∨ d = e ∧ m ≤ n := by
  rcases lt_trichotomy d e with hlt | rfl | hgt
  · exact .inl hlt
  · rw [compare_eq_iff_eq.2 rfl] at h
    exact .inr ⟨rfl, Nat.isLE_compare.1 h⟩
  · rw [compare_gt_iff_gt.2 hgt] at h
    contradiction

/-- A greater exponent outweighs every mantissa. -/
theorem Canonical.scaled_le {m n : Nat} {d e : Int} (hm : Canonical m d) (hn : Canonical n e)
    (h : d < e ∨ d = e ∧ m ≤ n) : (m : Rat) * (2 : Rat) ^ d ≤ (n : Rat) * (2 : Rat) ^ e := by
  rcases h with hlt | ⟨rfl, hle⟩
  · have hfull : 2 ^ 52 ≤ n := by
      have hleast := hm.le_exponent
      rcases hn.full_or_least with hfull | heq
      · exact hfull
      · omega
    have hupper : (m : Rat) ≤ 2 * 2 ^ 52 := by
      have hlt' := hm.mantissa_lt
      exact_mod_cast (show m ≤ 2 * 2 ^ 52 by omega)
    calc (m : Rat) * (2 : Rat) ^ d
        ≤ 2 * 2 ^ 52 * (2 : Rat) ^ d := mul_le_mul_of_nonneg_right hupper (two_zpow_pos d).le
      _ = 2 ^ 52 * (2 : Rat) ^ (d + 1) := by
          rw [zpow_add_one₀ (by norm_num)]
          ring
      _ ≤ 2 ^ 52 * (2 : Rat) ^ e :=
          mul_le_mul_of_nonneg_left (zpow_le_zpow_right₀ (by norm_num) hlt) (by positivity)
      _ ≤ n * (2 : Rat) ^ e :=
          mul_le_mul_of_nonneg_right (by exact_mod_cast hfull) (two_zpow_pos e).le
  · exact mul_le_mul_of_nonneg_right (by exact_mod_cast hle) (two_zpow_pos d).le

theorem toRat?_eq_some {v : Value} {q : Rat} (h : v.toRat? = some q) :
    (∃ sign, v.toModel.unpack = .zero sign ∧ q = 0) ∨
      ∃ sign m e hm, v.toModel.unpack = .finite sign m e hm ∧ Canonical m e ∧
        q = if isMinus sign then -(m * (2 : Rat) ^ e) else m * (2 : Rat) ^ e := by
  unfold toRat? meaning at h
  cases hunpack : v.toModel.unpack with
  | notANumber => simp [hunpack] at h
  | infinity sign => simp [hunpack] at h
  | zero sign =>
    rw [hunpack] at h
    exact .inl ⟨sign, rfl, (Option.some.inj h).symm⟩
  | finite sign m e hm =>
    rw [hunpack] at h
    exact .inr ⟨sign, m, e, hm, rfl, canonical_of_unpack hunpack, (Option.some.inj h).symm⟩

/-- The order of finite values is the order of the rationals that they denote. -/
theorem toRat?_le {v w : Value} {p q : Rat} (hv : v.toRat? = some p) (hw : w.toRat? = some q)
    (h : v ≤ w) : p ≤ q := by
  have hle : v.toModel.unpack.le w.toModel.unpack = true := of_decide_eq_true h
  -- Values of unlike signs compare by the sign, and two of one sign by exponent and mantissa.
  rcases toRat?_eq_some hv with ⟨s, hs, rfl⟩ | ⟨s, m, d, hm, hs, hc, rfl⟩
  · rcases toRat?_eq_some hw with ⟨t, ht, rfl⟩ | ⟨t, n, e, hn, ht, hc', rfl⟩
    · exact le_rfl
    · rw [hs, ht] at hle
      cases t with
      | negative => contradiction
      | positive => exact mul_nonneg (Nat.cast_nonneg n) (two_zpow_pos e).le
  · rcases toRat?_eq_some hw with ⟨t, ht, rfl⟩ | ⟨t, n, e, hn, ht, hc', rfl⟩
    · rw [hs, ht] at hle
      cases s with
      | negative => exact neg_nonpos.2 (mul_nonneg (Nat.cast_nonneg m) (two_zpow_pos d).le)
      | positive => contradiction
    · rw [hs, ht] at hle
      have hm' := mul_nonneg (Nat.cast_nonneg m) (two_zpow_pos d).le
      have hn' := mul_nonneg (Nat.cast_nonneg n) (two_zpow_pos e).le
      cases s with
      | negative =>
        cases t with
        | negative =>
          have hswap : ((compare d e).then (compare m n)).swap.isLE = true := hle
          rw [Ordering.swap_then, Int.compare_swap, Nat.compare_swap] at hswap
          exact neg_le_neg (hc'.scaled_le hc (lt_or_le_of_isLE hswap))
        | positive => exact (neg_nonpos.2 hm').trans hn'
      | positive =>
        cases t with
        | negative => contradiction
        | positive =>
          exact hc.scaled_le hc' (lt_or_le_of_isLE hle)

/-! ## Packing -/

/-- The number in a word whose exponent is neither the least nor the one of the infinities. -/
theorem unpack_packComponents (sign : Sign) {exponent : BitVec 11} (mantissa : BitVec 52)
    (hpos : 0 < exponent.toNat) (hlt : exponent.toNat < 2047) :
    UnpackedFloat.unpack .binary64 (packComponents .binary64 sign exponent mantissa) =
      .finite sign (2 ^ 52 + mantissa.toNat) (exponent.toNat - 1075) (by omega) := by
  have hbias : Float.Model.Format.binary64.exponentBias = 1023 := rfl
  have hall : exponent ≠ -1#11 := by
    intro heq
    have hnat : exponent.toNat = 2047 := congrArg BitVec.toNat heq
    omega
  have hleast : exponent ≠ 0#11 := by
    intro heq
    have hnat : exponent.toNat = 0 := congrArg BitVec.toNat heq
    omega
  unfold UnpackedFloat.unpack
  simp only [unpackExponent_packComponents, unpackMantissa_packComponents,
    unpackSign_packComponents, Sign.ofBitVec_toBitVec, hall, hleast, if_false,
    UnpackedFloat.finite.injEq, toNat_one_append, hbias, true_and]
  omega

theorem pack_of_full {sign : Sign} {m : Nat} {e : Int} {hm : 0 < m} (hc : Canonical m e)
    (hfull : 2 ^ 52 ≤ m) : UnpackedFloat.pack .binary64 (.finite sign m e hm) =
      packComponents .binary64 sign (.ofNat 11 (e + 1075).toNat) (.ofNat 52 m) := by
  have hbias : Float.Model.Format.binary64.exponentBias = 1023 := rfl
  have hlog : m.log2 + 1 = Float.Model.Format.binary64.mantissaBits := by
    rw [(Nat.log2_eq_iff (Nat.ne_of_gt hm)).2 ⟨hfull, hc.mantissa_lt⟩]
    rfl
  have hle := hc.le_exponent
  have hge := hc.exponent_le
  unfold UnpackedFloat.pack
  dsimp only
  rw [hbias, Int.add_assoc, if_neg (by omega), if_pos hlog]
  rfl

theorem unpack_pack {sign : Sign} {m : Nat} {e : Int} {hm : 0 < m} (hc : Canonical m e)
    (hfull : 2 ^ 52 ≤ m) : (Float.Model.pack (.finite sign m e hm)).unpack = .finite sign m e hm := by
  have hle := hc.le_exponent
  have hge := hc.exponent_le
  have hlt := hc.mantissa_lt
  have hexponent : (BitVec.ofNat 11 (e + 1075).toNat).toNat = (e + 1075).toNat := by
    rw [BitVec.toNat_ofNat, Nat.mod_eq_of_lt (by omega)]
  have hmantissa : (BitVec.ofNat 52 m).toNat = m - 2 ^ 52 := by
    rw [BitVec.toNat_ofNat]
    omega
  show UnpackedFloat.unpack .binary64 (UnpackedFloat.pack .binary64 (.finite sign m e hm)) = _
  rw [pack_of_full hc hfull, unpack_packComponents sign _ (by omega) (by omega),
    UnpackedFloat.finite.injEq]
  refine ⟨rfl, ?_, ?_⟩
  · omega
  · omega

end ArithVM.Value
