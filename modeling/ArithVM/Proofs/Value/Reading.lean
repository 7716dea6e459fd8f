import ArithVM.Proofs.Compile.Numeral
import ArithVM.Proofs.Machine.Evaluation
import ArithVM.Proofs.Value.Printing
import ArithVM.Session

/-!
# Reading back — printed values as sources

A value that is printed without an exponent is printed as a source, and running that gives a value
which is printed the same way.  The value that is read is a neighbour of the decimal number that
stands there, much nearer to it than half a unit of its sixth digit.
-/

namespace ArithVM.Value

open Decimal

/-! ## Values of numbers in the normal range -/

/-- A value keeps fifty-three digits of a number that is neither tiny nor huge. -/
theorem unpack_ofRat {r : Rat} {s : Scaled} (hs : roundToDigits 2 53 r = s) (hr : 0 < r)
    (hleast : -1022 ≤ Int.log 2 r) (hgreatest : Int.log 2 r ≤ 1022) :
    ∃ hpos, (ofRat r).toModel.unpack = .finite .positive s.coefficient s.exponent hpos ∧
      Canonical s.coefficient s.exponent ∧ 2 ^ 52 ≤ s.coefficient := by
  have hspec := roundToDigits_spec (show 1 < 2 by decide) (show 0 < 53 by decide) hr
  have hbounds := hspec.2.log_bounds (by decide) (by decide) hr
  rw [hspec.1.log_eq (by decide) (by decide)] at hbounds
  -- In this range the exponent is that of fifty-three digits and not the least one.
  have hexponent : max (floorLog 2 r + 1 - precision) leastExponent = floorLog 2 r + 1 - precision := by
    have hprecision : precision = 53 := rfl
    have hleast' : leastExponent = -1074 := rfl
    rw [floorLog_eq_log (by decide) hr]
    omega
  have hrounded : roundAt 2 precision (max (floorLog 2 r + 1 - precision) leastExponent) r = s := by
    rw [hexponent, ← hs]
    rfl
  rw [hs] at hspec hbounds
  have hfull : 2 ^ 52 ≤ s.coefficient := hspec.1.le_coefficient
  have hlt : s.coefficient < 2 ^ 53 := hspec.1.coefficient_lt
  have hpos : 0 < s.coefficient := by omega
  have hcanonical : Canonical s.coefficient s.exponent :=
    ⟨hlt, by omega, by omega, .inl hfull⟩
  unfold ofRat
  simp only [hrounded]
  rw [dif_pos hpos]
  exact ⟨hpos, unpack_pack hcanonical hfull, hcanonical, hfull⟩

/-- Fifty-three binary digits are more than enough for six decimal ones. -/
theorem render_roundToDigits {s : Scaled} (hs : s.Normal 10 6) :
    layout.render ((roundToDigits 2 53 (s.toRat 10)).toRat 2) = layout.write s := by
  have hpos := hs.toRat_pos (by decide) (by decide)
  have hspec := roundToDigits_spec (show 1 < 2 by decide) (show 0 < 53 by decide) hpos
  have hpos' := hspec.1.toRat_pos (by decide) (by decide)
  have herror := hspec.2.abs_sub_le (by decide) hpos
  generalize (roundToDigits 2 53 (s.toRat 10)).toRat 2 = q at hpos' herror ⊢
  -- Two to the fifty-third is more than twice the seventh power of ten.
  have hclose : |q - s.toRat 10| * (2 * ((10 ^ (6 + 1) : Nat) : Rat)) ≤ s.toRat 10 := by
    rw [abs_sub_comm]
    rw [le_div_iff₀ (by norm_num)] at herror
    push_cast at herror ⊢
    have habs := abs_nonneg (s.toRat 10 - q)
    linarith
  have hdigits := roundToDigits_of_abs_sub_le hs (by decide) (by decide) hpos' hclose
  rw [layout.render_eq_write (by decide) hpos']
  exact congrArg layout.write hdigits

/-- What is printed positionally lies well inside the normal range. -/
theorem log_two_bounds {r : Rat} (hr : 0 < r) (hleast : -4 ≤ Int.log 10 r)
    (hgreatest : Int.log 10 r < 6) : -14 ≤ Int.log 2 r ∧ Int.log 2 r < 20 := by
  have hlow : ((10 : Nat) : Rat) ^ (-4 : Int) ≤ r := (Int.zpow_le_iff_le_log (by decide) hr).2 hleast
  have hhigh : r < ((10 : Nat) : Rat) ^ (6 : Int) := (Int.lt_zpow_iff_log_lt (by decide) hr).2 hgreatest
  constructor
  · apply (Int.zpow_le_iff_le_log (by decide) hr).1
    apply le_trans _ hlow
    norm_num
  · apply (Int.lt_zpow_iff_log_lt (by decide) hr).1
    apply lt_trans hhigh
    norm_num

/-! ## Values of signed numbers -/

/-- A literal as the value of a source, with a minus sign in front or without. -/
def ofSigned (negative : Bool) (r : Rat) : Value :=
  if negative then -ofRat r else ofRat r

theorem text_of_unpack {v : Value} {sign : Float.Model.UnpackedFloat.Sign} {m : Nat} {e : Int}
    {hm : 0 < m} (h : v.toModel.unpack = .finite sign m e hm) :
    v.text = signed (isMinus sign) (layout.render (m * (2 : Rat) ^ e)) := by
  rw [text, meaning, h]

theorem unpack_neg {v : Value} {m : Nat} {e : Int} {hm : 0 < m}
    (h : v.toModel.unpack = .finite .positive m e hm) (hc : Canonical m e) (hfull : 2 ^ 52 ≤ m) :
    (-v).toModel.unpack = .finite .negative m e hm := by
  show (Float.Model.pack v.toModel.unpack.neg).unpack = .finite .negative m e hm
  rw [h]
  exact unpack_pack hc hfull

theorem text_ofSigned (negative : Bool) {s : Scaled} (hs : s.Normal 10 6)
    (hleast : -4 ≤ Int.log 10 (s.toRat 10)) (hgreatest : Int.log 10 (s.toRat 10) < 6) :
    (ofSigned negative (s.toRat 10)).text = signed negative (layout.write s) := by
  have hpos := hs.toRat_pos (by decide) (by decide)
  have hlog := log_two_bounds hpos hleast hgreatest
  rcases unpack_ofRat rfl hpos (by omega) (by omega) with ⟨hm, hunpack, hcanonical, hfull⟩
  rw [← render_roundToDigits hs]
  cases negative with
  | true =>
    have hneg := unpack_neg hunpack hcanonical hfull
    exact text_of_unpack hneg
  | false => exact text_of_unpack hunpack

theorem text_ofSigned_zero (negative : Bool) : (ofSigned negative 0).text = signed negative "0" := by
  cases negative <;> decide +kernel

/-! ## Printed values as sources -/

theorem exists_run_of_isNumeral {source : String} {numeral : List Char} (h : IsNumeral numeral)
    (negative : Bool) (hsource : source.toList = if negative then '-' :: numeral else numeral) :
    ∃ c, Chunk.compile source = .ok c ∧
      (∀ m : Machine, (m.execute c).result = .ok (some (ofSigned negative (literalRat numeral)))) ∧
      ∀ s : Session, (s.run source none).result =
        .ok (some (ofSigned negative (literalRat numeral))) := by
  rcases compile_of_isNumeral h negative hsource with ⟨e, line, hcompile, hnumbers, heval⟩
  have hexecute (m : Machine) : (m.execute (e.chunk line)).result =
      .ok (some (ofSigned negative (literalRat numeral))) := by
    rw [(Machine.execute_chunk hnumbers line m).1, heval]
    rfl
  refine ⟨e.chunk line, hcompile, hexecute, ?_⟩
  intro s
  have hrun : (s.run source none).result =
      (s.machine.execute (e.chunk line)).result.mapError .runtime := by
    simp only [Session.run, hcompile]
    cases s.options.disassemble <;> rfl
  rw [hrun, hexecute]
  rfl

/-- **Reading back.**  A finite value that is printed without an exponent is printed as a source;
    its value is printed the same way. -/
theorem text_reads_back {v : Value} {q : Rat} (hv : v.toRat? = some q) (hplain : 'e' ∉ v.text.toList) :
    ∃ c w, Chunk.compile v.text = .ok c ∧ (∀ m : Machine, (m.execute c).result = .ok (some w)) ∧
      (∀ s : Session, (s.run v.text none).result = .ok (some w)) ∧ w.text = v.text := by
  by_cases hq : q = 0
  · subst hq
    rcases text_of_toRat?_zero hv with ⟨negative, htext⟩
    have hdigits : IsDigits ['0'] := ⟨List.cons_ne_nil _ _, List.forall_mem_singleton.2 rfl⟩
    have hnumeral : IsNumeral ['0'] := ⟨['0'], hdigits, .inl rfl⟩
    have hsource : v.text.toList = if negative then '-' :: ['0'] else ['0'] := by
      rw [htext, toList_signed]
      rfl
    rcases exists_run_of_isNumeral hnumeral negative hsource with ⟨c, hcompile, hexecute, hrun⟩
    have hzero : literalRat ['0'] = 0 := by decide +kernel
    rw [hzero] at hexecute hrun
    exact ⟨c, _, hcompile, hexecute, hrun, by rw [text_ofSigned_zero, htext]⟩
  · have hspec := roundToDigits_spec (show 1 < 10 by decide) (show 0 < 6 by decide) (abs_pos.2 hq)
    have hrender := layout.render_eq_write (by decide) (abs_pos.2 hq)
    have htext := text_of_toRat? hv hq
    rw [hrender] at htext
    change v.text = signed (decide (q < 0)) (layout.write (roundToDigits 10 6 |q|)) at htext
    generalize roundToDigits 10 6 |q| = s at hspec htext
    have hrenders := layout.renders_write (by decide) (by decide) hspec.1
    have hsource : v.text.toList = if decide (q < 0) then '-' :: (layout.write s).toList
        else (layout.write s).toList := by
      rw [htext, toList_signed]
    cases hrenders with
    | plain n hleast hdigits hn hnumeral =>
      rw [hnumeral] at hsource
      rcases exists_run_of_isNumeral n.isNumeral_text (decide (q < 0)) hsource with
        ⟨c, hcompile, hexecute, hrun⟩
      rw [n.literalRat_text, hn] at hexecute hrun
      exact ⟨c, _, hcompile, hexecute, hrun, by rw [text_ofSigned _ hspec.1 hleast hdigits, htext]⟩
    | scientific n hrange hexponent hn hnumeral =>
      -- A numeral with an exponent has an `e` in it.
      have he : 'e' ∈ (layout.write s).toList := by
        rw [hnumeral, Scientific.text]
        exact List.mem_append_right _ List.mem_cons_self
      apply absurd _ hplain
      rw [hsource]
      split
      next => exact List.mem_cons_of_mem _ he
      next => exact he

/-- The text of a third below zero is read as another value, and that has the same text. -/
theorem text_reads_back_third :
    (-ofRat (1 / 3)).toRat? = some (-6004799503160661 / 18014398509481984) ∧
      'e' ∉ (-ofRat (1 / 3)).text.toList ∧ (-ofRat (1 / 3)).text = "-0.333333" ∧
      ∃ c w, Chunk.compile (-ofRat (1 / 3)).text = .ok c ∧
        (∀ m : Machine, (m.execute c).result = .ok (some w)) ∧
        (∀ s : Session, (s.run (-ofRat (1 / 3)).text none).result = .ok (some w)) ∧
        w.text = (-ofRat (1 / 3)).text := by
  have hv : (-ofRat (1 / 3)).toRat? = some (-6004799503160661 / 18014398509481984) := by
    decide +kernel
  have hplain : 'e' ∉ (-ofRat (1 / 3)).text.toList := by decide +kernel
  exact ⟨hv, hplain, by decide +kernel, text_reads_back hv hplain⟩

end ArithVM.Value
