import MaterialModules.Decimal.Shortest
import Mathlib.Algebra.Order.Field.Rat
import Mathlib.Algebra.Order.Monoid.NatCast
import Mathlib.Data.Rat.Cast.Order
import Mathlib.Tactic.Linarith
import Mathlib.Tactic.NormNum
import Mathlib.Tactic.Positivity
import Mathlib.Tactic.Ring

/-!
What the shortest decimal of a number is good for: it reads as the number, and as no other number of the
same width. The reals that read as a number reach from the middle between it and the one below to the
middle between it and the one above, and of two neighbours at most one counts their middle in.
-/

set_option autoImplicit false

namespace MaterialModules.Decimal

def Digits.toRat (d : Digits) : ℚ := d.digits * 10 ^ d.exponent

theorem pow_toNat {b : ℚ} (hb : b ≠ 0) (e : ℤ) : b ^ e.toNat = b ^ e * b ^ (-e).toNat := by
  have hsum : (e.toNat : ℤ) = e + (-e).toNat := by omega
  rw [← zpow_natCast, ← zpow_natCast b (-e).toNat, ← zpow_add₀ hb, hsum]

namespace Reals

variable {r : Reals} {d : Nat} {e : Int}

def low (r : Reals) : ℚ := (r.value - r.below : ℕ) * 2 ^ r.exponent

def high (r : Reals) : ℚ := (r.value + r.above : ℕ) * 2 ^ r.exponent

def Covers (r : Reals) (x : ℚ) : Prop :=
  if r.closed then r.low ≤ x ∧ x ≤ r.high else r.low < x ∧ x < r.high

theorem Covers.between {x : ℚ} (h : r.Covers x) : r.low ≤ x ∧ x ≤ r.high := by
  unfold Covers at h
  split at h
  · exact h
  · exact ⟨h.1.le, h.2.le⟩

theorem Covers.closed_of_end {x : ℚ} (h : r.Covers x) (hend : x = r.low ∨ x = r.high) :
    r.closed = true := by
  by_contra hopen
  rw [Covers, if_neg hopen] at h
  rcases hend with rfl | rfl
  · exact lt_irrefl _ h.1
  · exact lt_irrefl _ h.2

theorem scaled_pos (r : Reals) (e : Int) (n : Nat) : 0 < (r.scaled e n).2 := by
  simp only [scaled, Nat.pow_eq]
  positivity

theorem scaled_eq (r : Reals) (d : Nat) (e : Int) (n : Nat) :
    ∃ factor : ℚ, 0 < factor ∧ ((r.scaled e n).1 : ℚ) = n * 2 ^ r.exponent * factor ∧
      ((d * (r.scaled e n).2 : ℕ) : ℚ) = (⟨d, e⟩ : Digits).toRat * factor := by
  have hden : (0 : ℚ) < (r.scaled e n).2 := by exact_mod_cast r.scaled_pos e n
  have hten : (0 : ℚ) < 10 ^ e := zpow_pos (by norm_num) e
  have htwo := pow_toNat (b := 2) (by norm_num) r.exponent
  have hten' := pow_toNat (b := 10) (by norm_num) e
  refine ⟨(r.scaled e n).2 / 10 ^ e, div_pos hden hten, ?_, ?_⟩
  · rw [← mul_div_assoc, eq_div_iff hten.ne']
    simp only [scaled, Nat.pow_eq]
    push_cast
    rw [htwo, hten']
    ring
  · rw [Digits.toRat, ← mul_div_assoc, eq_div_iff hten.ne']
    push_cast
    ring

theorem scaled_le_iff (n : Nat) :
    (r.scaled e n).1 ≤ d * (r.scaled e n).2 ↔ (n : ℚ) * 2 ^ r.exponent ≤ (⟨d, e⟩ : Digits).toRat := by
  obtain ⟨factor, hpos, hnum, hden⟩ := r.scaled_eq d e n
  rw [← Nat.cast_le (α := ℚ), hnum, hden, mul_le_mul_iff_of_pos_right hpos]

theorem le_scaled_iff (n : Nat) :
    d * (r.scaled e n).2 ≤ (r.scaled e n).1 ↔ (⟨d, e⟩ : Digits).toRat ≤ (n : ℚ) * 2 ^ r.exponent := by
  obtain ⟨factor, hpos, hnum, hden⟩ := r.scaled_eq d e n
  rw [← Nat.cast_le (α := ℚ), hnum, hden, mul_le_mul_iff_of_pos_right hpos]

theorem contains_iff : r.contains d e = true ↔ r.Covers (⟨d, e⟩ : Digits).toRat := by
  have hlow := scaled_le_iff (r := r) (d := d) (e := e) (r.value - r.below)
  have hlow' := le_scaled_iff (r := r) (d := d) (e := e) (r.value - r.below)
  have hhigh := le_scaled_iff (r := r) (d := d) (e := e) (r.value + r.above)
  have hhigh' := scaled_le_iff (r := r) (d := d) (e := e) (r.value + r.above)
  unfold contains Covers low high
  cases r.closed with
  | true =>
    simp only [if_true, Bool.and_eq_true, decide_eq_true_eq]
    exact and_congr hlow hhigh
  | false =>
    simp only [Bool.false_eq_true, if_false, Bool.and_eq_true, decide_eq_true_eq]
    exact and_congr (not_le.symm.trans ((not_congr hlow').trans not_le))
      (not_le.symm.trans ((not_congr hhigh').trans not_le))

theorem covers_onGrid (h : r.onGrid e = some d) : r.Covers (⟨d, e⟩ : Digits).toRat :=
  contains_iff.mp (List.find?_some (p := fun x => r.contains x e) h)

theorem toRat_exact (r : Reals) : r.exact.toRat = r.value * 2 ^ r.exponent := by
  have htwo := pow_toNat (b := 2) (by norm_num) r.exponent
  have hmin : (10 : ℚ) ^ min r.exponent 0 * 10 ^ (-r.exponent).toNat = 1 := by
    rw [← zpow_natCast, ← zpow_add₀ (by norm_num)]
    have hzero : min r.exponent 0 + ((-r.exponent).toNat : ℤ) = 0 := by omega
    rw [hzero, zpow_zero]
  have hten : (2 : ℚ) ^ (-r.exponent).toNat * 5 ^ (-r.exponent).toNat = 10 ^ (-r.exponent).toNat := by
    rw [← mul_pow]
    norm_num
  simp only [Digits.toRat, exact, Nat.pow_eq]
  push_cast
  rw [htwo]
  calc (r.value : ℚ) * (2 ^ r.exponent * 2 ^ (-r.exponent).toNat) * 5 ^ (-r.exponent).toNat *
        10 ^ min r.exponent 0
      = r.value * 2 ^ r.exponent *
          (10 ^ min r.exponent 0 * (2 ^ (-r.exponent).toNat * 5 ^ (-r.exponent).toNat)) := by ring
    _ = r.value * 2 ^ r.exponent := by rw [hten, hmin, mul_one]

structure Surrounds (r : Reals) : Prop where
  below : 0 < r.below
  within : r.below < r.value
  above : 0 < r.above

theorem Surrounds.covers_exact (h : r.Surrounds) : r.Covers r.exact.toRat := by
  have hunit : (0 : ℚ) < 2 ^ r.exponent := zpow_pos (by norm_num) _
  have hlow : r.low < r.exact.toRat := by
    have hlt : r.value - r.below < r.value := by have := h.below; have := h.within; omega
    rw [toRat_exact, low, mul_lt_mul_iff_of_pos_right hunit]
    exact_mod_cast hlt
  have hhigh : r.exact.toRat < r.high := by
    have hlt : r.value < r.value + r.above := Nat.lt_add_of_pos_right h.above
    rw [toRat_exact, high, mul_lt_mul_iff_of_pos_right hunit]
    exact_mod_cast hlt
  unfold Covers
  split
  · exact ⟨hlow.le, hhigh.le⟩
  · exact ⟨hlow, hhigh⟩

theorem Surrounds.covers_search (h : r.Surrounds) (k : Int) (tries n : Nat) :
    r.Covers (r.search k tries n).toRat := by
  induction tries generalizing n with
  | zero => exact h.covers_exact
  | succ tries ih =>
    unfold search
    cases hgrid : r.onGrid (k - n) with
    | none => exact ih (n + 1)
    | some d => exact covers_onGrid hgrid

end Reals

theorem stripZeros_eq (fuel n : Nat) : (stripZeros fuel n).1 * 10 ^ (stripZeros fuel n).2 = n := by
  induction fuel generalizing n with
  | zero => simp [stripZeros]
  | succ fuel ih =>
    unfold stripZeros
    by_cases hn : n % 10 = 0 ∧ n ≠ 0
    · rw [if_pos hn]
      have hrest := ih (n / 10)
      simp only [pow_succ, ← mul_assoc, hrest]
      omega
    · rw [if_neg hn]
      simp

namespace Reals

variable {r : Reals}

/-- The shortest decimal reads as the number. -/
theorem Surrounds.covers_shortest (h : r.Surrounds) : r.Covers r.shortest.toRat := by
  have hfound := h.covers_search r.magnitude 20 1
  have hstrip := stripZeros_eq 20 (r.search r.magnitude 20 1).digits
  have hsame : r.shortest.toRat = (r.search r.magnitude 20 1).toRat := by
    simp only [shortest, Digits.toRat]
    rw [zpow_add₀ (by norm_num), zpow_natCast, mul_comm ((10 : ℚ) ^ _), ← mul_assoc]
    congr 1
    exact_mod_cast hstrip
  rwa [hsame]

end Reals

/-- The numbers of a format in their order, counted from zero and in units of the least one. The place of
a number is its biased exponent and its fraction in one. -/
def grade (width n : Nat) : Nat :=
  if n / 2 ^ width = 0 then n % 2 ^ width
  else (2 ^ width + n % 2 ^ width) * 2 ^ (n / 2 ^ width - 1)

theorem place_div {width biased fraction : Nat} (h : fraction < 2 ^ width) :
    (biased * 2 ^ width + fraction) / 2 ^ width = biased := by
  rw [mul_comm, Nat.mul_add_div (Nat.two_pow_pos width), Nat.div_eq_of_lt h, add_zero]

theorem place_mod {width biased fraction : Nat} (h : fraction < 2 ^ width) :
    (biased * 2 ^ width + fraction) % 2 ^ width = fraction := by
  rw [mul_comm, Nat.mul_add_mod, Nat.mod_eq_of_lt h]

theorem grade_of_fields {width fraction : Nat} (biased : Nat) (h : fraction < 2 ^ width) :
    grade width (biased * 2 ^ width + fraction) =
      if biased = 0 then fraction else (2 ^ width + fraction) * 2 ^ (biased - 1) := by
  rw [grade, place_div h, place_mod h]

theorem grade_succ (width n : Nat) : grade width (n + 1) = grade width n + 2 ^ (n / 2 ^ width - 1) := by
  have hpos := Nat.two_pow_pos width
  have hn : n = n / 2 ^ width * 2 ^ width + n % 2 ^ width := by rw [mul_comm, Nat.div_add_mod]
  have hlt : n % 2 ^ width < 2 ^ width := Nat.mod_lt n hpos
  generalize n / 2 ^ width = biased at hn ⊢
  generalize n % 2 ^ width = fraction at hn hlt
  subst hn
  rw [grade_of_fields _ hlt]
  rcases Nat.lt_or_ge (fraction + 1) (2 ^ width) with hnext | hnext
  · rw [add_assoc, grade_of_fields _ hnext]
    split
    · simp [*]
    · ring
  · -- the fractions are used up, and the exponent goes up by one
    have hlast : fraction + 1 = 2 ^ width := by omega
    have hup : biased * 2 ^ width + fraction + 1 = (biased + 1) * 2 ^ width + 0 := by
      rw [add_assoc, hlast]
      ring
    rw [hup, grade_of_fields _ hpos, if_neg (Nat.succ_ne_zero biased)]
    cases biased with
    | zero => simp [hlast]
    | succ biased =>
      rw [if_neg (Nat.succ_ne_zero biased)]
      simp only [Nat.add_sub_cancel, add_zero, ← hlast]
      ring

theorem grade_strictMono (width : Nat) : StrictMono (grade width) :=
  strictMono_nat_of_lt_succ fun n => by
    rw [grade_succ]
    exact Nat.lt_add_of_pos_right (Nat.two_pow_pos _)

def middle (width n : Nat) : Nat := grade width n + grade width (n + 1)

theorem middle_strictMono (width : Nat) : StrictMono (middle width) := fun _ _ h =>
  Nat.add_lt_add (grade_strictMono width h) (grade_strictMono width (Nat.succ_lt_succ h))

section Before

variable {width n biased fraction : Nat}

theorem middle_add_step (width n : Nat) :
    middle width n + 2 ^ (n / 2 ^ width - 1) = 2 * grade width (n + 1) := by
  rw [middle, grade_succ]
  ring

theorem middle_before_subnormal (h : n + 1 < 2 ^ width) : middle width n + 1 = 2 * (n + 1) := by
  have hgrade := grade_of_fields 0 h
  rw [zero_mul, zero_add, if_pos rfl] at hgrade
  have hstep := middle_add_step width n
  rwa [hgrade, Nat.div_eq_of_lt (by omega)] at hstep

theorem middle_before_power (hn : n + 1 = (biased + 1) * 2 ^ width) :
    2 * middle width n + 2 ^ biased ≤ 4 * 2 ^ width * 2 ^ biased := by
  have hpos := Nat.two_pow_pos width
  have hplace : n / 2 ^ width = biased := by
    have hlast : n = biased * 2 ^ width + (2 ^ width - 1) := by
      rw [Nat.succ_mul] at hn
      omega
    rw [hlast, place_div (by omega)]
  have hgrade := grade_of_fields (biased + 1) hpos
  rw [add_zero, ← hn, if_neg (Nat.succ_ne_zero biased), Nat.add_sub_cancel, add_zero] at hgrade
  have hhalf : 2 ^ biased ≤ 2 * 2 ^ (biased - 1) := by
    rw [← pow_succ']
    exact Nat.pow_le_pow_right Nat.two_pos (by omega)
  have hstep := middle_add_step width n
  rw [hgrade, hplace] at hstep
  rw [mul_assoc]
  omega

theorem middle_before_normal (h : fraction < 2 ^ width) (hfraction : fraction ≠ 0)
    (hn : n + 1 = (biased + 1) * 2 ^ width + fraction) :
    middle width n + 2 ^ biased = 2 * ((2 ^ width + fraction) * 2 ^ biased) := by
  have hplace : n / 2 ^ width = biased + 1 := by
    have hbefore : n = (biased + 1) * 2 ^ width + (fraction - 1) := by omega
    rw [hbefore, place_div (by omega)]
  have hstep := middle_add_step width n
  rwa [hn, grade_of_fields _ h, hplace, if_neg (Nat.succ_ne_zero biased), Nat.add_sub_cancel] at hstep

end Before

namespace Reals

variable {width bias biased fraction : Nat}

def halfUnit (width bias : Nat) : ℚ := 2 ^ (-(bias + width : ℕ) : ℤ)

theorem halfUnit_pos (width bias : Nat) : 0 < halfUnit width bias := zpow_pos (by norm_num) _

theorem pow_biased (width bias biased : Nat) :
    (2 : ℚ) ^ (((biased + 1 : ℕ) : ℤ) - (bias + width : ℕ) - 1) = 2 ^ biased * halfUnit width bias := by
  rw [halfUnit, ← zpow_natCast, ← zpow_add₀ (by norm_num)]
  congr 1
  push_cast
  ring

theorem pow_biased_half (width bias biased : Nat) :
    (2 : ℚ) ^ (((biased + 1 : ℕ) : ℤ) - (bias + width : ℕ) - 2) =
      2 ^ biased * halfUnit width bias / 2 := by
  rw [← pow_biased, eq_div_iff (by norm_num), ← zpow_add_one₀ (by norm_num)]
  congr 1
  ring

theorem high_ofFields (h : fraction < 2 ^ width) :
    (ofFields width bias biased fraction).high =
      middle width (biased * 2 ^ width + fraction) * halfUnit width bias := by
  rw [middle, grade_succ, grade_of_fields _ h, place_div h]
  unfold ofFields high
  cases biased with
  | zero =>
    have hexponent : (1 - (bias + width : ℕ) - 1 : ℤ) = -(bias + width : ℕ) := by ring
    simp only [if_pos, hexponent, halfUnit, Nat.zero_sub, pow_zero]
    congr 2
    ring
  | succ biased =>
    simp only [if_neg (Nat.succ_ne_zero biased), Nat.add_sub_cancel]
    split
    · subst fraction
      simp only [pow_biased_half, Nat.pow_eq]
      push_cast
      ring
    · simp only [pow_biased, Nat.pow_eq]
      push_cast
      ring

theorem low_ofFields (bias : Nat) {n : Nat} (h : fraction < 2 ^ width)
    (hn : n + 1 = biased * 2 ^ width + fraction) :
    middle width n * halfUnit width bias ≤ (ofFields width bias biased fraction).low := by
  have hpos := Nat.two_pow_pos width
  unfold ofFields low
  cases biased with
  | zero =>
    obtain rfl : n + 1 = fraction := by omega
    have hmiddle := middle_before_subnormal h
    have hexponent : (1 - (bias + width : ℕ) - 1 : ℤ) = -(bias + width : ℕ) := by ring
    simp only [if_pos, hexponent, ← hmiddle, Nat.add_sub_cancel, halfUnit, le_refl]
  | succ biased =>
    have hunit := halfUnit_pos width bias
    simp only [if_neg (Nat.succ_ne_zero biased), Nat.pow_eq]
    split
    · subst fraction
      have hmiddle := middle_before_power hn
      rw [← Nat.cast_le (α := ℚ)] at hmiddle
      rw [pow_biased_half, Nat.cast_sub (by omega : 1 ≤ 4 * 2 ^ width)]
      push_cast at hmiddle ⊢
      calc (middle width n : ℚ) * halfUnit width bias
          ≤ (4 * 2 ^ width - 1) * 2 ^ biased / 2 * halfUnit width bias :=
            mul_le_mul_of_nonneg_right (by linarith) hunit.le
        _ = (4 * 2 ^ width - 1) * (2 ^ biased * halfUnit width bias / 2) := by ring
    · have hmiddle := middle_before_normal h ‹_› hn
      rw [← Nat.cast_inj (R := ℚ)] at hmiddle
      rw [pow_biased, Nat.cast_sub (by omega : 1 ≤ 2 * (2 ^ width + fraction))]
      push_cast at hmiddle ⊢
      calc (middle width n : ℚ) * halfUnit width bias
          ≤ (2 * (2 ^ width + fraction) - 1) * 2 ^ biased * halfUnit width bias :=
            mul_le_mul_of_nonneg_right (by linarith) hunit.le
        _ = (2 * (2 ^ width + fraction) - 1) * (2 ^ biased * halfUnit width bias) := by ring

theorem surrounds_ofFields (width bias : Nat) (h : biased ≠ 0 ∨ fraction ≠ 0) :
    (ofFields width bias biased fraction).Surrounds := by
  have hpow := Nat.two_pow_pos width
  unfold ofFields
  split
  · exact ⟨Nat.one_pos, by simp only; omega, Nat.one_pos⟩
  · split
    · exact ⟨Nat.one_pos, by simp only [Nat.pow_eq]; omega, Nat.two_pos⟩
    · exact ⟨Nat.one_pos, by simp only [Nat.pow_eq]; omega, Nat.one_pos⟩

theorem even_of_closed (hwidth : 0 < width) (h : (ofFields width bias biased fraction).closed = true) :
    (biased * 2 ^ width + fraction) % 2 = 0 := by
  have hfraction : fraction % 2 = 0 := by
    unfold ofFields at h
    split at h
    · simpa using h
    · split at h
      · omega
      · simpa using h
  have hpow : 2 ^ width % 2 = 0 := by
    obtain ⟨w, rfl⟩ := Nat.exists_eq_succ_of_ne_zero hwidth.ne'
    rw [pow_succ, Nat.mul_mod_left]
  rw [Nat.add_mod, Nat.mul_mod, hpow, hfraction, mul_zero, Nat.zero_mod]

theorem not_covers_of_lt {biased' fraction' : Nat} {x : ℚ} (hwidth : 0 < width)
    (h : fraction < 2 ^ width) (h' : fraction' < 2 ^ width)
    (hlt : biased * 2 ^ width + fraction < biased' * 2 ^ width + fraction')
    (hx : (ofFields width bias biased fraction).Covers x) :
    ¬ (ofFields width bias biased' fraction').Covers x := by
  intro hx'
  obtain ⟨n, hn⟩ := Nat.exists_eq_succ_of_ne_zero (Nat.ne_zero_of_lt hlt)
  have hunit := halfUnit_pos width bias
  have hbefore : middle width (biased * 2 ^ width + fraction) ≤ middle width n :=
    (middle_strictMono width).monotone (by omega)
  have hbefore' : (middle width (biased * 2 ^ width + fraction) : ℚ) * halfUnit width bias ≤
      middle width n * halfUnit width bias :=
    mul_le_mul_of_nonneg_right (by exact_mod_cast hbefore) hunit.le
  have hhigh := hx.between.2
  have hlow := hx'.between.1
  have hend := low_ofFields bias h' hn.symm
  rw [high_ofFields h] at hhigh
  -- so the two have one end in common, which both of them would have to count in
  have hmiddle : middle width (biased * 2 ^ width + fraction) = middle width n := by
    have hle := le_of_mul_le_mul_right (hend.trans (hlow.trans hhigh)) hunit
    exact le_antisymm hbefore (by exact_mod_cast hle)
  have hnext := (middle_strictMono width).injective hmiddle
  have hclosed := hx.closed_of_end (.inr (by
    rw [high_ofFields h]
    exact le_antisymm hhigh (hbefore'.trans (hend.trans hlow))))
  have hclosed' := hx'.closed_of_end (.inl (le_antisymm (hhigh.trans (hbefore'.trans hend)) hlow))
  have heven := even_of_closed hwidth hclosed
  have heven' := even_of_closed hwidth hclosed'
  omega

theorem eq_of_covers {biased' fraction' : Nat} {x : ℚ} (hwidth : 0 < width)
    (h : fraction < 2 ^ width) (h' : fraction' < 2 ^ width)
    (hx : (ofFields width bias biased fraction).Covers x)
    (hx' : (ofFields width bias biased' fraction').Covers x) :
    biased = biased' ∧ fraction = fraction' := by
  have hplace : biased * 2 ^ width + fraction = biased' * 2 ^ width + fraction' := by
    rcases lt_trichotomy (biased * 2 ^ width + fraction) (biased' * 2 ^ width + fraction') with
      hlt | heq | hlt
    · exact absurd hx' (not_covers_of_lt hwidth h h' hlt hx)
    · exact heq
    · exact absurd hx (not_covers_of_lt hwidth h' h hlt hx')
  have hdiv := congrArg (· / 2 ^ width) hplace
  have hmod := congrArg (· % 2 ^ width) hplace
  simp only [place_div h, place_div h', place_mod h, place_mod h'] at hdiv hmod
  exact ⟨hdiv, hmod⟩

/-- The shortest decimal is the shortest decimal of one number only. -/
theorem eq_of_shortest {biased' fraction' : Nat} (hwidth : 0 < width) (h : fraction < 2 ^ width)
    (h' : fraction' < 2 ^ width) (hpos : biased ≠ 0 ∨ fraction ≠ 0)
    (hpos' : biased' ≠ 0 ∨ fraction' ≠ 0)
    (hsame : (ofFields width bias biased fraction).shortest.toRat =
      (ofFields width bias biased' fraction').shortest.toRat) :
    biased = biased' ∧ fraction = fraction' := by
  have hx := (surrounds_ofFields width bias hpos).covers_shortest
  have hx' := (surrounds_ofFields width bias hpos').covers_shortest
  rw [← hsame] at hx'
  exact eq_of_covers hwidth h h' hx hx'

theorem Surrounds.shortest_pos {r : Reals} (h : r.Surrounds) : 0 < r.shortest.toRat := by
  refine lt_of_lt_of_le (mul_pos ?_ (zpow_pos (by norm_num) _)) h.covers_shortest.between.1
  have hlow := Nat.sub_pos_of_lt h.within
  exact_mod_cast hlow

end Reals

end MaterialModules.Decimal
