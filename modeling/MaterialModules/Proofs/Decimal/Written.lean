import MaterialModules.Decimal.Layout
import MaterialModules.Proofs.Decimal.Nearness
import Mathlib.Data.List.TakeWhile

set_option autoImplicit false

namespace MaterialModules.Decimal

def readPlain (cs : List Char) : ℚ :=
  Nat.ofDigitChars 10 (cs.filter (· ≠ '.')) 0 / 10 ^ ((cs.dropWhile (· ≠ '.')).length - 1)

theorem readPlain_whole {ds : List Char} (h : '.' ∉ ds) : readPlain ds = Nat.ofDigitChars 10 ds 0 := by
  have hall : ∀ c ∈ ds, decide (c ≠ '.') = true := fun c hc => decide_eq_true fun heq => h (heq ▸ hc)
  rw [readPlain, List.filter_eq_self.mpr hall, List.dropWhile_eq_nil_iff.mpr hall]
  simp

theorem readPlain_pointed {ds fs : List Char} (hds : '.' ∉ ds) (hfs : '.' ∉ fs) :
    readPlain (ds ++ '.' :: fs) = Nat.ofDigitChars 10 (ds ++ fs) 0 / 10 ^ fs.length := by
  have hall : ∀ cs : List Char, '.' ∉ cs → ∀ c ∈ cs, decide (c ≠ '.') = true := fun cs hcs c hc =>
    decide_eq_true fun heq => hcs (heq ▸ hc)
  have hfilter : (ds ++ '.' :: fs).filter (· ≠ '.') = ds ++ fs := by
    rw [List.filter_append, List.filter_cons_of_neg (by simp), List.filter_eq_self.mpr (hall ds hds),
      List.filter_eq_self.mpr (hall fs hfs)]
  have hdrop : (ds ++ '.' :: fs).dropWhile (· ≠ '.') = '.' :: fs := by
    rw [List.dropWhile_append_of_pos (hall ds hds), List.dropWhile_cons_of_neg (by simp)]
  rw [readPlain, hfilter, hdrop, List.length_cons, Nat.add_sub_cancel]

theorem ofDigitChars_zeros (ds : List Char) (n : Nat) :
    Nat.ofDigitChars 10 (ds ++ List.replicate n '0') 0 = Nat.ofDigitChars 10 ds 0 * 10 ^ n := by
  rw [Nat.ofDigitChars_append, Nat.ofDigitChars_replicate_zero, mul_comm]

namespace Layout

open Float.Model Float.Model.UnpackedFloat

variable {l : Layout}

theorem readPlain_plain (l : Layout) {ds : List Char} (h : '.' ∉ ds) (exponent : Int) :
    readPlain (l.plain ds exponent) = Nat.ofDigitChars 10 ds 0 * 10 ^ exponent := by
  have hzeros : ∀ n, '.' ∉ List.replicate n '0' := fun n hmem =>
    absurd (List.eq_of_mem_replicate hmem) (by decide)
  unfold plain
  split
  · rename_i hexponent
    obtain ⟨n, rfl⟩ := Int.eq_ofNat_of_zero_le hexponent
    have hwhole : '.' ∉ ds ++ List.replicate n '0' := by simp [h, hzeros n]
    rw [Int.toNat_natCast, zpow_natCast]
    cases l.pointed with
    | true =>
      have hzero : ['0'] = List.replicate 1 '0' := rfl
      rw [if_pos rfl, readPlain_pointed hwhole (by decide), hzero, ofDigitChars_zeros, ofDigitChars_zeros]
      push_cast
      simp
    | false =>
      rw [if_neg Bool.false_ne_true, List.append_nil, readPlain_whole hwhole, ofDigitChars_zeros]
      push_cast
      rfl
  · rename_i hexponent
    obtain ⟨n, rfl⟩ : ∃ n : ℕ, exponent = -n := ⟨(-exponent).toNat, by omega⟩
    simp only [neg_neg, Int.toNat_natCast]
    rw [zpow_neg, zpow_natCast, ← div_eq_mul_inv]
    split
    · rename_i hbehind
      have htake : '.' ∉ ds.take (ds.length - n) := fun hmem => h (List.mem_of_mem_take hmem)
      have hdrop : '.' ∉ ds.drop (ds.length - n) := fun hmem => h (List.mem_of_mem_drop hmem)
      rw [readPlain_pointed htake hdrop, List.take_append_drop, List.length_drop]
      congr 2
      omega
    · rename_i hbehind
      have hfraction : '.' ∉ List.replicate (n - ds.length) '0' ++ ds := by simp [h, hzeros]
      have hsplit : '0' :: '.' :: List.replicate (n - ds.length) '0' ++ ds =
          ['0'] ++ '.' :: (List.replicate (n - ds.length) '0' ++ ds) := rfl
      have hlength : (List.replicate (n - ds.length) '0' ++ ds).length = n := by
        rw [List.length_append, List.length_replicate]
        omega
      have hfront : ['0'] ++ (List.replicate (n - ds.length) '0' ++ ds) =
          List.replicate (n - ds.length + 1) '0' ++ ds := rfl
      rw [hsplit, readPlain_pointed (by decide) hfraction, hlength, hfront, Nat.ofDigitChars_append,
        Nat.ofDigitChars_replicate_zero, mul_zero]

def Positional (l : Layout) : Prop := l.positional = none

def isNumeral (c : Char) : Bool := c.isDigit || c = '.'

theorem point_notMem {ds : List Char} (h : ∀ c ∈ ds, c.isDigit = true) : '.' ∉ ds := fun hmem =>
  absurd (h '.' hmem) (by decide)

theorem mem_plain {ds : List Char} {exponent : Int} {c : Char} (h : c ∈ l.plain ds exponent) :
    c = '.' ∨ c = '0' ∨ c ∈ ds := by
  have htake := @List.mem_of_mem_take Char
  have hdrop := @List.mem_of_mem_drop Char
  unfold plain at h
  grind

theorem isNumeral_plain {ds : List Char} (h : ∀ c ∈ ds, c.isDigit = true) (exponent : Int) :
    ∀ c ∈ l.plain ds exponent, isNumeral c = true := by
  intro c hc
  rcases mem_plain hc with rfl | rfl | hc
  · decide
  · decide
  · exact Bool.or_eq_true_iff.mpr (.inl (h c hc))

theorem Positional.decimal (hl : l.Positional) (d : Digits) :
    readPlain (l.decimal d) = d.toRat ∧ ∀ c ∈ l.decimal d, isNumeral c = true := by
  have hplain : l.decimal d = l.plain (Nat.toDigits 10 d.digits) d.exponent := by
    unfold Layout.decimal
    rw [hl]
  have hdigits : ∀ c ∈ Nat.toDigits 10 d.digits, c.isDigit = true := fun _ =>
    Nat.isDigit_of_mem_toDigits (by decide) (by decide)
  rw [hplain]
  refine ⟨?_, isNumeral_plain hdigits d.exponent⟩
  rw [readPlain_plain l (point_notMem hdigits), Nat.ofDigitChars_ten_toDigits, Digits.toRat]

section Fields

variable {width bias special biased fraction biased' fraction' : Nat} {negative negative' : Bool}

def magnitude (l : Layout) (width bias special biased fraction : Nat) : List Char :=
  if biased = special then ['i', 'n', 'f']
  else if biased = 0 ∧ fraction = 0 then if l.pointed then ['0', '.', '0'] else ['0']
  else l.decimal (Reals.ofFields width bias biased fraction).shortest

theorem fields_eq (l : Layout) (width bias special : Nat) (negative : Bool) (biased fraction : Nat) :
    l.fields width bias special negative biased fraction =
      if biased = special ∧ fraction ≠ 0 then ['N', 'a', 'N']
      else (if negative then ['-'] else []) ++ l.magnitude width bias special biased fraction := by
  unfold fields magnitude
  by_cases hspecial : biased = special
  · by_cases hfraction : fraction = 0 <;> simp [hspecial, hfraction]
  · simp only [hspecial, if_false, false_and]
    split <;> rfl

theorem zero_eq_plain (l : Layout) :
    (if l.pointed then ['0', '.', '0'] else ['0']) = l.plain ['0'] 0 := by
  unfold plain
  split <;> rfl

theorem Positional.magnitude (hl : l.Positional) (h : biased ≠ special) :
    readPlain (l.magnitude width bias special biased fraction) =
        (if biased = 0 ∧ fraction = 0 then 0
          else (Reals.ofFields width bias biased fraction).shortest.toRat) ∧
      ∀ c ∈ l.magnitude width bias special biased fraction, isNumeral c = true := by
  unfold Layout.magnitude
  rw [if_neg h]
  split
  · rw [zero_eq_plain, readPlain_plain l (by decide)]
    exact ⟨by simp [Nat.ofDigitChars], isNumeral_plain (List.forall_mem_singleton.mpr rfl) 0⟩
  · exact hl.decimal _

theorem Positional.mark_notMem (hl : l.Positional) {c : Char} (hc : c = '-' ∨ c = 'N' ∨ c = ':') :
    c ∉ l.magnitude width bias special biased fraction := by
  by_cases h : biased = special
  · unfold Layout.magnitude
    rw [if_pos h]
    rcases hc with rfl | rfl | rfl <;> decide
  · intro hmem
    have hnumeral := (hl.magnitude h).2 c hmem
    rcases hc with rfl | rfl | rfl <;> exact absurd hnumeral (by decide)

theorem Positional.magnitude_ne_special (hl : l.Positional) (h : biased ≠ special) :
    l.magnitude width bias special biased fraction ≠
      l.magnitude width bias special special fraction' := by
  intro heq
  have hi : 'i' ∈ l.magnitude width bias special biased fraction := by
    rw [heq, Layout.magnitude, if_pos rfl]
    decide
  exact absurd ((hl.magnitude h).2 'i' hi) (by decide)

theorem Positional.eq_of_magnitude (hl : l.Positional) (hwidth : 0 < width)
    (h : fraction < 2 ^ width) (h' : fraction' < 2 ^ width)
    (hsame : l.magnitude width bias special biased fraction =
      l.magnitude width bias special biased' fraction') :
    biased = biased' ∧ (biased ≠ special → fraction = fraction') := by
  by_cases hspecial : biased = special
  · by_cases hspecial' : biased' = special
    · exact ⟨hspecial.trans hspecial'.symm, fun hne => absurd hspecial hne⟩
    · exact absurd (hspecial ▸ hsame.symm) (hl.magnitude_ne_special hspecial')
  by_cases hspecial' : biased' = special
  · exact absurd (hspecial' ▸ hsame) (hl.magnitude_ne_special hspecial)
  have hvalue := congrArg readPlain hsame
  rw [(hl.magnitude hspecial).1, (hl.magnitude hspecial').1] at hvalue
  have hpositive : ∀ {b f : Nat}, ¬ (b = 0 ∧ f = 0) →
      0 < (Reals.ofFields width bias b f).shortest.toRat := fun hne =>
    (Reals.surrounds_ofFields width bias (by tauto)).shortest_pos
  by_cases hzero : biased = 0 ∧ fraction = 0
  · by_cases hzero' : biased' = 0 ∧ fraction' = 0
    · exact ⟨hzero.1.trans hzero'.1.symm, fun _ => hzero.2.trans hzero'.2.symm⟩
    · rw [if_pos hzero, if_neg hzero'] at hvalue
      exact absurd hvalue (hpositive hzero').ne
  by_cases hzero' : biased' = 0 ∧ fraction' = 0
  · rw [if_neg hzero, if_pos hzero'] at hvalue
    exact absurd hvalue (hpositive hzero).ne'
  rw [if_neg hzero, if_neg hzero'] at hvalue
  obtain ⟨hb, hf⟩ := Reals.eq_of_shortest hwidth h h' (by tauto) (by tauto) hvalue
  exact ⟨hb, fun _ => hf⟩

theorem signed_inj {cs cs' : List Char} (h : '-' ∉ cs) (h' : '-' ∉ cs')
    (hsame : (if negative then ['-'] else []) ++ cs = (if negative' then ['-'] else []) ++ cs') :
    negative = negative' ∧ cs = cs' := by
  cases negative <;> cases negative'
  · exact ⟨rfl, hsame⟩
  · have hcs : cs = '-' :: cs' := hsame
    exact absurd (hcs ▸ List.mem_cons_self) h
  · have hcs : '-' :: cs = cs' := hsame
    exact absurd (hcs ▸ List.mem_cons_self) h'
  · exact ⟨rfl, List.cons_inj_right _ |>.mp hsame⟩

theorem Positional.signed_ne_nan (hl : l.Positional) :
    (if negative then ['-'] else []) ++ l.magnitude width bias special biased fraction ≠
      ['N', 'a', 'N'] := by
  intro heq
  have hmem : 'N' ∈ (if negative then ['-'] else []) ++ l.magnitude width bias special biased fraction :=
    heq ▸ List.mem_cons_self
  rcases List.mem_append.mp hmem with hmem | hmem
  · cases negative <;> simp at hmem
  · exact hl.mark_notMem (.inr (.inl rfl)) hmem

theorem Positional.eq_of_fields (hl : l.Positional) (hwidth : 0 < width)
    (h : fraction < 2 ^ width) (h' : fraction' < 2 ^ width)
    (hsame : l.fields width bias special negative biased fraction =
      l.fields width bias special negative' biased' fraction') :
    ((biased = special ∧ fraction ≠ 0) ∧ biased' = special ∧ fraction' ≠ 0) ∨
      (negative = negative' ∧ biased = biased' ∧ fraction = fraction') := by
  rw [fields_eq, fields_eq] at hsame
  by_cases hnan : biased = special ∧ fraction ≠ 0
  · by_cases hnan' : biased' = special ∧ fraction' ≠ 0
    · exact .inl ⟨hnan, hnan'⟩
    · rw [if_pos hnan, if_neg hnan'] at hsame
      exact absurd hsame.symm hl.signed_ne_nan
  by_cases hnan' : biased' = special ∧ fraction' ≠ 0
  · rw [if_neg hnan, if_pos hnan'] at hsame
    exact absurd hsame hl.signed_ne_nan
  rw [if_neg hnan, if_neg hnan'] at hsame
  obtain ⟨hsign, hmagnitude⟩ :=
    signed_inj (hl.mark_notMem (.inl rfl)) (hl.mark_notMem (.inl rfl)) hsame
  obtain ⟨hbiased, hfraction⟩ := hl.eq_of_magnitude hwidth h h' hmagnitude
  refine .inr ⟨hsign, hbiased, ?_⟩
  by_cases hspecial : biased = special
  · -- both of them are infinite
    have hzero : fraction = 0 := by tauto
    have hzero' : fraction' = 0 := by
      rw [hbiased] at hspecial
      tauto
    rw [hzero, hzero']
  · exact hfraction hspecial

end Fields

theorem toBits_of_nan {x : Float32} (hspecial : (x.toBits.toNat >>> 23) % 256 = 255)
    (hfraction : x.toBits.toNat % (1 <<< 23) ≠ 0) :
    x.toBits.toBitVec = packedNaN Format.binary32 := by
  have hmodel : x.toModel.toBits = x.toBits := rfl
  refine x.toModel.valid.eq_packedNaN (BitVec.eq_of_toNat_eq ?_) fun hzero => hfraction ?_
  · simpa [unpackExponent, BitVec.extractLsb, hmodel] using hspecial
  · have htoNat := congrArg BitVec.toNat hzero
    simpa [unpackMantissa, BitVec.extractLsb, hmodel] using htoNat

/-- Different numbers of single width have different texts. -/
theorem Positional.single_injective (hl : l.Positional) : Function.Injective l.single := by
  intro x y h
  have hbits : x.toBits = y.toBits := by
    have hlt : ∀ n, n % (1 <<< 23) < 2 ^ 23 := fun n => Nat.mod_lt n (by decide)
    rcases hl.eq_of_fields (by decide) (hlt _) (hlt _) h with
      ⟨⟨hx, hx'⟩, hy, hy'⟩ | ⟨hsign, hbiased, hfraction⟩
    · have hnan := (toBits_of_nan hx hx').trans (toBits_of_nan hy hy').symm
      exact UInt32.toBitVec_inj.mp hnan
    · have hxlt := x.toBits.toNat_lt
      have hylt := y.toBits.toNat_lt
      have hunit : 1 <<< 23 = 2 ^ 23 := rfl
      rw [decide_eq_decide] at hsign
      simp only [Nat.shiftRight_eq_div_pow, hunit] at hsign hbiased hfraction
      refine UInt32.toNat_inj.mp ?_
      omega
  obtain ⟨⟨bits, valid⟩⟩ := x
  obtain ⟨⟨bits', valid'⟩⟩ := y
  obtain rfl : bits = bits' := hbits
  rfl

theorem Positional.colon_notMem (hl : l.Positional) (x : Float32) : ':' ∉ l.single x := by
  rw [single, fields_eq]
  split
  · decide
  · intro hmem
    rcases List.mem_append.mp hmem with hmem | hmem
    · split at hmem <;> simp at hmem
    · exact hl.mark_notMem (.inr (.inr rfl)) hmem

end Layout

end MaterialModules.Decimal
