import MaterialModules.Decimal.Shortest

set_option autoImplicit false

namespace MaterialModules.Decimal

/-- The least real that reads as infinite: it lies half a step above the largest finite number. -/
def overflowLimit : Nat := Nat.pow 2 1024 - Nat.pow 2 970

/-- Whether a decimal is at least a positive limit. The power of ten is worked out only where a
comparison of lengths leaves it open, as exponents may be of any size. -/
def Digits.reaches (limit : Nat) (d : Digits) : Bool :=
  match d.exponent with
  | .ofNat e => d.digits ≠ 0 && (limit.log2 < e || limit ≤ d.digits * Nat.pow 10 e)
  | .negSucc e => e < d.digits.log2 && limit * Nat.pow 10 (e + 1) ≤ d.digits

def Digits.overflows (d : Digits) : Bool := d.reaches overflowLimit

theorem lt_pow_ten {n e : Nat} (h : n.log2 < e) : n < Nat.pow 10 e :=
  Nat.lt_of_lt_of_le
    (Nat.lt_of_lt_of_le Nat.lt_log2_self (Nat.pow_le_pow_right (by decide : 0 < 2) h))
    (Nat.pow_le_pow_left (by decide : 2 ≤ 10) e)

theorem reaches_ofNat {limit n e : Nat} (h : 0 < limit) :
    Digits.reaches limit ⟨n, .ofNat e⟩ = true ↔ limit ≤ n * Nat.pow 10 e := by
  simp only [Digits.reaches, Bool.and_eq_true, Bool.or_eq_true, decide_eq_true_eq]
  constructor
  · rintro ⟨hn, he | he⟩
    · exact Nat.le_trans (Nat.le_of_lt (lt_pow_ten he))
        (Nat.le_mul_of_pos_left _ (Nat.pos_of_ne_zero hn))
    · exact he
  · intro he
    refine ⟨?_, .inr he⟩
    rintro rfl
    omega

theorem reaches_negSucc {limit n e : Nat} (h : 0 < limit) :
    Digits.reaches limit ⟨n, .negSucc e⟩ = true ↔ limit * Nat.pow 10 (e + 1) ≤ n := by
  simp only [Digits.reaches, Bool.and_eq_true, decide_eq_true_eq]
  refine ⟨And.right, fun he => ⟨?_, he⟩⟩
  refine Nat.lt_of_not_le fun hn => ?_
  have := lt_pow_ten (Nat.lt_succ_of_le hn)
  exact Nat.lt_irrefl n
    (Nat.lt_of_lt_of_le (Nat.lt_of_lt_of_le this (Nat.le_mul_of_pos_left _ h)) he)

end MaterialModules.Decimal
