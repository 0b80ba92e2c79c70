import LittleScheme.Native.Call
import LittleScheme.Proofs.Computation
import LittleScheme.Proofs.Nearest
import Mathlib.Algebra.Order.Field.Rat
import Mathlib.Data.Rat.Floor
import Mathlib.Tactic.FieldSimp
import Mathlib.Tactic.Linarith

/-!
# Exact arithmetic

Operations on integers against the operations of mathematics. Remainders are those of the rational
quotient, truncated or floored. They fit in 64 bits for all operands, but are refused for the one pair
of operands whose quotient does not. Powers are computed by repeated squaring, and every product on
the way fits if the power does.
-/
namespace LittleScheme.Number

/-! ### The range of integers -/

theorem fit?_eq_some_iff {n : Int} {m : Int64} : fit? n = some m ↔ m.toInt = n := by
  have hlow := m.le_toInt
  have hhigh := m.toInt_lt
  unfold fit? least greatest
  constructor
  · intro h
    split at h
    · cases h
      exact Int64.toInt_ofInt_of_le (by omega) (by omega)
    · cases h
  · rintro rfl
    rw [if_pos (by omega), Int64.ofInt_toInt]

theorem fit?_eq_none_iff {n : Int} : fit? n = none ↔ n < least ∨ greatest < n := by
  unfold fit?
  split <;> simp <;> omega

/-- The integers of 64 bits. -/
theorem exists_toInt_iff {n : Int} : (∃ m : Int64, m.toInt = n) ↔ least ≤ n ∧ n ≤ greatest := by
  have h := fit?_eq_none_iff (n := n)
  cases hn : fit? n with
  | none =>
      rw [hn] at h
      constructor
      · rintro ⟨m, hm⟩
        rw [fit?_eq_some_iff.2 hm] at hn
        cases hn
      · have := h.1 rfl
        omega
  | some m =>
      rw [hn] at h
      refine ⟨fun _ => ?_, fun _ => ⟨m, fit?_eq_some_iff.1 hn⟩⟩
      have : ¬ (n < least ∨ greatest < n) := fun hout => by cases h.2 hout
      omega

theorem toInt_ne_zero {b : Int64} (hb : b ≠ 0) : b.toInt ≠ 0 :=
  fun h => hb (Int64.toInt_inj.1 h)

/-! ### Division -/

/-- The whole number next to a rational in the direction of zero. -/
def truncated (q : ℚ) : ℤ := if 0 ≤ q then ⌊q⌋ else ⌈q⌉

/-- A remainder that is less than the divisor and has its sign. -/
structure IsFlooredRemainder (a b q m : Int) : Prop where
  eq : a = b * q + m
  of_pos : 0 < b → 0 ≤ m ∧ m < b
  of_neg : b < 0 → b < m ∧ m ≤ 0

/-- A remainder that is less than the divisor and has the sign of the dividend. -/
structure IsTruncatedRemainder (a b q r : Int) : Prop where
  eq : a = b * q + r
  lt : r.natAbs < b.natAbs
  of_nonneg : 0 ≤ a → 0 ≤ r
  of_nonpos : a ≤ 0 → r ≤ 0

theorem div_eq_add {a b q m : Int} (hb : b ≠ 0) (h : a = b * q + m) :
    (a : ℚ) / b = q + (m : ℚ) / b := by
  have hb' : (b : ℚ) ≠ 0 := by exact_mod_cast hb
  rw [h]
  push_cast
  field_simp

theorem IsFlooredRemainder.floor {a b q m : Int} (hb : b ≠ 0) (h : IsFlooredRemainder a b q m) :
    ⌊(a : ℚ) / b⌋ = q := by
  have hfraction : 0 ≤ (m : ℚ) / b ∧ (m : ℚ) / b < 1 := by
    rcases Int.lt_or_gt_of_ne hb with hneg | hpos
    · obtain ⟨hlt, hle⟩ := h.of_neg hneg
      have hb' : (b : ℚ) < 0 := by exact_mod_cast hneg
      refine ⟨div_nonneg_of_nonpos (by exact_mod_cast hle) hb'.le, ?_⟩
      rw [div_lt_one_of_neg hb']
      exact_mod_cast hlt
    · obtain ⟨hle, hlt⟩ := h.of_pos hpos
      have hb' : (0 : ℚ) < b := by exact_mod_cast hpos
      refine ⟨div_nonneg (by exact_mod_cast hle) hb'.le, ?_⟩
      rw [div_lt_one hb']
      exact_mod_cast hlt
  rw [div_eq_add hb h.eq, Int.floor_intCast_add, Int.floor_eq_zero_iff.2 hfraction, add_zero]

theorem isTruncatedRemainder_tmod (a : Int) {b : Int} (hb : b ≠ 0) :
    IsTruncatedRemainder a b (a.tdiv b) (a.tmod b) where
  eq := by rw [Int.mul_tdiv_add_tmod]
  lt := by
    rw [Int.natAbs_tmod]
    exact Nat.mod_lt _ (Int.natAbs_pos.2 hb)
  of_nonneg := Int.tmod_nonneg b
  of_nonpos := fun ha => by
    have h := Int.tmod_nonneg b (Int.neg_nonneg_of_nonpos ha)
    rw [Int.neg_tmod] at h
    omega

theorem isFlooredRemainder_signedByDivisor (a : Int) {b : Int} (hb : b ≠ 0) :
    ∃ q, IsFlooredRemainder a b q (signedByDivisor a b) := by
  have hdiv := Int.mul_ediv_add_emod a b
  have hnonneg := Int.emod_nonneg a hb
  have hlt := Int.emod_lt a hb
  simp only [signedByDivisor]
  split
  · refine ⟨a / b - 1, ?_, by omega, by omega⟩
    rw [Int.mul_sub, Int.mul_one]
    omega
  · exact ⟨a / b, hdiv.symm, by omega, by omega⟩

theorem IsTruncatedRemainder.floored {a b q r : Int} (h : IsTruncatedRemainder a b q r)
    (hsign : 0 < b ∧ 0 ≤ a ∨ b < 0 ∧ a ≤ 0) : IsFlooredRemainder a b q r := by
  have hlt := h.lt
  refine ⟨h.eq, fun hb => ?_, fun hb => ?_⟩
  · have := h.of_nonneg (by omega)
    omega
  · have := h.of_nonpos (by omega)
    omega

theorem IsTruncatedRemainder.neg {a b q r : Int} (h : IsTruncatedRemainder a b q r) :
    IsTruncatedRemainder (-a) b (-q) (-r) where
  eq := by rw [h.eq, Int.mul_neg, Int.neg_add]
  lt := by rw [Int.natAbs_neg]; exact h.lt
  of_nonneg := fun ha => by have := h.of_nonpos (by omega); omega
  of_nonpos := fun ha => by have := h.of_nonneg (by omega); omega

theorem IsTruncatedRemainder.truncated {a b q r : Int} (hb : b ≠ 0)
    (h : IsTruncatedRemainder a b q r) : truncated ((a : ℚ) / b) = q := by
  unfold Number.truncated
  split
  · rename_i hquotient
    have hsign : 0 ≤ a ∧ 0 ≤ b ∨ a ≤ 0 ∧ b ≤ 0 := by exact_mod_cast div_nonneg_iff.1 hquotient
    exact (h.floored (by omega)).floor hb
  · rename_i hquotient
    have hsign : 0 < a ∧ b < 0 ∨ a < 0 ∧ 0 < b := by
      exact_mod_cast div_neg_iff.1 (lt_of_not_ge hquotient)
    have hfloor := (h.neg.floored (by omega)).floor hb
    rw [Int.cast_neg, neg_div, Int.floor_neg] at hfloor
    omega

/-- The truncated quotient fits for all operands but one pair. -/
theorem fit?_tdiv_eq_none_iff {a b : Int64} (hb : b ≠ 0) :
    fit? (a.toInt.tdiv b.toInt) = none ↔ a = Int64.minValue ∧ b = -1 := by
  have hlow := a.le_toInt
  have hhigh := a.toInt_lt
  have hb' := toInt_ne_zero hb
  rw [fit?_eq_none_iff, least, greatest]
  constructor
  · intro hout
    have hmagnitude : (a.toInt.tdiv b.toInt).natAbs = a.toInt.natAbs / b.toInt.natAbs :=
      Int.natAbs_tdiv _ _
    have hunit : b.toInt.natAbs < 2 := by
      by_contra hlarge
      have hhalf : a.toInt.natAbs / b.toInt.natAbs ≤ a.toInt.natAbs / 2 :=
        Nat.div_le_div_left (by omega) (by decide)
      omega
    have hminus : b.toInt = -1 := by
      by_contra hne
      rw [show b.toInt = 1 by omega, Int.tdiv_one] at hout
      omega
    rw [hminus, Int.tdiv_neg, Int.tdiv_one] at hout
    have hleast : a.toInt = Int64.minValue.toInt := by
      rw [Int64.toInt_minValue]
      omega
    exact ⟨Int64.toInt_inj.1 hleast, Int64.toInt_inj.1 hminus⟩
  · rintro ⟨rfl, rfl⟩
    decide

theorem wholeDivision_integer (operation : String) (onInt : Int → Int → Int)
    (onFloat : Float → Float → Float) {a b : Int64} (hb : b ≠ 0) :
    wholeDivision operation onInt onFloat (.integer a) (.integer b) =
      if a = Int64.minValue ∧ b = -1 then .error (.overflow operation)
      else exact operation (onInt a.toInt b.toInt) := by
  have hzero : (integer b).isZero = false := by
    rw [Bool.eq_false_iff, ne_eq, isZero_integer]
    exact hb
  have hfit := fit?_tdiv_eq_none_iff (a := a) hb
  simp only [wholeDivision, isInteger, Bool.not_true, Bool.or_self, Bool.false_eq_true, if_false,
    hzero]
  cases hquotient : fit? (a.toInt.tdiv b.toInt) with
  | none => rw [if_pos (hfit.1 hquotient)]
  | some q =>
      rw [if_neg fun h => by rw [hfit.2 h] at hquotient; cases hquotient]

theorem exact_toInt (operation : String) (n : Int64) :
    exact operation n.toInt = .ok (.integer n) := by
  rw [exact, fit?_eq_some_iff.2 rfl]

theorem IsTruncatedRemainder.sign_eq {a b q r : Int} (h : IsTruncatedRemainder a b q r) :
    r = 0 ∨ r.sign = a.sign := by
  have hnonneg := h.of_nonneg
  have hnonpos := h.of_nonpos
  rcases Int.lt_trichotomy r 0 with hr | hr | hr
  · exact .inr (by rw [Int.sign_eq_neg_one_of_neg hr, Int.sign_eq_neg_one_of_neg (by omega)])
  · exact .inl hr
  · exact .inr (by rw [Int.sign_eq_one_of_pos hr, Int.sign_eq_one_of_pos (by omega)])

theorem IsFlooredRemainder.sign_eq {a b q m : Int} (hb : b ≠ 0) (h : IsFlooredRemainder a b q m) :
    m = 0 ∨ m.sign = b.sign := by
  have hpos := h.of_pos
  have hneg := h.of_neg
  rcases Int.lt_trichotomy m 0 with hm | hm | hm
  · exact .inr (by rw [Int.sign_eq_neg_one_of_neg hm, Int.sign_eq_neg_one_of_neg (by omega)])
  · exact .inl hm
  · exact .inr (by rw [Int.sign_eq_one_of_pos hm, Int.sign_eq_one_of_pos (by omega)])

theorem IsFlooredRemainder.natAbs_lt {a b q m : Int} (hb : b ≠ 0)
    (h : IsFlooredRemainder a b q m) : m.natAbs < b.natAbs := by
  have hpos := h.of_pos
  have hneg := h.of_neg
  omega

/-- A number less than a 64-bit integer in magnitude is one. -/
theorem exists_toInt_of_natAbs_lt {n : Int} {b : Int64} (h : n.natAbs < b.toInt.natAbs) :
    ∃ m : Int64, m.toInt = n := by
  have hlow := b.le_toInt
  have hhigh := b.toInt_lt
  rw [exists_toInt_iff, least, greatest]
  omega

/-- Remainders of integers are those of the rational quotient. Both fit in 64 bits for all operands
with a divisor other than zero, and both are the answers unless the quotient itself overflows. -/
theorem integer_remainders_exact (a b : Int64) (hb : b ≠ 0) :
    ∃ r m : Int64,
      r.toInt = a.toInt - b.toInt * truncated ((a.toInt : ℚ) / b.toInt) ∧
      m.toInt = a.toInt - b.toInt * ⌊(a.toInt : ℚ) / b.toInt⌋ ∧
      (r.toInt = 0 ∨ r.toInt.sign = a.toInt.sign) ∧ (m.toInt = 0 ∨ m.toInt.sign = b.toInt.sign) ∧
      r.toInt.natAbs < b.toInt.natAbs ∧ m.toInt.natAbs < b.toInt.natAbs ∧
      if a = Int64.minValue ∧ b = -1 then
        remainder (.integer a) (.integer b) = .error (.overflow "remainder") ∧
        modulo (.integer a) (.integer b) = .error (.overflow "modulo") ∧
        quotient (.integer a) (.integer b) = .error (.overflow "quotient")
      else
        remainder (.integer a) (.integer b) = .ok (.integer r) ∧
        modulo (.integer a) (.integer b) = .ok (.integer m) ∧
        ∃ q : Int64, quotient (.integer a) (.integer b) = .ok (.integer q) ∧
          q.toInt * b.toInt + r.toInt = a.toInt := by
  have hb' := toInt_ne_zero hb
  have htruncated := isTruncatedRemainder_tmod a.toInt hb'
  obtain ⟨floored, hfloored⟩ := isFlooredRemainder_signedByDivisor a.toInt hb'
  obtain ⟨r, hr⟩ := exists_toInt_of_natAbs_lt htruncated.lt
  obtain ⟨m, hm⟩ := exists_toInt_of_natAbs_lt (hfloored.natAbs_lt hb')
  have hrEq := htruncated.eq
  have hmEq := hfloored.eq
  refine ⟨r, m, ?_, ?_, hr ▸ htruncated.sign_eq, hm ▸ hfloored.sign_eq hb', hr ▸ htruncated.lt,
    hm ▸ hfloored.natAbs_lt hb', ?_⟩
  · rw [htruncated.truncated hb', hr]
    omega
  · rw [hfloored.floor hb', hm]
    omega
  · simp only [remainder, modulo, quotient, wholeDivision_integer _ _ _ hb, ← hr, ← hm, exact_toInt]
    split
    · exact ⟨rfl, rfl, rfl⟩
    · rename_i hpair
      have hquotient := mt (fit?_tdiv_eq_none_iff (a := a) hb).1 hpair
      obtain ⟨q, hq⟩ := Option.ne_none_iff_exists'.1 hquotient
      rw [fit?_eq_some_iff] at hq
      refine ⟨rfl, rfl, q, by rw [← hq, exact_toInt], ?_⟩
      rw [hq, hr, Int.mul_comm]
      omega

/-- The signs of a divisor and a dividend show in different remainders. -/
theorem integer_remainders_exact_seven :
    remainder (.integer 7) (.integer (-2)) = .ok (.integer 1) ∧
      modulo (.integer 7) (.integer (-2)) = .ok (.integer (-1)) := by
  obtain ⟨r, m, hr, hm, -, -, -, -, h⟩ := integer_remainders_exact 7 (-2) (by decide)
  rw [if_neg (by decide)] at h
  have htruncated : truncated ((7 : ℚ) / -2) = -3 := by
    rw [truncated, if_neg (by norm_num), Int.ceil_eq_iff]
    norm_num
  have hfloor : ⌊(7 : ℚ) / -2⌋ = -4 := by
    rw [Int.floor_eq_iff]
    norm_num
  have hrEq : r = 1 := Int64.toInt_inj.1 (hr.trans (by simp [htruncated]))
  have hmEq : m = -1 := Int64.toInt_inj.1 (hm.trans (by simp [hfloor]))
  exact ⟨hrEq ▸ h.1, hmEq ▸ h.2.1⟩

/-! ### Powers -/

/-- A product with a positive factor overflows when the other factor does. -/
theorem fit?_mul_eq_none {x y : Int} (hy : 1 ≤ y) (hx : fit? x = none) : fit? (x * y) = none := by
  rw [fit?_eq_none_iff, least, greatest] at hx ⊢
  rcases hx with hx | hx
  · left
    nlinarith
  · right
    nlinarith

/-- No square lies next to the range of 64 bits, so a multiple of a square that overflows does not come
back to the least integer. -/
theorem fit?_mul_square_eq_none {x base : Int} {k : Nat} (hx : x ≠ 0) (hk : 0 < k)
    (hbase : fit? (base * base) = none) : fit? (x * (base * base) ^ k) = none := by
  rw [fit?_eq_none_iff, least, greatest] at hbase
  have hsquare : 9223372036854775808 < base * base := by
    have hlarge : 3037000500 ≤ base.natAbs := by
      by_contra hsmall
      have hlow : -3037000499 ≤ base := by omega
      have hhigh : base ≤ 3037000499 := by omega
      rcases hbase with hbase | hbase <;> nlinarith
    have hmul := Nat.mul_le_mul hlarge hlarge
    have hnonneg := mul_self_nonneg base
    rw [← Int.natAbs_mul] at hmul
    omega
  have hpower : base * base ≤ (base * base) ^ k :=
    le_self_pow₀ (by omega) (by omega)
  rw [fit?_eq_none_iff, least, greatest]
  rcases Int.lt_or_gt_of_ne hx with hneg | hpos
  · left
    nlinarith
  · right
    nlinarith

theorem pow_of_even (base : Int) {n : Nat} (hn : n % 2 = 0) :
    base ^ n = (base * base) ^ (n / 2) := by
  rw [← pow_two, ← pow_mul, Nat.mul_div_cancel' (Nat.dvd_of_mod_eq_zero hn)]

theorem pow_of_odd (base : Int) {n : Nat} (hn : n % 2 = 1) :
    base ^ n = base * (base * base) ^ (n / 2) := by
  rw [← pow_two, ← pow_mul, ← pow_succ', show 2 * (n / 2) + 1 = n by omega]

/-- The loop multiplies by the whole power, or stops because the result does not fit. In `acc` a zero
arises from a zero base only. -/
theorem timesPower?_eq (acc base : Int64) {n : Nat} (hn : 0 < n)
    (hzero : acc.toInt = 0 → base.toInt = 0) :
    timesPower? acc base n = fit? (acc.toInt * base.toInt ^ n) := by
  induction n using Nat.strong_induction_on generalizing acc base with
  | _ n ih =>
      rw [timesPower?]
      split
      · obtain rfl : n = 1 := by omega
        rw [pow_one, times?]
      -- What is left to do once the base has been squared.
      have hrest (acc' : Int64) (hzero' : acc'.toInt = 0 → base.toInt = 0) :
          (do timesPower? acc' (← times? base base) (n / 2)) =
            fit? (acc'.toInt * (base.toInt * base.toInt) ^ (n / 2)) := by
        cases hsquare : times? base base with
        | none =>
            refine (fit?_mul_square_eq_none (fun h => ?_) (by omega) hsquare).symm
            rw [times?, hzero' h] at hsquare
            cases hsquare
        | some square =>
            rw [times?, fit?_eq_some_iff] at hsquare
            rw [← hsquare]
            exact ih (n / 2) (by omega) acc' square (by omega) fun h => by rw [hsquare, hzero' h, mul_zero]
      split
      · rename_i hodd
        rw [pow_of_odd _ hodd, ← mul_assoc]
        cases hproduct : times? acc base with
        | none =>
            have hbase : base.toInt ≠ 0 := by
              intro h
              rw [times?, h, mul_zero] at hproduct
              cases hproduct
            have hsquare := pow_pos (mul_self_pos.2 hbase) (n / 2)
            exact (fit?_mul_eq_none hsquare hproduct).symm
        | some product =>
            rw [times?, fit?_eq_some_iff] at hproduct
            rw [← hproduct]
            refine hrest product fun h => ?_
            rw [hproduct] at h
            exact (mul_eq_zero.1 h).elim hzero id
      · rename_i hodd
        rw [pow_of_even _ (by omega)]
        exact hrest acc hzero

theorem power?_eq (a : Int64) (n : Nat) : power? a n = fit? (a.toInt ^ n) := by
  unfold power?
  split
  · rename_i hn
    rw [hn, pow_zero]
    rfl
  · rw [timesPower?_eq 1 a (by omega) (by intro h; cases h), Int64.toInt_one, one_mul]

/-- Large powers fit only for the bases 0, 1 and -1. -/
theorem natAbs_le_one_of_power_fits {a : Int} {n : Nat} (hn : 64 ≤ n)
    (hpower : least ≤ a ^ n ∧ a ^ n ≤ greatest) : a.natAbs ≤ 1 := by
  by_contra hbase
  have hmagnitude : 2 ^ 64 ≤ (a ^ n).natAbs := by
    rw [Int.natAbs_pow]
    calc 2 ^ 64 ≤ 2 ^ n := Nat.pow_le_pow_right (by decide) hn
      _ ≤ a.natAbs ^ n := Nat.pow_le_pow_left (by omega) n
  rw [least, greatest] at hpower
  omega

theorem expt_integer (a b : Int64) (hb : 0 ≤ b.toInt) :
    expt (.integer a) (.integer b) =
      if exponentLimit ≤ b.toInt then .error (.overflow "expt")
      else exact "expt" (a.toInt ^ b.toInt.toNat) := by
  rw [expt, if_neg (by omega), power?_eq]
  rfl

theorem run_binary (name : String) (op : Number → Number → Result) (a b : Number) (s : Store) :
    (Native.Numeric.binary name op (.number a) (.number b)).run s =
      match op a b with
      | .ok n => .ok (.number n) s
      | .error fault => .error (.error (.failed (.arithmetic fault) .none)) s := by
  change (do return Value.number (← Eval.ofArithmetic (op a b)) : Eval Value).run s = _
  cases op a b <;> rfl

theorem run_call_expt (a b : Int64) (s : Store) :
    ((Native.numeric .expt).call [.integer a, .integer b]).run s =
      match expt (.integer a) (.integer b) with
      | .ok n => .ok (.value (.number n)) s
      | .error fault => .error (.error (.failed (.arithmetic fault) .none)) s := by
  change (Native.Numeric.binary "expt" expt (.integer a) (.integer b) >>= fun v =>
    pure (Native.Reply.value v)).run s = _
  rw [Eval.run_bind, Value.integer, Value.integer, run_binary]
  cases expt (.integer a) (.integer b) <;> rfl

/-- An integer to a natural power is exact if it fits, and fails for overflow if it does not. Exponents
from `2 ^ 32` on are refused for every base, also for 0, 1 and -1, whose powers always fit. -/
theorem integer_power_exact (a b : Int64) (hb : 0 ≤ b.toInt) (s : Store) :
    ∃ overflow : Error, overflow.message = "expt: integer overflow" ∧
      (least ≤ a.toInt ^ b.toInt.toNat ∧ a.toInt ^ b.toInt.toNat ≤ greatest →
        if a.toInt.natAbs ≤ 1 ∧ 2 ^ 32 ≤ b.toInt then
          ((Native.numeric .expt).call [.integer a, .integer b]).run s = .error (.error overflow) s
        else
          ∃ n : Int64, n.toInt = a.toInt ^ b.toInt.toNat ∧
            ((Native.numeric .expt).call [.integer a, .integer b]).run s =
              .ok (.value (.integer n)) s) ∧
      (¬ (least ≤ a.toInt ^ b.toInt.toNat ∧ a.toInt ^ b.toInt.toNat ≤ greatest) →
        ((Native.numeric .expt).call [.integer a, .integer b]).run s =
          .error (.error overflow) s) := by
  refine ⟨.failed (.arithmetic (.overflow "expt")) .none, rfl, fun hfits => ?_, fun hout => ?_⟩
  · rw [run_call_expt, expt_integer a b hb]
    by_cases hrefused : a.toInt.natAbs ≤ 1 ∧ 2 ^ 32 ≤ b.toInt
    · rw [if_pos hrefused, if_pos (show exponentLimit ≤ b.toInt from hrefused.2)]
    · have hsmall : ¬ exponentLimit ≤ b.toInt := fun hlarge =>
        hrefused
          ⟨natAbs_le_one_of_power_fits (by rw [exponentLimit] at hlarge; omega) hfits, hlarge⟩
      obtain ⟨n, hn⟩ := exists_toInt_iff.2 hfits
      rw [if_neg hrefused, if_neg hsmall, ← hn, exact_toInt]
      exact ⟨n, rfl, rfl⟩
  · rw [run_call_expt, expt_integer a b hb]
    by_cases hlarge : exponentLimit ≤ b.toInt
    · rw [if_pos hlarge]
    · rw [if_neg hlarge, Number.exact, fit?_eq_none_iff.2 (by omega)]

/-- The least integer is a power. -/
theorem integer_power_exact_least :
    ((Native.numeric .expt).call [.integer (-2), .integer 63]).run {} =
      .ok (.value (.integer Int64.minValue)) {} := by
  obtain ⟨overflow, -, h, -⟩ := integer_power_exact (-2) 63 (by decide) {}
  have hpower : (-2 : Int64).toInt ^ (63 : Int64).toInt.toNat = Int64.minValue.toInt := by decide
  rw [hpower, if_neg (by decide)] at h
  obtain ⟨n, hn, hrun⟩ := h (by decide)
  rw [hrun, Int64.toInt_inj.1 hn]

end LittleScheme.Number
