import Mathlib
import CompressedSensing.Decimal.Binary
import CompressedSensing.Proofs.Scalar.Ordered
/-!
# Rational numbers with infinities and NaN

Machine arithmetic without rounding: finite numbers are exact rationals, and what has no finite
answer is infinite or a NaN by the rules of the machine formats, except that there is one zero.
The laws of comparisons and norms hold here, so none of them rests on numbers being finite.

Square roots of rationals are rounded down to the denominator of their argument, which makes
every operation computable.
-/

namespace CompressedSensing

/-- A rational number, an infinity or a NaN. -/
inductive Extended where
  | nan
  | infinite (negative : Bool)
  | finite (value : ℚ)
deriving DecidableEq

namespace Extended

/-- The place of a number on the extended line; a NaN has none. -/
def place? : Extended → Option (WithBot (WithTop ℚ))
  | nan => none
  | infinite true => some ⊥
  | infinite false => some (⊤ : WithTop ℚ)
  | finite a => some (a : WithTop ℚ)

/-- Compares two places; a number without a place compares with nothing. -/
def compareWith (test : WithBot (WithTop ℚ) → WithBot (WithTop ℚ) → Bool) (a b : Extended) :
    Bool :=
  match a.place?, b.place? with
  | some x, some y => test x y
  | _, _ => false

def neg : Extended → Extended
  | nan => nan
  | infinite s => infinite !s
  | finite a => finite (-a)

def add : Extended → Extended → Extended
  | nan, _ => nan
  | _, nan => nan
  | infinite s, infinite t => if s = t then infinite s else nan
  | infinite s, finite _ => infinite s
  | finite _, infinite t => infinite t
  | finite a, finite b => finite (a + b)

def mul : Extended → Extended → Extended
  | nan, _ => nan
  | _, nan => nan
  | infinite s, infinite t => infinite (s != t)
  | infinite s, finite b => if b = 0 then nan else infinite (s != decide (b < 0))
  | finite a, infinite t => if a = 0 then nan else infinite (t != decide (a < 0))
  | finite a, finite b => finite (a * b)

def inv : Extended → Extended
  | nan => nan
  | infinite _ => finite 0
  | finite a => if a = 0 then infinite false else finite a⁻¹

/-- The square root, rounded down to a multiple of one over the denominator. -/
def sqrt : Extended → Extended
  | nan => nan
  | infinite s => if s then nan else infinite false
  | finite a => if a < 0 then nan else finite (Nat.sqrt (a.num.toNat * a.den) / a.den)

def abs : Extended → Extended
  | nan => nan
  | infinite _ => infinite false
  | finite a => finite |a|

/-- The number that a machine number stands for. -/
def ofBinary : Binary → Extended
  | .nan => nan
  | .infinite s => infinite s
  | .finite v => finite ((if v.negative then -1 else 1) * v.mantissa * 2 ^ v.exponent)

instance : RealLike Extended where
  zero := finite 0
  one := finite 1
  add := add
  sub a b := add a b.neg
  mul := mul
  div a b := mul a b.inv
  neg := neg
  beq := compareWith fun x y => decide (x = y)
  lt := compareWith fun x y => decide (x < y)
  le := compareWith fun x y => decide (x ≤ y)
  sqrt := sqrt
  abs := abs
  hypot a b := if a.abs = infinite false ∨ b.abs = infinite false then infinite false
    else sqrt (add (mul a a) (mul b b))
  isNaN a := decide (a = nan)
  isFinite
    | finite _ => true
    | _ => false
  ofNat n := finite n
  decimal m e := finite (m / 10 ^ e)
  ofFloat a := ofBinary (Format.double.decode a.toBits.toNat)
  -- nothing is rounded, however small
  epsilon := finite 0
  minPositive := finite 0

instance : Scalar Extended Extended where
  conj a := a
  modulus := RealLike.abs
  normSq a := a * a
  re a := a
  im _ := 0
  ofParts a _ := a
  ofReal a := a
  isZero := RealLike.isZero
  isFinite := RealLike.isFinite
  isComplex := false

instance : DecimalText Extended where
  plain
    | nan => "NaN"
    | infinite s => if s then "-inf" else "inf"
    | finite a => toString a
  pointed
    | nan => "NaN"
    | infinite s => if s then "-inf" else "inf"
    | finite a => toString a

/-! ## The laws -/

/-- Every number has a place on the extended line. -/
lemma exists_place {a : Extended} (h : RealLike.isNaN a = false) : ∃ x, a.place? = some x := by
  cases a with
  | nan => cases h
  | infinite s => cases s <;> exact ⟨_, rfl⟩
  | finite a => exact ⟨_, rfl⟩

/-- A comparison holds only between numbers, and then of their places. -/
lemma compareWith_eq_true {test : WithBot (WithTop ℚ) → WithBot (WithTop ℚ) → Bool}
    {a b : Extended} :
    compareWith test a b = true ↔
      ∃ x y, a.place? = some x ∧ b.place? = some y ∧ test x y = true := by
  unfold compareWith
  cases a.place? <;> cases b.place? <;> simp

lemma le_iff {a b : Extended} :
    RealLike.le a b = true ↔ ∃ x y, a.place? = some x ∧ b.place? = some y ∧ x ≤ y := by
  show compareWith _ a b = true ↔ _
  rw [compareWith_eq_true]
  simp only [decide_eq_true_iff]

lemma isNaN_of_place {a : Extended} {x : WithBot (WithTop ℚ)} (h : a.place? = some x) :
    RealLike.isNaN a = false := by
  cases a with
  | nan => cases h
  | infinite s => rfl
  | finite a => rfl

instance : OrderLaws Extended where
  le_refl a ha := by
    rcases exists_place ha with ⟨x, hx⟩
    exact le_iff.2 ⟨x, x, hx, hx, le_rfl⟩
  le_trans a b c hab hbc := by
    rcases le_iff.1 hab with ⟨x, y, hx, hy, hxy⟩
    rcases le_iff.1 hbc with ⟨y', z, hy', hz, hyz⟩
    rw [hy, Option.some.injEq] at hy'
    exact le_iff.2 ⟨x, z, hx, hz, hxy.trans (hy' ▸ hyz)⟩
  le_total a b ha hb := by
    rcases exists_place ha with ⟨x, hx⟩
    rcases exists_place hb with ⟨y, hy⟩
    rcases le_total x y with h | h
    · exact .inl (le_iff.2 ⟨x, y, hx, hy, h⟩)
    · exact .inr (le_iff.2 ⟨y, x, hy, hx, h⟩)
  isNaN_left a b h := by
    rcases le_iff.1 h with ⟨x, y, hx, -, -⟩
    exact isNaN_of_place hx
  isNaN_right a b h := by
    rcases le_iff.1 h with ⟨x, y, -, hy, -⟩
    exact isNaN_of_place hy
  lt_iff a b := by
    show compareWith _ a b = true ↔ compareWith _ a b = true ∧ compareWith _ b a = false
    unfold compareWith
    cases a.place? with
    | none => simp
    | some x =>
      cases b.place? with
      | none => simp
      | some y =>
        show decide (x < y) = true ↔ decide (x ≤ y) = true ∧ decide (y ≤ x) = false
        rw [decide_eq_true_iff, decide_eq_true_iff, decide_eq_false_iff_not, lt_iff_le_not_ge]

/-- What is not negative is a rational number or positive infinity. -/
lemma zero_le_iff {a : Extended} :
    RealLike.le 0 a = true ↔ a = infinite false ∨ ∃ q, 0 ≤ q ∧ a = finite q := by
  have hzero : place? 0 = some (((0 : ℚ) : WithTop ℚ) : WithBot (WithTop ℚ)) := rfl
  rw [le_iff, hzero]
  cases a with
  | nan => simp [place?]
  | infinite s => cases s <;> simp [place?]
  | finite q => simp [place?]

instance : NormLaws Extended Extended where
  zero_le_zero := zero_le_iff.2 (.inr ⟨0, le_rfl, rfl⟩)
  zero_le_add a b ha hb := by
    rw [zero_le_iff] at ha hb ⊢
    rcases ha with rfl | ⟨p, hp, rfl⟩
    · left
      rcases hb with rfl | ⟨q, -, rfl⟩ <;> rfl
    · rcases hb with rfl | ⟨q, hq, rfl⟩
      · exact .inl rfl
      · exact .inr ⟨p + q, add_nonneg hp hq, rfl⟩
  zero_le_sqrt a ha := by
    rw [zero_le_iff] at ha ⊢
    rcases ha with rfl | ⟨q, hq, rfl⟩
    · exact .inl rfl
    · refine .inr ⟨_, ?_, if_neg (not_lt.2 hq)⟩
      positivity
  zero_le_normSq z hz := by
    cases z with
    | nan => cases hz
    | infinite s => cases hz
    | finite q => exact zero_le_iff.2 (.inr ⟨q * q, mul_self_nonneg q, rfl⟩)
  normSq_sub_zero z w hz hw := by
    have hwzero : w = finite 0 := by
      rcases compareWith_eq_true.1 hw with ⟨x, y, hx, hy, hxy⟩
      have hyz : y = (((0 : ℚ) : WithTop ℚ) : WithBot (WithTop ℚ)) := (Option.some.inj hy).symm
      rw [of_decide_eq_true hxy, hyz] at hx
      cases w with
      | nan => cases hx
      | infinite s =>
        cases s with
        | true => exact absurd (Option.some.inj hx) WithBot.bot_ne_coe
        | false =>
          have := WithBot.coe_injective (Option.some.inj hx)
          exact absurd this WithTop.top_ne_coe
      | finite q =>
        have := WithBot.coe_injective (Option.some.inj hx)
        rw [WithTop.coe_injective this]
    cases z with
    | nan => cases hz
    | infinite s => cases hz
    | finite q =>
      rw [hwzero]
      show finite ((q + -0) * (q + -0)) = finite (q * q)
      rw [neg_zero, add_zero]

lemma le_finite_iff {p q : ℚ} : RealLike.le (finite p) (finite q) = true ↔ p ≤ q := by
  show decide _ = true ↔ _
  rw [decide_eq_true_iff, WithBot.coe_le_coe, WithTop.coe_le_coe]

instance : ZeroLaws Extended Extended where
  isZero_zero := rfl
  isZero_of_modulus_le z h := by
    cases z with
    | nan => cases h
    | infinite s => cases h
    | finite q =>
      have hle : |q| ≤ |0| := le_finite_iff.1 h
      rw [abs_zero, abs_nonpos_iff] at hle
      rw [hle]
      rfl

end Extended
end CompressedSensing
