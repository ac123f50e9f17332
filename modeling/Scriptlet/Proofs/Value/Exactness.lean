import Mathlib.Data.Int.Order.Basic
import Mathlib.Tactic.Positivity
import Scriptlet.Evaluation.Scripted
import Scriptlet.Value.Operator

/-!
# Integer operators are exact

An operator on integers gives the integer that arithmetic gives, or fails where that one does not
fit into a word. The overflow checks compute with the bounds of a word themselves. Written out once
more with arithmetic that refuses what does not fit, they never meet a refusal and find the same.
-/

namespace Scriptlet

/-- Whether an integer fits into a word. -/
def FitsWord (n : Int) : Prop := -2 ^ 63 ≤ n ∧ n ≤ 2 ^ 63 - 1

instance (n : Int) : Decidable (FitsWord n) :=
  inferInstanceAs (Decidable (-2 ^ 63 ≤ n ∧ n ≤ 2 ^ 63 - 1))

/-- An operation on integers is exact: it gives the integer `n` if `p` holds, and raises an
arithmetic error if not. -/
structure Exact (x : Except Cause Value) (p : Prop) (n : Int) : Prop where
  given : p → ∃ r : Int64, x = .ok (.int r) ∧ r.toInt = n
  refused : ¬ p → ∃ cause, x = .error cause ∧ cause.kind = .arithmeticError

/-! ### Words as integers -/

private theorem fitsWord_toInt (a : Int64) : FitsWord a.toInt := by
  have hl := a.le_toInt
  have hu := a.toInt_lt
  unfold FitsWord
  omega

private theorem FitsWord.bmod {n : Int} (h : FitsWord n) : n.bmod (2 ^ 64) = n := by
  obtain ⟨hl, hu⟩ := h
  exact Int.bmod_eq_of_le (by omega) (by omega)

private theorem eq_minValue_iff (a : Int64) : a = Int64.minValue ↔ a.toInt = -2 ^ 63 := by
  rw [← Int64.toInt_inj, Int64.toInt_minValue]

private theorem eq_zero_iff (a : Int64) : a = 0 ↔ a.toInt = 0 := by
  rw [← Int64.toInt_inj, Int64.toInt_zero]

private theorem eq_neg_one_iff (a : Int64) : a = -1 ↔ a.toInt = -1 := by
  rw [← Int64.toInt_inj]
  rfl

private theorem toInt_add_of_fits {a b : Int64} (h : FitsWord (a.toInt + b.toInt)) :
    (a + b).toInt = a.toInt + b.toInt :=
  (Int64.toInt_add a b).trans h.bmod

private theorem toInt_sub_of_fits {a b : Int64} (h : FitsWord (a.toInt - b.toInt)) :
    (a - b).toInt = a.toInt - b.toInt :=
  (Int64.toInt_sub a b).trans h.bmod

private theorem toInt_mul_of_fits {a b : Int64} (h : FitsWord (a.toInt * b.toInt)) :
    (a * b).toInt = a.toInt * b.toInt :=
  (Int64.toInt_mul a b).trans h.bmod

private theorem toInt_div_of_fits {a b : Int64} (h : ¬ (a = Int64.minValue ∧ b = -1)) :
    (a / b).toInt = a.toInt.tdiv b.toInt := by
  by_cases ha : a = Int64.minValue
  · exact Int64.toInt_div_of_ne_right a b fun hb ↦ h ⟨ha, hb⟩
  · exact Int64.toInt_div_of_ne_left a b ha

private theorem toInt_neg_of_ne (a : Int64) (h : a.toInt ≠ -2 ^ 63) : (-a).toInt = -a.toInt := by
  have ha := fitsWord_toInt a
  have hfits : FitsWord (-a.toInt) := by
    unfold FitsWord at *
    omega
  exact (Int64.toInt_neg a).trans hfits.bmod

/-! ### Arithmetic with the bounds -/

variable {a b : Int64}

private theorem maxValue_sub_fits (hb : 0 < b) : FitsWord (Int64.maxValue.toInt - b.toInt) := by
  have := (fitsWord_toInt b).2
  rw [Int64.lt_iff_toInt_lt, Int64.toInt_zero] at hb
  rw [FitsWord, Int64.toInt_maxValue]
  omega

private theorem minValue_sub_fits (hb : b < 0) : FitsWord (Int64.minValue.toInt - b.toInt) := by
  have := (fitsWord_toInt b).1
  rw [Int64.lt_iff_toInt_lt, Int64.toInt_zero] at hb
  rw [FitsWord, Int64.toInt_minValue]
  omega

private theorem maxValue_add_fits (hb : b < 0) : FitsWord (Int64.maxValue.toInt + b.toInt) := by
  have := (fitsWord_toInt b).1
  rw [Int64.lt_iff_toInt_lt, Int64.toInt_zero] at hb
  rw [FitsWord, Int64.toInt_maxValue]
  omega

private theorem minValue_add_fits (hb : 0 < b) : FitsWord (Int64.minValue.toInt + b.toInt) := by
  have := (fitsWord_toInt b).2
  rw [Int64.lt_iff_toInt_lt, Int64.toInt_zero] at hb
  rw [FitsWord, Int64.toInt_minValue]
  omega

/-! ### Refusing arithmetic -/

/-- The word for an integer, if there is one. -/
def word? (n : Int) : Option Int64 :=
  if FitsWord n then some (Int64.ofInt n) else none

/-- The sum of two words, if it fits. -/
def sum? (a b : Int64) : Option Int64 := word? (a.toInt + b.toInt)

/-- The difference of two words, if it fits. -/
def difference? (a b : Int64) : Option Int64 := word? (a.toInt - b.toInt)

/-- The quotient of two words, if there is one and it fits. -/
def quotient? (a b : Int64) : Option Int64 := if b = 0 then none else word? (a.toInt.tdiv b.toInt)

/-- A part of a check that is computed only if the sign before it holds. -/
def guarded? (p : Prop) [Decidable p] (q : Option Bool) : Option Bool := if p then q else some false

/-- The check for sums, where no difference may overflow; the second part is computed only if the
first one does not hold. -/
def addOverflows? (a b : Int64) : Option Bool := do
  if ← guarded? (0 < b) ((· < a) <$> difference? Int64.maxValue b) then some true
  else guarded? (b < 0) ((a < ·) <$> difference? Int64.minValue b)

/-- The check for differences, where no sum may overflow. -/
def subOverflows? (a b : Int64) : Option Bool := do
  if ← guarded? (b < 0) ((· < a) <$> sum? Int64.maxValue b) then some true
  else guarded? (0 < b) ((a < ·) <$> sum? Int64.minValue b)

/-- The check for products, where no quotient may overflow or have zero below. -/
def mulOverflows? (a b : Int64) : Option Bool :=
  if a = 0 || b = 0 then some false
  else if a = -1 then some (b = Int64.minValue)
  else if b = -1 then some (a = Int64.minValue)
  else if 0 < a then
    if 0 < b then (· < a) <$> quotient? Int64.maxValue b else (b < ·) <$> quotient? Int64.minValue a
  else
    if 0 < b then (a < ·) <$> quotient? Int64.minValue b
    else (a < ·) <$> quotient? Int64.maxValue b

private theorem word?_eq {n : Int} {a : Int64} (hn : FitsWord n) (ha : a.toInt = n) :
    word? n = some a := by
  rw [word?, if_pos hn, ← ha, Int64.ofInt_toInt]

private theorem sum?_eq {a b : Int64} (h : FitsWord (a.toInt + b.toInt)) :
    sum? a b = some (a + b) :=
  word?_eq h (toInt_add_of_fits h)

private theorem difference?_eq {a b : Int64} (h : FitsWord (a.toInt - b.toInt)) :
    difference? a b = some (a - b) :=
  word?_eq h (toInt_sub_of_fits h)

private theorem quotient?_eq {a b : Int64} (hb : b ≠ 0) (h : ¬ (a = Int64.minValue ∧ b = -1)) :
    quotient? a b = some (a / b) := by
  have hq := toInt_div_of_fits h
  rw [quotient?, if_neg hb]
  exact word?_eq (hq ▸ fitsWord_toInt _) hq

/-! ### The checks compute nothing that overflows -/

private theorem guarded?_eq {p : Prop} [Decidable p] {x : Option Int64} {r : Int64}
    (f : Int64 → Bool) (h : p → x = some r) : guarded? p (f <$> x) = some (decide p && f r) := by
  unfold guarded?
  split
  · next hp => simp [h hp, hp]
  · next hp => simp [hp]

private theorem addOverflows?_eq (a b : Int64) : addOverflows? a b = some (addOverflows a b) := by
  rw [addOverflows?, guarded?_eq _ fun hb ↦ difference?_eq (maxValue_sub_fits hb),
    guarded?_eq _ fun hb ↦ difference?_eq (minValue_sub_fits hb)]
  unfold addOverflows
  cases decide (0 < b) && decide (Int64.maxValue - b < a) <;> rfl

private theorem subOverflows?_eq (a b : Int64) : subOverflows? a b = some (subOverflows a b) := by
  rw [subOverflows?, guarded?_eq _ fun hb ↦ sum?_eq (maxValue_add_fits hb),
    guarded?_eq _ fun hb ↦ sum?_eq (minValue_add_fits hb)]
  unfold subOverflows
  cases decide (b < 0) && decide (Int64.maxValue + b < a) <;> rfl

private theorem mulOverflows?_eq (a b : Int64) : mulOverflows? a b = some (mulOverflows a b) := by
  unfold mulOverflows? mulOverflows
  by_cases hz : a = 0 || b = 0
  · rw [if_pos hz, if_pos hz]
  · obtain ⟨ha, hb⟩ : a ≠ 0 ∧ b ≠ 0 := by simpa using hz
    rw [if_neg hz, if_neg hz]
    by_cases ha1 : a = -1
    · rw [if_pos ha1, if_pos ha1]
    · by_cases hb1 : b = -1
      · rw [if_neg ha1, if_neg ha1, if_pos hb1, if_pos hb1]
      · rw [quotient?_eq hb fun h ↦ hb1 h.2, quotient?_eq ha fun h ↦ ha1 h.2,
          quotient?_eq hb fun h ↦ hb1 h.2]
        simp only [ha1, hb1, if_false, Option.map_eq_map, Option.map_some]
        split <;> split <;> rfl

/-! ### The checks are right -/

private theorem addOverflows_iff (a b : Int64) :
    addOverflows a b = true ↔ ¬ FitsWord (a.toInt + b.toInt) := by
  have ha := fitsWord_toInt a
  have hmax (hb : 0 < b) := toInt_sub_of_fits (maxValue_sub_fits hb)
  have hmin (hb : b < 0) := toInt_sub_of_fits (minValue_sub_fits hb)
  simp only [addOverflows, Bool.or_eq_true, Bool.and_eq_true, decide_eq_true_eq]
  simp only [Int64.lt_iff_toInt_lt, Int64.toInt_zero, Int64.toInt_maxValue, Int64.toInt_minValue,
    FitsWord] at *
  constructor
  · rintro (⟨hb, h⟩ | ⟨hb, h⟩)
    · rw [hmax hb] at h
      omega
    · rw [hmin hb] at h
      omega
  · intro h
    by_cases hb : 0 < b.toInt
    · rw [hmax hb]
      omega
    · rw [hmin (by omega)]
      omega

private theorem subOverflows_iff (a b : Int64) :
    subOverflows a b = true ↔ ¬ FitsWord (a.toInt - b.toInt) := by
  have ha := fitsWord_toInt a
  have hmax (hb : b < 0) := toInt_add_of_fits (maxValue_add_fits hb)
  have hmin (hb : 0 < b) := toInt_add_of_fits (minValue_add_fits hb)
  simp only [subOverflows, Bool.or_eq_true, Bool.and_eq_true, decide_eq_true_eq]
  simp only [Int64.lt_iff_toInt_lt, Int64.toInt_zero, Int64.toInt_maxValue, Int64.toInt_minValue,
    FitsWord] at *
  constructor
  · rintro (⟨hb, h⟩ | ⟨hb, h⟩)
    · rw [hmax hb] at h
      omega
    · rw [hmin hb] at h
      omega
  · intro h
    by_cases hb : b.toInt < 0
    · rw [hmax hb]
      omega
    · rw [hmin (by omega)]
      omega

private theorem max_tdiv_lt_iff {x y : Int} (hx : 0 < x) (hy : 0 < y) :
    (2 ^ 63 - 1 : Int).tdiv y < x ↔ ¬ FitsWord (x * y) := by
  have hpos := Int.mul_pos hx hy
  rw [Int.tdiv_eq_ediv_of_nonneg (by decide), Int.ediv_lt_iff_lt_mul hy, FitsWord]
  omega

private theorem lt_max_tdiv_iff {x y : Int} (hx : x < 0) (hy : y < 0) :
    x < (2 ^ 63 - 1 : Int).tdiv y ↔ ¬ FitsWord (x * y) := by
  have hneg := max_tdiv_lt_iff (Int.neg_pos_of_neg hx) (Int.neg_pos_of_neg hy)
  rw [Int.tdiv_neg, Int.neg_mul_neg] at hneg
  rw [← hneg]
  exact neg_lt_neg_iff.symm

private theorem lt_min_tdiv_iff {x y : Int} (hx : 0 < x) (hy : y < 0) :
    y < (-2 ^ 63 : Int).tdiv x ↔ ¬ FitsWord (x * y) := by
  have hneg := Int.mul_neg_of_pos_of_neg hx hy
  have hlt := Int.ediv_lt_iff_lt_mul (a := 2 ^ 63) (b := -y) hx
  rw [Int.neg_mul, Int.mul_comm] at hlt
  rw [Int.neg_tdiv, Int.tdiv_eq_ediv_of_nonneg (by decide), FitsWord]
  omega

private theorem mulOverflows_iff_of_ne (ha : a ≠ 0) (hb : b ≠ 0) (ha1 : a ≠ -1) (hb1 : b ≠ -1) :
    mulOverflows a b = true ↔ ¬ FitsWord (a.toInt * b.toInt) := by
  have hmax := toInt_div_of_fits (a := Int64.maxValue) fun h ↦ hb1 h.2
  have hmin (d : Int64) (hd : d ≠ -1) := toInt_div_of_fits (a := Int64.minValue) fun h ↦ hd h.2
  rw [Int64.toInt_maxValue] at hmax
  simp only [Int64.toInt_minValue] at hmin
  have hz : ¬ (a = 0 || b = 0) = true := by simp [ha, hb]
  rw [mulOverflows, if_neg hz, if_neg ha1, if_neg hb1]
  rw [ne_eq, eq_zero_iff] at ha hb
  simp only [Int64.lt_iff_toInt_lt, Int64.toInt_zero, hmax, hmin a ha1, hmin b hb1]
  split
  · next hpa =>
    split
    · next hpb => rw [decide_eq_true_eq, max_tdiv_lt_iff hpa hpb]
    · next hpb => rw [decide_eq_true_eq, lt_min_tdiv_iff hpa (by omega)]
  · next hpa =>
    split
    · next hpb => rw [decide_eq_true_eq, lt_min_tdiv_iff hpb (by omega), Int.mul_comm]
    · next hpb => rw [decide_eq_true_eq, lt_max_tdiv_iff (by omega) (by omega)]

private theorem mulOverflows_iff (a b : Int64) :
    mulOverflows a b = true ↔ ¬ FitsWord (a.toInt * b.toInt) := by
  have ha := fitsWord_toInt a
  have hb := fitsWord_toInt b
  unfold FitsWord at ha hb
  by_cases hz : a = 0 || b = 0
  · have h : a.toInt * b.toInt = 0 := by
      rw [Bool.or_eq_true, decide_eq_true_eq, decide_eq_true_eq, eq_zero_iff, eq_zero_iff] at hz
      exact Int.mul_eq_zero.mpr hz
    rw [mulOverflows, if_pos hz, h]
    decide
  · obtain ⟨ha0, hb0⟩ : a ≠ 0 ∧ b ≠ 0 := by simpa using hz
    by_cases ha1 : a = -1
    · have h : a.toInt * b.toInt = - b.toInt := by
        rw [(eq_neg_one_iff a).mp ha1, Int.neg_one_mul]
      rw [mulOverflows, if_neg hz, if_pos ha1, h, decide_eq_true_eq, eq_minValue_iff, FitsWord]
      omega
    · by_cases hb1 : b = -1
      · have h : a.toInt * b.toInt = - a.toInt := by
          rw [(eq_neg_one_iff b).mp hb1, Int.mul_neg_one]
        rw [mulOverflows, if_neg hz, if_neg ha1, if_pos hb1, h, decide_eq_true_eq, eq_minValue_iff,
          FitsWord]
        omega
      · exact mulOverflows_iff_of_ne ha0 hb0 ha1 hb1

/-! ### Shifts -/

private theorem toNat_smod_of_lt {b : Int64} (h : 0 ≤ b.toInt ∧ b.toInt ≤ 63) :
    (b.toBitVec.smod 64).toNat = b.toInt.toNat := by
  have hmod : (b.toBitVec.smod 64).toInt = b.toInt := by
    rw [BitVec.toInt_smod, Int64.toInt_toBitVec, show (64 : BitVec 64).toInt = 64 by decide]
    exact Int.fmod_eq_of_lt h.1 (by omega)
  rw [BitVec.toInt_eq_toNat_cond] at hmod
  split at hmod <;> omega

private theorem toInt_shiftLeft {b : Int64} (a : Int64) (h : 0 ≤ b.toInt ∧ b.toInt ≤ 63) :
    (a <<< b).toInt = (a.toInt * 2 ^ b.toInt.toNat).bmod (2 ^ 64) := by
  rw [← Int64.toInt_toBitVec (a <<< b), Int64.toBitVec_shiftLeft, BitVec.shiftLeft_eq',
    toNat_smod_of_lt h, BitVec.toInt_shiftLeft, Nat.shiftLeft_eq, ← Int64.toInt_toBitVec a,
    BitVec.toInt_eq_toNat_bmod, Int.bmod_mul_bmod]
  norm_cast

private theorem toInt_shiftRight {b : Int64} (a : Int64) (h : 0 ≤ b.toInt ∧ b.toInt ≤ 63) :
    (a >>> b).toInt = a.toInt.fdiv (2 ^ b.toInt.toNat) := by
  rw [← Int64.toInt_toBitVec (a >>> b), Int64.toBitVec_shiftRight, BitVec.sshiftRight_eq',
    toNat_smod_of_lt h, BitVec.toInt_sshiftRight, Int.shiftRight_eq_div_pow, Int64.toInt_toBitVec,
    Int.fdiv_eq_ediv_of_nonneg _ (by positivity)]
  norm_cast

/-! ### Operators -/

namespace Exact

variable {x : Except Cause Value} {p q : Prop} {n : Int}

private theorem ite {refused : Prop} [Decidable refused] {cause : Cause} {r : Int64}
    (hc : cause.kind = .arithmeticError) (hp : refused ↔ ¬ p) (hr : p → r.toInt = n) :
    Exact (if refused then .error cause else .ok (.int r)) p n where
  given h := ⟨r, if_neg fun hn ↦ hp.mp hn h, hr h⟩
  refused h := ⟨cause, if_pos (hp.mpr h), hc⟩

/-- Sums. -/
theorem add (a b : Int64) :
    Exact (BinaryOp.add.onInts a b) (FitsWord (a.toInt + b.toInt)) (a.toInt + b.toInt) :=
  ite rfl (addOverflows_iff a b) toInt_add_of_fits

/-- Differences. -/
theorem sub (a b : Int64) :
    Exact (BinaryOp.sub.onInts a b) (FitsWord (a.toInt - b.toInt)) (a.toInt - b.toInt) :=
  ite rfl (subOverflows_iff a b) toInt_sub_of_fits

/-- Products. -/
theorem mul (a b : Int64) :
    Exact (BinaryOp.mul.onInts a b) (FitsWord (a.toInt * b.toInt)) (a.toInt * b.toInt) :=
  ite rfl (mulOverflows_iff a b) toInt_mul_of_fits

/-- Quotients. -/
theorem div (a b : Int64) :
    Exact (BinaryOp.div.onInts a b) (¬ (b.toInt = 0 ∨ (a.toInt = -2 ^ 63 ∧ b.toInt = -1)))
      (a.toInt.tdiv b.toInt) := by
  rw [← eq_zero_iff, ← eq_minValue_iff, ← eq_neg_one_iff, not_or]
  by_cases hb : b = 0
  · exact ⟨fun h ↦ absurd hb h.1, fun _ ↦ ⟨.divisionByZero, if_pos hb, rfl⟩⟩
  · rw [BinaryOp.onInts, if_neg hb]
    exact ite rfl (by simp [hb]) fun h ↦ toInt_div_of_fits h.2

/-- Remainders. -/
theorem rem (a b : Int64) :
    Exact (BinaryOp.rem.onInts a b) (b.toInt ≠ 0) (a.toInt - b.toInt * a.toInt.tdiv b.toInt) := by
  rw [ne_eq, ← eq_zero_iff]
  refine ⟨fun hb ↦ ?_, fun hb ↦ ⟨.remainderByZero, if_pos (not_not.mp hb), rfl⟩⟩
  rw [BinaryOp.onInts, if_neg hb]
  split
  · next h =>
    obtain ⟨rfl, rfl⟩ : a = Int64.minValue ∧ b = -1 := by simpa using h
    exact ⟨0, rfl, by decide⟩
  · exact ⟨a % b, rfl, (Int64.toInt_mod a b).trans (Int.tmod_def _ _)⟩

private theorem shiftCount_iff (b : Int64) :
    (b < 0 || 63 < b) = true ↔ ¬ (0 ≤ b.toInt ∧ b.toInt ≤ 63) := by
  have h63 : Int64.toInt 63 = 63 := by decide
  simp only [Bool.or_eq_true, decide_eq_true_eq, Int64.lt_iff_toInt_lt, Int64.toInt_zero, h63]
  omega

/-- Left shifts. -/
theorem shiftLeft (a b : Int64) :
    Exact (BinaryOp.shiftLeft.onInts a b) (0 ≤ b.toInt ∧ b.toInt ≤ 63)
      ((a.toInt * 2 ^ b.toInt.toNat).bmod (2 ^ 64)) :=
  ite rfl (shiftCount_iff b) (toInt_shiftLeft a)

/-- Right shifts. -/
theorem shiftRight (a b : Int64) :
    Exact (BinaryOp.shiftRight.onInts a b) (0 ≤ b.toInt ∧ b.toInt ≤ 63)
      (a.toInt.fdiv (2 ^ b.toInt.toNat)) :=
  ite rfl (shiftCount_iff b) (toInt_shiftRight a)

/-- Negatives. -/
theorem negate (a : Int64) : Exact (negateInt a) (a.toInt ≠ -2 ^ 63) (-a.toInt) :=
  ite rfl (by rw [eq_minValue_iff, not_not]) (toInt_neg_of_ne a)

/-- Absolute values. -/
theorem abs (a : Int64) : Exact (absInt a) (a.toInt ≠ -2 ^ 63) |a.toInt| := by
  refine ite rfl (by rw [eq_minValue_iff, not_not]) fun h ↦ ?_
  split
  · next hneg =>
    rw [Int64.lt_iff_toInt_lt, Int64.toInt_zero] at hneg
    rw [toInt_neg_of_ne a h, abs_of_neg hneg]
  · next hneg =>
    rw [Int64.lt_iff_toInt_lt, Int64.toInt_zero] at hneg
    rw [abs_of_nonneg (by omega)]

end Exact

/-- Between integers an operator does what it does on integers. -/
theorem Heap.binary_text (h : Heap) (op : BinaryOp) (a b : Int64) :
    h.binary op.text (.int a) (.int b) = op.onInts a b := by
  unfold Heap.binary
  rw [BinaryOp.ofText?_text]
  cases op with
  | equal | notEqual => simp [Value.equals, BinaryOp.onInts]
  | _ => rfl

/-- For all integers `a` and `b` the operators are exact or fail. Sums, differences and products are
those of arithmetic and fail where these do not fit; quotients are cut off towards zero and fail for
the divisor zero, and for the least integer by minus one; remainders belong to these quotients and
fail for the divisor zero; shifts fail for counts outside 0 to 63, multiply and wrap around, or
divide and round down; the negative and the absolute value fail for the least integer. And the three
overflow checks compute nothing that overflows and never divide by zero. -/
theorem integer_operators_exact (h : Heap) (a b : Int64) :
    let x := a.toInt
    let y := b.toInt
    let op (spelling : Bytes) := h.binary spelling (.int a) (.int b)
    Exact (op "+") (FitsWord (x + y)) (x + y) ∧
    Exact (op "-") (FitsWord (x - y)) (x - y) ∧
    Exact (op "*") (FitsWord (x * y)) (x * y) ∧
    Exact (op "/") (¬ (y = 0 ∨ (x = -2 ^ 63 ∧ y = -1))) (x.tdiv y) ∧
    Exact (op "%") (y ≠ 0) (x - y * x.tdiv y) ∧
    Exact (op "<<") (0 ≤ y ∧ y ≤ 63) ((x * 2 ^ y.toNat).bmod (2 ^ 64)) ∧
    Exact (op ">>") (0 ≤ y ∧ y ≤ 63) (x.fdiv (2 ^ y.toNat)) ∧
    Exact ((Value.int a).unary "-") (x ≠ -2 ^ 63) (-x) ∧
    (∀ s site, Builtin.abs.run s [.int a] site = Exec.lift site.location (absInt a)) ∧
    Exact (absInt a) (x ≠ -2 ^ 63) |x| ∧
    addOverflows? a b = some (addOverflows a b) ∧
    subOverflows? a b = some (subOverflows a b) ∧
    mulOverflows? a b = some (mulOverflows a b) := by
  intro x y op
  have hop (o : BinaryOp) : op o.text = o.onInts a b := h.binary_text o a b
  have habs (s : Services) (site : Token) :
      Builtin.abs.run s [.int a] site = Exec.lift site.location (absInt a) := by
    funext m
    rw [Builtin.Native.abs.run_eq, Builtin.reply, Builtin.respondAbs]
    cases absInt a <;> rfl
  refine ⟨?_, ?_, ?_, ?_, ?_, ?_, ?_, .negate a, habs, .abs a, addOverflows?_eq a b,
    subOverflows?_eq a b, mulOverflows?_eq a b⟩
  · exact hop .add ▸ .add a b
  · exact hop .sub ▸ .sub a b
  · exact hop .mul ▸ .mul a b
  · exact hop .div ▸ .div a b
  · exact hop .rem ▸ .rem a b
  · exact hop .shiftLeft ▸ .shiftLeft a b
  · exact hop .shiftRight ▸ .shiftRight a b

end Scriptlet
