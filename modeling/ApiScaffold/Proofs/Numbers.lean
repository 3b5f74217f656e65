import ApiScaffold.Json.Value
import Mathlib.Algebra.Order.Ring.Int
import Mathlib.Tactic.Ring

set_option autoImplicit false

/-! # Equality of numbers

A finite number is a whole multiple of the least positive one (`steps`), and its bits follow from
that multiple unless it is zero (`eq_of_steps`). So numbers that equal the same integer equal each
other, and equality of scalars is an equivalence wherever it holds at all. -/

namespace ApiScaffold

theorem twoTo_add (a b : Nat) : twoTo (a + b) = twoTo a * twoTo b := Nat.pow_add 2 a b

theorem twoTo_pos (a : Nat) : 0 < twoTo a := Nat.pow_pos (by decide)

theorem twoTo_succ (a : Nat) : twoTo (a + 1) = 2 * twoTo a := by
  rw [twoTo_add, Nat.mul_comm]
  rfl

theorem two_le_twoTo {a : Nat} (h : 0 < a) : 2 ≤ twoTo a := by
  obtain ⟨b, rfl⟩ := Nat.exists_eq_succ_of_ne_zero h.ne'
  rw [Nat.succ_eq_add_one, twoTo_succ]
  have := twoTo_pos b
  omega

namespace Binary64

variable {x y z : Binary64} {m n : Int}

/-! ## Multiples of the least number -/

/-- The power of two by which the significand counts the least positive number. -/
def shift (x : Binary64) : Nat := (x.scale + 1074).toNat

/-- How many times the least positive number a number is. -/
def steps (x : Binary64) : Int :=
  if x.negative then -((x.significand * twoTo x.shift : Nat) : Int)
  else ((x.significand * twoTo x.shift : Nat) : Int)

theorem fraction_lt (x : Binary64) : x.fraction < twoTo 52 := Nat.mod_lt _ (twoTo_pos 52)

theorem scale_eq (x : Binary64) : x.scale = (x.shift : Int) - 1074 := by
  unfold shift scale
  split <;> omega

theorem shift_eq (x : Binary64) : x.shift = x.exponentField - 1 := by
  unfold shift scale
  split <;> omega

theorem significand_lt (x : Binary64) : x.significand < twoTo 53 := by
  have hfraction := fraction_lt x
  rw [twoTo_succ]
  unfold significand
  split <;> omega

theorem le_significand (h : x.exponentField ≠ 0) : twoTo 52 ≤ x.significand := by
  rw [significand, if_neg h]
  exact Nat.le_add_left _ _

/-- The parts that the bits of a number are put together from. -/
theorem bits_eq (x : Binary64) : x.bits.toNat =
    (if x.negative then twoTo 63 else 0) + x.exponentField * twoTo 52 + x.fraction := by
  have hlt : x.bits.toNat < 2 ^ 64 := x.bits.toNat_lt
  have h63 : twoTo 63 = 9223372036854775808 := rfl
  have h52 : twoTo 52 = 4503599627370496 := rfl
  have h11 : twoTo 11 = 2048 := rfl
  rw [exponentField, fraction, negative, h63, h52, h11]
  split
  · next h =>
      rw [decide_eq_true_eq] at h
      omega
  · next h =>
      rw [decide_eq_true_eq] at h
      omega

/-- The same significand never counts with different powers of two. -/
theorem shift_le (h : x.significand * twoTo x.shift = y.significand * twoTo y.shift) :
    y.shift ≤ x.shift := by
  by_contra hlt
  obtain ⟨k, hk⟩ := Nat.exists_eq_add_of_lt (Nat.lt_of_not_le hlt)
  have hy : y.exponentField ≠ 0 := by
    intro hfield
    rw [shift_eq y, hfield] at hk
    omega
  have hfactor : x.significand = y.significand * twoTo (k + 1) := by
    rw [hk, Nat.add_assoc, twoTo_add, ← Nat.mul_assoc, Nat.mul_right_comm] at h
    exact Nat.eq_of_mul_eq_mul_right (twoTo_pos _) h
  have hlarge : twoTo 52 * 2 ≤ y.significand * twoTo (k + 1) :=
    Nat.mul_le_mul (le_significand hy) (two_le_twoTo (Nat.succ_pos k))
  have hsmall := significand_lt x
  rw [twoTo_succ] at hsmall
  omega

theorem exponentField_eq (hsignificand : x.significand = y.significand)
    (hshift : x.shift = y.shift) : x.exponentField = y.exponentField := by
  rw [shift_eq, shift_eq] at hshift
  have hx := fraction_lt x
  have hy := fraction_lt y
  unfold significand at hsignificand
  split at hsignificand
  · split at hsignificand
    · omega
    · omega
  · split at hsignificand
    · omega
    · omega

theorem natAbs_steps (x : Binary64) : x.steps.natAbs = x.significand * twoTo x.shift := by
  unfold steps
  split
  · rw [Int.natAbs_neg, Int.natAbs_natCast]
  · exact Int.natAbs_natCast _

theorem negative_iff (hzero : x.steps ≠ 0) : x.negative = true ↔ x.steps < 0 := by
  cases hsign : x.negative with
  | true =>
      have hsteps : x.steps = -((x.significand * twoTo x.shift : Nat) : Int) := by
        rw [steps, if_pos hsign]
      simp only [true_iff]
      omega
  | false =>
      have hsteps : x.steps = ((x.significand * twoTo x.shift : Nat) : Int) := by
        rw [steps, if_neg (by simp [hsign])]
      simp only [Bool.false_eq_true, false_iff]
      omega

/-- A number that is not zero is known by its multiple of the least positive one. -/
theorem eq_of_steps (hzero : x.steps ≠ 0) (h : x.steps = y.steps) : x = y := by
  have hproduct : x.significand * twoTo x.shift = y.significand * twoTo y.shift := by
    rw [← natAbs_steps, ← natAbs_steps, h]
  have hshift : x.shift = y.shift :=
    Nat.le_antisymm (shift_le hproduct.symm) (shift_le hproduct)
  have hsignificand : x.significand = y.significand := by
    rw [hshift] at hproduct
    exact Nat.eq_of_mul_eq_mul_right (twoTo_pos _) hproduct
  have hfield := exponentField_eq hsignificand hshift
  have hfraction : x.fraction = y.fraction := by
    unfold significand at hsignificand
    rw [hfield] at hsignificand
    split at hsignificand
    · exact hsignificand
    · exact Nat.add_right_cancel hsignificand
  have hnegative : x.negative = y.negative := by
    rw [Bool.eq_iff_iff, negative_iff hzero, negative_iff (h ▸ hzero), h]
  have hbits : x.bits.toNat = y.bits.toNat := by
    rw [bits_eq, bits_eq, hfield, hfraction, hnegative]
  obtain ⟨bits⟩ := x
  obtain ⟨bits'⟩ := y
  exact congrArg Binary64.mk (UInt64.toNat_inj.mp hbits)

theorem steps_eq_zero_iff : x.steps = 0 ↔ x.significand = 0 := by
  rw [← Int.natAbs_eq_zero, natAbs_steps, Nat.mul_eq_zero]
  have := twoTo_pos x.shift
  constructor
  · rintro (h | h)
    · exact h
    · omega
  · exact Or.inl

/-! ## Equal numbers -/

theorem isInvalid_of_isFinite (h : x.isFinite = true) : x.isInvalid = false := by
  rw [isFinite, decide_eq_true_eq] at h
  rw [isInvalid, Bool.and_eq_false_iff]
  exact Or.inl (by simpa using h.ne)

/-- Being an integer is being so many times the least positive number. -/
theorem equalsInt_iff : x.equalsInt n = true ↔ x.isFinite = true ∧ x.steps = n * twoTo 1074 := by
  have hup : x.scale.toNat = x.shift - 1074 := by
    rw [scale_eq]
    omega
  have hdown : (-x.scale).toNat = 1074 - x.shift := by
    rw [scale_eq]
    omega
  -- both sides count by the smaller of the two powers of two
  have hshift : twoTo x.shift = twoTo (x.shift - 1074) * twoTo (min x.shift 1074) := by
    rw [← twoTo_add]
    congr 1
    omega
  have hone : twoTo 1074 = twoTo (1074 - x.shift) * twoTo (min x.shift 1074) := by
    rw [← twoTo_add]
    congr 1
    omega
  have hfactor : (twoTo (min x.shift 1074) : Int) ≠ 0 := by
    have := twoTo_pos (min x.shift 1074)
    omega
  have hsteps : x.steps = (if x.negative then
      -((x.significand * twoTo (x.shift - 1074) : Nat) : Int)
      else ((x.significand * twoTo (x.shift - 1074) : Nat) : Int)) *
        twoTo (min x.shift 1074) := by
    unfold steps
    rw [hshift]
    split
    · push_cast
      ring
    · push_cast
      ring
  have hinteger : n * (twoTo 1074 : Int) =
      n * (twoTo (1074 - x.shift) : Int) * twoTo (min x.shift 1074) := by
    rw [hone]
    push_cast
    ring
  rw [equalsInt, hup, hdown, hsteps, hinteger, Bool.and_eq_true, beq_iff_eq,
    mul_left_inj' hfactor]

theorem equals_iff : x.equals y = true ↔ x.isInvalid = false ∧ y.isInvalid = false ∧
    (x = y ∨ x.isZero = true ∧ y.isZero = true) := by
  simp [equals, and_assoc]

theorem equals_symm (h : x.equals y = true) : y.equals x = true := by
  rw [equals_iff] at h ⊢
  exact ⟨h.2.1, h.1, h.2.2.imp Eq.symm And.symm⟩

theorem equals_trans (h : x.equals y = true) (h' : y.equals z = true) : x.equals z = true := by
  rw [equals_iff] at h h' ⊢
  obtain ⟨hx, -, h⟩ := h
  obtain ⟨-, hz, h'⟩ := h'
  refine ⟨hx, hz, ?_⟩
  rcases h with rfl | ⟨hxzero, hyzero⟩
  · exact h'
  · rcases h' with rfl | ⟨-, hzzero⟩
    · exact Or.inr ⟨hxzero, hyzero⟩
    · exact Or.inr ⟨hxzero, hzzero⟩

theorem isZero_iff : x.isZero = true ↔ x.isFinite = true ∧ x.steps = 0 := by
  rw [isZero, Bool.and_eq_true, beq_iff_eq, steps_eq_zero_iff]

/-- Equal numbers are the same integers. -/
theorem equalsInt_of_equals (h : x.equals y = true) (hy : y.equalsInt n = true) :
    x.equalsInt n = true := by
  rw [equals_iff] at h
  obtain ⟨-, -, rfl | ⟨hx, hzero⟩⟩ := h
  · exact hy
  · rw [isZero_iff] at hx hzero
    rw [equalsInt_iff] at hy ⊢
    exact ⟨hx.1, by rw [hx.2, ← hy.2, hzero.2]⟩

/-- Numbers that are the same integer are equal. -/
theorem equals_of_equalsInt (hx : x.equalsInt n = true) (hy : y.equalsInt n = true) :
    x.equals y = true := by
  rw [equalsInt_iff] at hx hy
  rw [equals_iff, isZero_iff, isZero_iff]
  refine ⟨isInvalid_of_isFinite hx.1, isInvalid_of_isFinite hy.1, ?_⟩
  by_cases hzero : x.steps = 0
  · exact Or.inr ⟨⟨hx.1, hzero⟩, hy.1, by rw [hy.2, ← hx.2, hzero]⟩
  · exact Or.inl (eq_of_steps hzero (hx.2.trans hy.2.symm))

/-- A number is one integer at most. -/
theorem eq_of_equalsInt (hm : x.equalsInt m = true) (hn : x.equalsInt n = true) : m = n := by
  rw [equalsInt_iff] at hm hn
  have hpositive : (twoTo 1074 : Int) ≠ 0 := by
    have := twoTo_pos 1074
    omega
  exact mul_right_cancel₀ hpositive (hm.2.symm.trans hn.2)

end Binary64

/-! ## Equal scalars -/

namespace Json

/-- An integer or a truth value counts as an integer. -/
theorem sameScalar_int {a : Json} {m : Int} (ha : a.asInt? = some m) (b : Json) :
    a.sameScalar b = true ↔ b.asInt? = some m ∨ ∃ y, b = .float y ∧ y.equalsInt m = true := by
  cases a with
  | bool v =>
      obtain rfl := Option.some.inj ha
      cases b <;> simp [sameScalar, asInt?]
      · exact eq_comm
      · exact eq_comm
  | int n =>
      obtain rfl := Option.some.inj ha
      cases b <;> simp [sameScalar, asInt?]
      · exact eq_comm
      · exact eq_comm
  | _ => cases ha

theorem sameScalar_float {x : Binary64} (b : Json) :
    (float x).sameScalar b = true ↔
      (∃ n, b.asInt? = some n ∧ x.equalsInt n = true) ∨ ∃ y, b = .float y ∧ x.equals y = true := by
  cases b <;> simp [sameScalar, asInt?]

/-- Scalars that can be equal to any other: null, texts, integers and numbers. -/
theorem sameScalar_cases {a b : Json} (h : a.sameScalar b = true) :
    a = .null ∧ b = .null ∨ (∃ s, a = .str s ∧ b = .str s) ∨
      (∃ m, a.asInt? = some m) ∨ ∃ x, a = .float x := by
  cases a with
  | null => cases b <;> simp_all [sameScalar, asInt?]
  | str s => cases b <;> simp_all [sameScalar, asInt?]
  | bool v => exact Or.inr (Or.inr (Or.inl ⟨_, rfl⟩))
  | int n => exact Or.inr (Or.inr (Or.inl ⟨_, rfl⟩))
  | float x => exact Or.inr (Or.inr (Or.inr ⟨x, rfl⟩))
  | arr items => cases b <;> simp_all [sameScalar, asInt?]
  | obj fields => cases b <;> simp_all [sameScalar, asInt?]

theorem sameScalar_symm {a b : Json} (h : a.sameScalar b = true) : b.sameScalar a = true := by
  rcases sameScalar_cases h with ⟨rfl, rfl⟩ | ⟨s, rfl, rfl⟩ | ⟨m, hm⟩ | ⟨x, rfl⟩
  · exact h
  · exact h
  · rcases (sameScalar_int hm b).mp h with hb | ⟨y, rfl, hy⟩
    · exact (sameScalar_int hb a).mpr (Or.inl hm)
    · exact (sameScalar_float a).mpr (Or.inl ⟨m, hm, hy⟩)
  · rcases (sameScalar_float b).mp h with ⟨n, hn, hx⟩ | ⟨y, rfl, hxy⟩
    · exact (sameScalar_int hn _).mpr (Or.inr ⟨x, rfl, hx⟩)
    · exact (sameScalar_float _).mpr (Or.inr ⟨x, rfl, Binary64.equals_symm hxy⟩)

theorem sameScalar_trans {a b c : Json} (h : a.sameScalar b = true) (h' : b.sameScalar c = true) :
    a.sameScalar c = true := by
  rcases sameScalar_cases h with ⟨rfl, rfl⟩ | ⟨s, rfl, rfl⟩ | ⟨m, hm⟩ | ⟨x, rfl⟩
  · exact h'
  · exact h'
  · rw [sameScalar_int hm]
    rcases (sameScalar_int hm b).mp h with hb | ⟨y, rfl, hy⟩
    · exact (sameScalar_int hb c).mp h'
    · rcases (sameScalar_float c).mp h' with ⟨n, hn, hyn⟩ | ⟨z, rfl, hyz⟩
      · exact Or.inl (Binary64.eq_of_equalsInt hy hyn ▸ hn)
      · exact Or.inr ⟨z, rfl, Binary64.equalsInt_of_equals (Binary64.equals_symm hyz) hy⟩
  · rw [sameScalar_float]
    rcases (sameScalar_float b).mp h with ⟨n, hn, hx⟩ | ⟨y, rfl, hxy⟩
    · rcases (sameScalar_int hn c).mp h' with hc | ⟨z, rfl, hz⟩
      · exact Or.inl ⟨n, hc, hx⟩
      · exact Or.inr ⟨z, rfl, Binary64.equals_of_equalsInt hx hz⟩
    · rcases (sameScalar_float c).mp h' with ⟨n, hn, hyn⟩ | ⟨z, rfl, hyz⟩
      · exact Or.inl ⟨n, hn, Binary64.equalsInt_of_equals hxy hyn⟩
      · exact Or.inr ⟨z, rfl, Binary64.equals_trans hxy hyz⟩

end Json

end ApiScaffold
