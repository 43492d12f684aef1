import Mathlib.Logic.Function.Iterate

/-!
# The generator's update

`Mutator::rand` returns the state it saved and advances the state with the 64-bit
xorshift triple (13, 17, 43). Each of the three steps `s ^= shift(s)` is linear over
GF(2), and its shift is nilpotent, so the step is injective; the update is therefore a
bijection of 64-bit words that fixes only 0.
-/

namespace LucidMutator

/-- The update `rand` applies: `s ^= s << 13; s ^= s >> 17; s ^= s << 43`. -/
def xorshift (s : BitVec 64) : BitVec 64 :=
  let s := s ^^^ s <<< 13
  let s := s ^^^ s >>> 17
  s ^^^ s <<< 43

/-- One step `s ^= shift(s)` of the update. -/
def xorWithShift (shift : BitVec 64 → BitVec 64) (s : BitVec 64) : BitVec 64 :=
  s ^^^ shift s

theorem xorshift_eq_comp :
    xorshift = xorWithShift (· <<< 43) ∘ xorWithShift (· >>> 17) ∘ xorWithShift (· <<< 13) :=
  rfl

theorem shiftLeft_eq_zero (d : BitVec 64) {n : Nat} (large : 64 ≤ n) : d <<< n = 0 := by
  apply BitVec.eq_of_toNat_eq
  show d.toNat <<< n % 2 ^ 64 = 0
  rw [Nat.shiftLeft_eq]
  exact Nat.mod_eq_zero_of_dvd (Nat.dvd_trans (Nat.pow_dvd_pow 2 large) (Nat.dvd_mul_left _ _))

theorem ushiftRight_eq_zero (d : BitVec 64) {n : Nat} (large : 64 ≤ n) : d >>> n = 0 := by
  apply BitVec.eq_of_toNat_eq
  have wide : 2 ^ 64 ≤ 2 ^ n := Nat.pow_le_pow_right (by decide) large
  show d.toNat >>> n = 0
  rw [Nat.shiftRight_eq_div_pow]
  exact Nat.div_eq_of_lt (Nat.lt_of_lt_of_le d.isLt wide)

theorem iterate_shiftLeft (k n : Nat) (d : BitVec 64) :
    (fun x : BitVec 64 => x <<< k)^[n] d = d <<< (k * n) := by
  induction n with
  | zero => simp
  | succ n inductionHypothesis =>
      rw [Function.iterate_succ_apply', inductionHypothesis, ← BitVec.shiftLeft_add,
        Nat.mul_succ]

theorem iterate_ushiftRight (k n : Nat) (d : BitVec 64) :
    (fun x : BitVec 64 => x >>> k)^[n] d = d >>> (k * n) := by
  induction n with
  | zero => simp
  | succ n inductionHypothesis =>
      rw [Function.iterate_succ_apply', inductionHypothesis, Nat.mul_succ]
      apply BitVec.eq_of_toNat_eq
      simp only [BitVec.toNat_ushiftRight, Nat.shiftRight_add]

theorem xor_eq_zero_iff {a b : BitVec 64} : a ^^^ b = 0 ↔ a = b := by
  constructor
  · intro cancelled
    simpa [← BitVec.xor_assoc] using (congrArg (a ^^^ ·) cancelled).symm
  · rintro rfl
    exact BitVec.xor_self

theorem xor_xor_xor_comm (a b c d : BitVec 64) :
    a ^^^ b ^^^ (c ^^^ d) = a ^^^ c ^^^ (b ^^^ d) := by
  ext i
  simp only [BitVec.getLsbD_xor]
  cases a.getLsbD i <;> cases b.getLsbD i <;> cases c.getLsbD i <;> cases d.getLsbD i <;> rfl

/-- `s ^= shift(s)` is injective when the shift is linear and nilpotent: a difference `d`
it sends to 0 satisfies `shift d = d`, hence `d = shift^[64] d = 0`. -/
theorem xorWithShift_injective (shift : BitVec 64 → BitVec 64)
    (linear : ∀ a b, shift (a ^^^ b) = shift a ^^^ shift b)
    (nilpotent : ∀ d, shift^[64] d = 0) : Function.Injective (xorWithShift shift) := by
  intro a b same
  have fixed : shift (a ^^^ b) = a ^^^ b := by
    rw [linear, ← xor_eq_zero_iff]
    calc shift a ^^^ shift b ^^^ (a ^^^ b)
        = a ^^^ b ^^^ (shift a ^^^ shift b) := BitVec.xor_comm _ _
      _ = (a ^^^ shift a) ^^^ (b ^^^ shift b) := xor_xor_xor_comm _ _ _ _
      _ = 0 := xor_eq_zero_iff.mpr same
  rw [← xor_eq_zero_iff, ← Function.iterate_fixed fixed 64, nilpotent]

theorem xorshift_injective : Function.Injective xorshift := by
  rw [xorshift_eq_comp]
  refine .comp (xorWithShift_injective _ (fun a b => BitVec.shiftLeft_xor_distrib a b 43) ?_)
    (.comp (xorWithShift_injective _ (fun a b => BitVec.ushiftRight_xor_distrib a b 17) ?_)
      (xorWithShift_injective _ (fun a b => BitVec.shiftLeft_xor_distrib a b 13) ?_))
  all_goals intro d
  · rw [iterate_shiftLeft, shiftLeft_eq_zero d (by decide)]
  · rw [iterate_ushiftRight, ushiftRight_eq_zero d (by decide)]
  · rw [iterate_shiftLeft, shiftLeft_eq_zero d (by decide)]

@[simp] theorem xorshift_zero : xorshift 0 = 0 := by
  simp [xorshift]

theorem xorshift_eq_zero_iff {s : BitVec 64} : xorshift s = 0 ↔ s = 0 := by
  rw [← xorshift_zero]
  exact xorshift_injective.eq_iff

theorem xorWithShift_xor (shift : BitVec 64 → BitVec 64)
    (linear : ∀ a b, shift (a ^^^ b) = shift a ^^^ shift b) (a b : BitVec 64) :
    xorWithShift shift (a ^^^ b) = xorWithShift shift a ^^^ xorWithShift shift b := by
  rw [xorWithShift, linear, xor_xor_xor_comm]
  rfl

theorem xorshift_xor (a b : BitVec 64) : xorshift (a ^^^ b) = xorshift a ^^^ xorshift b := by
  simp only [xorshift_eq_comp, Function.comp_apply,
    xorWithShift_xor (· <<< 13) (fun a b => BitVec.shiftLeft_xor_distrib a b 13),
    xorWithShift_xor (· >>> 17) (fun a b => BitVec.ushiftRight_xor_distrib a b 17),
    xorWithShift_xor (· <<< 43) (fun a b => BitVec.shiftLeft_xor_distrib a b 43)]

theorem iterate_xorshift_ne_zero {s : BitVec 64} (nonzero : s ≠ 0) (n : Nat) :
    xorshift^[n] s ≠ 0 := by
  rw [Ne, ← Function.iterate_fixed xorshift_zero n]
  exact fun same => nonzero ((xorshift_injective.iterate n) same)

end LucidMutator
