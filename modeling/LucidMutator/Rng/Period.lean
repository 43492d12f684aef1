import Mathlib.Data.Nat.GCD.BigOperators
import Mathlib.Dynamics.PeriodicPts
import Mathlib.Tactic.NormNum.Prime
import LucidMutator.Rng.Polynomial

/-!
# The period of the generator

`rand`'s update is linear over GF(2), and its characteristic polynomial annihilates it. Tables of
repeated squares and of inverses modulo that polynomial, checked by evaluation, show that every
nonzero state comes back after exactly `2^64 - 1` steps, and never before.
-/

namespace LucidMutator

/-- `rand`'s update, as a linear update. -/
def xorshiftUpdate : LinearUpdate := ⟨xorshift, xorshift_xor⟩

@[simp] theorem xorshiftUpdate_toFun : xorshiftUpdate.toFun = xorshift := rfl

/-- `rand`'s update on the numeral of the state. -/
def xorshiftWord (w : Nat) : Nat :=
  let w := w ^^^ (w <<< 13) % 2 ^ 64
  let w := w ^^^ w >>> 17
  w ^^^ (w <<< 43) % 2 ^ 64

theorem toNat_xorshift (x : BitVec 64) : (xorshift x).toNat = xorshiftWord x.toNat := by
  simp [xorshift, xorshiftWord]

/-- `f(T) w` on numerals, reading the low `n` bits of `f`. -/
def evalWord : Nat → Nat → Nat → Nat
  | 0, _, _ => 0
  | n + 1, f, w => (bif Nat.beq (f % 2) 1 then w else 0) ^^^ evalWord n (f / 2) (xorshiftWord w)

theorem toNat_eval {n f : Nat} (short : f < 2 ^ n) (x : BitVec 64) :
    (xorshiftUpdate.eval f x).toNat = evalWord n f x.toNat := by
  induction n generalizing f x with
  | zero =>
    obtain rfl : f = 0 := by simpa using short
    simp [evalWord]
  | succ n inductionHypothesis =>
    rw [LinearUpdate.eval_eq, BitVec.toNat_xor, evalWord, xorshiftUpdate_toFun, ← toNat_xorshift,
      ← inductionHypothesis (by rw [Nat.pow_succ] at short; omega)]
    simp only [cond_eq_if, Nat.beq_eq]
    split_ifs <;> rfl

/-! ## The characteristic polynomial -/

/-- The characteristic polynomial of `rand`'s update. -/
def charPoly : Nat := 0x1000336601e030861

set_option maxRecDepth 10000 in
theorem charPoly_twoPow : ∀ i < 64, evalWord 65 charPoly (2 ^ i) = 0 := by decide

/-- `charPoly(T) = 0`, the Cayley-Hamilton theorem for the update. -/
theorem charPoly_annihilates (y : BitVec 64) : xorshiftUpdate.eval charPoly y = 0 := by
  refine (xorshiftUpdate.polynomial charPoly).eq_zero_of_twoPow (fun i below => ?_) y
  apply BitVec.eq_of_toNat_eq
  show (xorshiftUpdate.eval charPoly _).toNat = 0
  rw [toNat_eval (n := 65) (by decide), BitVec.toNat_twoPow,
    Nat.mod_eq_of_lt (Nat.pow_lt_pow_right (by decide) below), charPoly_twoPow i below]

/-! ## Repeated squares -/

/-- `X^(2^j)` modulo `charPoly`, for `j = 0, ..., 64`. -/
def frobenius : List Nat :=
  [0x2, 0x4, 0x10,
    0x100, 0x10000, 0x0000000100000000,
    0x000336601e030861, 0x0722645efd1a6440, 0x00ad26402bfada54,
    0x2cc3ed929ef7ce6e, 0xd62d8e74ff82ae4c, 0x724e141b88a9d491,
    0x6580221184a6a1d9, 0x09e315431d4a06f1, 0x4f08014bd7d76d8f,
    0x4bd8d73f784a7c7a, 0x92b7a8e43b1f8b8e, 0x8e9bd575b987b8f7,
    0xe9c03a816a25bc34, 0x35483a0dce30de8a, 0xd0ad49a45ef98096,
    0x5f41dbb7cf435e5c, 0x9b2d242975a99809, 0xb8ed05ab25498fbc,
    0x7bf8462af899b12e, 0xe7e3014b99af76c2, 0x28389871cdfca199,
    0x7b6f4974af5ec35d, 0x37ab9e4742a2951f, 0x42fe8767b790b879,
    0x9489cd2c321bb855, 0xb0df50e16c69fb45, 0x3befe96cd4e88b97,
    0xccdc7fcfe287bc99, 0x1009e06422f8bdb3, 0x25b38ff9cdce1b8c,
    0xfc947f4005eb537f, 0x8095424ec1bffc28, 0x67036f0f50cc5aa7,
    0x7a9fd1ed67ce299e, 0x24883c8514fda681, 0xffebb45eae4012bf,
    0x5f9772f9ed6c0eda, 0xa4f0ea08984ccece, 0x8c4891de046faafd,
    0x74a1d8c9ac972cde, 0x92dafb1998749718, 0x60b4c4769009c422,
    0xf96de330be10f8e9, 0x0b2c7bcee2618839, 0x75780222979fff61,
    0xde8a717e30574897, 0x5e2843cc0930df44, 0x80bb3d6ea656d3e8,
    0xb7cc2535ec79cf10, 0xd021669604a85811, 0x8dcd06194f4b6654,
    0x599ddec81a672d73, 0x4ce951708ecf8b6e, 0xa46231d3d1a1796b,
    0x2e57a0ee497ac1cb, 0x44eeb940a4f9e8f9, 0x636082462438338a,
    0x4900d71862acf596, 0x2]

/-- Every entry is below `2^64`, and each after the first is the square of the one before,
modulo `charPoly`. -/
def squaresOk : List Nat → Bool
  | [] => true
  | [t] => Nat.blt t (2 ^ 64)
  | t :: u :: ts => Nat.blt t (2 ^ 64) && Nat.beq (mulmod charPoly t t) u && squaresOk (u :: ts)

set_option maxRecDepth 10000 in
theorem frobenius_squaresOk : squaresOk frobenius = true := by decide

/-- The cofactors `(2^64 - 1) / q` for the prime factors `q` of `2^64 - 1`, each with an
inverse of `X^((2^64 - 1) / q) - 1` modulo `charPoly`. -/
def cofactors : List (Nat × Nat) :=
  [(3, 0xe3ff150557ad27cb),
    (5, 0x45e7ba7084817fa4),
    (17, 0x287030c292cee45a),
    (257, 0xaef7cdec17e50b13),
    (641, 0x2f941ea7a14611f6),
    (65537, 0x4b025accd22ab0d3),
    (6700417, 0xb4c2f926897ef74f)]

/-- Every inverse is below `2^64`, and is an inverse. -/
def cofactorsOk : List (Nat × Nat) → Bool
  | [] => true
  | (q, u) :: rest => Nat.blt u (2 ^ 64) &&
      Nat.beq (mulmod charPoly (power charPoly frobenius ((2 ^ 64 - 1) / q) 1 ^^^ 1) u) 1 &&
      cofactorsOk rest

set_option maxRecDepth 10000 in
theorem cofactors_cofactorsOk : cofactorsOk cofactors = true := by decide

/-! ## From the tables to every state -/

theorem squares_of_squaresOk {c t : Nat} {ts : List Nat} (checked : squaresOk (t :: ts) = true)
    (entry : ∀ y, xorshiftUpdate.eval t y = xorshift^[c] y) :
    xorshiftUpdate.Squares c (t :: ts) := by
  induction ts generalizing c t with
  | nil => exact ⟨by simpa [squaresOk] using checked, entry, trivial⟩
  | cons u ts inductionHypothesis =>
    simp only [squaresOk, Bool.and_eq_true, Nat.blt_eq, Nat.beq_eq] at checked
    obtain ⟨⟨bounded, squared⟩, rest⟩ := checked
    refine ⟨bounded, entry, inductionHypothesis rest fun y => ?_⟩
    rw [← squared, xorshiftUpdate.eval_mulmod charPoly_annihilates t bounded, entry, entry,
      two_mul, Function.iterate_add_apply]

theorem frobenius_squares : xorshiftUpdate.Squares 1 frobenius :=
  squares_of_squaresOk frobenius_squaresOk fun y => LinearUpdate.eval_two _ y

theorem iterate_two_pow_sixtyFour (x : BitVec 64) : xorshift^[2 ^ 64] x = xorshift x := by
  have last := frobenius_squares.get 64 (by decide) x
  rw [show frobenius.get ⟨64, by decide⟩ = 2 from rfl, LinearUpdate.eval_two,
    Nat.one_mul] at last
  exact last.symm

theorem iterate_period (x : BitVec 64) : xorshift^[2 ^ 64 - 1] x = x := by
  apply xorshift_injective
  rw [← Function.iterate_succ_apply' xorshift, Nat.succ_eq_add_one,
    Nat.sub_add_cancel Nat.one_le_two_pow, iterate_two_pow_sixtyFour]

theorem cofactor_of_cofactorsOk {cs : List (Nat × Nat)} (checked : cofactorsOk cs = true)
    {q u : Nat} (listed : (q, u) ∈ cs) :
    u < 2 ^ 64 ∧ mulmod charPoly (power charPoly frobenius ((2 ^ 64 - 1) / q) 1 ^^^ 1) u = 1 := by
  induction cs with
  | nil => simp at listed
  | cons c cs inductionHypothesis =>
    simp only [cofactorsOk, Bool.and_eq_true, Nat.blt_eq, Nat.beq_eq] at checked
    rcases List.mem_cons.mp listed with rfl | later
    · exact checked.1
    · exact inductionHypothesis checked.2 later

/-- `T^[(2^64 - 1) / q]` fixes only `0`, for each prime factor `q` of `2^64 - 1`. -/
theorem eq_zero_of_iterate_cofactor {q u : Nat} (listed : (q, u) ∈ cofactors) {x : BitVec 64}
    (fixed : xorshift^[(2 ^ 64 - 1) / q] x = x) : x = 0 := by
  obtain ⟨bounded, inverse⟩ := cofactor_of_cofactorsOk cofactors_cofactorsOk listed
  have lifted : xorshiftUpdate.eval (power charPoly frobenius ((2 ^ 64 - 1) / q) 1) x = x := by
    rw [xorshiftUpdate.eval_power charPoly_annihilates frobenius_squares
      (lt_of_le_of_lt (Nat.div_le_self _ _) (by decide)), Nat.one_mul, LinearUpdate.eval_one]
    exact fixed
  calc x = xorshiftUpdate.eval 1 x := (LinearUpdate.eval_one _ x).symm
    _ = xorshiftUpdate.eval u
          (xorshiftUpdate.eval (power charPoly frobenius ((2 ^ 64 - 1) / q) 1 ^^^ 1) x) := by
      rw [← xorshiftUpdate.eval_mulmod charPoly_annihilates _ bounded, inverse]
    _ = 0 := by
      rw [LinearUpdate.eval_xor_left, lifted, LinearUpdate.eval_one, BitVec.xor_self,
        LinearUpdate.eval_zero_right]
      rfl

/-! ## The order argument -/

theorem prod_dvd_of_forall_dvd {qs : List Nat} (coprime : qs.Pairwise Nat.Coprime) {m : Nat}
    (each : ∀ q ∈ qs, q ∣ m) : qs.prod ∣ m := by
  induction qs with
  | nil => simp
  | cons q qs inductionHypothesis =>
    rw [List.pairwise_cons] at coprime
    rw [List.prod_cons]
    exact Nat.Coprime.mul_dvd_of_dvd_of_dvd (Nat.coprime_list_prod_right_iff.mpr coprime.1)
      (each q (List.mem_cons_self _ _))
      (inductionHypothesis coprime.2 fun r later => each r (List.mem_cons_of_mem _ later))

theorem eq_prod_of_not_dvd_cofactor {qs : List Nat} (primes : ∀ q ∈ qs, q.Prime)
    (coprime : qs.Pairwise Nat.Coprime) {m : Nat} (divides : m ∣ qs.prod)
    (proper : ∀ q ∈ qs, ¬ m ∣ qs.prod / q) : m = qs.prod := by
  refine Nat.dvd_antisymm divides (prod_dvd_of_forall_dvd coprime fun q listed => ?_)
  by_contra missing
  have split : qs.prod = qs.prod / q * q := (Nat.div_mul_cancel (List.dvd_prod listed)).symm
  exact proper q listed (Nat.Coprime.dvd_of_dvd_mul_right
    ((Nat.Prime.coprime_iff_not_dvd (primes q listed)).mpr missing).symm (split ▸ divides))

theorem cofactors_primes : ∀ q ∈ cofactors.map Prod.fst, q.Prime := by
  simp only [cofactors, List.map_cons, List.map_nil, List.mem_cons, List.not_mem_nil, or_false,
    forall_eq_or_imp, forall_eq]
  norm_num

theorem cofactors_coprime : (cofactors.map Prod.fst).Pairwise Nat.Coprime := by decide

theorem cofactors_prod : (cofactors.map Prod.fst).prod = 2 ^ 64 - 1 := by decide

/-! ## The period -/

/-- From every nonzero state, `rand`'s update comes back after exactly `2^64 - 1` steps, and
not before: the generator has the longest period a 64-bit state allows. -/
theorem minimalPeriod_xorshift {x : BitVec 64} (nonzero : x ≠ 0) :
    Function.minimalPeriod xorshift x = 2 ^ 64 - 1 := by
  have periodic : Function.IsPeriodicPt xorshift (2 ^ 64 - 1) x := iterate_period x
  rw [← cofactors_prod] at periodic ⊢
  refine eq_prod_of_not_dvd_cofactor cofactors_primes cofactors_coprime periodic.minimalPeriod_dvd
    fun q listed divides => nonzero ?_
  obtain ⟨⟨q, u⟩, mem, rfl⟩ := List.mem_map.mp listed
  have fixed := (Function.isPeriodicPt_minimalPeriod xorshift x).trans_dvd divides
  rw [cofactors_prod] at fixed
  exact eq_zero_of_iterate_cofactor mem fixed

theorem iterate_xorshift_ne_self {x : BitVec 64} (nonzero : x ≠ 0) {k : Nat} (positive : 0 < k)
    (short : k < 2 ^ 64 - 1) : xorshift^[k] x ≠ x := fun back => by
  have least := Function.IsPeriodicPt.minimalPeriod_le positive back
  rw [minimalPeriod_xorshift nonzero] at least
  omega

/-- From any nonzero state, `rand` visits every nonzero state within one period: the
`2^64 - 1` states of a period are distinct and nonzero, and there are no others. -/
theorem xorshift_visits_every_nonzero {x y : BitVec 64} (nonzero : x ≠ 0) (target : y ≠ 0) :
    ∃ k < 2 ^ 64 - 1, xorshift^[k] x = y := by
  have period := minimalPeriod_xorshift nonzero
  have distinct : Set.InjOn (fun k => (xorshift^[k] x).toNat) (Finset.range (2 ^ 64 - 1)) :=
    fun i below j below' same => Function.iterate_injOn_Iio_minimalPeriod
      (by rw [period]; exact Finset.mem_range.mp below)
      (by rw [period]; exact Finset.mem_range.mp below') (BitVec.eq_of_toNat_eq same)
  have inside : (Finset.range (2 ^ 64 - 1)).image (fun k => (xorshift^[k] x).toNat) ⊆
      (Finset.range (2 ^ 64)).erase 0 := by
    intro n found
    obtain ⟨k, -, rfl⟩ := Finset.mem_image.mp found
    refine Finset.mem_erase.mpr ⟨fun zero => iterate_xorshift_ne_zero nonzero k ?_,
      Finset.mem_range.mpr (BitVec.isLt _)⟩
    exact BitVec.eq_of_toNat_eq zero
  have full := Finset.eq_of_subset_of_card_le inside (by
    rw [Finset.card_image_of_injOn distinct, Finset.card_erase_of_mem (by simp),
      Finset.card_range, Finset.card_range])
  have reached : y.toNat ∈ (Finset.range (2 ^ 64)).erase 0 :=
    Finset.mem_erase.mpr
      ⟨fun zero => target (BitVec.eq_of_toNat_eq zero), Finset.mem_range.mpr y.isLt⟩
  obtain ⟨k, below, hit⟩ := Finset.mem_image.mp (full ▸ reached)
  exact ⟨k, Finset.mem_range.mp below, BitVec.eq_of_toNat_eq hit⟩

/-- The orbit of every nonzero state under `rand`'s update is one cycle through all
`2^64 - 1` nonzero states. -/
theorem xorshift_cycles_through_nonzero {x : BitVec 64} (nonzero : x ≠ 0) :
    Function.minimalPeriod xorshift x = 2 ^ 64 - 1 ∧
      ∀ y : BitVec 64, y ≠ 0 → ∃ k < 2 ^ 64 - 1, xorshift^[k] x = y :=
  ⟨minimalPeriod_xorshift nonzero, fun _ target => xorshift_visits_every_nonzero nonzero target⟩

theorem xorshift_cycles_through_nonzero_from_one :
    (1 : BitVec 64) ≠ 0 ∧ Function.minimalPeriod xorshift 1 = 2 ^ 64 - 1 ∧
      ∀ y : BitVec 64, y ≠ 0 → ∃ k < 2 ^ 64 - 1, xorshift^[k] 1 = y :=
  ⟨by decide, xorshift_cycles_through_nonzero (by decide)⟩

/-- No nonzero state of `rand` comes back before `2^64 - 1` steps, and each comes back after
exactly that many. -/
theorem xorshift_has_no_short_cycle {x : BitVec 64} (nonzero : x ≠ 0) :
    xorshift^[2 ^ 64 - 1] x = x ∧ ∀ k, 0 < k → k < 2 ^ 64 - 1 → xorshift^[k] x ≠ x :=
  ⟨iterate_period x, fun _ positive short => iterate_xorshift_ne_self nonzero positive short⟩

theorem xorshift_has_no_short_cycle_from_one :
    (1 : BitVec 64) ≠ 0 ∧ xorshift^[2 ^ 64 - 1] 1 = 1 ∧
      ∀ k, 0 < k → k < 2 ^ 64 - 1 → xorshift^[k] 1 ≠ 1 :=
  ⟨by decide, xorshift_has_no_short_cycle (by decide)⟩

end LucidMutator
