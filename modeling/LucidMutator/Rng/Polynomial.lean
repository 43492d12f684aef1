import Mathlib.Tactic.Ring
import LucidMutator.Rng.Xorshift

/-!
# Polynomials over GF(2) acting on 64-bit words

A natural number stands for the polynomial over GF(2) whose coefficients are its bits. A map `T`
that distributes over `^` turns such a polynomial `f` into the map `f(T)`, and an iterate `T^[k]`
is `(X^k mod p)(T)` for every `p` with `p(T) = 0`, which the kernel computes on numerals.
-/

namespace LucidMutator

/-! ## Arithmetic in GF(2)[X] -/

/-- The carry-less product of `a` and the low `n` bits of `b`: their product in GF(2)[X]. -/
def clmul : Nat → Nat → Nat → Nat
  | 0, _, _ => 0
  | n + 1, a, b => (bif Nat.beq (b % 2) 1 then a else 0) ^^^ clmul n (2 * a) (b / 2)

/-- Clear the bits `64 + n - 1` down to `64` of `f`, top first, by adding `p <<< i` where bit
`64 + i` is set: with `p` of degree 64, the reduction of `f` modulo `p`. -/
def reduce (p : Nat) : Nat → Nat → Nat
  | 0, f => f
  | n + 1, f => reduce p n (bif Nat.beq (f >>> (64 + n) % 2) 1 then f ^^^ p <<< n else f)

def mulmod (p a b : Nat) : Nat := reduce p 64 (clmul 64 a b)

/-- `strict x k` is `k x`. Matching on `x` first makes evaluation reduce it to a numeral before
going on, so a chain of products is computed one product at a time. -/
def strict {α : Sort _} (x : Nat) (k : Nat → α) : α :=
  match x with
  | 0 => k 0
  | n + 1 => k (n + 1)

@[simp] theorem strict_eq {α : Sort _} (x : Nat) (k : Nat → α) : strict x k = k x := by
  cases x <;> rfl

/-- `acc` times the entries of `ts` at the set bits of `k`, each product reduced modulo `p`. -/
def power (p : Nat) : List Nat → Nat → Nat → Nat
  | [], _, acc => acc
  | t :: ts, k, acc =>
    strict (bif Nat.beq (k % 2) 1 then mulmod p acc t else acc) fun acc => power p ts (k / 2) acc

/-- A map of 64-bit words that is linear over GF(2). -/
structure LinearUpdate where
  /-- The map. -/
  toFun : BitVec 64 → BitVec 64
  /-- It distributes over `^`. -/
  map_xor : ∀ a b, toFun (a ^^^ b) = toFun a ^^^ toFun b

namespace LinearUpdate

variable (T : LinearUpdate)

@[simp] theorem map_zero : T.toFun 0#64 = 0#64 := by
  simpa using T.map_xor 0 0

/-! ## Evaluation -/

/-- `f(T) x`: the `^` of `T^[i] x` over the bits `i` of `f`. -/
def eval (f : Nat) (x : BitVec 64) : BitVec 64 :=
  if _ : f = 0 then 0 else (if f % 2 = 1 then x else 0) ^^^ eval (f / 2) (T.toFun x)
termination_by f
decreasing_by omega

@[simp] theorem eval_zero_left (x : BitVec 64) : T.eval 0 x = 0 := by
  rw [eval]; simp

theorem eval_eq (f : Nat) (x : BitVec 64) :
    T.eval f x = (if f % 2 = 1 then x else 0) ^^^ T.eval (f / 2) (T.toFun x) := by
  rcases Nat.eq_zero_or_pos f with rfl | pos
  · simp
  · rw [eval, dif_neg (by omega)]

@[simp] theorem eval_one (x : BitVec 64) : T.eval 1 x = x := by
  rw [eval_eq]; simp

@[simp] theorem eval_zero_right (f : Nat) : T.eval f 0#64 = 0#64 := by
  induction f using Nat.div2Induction with
  | ind f inductionHypothesis =>
    rcases Nat.eq_zero_or_pos f with rfl | pos
    · simp
    · rw [eval_eq, T.map_zero, inductionHypothesis pos]; simp

theorem eval_xor_right (f : Nat) (a b : BitVec 64) :
    T.eval f (a ^^^ b) = T.eval f a ^^^ T.eval f b := by
  induction f using Nat.div2Induction generalizing a b with
  | ind f inductionHypothesis =>
    rcases Nat.eq_zero_or_pos f with rfl | pos
    · simp
    · rw [eval_eq, eval_eq T f a, eval_eq T f b, T.map_xor, inductionHypothesis pos,
        xor_xor_xor_comm]
      congr 1
      split_ifs <;> simp

theorem eval_xor_left (f g : Nat) (x : BitVec 64) :
    T.eval (f ^^^ g) x = T.eval f x ^^^ T.eval g x := by
  induction f using Nat.div2Induction generalizing g x with
  | ind f inductionHypothesis =>
    rcases Nat.eq_zero_or_pos f with rfl | pos
    · simp
    · rw [eval_eq, eval_eq T f, eval_eq T g, Nat.xor_div_two, inductionHypothesis pos,
        xor_xor_xor_comm]
      congr 1
      simp only [Nat.xor_mod_two_eq_one]
      split_ifs <;> simp_all

theorem eval_map (f : Nat) (x : BitVec 64) : T.eval f (T.toFun x) = T.toFun (T.eval f x) := by
  induction f using Nat.div2Induction generalizing x with
  | ind f inductionHypothesis =>
    rcases Nat.eq_zero_or_pos f with rfl | pos
    · simp
    · rw [eval_eq, eval_eq T f x, T.map_xor, inductionHypothesis pos]
      congr 1
      split_ifs <;> simp

theorem eval_two_mul (f : Nat) (x : BitVec 64) : T.eval (2 * f) x = T.eval f (T.toFun x) := by
  rw [eval_eq, Nat.mul_mod_right, Nat.mul_div_cancel_left f (by decide)]
  simp

@[simp] theorem eval_two (x : BitVec 64) : T.eval 2 x = T.toFun x := by
  simpa using T.eval_two_mul 1 x

theorem eval_shiftLeft (f n : Nat) (x : BitVec 64) :
    T.eval (f <<< n) x = T.eval f (T.toFun^[n] x) := by
  induction n generalizing x with
  | zero => simp
  | succ n inductionHypothesis =>
    rw [Nat.shiftLeft_succ, eval_two_mul, inductionHypothesis, Function.iterate_succ_apply]

/-- `f(T)` is itself a linear update. -/
def polynomial (f : Nat) : LinearUpdate := ⟨T.eval f, T.eval_xor_right f⟩

/-! ## A linear update is fixed by the powers of two -/

/-- The bits of `x` below `n`, as a `^` of powers of two. -/
def lowBits (x : BitVec 64) : Nat → BitVec 64
  | 0 => 0
  | n + 1 => lowBits x n ^^^ (if x.getLsbD n then BitVec.twoPow 64 n else 0)

theorem getLsbD_lowBits (x : BitVec 64) (n i : Nat) :
    (lowBits x n).getLsbD i = (decide (i < n) && x.getLsbD i) := by
  induction n with
  | zero => simp [lowBits]
  | succ n inductionHypothesis =>
    rw [lowBits, BitVec.getLsbD_xor, inductionHypothesis]
    by_cases bit : x.getLsbD n
    · have inside : n < 64 := by
        by_contra outside
        simp [BitVec.getLsbD_ge x n (by omega)] at bit
      rcases Nat.lt_trichotomy i n with below | rfl | above
      · simp [bit, BitVec.getLsbD_twoPow, below, Nat.ne_of_gt below, Nat.lt_succ_of_lt below]
      · simp [bit, inside]
      · simp [bit, BitVec.getLsbD_twoPow, Nat.ne_of_lt above, Nat.not_lt_of_gt above]
        omega
    · rcases Nat.lt_trichotomy i n with below | rfl | above
      · simp [bit, below, Nat.lt_succ_of_lt below]
      · simp [bit]
      · simp [bit, Nat.not_lt_of_gt above]
        omega

theorem lowBits_sixtyFour (x : BitVec 64) : lowBits x 64 = x := by
  apply BitVec.eq_of_getLsbD_eq
  intro i
  simp [getLsbD_lowBits, i.isLt]

/-- A linear update that sends every power of two to `0` sends every word to `0`. -/
theorem eq_zero_of_twoPow (vanishes : ∀ i < 64, T.toFun (BitVec.twoPow 64 i) = 0)
    (x : BitVec 64) : T.toFun x = 0 := by
  have lowered : ∀ n, T.toFun (lowBits x n) = 0 := by
    intro n
    induction n with
    | zero => exact T.map_zero
    | succ n inductionHypothesis =>
      rw [lowBits, T.map_xor, inductionHypothesis]
      split_ifs with bit
      · have inside : n < 64 := by
          by_contra outside
          simp [BitVec.getLsbD_ge x n (by omega)] at bit
        simp [vanishes n inside]
      · simp
  simpa [lowBits_sixtyFour] using lowered 64

/-! ## Products and reduction -/

theorem eval_clmul {n b : Nat} (a : Nat) (short : b < 2 ^ n) (x : BitVec 64) :
    T.eval (clmul n a b) x = T.eval b (T.eval a x) := by
  induction n generalizing a b x with
  | zero =>
    obtain rfl : b = 0 := by simpa using short
    simp [clmul]
  | succ n inductionHypothesis =>
    rw [clmul, eval_xor_left, inductionHypothesis (2 * a) (by rw [Nat.pow_succ] at short; omega),
      eval_two_mul, eval_map, eval_eq T b]
    simp only [cond_eq_if, Nat.beq_eq]
    split_ifs <;> simp

section Annihilating

variable {p : Nat} (annihilates : ∀ y, T.eval p y = 0)
include annihilates

theorem eval_reduce (n f : Nat) (x : BitVec 64) : T.eval (reduce p n f) x = T.eval f x := by
  induction n generalizing f with
  | zero => rfl
  | succ n inductionHypothesis =>
    rw [reduce, inductionHypothesis]
    simp only [cond_eq_if, Nat.beq_eq]
    split_ifs
    · rw [eval_xor_left, eval_shiftLeft, annihilates]
      simp
    · rfl

theorem eval_mulmod (a : Nat) {b : Nat} (short : b < 2 ^ 64) (x : BitVec 64) :
    T.eval (mulmod p a b) x = T.eval b (T.eval a x) := by
  rw [mulmod, T.eval_reduce annihilates, eval_clmul T a short]

end Annihilating

/-! ## Powers from a table of squares -/

/-- `ts` are 64-bit polynomials of `T^[c]`, `T^[2 * c]`, `T^[4 * c]`, and so on. -/
def Squares (c : Nat) : List Nat → Prop
  | [] => True
  | t :: ts => t < 2 ^ 64 ∧ (∀ y, T.eval t y = T.toFun^[c] y) ∧ Squares (2 * c) ts

variable {T} in
theorem Squares.get {c : Nat} {ts : List Nat} (squares : T.Squares c ts) (i : Nat)
    (inside : i < ts.length) (y : BitVec 64) :
    T.eval (ts.get ⟨i, inside⟩) y = T.toFun^[c * 2 ^ i] y := by
  induction ts generalizing c i with
  | nil => simp at inside
  | cons t ts inductionHypothesis =>
    obtain ⟨-, entry, rest⟩ := squares
    cases i with
    | zero => simpa using entry y
    | succ i =>
      rw [List.get_cons_succ, inductionHypothesis rest i (by simpa using inside), Nat.pow_succ]
      ring_nf

theorem eval_power {p : Nat} (annihilates : ∀ y, T.eval p y = 0) {c : Nat} {ts : List Nat}
    (squares : T.Squares c ts) {k : Nat} (short : k < 2 ^ ts.length) (acc : Nat)
    (x : BitVec 64) : T.eval (power p ts k acc) x = T.toFun^[c * k] (T.eval acc x) := by
  induction ts generalizing c k acc with
  | nil =>
    obtain rfl : k = 0 := by simpa using short
    simp [power]
  | cons t ts inductionHypothesis =>
    obtain ⟨bounded, entry, rest⟩ := squares
    rw [power, strict_eq, inductionHypothesis rest
      (by rw [List.length_cons, Nat.pow_succ] at short; omega)]
    have digits : c * k = 2 * c * (k / 2) + c * (k % 2) := by
      conv_lhs => rw [← Nat.div_add_mod k 2]
      ring
    simp only [cond_eq_if, Nat.beq_eq]
    split_ifs with odd
    · rw [T.eval_mulmod annihilates _ bounded, entry, ← Function.iterate_add_apply, digits, odd,
        Nat.mul_one]
    · rw [digits, show k % 2 = 0 by omega, Nat.mul_zero, Nat.add_zero]

end LinearUpdate

end LucidMutator
