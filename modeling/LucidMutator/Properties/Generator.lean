import LucidMutator.Properties.Sessions

/-!
# The generator's state

`rand` moves the state by an injective map that fixes `0` and nothing else, so a nonzero
state stays nonzero through every method of the mutator. `new` does not reject a zero seed,
though, and from `0` every draw is `0`.
-/

namespace LucidMutator

/-- The xorshift step of `rand` is injective and fixes only `0`, so no method of the mutator
takes a nonzero state to `0`, and two distinct states never merge. -/
theorem xorshift_never_reaches_zero :
    (∀ s : Mutator, rand.run s = .ok (s.rng.toNat, { s with rng := xorshift s.rng })) ∧
    Function.Injective xorshift ∧ (∀ x, xorshift x = 0 ↔ x = 0) ∧
    (∀ x, x ≠ 0 → ∀ n, xorshift^[n] x ≠ 0) ∧ (∀ n, Function.Injective xorshift^[n]) ∧
    (∀ {α : Type} (method : MutatorM α) (s s' : Mutator) (a : α),
      method.run s = .ok (a, s') → s.rng ≠ 0 → s'.rng ≠ 0) :=
  ⟨fun _ => rfl, xorshift_injective, fun _ => xorshift_eq_zero_iff,
    fun _ nonzero n => iterate_xorshift_ne_zero nonzero n,
    fun n => xorshift_injective.iterate n,
    fun method _ _ _ found nonzero => method.rng_ne_zero found nonzero⟩

theorem xorshift_never_reaches_zero_from_one :
    (1 : BitVec 64) ≠ 0 ∧ xorshift^[3] 1 ≠ 0 :=
  ⟨by decide, xorshift_never_reaches_zero.2.2.2.1 1 (by decide) 3⟩

/-- `new(Some(0), _)` starts, before any call, at `rng = 0`. -/
theorem zero_seed_reaches_zero_rng :
    Reachable .release (Corpus.ofList [] (by decide)) (fun _ => True) (Mutator.new (some 0) 1 1)
        (Mutator.new (some 0) 1 1) ∧ (Mutator.new (some 0) 1 1).rng = 0 :=
  ⟨.init, rfl⟩

/-- From a nonzero seed, with nonzero seeds from `generate_seed`, every reachable state has a
nonzero `rng`; a zero state, which `new(Some(0), _)` starts in, makes every call produce the
single byte `0x00` and stay at `0`. -/
theorem reachable_rng_ne_zero_of_nonzero_seeds (p : Profile) (corpus : Corpus) :
    (∀ (seed : Option (BitVec 64)) (generated : BitVec 64) (maxSize : Nat) (s : Mutator),
      seed ≠ some 0 → generated ≠ 0 →
      Reachable p corpus (fun g => g ≠ 0) (Mutator.new seed generated maxSize) s → s.rng ≠ 0) ∧
    (∀ s : Mutator, s.rng = 0 → 0 < s.maxSize →
      (mutateInput p corpus).run s = .ok ((), { s with input := [0], lastMutation := [] })) :=
  ⟨fun _ _ maxSize _ given drawn reached =>
      reached.rng_ne_zero (new_rng_ne_zero maxSize given drawn) fun _ nonzero => nonzero,
    fun _ zero positive => mutateInput_of_rng_zero p corpus zero positive⟩

set_option maxRecDepth 4000 in
theorem reachable_rng_ne_zero_of_nonzero_seeds_from_seven :
    (some (7 : BitVec 64) ≠ some 0 ∧ (1 : BitVec 64) ≠ 0 ∧
      Reachable .release oneByteCorpus (fun g => g ≠ 0) (Mutator.new (some 7) 1 4)
        ⟨8585876501973739966, [125, 53, 7], 4, [.blockOverwrite, .byteInsert]⟩) ∧
      (⟨8585876501973739966, [125, 53, 7], 4, [.blockOverwrite, .byteInsert]⟩ : Mutator).rng ≠ 0 :=
  have ran : (mutateInput .release oneByteCorpus).run (Mutator.new (some 7) 1 4) =
      .ok ((), ⟨8585876501973739966, [125, 53, 7], 4, [.blockOverwrite, .byteInsert]⟩) := rfl
  have reached : Reachable .release oneByteCorpus (fun g => g ≠ 0) (Mutator.new (some 7) 1 4)
      ⟨8585876501973739966, [125, 53, 7], 4, [.blockOverwrite, .byteInsert]⟩ :=
    .mutateInput .init ran
  ⟨⟨by decide, by decide, reached⟩,
    (reachable_rng_ne_zero_of_nonzero_seeds .release oneByteCorpus).1 _ _ 4 _ (by decide)
      (by decide) reached⟩

end LucidMutator
