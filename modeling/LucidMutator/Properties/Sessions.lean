import LucidMutator.Mutator.Session

/-!
# Where `mutate_input` panics

With overflow checks the two magic operators can panic from a buffer of `1..=max_size` bytes,
and an entry longer than `max_size` reaches the final assertion. The output of a call never
depends on the buffer it started from.
-/

namespace LucidMutator

def oneByteCorpus : Corpus := Corpus.ofList [[7]] (by decide)

/-- Seed `27560`, `max_size = 100` and the entry `[7]`: the first call stacks `magic_byte_insert`
on the one-byte buffer, and the third round of its loop applies `magic - 1` to `0`. With overflow
checks the operator panics, and so does the call; with wrapping the call returns 22 bytes. -/
theorem magicByteInsert_overflows_from_sized_buffer :
    oneByteCorpus.Entries (fun e => 0 < e.length ∧ e.length ≤ 100) ∧
      Sized ⟨14992850987490525992, [7], 100, []⟩ ∧
      (magicByteInsert .dev).run ⟨14992850987490525992, [7], 100, []⟩ =
        .error .arithmeticOverflow ∧
      (mutateInput .dev oneByteCorpus).run (Mutator.new (some 27560) 0 100) =
        .error .arithmeticOverflow ∧
      (mutateInput .release oneByteCorpus).run (Mutator.new (some 27560) 0 100) =
        .ok ((), ⟨296733623246896942,
          [4, 255, 0, 0, 0, 127, 0, 0, 0, 0, 0, 0, 0, 0, 0, 0, 16, 0, 0, 0, 0, 7], 100,
          [.magicByteInsert, .blockDelete]⟩) :=
  ⟨Corpus.entries_ofList (by decide), ⟨by decide, by decide⟩, rfl, rfl, rfl⟩

theorem applyMutation_slack_underflows (corpus : Corpus) {m : MutationTypes} {s : Mutator}
    (grows : m ∈ [.byteInsert, .blockInsert, .grow, .magicByteInsert])
    (oversized : s.maxSize < s.input.length) :
    (applyMutation .dev corpus m).run s = .error .arithmeticOverflow := by
  have underflow : Profile.dev.sub s.maxSize s.input.length = .error .arithmeticOverflow := by
    rw [Profile.sub, if_neg (by omega)]
    rfl
  simp only [List.mem_cons, List.mem_singleton, List.not_mem_nil, or_false] at grows
  rcases grows with rfl | rfl | rfl | rfl <;>
    simp only [applyMutation, byteInsert, blockInsert, grow, magicByteInsert, MutatorM.run_bind,
      getMaxSize, getInput, MutatorM.ofBuffer, underflow] <;> rfl

/-- An entry longer than `max_size` is copied whole. Seed `12` stacks one `byte_overwrite`, which
keeps it too long, and the final assertion fires. The four operators that first compute the slack
`max_size - len` underflow on such a buffer, a panic with overflow checks; seed `20` stacks
`byte_insert` first. -/
theorem mutateInput_panics_on_oversized_entry :
    (Corpus.ofList [[0, 0]] (by decide)).Entries (fun e => 1 < e.length) ∧
      (mutateInput .release (Corpus.ofList [[0, 0]] (by decide))).run (Mutator.new (some 12) 0 1) =
        .error .assertionFailed ∧
      (mutateInput .dev (Corpus.ofList [[0, 0]] (by decide))).run (Mutator.new (some 20) 0 1) =
        .error .arithmeticOverflow ∧
      ∀ (corpus : Corpus) (m : MutationTypes) (s : Mutator),
        m ∈ [.byteInsert, .blockInsert, .grow, .magicByteInsert] → s.maxSize < s.input.length →
        (applyMutation .dev corpus m).run s = .error .arithmeticOverflow :=
  ⟨Corpus.entries_ofList (by decide), rfl, rfl,
    fun corpus _ _ grows oversized => applyMutation_slack_underflows corpus grows oversized⟩

/-- With overflow checks, `magic - 1` on `0` and `magic + 1` on `u64::MAX` panic, and both
values are in `MAGIC_NUMBERS`. -/
theorem mutateMagicValue_dev_overflow (s : Mutator) :
    (mutateMagicValue .dev 0 4).run s = .error .arithmeticOverflow ∧
      (mutateMagicValue .dev (BitVec.allOnes 64) 5).run s = .error .arithmeticOverflow ∧
      0 ∈ magicNumbers ∧ BitVec.allOnes 64 ∈ magicNumbers :=
  ⟨rfl, rfl, by decide, by decide⟩

/-- Seed `503335`, `max_size = 16` and one entry of eight zero bytes: the first call stacks a
`magic_byte_overwrite` whose `mutate_magic` applies `magic + 1` to `u64::MAX`. With overflow
checks the call panics; with wrapping it returns. -/
theorem mutateInput_overflows_in_mutateMagic :
    (mutateInput .dev (Corpus.ofList [List.replicate 8 0] (by decide))).run
        (Mutator.new (some 503335) 0 16) = .error .arithmeticOverflow ∧
      ((mutateInput .release (Corpus.ofList [List.replicate 8 0] (by decide))).run
        (Mutator.new (some 503335) 0 16)).toBool = true :=
  ⟨rfl, rfl⟩

/-- `mutate_input` reads neither the buffer nor the trace it starts from, so `memcpy_input`
calls can be dropped from a session without changing anything it produces. -/
theorem mutateInput_ignores_buffer_and_trace (p : Profile) (corpus : Corpus) :
    (∀ s₁ s₂ : Mutator, s₁.rng = s₂.rng → s₁.maxSize = s₂.maxSize →
      (mutateInput p corpus).run s₁ = (mutateInput p corpus).run s₂) ∧
    (∀ (calls : List Call) (s : Mutator),
      session p corpus calls s = session p corpus (calls.filter fun call => !call.isMemcpyInput) s) :=
  ⟨fun _ _ sameRng sameSize => mutateInput_run_congr p corpus sameRng sameSize,
    session_filter_memcpyInput⟩

theorem mutateInput_ignores_buffer_and_trace_on_two_buffers :
    ((⟨7, [1], 1, []⟩ : Mutator).rng = (⟨7, [2, 3], 1, [.grow]⟩ : Mutator).rng ∧
      (⟨7, [1], 1, []⟩ : Mutator).maxSize = (⟨7, [2, 3], 1, [.grow]⟩ : Mutator).maxSize) ∧
    (mutateInput .release oneByteCorpus).run ⟨7, [1], 1, []⟩ =
      (mutateInput .release oneByteCorpus).run ⟨7, [2, 3], 1, [.grow]⟩ :=
  ⟨⟨rfl, rfl⟩, (mutateInput_ignores_buffer_and_trace .release oneByteCorpus).1 _ _ rfl rfl⟩

end LucidMutator
