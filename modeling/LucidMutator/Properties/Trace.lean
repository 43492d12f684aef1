import LucidMutator.Mutator.Frame
import LucidMutator.Mutator.Overflow
import LucidMutator.Properties.Sessions

/-!
# What `last_mutation` records

`Effect m` is what operator `m` may do to a buffer, and every operator refines its effect.
`Stacked e ms v` says that the operators of `ms`, applied in order, can take `e` to `v`: every
buffer `mutate_input` returns is made from scratch with an empty trace, or is stacked by its trace
onto a corpus entry.
-/

namespace LucidMutator

/-- What operator `m` may do to the buffer `v`, with `MAX_BYTE_CORRUPTION = 64`,
`MAX_BLOCK_CORRUPTION = 512` and `MAX_BIT_CORRUPTION = 64`. -/
def Effect (corpus : Corpus) : MutationTypes → List UInt8 → List UInt8 → Prop
  | .byteInsert, v, w => v.Sublist w ∧ w.length ≤ v.length + 64
  | .byteOverwrite, v, w => w.length = v.length ∧ bytesChanged v w ≤ 64
  | .byteDelete, v, w => w.Sublist v ∧ v.length ≤ w.length + 64
  | .blockInsert, v, w => ∃ j start b, b ≤ 512 ∧ start + b ≤ v.length ∧
      w = v.take j ++ (v.drop start).take b ++ v.drop j
  | .blockOverwrite, v, w => w.length = v.length ∧ bytesChanged v w ≤ 512
  | .blockDelete, v, w => ∃ start b, b ≤ 512 ∧ w = v.take start ++ v.drop (start + b)
  | .bitFlip, v, w => w.length = v.length ∧ bitsChanged v w ≤ 64
  | .grow, v, w => ∃ i byte k, w = v.take i ++ List.replicate k byte ++ v.drop i
  | .truncate, v, w => w <+: v ∧ 0 < w.length
  | .magicByteInsert, v, w => v.length ≤ w.length ∧ w.length ≤ v.length + 64
  | .magicByteOverwrite, v, w => w.length = v.length ∧ bytesChanged v w ≤ 64
  | .splice, v, w => w = v ∨ ∃ start a i e t b, corpus.getInput i = some e ∧
      w = (v.drop start).take a ++ (e.drop t).take b

variable {corpus : Corpus} {s : Mutator}

/-- Every operator refines its effect, under the preconditions of its size contract. -/
theorem applyMutation_effect (corpus : Corpus) (m : MutationTypes) (sized : Sized s)
    (small : s.maxSize < 2 ^ 61) (entries : corpus.Entries fun e => 0 < e.length)
    (inhabited : m ≠ .splice ∨ 0 < corpus.numInputs) :
    wp (applyMutation .release corpus m) (fun _ s' => Effect corpus m s.input s'.input) s := by
  obtain ⟨nonempty, fits⟩ := sized
  cases m with
  | byteInsert =>
    exact wp_mono (fun _ _ ⟨_, grown, kept, bound⟩ => ⟨kept, by omega⟩)
      (byteInsert_spec _ nonempty fits)
  | byteOverwrite =>
    exact wp_mono (fun _ _ ⟨same, changed⟩ => ⟨same, by omega⟩)
      (byteOverwrite_spec _ nonempty)
  | byteDelete =>
    exact wp_mono (fun _ _ ⟨_, shrunk, kept, bound⟩ => ⟨kept, by omega⟩)
      (byteDelete_spec _ nonempty)
  | blockInsert =>
    refine wp_mono (fun _ s' inserted => ?_) (blockInsert_spec _ nonempty fits (by omega))
    rcases inserted with ⟨-, same⟩ | ⟨j, start, b, -, bound, inside, -, inserted⟩
    · exact ⟨0, 0, 0, by decide, by simp, by simp [same]⟩
    · exact ⟨j, start, b, by omega, inside, inserted⟩
  | blockOverwrite =>
    refine wp_mono (fun _ s' ⟨start, j, b, _, bound, inside, fits', written⟩ => ?_)
      (blockOverwrite_spec _ nonempty (by omega))
    have block : ((s.input.drop start).take b).length = b := by
      rw [List.length_take, List.length_drop]; omega
    have window := bytesChanged_window (v := s.input) (w := (s.input.drop start).take b) (j := j)
      (by omega)
    rw [block] at window
    rw [written]
    refine ⟨?_, by omega⟩
    rw [List.length_append, List.length_append, block, List.length_take, List.length_drop]
    omega
  | blockDelete =>
    refine wp_mono (fun _ s' deleted => ?_) (blockDelete_spec _ nonempty (by omega))
    rcases deleted with ⟨-, same⟩ | ⟨start, b, -, bound, -, deleted⟩
    · exact ⟨0, 0, by decide, by simp [same]⟩
    · exact ⟨start, b, by omega, deleted⟩
  | bitFlip =>
    exact wp_mono (fun _ _ ⟨same, changed⟩ => ⟨same, by omega⟩)
      (bitFlip_spec _ nonempty (by omega))
  | grow =>
    refine wp_mono (fun _ s' grown => ?_) (grow_spec _ nonempty fits (by omega))
    rcases grown with ⟨-, same⟩ | ⟨i, byte, k, -, -, -, grown⟩
    · exact ⟨0, 0, 0, by simp [same]⟩
    · exact ⟨i, byte, k, grown⟩
  | truncate =>
    refine wp_mono (fun _ s' cut => ?_) (truncate_spec _ nonempty (by omega))
    rcases cut with ⟨-, same⟩ | ⟨k, positive, below, cut⟩
    · exact ⟨same ▸ List.prefix_refl _, same ▸ nonempty⟩
    · exact ⟨cut ▸ List.take_prefix _ _, by simp [cut]; omega⟩
  | magicByteInsert =>
    exact wp_mono (fun _ _ ⟨grown, _, bound⟩ => ⟨grown, bound⟩)
      (magicByteInsert_spec nonempty fits (by omega))
  | magicByteOverwrite => exact magicByteOverwrite_spec (by omega)
  | splice =>
    have inhabited : 0 < corpus.numInputs := inhabited.resolve_left fun wrong => wrong rfl
    refine wp_mono (fun _ s' spliced => ?_)
      (splice_spec _ corpus nonempty fits (by omega) inhabited entries)
    obtain ⟨start, a, -, -, -,
      ⟨-, same⟩ | ⟨-, i, e, t, b, -, found, -, -, -, spliced⟩⟩ := spliced
    · exact .inl same
    · exact .inr ⟨start, a, i, e, t, b, found, spliced⟩

/-- In either build, every operator refines its effect and keeps the size bounds, `splice` once
the corpus has an entry; with overflow checks a magic operator may instead stop at an overflow. -/
theorem applyMutation_effect_sized (p : Profile) (corpus : Corpus) (m : MutationTypes)
    (sized : Sized s) (small : s.maxSize < 2 ^ 61) (entries : corpus.Entries fun e => 0 < e.length)
    (inhabited : m ≠ .splice ∨ 0 < corpus.numInputs) :
    wp (applyMutation p corpus m) (fun _ s' =>
      Effect corpus m s.input s'.input ∧ Sized s' ∧ s'.maxSize = s.maxSize) s ∨
    (p = .dev ∧ (m = .magicByteInsert ∨ m = .magicByteOverwrite) ∧
      (applyMutation p corpus m).run s = .error .arithmeticOverflow) := by
  have wrapping := wp_and (applyMutation_effect corpus m sized small entries inhabited)
    (applyMutation_spec corpus m sized small entries inhabited)
  cases p with
  | release => exact .inl wrapping
  | dev =>
    by_cases magic : m = .magicByteInsert ∨ m = .magicByteOverwrite
    · rcases applyMutation_checked corpus m s with overflowed | same
      · exact .inr ⟨rfl, magic, overflowed⟩
      · exact .inl (wp_of_run_eq same wrapping)
    · exact .inl (wp_of_run_eq (applyMutation_dev_eq_release corpus sized small entries inhabited
        (not_or.mp magic)) wrapping)

theorem applyMutation_effect_sized_on_magicByteInsert :
    (Sized ⟨14992850987490525992, [7], 100, []⟩ ∧ (100 : Nat) < 2 ^ 61 ∧
      oneByteCorpus.Entries (fun e => 0 < e.length) ∧
      (MutationTypes.magicByteInsert ≠ .splice ∨ 0 < oneByteCorpus.numInputs)) ∧
    (wp (applyMutation .dev oneByteCorpus .magicByteInsert)
        (fun _ s' => Effect oneByteCorpus .magicByteInsert [7] s'.input ∧ Sized s' ∧
          s'.maxSize = 100) ⟨14992850987490525992, [7], 100, []⟩ ∨
      (Profile.dev = .dev ∧
        (MutationTypes.magicByteInsert = .magicByteInsert ∨
          MutationTypes.magicByteInsert = .magicByteOverwrite) ∧
        (applyMutation .dev oneByteCorpus .magicByteInsert).run
          ⟨14992850987490525992, [7], 100, []⟩ = .error .arithmeticOverflow)) :=
  have entries : oneByteCorpus.Entries fun e => 0 < e.length := Corpus.entries_ofList (by decide)
  ⟨⟨⟨by decide, by decide⟩, by norm_num, entries, .inl (by decide)⟩,
    applyMutation_effect_sized (s := ⟨14992850987490525992, [7], 100, []⟩) .dev oneByteCorpus
      .magicByteInsert ⟨by decide, by decide⟩ (by norm_num) entries (.inl (by decide))⟩

/-! ## Stacks of operators -/

/-- The operators of `ms`, applied in order from `e`, can give `v`; as in `mutate_input`, an
operator is pushed once it has run. -/
inductive Stacked (corpus : Corpus) (e : List UInt8) : List MutationTypes → List UInt8 → Prop
  | nil : Stacked corpus e [] e
  | push {ms v w m} : Stacked corpus e ms v → Effect corpus m v w →
      Stacked corpus e (ms ++ [m]) w

/-- The operators that write in place. -/
def MutationTypes.inPlace : MutationTypes → Bool
  | .byteOverwrite | .blockOverwrite | .bitFlip | .magicByteOverwrite => true
  | _ => false

theorem Effect.inPlace {m : MutationTypes} {v w : List UInt8} (effect : Effect corpus m v w)
    (inPlace : m.inPlace = true) : w.length = v.length ∧ bytesChanged v w ≤ 512 := by
  cases m <;> simp only [MutationTypes.inPlace, reduceCtorEq] at inPlace <;>
    obtain ⟨same, changed⟩ := effect
  · exact ⟨same, by omega⟩
  · exact ⟨same, changed⟩
  · exact ⟨same, (bytesChanged_le_bitsChanged v w).trans (by omega)⟩
  · exact ⟨same, by omega⟩

/-- A stack of operators that all write in place keeps the entry's length and changes at most
`MAX_BLOCK_CORRUPTION` bytes per operator. -/
theorem Stacked.inPlace_bound {e v : List UInt8} {ms : List MutationTypes}
    (stacked : Stacked corpus e ms v) (inPlace : ∀ m ∈ ms, m.inPlace = true) :
    v.length = e.length ∧ bytesChanged e v ≤ 512 * ms.length := by
  induction stacked with
  | nil => exact ⟨rfl, (distance_self byteDistance_self e).le⟩
  | @push ms v w m _ effect inductionHypothesis =>
    obtain ⟨same, changed⟩ :=
      inductionHypothesis fun m' listed => inPlace m' (List.mem_append_left _ listed)
    obtain ⟨same', changed'⟩ := effect.inPlace (inPlace m (by simp))
    have moved := bytesChanged_trans same.symm same'.symm
    rw [List.length_append, List.length_singleton]
    exact ⟨same'.trans same, by omega⟩

theorem Stacked.inPlace_bound_on_two :
    (Stacked oneByteCorpus [7] [.byteOverwrite, .bitFlip] [4] ∧
      ∀ m ∈ [MutationTypes.byteOverwrite, .bitFlip], m.inPlace = true) ∧
    [4].length = [7].length ∧ bytesChanged [7] [4] ≤ 512 * 2 :=
  have first : Stacked oneByteCorpus [7] ([] ++ [.byteOverwrite]) [5] :=
    .push .nil ⟨rfl, by decide⟩
  have stacked : Stacked oneByteCorpus [7] ([.byteOverwrite] ++ [.bitFlip]) [4] :=
    .push first ⟨rfl, by decide⟩
  have inPlace : ∀ m ∈ [MutationTypes.byteOverwrite, .bitFlip], m.inPlace = true := by decide
  ⟨⟨stacked, inPlace⟩, Stacked.inPlace_bound stacked inPlace⟩

/-! ## `mutate_input` -/

/-- One round of the loop of `mutate_input`, as it stands there: from a sized buffer it applies
one operator within its effect, keeps the buffer sized, and pushes the operator. -/
theorem mutationRound_spec (corpus : Corpus) (sized : Sized s) (small : s.maxSize < 2 ^ 61)
    (entries : corpus.Entries fun e => 0 < e.length) (inhabited : 0 < corpus.numInputs) :
    wp (do
        let longshot ← randMod 100
        let pool :=
          if longshot ≤ longshotMutationRate then mutations.length else mutations.length - 3
        let mutation ← Vec.index mutations (← randMod pool)
        applyMutation .release corpus mutation
        setLastMutation ((← getLastMutation) ++ [mutation]))
      (fun _ s' => ∃ m, Effect corpus m s.input s'.input ∧
        s'.lastMutation = s.lastMutation ++ [m] ∧ Sized s' ∧ s'.maxSize = s.maxSize) s := by
  refine wp_randMod_bind (by decide) fun longshot _ => ?_
  refine wp_randMod_bind (by split <;> decide) fun k kBelow => ?_
  have inRange : k < mutations.length := by
    split at kBelow <;> simp only [mutations, List.length_cons, List.length_nil] at kBelow ⊢ <;>
      omega
  simp only [Vec.index_of_lt inRange, wp_liftExcept_ok_bind]
  rw [wp_bind]
  refine wp_mono (fun _ s' ⟨⟨effect, sized', sameSize'⟩, kept⟩ => ?_)
    ((applyMutation_ignoresTrace _ _ _).wp_lastMutation
      (wp_and (applyMutation_effect corpus _ sized small entries (.inr inhabited))
        (applyMutation_spec corpus _ sized small entries (.inr inhabited))))
  simp only [wp_getLastMutation_bind, wp_setLastMutation]
  exact ⟨_, effect, by rw [kept], sized', sameSize'⟩

/-- On the scratch path (an empty corpus, or a first draw below `GEN_SCRATCH_RATE`),
`mutate_input` returns `n = rand() % max_size + 1` bytes, `rand()` being its second draw: the
low bytes of the next `n` draws, in order, with an empty trace. -/
theorem mutateInput_scratch_bytes (p : Profile) (corpus : Corpus) (positive : 0 < s.maxSize)
    (usize : s.maxSize < 2 ^ 64)
    (scratch : corpus.numInputs = 0 ∨ s.rng.toNat % 100 < genScratchRate) :
    wp (mutateInput p corpus) (fun _ s' =>
      s'.input = (List.range ((xorshift s.rng).toNat % s.maxSize + 1)).map
        (fun i => UInt8.ofNat ((xorshift^[i] (xorshift (xorshift s.rng))).toNat % 256)) ∧
      s'.lastMutation = []) s := by
  simp only [mutateInput, wp_setInput_bind, wp_setLastMutation_bind,
    wp_randMod_bind_eq (show 0 < 100 by decide)]
  rw [wp_ite, if_pos scratch, wp_bind]
  exact wp_mono (fun _ s' ⟨⟨input, _⟩, kept⟩ => ⟨input, kept⟩)
    ((generateRandomInput_ignoresTrace p).wp_lastMutation
      (generateRandomInput_bytes p positive usize))

theorem mutateInput_scratch_bytes_on_empty_corpus :
    (0 < 4 ∧ 4 < 2 ^ 64 ∧ ((Corpus.ofList [] (by decide)).numInputs = 0 ∨
        (1 : BitVec 64).toNat % 100 < genScratchRate)) ∧
    wp (mutateInput .release (Corpus.ofList [] (by decide))) (fun _ s' =>
      s'.input = (List.range ((xorshift 1).toNat % 4 + 1)).map
        (fun i => UInt8.ofNat ((xorshift^[i] (xorshift (xorshift 1))).toNat % 256)) ∧
      s'.lastMutation = []) ⟨1, [], 4, []⟩ :=
  ⟨⟨by decide, by norm_num, .inl rfl⟩,
    mutateInput_scratch_bytes (s := ⟨1, [], 4, []⟩) .release _ (by decide) (by norm_num)
      (.inl rfl)⟩
/-! ## Sessions -/

/-- However it is built and whatever its corpus, a call of `mutate_input` that returns leaves
at most `MAX_STACK` operators in `last_mutation`. -/
theorem mutateInput_lastMutation_le (p : Profile) (corpus : Corpus) (s : Mutator) :
    wlp (mutateInput p corpus) (fun _ s' => s'.lastMutation.length ≤ maxStack) s := by
  simp only [mutateInput, wlp_bind, wlp_setInput, wlp_setLastMutation]
  refine (IgnoresTrace.randMod _).wlp fun gen s₁ cleared => ?_
  rw [wlp_ite]
  split_ifs
  · rw [wlp_bind]
    refine (generateRandomInput_ignoresTrace p).wlp fun _ s₂ kept => ?_
    simp only [wlp_pure, kept, cleared, List.length_nil]
    decide
  simp only [wlp_pure, wlp_bind]
  refine (IgnoresTrace.randMod _).wlp fun idx s₂ kept => ?_
  refine (IgnoresTrace.lift _).wlp fun chosen s₃ kept' => ?_
  simp only [wlp_getInput, wlp_setInput]
  refine wlp_of_wp (wp_randMod (by decide) fun r below => ?_)
  simp only [maxStack] at below
  simp (disch := omega) only [Profile.add_of_lt, wlp_liftExcept, Except.ok.injEq, forall_eq']
  refine wlp_mono (fun _ s₄ (bounded : s₄.lastMutation.length ≤ r + 1) => ?_)
    (wlp_forRange (fun i s' => s'.lastMutation.length ≤ i) (fun i s' _ held => ?_) ?_)
  · simp only [wlp_bind, wlp_getInput, wlp_getMaxSize, wlp_liftExcept]
    intros
    simp only [maxStack]
    omega
  · simp only [wlp_bind]
    refine (IgnoresTrace.randMod _).wlp fun _ s₅ kept₅ => ?_
    refine (IgnoresTrace.randMod _).wlp fun _ s₆ kept₆ => ?_
    refine (IgnoresTrace.lift _).wlp fun m s₇ kept₇ => ?_
    refine (applyMutation_ignoresTrace p corpus m).wlp fun _ s₈ kept₈ => ?_
    simp only [wlp_getLastMutation, wlp_setLastMutation, List.length_append,
      List.length_singleton]
    rw [kept₈, kept₇, kept₆, kept₅]
    omega
  · show s₃.lastMutation.length ≤ 0
    rw [kept', kept, cleared]
    rfl

/-- From `new`, under either build and whatever the corpus and the reseeds, every reachable
state holds at most `MAX_STACK` operators in `last_mutation`: the capacity `new` reserves for
it is never outgrown. -/
theorem Reachable.lastMutation_length_le {p : Profile} {corpus : Corpus}
    {seeds : BitVec 64 → Prop} {seed : Option (BitVec 64)} {generated : BitVec 64}
    {maxSize : Nat} {s : Mutator}
    (reached : Reachable p corpus seeds (Mutator.new seed generated maxSize) s) :
    s.lastMutation.length ≤ maxStack := by
  induction reached with
  | init => exact Nat.zero_le _
  | mutateInput _ ran _ => exact wlp_run (mutateInput_lastMutation_le p corpus _) ran
  | memcpyInput slice _ ran bounded =>
    rw [memcpyInput_run] at ran
    cases ran
    exact bounded
  | reseed _ _ bounded => exact bounded

set_option maxRecDepth 4000 in
theorem Reachable.lastMutation_length_le_from_seven :
    Reachable .release oneByteCorpus (fun _ => True) (Mutator.new (some 7) 1 4)
        ⟨8585876501973739966, [125, 53, 7], 4, [.blockOverwrite, .byteInsert]⟩ ∧
      (⟨8585876501973739966, [125, 53, 7], 4, [.blockOverwrite, .byteInsert]⟩ :
        Mutator).lastMutation.length ≤ maxStack :=
  have reached : Reachable .release oneByteCorpus (fun _ => True) (Mutator.new (some 7) 1 4)
      ⟨8585876501973739966, [125, 53, 7], 4, [.blockOverwrite, .byteInsert]⟩ :=
    .mutateInput .init rfl
  ⟨reached, Reachable.lastMutation_length_le reached⟩

end LucidMutator
