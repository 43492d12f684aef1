import LucidMutator.Mutator.Shape
import LucidMutator.Mutator.Magic
import LucidMutator.Mutator.Splice

/-!
# The public interface

`mutate_input` clears the buffer, then either generates one from scratch or copies a corpus
entry and stacks 1 to `MAX_STACK` operators on it, drawn from `MUTATIONS` (the last three,
the longshots, only now and then). `Sized` is the bound the two assertions at its end check.
-/

namespace LucidMutator

def maxStack : Nat := 6

def longshotMutationRate : Nat := 5

def genScratchRate : Nat := 5

def mutations : List MutationTypes :=
  [.byteInsert, .byteOverwrite, .byteDelete, .blockInsert, .blockOverwrite, .blockDelete,
    .bitFlip, .grow, .truncate, .magicByteInsert, .magicByteOverwrite, .splice]

/-- The operator an arm of the `match` in `mutate_input` calls. -/
def applyMutation (p : Profile) (corpus : Corpus) : MutationTypes → MutatorM Unit
  | .byteInsert => byteInsert p
  | .byteOverwrite => byteOverwrite p
  | .byteDelete => byteDelete p
  | .blockInsert => blockInsert p
  | .blockOverwrite => blockOverwrite p
  | .blockDelete => blockDelete p
  | .bitFlip => bitFlip p
  | .grow => grow p
  | .truncate => truncate p
  | .magicByteInsert => magicByteInsert p
  | .magicByteOverwrite => magicByteOverwrite p
  | .splice => splice p corpus

def mutateInput (p : Profile) (corpus : Corpus) : MutatorM Unit := do
  setInput []
  setLastMutation []
  let numInputs := corpus.numInputs
  let gen ← randMod 100
  if numInputs = 0 ∨ gen < genScratchRate then
    generateRandomInput p
    return
  let idx ← randMod numInputs
  let chosen ← unwrap (corpus.getInput idx)
  setInput ((← getInput) ++ chosen)
  let rounds ← p.add (← randMod maxStack) 1
  forRange rounds fun _ => do
    let longshot ← randMod 100
    let pool :=
      if longshot ≤ longshotMutationRate then mutations.length else mutations.length - 3
    let mutation ← Vec.index mutations (← randMod pool)
    applyMutation p corpus mutation
    setLastMutation ((← getLastMutation) ++ [mutation])
  assert !(← getInput).isEmpty
  assert ((← getInput).length ≤ (← getMaxSize))

def memcpyInput (slice : List UInt8) : MutatorM Unit := do
  setInput []
  setInput ((← getInput) ++ slice)

/-- `Mutator::new`; `generated` is what `generate_seed()` returns when no seed is given. -/
def Mutator.new (seed : Option (BitVec 64)) (generated : BitVec 64) (maxSize : Nat) : Mutator where
  rng := match seed with
    | some seedVal => seedVal
    | none => generated
  input := []
  maxSize := maxSize
  lastMutation := []

/-- `reseed`, with the value `generate_seed()` returned; it also returns the new state. -/
def Mutator.reseed (generated : BitVec 64) (s : Mutator) : BitVec 64 × Mutator :=
  (generated, { s with rng := generated })

variable {s : Mutator}

/-- `1 <= input.len() <= max_size`, what `mutate_input` asserts before it returns. -/
def Sized (s : Mutator) : Prop := 0 < s.input.length ∧ s.input.length ≤ s.maxSize

theorem sized_of_advances {s s' : Mutator} (advanced : Advances s s')
    (nonempty : 0 < s'.input.length) (fits : s'.input.length ≤ s.maxSize) : Sized s' ∧ s'.maxSize = s.maxSize :=
  ⟨⟨nonempty, advanced.1 ▸ fits⟩, advanced.1⟩

/-- Every operator keeps `1 <= len <= max_size` and returns, `splice` once the corpus has an
entry; lengths below `2^61` keep `len * 8` of `bit_flip` in a `usize`. -/
theorem applyMutation_spec (corpus : Corpus) (m : MutationTypes) (sized : Sized s)
    (small : s.maxSize < 2 ^ 61) (entries : corpus.Entries fun e => 0 < e.length)
    (inhabited : m ≠ .splice ∨ 0 < corpus.numInputs) :
    wp (applyMutation .release corpus m) (fun _ s' => Sized s' ∧ s'.maxSize = s.maxSize) s := by
  obtain ⟨nonempty, fits⟩ := sized
  cases m with
  | byteInsert =>
    refine wp_mono (fun _ s' ⟨⟨n, grown, _, bound⟩, advanced⟩ => ?_)
      (wp_advances (byteInsert_spec _ nonempty fits))
    exact sized_of_advances advanced (by omega) (by omega)
  | byteOverwrite =>
    refine wp_mono (fun _ s' ⟨⟨same, _⟩, advanced⟩ => ?_)
      (wp_advances (byteOverwrite_spec _ nonempty))
    exact sized_of_advances advanced (by omega) (by omega)
  | byteDelete =>
    refine wp_mono (fun _ s' ⟨⟨n, shrunk, _, bound⟩, advanced⟩ => ?_)
      (wp_advances (byteDelete_spec _ nonempty))
    exact sized_of_advances advanced (by omega) (by omega)
  | blockInsert =>
    refine wp_mono (fun _ s' ⟨inserted, advanced⟩ => ?_)
      (wp_advances (blockInsert_spec _ nonempty fits (by omega)))
    rcases inserted with ⟨-, same⟩ | ⟨j, start, b, -, bound, inside, -, inserted⟩
    · exact sized_of_advances advanced (by rw [same]; omega) (by rw [same]; omega)
    · have length : s'.input.length = s.input.length + b := by rw [inserted]; simp; omega
      exact sized_of_advances advanced (by omega) (by omega)
  | blockOverwrite =>
    refine wp_mono (fun _ s' ⟨⟨start, w, b, _, _, _, inside, written⟩, advanced⟩ => ?_)
      (wp_advances (blockOverwrite_spec _ nonempty (by omega)))
    have length : s'.input.length = s.input.length := by rw [written]; simp; omega
    exact sized_of_advances advanced (by omega) (by omega)
  | blockDelete =>
    refine wp_mono (fun _ s' ⟨deleted, advanced⟩ => ?_)
      (wp_advances (blockDelete_spec _ nonempty (by omega)))
    rcases deleted with ⟨-, same⟩ | ⟨start, b, -, bound, inside, deleted⟩
    · exact sized_of_advances advanced (by rw [same]; omega) (by rw [same]; omega)
    · have length : s'.input.length = s.input.length - b := by rw [deleted]; simp; omega
      exact sized_of_advances advanced (by omega) (by omega)
  | bitFlip =>
    refine wp_mono (fun _ s' ⟨⟨same, _⟩, advanced⟩ => ?_)
      (wp_advances (bitFlip_spec _ nonempty (by omega)))
    exact sized_of_advances advanced (by omega) (by omega)
  | grow =>
    refine wp_mono (fun _ s' ⟨grown, advanced⟩ => ?_)
      (wp_advances (grow_spec _ nonempty fits (by omega)))
    rcases grown with ⟨-, same⟩ | ⟨i, byte, k, inside, -, bound, grown⟩
    · exact sized_of_advances advanced (by rw [same]; omega) (by rw [same]; omega)
    · have length : s'.input.length = s.input.length + k := by rw [grown]; simp; omega
      exact sized_of_advances advanced (by omega) (by omega)
  | truncate =>
    refine wp_mono (fun _ s' ⟨cut, advanced⟩ => ?_)
      (wp_advances (truncate_spec _ nonempty (by omega)))
    rcases cut with ⟨-, same⟩ | ⟨k, positive, below, cut⟩
    · exact sized_of_advances advanced (by rw [same]; omega) (by rw [same]; omega)
    · have length : s'.input.length = k := by rw [cut]; simp; omega
      exact sized_of_advances advanced (by omega) (by omega)
  | magicByteInsert =>
    refine wp_mono (fun _ s' ⟨⟨grown, bound, _⟩, advanced⟩ => ?_)
      (wp_advances (magicByteInsert_spec nonempty fits (by omega)))
    exact sized_of_advances advanced (by omega) bound
  | magicByteOverwrite =>
    refine wp_mono (fun _ s' ⟨⟨same, _⟩, advanced⟩ => ?_)
      (wp_advances (magicByteOverwrite_spec (by omega)))
    exact sized_of_advances advanced (by omega) (by omega)
  | splice =>
    have inhabited : 0 < corpus.numInputs := inhabited.resolve_left (fun wrong => wrong rfl)
    refine wp_mono (fun _ s' ⟨spliced, advanced⟩ => ?_)
      (wp_advances (splice_spec _ corpus nonempty fits (by omega) inhabited entries))
    obtain ⟨start, a, -, drawn, inside,
      ⟨-, same⟩ | ⟨below, i, e, t, b, -, -, -, least, most, spliced⟩⟩ := spliced
    · exact sized_of_advances advanced (by rw [same]; omega) (by rw [same]; omega)
    · have length : s'.input.length = a + b := by rw [spliced]; simp; omega
      exact sized_of_advances advanced (by omega) (by omega)

/-- From any state with such a `max_size`, `mutate_input` returns a buffer of
`1..=max_size` bytes: the scratch path does, and so does the corpus path, whose base entry
fits and whose operators keep it fitting, so both assertions hold. -/
theorem mutateInput_spec (corpus : Corpus) (positive : 0 < s.maxSize) (small : s.maxSize < 2 ^ 61)
    (entries : corpus.Entries fun e => 0 < e.length ∧ e.length ≤ s.maxSize) :
    wp (mutateInput .release corpus) (fun _ s' => Sized s' ∧ s'.maxSize = s.maxSize) s := by
  simp only [mutateInput, wp_setInput_bind, wp_setLastMutation_bind]
  refine wp_randMod_bind (by decide) fun gen _ => ?_
  rw [wp_ite]
  split_ifs with scratch
  · rw [wp_bind]
    refine wp_mono (fun _ s' ⟨⟨nonempty, fits⟩, advanced⟩ => ?_)
      (wp_advances (generateRandomInput_spec _ positive (show s.maxSize < 2 ^ 64 by omega)))
    exact (sized_of_advances advanced nonempty fits :)
  have inhabited : 0 < corpus.numInputs := by omega
  simp only [wp_pure_bind]
  refine wp_randMod_bind inhabited fun idx below => ?_
  obtain ⟨e, found, entryNonempty, entryFits⟩ := entries idx below
  simp only [found, unwrap_some, wp_liftExcept_ok_bind, wp_getInput_bind, wp_setInput_bind]
  refine wp_randMod_bind (by decide) fun r rBelow => ?_
  simp only [maxStack] at rBelow
  simp (disch := omega) only [Profile.add_of_lt, wp_liftExcept_ok_bind]
  rw [wp_bind]
  refine wp_mono (fun _ s' ⟨⟨nonempty, fits⟩, sameSize⟩ => ?_)
    (wp_forRange (fun _ s' => Sized s' ∧ s'.maxSize = s.maxSize)
      (fun i s' _ ⟨sized, sameSize⟩ => ?_)
      ⟨⟨by simpa using entryNonempty, by simpa using entryFits⟩, rfl⟩)
  · refine wp_randMod_bind (by decide) fun longshot _ => ?_
    refine wp_randMod_bind (by split <;> decide) fun k kBelow => ?_
    have inRange : k < mutations.length := by
      split at kBelow <;> simp only [mutations, List.length_cons, List.length_nil] at kBelow ⊢ <;>
        omega
    simp only [Vec.index_of_lt inRange, wp_liftExcept_ok_bind]
    rw [wp_bind]
    refine wp_mono (fun _ s'' ⟨sized', sameSize'⟩ => ?_)
      (applyMutation_spec corpus _ sized (show s'.maxSize < 2 ^ 61 by omega)
        (fun i below => (entries i below).imp fun _ ⟨found, nonempty, _⟩ => ⟨found, nonempty⟩)
        (.inr inhabited))
    simp only [wp_getLastMutation_bind, wp_setLastMutation]
    exact ⟨sized', sameSize'.trans sameSize⟩
  · have notEmpty : (!s'.input.isEmpty) = true := by
      cases h : s'.input with
      | nil => simp [h] at nonempty
      | cons => rfl
    simp only [wp_getInput_bind, notEmpty, assert_true, wp_liftExcept_ok_bind, wp_getMaxSize_bind,
      decide_eq_true fits, wp_liftExcept_ok]
    exact ⟨⟨nonempty, fits⟩, sameSize⟩

theorem run_setInput_bind {β : Type} (v : List UInt8) (f : Unit → MutatorM β) :
    (setInput v >>= f).run s = (f ()).run { s with input := v } := rfl

theorem run_setLastMutation_bind {β : Type} (l : List MutationTypes) (f : Unit → MutatorM β) :
    (setLastMutation l >>= f).run s = (f ()).run { s with lastMutation := l } := rfl

/-- `mutate_input` clears the buffer and the trace before it reads anything, so its run
depends on `rng` and `max_size` alone. -/
theorem mutateInput_run_congr (p : Profile) (corpus : Corpus) {s₁ s₂ : Mutator}
    (sameRng : s₁.rng = s₂.rng) (sameSize : s₁.maxSize = s₂.maxSize) :
    (mutateInput p corpus).run s₁ = (mutateInput p corpus).run s₂ := by
  simp only [mutateInput, run_setInput_bind, run_setLastMutation_bind, sameRng, sameSize]

/-- From `rng = 0` every draw is `0`: `mutate_input` takes the scratch path, makes the single
byte `0x00`, and leaves `rng` at `0`. -/
theorem mutateInput_of_rng_zero (p : Profile) (corpus : Corpus) (zero : s.rng = 0)
    (positive : 0 < s.maxSize) :
    (mutateInput p corpus).run s = .ok ((), { s with input := [0], lastMutation := [] }) := by
  have drawn : (0 : BitVec 64).toNat = 0 := rfl
  have holds : wp (mutateInput p corpus)
      (fun _ s' => s' = { s with input := [0], lastMutation := [] }) s := by
    simp only [mutateInput, wp_setInput_bind, wp_setLastMutation_bind,
      wp_randMod_bind_eq (show 0 < 100 by decide), zero, drawn, Nat.zero_mod, xorshift_zero,
      genScratchRate, wp_ite]
    rw [if_pos (.inr (by decide))]
    simp (disch := omega) only [generateRandomInput, randMod, forRange, forFrom, wp_bind,
      wp_getMaxSize, wp_getInput, wp_setInput, wp_rand, wp_pure, rem_of_pos, wp_liftExcept_ok,
      drawn, Nat.zero_mod, xorshift_zero, Profile.add_of_lt, Nat.zero_add]
    have resized : Vec.resize ([] : List UInt8) 1 0 = [0] := rfl
    simp (disch := decide) only [resized, Vec.modify_of_lt, wp_liftExcept_ok,
      List.modify_zero_cons]
    rfl
  obtain ⟨⟨⟩, s', found, rfl⟩ := wp_iff_run.mp holds
  exact found

/-- With `max_size = 0` no call of `mutate_input` returns, under either build: the scratch path
takes a remainder by zero, and on the corpus path the two final assertions cannot both hold. -/
theorem mutateInput_panics_of_maxSize_zero (p : Profile) (corpus : Corpus) {s : Mutator}
    (zero : s.maxSize = 0) : wlp (mutateInput p corpus) (fun _ _ => False) s := by
  simp only [mutateInput, wlp_bind, wlp_setInput, wlp_setLastMutation]
  refine wlp_of_advances fun gen s₁ ⟨sized₁, _⟩ => ?_
  rw [wlp_ite]
  split_ifs
  · simp only [generateRandomInput, wlp_bind, wlp_getMaxSize]
    rw [sized₁, zero]
    exact wlp_randMod_zero
  simp only [wlp_pure, wlp_bind]
  refine wlp_of_advances fun idx s₂ ⟨sized₂, _⟩ => ?_
  refine wlp_of_advances fun chosen s₃ ⟨sized₃, _⟩ => ?_
  simp only [wlp_getInput, wlp_setInput]
  refine wlp_of_advances fun r s₄ ⟨sized₄, _⟩ => ?_
  refine wlp_of_advances fun rounds s₅ ⟨sized₅, _⟩ => ?_
  refine wlp_of_advances fun _ s₆ ⟨sized₆, _⟩ => ?_
  simp only [wlp_getInput, wlp_getMaxSize, wlp_liftExcept, assert_eq_ok]
  intro _ nonempty _ fits
  simp only at sized₁ sized₄
  have empty : s₆.input.length = 0 := by
    have := of_decide_eq_true fits
    omega
  simp [List.length_eq_zero.mp empty] at nonempty

theorem mutateInput_panics_of_maxSize_zero_on_one_entry :
    (Mutator.new (some 1) 1 0).maxSize = 0 ∧
      wlp (mutateInput .release (Corpus.ofList [[7]] (by decide))) (fun _ _ => False)
        (Mutator.new (some 1) 1 0) :=
  ⟨rfl, mutateInput_panics_of_maxSize_zero .release _ rfl⟩

end LucidMutator
