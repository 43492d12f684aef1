import LucidMutator.Mutator.Distance

/-!
# Scratch generation and shape operators

`generate_random_input` fills a fresh buffer of `1..=max_size` random bytes. `bit_flip`
toggles up to `MAX_BIT_CORRUPTION` bits, `grow` inserts a run of one repeated byte, and
`truncate` keeps a nonempty prefix.
-/

namespace LucidMutator

def maxBitCorruption : Nat := 64

/-- Generate a random input. -/
def generateRandomInput (p : Profile) : MutatorM Unit := do
  let inputSize ← p.add (← randMod (← getMaxSize)) 1
  setInput (Vec.resize (← getInput) inputSize 0)
  forRange inputSize fun i => do
    let byte := UInt8.ofNat ((← rand) % 256)
    setInput (← Vec.modify (← getInput) i fun _ => byte)

/-- Randomly flip bits in the input. -/
def bitFlip (p : Profile) : MutatorM Unit := do
  let numBits ← p.mul (← getInput).length 8
  let ceiling := min numBits maxBitCorruption
  let numFlips ← p.add (← randMod ceiling) 1
  forRange numFlips fun _ => do
    let bitPosition ← randMod numBits
    let byteIndex := bitPosition / 8
    let bitIndex := bitPosition % 8
    setInput (← Vec.modify (← getInput) byteIndex (· ^^^ (1 <<< UInt8.ofNat bitIndex)))

/-- Randomly insert random byte block into input. -/
def grow (p : Profile) : MutatorM Unit := do
  let slack ← p.sub (← getMaxSize) (← getInput).length
  if slack = 0 then
    return
  let size ← p.add (← randMod slack) 1
  let idx ← randMod (← getInput).length
  let byte := UInt8.ofNat ((← rand) % 256)
  forRange size fun _ => do
    setInput (← Vec.insert (← getInput) idx byte)

/-- Randomly truncate the input, always leave at least 1 byte. -/
def truncate (p : Profile) : MutatorM Unit := do
  let slack ← p.sub (← getInput).length 1
  if slack = 0 then
    return
  let idx ← p.add (← randMod slack) 1
  setInput (Vec.truncate (← getInput) idx)

variable (p : Profile) {s : Mutator}

/-- The scratch path makes a buffer of `1..=max_size` bytes, whatever the buffer was. -/
theorem generateRandomInput_spec (positive : 0 < s.maxSize) (usize : s.maxSize < 2 ^ 64) :
    wp (generateRandomInput p)
      (fun _ s' => 0 < s'.input.length ∧ s'.input.length ≤ s.maxSize) s := by
  simp only [generateRandomInput, wp_bind, wp_getMaxSize]
  refine wp_randMod positive fun r below => ?_
  simp (disch := omega) only [Profile.add_of_lt, wp_liftExcept_ok, wp_bind, wp_getInput,
    wp_setInput]
  have resized : (Vec.resize s.input (r + 1) 0).length = r + 1 := by
    unfold Vec.resize; split <;> simp <;> omega
  refine wp_mono (fun _ s' same => ⟨by omega, by omega⟩)
    (wp_forRange (fun _ s' => s'.input.length = r + 1) (fun i s' inside same => ?_) resized)
  simp (disch := omega) only [wp_bind, wp_rand, wp_getInput, Vec.modify_of_lt, wp_liftExcept_ok,
    wp_setInput, List.length_modify]
  exact same

/-- The scratch path fills its `n = rand() % max_size + 1` bytes with the low bytes of the next
`n` draws of `rand`, in order, whatever the buffer held before: the loop that resizes and then
writes each byte computes a `map`. -/
theorem generateRandomInput_bytes (positive : 0 < s.maxSize) (usize : s.maxSize < 2 ^ 64) :
    wp (generateRandomInput p) (fun _ s' =>
      s'.input = (List.range (s.rng.toNat % s.maxSize + 1)).map
        (fun i => UInt8.ofNat ((xorshift^[i] (xorshift s.rng)).toNat % 256)) ∧
      s'.rng = xorshift^[s.rng.toNat % s.maxSize + 1] (xorshift s.rng)) s := by
  have drawn := Nat.mod_lt s.rng.toNat positive
  simp (disch := omega) only [generateRandomInput, wp_getMaxSize_bind,
    wp_randMod_bind_eq positive, Profile.add_of_lt, wp_liftExcept_ok_bind, wp_getInput_bind,
    wp_setInput_bind]
  generalize s.rng.toNat % s.maxSize + 1 = n at drawn ⊢
  have resized : (Vec.resize s.input n 0).length = n := by
    unfold Vec.resize; split <;> simp <;> omega
  refine wp_mono ?done (wp_forRange (fun i s' => s'.rng = xorshift^[i] (xorshift s.rng) ∧
      s'.input = (List.range i).map
        (fun i => UInt8.ofNat ((xorshift^[i] (xorshift s.rng)).toNat % 256)) ++
          (Vec.resize s.input n 0).drop i) ?step ⟨rfl, rfl⟩)
  case done =>
    intro _ s' ⟨rng, input⟩
    rw [input, List.drop_eq_nil_of_le resized.le, List.append_nil]
    exact ⟨rfl, rng⟩
  case step =>
    intro i s' inside ⟨rng, input⟩
    have prefixLength : ((List.range i).map
        (fun i => UInt8.ofNat ((xorshift^[i] (xorshift s.rng)).toNat % 256))).length = i := by simp
    have rest : (Vec.resize s.input n 0).drop i ≠ [] := by simp; omega
    simp (disch := simp [input, resized]; omega) only [wp_bind, wp_rand, wp_getInput,
      Vec.modify_of_lt, wp_liftExcept_ok, wp_setInput]
    rw [input, modify_after_prefix _ prefixLength rest, rng]
    refine ⟨(Function.iterate_succ_apply' _ _ _).symm, ?_⟩
    simp [List.range_succ, List.tail_drop]

/-- `bit_flip` keeps the length and flips at most `min(8 * len, 64)` bits; `len * 8` stays in
`usize` below `2^61` bytes. -/
theorem bitFlip_spec (nonempty : 0 < s.input.length) (bits : s.input.length < 2 ^ 61) :
    wp (bitFlip p) (fun _ s' => s'.input.length = s.input.length ∧
      bitsChanged s.input s'.input ≤ min (s.input.length * 8) 64) s := by
  simp (disch := omega) only [bitFlip, wp_bind, wp_getInput, Profile.mul_of_lt, wp_liftExcept_ok]
  refine wp_randMod (by simp only [maxBitCorruption]; omega) fun r below => ?_
  simp only [maxBitCorruption] at below
  simp (disch := omega) only [Profile.add_of_lt, wp_liftExcept_ok]
  refine wp_mono (fun _ s' ⟨same, changed⟩ => ⟨same, by omega⟩)
    (wp_forRange
      (fun i s' => s'.input.length = s.input.length ∧ bitsChanged s.input s'.input ≤ i)
      (fun i s' _ ⟨same, changed⟩ => ?_) ⟨rfl, (distance_self bitDistance_self _).le⟩)
  simp only [wp_bind]
  refine wp_randMod (by omega) fun position below => ?_
  simp (disch := omega) only [wp_bind, wp_getInput, Vec.modify_of_lt, wp_liftExcept_ok,
    wp_setInput, List.length_modify]
  exact ⟨same, bitsChanged_flip_le same.symm changed _ (Nat.mod_lt _ (by decide))⟩

theorem insert_repeated (v : List UInt8) {i : Nat} (inside : i ≤ v.length) (byte : UInt8)
    (k : Nat) :
    (v.take i ++ List.replicate k byte ++ v.drop i).take i ++
        byte :: (v.take i ++ List.replicate k byte ++ v.drop i).drop i =
      v.take i ++ List.replicate (k + 1) byte ++ v.drop i := by
  have front : (v.take i).length = i := by simp; omega
  rw [List.append_assoc, List.take_left' front, List.drop_left' front]
  simp [List.replicate_succ]

/-- `grow` leaves a full buffer alone; otherwise it inserts `k` copies of one byte at one
index, `k` in `[1, slack]`. -/
theorem grow_spec (nonempty : 0 < s.input.length) (fits : s.input.length ≤ s.maxSize)
    (usize : s.maxSize < 2 ^ 64) :
    wp (grow p) (fun _ s' =>
      (s.input.length = s.maxSize ∧ s'.input = s.input) ∨
      (∃ i byte k, i < s.input.length ∧ 1 ≤ k ∧ k ≤ s.maxSize - s.input.length ∧
        s'.input = s.input.take i ++ List.replicate k byte ++ s.input.drop i)) s := by
  simp only [grow, wp_bind, wp_getMaxSize, wp_getInput, Profile.sub_of_le p fits,
    wp_liftExcept_ok, wp_ite, wp_pure]
  split_ifs with full
  · exact .inl ⟨by omega, trivial⟩
  refine wp_randMod (by omega) fun r below => ?_
  simp (disch := omega) only [Profile.add_of_lt, wp_liftExcept_ok, wp_bind, wp_getInput]
  refine wp_randMod nonempty fun idx inside => ?_
  simp only [wp_bind, wp_rand]
  refine wp_mono (fun _ s' grown => .inr ⟨idx, _, r + 1, inside, by omega, by omega, grown⟩)
    (wp_forRange (fun k s' => s'.input =
        s.input.take idx ++ List.replicate k (UInt8.ofNat ((xorshift (xorshift s.rng)).toNat % 256)) ++
          s.input.drop idx) (fun k s' _ current => ?_) (by simp))
  have fits : idx ≤ s'.input.length := by rw [current]; simp; omega
  simp only [wp_bind, wp_getInput, Vec.insert_of_le _ fits, wp_liftExcept_ok, wp_setInput]
  rw [current, insert_repeated s.input inside.le]

/-- `truncate` keeps a prefix of `k` bytes, `k` in `[1, len - 1]`, and leaves a one-byte
buffer alone. -/
theorem truncate_spec (nonempty : 0 < s.input.length) (usize : s.input.length < 2 ^ 64) :
    wp (truncate p) (fun _ s' =>
      (s.input.length = 1 ∧ s'.input = s.input) ∨
      (∃ k, 1 ≤ k ∧ k < s.input.length ∧ s'.input = s.input.take k)) s := by
  simp only [truncate, wp_bind, wp_getInput, Profile.sub_of_le p nonempty, wp_liftExcept_ok,
    wp_ite, wp_pure]
  split_ifs with single
  · exact .inl ⟨by omega, trivial⟩
  refine wp_randMod (by omega) fun r below => ?_
  simp (disch := omega) only [Profile.add_of_lt, wp_liftExcept_ok, wp_bind, wp_getInput,
    wp_setInput]
  exact .inr ⟨r + 1, by omega, by omega, rfl⟩

end LucidMutator
