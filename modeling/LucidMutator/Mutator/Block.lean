import LucidMutator.Mutator.Logic

/-!
# Block operators

`block_insert`, `block_overwrite` and `block_delete` move one contiguous block of at most
`MAX_BLOCK_CORRUPTION` bytes. The two that copy go through a 512-byte scratch array, so
the block is read from the buffer before anything is written.
-/

namespace LucidMutator

def maxBlockCorruption : Nat := 512

/-- `for (i, &byte) in bytes.iter().enumerate() { self.input.insert(idx + i, byte); }`,
the loop of `block_insert` and `magic_byte_insert`. -/
def insertBytes (p : Profile) (idx : Nat) (bytes : List UInt8) : MutatorM Unit :=
  forRange bytes.length fun i => do
    setInput (← Vec.insert (← getInput) (← p.add idx i) (bytes.getD i 0))

/-- Grab a block from the input, and insert it randomly somewhere. -/
def blockInsert (p : Profile) : MutatorM Unit := do
  let block := List.replicate maxBlockCorruption (0 : UInt8)
  let slack ← p.sub (← getMaxSize) (← getInput).length
  if slack = 0 then
    return
  let ceiling := min slack maxBlockCorruption
  let input ← getInput
  let ceiling := if ceiling > input.length then input.length else ceiling
  let blockSize ← p.add (← randMod ceiling) 1
  let maxStart ← p.sub (← getInput).length blockSize
  let blockStart ← randMod (← p.add maxStart 1)
  let block ← Vec.copyFromSlice block 0 blockSize
    (← Vec.slice (← getInput) blockStart (← p.add blockStart blockSize))
  let blockInsert ← randMod (← getInput).length
  insertBytes p blockInsert (← Vec.slice block 0 blockSize)

/-- Grab a block from the input and overwrite the contents somewhere with it. -/
def blockOverwrite (p : Profile) : MutatorM Unit := do
  let block := List.replicate maxBlockCorruption (0 : UInt8)
  let ceiling := min (← getInput).length maxBlockCorruption
  let blockSize ← p.add (← randMod ceiling) 1
  let maxStart ← p.sub (← getInput).length blockSize
  let blockStart ← randMod (← p.add maxStart 1)
  let block ← Vec.copyFromSlice block 0 blockSize
    (← Vec.slice (← getInput) blockStart (← p.add blockStart blockSize))
  let overwriteStart ← randMod (← p.add maxStart 1)
  setInput (← Vec.copyFromSlice (← getInput) overwriteStart (← p.add overwriteStart blockSize)
    (← Vec.slice block 0 blockSize))

/-- Remove a random block from the input. -/
def blockDelete (p : Profile) : MutatorM Unit := do
  let ceiling := min (← p.sub (← getInput).length 1) maxBlockCorruption
  if ceiling = 0 then
    return
  let blockSize ← p.add (← randMod ceiling) 1
  let maxStart ← p.sub (← getInput).length blockSize
  let blockStart ← randMod (← p.add maxStart 1)
  setInput (← Vec.drain (← getInput) blockStart (← p.add blockStart blockSize))

variable (p : Profile) {s : Mutator}

theorem take_succ_getD {w : List UInt8} {i : Nat} (inside : i < w.length) :
    w.take (i + 1) = w.take i ++ [w.getD i 0] := by
  rw [List.take_succ, List.getElem?_eq_getElem inside]
  simp [inside]

theorem insert_after_prefix (front back : List UInt8) (byte : UInt8) :
    (front ++ back).take front.length ++ byte :: (front ++ back).drop front.length =
      front ++ [byte] ++ back := by
  rw [List.take_left' rfl, List.drop_left' rfl]
  simp

/-- The insertion loop splices `w` into the buffer at `j`, contiguously and in order. -/
theorem insertBytes_spec (j : Nat) (w : List UInt8) (inside : j ≤ s.input.length)
    (fits : j + w.length ≤ 2 ^ 64) :
    wp (insertBytes p j w) (fun _ s' => s'.input = s.input.take j ++ w ++ s.input.drop j) s := by
  refine wp_mono (fun _ s' inserted => by simpa using inserted)
    (wp_forRange (fun i s' => s'.input = s.input.take j ++ w.take i ++ s.input.drop j)
      (fun i s' below current => ?_) (by simp))
  have prefixLength : (s.input.take j ++ w.take i).length = j + i := by simp; omega
  simp (disch := omega) only [wp_bind, wp_getInput, Profile.add_of_lt, wp_liftExcept_ok]
  rw [current, Vec.insert_of_le _ (by simp; omega), ← prefixLength, insert_after_prefix]
  simp only [wp_liftExcept_ok, wp_setInput, take_succ_getD below, List.append_assoc]

/-- Copying a block of `b` bytes into the front of the zeroed scratch array. -/
theorem copyFromSlice_scratch {src : List UInt8} {b : Nat} (length : src.length = b)
    (short : b ≤ maxBlockCorruption) :
    Vec.copyFromSlice (List.replicate maxBlockCorruption 0) 0 b src =
      .ok (src ++ List.replicate (maxBlockCorruption - b) 0) := by
  rw [Vec.copyFromSlice_of_le (Nat.zero_le _) (by rw [List.length_replicate]; exact short)
    (by rw [length]; rfl)]
  simp

theorem slice_front {front back : List UInt8} {b : Nat} (length : front.length = b) :
    Vec.slice (front ++ back) 0 b = .ok front := by
  rw [Vec.slice_of_le (Nat.zero_le _) (by simp; omega)]
  simp [← length]

/-- `block_insert` leaves a full buffer alone; otherwise it copies a block `v[s..s+b]` of
the buffer as it was and inserts it whole at an index `j` of that buffer. -/
theorem blockInsert_spec (nonempty : 0 < s.input.length) (fits : s.input.length ≤ s.maxSize)
    (usize : s.maxSize < 2 ^ 64) :
    wp (blockInsert p) (fun _ s' =>
      (s.input.length = s.maxSize ∧ s'.input = s.input) ∨
      (∃ j start b, 1 ≤ b ∧ b ≤ min (min (s.maxSize - s.input.length) 512) s.input.length ∧
        start + b ≤ s.input.length ∧ j < s.input.length ∧
        s'.input = s.input.take j ++ (s.input.drop start).take b ++ s.input.drop j)) s := by
  simp only [blockInsert, wp_bind, wp_getMaxSize, wp_getInput, Profile.sub_of_le p fits,
    wp_liftExcept_ok, wp_ite, wp_pure]
  have ceiling : (if min (s.maxSize - s.input.length) maxBlockCorruption > s.input.length
      then s.input.length else min (s.maxSize - s.input.length) maxBlockCorruption) =
      min (min (s.maxSize - s.input.length) 512) s.input.length := by
    simp only [maxBlockCorruption]; split <;> omega
  simp only [ceiling]
  split_ifs with full
  · exact .inl ⟨by omega, trivial⟩
  refine wp_randMod (by omega) fun r below => ?_
  simp (disch := omega) only [Profile.add_of_lt, Profile.sub_of_le, wp_liftExcept_ok, wp_bind,
    wp_getInput]
  refine wp_randMod (by omega) fun start startBelow => ?_
  simp (disch := omega) only [Profile.add_of_lt, Vec.slice_of_le, wp_liftExcept_ok, wp_bind,
    wp_getInput, Nat.add_sub_cancel_left]
  have blockLength : ((s.input.drop start).take (r + 1)).length = r + 1 := by simp; omega
  rw [copyFromSlice_scratch blockLength (by simp only [maxBlockCorruption]; omega)]
  simp only [wp_liftExcept_ok, wp_bind, wp_getInput]
  refine wp_randMod nonempty fun j jBelow => ?_
  rw [slice_front blockLength]
  simp only [wp_liftExcept_ok]
  refine wp_mono (fun _ s' inserted => Or.inr ⟨j, start, r + 1, by omega, by omega, by omega,
    jBelow, inserted⟩) (insertBytes_spec p j _ (by simp; omega) (by simp; omega))

/-- `block_overwrite` writes a block read from the buffer as it was, at a start of its
own. -/
theorem blockOverwrite_spec (nonempty : 0 < s.input.length) (usize : s.input.length < 2 ^ 64) :
    wp (blockOverwrite p) (fun _ s' =>
      ∃ start w b, 1 ≤ b ∧ b ≤ min s.input.length 512 ∧ start + b ≤ s.input.length ∧
        w + b ≤ s.input.length ∧
        s'.input = s.input.take w ++ (s.input.drop start).take b ++ s.input.drop (w + b)) s := by
  simp only [blockOverwrite, wp_bind, wp_getInput]
  refine wp_randMod (by simp only [maxBlockCorruption]; omega) fun r below => ?_
  simp only [maxBlockCorruption] at below
  simp (disch := omega) only [Profile.add_of_lt, Profile.sub_of_le, wp_liftExcept_ok, wp_bind,
    wp_getInput]
  refine wp_randMod (by omega) fun start startBelow => ?_
  simp (disch := omega) only [Profile.add_of_lt, Vec.slice_of_le, wp_liftExcept_ok, wp_bind,
    wp_getInput, Nat.add_sub_cancel_left]
  have blockLength : ((s.input.drop start).take (r + 1)).length = r + 1 := by simp; omega
  rw [copyFromSlice_scratch blockLength (by simp only [maxBlockCorruption]; omega)]
  simp only [wp_liftExcept_ok, wp_bind, wp_getInput]
  refine wp_randMod (by omega) fun w wBelow => ?_
  simp (disch := omega) only [Profile.add_of_lt, wp_liftExcept_ok, wp_bind, wp_getInput]
  rw [slice_front blockLength]
  simp (disch := omega) only [wp_liftExcept_ok, Vec.copyFromSlice_of_le, wp_setInput]
  exact ⟨start, w, r + 1, by omega, by omega, by omega, by omega, rfl⟩

/-- `block_delete` removes one contiguous block of `b` bytes, `b` in `[1, min(len - 1, 512)]`,
and nothing exactly when one byte is left. -/
theorem blockDelete_spec (nonempty : 0 < s.input.length) (usize : s.input.length < 2 ^ 64) :
    wp (blockDelete p) (fun _ s' =>
      (s.input.length = 1 ∧ s'.input = s.input) ∨
      (∃ start b, 1 ≤ b ∧ b ≤ min (s.input.length - 1) 512 ∧ start + b ≤ s.input.length ∧
        s'.input = s.input.take start ++ s.input.drop (start + b))) s := by
  simp only [blockDelete, wp_bind, wp_getInput, Profile.sub_of_le p nonempty, wp_liftExcept_ok,
    wp_ite, wp_pure]
  simp only [maxBlockCorruption]
  split_ifs with single
  · exact .inl ⟨by omega, trivial⟩
  refine wp_randMod (by omega) fun r below => ?_
  simp (disch := omega) only [Profile.add_of_lt, Profile.sub_of_le, wp_liftExcept_ok, wp_bind,
    wp_getInput]
  refine wp_randMod (by omega) fun start startBelow => ?_
  simp (disch := omega) only [Profile.add_of_lt, Vec.drain_of_le, wp_liftExcept_ok, wp_bind,
    wp_getInput, wp_setInput]
  exact .inr ⟨start, r + 1, by omega, by omega, by omega, rfl⟩
end LucidMutator
