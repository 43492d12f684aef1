import Mathlib.Tactic.IntervalCases
import LucidMutator.Mutator.Byte
import LucidMutator.Mutator.Block

/-!
# Magic numbers

`magic_byte_insert` and `magic_byte_overwrite` write the native-endian bytes of a value of
`MAGIC_NUMBERS`, or of a value `mutate_magic` derived from it and then cut to 1, 2, 4 or 8
bytes. Each loop runs `n / 8` times for a drawn `n` within the room it has, so the bytes
written never outgrow it.
-/

namespace LucidMutator

def magicNumbers : List (BitVec 64) :=
  [0, BitVec.allOnes 64, 0xFFFFFFFF, 0xFFFF, 0xFF,
    BitVec.ofInt 64 (2 ^ 63 - 1), BitVec.ofInt 64 (2 ^ 31 - 1), BitVec.ofInt 64 (2 ^ 15 - 1),
    BitVec.ofInt 64 (2 ^ 7 - 1),
    BitVec.ofInt 64 (-2 ^ 63), BitVec.ofInt 64 (-2 ^ 31), BitVec.ofInt 64 (-2 ^ 15),
    BitVec.ofInt 64 (-2 ^ 7),
    1 <<< 63, 1 <<< 31, 1 <<< 15, 1 <<< 7,
    ~~~(1 <<< 63 : BitVec 64), ~~~(1 <<< 31 : BitVec 64) &&& 0xFFFFFFFF,
    ~~~(1 <<< 15 : BitVec 64) &&& 0xFFFF, ~~~(1 <<< 7 : BitVec 64) &&& 0xFF,
    2, 4, 8, 16, 32, 64, 128, 256, 512, 1024, 2048, 4096, 8192, 16384]

/-- `u64::to_ne_bytes` on the fuzzer's little-endian target. -/
def toNeBytes (x : BitVec 64) : List UInt8 :=
  (List.range 8).map fun i => UInt8.ofNat (x.toNat >>> (8 * i))

/-- `u64::from_ne_bytes` on the same target. -/
def fromNeBytes (bytes : List UInt8) : BitVec 64 :=
  BitVec.ofNat 64 (bytes.foldr (fun byte rest => byte.toNat + 256 * rest) 0)

def swapBytes (x : BitVec 64) : BitVec 64 :=
  fromNeBytes (toNeBytes x).reverse

@[simp] theorem length_toNeBytes (x : BitVec 64) : (toNeBytes x).length = 8 := by
  simp [toNeBytes]

/-- The first match of `mutate_magic`: mutate the magic value by the drawn transform. -/
def mutateMagicValue (p : Profile) (magic : BitVec 64) : Nat → MutatorM (BitVec 64)
  | 0 => pure magic
  | 1 => pure (magic &&& 0xFF)
  | 2 => pure (magic &&& 0xFFFF)
  | 3 => pure (magic &&& 0xFFFFFFFF)
  | 4 => p.subU64 magic 1
  | 5 => p.addU64 magic 1
  | 6 => pure (~~~magic)
  | 7 => pure (magic <<< 1)
  | 8 => pure (magic >>> 1)
  | 9 => pure (magic.rotateLeft 8)
  | 10 => pure (magic.rotateRight 8)
  | 11 => pure (magic ^^^ 0xFFFFFFFF)
  | 12 => pure (swapBytes magic)
  | 13 => do
    let bit ← randMod 64
    pure (magic ^^^ 1 <<< bit)
  | _ => MutatorM.liftExcept (.error .unreachable)

/-- The second match of `mutate_magic`: randomly truncate bytes. -/
def truncateMagicBytes (magicBytes : List UInt8) : Nat → Except Panic (List UInt8)
  | 0 => .ok magicBytes
  | 1 => Vec.slice magicBytes 0 4
  | 2 => Vec.slice magicBytes 4 8
  | 3 => Vec.slice magicBytes 0 2
  | 4 => Vec.slice magicBytes 2 4
  | 5 => Vec.slice magicBytes 4 6
  | 6 => Vec.slice magicBytes 6 8
  | 7 => return [← Vec.index magicBytes 0]
  | 8 => return [← Vec.index magicBytes 1]
  | 9 => return [← Vec.index magicBytes 2]
  | 10 => return [← Vec.index magicBytes 3]
  | 11 => return [← Vec.index magicBytes 4]
  | 12 => return [← Vec.index magicBytes 5]
  | 13 => return [← Vec.index magicBytes 6]
  | 14 => return [← Vec.index magicBytes 7]
  | _ => .error .unreachable

/-- Randomly mutate a magic number. -/
def mutateMagic (p : Profile) (magic : BitVec 64) : MutatorM (List UInt8) := do
  let magic ← mutateMagicValue p magic (← randMod 14)
  let magicBytes := toNeBytes magic
  truncateMagicBytes magicBytes (← randMod 15)

/-- Pick a magic value and randomly corrupt it: the draws that both magic loops make before
they write. -/
def pickMagicBytes (p : Profile) : MutatorM (List UInt8) := do
  let magic ← Vec.index magicNumbers (← randMod magicNumbers.length)
  if (← randMod 2) = 0 then
    mutateMagic p magic
  else
    pure (toNeBytes magic)

/-- `for (i, &byte) in bytes.iter().enumerate() { self.input[idx + i] = byte; }`, the loop of
`magic_byte_overwrite`. -/
def overwriteBytes (p : Profile) (idx : Nat) (bytes : List UInt8) : MutatorM Unit :=
  forRange bytes.length fun i => do
    setInput (← Vec.modify (← getInput) (← p.add idx i) fun _ => bytes.getD i 0)

/-- One round of `magic_byte_insert`: insert magic bytes at a drawn index. -/
def magicByteInsertStep (p : Profile) : MutatorM Unit := do
  let idx ← randMod (← getInput).length
  let magicBytes ← pickMagicBytes p
  insertBytes p idx magicBytes

/-- Randomly insert magic bytes into the input. -/
def magicByteInsert (p : Profile) : MutatorM Unit := do
  let slack ← p.sub (← getMaxSize) (← getInput).length
  if slack = 0 then
    return
  let ceiling := min slack maxByteCorruption
  let insertNum ← p.add (← randMod ceiling) 1
  let numU64 := insertNum / 8
  forRange numU64 fun _ => magicByteInsertStep p

/-- One round of `magic_byte_overwrite`: overwrite with magic bytes at a drawn index. -/
def magicByteOverwriteStep (p : Profile) (maxOverwrite : Nat) : MutatorM Unit := do
  let idx ← randMod (← p.add maxOverwrite 1)
  let magicBytes ← pickMagicBytes p
  overwriteBytes p idx magicBytes

/-- Randomly overwrite bytes in the input with magic bytes. -/
def magicByteOverwrite (p : Profile) : MutatorM Unit := do
  if (← getInput).length < 8 then
    return
  let ceiling := min (← getInput).length maxByteCorruption
  let overwriteNum ← p.add (← randMod ceiling) 1
  let numU64 := overwriteNum / 8
  let maxOverwrite ← p.sub (← getInput).length 8
  forRange numU64 fun _ => magicByteOverwriteStep p maxOverwrite

variable {s : Mutator}

/-- Every value of the table of lengths `mutate_magic` can cut the bytes to. -/
def MagicLength (n : Nat) : Prop := n = 1 ∨ n = 2 ∨ n = 4 ∨ n = 8

instance : DecidablePred MagicLength := fun n =>
  inferInstanceAs (Decidable (n = 1 ∨ n = 2 ∨ n = 4 ∨ n = 8))

theorem MagicLength.le_eight {n : Nat} (length : MagicLength n) : n ≤ 8 := by
  unfold MagicLength at length; omega

/-- In a release build every transform returns, and none of them touches the buffer. -/
theorem mutateMagicValue_spec (magic : BitVec 64) {k : Nat} (below : k < 14) :
    wp (mutateMagicValue .release magic k) (fun _ s' => s'.input = s.input) s := by
  interval_cases k <;> simp only [mutateMagicValue, wp_pure, wp_bind, Profile.release_subU64,
    Profile.release_addU64, wp_liftExcept_ok]
  exact wp_randMod (by decide) fun _ _ => rfl

theorem truncateMagicBytes_spec {magicBytes : List UInt8} (eight : magicBytes.length = 8)
    {k : Nat} (below : k < 15) :
    ∃ out, truncateMagicBytes magicBytes k = .ok out ∧ MagicLength out.length := by
  match magicBytes, eight with
  | [_, _, _, _, _, _, _, _], _ =>
    interval_cases k <;> exact ⟨_, rfl, by simp [MagicLength]⟩

theorem mutateMagic_spec (magic : BitVec 64) :
    wp (mutateMagic .release magic)
      (fun bytes s' => s'.input = s.input ∧ MagicLength bytes.length) s := by
  simp only [mutateMagic, wp_bind]
  refine wp_randMod (by decide) fun k below => ?_
  refine wp_mono (fun value s₁ same => ?_) (mutateMagicValue_spec magic below)
  refine wp_randMod (by decide) fun k' below' => ?_
  obtain ⟨out, found, length⟩ := truncateMagicBytes_spec (length_toNeBytes value) below'
  simp only [found, wp_liftExcept_ok]
  exact ⟨same, length⟩

/-- The bytes both magic loops write: 1, 2, 4 or 8 of them, drawn without touching the
buffer. -/
theorem pickMagicBytes_spec :
    wp (pickMagicBytes .release)
      (fun bytes s' => s'.input = s.input ∧ MagicLength bytes.length) s := by
  simp only [pickMagicBytes, wp_bind]
  refine wp_randMod (by decide) fun i below => ?_
  simp only [Vec.index_of_lt below, wp_liftExcept_ok, wp_bind]
  refine wp_randMod (by decide) fun c _ => ?_
  rw [wp_ite]
  split_ifs
  · exact mutateMagic_spec _
  · simp only [wp_pure, length_toNeBytes]
    exact ⟨trivial, by decide⟩

theorem overwriteBytes_spec (p : Profile) (j : Nat) (w : List UInt8)
    (inside : j + w.length ≤ s.input.length) (usize : s.input.length < 2 ^ 64) :
    wp (overwriteBytes p j w)
      (fun _ s' => s'.input = s.input.take j ++ w ++ s.input.drop (j + w.length)) s := by
  refine wp_mono (fun _ s' written => by simpa using written)
    (wp_forRange (fun i s' => s'.input = s.input.take j ++ w.take i ++ s.input.drop (j + i))
      (fun i s' below current => ?_) (by simp))
  have prefixLength : (s.input.take j ++ w.take i).length = j + i := by simp; omega
  have rest : s.input.drop (j + i) ≠ [] := by simp; omega
  simp (disch := omega) only [wp_bind, wp_getInput, Profile.add_of_lt, wp_liftExcept_ok]
  rw [current, Vec.modify_of_lt _ (by simp; omega), modify_after_prefix _ prefixLength rest]
  simp only [wp_liftExcept_ok, wp_setInput, take_succ_getD below, List.append_assoc,
    List.tail_drop, List.singleton_append, Nat.add_assoc]

/-- One round of `magic_byte_insert` splices the whole magic byte string, contiguously and in
order, at the index it drew against the buffer as it stands. -/
theorem magicByteInsertStep_spec (nonempty : 0 < s.input.length)
    (room : s.input.length + 8 ≤ 2 ^ 64) :
    wp (magicByteInsertStep .release) (fun _ s' => ∃ bytes s₁,
      (pickMagicBytes .release).run { s with rng := xorshift s.rng } = .ok (bytes, s₁) ∧
      MagicLength bytes.length ∧
      s'.input = s.input.take (s.rng.toNat % s.input.length) ++ bytes ++
        s.input.drop (s.rng.toNat % s.input.length)) s := by
  simp only [magicByteInsertStep, wp_bind, wp_getInput, randMod, wp_rand, rem_of_pos nonempty,
    wp_liftExcept_ok]
  refine wp_mono (fun bytes s₁ ⟨found, same, length⟩ => ?_) (wp_and_run pickMagicBytes_spec)
  dsimp only at same
  have below := Nat.mod_lt s.rng.toNat nonempty
  have short := length.le_eight
  refine wp_mono (fun _ s' inserted => ⟨bytes, s₁, found, length, ?_⟩)
    (insertBytes_spec .release _ bytes (by rw [same]; omega) (by omega))
  rwa [same] at inserted

/-- `magic_byte_insert` only grows the buffer, by at most 64 bytes and never past `max_size`:
`n / 8` rounds of at most eight bytes each fit in the `n` bytes of slack drawn. -/
theorem magicByteInsert_spec (nonempty : 0 < s.input.length) (fits : s.input.length ≤ s.maxSize)
    (usize : s.maxSize < 2 ^ 64) :
    wp (magicByteInsert .release) (fun _ s' => s.input.length ≤ s'.input.length ∧
      s'.input.length ≤ s.maxSize ∧ s'.input.length ≤ s.input.length + 64) s := by
  simp only [magicByteInsert, wp_bind, wp_getMaxSize, wp_getInput, Profile.sub_of_le _ fits,
    wp_liftExcept_ok, wp_ite, wp_pure]
  split_ifs with full
  · exact ⟨le_rfl, fits, by omega⟩
  refine wp_randMod (by simp only [maxByteCorruption]; omega) fun r below => ?_
  simp only [maxByteCorruption] at below
  simp (disch := omega) only [Profile.add_of_lt, wp_liftExcept_ok]
  refine wp_mono (fun _ s' ⟨grown, room, bounded⟩ => ⟨grown, by omega, by omega⟩)
    (wp_forRange (fun i s' => s.input.length ≤ s'.input.length ∧
        s'.input.length + 8 * ((r + 1) / 8 - i) ≤ s.maxSize ∧
        s'.input.length ≤ s.input.length + 8 * i)
      (fun i s' before ⟨grown, room, bounded⟩ => ?_)
      (by dsimp only; exact ⟨le_rfl, by omega, by omega⟩))
  refine wp_mono (fun _ s'' stepped => ?_) (magicByteInsertStep_spec (by omega) (by omega))
  obtain ⟨bytes, -, -, length, inserted⟩ := stepped
  have short := length.le_eight
  have drawn := Nat.mod_lt s'.rng.toNat (show 0 < s'.input.length by omega)
  rw [inserted]
  simp only [List.length_append, List.length_take, List.length_drop]
  omega

theorem magicByteOverwriteStep_spec (eight : 8 ≤ s.input.length)
    (usize : s.input.length < 2 ^ 64) :
    wp (magicByteOverwriteStep .release (s.input.length - 8)) (fun _ s' =>
      ∃ j bytes s₁ s₂, (pickMagicBytes .release).run s₁ = .ok (bytes, s₂) ∧
        MagicLength bytes.length ∧ j + bytes.length ≤ s.input.length ∧
        s'.input = s.input.take j ++ bytes ++ s.input.drop (j + bytes.length)) s := by
  simp (disch := omega) only [magicByteOverwriteStep, wp_bind, Profile.add_of_lt,
    wp_liftExcept_ok]
  refine wp_randMod (by omega) fun j below => ?_
  refine wp_mono (fun bytes s₁ ⟨found, same, length⟩ => ?_) (wp_and_run pickMagicBytes_spec)
  dsimp only at same
  have short := length.le_eight
  refine wp_mono (fun _ s' written => ⟨j, bytes, _, s₁, found, length, by omega, ?_⟩)
    (overwriteBytes_spec .release j bytes (by rw [same]; omega) (by rw [same]; exact usize))
  rwa [same] at written

/-- `magic_byte_overwrite` keeps the length and changes at most 64 bytes: `n / 8` windows of
at most eight bytes each. -/
theorem magicByteOverwrite_spec (usize : s.input.length < 2 ^ 64) :
    wp (magicByteOverwrite .release) (fun _ s' => s'.input.length = s.input.length ∧
      bytesChanged s.input s'.input ≤ 64) s := by
  simp only [magicByteOverwrite, wp_bind, wp_getInput, wp_ite, wp_pure]
  split_ifs with short
  · exact ⟨trivial, by rw [bytesChanged, distance_self byteDistance_self]; omega⟩
  refine wp_randMod (by simp only [maxByteCorruption]; omega) fun r below => ?_
  simp only [maxByteCorruption] at below
  simp (disch := omega) only [Profile.add_of_lt, Profile.sub_of_le, wp_liftExcept_ok, wp_bind,
    wp_getInput]
  refine wp_mono (fun _ s' ⟨same, changed⟩ => ⟨same, by omega⟩)
    (wp_forRange
      (fun i s' => s'.input.length = s.input.length ∧ bytesChanged s.input s'.input ≤ 8 * i)
      (fun i s' _ ⟨same, changed⟩ => ?_) ⟨rfl, (distance_self byteDistance_self _).le⟩)
  rw [← same]
  refine wp_mono (fun _ s'' stepped => ?_) (magicByteOverwriteStep_spec (by omega) (by omega))
  obtain ⟨j, bytes, -, -, -, length, inside, written⟩ := stepped
  have short := length.le_eight
  have moved := bytesChanged_window_le same.symm changed inside
  rw [written]
  exact ⟨by simp only [List.length_append, List.length_take, List.length_drop]; omega, by omega⟩

end LucidMutator
