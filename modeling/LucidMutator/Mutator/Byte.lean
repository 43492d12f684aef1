import LucidMutator.Mutator.Distance

/-!
# Byte operators

`byte_insert`, `byte_overwrite` and `byte_delete` change up to `MAX_BYTE_CORRUPTION`
single bytes, each at an index drawn against the buffer's current length.
-/

namespace LucidMutator

def maxByteCorruption : Nat := 64

/-- Insert bytes into the input randomly. -/
def byteInsert (p : Profile) : MutatorM Unit := do
  let slack ← p.sub (← getMaxSize) (← getInput).length
  if slack = 0 then
    return
  let ceiling := min slack maxByteCorruption
  let insertNum ← p.add (← randMod ceiling) 1
  forRange insertNum fun _ => do
    let currIdx ← randMod (← getInput).length
    let byte := UInt8.ofNat ((← rand) % 256)
    setInput (← Vec.insert (← getInput) currIdx byte)

/-- Overwrite bytes randomly. -/
def byteOverwrite (p : Profile) : MutatorM Unit := do
  let ceiling := min (← getInput).length maxByteCorruption
  let overwriteNum ← p.add (← randMod ceiling) 1
  forRange overwriteNum fun _ => do
    let currIdx ← randMod (← getInput).length
    let byte := UInt8.ofNat ((← rand) % 256)
    setInput (← Vec.modify (← getInput) currIdx fun _ => byte)

/-- Delete bytes randomly. -/
def byteDelete (p : Profile) : MutatorM Unit := do
  let ceiling := min (← p.sub (← getInput).length 1) maxByteCorruption
  if ceiling = 0 then
    return
  let deleteNum ← p.add (← randMod ceiling) 1
  forRange deleteNum fun _ => do
    let currIdx ← randMod (← getInput).length
    setInput (← Vec.remove (← getInput) currIdx)

variable (p : Profile) {s : Mutator}

theorem sublist_insert (v : List UInt8) (i : Nat) (byte : UInt8) :
    v.Sublist (v.take i ++ byte :: v.drop i) := by
  conv_lhs => rw [← List.take_append_drop i v]
  exact List.Sublist.append_left (List.sublist_cons_self _ _) _

/-- `byte_insert` adds `n` bytes around the old ones, `n` in `[1, min(slack, 64)]`, and
nothing exactly when there is no slack. -/
theorem byteInsert_spec (nonempty : 0 < s.input.length) (fits : s.input.length ≤ s.maxSize) :
    wp (byteInsert p) (fun _ s' => ∃ n, s'.input.length = s.input.length + n ∧
      s.input.Sublist s'.input ∧
      ((s.input.length = s.maxSize ∧ n = 0) ∨
        (s.input.length < s.maxSize ∧ 1 ≤ n ∧ n ≤ min (s.maxSize - s.input.length) 64))) s := by
  simp only [byteInsert, wp_bind, wp_getMaxSize, wp_getInput, Profile.sub_of_le p fits,
    wp_liftExcept_ok, wp_ite, wp_pure]
  split_ifs with full
  · exact ⟨0, rfl, List.Sublist.refl _, .inl ⟨by omega, rfl⟩⟩
  refine wp_randMod (by simp [maxByteCorruption]; omega) fun r below => ?_
  simp only [maxByteCorruption] at below
  simp only [Profile.add_of_lt p (show r + 1 < 2 ^ 64 by omega), wp_liftExcept_ok]
  refine wp_mono (fun _ s' grown => ⟨r + 1, grown.1, grown.2, .inr ⟨by omega, by omega, by omega⟩⟩)
    (wp_forRange (fun i s' => s'.input.length = s.input.length + i ∧ s.input.Sublist s'.input)
      (fun i s' _ ⟨length, kept⟩ => ?_) ⟨rfl, List.Sublist.refl _⟩)
  simp only [wp_bind, wp_getInput]
  refine wp_randMod (by omega) fun idx below => ?_
  simp (disch := omega) only [wp_bind, wp_rand, wp_getInput, Vec.insert_of_le, wp_liftExcept_ok,
    wp_setInput]
  refine ⟨?_, kept.trans (sublist_insert _ _ _)⟩
  simp only [List.length_append, List.length_take, List.length_cons, List.length_drop]
  omega

/-- `byte_overwrite` keeps the length and changes at most `min(len, 64)` bytes. -/
theorem byteOverwrite_spec (nonempty : 0 < s.input.length) :
    wp (byteOverwrite p) (fun _ s' => s'.input.length = s.input.length ∧
      bytesChanged s.input s'.input ≤ min s.input.length 64) s := by
  simp only [byteOverwrite, wp_bind, wp_getInput]
  refine wp_randMod (by simp [maxByteCorruption]; omega) fun r below => ?_
  simp only [maxByteCorruption] at below
  simp only [Profile.add_of_lt p (show r + 1 < 2 ^ 64 by omega), wp_liftExcept_ok]
  refine wp_mono (fun _ s' ⟨same, changed⟩ => ⟨same, by omega⟩)
    (wp_forRange
      (fun i s' => s'.input.length = s.input.length ∧ bytesChanged s.input s'.input ≤ i)
      (fun i s' _ ⟨same, changed⟩ => ?_) ⟨rfl, (distance_self byteDistance_self _).le⟩)
  simp only [wp_bind, wp_getInput]
  refine wp_randMod (by omega) fun idx below => ?_
  simp (disch := omega) only [wp_bind, wp_rand, wp_getInput, Vec.modify_of_lt, wp_liftExcept_ok,
    wp_setInput, List.length_modify]
  exact ⟨same, bytesChanged_modify_le same.symm changed _ _⟩

/-- `byte_delete` removes `n` bytes, `n` in `[1, min(len - 1, 64)]`, and nothing exactly
when one byte is left. -/
theorem byteDelete_spec (nonempty : 0 < s.input.length) :
    wp (byteDelete p) (fun _ s' => ∃ n, s'.input.length = s.input.length - n ∧
      s'.input.Sublist s.input ∧
      ((s.input.length = 1 ∧ n = 0) ∨
        (1 < s.input.length ∧ 1 ≤ n ∧ n ≤ min (s.input.length - 1) 64))) s := by
  simp only [byteDelete, wp_bind, wp_getInput, Profile.sub_of_le p nonempty, wp_liftExcept_ok,
    wp_ite, wp_pure]
  split_ifs with single
  · exact ⟨0, rfl, List.Sublist.refl _, .inl ⟨by simp [maxByteCorruption] at single; omega, rfl⟩⟩
  refine wp_randMod (by omega) fun r below => ?_
  simp only [maxByteCorruption] at below
  simp only [Profile.add_of_lt p (show r + 1 < 2 ^ 64 by omega), wp_liftExcept_ok]
  refine wp_mono (fun _ s' shrunk => ⟨r + 1, shrunk.1, shrunk.2, .inr ⟨by omega, by omega, by omega⟩⟩)
    (wp_forRange (fun i s' => s'.input.length = s.input.length - i ∧ s'.input.Sublist s.input)
      (fun i s' before ⟨length, kept⟩ => ?_) ⟨rfl, List.Sublist.refl _⟩)
  simp only [wp_bind, wp_getInput]
  refine wp_randMod (by omega) fun idx below => ?_
  simp (disch := omega) only [wp_bind, wp_getInput, Vec.remove_of_lt, wp_liftExcept_ok,
    wp_setInput]
  exact ⟨by rw [List.length_eraseIdx_of_lt below]; omega, (List.eraseIdx_sublist _ _).trans kept⟩

end LucidMutator
