import LucidMutator.Mutator.Logic

/-!
# Splice

`splice` keeps a block `v[s..s+a]` of the buffer, moved to the front, and appends a block
`e[t..t+b]` of a corpus entry. The buffer is first grown with zeros when the result is longer
than it, then cut back when it is shorter, so both copies stay in range whichever way the
lengths compare.
-/

namespace LucidMutator

/-- Splice two inputs together. -/
def splice (p : Profile) (corpus : Corpus) : MutatorM Unit := do
  let oldBlockStart ← randMod (← getInput).length
  let oldBlockLen ← p.add (← randMod (← p.sub (← getInput).length oldBlockStart)) 1
  let newIdx ← randMod corpus.numInputs
  let some newInput := corpus.getInput newIdx | return
  let slack ← p.sub (← getMaxSize) oldBlockLen
  if slack = 0 then
    return
  let newBlockStart ← randMod newInput.length
  let newCeiling := min (← p.sub newInput.length newBlockStart) slack
  let newBlockLen ← p.add (← randMod newCeiling) 1
  let totalLen ← p.add oldBlockLen newBlockLen
  if totalLen > (← getInput).length then
    setInput (Vec.resize (← getInput) totalLen 0)
  setInput (← Vec.copyWithin (← getInput) oldBlockStart (← p.add oldBlockStart oldBlockLen) 0)
  let newBlock ← Vec.slice newInput newBlockStart (← p.add newBlockStart newBlockLen)
  setInput (← Vec.copyFromSlice (← getInput) oldBlockLen totalLen newBlock)
  if totalLen < (← getInput).length then
    setInput (Vec.truncate (← getInput) totalLen)

variable {s : Mutator}

theorem copyWithin_front (w : List UInt8) {start a : Nat} (inside : start + a ≤ w.length) :
    Vec.copyWithin w start (start + a) 0 = .ok ((w.drop start).take a ++ w.drop a) := by
  rw [Vec.copyWithin_of_le (by omega) inside (by omega)]
  simp

theorem copyFromSlice_after {front rest block : List UInt8} {a b : Nat}
    (frontLength : front.length = a) (blockLength : block.length = b) (room : b ≤ rest.length) :
    Vec.copyFromSlice (front ++ rest) a (a + b) block = .ok (front ++ block ++ rest.drop b) := by
  rw [Vec.copyFromSlice_of_le (by omega) (by simp; omega) (by omega), List.take_left' frontLength,
    ← frontLength, List.drop_append_eq_append_drop]
  simp

/-- `splice` draws an old block `v[s..s+a]`; it returns early exactly when `a` is
`max_size`, and otherwise leaves that block followed by a block `e[t..t+b]` of a corpus
entry. -/
theorem splice_spec (p : Profile) (corpus : Corpus) (nonempty : 0 < s.input.length)
    (fits : s.input.length ≤ s.maxSize) (usize : s.maxSize < 2 ^ 64)
    (inhabited : 0 < corpus.numInputs) (entries : corpus.Entries fun e => 0 < e.length) :
    wp (splice p corpus) (fun _ s' => ∃ start a, start = s.rng.toNat % s.input.length ∧
      a = (xorshift s.rng).toNat % (s.input.length - start) + 1 ∧ start + a ≤ s.input.length ∧
      ((a = s.maxSize ∧ s'.input = s.input) ∨
        (a < s.maxSize ∧ ∃ i e t b, i < corpus.numInputs ∧ corpus.getInput i = some e ∧
          t < e.length ∧ 1 ≤ b ∧ b ≤ min (e.length - t) (s.maxSize - a) ∧
          s'.input = (s.input.drop start).take a ++ (e.drop t).take b))) s := by
  have startBelow := Nat.mod_lt s.rng.toNat nonempty
  simp only [splice, wp_getInput_bind, wp_randMod_bind_eq nonempty]
  simp (disch := omega) only [wp_getInput_bind, Profile.sub_of_le, wp_liftExcept_ok_bind,
    wp_randMod_bind_eq (show 0 < s.input.length - s.rng.toNat % s.input.length by omega)]
  generalize s.rng.toNat % s.input.length = start at startBelow ⊢
  have below := Nat.mod_lt (xorshift s.rng).toNat (show 0 < s.input.length - start by omega)
  generalize drawn : (xorshift s.rng).toNat % (s.input.length - start) = r at below ⊢
  simp (disch := omega) only [Profile.add_of_lt, wp_liftExcept_ok_bind]
  refine wp_randMod_bind inhabited fun i iBelow => ?_
  obtain ⟨e, found, entryNonempty⟩ := entries i iBelow
  have entryShort := corpus.entry_length_lt found
  simp (disch := omega) only [found, wp_getMaxSize_bind, Profile.sub_of_le, wp_liftExcept_ok_bind,
    wp_ite, wp_pure]
  split_ifs with full
  · exact ⟨start, r + 1, rfl, by rw [drawn], by omega, .inl ⟨by omega, trivial⟩⟩
  refine wp_randMod_bind entryNonempty fun t tBelow => ?_
  simp (disch := omega) only [Profile.sub_of_le, Profile.add_of_lt, wp_liftExcept_ok_bind]
  refine wp_randMod_bind (by omega) fun c cBelow => ?_
  -- Both sides of the conditional `resize` go on with a buffer `v` padded by zeros.
  simp (disch := omega) only [Profile.add_of_lt, wp_liftExcept_ok_bind]
  rw [wp_getInput_bind]
  simp only [wp_ite]
  rw [wp_getInput_bind, wp_setInput_bind, wp_pure_bind, ← apply_ite]
  generalize resized : (if r + 1 + (c + 1) > s.input.length then _ else _) = w
  have padded : w.input = s.input ++ List.replicate (r + 1 + (c + 1) - s.input.length) 0 := by
    rw [← resized]
    split_ifs with grows
    · exact Vec.resize_of_length_le _ grows.le
    · simp; omega
  have kept : (w.input.drop start).take (r + 1) = (s.input.drop start).take (r + 1) := by
    rw [padded, List.drop_append_of_le_length (by omega),
      List.take_append_of_le_length (by simp; omega)]
  have wLength : w.input.length = max s.input.length (r + 1 + (c + 1)) := by
    rw [padded]; simp; omega
  simp (disch := omega) only [wp_getInput_bind, Profile.add_of_lt, copyWithin_front,
    wp_liftExcept_ok_bind, wp_setInput_bind, Vec.slice_of_le, Nat.add_sub_cancel_left]
  rw [copyFromSlice_after (by simp; omega) (by simp; omega) (by simp; omega)]
  simp only [wp_liftExcept_ok_bind, wp_setInput_bind, wp_getInput_bind, wp_ite, wp_setInput,
    wp_pure, kept]
  have frontLength : ((s.input.drop start).take (r + 1)).length = r + 1 := by simp; omega
  have blockLength : ((e.drop t).take (c + 1)).length = c + 1 := by simp; omega
  split_ifs with cut <;> refine ⟨start, r + 1, rfl, by rw [drawn], by omega,
    .inr ⟨by omega, i, e, t, c + 1, iBelow, found, tBelow, by omega, by omega, ?_⟩⟩
  · exact List.take_left' (by simp only [List.length_append, frontLength, blockLength])
  · simp only [List.length_append, frontLength, blockLength, List.length_drop] at cut
    rw [List.drop_eq_nil_of_le (show (w.input.drop (r + 1)).length ≤ c + 1 by simp; omega),
      List.append_nil]

end LucidMutator
