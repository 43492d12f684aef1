import LucidMutator.Properties.Builds

/-!
# What the magic operators write

Each round of the two magic loops writes a `MagicBytes` string: 1, 2, 4 or 8 native bytes of a
value of `MAGIC_NUMBERS` or of one of its transforms, at an offset that is a multiple of their
number. The insert loop inserts such strings, the overwrite loop writes them over windows.
-/

namespace LucidMutator

/-- What the first match of `mutate_magic` can turn `magic` into in a wrapping build: a
transform `k < 14`, the one that flips a drawn bit with any bit. -/
def Transformed (magic value : BitVec 64) : Prop :=
  ∃ k < 14, ∃ s s', (mutateMagicValue .release magic k).run s = .ok (value, s')

/-- A byte string a magic loop writes: an aligned window of 1, 2, 4 or 8 of the native bytes of
a transform of a value of `MAGIC_NUMBERS`. -/
def MagicBytes (bytes : List UInt8) : Prop :=
  ∃ magic ∈ magicNumbers, ∃ value, Transformed magic value ∧
    ∃ w j, MagicLength w ∧ w * (j + 1) ≤ 8 ∧ bytes = ((toNeBytes value).drop (w * j)).take w

/-- `v` becomes `w` by `n` insertions of magic byte strings, each at an index inside the buffer
as it stands then. -/
inductive MagicInserts : Nat → List UInt8 → List UInt8 → Prop
  | refl (v : List UInt8) : MagicInserts 0 v v
  | insert {n : Nat} {v u bytes : List UInt8} {j : Nat} : MagicInserts n v u →
      MagicBytes bytes → j < u.length → MagicInserts (n + 1) v (u.take j ++ bytes ++ u.drop j)

/-- `v` becomes `w` by `n` writes of magic byte strings over windows inside the buffer. -/
inductive MagicOverwrites : Nat → List UInt8 → List UInt8 → Prop
  | refl (v : List UInt8) : MagicOverwrites 0 v v
  | overwrite {n : Nat} {v u bytes : List UInt8} {j : Nat} : MagicOverwrites n v u →
      MagicBytes bytes → j + bytes.length ≤ u.length →
      MagicOverwrites (n + 1) v (u.take j ++ bytes ++ u.drop (j + bytes.length))

theorem MagicInserts.eq_of_zero {v w : List UInt8} (none : MagicInserts 0 v w) : w = v := by
  cases none; rfl

theorem MagicInserts.length_le {n : Nat} {v w : List UInt8} (inserted : MagicInserts n v w) :
    v.length ≤ w.length := by
  induction inserted with
  | refl => exact le_rfl
  | insert _ _ inside inductionHypothesis =>
    simp only [List.length_append, List.length_take, List.length_drop]
    omega

theorem MagicOverwrites.eq_of_zero {v w : List UInt8} (none : MagicOverwrites 0 v w) :
    w = v := by
  cases none; rfl

/-! ## The bytes one round picks -/

theorem truncateMagicBytes_window {magicBytes out : List UInt8} (eight : magicBytes.length = 8)
    {k : Nat} (found : truncateMagicBytes magicBytes k = .ok out) :
    ∃ w j, MagicLength w ∧ w * (j + 1) ≤ 8 ∧ out = (magicBytes.drop (w * j)).take w := by
  match magicBytes, eight with
  | [_, _, _, _, _, _, _, _], _ =>
    match k, found with
    | 0, found => cases found; exact ⟨8, 0, by decide, le_rfl, rfl⟩
    | 1, found => cases found; exact ⟨4, 0, by decide, by decide, rfl⟩
    | 2, found => cases found; exact ⟨4, 1, by decide, le_rfl, rfl⟩
    | 3, found => cases found; exact ⟨2, 0, by decide, by decide, rfl⟩
    | 4, found => cases found; exact ⟨2, 1, by decide, by decide, rfl⟩
    | 5, found => cases found; exact ⟨2, 2, by decide, by decide, rfl⟩
    | 6, found => cases found; exact ⟨2, 3, by decide, le_rfl, rfl⟩
    | 7, found => cases found; exact ⟨1, 0, by decide, by decide, rfl⟩
    | 8, found => cases found; exact ⟨1, 1, by decide, by decide, rfl⟩
    | 9, found => cases found; exact ⟨1, 2, by decide, by decide, rfl⟩
    | 10, found => cases found; exact ⟨1, 3, by decide, by decide, rfl⟩
    | 11, found => cases found; exact ⟨1, 4, by decide, by decide, rfl⟩
    | 12, found => cases found; exact ⟨1, 5, by decide, by decide, rfl⟩
    | 13, found => cases found; exact ⟨1, 6, by decide, by decide, rfl⟩
    | 14, found => cases found; exact ⟨1, 7, by decide, le_rfl, rfl⟩
    | _ + 15, found => cases found

theorem mutateMagic_magicBytes {magic : BitVec 64} (listed : magic ∈ magicNumbers)
    {s s' : Mutator} {bytes : List UInt8}
    (ran : (mutateMagic .release magic).run s = .ok (bytes, s')) : MagicBytes bytes := by
  obtain ⟨k, _, drew, ran⟩ := MutatorM.run_bind_ok ran
  obtain ⟨below, rfl⟩ := randMod_run drew
  obtain ⟨value, _, transformed, ran⟩ := MutatorM.run_bind_ok ran
  obtain ⟨k', _, drew, ran⟩ := MutatorM.run_bind_ok ran
  obtain ⟨-, rfl⟩ := randMod_run drew
  obtain ⟨cut, -⟩ := liftExcept_run ran
  exact ⟨magic, listed, value, ⟨k, below, _, _, transformed⟩,
    truncateMagicBytes_window (length_toNeBytes value) cut⟩

/-- Both magic loops write `MagicBytes`: the plain native bytes of the value are the window of
all eight bytes of its transform `0`. -/
theorem pickMagicBytes_magicBytes {s s' : Mutator} {bytes : List UInt8}
    (ran : (pickMagicBytes .release).run s = .ok (bytes, s')) : MagicBytes bytes := by
  obtain ⟨i, _, drew, ran⟩ := MutatorM.run_bind_ok ran
  obtain ⟨below, rfl⟩ := randMod_run drew
  obtain ⟨magic, _, indexed, ran⟩ := MutatorM.run_bind_ok ran
  obtain ⟨indexed, rfl⟩ := liftExcept_run indexed
  rw [Vec.index_of_lt below] at indexed
  cases indexed
  have listed := List.get_mem magicNumbers i below
  obtain ⟨c, _, drew, ran⟩ := MutatorM.run_bind_ok ran
  obtain ⟨-, rfl⟩ := randMod_run drew
  split at ran
  · exact mutateMagic_magicBytes listed ran
  · cases ran
    exact ⟨_, listed, _, ⟨0, by decide, s, s, rfl⟩, 8, 0, by decide, le_rfl, by simp⟩

/-! ## The two loops -/

variable {s : Mutator}

/-- `magic_byte_insert` inserts `n / 8` magic byte strings for a drawn `n` of at most
`min(slack, MAX_BYTE_CORRUPTION)`. -/
theorem magicByteInsert_inserts (nonempty : 0 < s.input.length)
    (fits : s.input.length ≤ s.maxSize) (usize : s.maxSize < 2 ^ 64) :
    wp (magicByteInsert .release) (fun _ s' => ∃ n, n ≤ 8 ∧
      8 * n ≤ s.maxSize - s.input.length ∧ MagicInserts n s.input s'.input) s := by
  simp only [magicByteInsert, wp_bind, wp_getMaxSize, wp_getInput, Profile.sub_of_le _ fits,
    wp_liftExcept_ok, wp_ite, wp_pure]
  split_ifs with full
  · exact ⟨0, by omega, by omega, .refl _⟩
  refine wp_randMod (by simp only [maxByteCorruption]; omega) fun r below => ?_
  simp only [maxByteCorruption] at below
  simp (disch := omega) only [Profile.add_of_lt, wp_liftExcept_ok]
  refine wp_mono (fun _ s' inserted => ⟨(r + 1) / 8, by omega, by omega, inserted.1⟩)
    (wp_forRange (fun i s' => MagicInserts i s.input s'.input ∧
        s'.input.length ≤ s.input.length + 8 * i)
      (fun i s' before ⟨inserted, bounded⟩ => ?_) ⟨.refl _, Nat.le_add_right _ _⟩)
  have grown := inserted.length_le
  refine wp_mono (fun _ s'' ⟨bytes, s₁, found, length, written⟩ => ?_)
    (magicByteInsertStep_spec (by omega) (by omega))
  have short := length.le_eight
  dsimp only
  rw [written]
  refine ⟨.insert inserted (pickMagicBytes_magicBytes found) (Nat.mod_lt _ (by omega)), ?_⟩
  simp only [List.length_append, List.length_take, List.length_drop]
  omega

/-- `magic_byte_overwrite` writes `n / 8` magic byte strings over windows of the buffer for a
drawn `n` of at most `min(len, MAX_BYTE_CORRUPTION)`. -/
theorem magicByteOverwrite_overwrites (usize : s.input.length < 2 ^ 64) :
    wp (magicByteOverwrite .release) (fun _ s' => ∃ n, n ≤ 8 ∧ 8 * n ≤ s.input.length ∧
      MagicOverwrites n s.input s'.input) s := by
  simp only [magicByteOverwrite, wp_bind, wp_getInput, wp_ite, wp_pure]
  split_ifs with short
  · exact ⟨0, by omega, by omega, .refl _⟩
  refine wp_randMod (by simp only [maxByteCorruption]; omega) fun r below => ?_
  simp only [maxByteCorruption] at below
  simp (disch := omega) only [Profile.add_of_lt, Profile.sub_of_le, wp_liftExcept_ok, wp_bind,
    wp_getInput]
  refine wp_mono (fun _ s' written => ⟨(r + 1) / 8, by omega, by omega, written.1⟩)
    (wp_forRange
      (fun i s' => MagicOverwrites i s.input s'.input ∧ s'.input.length = s.input.length)
      (fun i s' _ ⟨written, same⟩ => ?_) ⟨.refl _, rfl⟩)
  rw [← same]
  refine wp_mono (fun _ s'' ⟨j, bytes, _, _, found, length, inside, overwritten⟩ => ?_)
    (magicByteOverwriteStep_spec (by omega) (by omega))
  dsimp only
  rw [overwritten]
  refine ⟨.overwrite written (pickMagicBytes_magicBytes found) inside, ?_⟩
  simp only [List.length_append, List.length_take, List.length_drop]
  omega

/-- The magic operators write nothing but magic byte strings: `magic_byte_insert` inserts at
most eight of them, at most one per eight bytes of slack, and `magic_byte_overwrite` writes at
most eight over windows of the buffer, at most one per eight bytes of it. So neither changes a
buffer when `max_size` is below eight. -/
theorem magicOperators_write_magicBytes (sized : Sized s) (usize : s.maxSize < 2 ^ 64) :
    wp (magicByteInsert .release) (fun _ s' => ∃ n, n ≤ 8 ∧
        8 * n ≤ s.maxSize - s.input.length ∧ MagicInserts n s.input s'.input) s ∧
      wp (magicByteOverwrite .release) (fun _ s' => ∃ n, n ≤ 8 ∧ 8 * n ≤ s.input.length ∧
        MagicOverwrites n s.input s'.input) s ∧
      (s.maxSize < 8 → wp (magicByteInsert .release) (fun _ s' => s'.input = s.input) s ∧
        wp (magicByteOverwrite .release) (fun _ s' => s'.input = s.input) s) := by
  obtain ⟨nonempty, fits⟩ := sized
  have inserts := magicByteInsert_inserts nonempty fits usize
  have overwrites := magicByteOverwrite_overwrites (s := s) (by omega)
  refine ⟨inserts, overwrites, fun small => ⟨?_, ?_⟩⟩
  · refine wp_mono (fun _ s' ⟨n, _, room, inserted⟩ => ?_) inserts
    obtain rfl : n = 0 := by omega
    exact inserted.eq_of_zero
  · refine wp_mono (fun _ s' ⟨n, _, room, written⟩ => ?_) overwrites
    obtain rfl : n = 0 := by omega
    exact written.eq_of_zero

theorem magicOperators_write_magicBytes_on_one_and_eight_bytes :
    ((Sized ⟨1, [0, 0, 0, 0, 0, 0, 0, 0], 16, []⟩ ∧ (16 : Nat) < 2 ^ 64) ∧
      wp (magicByteInsert .release) (fun _ s' => ∃ n, n ≤ 8 ∧ 8 * n ≤ 16 - 8 ∧
        MagicInserts n [0, 0, 0, 0, 0, 0, 0, 0] s'.input) ⟨1, [0, 0, 0, 0, 0, 0, 0, 0], 16, []⟩ ∧
      wp (magicByteOverwrite .release) (fun _ s' => ∃ n, n ≤ 8 ∧ 8 * n ≤ 8 ∧
        MagicOverwrites n [0, 0, 0, 0, 0, 0, 0, 0] s'.input) ⟨1, [0, 0, 0, 0, 0, 0, 0, 0], 16, []⟩ ∧
      ((16 : Nat) < 8 →
        wp (magicByteInsert .release) (fun _ s' => s'.input = [0, 0, 0, 0, 0, 0, 0, 0])
          ⟨1, [0, 0, 0, 0, 0, 0, 0, 0], 16, []⟩ ∧
        wp (magicByteOverwrite .release) (fun _ s' => s'.input = [0, 0, 0, 0, 0, 0, 0, 0])
          ⟨1, [0, 0, 0, 0, 0, 0, 0, 0], 16, []⟩)) ∧
    ((Sized ⟨1, [7], 4, []⟩ ∧ (4 : Nat) < 2 ^ 64) ∧
      wp (magicByteInsert .release) (fun _ s' => ∃ n, n ≤ 8 ∧ 8 * n ≤ 4 - 1 ∧
        MagicInserts n [7] s'.input) ⟨1, [7], 4, []⟩ ∧
      wp (magicByteOverwrite .release) (fun _ s' => ∃ n, n ≤ 8 ∧ 8 * n ≤ 1 ∧
        MagicOverwrites n [7] s'.input) ⟨1, [7], 4, []⟩ ∧
      ((4 : Nat) < 8 →
        wp (magicByteInsert .release) (fun _ s' => s'.input = [7]) ⟨1, [7], 4, []⟩ ∧
        wp (magicByteOverwrite .release) (fun _ s' => s'.input = [7]) ⟨1, [7], 4, []⟩)) :=
  have eight : Sized ⟨1, [0, 0, 0, 0, 0, 0, 0, 0], 16, []⟩ := ⟨by decide, by decide⟩
  have one : Sized ⟨1, [7], 4, []⟩ := ⟨by decide, by decide⟩
  ⟨⟨⟨eight, by norm_num⟩, magicOperators_write_magicBytes eight (by norm_num)⟩,
    ⟨⟨one, by norm_num⟩, magicOperators_write_magicBytes one (by norm_num)⟩⟩

end LucidMutator
