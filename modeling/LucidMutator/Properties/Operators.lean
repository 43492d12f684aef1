import LucidMutator.Mutator.Overflow

/-!
# What the operators do to the buffer

The contracts of the byte, block, magic and splice operators, for every buffer of
`1..=max_size` bytes and every stream of draws. Each is assembled from the operator's
specification; the examples at the end of each contract pick a small buffer that meets it.
-/

namespace LucidMutator

def twoBytes : Mutator := ⟨5, [7, 8], 4, []⟩

def threeByteCorpus : Corpus := Corpus.ofList [[1, 2, 3]] (by decide)

theorem threeByteCorpus_entries : threeByteCorpus.Entries fun e => 0 < e.length :=
  Corpus.entries_ofList (by decide)

/-- `splice` draws an old block `v[s..s+a]`; it leaves the buffer alone exactly when `a` is
`max_size`, and otherwise leaves `v[s..s+a] ++ e[t..t+b]` for an entry `e` of the corpus. -/
theorem splice_keeps_old_block_then_new_block (p : Profile) (corpus : Corpus) (s : Mutator)
    (nonempty : 0 < s.input.length) (fits : s.input.length ≤ s.maxSize)
    (usize : s.maxSize < 2 ^ 64) (inhabited : 0 < corpus.numInputs)
    (entries : corpus.Entries fun e => 0 < e.length) :
    wp (splice p corpus) (fun _ s' => ∃ start a, start = s.rng.toNat % s.input.length ∧
      a = (xorshift s.rng).toNat % (s.input.length - start) + 1 ∧ start + a ≤ s.input.length ∧
      ((a = s.maxSize ∧ s'.input = s.input) ∨
        (a < s.maxSize ∧ ∃ i e t b, i < corpus.numInputs ∧ corpus.getInput i = some e ∧
          t < e.length ∧ 1 ≤ b ∧ b ≤ min (e.length - t) (s.maxSize - a) ∧
          s'.input = (s.input.drop start).take a ++ (e.drop t).take b))) s :=
  splice_spec p corpus nonempty fits usize inhabited entries

theorem splice_keeps_old_block_then_new_block_on_twoBytes :
    (0 < twoBytes.input.length ∧ twoBytes.input.length ≤ twoBytes.maxSize ∧
      twoBytes.maxSize < 2 ^ 64 ∧ 0 < threeByteCorpus.numInputs) ∧
    wp (splice .release threeByteCorpus) (fun _ _ => True) twoBytes :=
  ⟨⟨by decide, by decide, by simp [twoBytes], by decide⟩, wp_mono (fun _ _ _ => trivial)
    (splice_keeps_old_block_then_new_block .release threeByteCorpus twoBytes (by decide)
      (by decide) (by simp [twoBytes]) (by decide) threeByteCorpus_entries)⟩

/-- The insertion loop of `block_insert` and `magic_byte_insert` splices its bytes in whole;
`block_insert` copies a block of the buffer as it was, or leaves a full buffer alone; and a
round of `magic_byte_insert` splices its magic bytes at the index it drew: it returns in the
wrapping build, and in either build a round that returns does so. -/
theorem insertion_is_contiguous (p : Profile) (s : Mutator) (j : Nat) (w : List UInt8) :
    (j < s.input.length → j + w.length ≤ 2 ^ 64 →
      wp (insertBytes p j w) (fun _ s' => s'.input = s.input.take j ++ w ++ s.input.drop j) s) ∧
    (0 < s.input.length → s.input.length ≤ s.maxSize → s.maxSize < 2 ^ 64 →
      wp (blockInsert p) (fun _ s' =>
        (s.input.length = s.maxSize ∧ s'.input = s.input) ∨
        (∃ j start b, 1 ≤ b ∧ b ≤ min (min (s.maxSize - s.input.length) 512) s.input.length ∧
          start + b ≤ s.input.length ∧ j < s.input.length ∧
          s'.input = s.input.take j ++ (s.input.drop start).take b ++ s.input.drop j)) s) ∧
    (0 < s.input.length → s.input.length + 8 ≤ 2 ^ 64 →
      wp (magicByteInsertStep .release) (fun _ s' => ∃ bytes s₁,
        (pickMagicBytes .release).run { s with rng := xorshift s.rng } = .ok (bytes, s₁) ∧
        MagicLength bytes.length ∧
        s'.input = s.input.take (s.rng.toNat % s.input.length) ++ bytes ++
          s.input.drop (s.rng.toNat % s.input.length)) s ∧
      wlp (magicByteInsertStep p) (fun _ s' => ∃ bytes s₁,
        (pickMagicBytes p).run { s with rng := xorshift s.rng } = .ok (bytes, s₁) ∧
        MagicLength bytes.length ∧
        s'.input = s.input.take (s.rng.toNat % s.input.length) ++ bytes ++
          s.input.drop (s.rng.toNat % s.input.length)) s) :=
  ⟨fun inside fits => insertBytes_spec p j w inside.le fits,
    fun nonempty fits usize => blockInsert_spec p nonempty fits usize,
    fun nonempty room =>
      ⟨magicByteInsertStep_spec nonempty room, magicByteInsertStep_wlp p nonempty room⟩⟩

set_option maxRecDepth 4000 in
theorem insertion_is_contiguous_on_twoBytes :
    (1 < twoBytes.input.length ∧ 1 + [9, 9].length ≤ 2 ^ 64 ∧ 0 < twoBytes.input.length ∧
      twoBytes.input.length ≤ twoBytes.maxSize ∧ twoBytes.maxSize < 2 ^ 64 ∧
      twoBytes.input.length + 8 ≤ 2 ^ 64) ∧
    wp (insertBytes .release 1 [9, 9]) (fun _ _ => True) twoBytes ∧
    wp (blockInsert .release) (fun _ _ => True) twoBytes ∧
    wp (magicByteInsertStep .release) (fun _ _ => True) twoBytes :=
  have contiguous := insertion_is_contiguous .release twoBytes 1 [9, 9]
  ⟨⟨by decide, by simp, by decide, by decide, by simp [twoBytes], by simp [twoBytes]⟩,
    wp_mono (fun _ _ _ => trivial) (contiguous.1 (by decide) (by simp)),
    wp_mono (fun _ _ _ => trivial) (contiguous.2.1 (by decide) (by decide) (by simp [twoBytes])),
    wp_mono (fun _ _ _ => trivial) (contiguous.2.2 (by decide) (by simp [twoBytes])).1⟩

/-- `byte_insert` and `byte_delete` add or remove at most 64 bytes around the others, and
`grow` inserts a run of one byte; none of them does anything exactly when it has no room. -/
theorem byte_operators_frame (p : Profile) (s : Mutator) (nonempty : 0 < s.input.length)
    (fits : s.input.length ≤ s.maxSize) (usize : s.maxSize < 2 ^ 64) :
    wp (byteInsert p) (fun _ s' => ∃ n, s'.input.length = s.input.length + n ∧
      s.input.Sublist s'.input ∧
      ((s.input.length = s.maxSize ∧ n = 0) ∨
        (s.input.length < s.maxSize ∧ 1 ≤ n ∧ n ≤ min (s.maxSize - s.input.length) 64))) s ∧
    wp (byteDelete p) (fun _ s' => ∃ n, s'.input.length = s.input.length - n ∧
      s'.input.Sublist s.input ∧
      ((s.input.length = 1 ∧ n = 0) ∨
        (1 < s.input.length ∧ 1 ≤ n ∧ n ≤ min (s.input.length - 1) 64))) s ∧
    wp (grow p) (fun _ s' =>
      (s.input.length = s.maxSize ∧ s'.input = s.input) ∨
      (∃ i byte k, i < s.input.length ∧ 1 ≤ k ∧ k ≤ s.maxSize - s.input.length ∧
        s'.input = s.input.take i ++ List.replicate k byte ++ s.input.drop i)) s :=
  ⟨byteInsert_spec p nonempty fits, byteDelete_spec p nonempty, grow_spec p nonempty fits usize⟩

theorem byte_operators_frame_on_twoBytes :
    (0 < twoBytes.input.length ∧ twoBytes.input.length ≤ twoBytes.maxSize ∧
      twoBytes.maxSize < 2 ^ 64) ∧
    wp (grow .release) (fun _ s' => 2 < s'.input.length) twoBytes :=
  ⟨⟨by decide, by decide, by simp [twoBytes]⟩, wp_mono (fun _ s' grown => by
    rcases grown with ⟨full, _⟩ | ⟨i, byte, k, inside, least, _, grown⟩
    · exact absurd full (by decide)
    · rw [grown]; simp [twoBytes] at inside ⊢; omega)
    (byte_operators_frame .release twoBytes (by decide) (by decide) (by simp [twoBytes])).2.2⟩

end LucidMutator
