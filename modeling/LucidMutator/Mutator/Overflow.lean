import LucidMutator.Mutator.Session

/-!
# The checked build and the wrapping build

A build with overflow checks panics where a build without them wraps; otherwise both run the
same steps. `Checked` is that relation, closed under the ways the methods are built. From a
sized buffer only the two magic operators can overflow.
-/

namespace LucidMutator

variable {α β : Type}

/-- `checked` is `wrapping` with overflow checks: from every state it panics with an
arithmetic overflow, or returns or panics exactly as `wrapping` does. -/
def Checked (checked wrapping : MutatorM α) : Prop :=
  ∀ s, checked.run s = .error .arithmeticOverflow ∨ checked.run s = wrapping.run s

namespace Checked

theorem refl (x : MutatorM α) : Checked x x := fun _ => .inr rfl

theorem run_eq_of_ok {x y : MutatorM α} (checked : Checked x y) {s : Mutator} {r : α × Mutator}
    (returned : x.run s = .ok r) : y.run s = .ok r := by
  rcases checked s with overflowed | same
  · rw [returned] at overflowed
    cases overflowed
  · rwa [← same]

theorem bind {x y : MutatorM α} {f g : α → MutatorM β} (first : Checked x y)
    (rest : ∀ a, Checked (f a) (g a)) : Checked (x >>= f) (y >>= g) := by
  intro s
  rw [MutatorM.run_bind, MutatorM.run_bind]
  rcases first s with overflowed | same
  · rw [overflowed]; exact .inl rfl
  · rw [← same]
    rcases x.run s with e | ⟨a, s'⟩
    · exact .inr rfl
    · exact rest a s'

theorem lift {e e' : Except Panic α} (checked : e = .error .arithmeticOverflow ∨ e = e') :
    Checked (monadLift e) (monadLift e') := by
  intro s
  rcases checked with rfl | rfl
  · exact .inl rfl
  · exact .inr rfl

theorem ite (c : Prop) [Decidable c] {y y' z z' : MutatorM α} (yes : Checked y y')
    (no : Checked z z') : Checked (if c then y else z) (if c then y' else z') := by
  split
  · exact yes
  · exact no

theorem forRange {body body' : Nat → MutatorM Unit} (each : ∀ i, Checked (body i) (body' i))
    (n : Nat) : Checked (LucidMutator.forRange n body) (LucidMutator.forRange n body') := by
  suffices loop : ∀ start, Checked (forFrom body start n) (forFrom body' start n) from loop 0
  induction n with
  | zero => exact fun _ => refl _
  | succ n inductionHypothesis =>
    exact fun start => bind (each start) fun _ => inductionHypothesis _

end Checked

/-! ## The arithmetic -/

theorem overflow_checked {c : Prop} [Decidable c] (v w : α) :
    (if c then .ok v else Profile.dev.overflow w) = .error .arithmeticOverflow ∨
      (if c then .ok v else Profile.dev.overflow w) =
        (if c then .ok v else Profile.release.overflow w) := by
  split
  · exact .inr rfl
  · exact .inl rfl

theorem sub_checked (a b : Nat) :
    Checked (monadLift (Profile.dev.sub a b)) (monadLift (Profile.release.sub a b)) :=
  Checked.lift (overflow_checked _ _)

theorem add_checked (a b : Nat) :
    Checked (monadLift (Profile.dev.add a b)) (monadLift (Profile.release.add a b)) :=
  Checked.lift (overflow_checked _ _)

theorem mul_checked (a b : Nat) :
    Checked (monadLift (Profile.dev.mul a b)) (monadLift (Profile.release.mul a b)) :=
  Checked.lift (overflow_checked _ _)

theorem subU64_checked (a b : BitVec 64) :
    Checked (monadLift (Profile.dev.subU64 a b)) (monadLift (Profile.release.subU64 a b)) :=
  Checked.lift (overflow_checked _ _)

theorem addU64_checked (a b : BitVec 64) :
    Checked (monadLift (Profile.dev.addU64 a b)) (monadLift (Profile.release.addU64 a b)) :=
  Checked.lift (overflow_checked _ _)

/-! ## The methods

Each proof unfolds the method and then follows its `do` block: a `bind`, an `if`, a loop or a
`match` is taken apart, an arithmetic step is one of the lemmas above, and a step that reads
no profile is the same on both sides. Transparency is kept reducible so that a rule that does
not apply fails at once. -/

theorem mutateMagicValue_checked (magic : BitVec 64) (k : Nat) :
    Checked (mutateMagicValue .dev magic k) (mutateMagicValue .release magic k) := by
  match k with
  | 0 | 1 | 2 | 3 | 6 | 7 | 8 | 9 | 10 | 11 | 12 | 13 => exact Checked.refl _
  | 4 => exact subU64_checked _ _
  | 5 => exact addU64_checked _ _
  | _ + 14 => exact Checked.refl _

theorem applyMutation_checked (corpus : Corpus) (m : MutationTypes) :
    Checked (applyMutation .dev corpus m) (applyMutation .release corpus m) := by
  cases m <;> simp only [applyMutation, byteInsert, byteOverwrite, byteDelete, blockInsert,
    blockOverwrite, blockDelete, bitFlip, grow, truncate, magicByteInsert, magicByteOverwrite,
    splice, insertBytes, magicByteInsertStep, magicByteOverwriteStep, pickMagicBytes, mutateMagic,
    overwriteBytes] <;>
  repeat' with_reducible first
    | exact Checked.refl _
    | exact sub_checked _ _
    | exact add_checked _ _
    | exact mul_checked _ _
    | exact mutateMagicValue_checked _ _
    | refine Checked.bind ?_ fun _ => ?_
    | refine Checked.ite _ ?_ ?_
    | refine Checked.forRange (fun _ => ?_) _
    | split

/-- From a sized buffer, every operator but the two magic ones returns in the checked build. -/
theorem applyMutation_dev_returns {s : Mutator} (corpus : Corpus) {m : MutationTypes}
    (sized : Sized s)
    (small : s.maxSize < 2 ^ 61) (entries : corpus.Entries fun e => 0 < e.length)
    (inhabited : m ≠ .splice ∨ 0 < corpus.numInputs)
    (notMagic : m ≠ .magicByteInsert ∧ m ≠ .magicByteOverwrite) :
    wp (applyMutation .dev corpus m) (fun _ _ => True) s := by
  obtain ⟨nonempty, fits⟩ := sized
  have always {α : Type} {x : MutatorM α} {post : α → Mutator → Prop} (holds : wp x post s) :
      wp x (fun _ _ => True) s := wp_mono (fun _ _ _ => trivial) holds
  cases m with
  | byteInsert => exact always (byteInsert_spec _ nonempty fits)
  | byteOverwrite => exact always (byteOverwrite_spec _ nonempty)
  | byteDelete => exact always (byteDelete_spec _ nonempty)
  | blockInsert => exact always (blockInsert_spec _ nonempty fits (by omega))
  | blockOverwrite => exact always (blockOverwrite_spec _ nonempty (by omega))
  | blockDelete => exact always (blockDelete_spec _ nonempty (by omega))
  | bitFlip => exact always (bitFlip_spec _ nonempty (by omega))
  | grow => exact always (grow_spec _ nonempty fits (by omega))
  | truncate => exact always (truncate_spec _ nonempty (by omega))
  | magicByteInsert => exact absurd rfl notMagic.1
  | magicByteOverwrite => exact absurd rfl notMagic.2
  | splice =>
    exact always (splice_spec _ corpus nonempty fits (by omega)
      (inhabited.resolve_left fun wrong => wrong rfl) entries)

/-- Only the two magic operators can hit an arithmetic overflow: from a sized buffer, every
other operator runs in the checked build exactly as in the wrapping build. -/
theorem applyMutation_dev_eq_release {s : Mutator} (corpus : Corpus) {m : MutationTypes}
    (sized : Sized s)
    (small : s.maxSize < 2 ^ 61) (entries : corpus.Entries fun e => 0 < e.length)
    (inhabited : m ≠ .splice ∨ 0 < corpus.numInputs)
    (notMagic : m ≠ .magicByteInsert ∧ m ≠ .magicByteOverwrite) :
    (applyMutation .dev corpus m).run s = (applyMutation .release corpus m).run s := by
  obtain ⟨_, _, returned, -⟩ :=
    wp_iff_run.mp (applyMutation_dev_returns corpus sized small entries inhabited notMagic)
  exact returned.trans ((applyMutation_checked corpus m).run_eq_of_ok returned).symm

theorem pickMagicBytes_checked : Checked (pickMagicBytes .dev) (pickMagicBytes .release) := by
  simp only [pickMagicBytes, mutateMagic]
  repeat' with_reducible first
    | exact Checked.refl _
    | exact mutateMagicValue_checked _ _
    | refine Checked.bind ?_ fun _ => ?_
    | refine Checked.ite _ ?_ ?_

theorem magicByteInsertStep_checked :
    Checked (magicByteInsertStep .dev) (magicByteInsertStep .release) := by
  simp only [magicByteInsertStep, insertBytes]
  repeat' with_reducible first
    | exact Checked.refl _
    | exact add_checked _ _
    | exact pickMagicBytes_checked
    | refine Checked.bind ?_ fun _ => ?_
    | refine Checked.forRange (fun _ => ?_) _

/-- In either build, a round of `magic_byte_insert` that returns splices in, at the index it
drew, the magic bytes its pick returned. -/
theorem magicByteInsertStep_wlp (p : Profile) {s : Mutator} (nonempty : 0 < s.input.length)
    (room : s.input.length + 8 ≤ 2 ^ 64) :
    wlp (magicByteInsertStep p) (fun _ s' => ∃ bytes s₁,
      (pickMagicBytes p).run { s with rng := xorshift s.rng } = .ok (bytes, s₁) ∧
      MagicLength bytes.length ∧
      s'.input = s.input.take (s.rng.toNat % s.input.length) ++ bytes ++
        s.input.drop (s.rng.toNat % s.input.length)) s := by
  cases p with
  | release => exact wlp_of_wp (magicByteInsertStep_spec nonempty room)
  | dev =>
    unfold wlp
    split
    · next _ s' ran =>
      obtain ⟨bytes, s₁, picked, length, inserted⟩ :=
        wlp_run (wlp_of_wp (magicByteInsertStep_spec nonempty room))
          (magicByteInsertStep_checked.run_eq_of_ok ran)
      obtain ⟨_, _, read, ran⟩ := MutatorM.run_bind_ok ran
      cases read
      obtain ⟨_, _, drew, ran⟩ := MutatorM.run_bind_ok ran
      obtain ⟨-, rfl⟩ := randMod_run drew
      obtain ⟨_, _, picked', -⟩ := MutatorM.run_bind_ok ran
      obtain ⟨⟩ := picked.symm.trans (pickMagicBytes_checked.run_eq_of_ok picked')
      exact ⟨_, _, picked', length, inserted⟩
    · trivial

end LucidMutator
