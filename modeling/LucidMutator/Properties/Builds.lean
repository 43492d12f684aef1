import LucidMutator.Mutator.Overflow
import LucidMutator.Properties.Trace

/-!
# Where the checked build leaves the wrapping build

A checked call of `mutate_input` returns exactly what the wrapping call returns, or stops at an
overflow on a call whose wrapping run stacks a magic operator. `AgreesAt x y s` is that relation
at one state; it composes along `bind` when the wrapping program only appends to the trace.
-/

namespace LucidMutator

variable {α β : Type}

/-- The trace names a magic operator. -/
def HasMagic (l : List MutationTypes) : Prop :=
  MutationTypes.magicByteInsert ∈ l ∨ MutationTypes.magicByteOverwrite ∈ l

theorem HasMagic.mono {l l' : List MutationTypes} (magic : HasMagic l)
    (extended : l <+: l') : HasMagic l' :=
  magic.imp (fun listed => extended.subset listed) (fun listed => extended.subset listed)

/-- `x` only appends to `last_mutation`. -/
def Appends (x : MutatorM α) : Prop :=
  ∀ s a s', x.run s = .ok (a, s') → s.lastMutation <+: s'.lastMutation

namespace Appends

theorem of_ignoresTrace {x : MutatorM α} (ignores : IgnoresTrace x) : Appends x :=
  fun _ _ _ found => (ignores.lastMutation_eq found).symm ▸ List.prefix_refl _

theorem bind {x : MutatorM α} {f : α → MutatorM β} (first : Appends x)
    (rest : ∀ a, Appends (f a)) : Appends (x >>= f) := by
  intro s b s'' found
  obtain ⟨a, s', ran, ran'⟩ := MutatorM.run_bind_ok found
  exact (first s a s' ran).trans (rest a s' b s'' ran')

theorem push (m : MutationTypes) :
    Appends (getLastMutation >>= fun l => setLastMutation (l ++ [m])) := by
  intro s _ s' found
  cases found
  exact List.prefix_append _ _

theorem forFrom {body : Nat → MutatorM Unit} (each : ∀ i, Appends (body i)) (start n : Nat) :
    Appends (LucidMutator.forFrom body start n) := by
  induction n generalizing start with
  | zero => exact of_ignoresTrace (IgnoresTrace.pure _)
  | succ n inductionHypothesis => exact bind (each start) fun _ => inductionHypothesis _

end Appends

/-- At `s`, the checked `checked` runs as the wrapping `wrapping`, or stops at an arithmetic
overflow on a run whose wrapping counterpart, where it returns, names a magic operator in its
trace. -/
def AgreesAt (checked wrapping : MutatorM α) (s : Mutator) : Prop :=
  checked.run s = wrapping.run s ∨
    (checked.run s = .error .arithmeticOverflow ∧
      ∀ a s', wrapping.run s = .ok (a, s') → HasMagic s'.lastMutation)

namespace AgreesAt

theorem bind_same {x : MutatorM α} {f g : α → MutatorM β} {s : Mutator}
    (rest : ∀ a s', x.run s = .ok (a, s') → AgreesAt (f a) (g a) s') :
    AgreesAt (x >>= f) (x >>= g) s := by
  rw [AgreesAt, MutatorM.run_bind, MutatorM.run_bind]
  split
  · next a s' ran => exact rest a s' ran
  · exact .inl rfl

theorem bind {x y : MutatorM α} {f g : α → MutatorM β} {s : Mutator} (first : AgreesAt x y s)
    (rest : ∀ a s', y.run s = .ok (a, s') → AgreesAt (f a) (g a) s')
    (appends : ∀ a, Appends (g a)) : AgreesAt (x >>= f) (y >>= g) s := by
  rcases first with same | ⟨overflowed, magic⟩
  · rw [AgreesAt, MutatorM.run_bind, MutatorM.run_bind, same]
    split
    · next a s' ran => exact rest a s' ran
    · exact .inl rfl
  · refine .inr ⟨by rw [MutatorM.run_bind, overflowed], fun b s'' found => ?_⟩
    obtain ⟨a, s', ran, ran'⟩ := MutatorM.run_bind_ok found
    exact (magic a s' ran).mono (appends a s' b s'' ran')

theorem forFrom {body body' : Nat → MutatorM Unit} (inv : Nat → Mutator → Prop)
    (each : ∀ i s, inv i s → AgreesAt (body i) (body' i) s)
    (step : ∀ i s, inv i s → wlp (body' i) (fun _ => inv (i + 1)) s)
    (appends : ∀ i, Appends (body' i)) (start n : Nat) {s : Mutator} (holds : inv start s) :
    AgreesAt (LucidMutator.forFrom body start n) (LucidMutator.forFrom body' start n) s := by
  induction n generalizing start s with
  | zero => exact .inl rfl
  | succ n inductionHypothesis =>
    exact bind (each start s holds)
      (fun _ s' ran => inductionHypothesis (start + 1) (wlp_run (step start s holds) ran))
      fun _ => Appends.forFrom appends _ _

end AgreesAt

theorem generateRandomInput_checked :
    Checked (generateRandomInput .dev) (generateRandomInput .release) := by
  simp only [generateRandomInput]
  repeat' with_reducible first
    | exact Checked.refl _
    | exact add_checked _ _
    | refine Checked.bind ?_ fun _ => ?_

variable {s : Mutator}

theorem generateRandomInput_agreesAt (positive : 0 < s.maxSize) (usize : s.maxSize < 2 ^ 64) :
    AgreesAt (generateRandomInput .dev) (generateRandomInput .release) s := by
  obtain ⟨_, _, returned, -⟩ := wp_iff_run.mp (generateRandomInput_spec .dev positive usize)
  rcases generateRandomInput_checked s with overflowed | same
  · rw [returned] at overflowed
    cases overflowed
  · exact .inl same

/-- An operator and its push: the checked run leaves the wrapping one only by an overflow, and
only for a magic operator, which the push then records. -/
theorem applyMutation_push_agreesAt (corpus : Corpus) (m : MutationTypes) (sized : Sized s)
    (small : s.maxSize < 2 ^ 61) (entries : corpus.Entries fun e => 0 < e.length)
    (inhabited : 0 < corpus.numInputs) :
    AgreesAt (applyMutation .dev corpus m >>= fun _ =>
        getLastMutation >>= fun l => setLastMutation (l ++ [m]))
      (applyMutation .release corpus m >>= fun _ =>
        getLastMutation >>= fun l => setLastMutation (l ++ [m])) s := by
  by_cases magic : m = .magicByteInsert ∨ m = .magicByteOverwrite
  · rcases applyMutation_checked corpus m s with overflowed | same
    · refine .inr ⟨by rw [MutatorM.run_bind, overflowed], fun _ s' found => ?_⟩
      obtain ⟨_, _, -, pushed⟩ := MutatorM.run_bind_ok found
      cases pushed
      rcases magic with rfl | rfl
      · exact .inl (List.mem_append_right _ (List.mem_singleton_self _))
      · exact .inr (List.mem_append_right _ (List.mem_singleton_self _))
    · exact .inl (by rw [MutatorM.run_bind, MutatorM.run_bind, same])
  · have same := applyMutation_dev_eq_release corpus sized small entries (.inr inhabited)
      (not_or.mp magic)
    exact .inl (by rw [MutatorM.run_bind, MutatorM.run_bind, same])

theorem mutateInput_agreesAt (corpus : Corpus) (positive : 0 < s.maxSize)
    (small : s.maxSize < 2 ^ 61)
    (entries : corpus.Entries fun e => 0 < e.length ∧ e.length ≤ s.maxSize) :
    AgreesAt (mutateInput .dev corpus) (mutateInput .release corpus) s := by
  have nonemptyEntries : corpus.Entries fun e => 0 < e.length :=
    fun i below => (entries i below).imp fun _ ⟨found, nonempty, _⟩ => ⟨found, nonempty⟩
  simp only [mutateInput, forRange]
  refine AgreesAt.bind_same fun _ s₁ cleared => ?_
  cases cleared
  refine AgreesAt.bind_same fun _ s₂ cleared => ?_
  cases cleared
  refine AgreesAt.bind_same fun gen s₃ drew => ?_
  obtain ⟨-, rfl⟩ := randMod_run drew
  split_ifs with scratch
  · exact AgreesAt.bind
      (generateRandomInput_agreesAt positive (show s.maxSize < 2 ^ 64 by omega))
      (fun _ _ _ => .inl rfl) fun _ => Appends.of_ignoresTrace (IgnoresTrace.pure _)
  have inhabited : 0 < corpus.numInputs := by omega
  refine AgreesAt.bind_same fun _ s₀ passed => ?_
  cases passed
  refine AgreesAt.bind_same fun idx s₄ drew => ?_
  obtain ⟨below, rfl⟩ := randMod_run drew
  obtain ⟨e, found, entryNonempty, entryFits⟩ := entries idx below
  refine AgreesAt.bind_same fun chosen s₅ unwrapped => ?_
  obtain ⟨picked, rfl⟩ := liftExcept_run unwrapped
  rw [found, unwrap_some] at picked
  cases picked
  refine AgreesAt.bind_same fun v s₆ read => ?_
  cases read
  refine AgreesAt.bind_same fun _ s₇ written => ?_
  cases written
  refine AgreesAt.bind_same fun r s₈ drew => ?_
  obtain ⟨rBelow, rfl⟩ := randMod_run drew
  simp only [maxStack] at rBelow
  simp (disch := omega) only [Profile.add_of_lt]
  refine AgreesAt.bind_same fun rounds s₉ added => ?_
  obtain ⟨counted, rfl⟩ := liftExcept_run added
  cases counted
  refine AgreesAt.bind (AgreesAt.forFrom (fun _ s' => Sized s' ∧ s'.maxSize = s.maxSize)
    (fun i s' ⟨sized, sameSize⟩ => ?_) (fun i s' ⟨sized, sameSize⟩ => ?_) (fun i => ?_) 0
    (r + 1)
    ⟨⟨by simpa using entryNonempty, by simpa using entryFits⟩, rfl⟩) (fun _ _ _ => .inl rfl)
    fun _ => ?_
  · refine AgreesAt.bind_same fun longshot s₁ drew => ?_
    obtain ⟨-, rfl⟩ := randMod_run drew
    refine AgreesAt.bind_same fun k s₂ drew => ?_
    obtain ⟨-, rfl⟩ := randMod_run drew
    refine AgreesAt.bind_same fun m s₃ indexed => ?_
    obtain ⟨-, rfl⟩ := liftExcept_run indexed
    exact applyMutation_push_agreesAt corpus m sized (show s'.maxSize < 2 ^ 61 by omega)
      nonemptyEntries inhabited
  · exact wlp_of_wp (wp_mono (fun _ s'' ⟨_, _, _, sized', sameSize'⟩ =>
      ⟨sized', sameSize'.trans sameSize⟩)
      (mutationRound_spec corpus sized (by omega) nonemptyEntries inhabited))
  · repeat' with_reducible first
      | exact Appends.push _
      | exact Appends.of_ignoresTrace (IgnoresTrace.randMod _)
      | exact Appends.of_ignoresTrace (IgnoresTrace.lift _)
      | exact Appends.of_ignoresTrace (applyMutation_ignoresTrace _ _ _)
      | refine Appends.bind ?_ fun _ => ?_
  · repeat' with_reducible first
      | exact Appends.of_ignoresTrace (IgnoresTrace.lift _)
      | exact Appends.of_ignoresTrace IgnoresTrace.getInput
      | exact Appends.of_ignoresTrace IgnoresTrace.getMaxSize
      | refine Appends.bind ?_ fun _ => ?_

/-- Against the wrapping build, the checked `mutate_input` returns exactly the same, or stops
at an arithmetic overflow; it stops only on a call whose wrapping run stacks a magic operator. -/
theorem mutateInput_dev_diverges_only_on_magic (corpus : Corpus) (positive : 0 < s.maxSize)
    (small : s.maxSize < 2 ^ 61)
    (entries : corpus.Entries fun e => 0 < e.length ∧ e.length ≤ s.maxSize) :
    (mutateInput .dev corpus).run s = (mutateInput .release corpus).run s ∨
      ((mutateInput .dev corpus).run s = .error .arithmeticOverflow ∧
        ∃ s', (mutateInput .release corpus).run s = .ok ((), s') ∧
          HasMagic s'.lastMutation) := by
  obtain ⟨⟨⟩, s', returned, -⟩ :=
    wp_iff_run.mp (mutateInput_spec corpus positive small entries)
  rcases mutateInput_agreesAt corpus positive small entries with same | ⟨overflowed, magic⟩
  · exact .inl same
  · exact .inr ⟨overflowed, s', returned, magic _ _ returned⟩

theorem mutateInput_dev_diverges_only_on_magic_on_oneByteCorpus :
    (0 < (Mutator.new (some 27560) 0 100).maxSize ∧
      (Mutator.new (some 27560) 0 100).maxSize < 2 ^ 61 ∧
      oneByteCorpus.Entries fun e => 0 < e.length ∧ e.length ≤ 100) ∧
    ((mutateInput .dev oneByteCorpus).run (Mutator.new (some 27560) 0 100) =
        (mutateInput .release oneByteCorpus).run (Mutator.new (some 27560) 0 100) ∨
      ((mutateInput .dev oneByteCorpus).run (Mutator.new (some 27560) 0 100) =
          .error .arithmeticOverflow ∧
        ∃ s', (mutateInput .release oneByteCorpus).run (Mutator.new (some 27560) 0 100) =
          .ok ((), s') ∧ HasMagic s'.lastMutation)) :=
  have entries : oneByteCorpus.Entries fun e => 0 < e.length ∧ e.length ≤ 100 :=
    Corpus.entries_ofList (by decide)
  ⟨⟨by decide, by norm_num [Mutator.new], entries⟩,
    mutateInput_dev_diverges_only_on_magic oneByteCorpus (by decide) (by norm_num [Mutator.new])
      entries⟩

end LucidMutator
