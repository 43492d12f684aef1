import LucidMutator.Mutator.Schedule

/-!
# What the operators leave alone

Only `mutate_input` touches `last_mutation`: it clears it, and pushes each operator after
running it. `IgnoresTrace x` says that `x` neither reads nor writes the field, so that a run
from a state with another trace is the same run carrying that trace. Like the overflow
relation, it is closed under the ways the methods are built, so it holds of every operator
and of the scratch path, and each of them leaves `last_mutation` as it found it.
-/

namespace LucidMutator

variable {α β : Type}

/-- `x` neither reads nor writes `last_mutation`. -/
def IgnoresTrace (x : MutatorM α) : Prop :=
  ∀ s l, x.run { s with lastMutation := l } =
    (x.run s).map fun r => (r.1, { r.2 with lastMutation := l })

namespace IgnoresTrace

theorem pure (a : α) : IgnoresTrace (pure a : MutatorM α) := fun _ _ => rfl

theorem lift (e : Except Panic α) : IgnoresTrace (monadLift e : MutatorM α) := by
  intro s l
  cases e <;> rfl

theorem rand : IgnoresTrace rand := fun _ _ => rfl

theorem getInput : IgnoresTrace getInput := fun _ _ => rfl

theorem setInput (v : List UInt8) : IgnoresTrace (setInput v) := fun _ _ => rfl

theorem getMaxSize : IgnoresTrace getMaxSize := fun _ _ => rfl

theorem bind {x : MutatorM α} {f : α → MutatorM β} (first : IgnoresTrace x)
    (rest : ∀ a, IgnoresTrace (f a)) : IgnoresTrace (x >>= f) := by
  intro s l
  rw [MutatorM.run_bind, MutatorM.run_bind, first s l]
  rcases x.run s with e | ⟨a, s'⟩
  · rfl
  · exact rest a s' l

theorem randMod (n : Nat) : IgnoresTrace (randMod n) :=
  bind rand fun _ => lift _

theorem ite (c : Prop) [Decidable c] {y z : MutatorM α} (yes : IgnoresTrace y)
    (no : IgnoresTrace z) : IgnoresTrace (if c then y else z) := by
  split
  · exact yes
  · exact no

theorem forRange {body : Nat → MutatorM Unit} (each : ∀ i, IgnoresTrace (body i)) (n : Nat) :
    IgnoresTrace (LucidMutator.forRange n body) := by
  suffices loop : ∀ start, IgnoresTrace (forFrom body start n) from loop 0
  induction n with
  | zero => exact fun _ => pure _
  | succ n inductionHypothesis =>
    exact fun start => bind (each start) fun _ => inductionHypothesis _

theorem lastMutation_eq {x : MutatorM α} (ignores : IgnoresTrace x) {s s' : Mutator} {a : α}
    (found : x.run s = .ok (a, s')) : s'.lastMutation = s.lastMutation := by
  have same : x.run s = _ := ignores s s.lastMutation
  simp only [found, Except.map, Except.ok.injEq, Prod.mk.injEq] at same
  exact (congrArg Mutator.lastMutation same.2 :)

theorem wp_lastMutation {x : MutatorM α} (ignores : IgnoresTrace x)
    {post : α → Mutator → Prop} {s : Mutator} (holds : wp x post s) :
    wp x (fun a s' => post a s' ∧ s'.lastMutation = s.lastMutation) s := by
  obtain ⟨a, s', found, result⟩ := wp_iff_run.mp holds
  exact wp_iff_run.mpr ⟨a, s', found, result, ignores.lastMutation_eq found⟩

theorem wlp {x : MutatorM α} (ignores : IgnoresTrace x) {post : α → Mutator → Prop}
    {s : Mutator} (rest : ∀ a s', s'.lastMutation = s.lastMutation → post a s') :
    LucidMutator.wlp x post s := by
  unfold LucidMutator.wlp
  split
  · next found => exact rest _ _ (ignores.lastMutation_eq found)
  · trivial

end IgnoresTrace

/-! ## The operators

The proofs follow each `do` block as the overflow proofs do, with one rule per primitive. -/

theorem mutateMagicValue_ignoresTrace (p : Profile) (magic : BitVec 64) (k : Nat) :
    IgnoresTrace (mutateMagicValue p magic k) := by
  match k with
  | 0 | 1 | 2 | 3 | 4 | 5 | 6 | 7 | 8 | 9 | 10 | 11 | 12 | 13 =>
    simp only [mutateMagicValue]
    repeat' with_reducible first
      | exact IgnoresTrace.pure _
      | exact IgnoresTrace.lift _
      | exact IgnoresTrace.randMod _
      | refine IgnoresTrace.bind ?_ fun _ => ?_
  | _ + 14 => exact IgnoresTrace.lift _

/-- No operator reads or writes `last_mutation`. -/
theorem applyMutation_ignoresTrace (p : Profile) (corpus : Corpus) (m : MutationTypes) :
    IgnoresTrace (applyMutation p corpus m) := by
  cases m <;> simp only [applyMutation, byteInsert, byteOverwrite, byteDelete, blockInsert,
    blockOverwrite, blockDelete, bitFlip, grow, truncate, magicByteInsert, magicByteOverwrite,
    splice, insertBytes, magicByteInsertStep, magicByteOverwriteStep, pickMagicBytes, mutateMagic,
    overwriteBytes] <;>
  repeat' with_reducible first
    | exact IgnoresTrace.pure _
    | exact IgnoresTrace.lift _
    | exact IgnoresTrace.rand
    | exact IgnoresTrace.randMod _
    | exact IgnoresTrace.getInput
    | exact IgnoresTrace.setInput _
    | exact IgnoresTrace.getMaxSize
    | exact mutateMagicValue_ignoresTrace _ _ _
    | refine IgnoresTrace.bind ?_ fun _ => ?_
    | refine IgnoresTrace.ite _ ?_ ?_
    | refine IgnoresTrace.forRange (fun _ => ?_) _
    | split

theorem generateRandomInput_ignoresTrace (p : Profile) :
    IgnoresTrace (generateRandomInput p) := by
  simp only [generateRandomInput]
  repeat' with_reducible first
    | exact IgnoresTrace.pure _
    | exact IgnoresTrace.lift _
    | exact IgnoresTrace.rand
    | exact IgnoresTrace.randMod _
    | exact IgnoresTrace.getInput
    | exact IgnoresTrace.setInput _
    | exact IgnoresTrace.getMaxSize
    | refine IgnoresTrace.bind ?_ fun _ => ?_
    | refine IgnoresTrace.forRange (fun _ => ?_) _

end LucidMutator
