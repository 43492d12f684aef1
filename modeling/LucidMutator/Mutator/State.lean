import LucidMutator.Rust.Core
import LucidMutator.Rng.Xorshift

/-!
# The mutator's state and its methods

`Mutator` is the Rust struct. A method taking `&mut self` is a `MutatorM` computation: a
state transformer into `Except Panic`, packaged with the proof that it keeps `max_size`
and moves `rng` only along the orbit of `xorshift`. Every operator is built from the
primitives of this file, so every operator inherits that proof.
-/

namespace LucidMutator

variable {α β : Type}

/-- The twelve operators, in the order of the `MUTATIONS` table. -/
inductive MutationTypes where
  | byteInsert
  | byteOverwrite
  | byteDelete
  | blockInsert
  | blockOverwrite
  | blockDelete
  | bitFlip
  | grow
  | truncate
  | magicByteInsert
  | magicByteOverwrite
  | splice
  deriving DecidableEq, Repr

/-- `struct Mutator`. `rng` is a `usize`, 64 bits wide on the fuzzer's only target. -/
structure Mutator where
  rng : BitVec 64
  input : List UInt8
  maxSize : Nat
  lastMutation : List MutationTypes
  deriving DecidableEq, Repr

/-- The corpus interface, `num_inputs()` and `get_input(i)`. An entry is a `&[u8]`, so its
length is a `usize`. -/
structure Corpus where
  numInputs : Nat
  getInput : Nat → Option (List UInt8)
  entry_length_lt : ∀ {i e}, getInput i = some e → e.length < 2 ^ 64

/-- Every index below `num_inputs()` has an entry, and each such entry is `good`. -/
def Corpus.Entries (corpus : Corpus) (good : List UInt8 → Prop) : Prop :=
  ∀ i < corpus.numInputs, ∃ e, corpus.getInput i = some e ∧ good e

def Corpus.ofList (entries : List (List UInt8)) (short : ∀ e ∈ entries, e.length < 2 ^ 64) :
    Corpus where
  numInputs := entries.length
  getInput i := entries.get? i
  entry_length_lt found := short _ (List.get?_mem found)

theorem Corpus.entries_ofList {entries : List (List UInt8)} {short} {good : List UInt8 → Prop}
    (all : ∀ e ∈ entries, good e) : (Corpus.ofList entries short).Entries good :=
  fun _ below => ⟨_, List.get?_eq_get below, all _ (List.get_mem _ _ _)⟩

/-- What a method may do to the fields no operator writes: `max_size` stays, and `rng`
moves forward along the generator's orbit. -/
def Advances (s s' : Mutator) : Prop :=
  s'.maxSize = s.maxSize ∧ ∃ k, s'.rng = xorshift^[k] s.rng

theorem Advances.refl (s : Mutator) : Advances s s := ⟨rfl, 0, rfl⟩

theorem Advances.trans {s s' s'' : Mutator} :
    Advances s s' → Advances s' s'' → Advances s s''
  | ⟨sameSize, k, reached⟩, ⟨sameSize', k', reached'⟩ =>
      ⟨sameSize'.trans sameSize, k' + k, by rw [reached', reached, Function.iterate_add_apply]⟩

/-- A method of `Mutator`: `&mut self` as explicit state passing, a panic as `error`. -/
structure MutatorM (α : Type) where
  run : Mutator → Except Panic (α × Mutator)
  advances : ∀ {s a s'}, run s = .ok (a, s') → Advances s s'

namespace MutatorM

/-- A method that only reads or writes the fields `input` and `last_mutation`. -/
def ofBuffer (f : Mutator → Except Panic (α × Mutator))
    (frame : ∀ {s a s'}, f s = .ok (a, s') → s'.rng = s.rng ∧ s'.maxSize = s.maxSize) :
    MutatorM α where
  run := f
  advances found := ⟨(frame found).2, 0, (frame found).1⟩

protected def pure (a : α) : MutatorM α :=
  ofBuffer (fun s => .ok (a, s)) fun found => by cases found; exact ⟨rfl, rfl⟩

protected def bind (x : MutatorM α) (f : α → MutatorM β) : MutatorM β where
  run s :=
    match x.run s with
    | .ok (a, s') => (f a).run s'
    | .error e => .error e
  advances {s b s''} found := by
    dsimp only at found
    split at found
    · next a s' first => exact (x.advances first).trans ((f a).advances found)
    · cases found

instance : Monad MutatorM where
  pure := MutatorM.pure
  bind := MutatorM.bind

/-- A computation of the standard library that may panic, run inside a method. -/
def liftExcept (e : Except Panic α) : MutatorM α :=
  ofBuffer (fun s => match e with | .ok a => .ok (a, s) | .error p => .error p) fun found => by
    cases e <;> cases found; exact ⟨rfl, rfl⟩

instance : MonadLift (Except Panic) MutatorM := ⟨liftExcept⟩

theorem rng_ne_zero (x : MutatorM α) {s s' : Mutator} {a : α} (found : x.run s = .ok (a, s'))
    (nonzero : s.rng ≠ 0) : s'.rng ≠ 0 := by
  obtain ⟨-, k, reached⟩ := x.advances found
  rw [reached]
  exact iterate_xorshift_ne_zero nonzero k

end MutatorM

/-- `self.rand()`: the saved state is returned and the state is advanced. -/
def rand : MutatorM Nat where
  run s := .ok (s.rng.toNat, { s with rng := xorshift s.rng })
  advances found := by cases found; exact ⟨rfl, 1, rfl⟩

def getInput : MutatorM (List UInt8) :=
  .ofBuffer (fun s => .ok (s.input, s)) fun found => by cases found; exact ⟨rfl, rfl⟩

def setInput (v : List UInt8) : MutatorM Unit :=
  .ofBuffer (fun s => .ok ((), { s with input := v })) fun found => by
    cases found; exact ⟨rfl, rfl⟩

def getMaxSize : MutatorM Nat :=
  .ofBuffer (fun s => .ok (s.maxSize, s)) fun found => by cases found; exact ⟨rfl, rfl⟩

def getLastMutation : MutatorM (List MutationTypes) :=
  .ofBuffer (fun s => .ok (s.lastMutation, s)) fun found => by cases found; exact ⟨rfl, rfl⟩

def setLastMutation (l : List MutationTypes) : MutatorM Unit :=
  .ofBuffer (fun s => .ok ((), { s with lastMutation := l })) fun found => by
    cases found; exact ⟨rfl, rfl⟩

def randMod (n : Nat) : MutatorM Nat := do
  rem (← rand) n

/-- `for i in start..start + count { body(i) }`. -/
def forFrom (body : Nat → MutatorM Unit) : Nat → Nat → MutatorM Unit
  | _, 0 => pure ()
  | i, count + 1 => do
    body i
    forFrom body (i + 1) count

/-- `for i in 0..n { body(i) }`. -/
def forRange (n : Nat) (body : Nat → MutatorM Unit) : MutatorM Unit :=
  forFrom body 0 n

end LucidMutator
