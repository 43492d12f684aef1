import LucidMutator.Mutator.Schedule

/-!
# Sessions

A fuzzer drives a mutator by a sequence of calls. `session` runs one and collects what each
`mutate_input` left; `Reachable` is every state some sequence reaches from a starting state.
What `mutate_input` produces depends on `rng` and `max_size` only, so `memcpy_input` calls can
be dropped from a session without changing one of its outputs, and every reachable state
keeps the starting `max_size` and, from a nonzero seed, a nonzero `rng`.
-/

namespace LucidMutator

/-- The calls a fuzzer makes on a mutator. -/
inductive Call where
  | mutateInput
  | memcpyInput (slice : List UInt8)
  | reseed (generated : BitVec 64)

def Call.isMemcpyInput : Call → Bool
  | .memcpyInput _ => true
  | _ => false

/-- Run the calls in order and collect the state each `mutate_input` leaves. -/
def session (p : Profile) (corpus : Corpus) : List Call → Mutator → Except Panic (List Mutator)
  | [], _ => .ok []
  | .mutateInput :: calls, s => do
    let (_, s') ← (mutateInput p corpus).run s
    return s' :: (← session p corpus calls s')
  | .memcpyInput slice :: calls, s => do
    let (_, s') ← (memcpyInput slice).run s
    session p corpus calls s'
  | .reseed generated :: calls, s => session p corpus calls (s.reseed generated).2

/-- The states reachable from `init` by calls of the public interface, `reseed` taking
its seeds among `seeds`. -/
inductive Reachable (p : Profile) (corpus : Corpus) (seeds : BitVec 64 → Prop) (init : Mutator) :
    Mutator → Prop
  | init : Reachable p corpus seeds init init
  | mutateInput {s s'} : Reachable p corpus seeds init s →
      (mutateInput p corpus).run s = .ok ((), s') → Reachable p corpus seeds init s'
  | memcpyInput {s s'} (slice : List UInt8) : Reachable p corpus seeds init s →
      (memcpyInput slice).run s = .ok ((), s') → Reachable p corpus seeds init s'
  | reseed {s} {generated : BitVec 64} : Reachable p corpus seeds init s → seeds generated →
      Reachable p corpus seeds init (s.reseed generated).2

variable {p : Profile} {corpus : Corpus} {s : Mutator}

theorem memcpyInput_run (slice : List UInt8) :
    (memcpyInput slice).run s = .ok ((), { s with input := slice }) := rfl

theorem session_congr (calls : List Call) {s₁ s₂ : Mutator} (sameRng : s₁.rng = s₂.rng)
    (sameSize : s₁.maxSize = s₂.maxSize) :
    session p corpus calls s₁ = session p corpus calls s₂ := by
  induction calls generalizing s₁ s₂ with
  | nil => rfl
  | cons call calls inductionHypothesis =>
    cases call with
    | mutateInput => simp only [session, mutateInput_run_congr p corpus sameRng sameSize]
    | memcpyInput slice =>
      simp only [session, memcpyInput_run]
      exact inductionHypothesis sameRng sameSize
    | reseed generated => exact inductionHypothesis rfl sameSize

/-- Dropping every `memcpy_input` from a session changes none of its outputs. -/
theorem session_filter_memcpyInput (calls : List Call) (s : Mutator) :
    session p corpus calls s = session p corpus (calls.filter fun call => !call.isMemcpyInput) s := by
  induction calls generalizing s with
  | nil => rfl
  | cons call calls inductionHypothesis =>
    cases call with
    | mutateInput => simp only [session, List.filter, Call.isMemcpyInput, inductionHypothesis]
    | memcpyInput slice =>
      simp only [session, memcpyInput_run, List.filter, Call.isMemcpyInput]
      exact (inductionHypothesis _).trans (session_congr _ rfl rfl)
    | reseed generated =>
      simp only [session, List.filter, Call.isMemcpyInput]
      exact inductionHypothesis _

variable {seeds : BitVec 64 → Prop} {init : Mutator}

theorem Reachable.maxSize_eq (reached : Reachable p corpus seeds init s) :
    s.maxSize = init.maxSize := by
  induction reached with
  | init => rfl
  | mutateInput _ found sameSize => exact ((LucidMutator.mutateInput p corpus).advances found).1.trans sameSize
  | memcpyInput slice _ found sameSize => exact ((LucidMutator.memcpyInput slice).advances found).1.trans sameSize
  | reseed _ _ sameSize => exact sameSize

/-- From a nonzero state, with nonzero reseeds, `rng` is never `0`. -/
theorem Reachable.rng_ne_zero (reached : Reachable p corpus seeds init s)
    (initial : init.rng ≠ 0) (reseeds : ∀ generated, seeds generated → generated ≠ 0) :
    s.rng ≠ 0 := by
  induction reached with
  | init => exact initial
  | mutateInput _ found nonzero => exact (LucidMutator.mutateInput p corpus).rng_ne_zero found nonzero
  | memcpyInput slice _ found nonzero => exact (LucidMutator.memcpyInput slice).rng_ne_zero found nonzero
  | reseed _ drawn _ => exact reseeds _ drawn

theorem new_rng_ne_zero {seed : Option (BitVec 64)} {generated : BitVec 64} (maxSize : Nat)
    (given : seed ≠ some 0) (drawn : generated ≠ 0) : (Mutator.new seed generated maxSize).rng ≠ 0 := by
  cases seed with
  | none => exact drawn
  | some seedVal => exact fun zero => given (congrArg some zero)

end LucidMutator
