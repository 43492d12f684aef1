import LucidMutator.Properties.Builds
import LucidMutator.Rng.Period

/-!
# How far one call moves the generator

`DrawsAtMost n x` bounds how many values a run of `x` draws from `rand`; it is closed under the
ways the methods are built. A call of `mutate_input` draws at least once and at most
`maxCallDraws max_size` times, so a session that draws less than a period never replays a state.
-/

namespace LucidMutator

variable {α β : Type}

/-- Every run of `x` that returns has drawn at most `n` values from `rand`. -/
def DrawsAtMost (n : Nat) (x : MutatorM α) : Prop :=
  ∀ s a s', x.run s = .ok (a, s') → ∃ k ≤ n, s'.rng = xorshift^[k] s.rng

namespace DrawsAtMost

variable {m n : Nat} {x : MutatorM α} {f : α → MutatorM β}

theorem mono (le : m ≤ n) (draws : DrawsAtMost m x) : DrawsAtMost n x := fun s a s' found =>
  let ⟨k, below, reached⟩ := draws s a s' found
  ⟨k, below.trans le, reached⟩

theorem of_rng_eq (keeps : ∀ {s a s'}, x.run s = .ok (a, s') → s'.rng = s.rng) :
    DrawsAtMost n x := fun _ _ _ found =>
  ⟨0, Nat.zero_le _, keeps found⟩

theorem pure (a : α) : DrawsAtMost n (pure a : MutatorM α) :=
  of_rng_eq fun found => by cases found; rfl

theorem getInput : DrawsAtMost n getInput := of_rng_eq fun found => by cases found; rfl

theorem setInput (v : List UInt8) : DrawsAtMost n (setInput v) :=
  of_rng_eq fun found => by cases found; rfl

theorem getMaxSize : DrawsAtMost n getMaxSize := of_rng_eq fun found => by cases found; rfl

theorem getLastMutation : DrawsAtMost n getLastMutation :=
  of_rng_eq fun found => by cases found; rfl

theorem setLastMutation (l : List MutationTypes) : DrawsAtMost n (setLastMutation l) :=
  of_rng_eq fun found => by cases found; rfl

theorem liftExcept (e : Except Panic α) : DrawsAtMost n (monadLift e : MutatorM α) :=
  of_rng_eq fun found => by rw [(liftExcept_run found).2]

theorem bind (first : DrawsAtMost m x) (rest : ∀ a, DrawsAtMost n (f a)) :
    DrawsAtMost (n + m) (x >>= f) := fun _ _ _ found =>
  let ⟨_, _, ran, ran'⟩ := MutatorM.run_bind_ok found
  let ⟨k, below, reached⟩ := first _ _ _ ran
  let ⟨k', below', reached'⟩ := rest _ _ _ _ ran'
  ⟨k' + k, Nat.add_le_add below' below, by rw [reached', reached, Function.iterate_add_apply]⟩

theorem bind_free (first : DrawsAtMost 0 x) (rest : ∀ a, DrawsAtMost n (f a)) :
    DrawsAtMost n (x >>= f) :=
  bind first rest

theorem rand_bind {f : Nat → MutatorM β} (rest : ∀ a, DrawsAtMost n (f a)) :
    DrawsAtMost (n + 1) (rand >>= f) :=
  bind (fun _ _ _ found => by cases found; exact ⟨1, le_rfl, rfl⟩) rest

theorem randMod_bind {c : Nat} {f : Nat → MutatorM β} (rest : ∀ r < c, DrawsAtMost n (f r)) :
    DrawsAtMost (n + 1) (randMod c >>= f) := fun _ _ _ found => by
  obtain ⟨r, _, drew, ran⟩ := MutatorM.run_bind_ok found
  obtain ⟨below, rfl⟩ := randMod_run drew
  obtain ⟨k, bound, reached⟩ := rest r below _ _ _ ran
  exact ⟨k + 1, Nat.succ_le_succ bound, by rw [reached, Function.iterate_succ_apply]⟩

theorem liftExcept_bind {e : Except Panic α} (rest : ∀ a, e = .ok a → DrawsAtMost n (f a)) :
    DrawsAtMost n (monadLift e >>= f) := fun _ _ _ found => by
  obtain ⟨a, _, lifted, ran⟩ := MutatorM.run_bind_ok found
  obtain ⟨returned, rfl⟩ := liftExcept_run lifted
  exact rest a returned _ _ _ ran

theorem ite (c : Prop) [Decidable c] {y z : MutatorM α} (yes : DrawsAtMost n y)
    (no : DrawsAtMost n z) : DrawsAtMost n (if c then y else z) := by
  split
  · exact yes
  · exact no

/-- A loop of at most `c` rounds of at most `n` draws each. -/
theorem forRange {body : Nat → MutatorM Unit} (each : ∀ i, DrawsAtMost n (body i))
    {count c : Nat} (fewer : count ≤ c) :
    DrawsAtMost (c * n) (LucidMutator.forRange count body) := by
  suffices loop : ∀ start, DrawsAtMost (count * n) (forFrom body start count) from
    mono (Nat.mul_le_mul_right n fewer) (loop 0)
  clear fewer
  induction count with
  | zero => exact fun _ => pure _
  | succ count inductionHypothesis =>
    exact fun start =>
      mono (Nat.succ_mul count n).ge (bind (each start) fun _ => inductionHypothesis _)

theorem forRange_free {body : Nat → MutatorM Unit} (each : ∀ i, DrawsAtMost 0 (body i))
    (count : Nat) : DrawsAtMost n (LucidMutator.forRange count body) :=
  mono (Nat.mul_zero count ▸ Nat.zero_le n) (forRange each le_rfl)

end DrawsAtMost

/-! ## The operators

Each proof follows the `do` block of the method. A draw takes one from the budget; a loop whose
count was drawn below a ceiling takes the ceiling times what one round draws. -/

theorem drawnCount_le {p : Profile} {r ceiling count : Nat} (below : r < ceiling)
    (added : p.add r 1 = .ok count) : count ≤ ceiling :=
  (Profile.add_le p added).trans below

theorem insertBytes_draws (p : Profile) (idx : Nat) (bytes : List UInt8) {n : Nat} :
    DrawsAtMost n (insertBytes p idx bytes) := by
  simp only [insertBytes]
  repeat' with_reducible first
    | exact .getInput
    | exact .setInput _
    | exact .liftExcept _
    | refine .bind_free .getInput fun _ => ?_
    | refine .liftExcept_bind fun _ _ => ?_
    | refine .forRange_free (fun _ => ?_) _

theorem byteInsert_draws (p : Profile) : DrawsAtMost 129 (byteInsert p) := by
  simp only [byteInsert]
  refine .bind_free .getMaxSize fun _ => .bind_free .getInput fun _ =>
    .liftExcept_bind fun slack _ => .ite _ (.pure _) (.randMod_bind fun r below =>
      .liftExcept_bind fun count added => .forRange (c := 64) (n := 2) (fun _ => ?_) ?_)
  · exact .bind_free .getInput fun _ => .randMod_bind fun _ _ => .rand_bind fun _ =>
      .bind_free .getInput fun _ => .liftExcept_bind fun _ _ => .setInput _
  · exact (drawnCount_le below added).trans (min_le_right _ _)

theorem byteOverwrite_draws (p : Profile) : DrawsAtMost 129 (byteOverwrite p) := by
  simp only [byteOverwrite]
  refine .bind_free .getInput fun _ => .randMod_bind fun r below =>
    .liftExcept_bind fun count added => .forRange (c := 64) (n := 2) (fun _ => ?_) ?_
  · exact .bind_free .getInput fun _ => .randMod_bind fun _ _ => .rand_bind fun _ =>
      .bind_free .getInput fun _ => .liftExcept_bind fun _ _ => .setInput _
  · exact (drawnCount_le below added).trans (min_le_right _ _)

theorem byteDelete_draws (p : Profile) : DrawsAtMost 65 (byteDelete p) := by
  simp only [byteDelete]
  refine .bind_free .getInput fun _ => .liftExcept_bind fun _ _ => .ite _ (.pure _)
    (.randMod_bind fun r below =>
      .liftExcept_bind fun count added => .forRange (c := 64) (n := 1) (fun _ => ?_) ?_)
  · exact .bind_free .getInput fun _ => .randMod_bind fun _ _ =>
      .bind_free .getInput fun _ => .liftExcept_bind fun _ _ => .setInput _
  · exact (drawnCount_le below added).trans (min_le_right _ _)

theorem bitFlip_draws (p : Profile) : DrawsAtMost 65 (bitFlip p) := by
  simp only [bitFlip]
  refine .bind_free .getInput fun _ => .liftExcept_bind fun _ _ => .randMod_bind fun r below =>
    .liftExcept_bind fun count added => .forRange (c := 64) (n := 1) (fun _ => ?_) ?_
  · exact .randMod_bind fun _ _ => .bind_free .getInput fun _ =>
      .liftExcept_bind fun _ _ => .setInput _
  · exact (drawnCount_le below added).trans (min_le_right _ _)

/-! ## The magic operators -/

theorem mutateMagicValue_draws (p : Profile) (magic : BitVec 64) (k : Nat) :
    DrawsAtMost 1 (mutateMagicValue p magic k) := by
  match k with
  | 0 | 1 | 2 | 3 | 6 | 7 | 8 | 9 | 10 | 11 | 12 => exact .pure _
  | 4 | 5 | _ + 14 => exact .liftExcept _
  | 13 => exact .randMod_bind fun _ _ => .pure _

theorem mutateMagic_draws (p : Profile) (magic : BitVec 64) :
    DrawsAtMost 3 (mutateMagic p magic) :=
  .randMod_bind fun _ _ => .bind (mutateMagicValue_draws p magic _) fun _ =>
    .randMod_bind fun _ _ => .liftExcept _

theorem pickMagicBytes_draws (p : Profile) : DrawsAtMost 5 (pickMagicBytes p) :=
  .randMod_bind fun _ _ => .liftExcept_bind fun _ _ => .randMod_bind fun _ _ =>
    .ite _ (mutateMagic_draws p _) (.pure _)

theorem overwriteBytes_draws (p : Profile) (idx : Nat) (bytes : List UInt8) {n : Nat} :
    DrawsAtMost n (overwriteBytes p idx bytes) :=
  .forRange_free (fun _ => .bind_free .getInput fun _ => .liftExcept_bind fun _ _ =>
    .liftExcept_bind fun _ _ => .setInput _) _

theorem magicByteInsertStep_draws (p : Profile) : DrawsAtMost 6 (magicByteInsertStep p) :=
  .bind_free .getInput fun _ => .randMod_bind fun _ _ =>
    .bind (pickMagicBytes_draws p) fun _ => insertBytes_draws _ _ _

theorem magicByteInsert_draws (p : Profile) : DrawsAtMost 49 (magicByteInsert p) := by
  simp only [magicByteInsert]
  refine .bind_free .getMaxSize fun _ => .bind_free .getInput fun _ =>
    .liftExcept_bind fun _ _ => .ite _ (.pure _) (.bind_free (.pure _) fun _ =>
      .randMod_bind fun r below => .liftExcept_bind fun count added =>
        .forRange (c := 8) (fun _ => magicByteInsertStep_draws p) ?_)
  exact Nat.div_le_div_right ((drawnCount_le below added).trans (min_le_right _ _))

theorem magicByteOverwriteStep_draws (p : Profile) (maxOverwrite : Nat) :
    DrawsAtMost 6 (magicByteOverwriteStep p maxOverwrite) :=
  .liftExcept_bind fun _ _ => .randMod_bind fun _ _ =>
    .bind (pickMagicBytes_draws p) fun _ => overwriteBytes_draws _ _ _

theorem magicByteOverwrite_draws (p : Profile) : DrawsAtMost 49 (magicByteOverwrite p) := by
  simp only [magicByteOverwrite]
  refine .bind_free .getInput fun _ => .ite _ (.pure _) (.bind_free (.pure _) fun _ =>
    .bind_free .getInput fun _ => .randMod_bind fun r below =>
      .liftExcept_bind fun count added => .bind_free .getInput fun _ => .liftExcept_bind fun _ _ =>
        .forRange (c := 8) (fun _ => magicByteOverwriteStep_draws p _) ?_)
  exact Nat.div_le_div_right ((drawnCount_le below added).trans (min_le_right _ _))

/-! ## One call -/

/-- The most values one operator draws: `byte_insert` and `byte_overwrite` draw the count, then
an index and a byte for each of at most `MAX_BYTE_CORRUPTION` bytes. -/
def maxOperatorDraws : Nat := 1 + 2 * maxByteCorruption

/-- No operator draws more than `maxOperatorDraws` values. -/
theorem applyMutation_draws (p : Profile) (corpus : Corpus) (m : MutationTypes) :
    DrawsAtMost maxOperatorDraws (applyMutation p corpus m) := by
  show DrawsAtMost 129 _
  cases m
  case byteInsert => exact byteInsert_draws p
  case byteOverwrite => exact byteOverwrite_draws p
  case byteDelete => exact .mono (by decide) (byteDelete_draws p)
  case bitFlip => exact .mono (by decide) (bitFlip_draws p)
  case magicByteInsert => exact .mono (by decide) (magicByteInsert_draws p)
  case magicByteOverwrite => exact .mono (by decide) (magicByteOverwrite_draws p)
  all_goals
    simp only [applyMutation, blockInsert, blockOverwrite, blockDelete, grow, truncate, splice]
    repeat' with_reducible first
      | refine .bind_free .getInput fun _ => ?_
      | refine .liftExcept_bind fun _ _ => ?_
      | refine .randMod_bind fun _ _ => ?_
      | refine .bind_free .getMaxSize fun _ => ?_
      | refine .bind_free (.setInput _) fun _ => ?_
      | refine .bind_free (.pure _) fun _ => ?_
      | refine .rand_bind fun _ => ?_
      | refine .ite _ ?_ ?_
      | exact .setInput _
      | exact .liftExcept _
      | exact insertBytes_draws _ _ _
      | exact .pure _
      | refine .forRange_free (fun _ => ?_) _
      | split

theorem generateRandomInput_draws (p : Profile) {s s' : Mutator}
    (ran : (generateRandomInput p).run s = .ok ((), s')) :
    ∃ k ≤ s.maxSize + 1, s'.rng = xorshift^[k] s.rng := by
  obtain ⟨_, _, read, ran⟩ := MutatorM.run_bind_ok ran
  cases read
  refine DrawsAtMost.randMod_bind (fun r below => ?_) _ _ _ ran
  refine .liftExcept_bind fun size added => .bind_free .getInput fun _ =>
    .bind_free (.setInput _) fun _ => .mono (Nat.mul_one _).le (.forRange (fun _ => ?_) ?_)
  · exact .rand_bind fun _ => .bind_free .getInput fun _ => .liftExcept_bind fun _ _ => .setInput _
  · exact drawnCount_le below added

/-- The most values one call of `mutate_input` draws from a state with `max_size = m`: the
scratch test and the scratch path, or the scratch test, the entry, the count of rounds and at
most `MAX_STACK` rounds of the longshot, the operator and what the operator draws. -/
def maxCallDraws (m : Nat) : Nat := max (m + 2) (3 + maxStack * (2 + maxOperatorDraws))

/-- A call of `mutate_input` that returns has drawn at least once and at most
`maxCallDraws max_size` times. -/
theorem mutateInput_draws (p : Profile) (corpus : Corpus) {s s' : Mutator}
    (ran : (mutateInput p corpus).run s = .ok ((), s')) :
    ∃ k, 0 < k ∧ k ≤ maxCallDraws s.maxSize ∧ s'.rng = xorshift^[k] s.rng := by
  obtain ⟨_, _, cleared, ran⟩ := MutatorM.run_bind_ok ran
  cases cleared
  obtain ⟨_, _, cleared, ran⟩ := MutatorM.run_bind_ok ran
  cases cleared
  obtain ⟨_, _, drew, ran⟩ := MutatorM.run_bind_ok ran
  obtain ⟨-, rfl⟩ := randMod_run drew
  suffices rest : ∃ k ≤ maxCallDraws s.maxSize - 1, s'.rng = xorshift^[k] (xorshift s.rng) by
    obtain ⟨k, below, reached⟩ := rest
    have : 2 ≤ maxCallDraws s.maxSize := le_max_of_le_left (Nat.le_add_left 2 _)
    exact ⟨k + 1, k.succ_pos, by omega, by rw [reached, Function.iterate_succ_apply]⟩
  split at ran
  · obtain ⟨_, _, generated, ran⟩ := MutatorM.run_bind_ok ran
    cases ran
    obtain ⟨k, below, reached⟩ := generateRandomInput_draws p generated
    exact ⟨k, le_trans below (by simp only [maxCallDraws]; omega), reached⟩
  · have path : ∃ k ≤ 788, s'.rng = xorshift^[k] (xorshift s.rng) :=
      (?path : DrawsAtMost 788 _) _ _ _ ran
    case path =>
      refine .randMod_bind fun _ _ => .liftExcept_bind fun _ _ => .bind_free .getInput fun _ =>
        .bind_free (.setInput _) fun _ => .randMod_bind fun r below =>
          .liftExcept_bind fun rounds added =>
            .bind (m := 6 * 131) (.forRange (fun _ => ?_) ?_) fun _ => ?_
      · exact .randMod_bind fun _ _ => .randMod_bind fun _ _ => .liftExcept_bind fun _ _ =>
          .bind (applyMutation_draws p corpus _) fun _ =>
            .bind_free .getLastMutation fun _ => .setLastMutation _
      · exact drawnCount_le below added
      · exact .bind_free .getInput fun _ => .liftExcept_bind fun _ _ =>
          .bind_free .getInput fun _ => .bind_free .getMaxSize fun _ => .liftExcept _
    obtain ⟨k, below, reached⟩ := path
    refine ⟨k, le_trans below ?_, reached⟩
    simp only [maxCallDraws, maxStack, maxOperatorDraws, maxByteCorruption]
    omega

/-! ## Sessions -/

theorem session_mutateInput_ok {p : Profile} {corpus : Corpus} {calls : List Call}
    {s : Mutator} {outputs : List Mutator}
    (ran : session p corpus (.mutateInput :: calls) s = .ok outputs) :
    ∃ s₁ rest, (mutateInput p corpus).run s = .ok ((), s₁) ∧
      session p corpus calls s₁ = .ok rest ∧ outputs = s₁ :: rest := by
  simp only [session] at ran
  rcases called : (mutateInput p corpus).run s with _ | ⟨⟨⟩, s₁⟩ <;> rw [called] at ran
  · cases ran
  rcases later : session p corpus calls s₁ with _ | rest <;>
    simp only [later, bind, Except.bind, pure, Except.pure] at ran
  · cases ran
  · exact ⟨s₁, rest, rfl, later, (Except.ok.inj ran).symm⟩

variable (p : Profile) (corpus : Corpus)

/-- Without `reseed`, the state each call of `mutate_input` leaves is further along the orbit of
`rand` than the session's start, by at least one draw and at most `maxCallDraws max_size` per
call. -/
theorem session_draws {calls : List Call} {s : Mutator} {outputs : List Mutator}
    (noReseed : ∀ generated, Call.reseed generated ∉ calls)
    (ran : session p corpus calls s = .ok outputs) :
    ∀ s' ∈ outputs, ∃ k, 0 < k ∧ k ≤ calls.length * maxCallDraws s.maxSize ∧
      s'.rng = xorshift^[k] s.rng := by
  induction calls generalizing s outputs with
  | nil => cases ran; exact fun _ none => nomatch none
  | cons call calls inductionHypothesis =>
    have rest : ∀ generated, Call.reseed generated ∉ calls :=
      fun generated listed => noReseed generated (List.mem_cons_of_mem _ listed)
    cases call with
    | mutateInput =>
      obtain ⟨s₁, outs, called, later, rfl⟩ := session_mutateInput_ok ran
      obtain ⟨k, positive, below, reached⟩ := mutateInput_draws p corpus called
      have sameSize : s₁.maxSize = s.maxSize := ((mutateInput p corpus).advances called).1
      rintro s' (_ | ⟨_, listed⟩)
      · exact ⟨k, positive, le_trans below (Nat.le_mul_of_pos_left _ (by simp)), reached⟩
      · obtain ⟨k', positive', below', reached'⟩ := inductionHypothesis rest later s' listed
        refine ⟨k' + k, by omega, ?_, by rw [reached', reached, Function.iterate_add_apply]⟩
        rw [sameSize] at below'
        rw [List.length_cons, Nat.succ_mul]
        omega
    | memcpyInput slice =>
      intro s' listed
      obtain ⟨k, positive, below, reached⟩ := inductionHypothesis rest ran s' listed
      exact ⟨k, positive, le_trans below (Nat.mul_le_mul_right _ (Nat.le_succ _)), reached⟩
    | reseed generated => exact absurd (List.mem_cons_self _ _) (noReseed generated)

/-- Every call of `mutate_input` that returns draws at least once and at most
`maxCallDraws max_size` times. So in a session without `reseed`, from a nonzero `rng`, whose calls
cannot draw a whole period of `rand`, the generator states at the start and after each call of
`mutate_input` are pairwise distinct: no call starts from a state an earlier call started from. -/
theorem session_never_replays {calls : List Call} {s : Mutator} {outputs : List Mutator}
    (nonzero : s.rng ≠ 0) (noReseed : ∀ generated, Call.reseed generated ∉ calls)
    (short : calls.length * maxCallDraws s.maxSize < 2 ^ 64 - 1)
    (ran : session p corpus calls s = .ok outputs) :
    (∀ s₀ s₁ : Mutator, (mutateInput p corpus).run s₀ = .ok ((), s₁) →
      ∃ k, 0 < k ∧ k ≤ maxCallDraws s₀.maxSize ∧ s₁.rng = xorshift^[k] s₀.rng) ∧
    (s.rng :: outputs.map Mutator.rng).Nodup := by
  refine ⟨fun _ _ called => mutateInput_draws p corpus called, ?_⟩
  induction calls generalizing s outputs with
  | nil => cases ran; exact List.nodup_singleton _
  | cons call calls inductionHypothesis =>
    have rest : ∀ generated, Call.reseed generated ∉ calls :=
      fun generated listed => noReseed generated (List.mem_cons_of_mem _ listed)
    cases call with
    | mutateInput =>
      have positions := session_draws p corpus noReseed ran
      obtain ⟨s₁, outs, called, later, rfl⟩ := session_mutateInput_ok ran
      have sameSize : s₁.maxSize = s.maxSize := ((mutateInput p corpus).advances called).1
      refine List.nodup_cons.mpr ⟨fun listed => ?_, ?_⟩
      · obtain ⟨s', listed, same⟩ := List.mem_map.mp listed
        obtain ⟨k, positive, below, reached⟩ := positions s' listed
        exact iterate_xorshift_ne_self nonzero positive (by omega) (reached ▸ same)
      · refine inductionHypothesis (MutatorM.rng_ne_zero _ called nonzero) rest ?_ later
        rw [sameSize]
        rw [List.length_cons, Nat.succ_mul] at short
        omega
    | memcpyInput slice =>
      exact inductionHypothesis (s := { s with input := slice }) nonzero rest (by
        dsimp only
        rw [List.length_cons, Nat.succ_mul] at short
        omega) ran
    | reseed generated => exact absurd (List.mem_cons_self _ _) (noReseed generated)

set_option maxRecDepth 4000 in
theorem session_never_replays_from_seven :
    (Mutator.new (some 7) 1 4).rng ≠ 0 ∧
      (∀ generated, Call.reseed generated ∉ [.mutateInput, .memcpyInput [7], .mutateInput]) ∧
      [Call.mutateInput, .memcpyInput [7], .mutateInput].length *
        maxCallDraws (Mutator.new (some 7) 1 4).maxSize < 2 ^ 64 - 1 ∧
      session .release oneByteCorpus [.mutateInput, .memcpyInput [7], .mutateInput]
          (Mutator.new (some 7) 1 4) =
        .ok [⟨8585876501973739966, [125, 53, 7], 4, [.blockOverwrite, .byteInsert]⟩,
          ⟨11959824691354003435, [71], 4,
            [.grow, .blockInsert, .byteInsert, .blockDelete, .blockOverwrite]⟩] ∧
      (∀ s₀ s₁ : Mutator, (mutateInput .release oneByteCorpus).run s₀ = .ok ((), s₁) →
        ∃ k, 0 < k ∧ k ≤ maxCallDraws s₀.maxSize ∧ s₁.rng = xorshift^[k] s₀.rng) ∧
      ((Mutator.new (some 7) 1 4).rng ::
        [(⟨8585876501973739966, [125, 53, 7], 4, [.blockOverwrite, .byteInsert]⟩ : Mutator),
          ⟨11959824691354003435, [71], 4,
            [.grow, .blockInsert, .byteInsert, .blockDelete, .blockOverwrite]⟩].map
          Mutator.rng).Nodup :=
  have nonzero : (Mutator.new (some 7) 1 4).rng ≠ 0 := by decide
  have noReseed : ∀ generated,
      Call.reseed generated ∉ [.mutateInput, .memcpyInput [7], .mutateInput] := by simp
  have short : [Call.mutateInput, .memcpyInput [7], .mutateInput].length *
      maxCallDraws (Mutator.new (some 7) 1 4).maxSize < 2 ^ 64 - 1 := by decide
  have ran : session .release oneByteCorpus [.mutateInput, .memcpyInput [7], .mutateInput]
      (Mutator.new (some 7) 1 4) =
        .ok [⟨8585876501973739966, [125, 53, 7], 4, [.blockOverwrite, .byteInsert]⟩,
          ⟨11959824691354003435, [71], 4,
            [.grow, .blockInsert, .byteInsert, .blockDelete, .blockOverwrite]⟩] := rfl
  ⟨nonzero, noReseed, short, ran, session_never_replays .release _ nonzero noReseed short ran⟩

end LucidMutator
