import LucidMutator.Mutator.State

/-!
# A program logic for the mutator's methods

`wp x post s` holds when the run of `x` from `s` returns, without panicking, in a state
where `post` holds. The simp set below computes `wp` through the primitives, so a
specification is proved by symbolic execution of the operator, one rule per draw.
-/

namespace LucidMutator

variable {α β : Type}

/-- Weakest precondition for total correctness. -/
def wp (x : MutatorM α) (post : α → Mutator → Prop) (s : Mutator) : Prop :=
  match x.run s with
  | .ok (a, s') => post a s'
  | .error _ => False

variable {x : MutatorM α} {post post' : α → Mutator → Prop} {s : Mutator}

theorem wp_iff_run : wp x post s ↔ ∃ a s', x.run s = .ok (a, s') ∧ post a s' := by
  unfold wp
  rcases x.run s with _ | ⟨a, s'⟩
  · simp
  · exact ⟨fun holds => ⟨a, s', rfl, holds⟩, fun ⟨_, _, found, holds⟩ => by cases found; exact holds⟩

theorem wp_mono (weaker : ∀ a s', post a s' → post' a s') (holds : wp x post s) :
    wp x post' s := by
  unfold wp at *
  split at holds <;> simp_all

/-- Every postcondition can be strengthened by the frame that `MutatorM` carries. -/
theorem wp_advances (holds : wp x post s) : wp x (fun a s' => post a s' ∧ Advances s s') s := by
  obtain ⟨a, s', found, result⟩ := wp_iff_run.mp holds
  exact wp_iff_run.mpr ⟨a, s', found, result, x.advances found⟩

theorem wp_of_run_eq {y : MutatorM α} (same : x.run s = y.run s) (holds : wp y post s) :
    wp x post s := by
  unfold wp
  rw [same]
  exact holds

theorem wp_and_run (holds : wp x post s) :
    wp x (fun a s' => x.run s = .ok (a, s') ∧ post a s') s := by
  obtain ⟨a, s', found, result⟩ := wp_iff_run.mp holds
  exact wp_iff_run.mpr ⟨a, s', found, found, result⟩

theorem wp_and (first : wp x post s) (second : wp x post' s) :
    wp x (fun a s' => post a s' ∧ post' a s') s := by
  unfold wp at *
  split at first <;> simp_all

theorem MutatorM.run_bind (x : MutatorM α) (f : α → MutatorM β) (s : Mutator) :
    (x >>= f).run s = match x.run s with
      | .ok (a, s') => (f a).run s'
      | .error e => .error e := rfl

theorem MutatorM.run_bind_ok {f : α → MutatorM β} {b : β} {s'' : Mutator}
    (found : (x >>= f).run s = .ok (b, s'')) :
    ∃ a s', x.run s = .ok (a, s') ∧ (f a).run s' = .ok (b, s'') := by
  rw [MutatorM.run_bind] at found
  split at found
  · next a s' ran => exact ⟨a, s', ran, found⟩
  · cases found

/- The rules below are proved by `unfold`, not `rfl`: simp then rewrites with them instead
of leaving the kernel a definitional check through nested structure updates, which it does
not finish. -/

@[simp] theorem wp_pure (a : α) : wp (pure a) post s = post a s := by
  unfold wp; rfl

@[simp] theorem wp_bind (f : α → MutatorM β) (post : β → Mutator → Prop) :
    wp (x >>= f) post s = wp x (fun a s' => wp (f a) post s') s := by
  show (match (match x.run s with
      | .ok (a, s') => (f a).run s'
      | .error e => .error e) with
    | .ok (b, s') => post b s'
    | .error _ => False) = _
  unfold wp
  rcases x.run s with _ | ⟨a, s'⟩ <;> rfl

@[simp] theorem wp_liftExcept_ok (a : α) :
    wp (monadLift (Except.ok a : Except Panic α)) post s = post a s := by
  unfold wp; rfl

@[simp] theorem wp_liftExcept_error (p : Panic) :
    wp (monadLift (Except.error p : Except Panic α)) post s = False := by
  unfold wp; rfl

@[simp] theorem wp_rand (post : Nat → Mutator → Prop) :
    wp rand post s = post s.rng.toNat { s with rng := xorshift s.rng } := by
  unfold wp; rfl

@[simp] theorem wp_getInput (post : List UInt8 → Mutator → Prop) :
    wp getInput post s = post s.input s := by
  unfold wp; rfl

@[simp] theorem wp_setInput (v : List UInt8) (post : Unit → Mutator → Prop) :
    wp (setInput v) post s = post () { s with input := v } := by
  unfold wp; rfl

@[simp] theorem wp_getMaxSize (post : Nat → Mutator → Prop) :
    wp getMaxSize post s = post s.maxSize s := by
  unfold wp; rfl

@[simp] theorem wp_getLastMutation (post : List MutationTypes → Mutator → Prop) :
    wp getLastMutation post s = post s.lastMutation s := by
  unfold wp; rfl

@[simp] theorem wp_setLastMutation (l : List MutationTypes) (post : Unit → Mutator → Prop) :
    wp (setLastMutation l) post s = post () { s with lastMutation := l } := by
  unfold wp; rfl

theorem wp_ite (c : Prop) [Decidable c] (y z : MutatorM α) :
    wp (if c then y else z) post s = if c then wp y post s else wp z post s := by
  split <;> rfl

theorem wp_randMod {n : Nat} {post : Nat → Mutator → Prop} (positive : 0 < n)
    (next : ∀ r < n, post r { s with rng := xorshift s.rng }) : wp (randMod n) post s := by
  simp only [randMod, wp_bind, wp_rand, rem_of_pos positive, wp_liftExcept_ok]
  exact next _ (Nat.mod_lt _ positive)

/-! The same rules for a primitive at the head of a `do` block. Simp rewrites only the head
with these, so the rest of a long method stays folded until its turn. -/

@[simp] theorem wp_getInput_bind (f : List UInt8 → MutatorM β) (post : β → Mutator → Prop) :
    wp (getInput >>= f) post s = wp (f s.input) post s := by
  rw [wp_bind, wp_getInput]

@[simp] theorem wp_setInput_bind (v : List UInt8) (f : Unit → MutatorM β)
    (post : β → Mutator → Prop) :
    wp (setInput v >>= f) post s = wp (f ()) post { s with input := v } := by
  rw [wp_bind, wp_setInput]

@[simp] theorem wp_getMaxSize_bind (f : Nat → MutatorM β) (post : β → Mutator → Prop) :
    wp (getMaxSize >>= f) post s = wp (f s.maxSize) post s := by
  rw [wp_bind, wp_getMaxSize]

@[simp] theorem wp_getLastMutation_bind (f : List MutationTypes → MutatorM β)
    (post : β → Mutator → Prop) :
    wp (getLastMutation >>= f) post s = wp (f s.lastMutation) post s := by
  rw [wp_bind, wp_getLastMutation]

@[simp] theorem wp_setLastMutation_bind (l : List MutationTypes) (f : Unit → MutatorM β)
    (post : β → Mutator → Prop) :
    wp (setLastMutation l >>= f) post s = wp (f ()) post { s with lastMutation := l } := by
  rw [wp_bind, wp_setLastMutation]

@[simp] theorem wp_liftExcept_ok_bind (a : α) (f : α → MutatorM β) (post : β → Mutator → Prop) :
    wp (monadLift (Except.ok a : Except Panic α) >>= f) post s = wp (f a) post s := by
  rw [wp_bind, wp_liftExcept_ok]

@[simp] theorem wp_pure_bind (a : α) (f : α → MutatorM β) (post : β → Mutator → Prop) :
    wp (pure a >>= f) post s = wp (f a) post s := by
  rw [wp_bind, wp_pure]

theorem wp_randMod_bind {n : Nat} {f : Nat → MutatorM β} {post : β → Mutator → Prop}
    (positive : 0 < n) (next : ∀ r < n, wp (f r) post { s with rng := xorshift s.rng }) :
    wp (randMod n >>= f) post s := by
  rw [wp_bind]
  exact wp_randMod positive next

/-- The exact draw, for a proof that follows one concrete stream. -/
theorem wp_randMod_bind_eq {n : Nat} {f : Nat → MutatorM β} {post : β → Mutator → Prop}
    (positive : 0 < n) :
    wp (randMod n >>= f) post s = wp (f (s.rng.toNat % n)) post { s with rng := xorshift s.rng } := by
  simp only [randMod, wp_bind, wp_rand, rem_of_pos positive, wp_liftExcept_ok]

theorem wp_forFrom {body : Nat → MutatorM Unit} (inv : Nat → Mutator → Prop) (start : Nat)
    {count : Nat}
    (step : ∀ i s, start ≤ i → i < start + count → inv i s → wp (body i) (fun _ => inv (i + 1)) s)
    (initial : inv start s) : wp (forFrom body start count) (fun _ => inv (start + count)) s := by
  induction count generalizing start s with
  | zero => exact initial
  | succ count inductionHypothesis =>
      simp only [forFrom, wp_bind]
      refine wp_mono (fun _ s' holds => ?_) (step start s le_rfl (by omega) initial)
      rw [show start + (count + 1) = start + 1 + count by omega]
      exact inductionHypothesis (start + 1)
        (fun i s'' lower upper => step i s'' (by omega) (by omega)) holds

/-- The invariant rule for `for i in 0..n`. -/
theorem wp_forRange {body : Nat → MutatorM Unit} (inv : Nat → Mutator → Prop) {n : Nat}
    (step : ∀ i s, i < n → inv i s → wp (body i) (fun _ => inv (i + 1)) s)
    (initial : inv 0 s) : wp (forRange n body) (fun _ => inv n) s := by
  simpa using wp_forFrom inv 0 (fun i s' _ upper => step i s' (by omega)) initial

/-! ## Partial correctness -/

/-- Weakest liberal precondition: a run of `x` from `s` that returns ends where `post`
holds; a run that panics satisfies it. -/
def wlp (x : MutatorM α) (post : α → Mutator → Prop) (s : Mutator) : Prop :=
  match x.run s with
  | .ok (a, s') => post a s'
  | .error _ => True

theorem wlp_of_wp (holds : wp x post s) : wlp x post s := by
  unfold wp at holds
  unfold wlp
  split at holds <;> simp_all

theorem wlp_of_forall (always : ∀ a s', post a s') : wlp x post s := by
  unfold wlp
  split
  · exact always _ _
  · trivial

theorem wlp_mono (weaker : ∀ a s', post a s' → post' a s') (holds : wlp x post s) :
    wlp x post' s := by
  unfold wlp at *
  split at holds <;> simp_all

theorem wlp_run (holds : wlp x post s) {a : α} {s' : Mutator} (found : x.run s = .ok (a, s')) :
    post a s' := by
  unfold wlp at holds
  rw [found] at holds
  exact holds

/-- For runs that return, a method may be taken to keep `max_size` and advance `rng`. -/
theorem wlp_of_advances (rest : ∀ a s', Advances s s' → post a s') : wlp x post s := by
  unfold wlp
  split
  · next found => exact rest _ _ (x.advances found)
  · trivial

@[simp] theorem wlp_bind (f : α → MutatorM β) (post : β → Mutator → Prop) :
    wlp (x >>= f) post s = wlp x (fun a s' => wlp (f a) post s') s := by
  show (match (match x.run s with
      | .ok (a, s') => (f a).run s'
      | .error e => .error e) with
    | .ok (b, s') => post b s'
    | .error _ => True) = _
  unfold wlp
  rcases x.run s with _ | ⟨a, s'⟩ <;> rfl

theorem wlp_liftExcept (e : Except Panic α) :
    wlp (monadLift e) post s ↔ ∀ a, e = .ok a → post a s := by
  cases e <;> simp [wlp, monadLift, MonadLift.monadLift, MutatorM.liftExcept, MutatorM.ofBuffer]

@[simp] theorem wlp_pure (a : α) : wlp (pure a) post s = post a s := by
  unfold wlp; rfl

@[simp] theorem wlp_getInput (post : List UInt8 → Mutator → Prop) :
    wlp getInput post s = post s.input s := by
  unfold wlp; rfl

@[simp] theorem wlp_getMaxSize (post : Nat → Mutator → Prop) :
    wlp getMaxSize post s = post s.maxSize s := by
  unfold wlp; rfl

@[simp] theorem wlp_setInput (v : List UInt8) (post : Unit → Mutator → Prop) :
    wlp (setInput v) post s = post () { s with input := v } := by
  unfold wlp; rfl

@[simp] theorem wlp_setLastMutation (l : List MutationTypes) (post : Unit → Mutator → Prop) :
    wlp (setLastMutation l) post s = post () { s with lastMutation := l } := by
  unfold wlp; rfl

theorem wlp_randMod_zero {post : Nat → Mutator → Prop} : wlp (randMod 0) post s := by
  unfold wlp; exact trivial

@[simp] theorem wlp_getLastMutation (post : List MutationTypes → Mutator → Prop) :
    wlp getLastMutation post s = post s.lastMutation s := by
  unfold wlp; rfl

theorem wlp_ite (c : Prop) [Decidable c] (y z : MutatorM α) :
    wlp (if c then y else z) post s = if c then wlp y post s else wlp z post s := by
  split <;> rfl

theorem wlp_forRange {body : Nat → MutatorM Unit} (inv : Nat → Mutator → Prop) {n : Nat}
    (step : ∀ i s, i < n → inv i s → wlp (body i) (fun _ => inv (i + 1)) s)
    (initial : inv 0 s) : wlp (forRange n body) (fun _ => inv n) s := by
  suffices loop : ∀ start count s, start + count = n → inv start s →
      wlp (forFrom body start count) (fun _ => inv n) s from loop 0 n s (by omega) initial
  intro start count
  induction count generalizing start with
  | zero => intro s ended holds; rw [← ended]; exact holds
  | succ count inductionHypothesis =>
    intro s ended holds
    simp only [forFrom, wlp_bind]
    exact wlp_mono (fun _ s' next => inductionHypothesis (start + 1) s' (by omega) next)
      (step start s (by omega) holds)

/-- What a run of `rand() % n` that returns drew, and where it left the state. -/
theorem randMod_run {n a : Nat} {s s' : Mutator} (drew : (randMod n).run s = .ok (a, s')) :
    a < n ∧ s' = { s with rng := xorshift s.rng } := by
  rcases Nat.eq_zero_or_pos n with rfl | positive
  · cases drew
  · have holds :
        wlp (randMod n) (fun r s'' => r < n ∧ s'' = { s with rng := xorshift s.rng }) s :=
      wlp_of_wp (wp_randMod positive fun _ below => ⟨below, rfl⟩)
    exact wlp_run holds drew

theorem liftExcept_run {e : Except Panic α} {a : α} {s s' : Mutator}
    (found : (monadLift e : MutatorM α).run s = .ok (a, s')) : e = .ok a ∧ s' = s := by
  cases e <;> cases found
  exact ⟨rfl, rfl⟩

end LucidMutator
