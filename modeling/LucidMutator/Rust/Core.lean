import Mathlib.Algebra.Group.Nat.Basic
import Mathlib.Data.List.Basic

/-!
# The Rust the mutator is written in

A panic is the `error` branch of `Except Panic`. `usize` and `u64` arithmetic depends on
the Cargo profile: with `overflow-checks` (the `dev` profile) a result outside 64 bits
panics, without them (`release`) it wraps. `Vec<u8>` and `&[u8]` are lists; each method
below panics exactly where the standard library documents a panic.
-/

namespace LucidMutator

variable {α : Type}

/-- Why a run of the mutator stops. -/
inductive Panic where
  | remainderByZero
  | indexOutOfBounds
  | lengthMismatch
  | arithmeticOverflow
  | assertionFailed
  | unwrapNone
  | unreachable
  deriving DecidableEq, Repr

/-- The two Cargo profiles: `dev` builds with `overflow-checks`, `release` without. -/
inductive Profile where
  | dev
  | release
  deriving DecidableEq, Repr

namespace Profile

/-- What an arithmetic result outside its type becomes. -/
def overflow (p : Profile) (wrapped : α) : Except Panic α :=
  match p with
  | .dev => .error .arithmeticOverflow
  | .release => .ok wrapped

/-- `a - b` on `usize`. -/
def sub (p : Profile) (a b : Nat) : Except Panic Nat :=
  if b ≤ a then .ok (a - b) else p.overflow ((2 ^ 64 + a - b) % 2 ^ 64)

/-- `a + b` on `usize`. -/
def add (p : Profile) (a b : Nat) : Except Panic Nat :=
  if a + b < 2 ^ 64 then .ok (a + b) else p.overflow ((a + b) % 2 ^ 64)

/-- `a * b` on `usize`. -/
def mul (p : Profile) (a b : Nat) : Except Panic Nat :=
  if a * b < 2 ^ 64 then .ok (a * b) else p.overflow ((a * b) % 2 ^ 64)

/-- `a - b` on `u64`. -/
def subU64 (p : Profile) (a b : BitVec 64) : Except Panic (BitVec 64) :=
  if b.toNat ≤ a.toNat then .ok (a - b) else p.overflow (a - b)

/-- `a + b` on `u64`. -/
def addU64 (p : Profile) (a b : BitVec 64) : Except Panic (BitVec 64) :=
  if a.toNat + b.toNat < 2 ^ 64 then .ok (a + b) else p.overflow (a + b)

@[simp] theorem release_overflow (wrapped : α) : release.overflow wrapped = .ok wrapped := rfl

@[simp] theorem dev_overflow (wrapped : α) :
    dev.overflow wrapped = .error .arithmeticOverflow := rfl

variable (p : Profile) {a b : Nat}

@[simp] theorem sub_of_le (h : b ≤ a) : p.sub a b = .ok (a - b) := if_pos h

@[simp] theorem add_of_lt (h : a + b < 2 ^ 64) : p.add a b = .ok (a + b) := if_pos h

@[simp] theorem mul_of_lt (h : a * b < 2 ^ 64) : p.mul a b = .ok (a * b) := if_pos h

theorem add_le {c : Nat} (added : p.add a b = .ok c) : c ≤ a + b := by
  unfold add at added
  split at added
  · cases added; exact le_rfl
  · cases p <;> cases added
    exact Nat.mod_le _ _

@[simp] theorem release_subU64 (a b : BitVec 64) : release.subU64 a b = .ok (a - b) := by
  unfold subU64; split <;> rfl

@[simp] theorem release_addU64 (a b : BitVec 64) : release.addU64 a b = .ok (a + b) := by
  unfold addU64; split <;> rfl

end Profile

/-- `a % b` on `usize`: a zero divisor panics. -/
def rem (a b : Nat) : Except Panic Nat :=
  if b = 0 then .error .remainderByZero else .ok (a % b)

@[simp] theorem rem_of_pos {a b : Nat} (h : 0 < b) : rem a b = .ok (a % b) :=
  if_neg (Nat.pos_iff_ne_zero.mp h)

def unwrap : Option α → Except Panic α
  | some a => .ok a
  | none => .error .unwrapNone

def assert (condition : Bool) : Except Panic Unit :=
  if condition then .ok () else .error .assertionFailed

@[simp] theorem unwrap_some (a : α) : unwrap (some a) = .ok a := rfl

@[simp] theorem assert_true : assert true = .ok () := rfl

theorem assert_eq_ok {condition : Bool} {u : Unit} : assert condition = .ok u ↔ condition = true := by
  cases condition <;> simp [assert]

namespace Vec

def index (v : List α) (i : Nat) : Except Panic α :=
  if h : i < v.length then .ok (v.get ⟨i, h⟩) else .error .indexOutOfBounds

/-- `v[i] = f(v[i])`: an assignment or a compound assignment such as `^=`. -/
def modify (v : List α) (i : Nat) (f : α → α) : Except Panic (List α) :=
  if i < v.length then .ok (v.modify f i) else .error .indexOutOfBounds

/-- `Vec::insert`: the index may be the length, not past it. -/
def insert (v : List α) (i : Nat) (element : α) : Except Panic (List α) :=
  if i ≤ v.length then .ok (v.take i ++ element :: v.drop i) else .error .indexOutOfBounds

def remove (v : List α) (i : Nat) : Except Panic (List α) :=
  if i < v.length then .ok (v.eraseIdx i) else .error .indexOutOfBounds

/-- `&v[start..stop]`. -/
def slice (v : List α) (start stop : Nat) : Except Panic (List α) :=
  if start ≤ stop ∧ stop ≤ v.length then .ok ((v.drop start).take (stop - start))
  else .error .indexOutOfBounds

/-- `v.drain(start..stop)`, the drained elements dropped. -/
def drain (v : List α) (start stop : Nat) : Except Panic (List α) :=
  if start ≤ stop ∧ stop ≤ v.length then .ok (v.take start ++ v.drop stop)
  else .error .indexOutOfBounds

/-- `v[start..stop].copy_from_slice(src)`. -/
def copyFromSlice (v : List α) (start stop : Nat) (src : List α) : Except Panic (List α) :=
  if start ≤ stop ∧ stop ≤ v.length then
    if src.length = stop - start then .ok (v.take start ++ src ++ v.drop stop)
    else .error .lengthMismatch
  else .error .indexOutOfBounds

/-- `v.copy_within(start..stop, dest)`: a `memmove`, so the ranges may overlap. -/
def copyWithin (v : List α) (start stop dest : Nat) : Except Panic (List α) :=
  if start ≤ stop ∧ stop ≤ v.length ∧ dest + (stop - start) ≤ v.length then
    .ok (v.take dest ++ (v.drop start).take (stop - start) ++ v.drop (dest + (stop - start)))
  else .error .indexOutOfBounds

def resize (v : List α) (newLen : Nat) (value : α) : List α :=
  if newLen ≤ v.length then v.take newLen else v ++ List.replicate (newLen - v.length) value

/-- `Vec::truncate`: a length past the end leaves the vector alone. -/
def truncate (v : List α) (len : Nat) : List α := v.take len

variable {v : List α} {i start stop : Nat}

@[simp] theorem index_of_lt (h : i < v.length) : index v i = .ok (v.get ⟨i, h⟩) := dif_pos h

@[simp] theorem modify_of_lt (f : α → α) (h : i < v.length) :
    modify v i f = .ok (v.modify f i) := if_pos h

@[simp] theorem insert_of_le (element : α) (h : i ≤ v.length) :
    insert v i element = .ok (v.take i ++ element :: v.drop i) := if_pos h

@[simp] theorem remove_of_lt (h : i < v.length) : remove v i = .ok (v.eraseIdx i) := if_pos h

@[simp] theorem slice_of_le (h : start ≤ stop) (h' : stop ≤ v.length) :
    slice v start stop = .ok ((v.drop start).take (stop - start)) := if_pos ⟨h, h'⟩

@[simp] theorem drain_of_le (h : start ≤ stop) (h' : stop ≤ v.length) :
    drain v start stop = .ok (v.take start ++ v.drop stop) := if_pos ⟨h, h'⟩

@[simp] theorem copyFromSlice_of_le {src : List α} (h : start ≤ stop) (h' : stop ≤ v.length)
    (hsrc : src.length = stop - start) :
    copyFromSlice v start stop src = .ok (v.take start ++ src ++ v.drop stop) := by
  simp [copyFromSlice, h, h', hsrc]

theorem resize_of_length_le {n : Nat} (value : α) (h : v.length ≤ n) :
    resize v n value = v ++ List.replicate (n - v.length) value := by
  unfold resize
  split
  · simp [List.take_of_length_le h, show n - v.length = 0 by omega]
  · rfl

@[simp] theorem copyWithin_of_le {dest : Nat} (h : start ≤ stop) (h' : stop ≤ v.length)
    (hdest : dest + (stop - start) ≤ v.length) :
    copyWithin v start stop dest =
      .ok (v.take dest ++ (v.drop start).take (stop - start) ++ v.drop (dest + (stop - start))) :=
  if_pos ⟨h, h', hdest⟩

end Vec

theorem modify_after_prefix {front back : List α} {n : Nat} (byte : α)
    (length : front.length = n) (nonempty : back ≠ []) :
    (front ++ back).modify (fun _ => byte) n = front ++ byte :: back.tail := by
  rw [List.modify_eq_take_cons_drop (by simp; have := List.length_pos.mpr nonempty; omega),
    List.take_left' length, List.drop_append_eq_append_drop]
  simp [length, List.drop_one]

end LucidMutator
