import LucidMutator.Mutator.Logic

/-!
# How much of a buffer an operator changes

`distance d v w` adds a distance `d` between bytes over the positions of two buffers. With
`byteDistance` it counts the bytes that differ, with `bitDistance` the bits. The operators
that write in place are bounded in these terms by `MAX_BYTE_CORRUPTION`,
`MAX_BLOCK_CORRUPTION` and `MAX_BIT_CORRUPTION`: a run of writes moves a buffer by at most
the sum of what each write moves it, by the triangle inequality.
-/

namespace LucidMutator

section Distance

variable (d : UInt8 → UInt8 → Nat)

/-- The sum of `d` over the positions of `v` and `w`, up to the shorter. -/
def distance : List UInt8 → List UInt8 → Nat
  | [], _ => 0
  | _ :: _, [] => 0
  | a :: v, b :: w => d a b + distance v w

variable {d}

theorem distance_self (zero : ∀ a, d a a = 0) (v : List UInt8) : distance d v v = 0 := by
  induction v with
  | nil => rfl
  | cons a v inductionHypothesis => simp [distance, zero, inductionHypothesis]

theorem distance_append {u w : List UInt8} (v x : List UInt8) (same : u.length = w.length) :
    distance d (u ++ v) (w ++ x) = distance d u w + distance d v x := by
  induction u generalizing w with
  | nil =>
    obtain rfl : w = [] := List.eq_nil_of_length_eq_zero same.symm
    simp [distance]
  | cons a u inductionHypothesis =>
    obtain ⟨b, w, rfl⟩ := List.exists_cons_of_length_eq_add_one same.symm
    show d a b + distance d (u ++ v) (w ++ x) = d a b + distance d u w + distance d v x
    rw [inductionHypothesis (by simpa using same), Nat.add_assoc]

theorem distance_triangle (triangle : ∀ a b c, d a c ≤ d a b + d b c) {u v w : List UInt8}
    (uv : u.length = v.length) (vw : v.length = w.length) :
    distance d u w ≤ distance d u v + distance d v w := by
  induction u generalizing v w with
  | nil => simp [distance]
  | cons a u inductionHypothesis =>
    obtain ⟨b, v, rfl⟩ := List.exists_cons_of_length_eq_add_one uv.symm
    obtain ⟨c, w, rfl⟩ := List.exists_cons_of_length_eq_add_one vw.symm
    have rest := inductionHypothesis (by simpa using uv) (by simpa using vw)
    have head := triangle a b c
    simp only [distance]
    omega

theorem distance_modify (zero : ∀ a, d a a = 0) {f : UInt8 → UInt8} {k : Nat}
    (bound : ∀ a, d a (f a) ≤ k) (v : List UInt8) (i : Nat) :
    distance d v (v.modify f i) ≤ k := by
  induction v generalizing i with
  | nil => simp [distance]
  | cons a v inductionHypothesis =>
    cases i with
    | zero => simpa [distance, distance_self zero] using bound a
    | succ i => simpa [distance, zero] using inductionHypothesis i

theorem distance_le_length (bound : ∀ a b, d a b ≤ 1) (v w : List UInt8) :
    distance d v w ≤ w.length := by
  induction v generalizing w with
  | nil => simp [distance]
  | cons a v inductionHypothesis =>
    cases w with
    | nil => simp [distance]
    | cons b w =>
      have := bound a b
      have := inductionHypothesis w
      simp only [distance, List.length_cons]
      omega

theorem distance_mono {d' : UInt8 → UInt8 → Nat} (le : ∀ a b, d a b ≤ d' a b)
    (v w : List UInt8) : distance d v w ≤ distance d' v w := by
  induction v generalizing w with
  | nil => exact Nat.zero_le _
  | cons a v inductionHypothesis =>
    cases w with
    | nil => exact Nat.zero_le _
    | cons b w => exact Nat.add_le_add (le a b) (inductionHypothesis w)

end Distance

/-! ## Bytes -/

/-- `1` if two bytes differ, `0` if not. -/
def byteDistance (a b : UInt8) : Nat := if a = b then 0 else 1

/-- The number of positions at which two buffers hold different bytes. -/
def bytesChanged : List UInt8 → List UInt8 → Nat := distance byteDistance

theorem byteDistance_self (a : UInt8) : byteDistance a a = 0 := if_pos rfl

theorem byteDistance_le_one (a b : UInt8) : byteDistance a b ≤ 1 := by
  unfold byteDistance; split <;> omega

theorem byteDistance_triangle (a b c : UInt8) :
    byteDistance a c ≤ byteDistance a b + byteDistance b c := by
  unfold byteDistance
  split_ifs <;> simp_all

theorem bytesChanged_trans {u v w : List UInt8} (uv : u.length = v.length)
    (vw : v.length = w.length) : bytesChanged u w ≤ bytesChanged u v + bytesChanged v w :=
  distance_triangle byteDistance_triangle uv vw

theorem bytesChanged_modify (v : List UInt8) (i : Nat) (f : UInt8 → UInt8) :
    bytesChanged v (v.modify f i) ≤ 1 :=
  distance_modify byteDistance_self (fun a => byteDistance_le_one a (f a)) v i

/-- Writing `w` over the bytes at `j` changes at most `w.length` of them. -/
theorem bytesChanged_window {v w : List UInt8} {j : Nat} (inside : j + w.length ≤ v.length) :
    bytesChanged v (v.take j ++ w ++ v.drop (j + w.length)) ≤ w.length := by
  have split : v = v.take j ++ (v.drop j).take w.length ++ v.drop (j + w.length) := by
    rw [List.append_assoc, ← List.drop_drop, List.take_append_drop, List.take_append_drop]
  have middle : ((v.drop j).take w.length).length = w.length := by simp; omega
  calc bytesChanged v (v.take j ++ w ++ v.drop (j + w.length))
      = bytesChanged (v.take j ++ (v.drop j).take w.length ++ v.drop (j + w.length))
          (v.take j ++ w ++ v.drop (j + w.length)) := congrArg (bytesChanged · _) split
    _ = distance byteDistance ((v.drop j).take w.length) w := by
      rw [bytesChanged, distance_append _ _ (by simp [middle]), distance_append _ _ rfl,
        distance_self byteDistance_self, distance_self byteDistance_self]
      omega
    _ ≤ w.length := distance_le_length byteDistance_le_one _ _

theorem bytesChanged_modify_le {u v : List UInt8} (same : u.length = v.length) {k : Nat}
    (changed : bytesChanged u v ≤ k) (f : UInt8 → UInt8) (i : Nat) :
    bytesChanged u (v.modify f i) ≤ k + 1 := by
  have moved := bytesChanged_trans same (List.length_modify f i v).symm
  have one := bytesChanged_modify v i f
  omega

theorem bytesChanged_window_le {u v w : List UInt8} (same : u.length = v.length) {k j : Nat}
    (changed : bytesChanged u v ≤ k) (inside : j + w.length ≤ v.length) :
    bytesChanged u (v.take j ++ w ++ v.drop (j + w.length)) ≤ k + w.length := by
  have moved := bytesChanged_trans (w := v.take j ++ w ++ v.drop (j + w.length)) same
    (by simp; omega)
  have window := bytesChanged_window inside
  omega

/-! ## Bits -/

/-- The number of bits in which two bytes differ. -/
def bitDistance (a b : UInt8) : Nat :=
  ((List.range 8).filter fun i => (a.toBitVec ^^^ b.toBitVec).getLsbD i).length

/-- The number of bit positions at which two buffers differ. -/
def bitsChanged : List UInt8 → List UInt8 → Nat := distance bitDistance

theorem bitDistance_self (a : UInt8) : bitDistance a a = 0 := by
  simp [bitDistance]

theorem length_filter_le_add (l : List Nat) {p q r : Nat → Bool}
    (cover : ∀ i, r i = true → p i = true ∨ q i = true) :
    (l.filter r).length ≤ (l.filter p).length + (l.filter q).length := by
  induction l with
  | nil => simp
  | cons i l inductionHypothesis =>
    have := cover i
    simp only [List.filter_cons]
    split_ifs <;> simp_all <;> omega

theorem bitDistance_triangle (a b c : UInt8) :
    bitDistance a c ≤ bitDistance a b + bitDistance b c := by
  refine length_filter_le_add _ fun i => ?_
  simp only [BitVec.getLsbD_xor]
  cases a.toBitVec.getLsbD i <;> cases b.toBitVec.getLsbD i <;> cases c.toBitVec.getLsbD i <;>
    decide

theorem bitDistance_flip (a : UInt8) {k : Nat} (below : k < 8) :
    bitDistance a (a ^^^ 1 <<< UInt8.ofNat k) ≤ 1 := by
  have flipped : a.toBitVec ^^^ (a ^^^ 1 <<< UInt8.ofNat k).toBitVec =
      (1 <<< UInt8.ofNat k : UInt8).toBitVec := by
    show a.toBitVec ^^^ (a.toBitVec ^^^ _) = _
    rw [← BitVec.xor_assoc, BitVec.xor_self, BitVec.zero_xor]
  have single : ∀ k < 8, ((List.range 8).filter fun i =>
      (1 <<< UInt8.ofNat k : UInt8).toBitVec.getLsbD i).length ≤ 1 := by decide
  unfold bitDistance
  rw [flipped]
  exact single k below

theorem bitsChanged_trans {u v w : List UInt8} (uv : u.length = v.length)
    (vw : v.length = w.length) : bitsChanged u w ≤ bitsChanged u v + bitsChanged v w :=
  distance_triangle bitDistance_triangle uv vw

theorem bitsChanged_flip (v : List UInt8) (i : Nat) {k : Nat} (below : k < 8) :
    bitsChanged v (v.modify (· ^^^ 1 <<< UInt8.ofNat k) i) ≤ 1 :=
  distance_modify bitDistance_self (fun a => bitDistance_flip a below) v i

theorem byteDistance_le_bitDistance (a b : UInt8) : byteDistance a b ≤ bitDistance a b := by
  unfold byteDistance
  split_ifs with same
  · exact Nat.zero_le _
  · refine Nat.one_le_iff_ne_zero.mpr fun none => same (UInt8.eq_of_toBitVec_eq ?_)
    have clear := List.filter_eq_nil_iff.mp (List.eq_nil_of_length_eq_zero none)
    refine BitVec.eq_of_getLsbD_eq fun i => ?_
    simpa [BitVec.getLsbD_xor] using clear i (List.mem_range.mpr i.isLt)

theorem bytesChanged_le_bitsChanged (v w : List UInt8) : bytesChanged v w ≤ bitsChanged v w :=
  distance_mono byteDistance_le_bitDistance v w

theorem bitsChanged_flip_le {u v : List UInt8} (same : u.length = v.length) {n : Nat}
    (changed : bitsChanged u v ≤ n) (i : Nat) {k : Nat} (below : k < 8) :
    bitsChanged u (v.modify (· ^^^ 1 <<< UInt8.ofNat k) i) ≤ n + 1 := by
  have moved := bitsChanged_trans same (List.length_modify (· ^^^ 1 <<< UInt8.ofNat k) i v).symm
  have one := bitsChanged_flip v i below
  omega

end LucidMutator
