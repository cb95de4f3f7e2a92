import Mathlib.Algebra.Ring.Nat
import Mathlib.Data.List.Basic
import Mathlib.Logic.Function.Basic

/-!
# Blocks of a byte-addressed memory

A memory is a total function from addresses to cells. `slice` reads a block and
`blit` copies one in; both say what `memcpy` does, with no claim about where the
block lies. Bounds are stated about the addresses, never hidden in the functions.
-/
namespace Library

variable {β : Type*}

/-- The `n` cells of `m` from address `a` on. -/
def slice (m : Nat → β) (a n : Nat) : List β := (List.range n).map fun i => m (a + i)

/-- The memory `m` with `xs` copied in from address `a` on. -/
def blit (m : Nat → β) (a : Nat) (xs : List β) : Nat → β :=
  fun i => if a ≤ i then xs[i - a]?.getD (m i) else m i

@[simp] theorem length_slice (m : Nat → β) (a n : Nat) : (slice m a n).length = n := by
  simp [slice]

@[simp] theorem getElem_slice (m : Nat → β) (a n i : Nat) (h : i < (slice m a n).length) :
    (slice m a n)[i] = m (a + i) := by
  simp [slice]

@[simp] theorem slice_zero (m : Nat → β) (a : Nat) : slice m a 0 = [] := rfl

theorem slice_one (m : Nat → β) (a : Nat) : slice m a 1 = [m a] := rfl

theorem slice_congr {m m' : Nat → β} {a a' n : Nat} (h : ∀ i < n, m (a + i) = m' (a' + i)) :
    slice m a n = slice m' a' n :=
  List.map_congr_left fun i hi => h i (List.mem_range.mp hi)

/-- A block is the block in front followed by the one behind it. -/
theorem slice_add (m : Nat → β) (a k n : Nat) :
    slice m a (k + n) = slice m a k ++ slice m (a + k) n := by
  apply List.ext_getElem
  · simp
  · intro i hi _
    by_cases hik : i < k
    · simp [hik]
    · have hat : a + k + (i - k) = a + i := by omega
      simp [List.getElem_append, hik, hat]

theorem drop_slice (m : Nat → β) (a : Nat) {k n : Nat} (h : k ≤ n) :
    (slice m a n).drop k = slice m (a + k) (n - k) := by
  obtain ⟨d, rfl⟩ := Nat.exists_eq_add_of_le h
  rw [slice_add, List.drop_left' (length_slice m a k), Nat.add_sub_cancel_left]

theorem blit_of_lt (m : Nat → β) {a i : Nat} (xs : List β) (h : i < a) : blit m a xs i = m i := by
  simp [blit, Nat.not_le.mpr h]

theorem blit_of_ge (m : Nat → β) {a i : Nat} (xs : List β) (h : a + xs.length ≤ i) :
    blit m a xs i = m i := by
  have hi : xs.length ≤ i - a := by omega
  simp [blit, List.getElem?_eq_none hi]

theorem blit_add (m : Nat → β) (a : Nat) (xs : List β) {i : Nat} (h : i < xs.length) :
    blit m a xs (a + i) = xs[i] := by
  simp [blit, h]

/-- A cell of the copied block, by its own address. -/
theorem blit_at (m : Nat → β) {a i : Nat} (xs : List β) (ha : a ≤ i) (h : i - a < xs.length) :
    blit m a xs i = xs[i - a] := by
  simp [blit, ha, h]

@[simp] theorem blit_nil (m : Nat → β) (a : Nat) : blit m a [] = m := by
  funext i
  simp [blit]

/-- Reading back a block that was copied in. -/
theorem slice_blit (m : Nat → β) (a : Nat) (xs : List β) {n : Nat} (h : n ≤ xs.length) :
    slice (blit m a xs) a n = xs.take n := by
  apply List.ext_getElem
  · simp [h]
  · intro i hi _
    have hn : i < n := by simpa using hi
    simp [blit_add m a xs (Nat.lt_of_lt_of_le hn h)]

/-- Copying in what is there already changes nothing. -/
theorem blit_slice_self (m : Nat → β) (a n : Nat) : blit m a (slice m a n) = m := by
  funext i
  by_cases hi : a ≤ i ∧ i - a < n
  · have hlt : i - a < (slice m a n).length := by rw [length_slice]; exact hi.2
    rw [blit_at m _ hi.1 hlt, getElem_slice, Nat.add_sub_of_le hi.1]
  · obtain hlt | hge : i < a ∨ a + (slice m a n).length ≤ i := by
      rw [length_slice]
      omega
    · exact blit_of_lt m _ hlt
    · exact blit_of_ge m _ hge

/-- A block copied in right behind another extends it. -/
theorem slice_blit_append (m : Nat → β) (a n : Nat) (xs : List β) :
    slice (blit m (a + n) xs) a (n + xs.length) = slice m a n ++ xs := by
  rw [slice_add, slice_blit m (a + n) xs (Nat.le_refl _), List.take_length]
  congr 1
  refine slice_congr fun i hi => ?_
  exact blit_of_lt m xs (Nat.add_lt_add_left hi a)

/-- Several blocks copied in, one after the other. -/
def blits (m : Nat → β) (segs : List (Nat × List β)) : Nat → β :=
  segs.foldl (fun m s => blit m s.1 s.2) m

@[simp] theorem blits_nil (m : Nat → β) : blits m [] = m := rfl

@[simp] theorem blits_cons (m : Nat → β) (s : Nat × List β) (segs : List (Nat × List β)) :
    blits m (s :: segs) = blits (blit m s.1 s.2) segs := rfl

/-- A cell behind all the blocks is left alone. -/
theorem blits_of_ge (m : Nat → β) {segs : List (Nat × List β)} {i : Nat}
    (h : ∀ s ∈ segs, s.1 + s.2.length ≤ i) : blits m segs i = m i := by
  induction segs generalizing m with
  | nil => rfl
  | cons s segs ih =>
    rw [blits_cons, ih _ fun s' hs' => h s' (List.mem_cons_of_mem s hs')]
    exact blit_of_ge m s.2 (h s List.mem_cons_self)

end Library
