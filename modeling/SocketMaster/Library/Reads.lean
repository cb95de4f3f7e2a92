import Mathlib.Data.List.Basic
import Mathlib.Tactic.SplitIfs

/-!
# Computations that read a memory

`Reads β α` is a computation over a memory of `β` cells at integer addresses. It yields a
value and the list of addresses it has read, so bounds on what is read are facts about the
same definition as the value. Addresses may be negative: a pointer can run off either end.

A computation is `Local` if its value and its reads depend on the cells it reads only. Every
computation built from the operations below is.
-/
namespace Library

variable {β α γ : Type}

/-- The `n` cells of `m` from address `a` on. -/
def cells (m : Int → β) (a : Int) (n : Nat) : List β := (List.range n).map fun i : Nat => m (a + i)

@[simp] theorem length_cells (m : Int → β) (a : Int) (n : Nat) : (cells m a n).length = n := by
  simp [cells]

@[simp] theorem getElem_cells (m : Int → β) (a : Int) (n i : Nat) (h : i < (cells m a n).length) :
    (cells m a n)[i] = m (a + i) := by
  simp [cells]

@[simp] theorem cells_zero (m : Int → β) (a : Int) : cells m a 0 = [] := rfl

theorem cells_succ (m : Int → β) (a : Int) (n : Nat) :
    cells m a (n + 1) = m a :: cells m (a + 1) n := by
  simp only [cells, List.range_succ_eq_map, List.map_cons, List.map_map]
  congr 1
  · simp
  · apply List.map_congr_left
    intro i _
    have ha : a + ((i.succ : Nat) : Int) = a + 1 + (i : Int) := by omega
    simp only [Function.comp_apply, ha]

theorem cells_add (m : Int → β) (a : Int) (n k : Nat) :
    cells m a (n + k) = cells m a n ++ cells m (a + n) k := by
  induction n generalizing a with
  | zero => simp
  | succ n ih =>
    have hn : n + 1 + k = n + k + 1 := by omega
    have ha : a + ((n + 1 : Nat) : Int) = a + 1 + n := by omega
    rw [hn, cells_succ, cells_succ, ih, ha, List.cons_append]

/-- The memory holds `xs` from address `a` on. -/
def Shows (m : Int → β) (a : Int) (xs : List β) : Prop := cells m a xs.length = xs

@[simp] theorem shows_nil (m : Int → β) (a : Int) : Shows m a [] := rfl

@[simp] theorem shows_cons (m : Int → β) (a : Int) (x : β) (xs : List β) :
    Shows m a (x :: xs) ↔ m a = x ∧ Shows m (a + 1) xs := by
  simp [Shows, cells_succ]

theorem shows_append (m : Int → β) (a : Int) (xs ys : List β) :
    Shows m a (xs ++ ys) ↔ Shows m a xs ∧ Shows m (a + xs.length) ys := by
  induction xs generalizing a with
  | nil => simp
  | cons x xs ih =>
    have ha : a + 1 + (xs.length : Int) = a + ((x :: xs).length : Nat) := by
      rw [List.length_cons]; omega
    rw [List.cons_append, shows_cons, shows_cons, ih, ha, and_assoc]

/-- Memory that begins with `bytes` and holds `tail` everywhere else. -/
def overlay (bytes : List β) (tail : Int → β) : Int → β :=
  fun i => if 0 ≤ i then bytes[i.toNat]?.getD (tail i) else tail i

theorem overlay_of_lt (bytes : List β) (tail : Int → β) {i : Nat} (h : i < bytes.length) :
    overlay bytes tail i = bytes[i] := by
  simp [overlay, h]

theorem overlay_of_ge (bytes : List β) (tail : Int → β) {i : Nat} (h : bytes.length ≤ i) :
    overlay bytes tail i = tail i := by
  simp [overlay, h]

/-- A stretch of the bytes at the front. -/
theorem cells_overlay (bytes : List β) (tail : Int → β) {a n : Nat} (h : a + n ≤ bytes.length) :
    cells (overlay bytes tail) a n = (bytes.drop a).take n := by
  apply List.ext_getElem
  · simp only [length_cells, List.length_take, List.length_drop]
    omega
  · intro i hi _
    rw [length_cells] at hi
    have hcast : (a : Int) + (i : Int) = (a + i : Nat) := by omega
    rw [getElem_cells, hcast, overlay_of_lt bytes tail (by omega)]
    simp

theorem Shows.cell {m : Int → β} {a : Int} {xs : List β} (h : Shows m a xs) {i : Nat}
    (hi : i < xs.length) : m (a + i) = xs[i] := by
  have hi' : i < (cells m a xs.length).length := by rwa [length_cells]
  rw [← getElem_cells m a xs.length i hi']
  simp only [show cells m a xs.length = xs from h]

/-- What a memory shows depends on the cells there only. -/
theorem Shows.congr {m m' : Int → β} {a : Int} {xs : List β} (h : Shows m a xs)
    (hm : ∀ i, a ≤ i → i < a + xs.length → m' i = m i) : Shows m' a xs := by
  have hcells : cells m' a xs.length = cells m a xs.length := by
    refine List.map_congr_left fun i hi => hm _ (by omega) ?_
    have := List.mem_range.mp hi
    omega
  exact hcells.trans h

theorem Shows.drop {m : Int → β} {a : Int} {xs : List β} (h : Shows m a xs) {k : Nat}
    (hk : k ≤ xs.length) : Shows m (a + k) (xs.drop k) := by
  rw [← List.take_append_drop k xs, shows_append, List.length_take, Nat.min_eq_left hk] at h
  exact h.2

theorem shows_overlay (bytes : List β) (tail : Int → β) (a : Nat) {xs : List β}
    (h : xs <+: bytes.drop a) : Shows (overlay bytes tail) a xs := by
  have hlen := h.length_le
  rw [List.length_drop] at hlen
  by_cases hnil : xs = []
  · rw [hnil]
    exact shows_nil _ _
  · have hpos := List.length_pos_iff.mpr hnil
    rw [Shows, cells_overlay bytes tail (by omega)]
    exact (List.prefix_iff_eq_take.mp h).symm

/-- A value and the addresses read on the way to it. -/
def Reads (β α : Type) : Type := (Int → β) → α × List Int

namespace Reads

def val (x : Reads β α) (m : Int → β) : α := (x m).1

def log (x : Reads β α) (m : Int → β) : List Int := (x m).2

instance : Monad (Reads β) where
  pure a := fun _ => (a, [])
  bind x f := fun m => ((f (x m).1 m).1, (x m).2 ++ (f (x m).1 m).2)

/-- Read one cell. -/
def read (a : Int) : Reads β β := fun m => (m a, [a])

/-- Read `n` cells from address `a` on. -/
def readBlock (a : Int) : Nat → Reads β (List β)
  | 0 => pure []
  | n + 1 => do
    let x ← read a
    let xs ← readBlock (a + 1) n
    return x :: xs

@[simp] theorem val_pure (a : α) (m : Int → β) : (pure a : Reads β α).val m = a := rfl
@[simp] theorem log_pure (a : α) (m : Int → β) : (pure a : Reads β α).log m = [] := rfl

@[simp] theorem val_bind (x : Reads β α) (f : α → Reads β γ) (m : Int → β) :
    (x >>= f).val m = (f (x.val m)).val m := rfl

@[simp] theorem log_bind (x : Reads β α) (f : α → Reads β γ) (m : Int → β) :
    (x >>= f).log m = x.log m ++ (f (x.val m)).log m := rfl

@[simp] theorem val_read (a : Int) (m : Int → β) : (read a).val m = m a := rfl
@[simp] theorem log_read (a : Int) (m : Int → β) : (read a).log m = [a] := rfl

@[simp] theorem val_ite (p : Prop) [Decidable p] (x y : Reads β α) (m : Int → β) :
    (if p then x else y).val m = if p then x.val m else y.val m := by split <;> rfl

@[simp] theorem log_ite (p : Prop) [Decidable p] (x y : Reads β α) (m : Int → β) :
    (if p then x else y).log m = if p then x.log m else y.log m := by split <;> rfl

@[simp] theorem val_readBlock (a : Int) (n : Nat) (m : Int → β) :
    (readBlock a n).val m = cells m a n := by
  induction n generalizing a with
  | zero => rfl
  | succ n ih => simp only [readBlock, val_bind, val_read, val_pure, ih, cells_succ]

theorem mem_log_readBlock (a : Int) (n : Nat) (m : Int → β) (i : Int) :
    i ∈ (readBlock a n).log m ↔ a ≤ i ∧ i < a + n := by
  induction n generalizing a with
  | zero => simp [readBlock]
  | succ n ih =>
    simp only [readBlock, log_bind, log_read, log_pure, List.append_nil, List.mem_append,
      List.mem_singleton, ih, Int.natCast_add]
    omega

/-! ## Bounds on the addresses read -/

/-- Every address read satisfies `P`. -/
def Within (P : Int → Prop) (x : Reads β α) (m : Int → β) : Prop := ∀ a ∈ x.log m, P a

variable {P : Int → Prop} {m : Int → β}

@[simp] theorem within_pure (a : α) : Within P (pure a : Reads β α) m := by simp [Within]

@[simp] theorem within_read (a : Int) : Within P (read a) m ↔ P a := by simp [Within]

@[simp] theorem within_bind (x : Reads β α) (f : α → Reads β γ) :
    Within P (x >>= f) m ↔ Within P x m ∧ Within P (f (x.val m)) m := by
  simp [Within, or_imp, forall_and]

theorem within_readBlock (a : Int) (n : Nat) :
    Within P (readBlock a n) m ↔ ∀ i, a ≤ i → i < a + n → P i := by
  simp only [Within, mem_log_readBlock, and_imp]

/-! ## Locality -/

/-- Value and reads depend on nothing but the cells read. -/
def Local (x : Reads β α) : Prop := ∀ m m', (∀ a ∈ x.log m, m' a = m a) → x m' = x m

theorem Local.pure (a : α) : Local (Pure.pure a : Reads β α) := fun _ _ _ => rfl

theorem Local.read (a : Int) : Local (Reads.read a : Reads β β) := by
  intro m m' h
  simp only [Reads.read, h a (by simp)]

theorem Local.bind {x : Reads β α} {f : α → Reads β γ} (hx : Local x) (hf : ∀ a, Local (f a)) :
    Local (x >>= f) := by
  intro m m' h
  have h1 : x m' = x m := hx m m' fun a ha => h a (by simp [ha])
  have h2 : f (x.val m) m' = f (x.val m) m := hf _ m m' fun a ha => h a (by simp [ha])
  show ((f (x m').1 m').1, (x m').2 ++ (f (x m').1 m').2) = _
  rw [h1]
  show ((f (x.val m) m').1, _ ++ (f (x.val m) m').2) = _
  rw [h2]
  rfl

theorem Local.ite {p : Prop} [Decidable p] {x y : Reads β α} (hx : Local x) (hy : Local y) :
    Local (if p then x else y) := by
  split
  · exact hx
  · exact hy

theorem Local.readBlock (a : Int) (n : Nat) : Local (Reads.readBlock a n : Reads β (List β)) := by
  induction n generalizing a with
  | zero => exact .pure _
  | succ n ih => exact .bind (.read _) fun _ => .bind (ih _) fun _ => .pure _

end Reads

end Library
