import SocketMaster.Library.Reads
import Mathlib.Data.List.Basic
import Mathlib.Logic.Function.Basic
import Mathlib.Tactic.SplitIfs

/-!
# An array being written, with the addresses stored

`Stores β` is the memory around a destination pointer together with the list of addresses
stored so far. A bound on the stores is a statement about that list.
-/
namespace Library

variable {β : Type*}

/-- Memory relative to a destination pointer, and the addresses stored, in order. -/
structure Stores (β : Type*) where
  mem : Int → β
  log : List Int

namespace Stores

/-- A destination before the first store. -/
def fresh (m : Int → β) : Stores β := ⟨m, []⟩

/-- Store one cell. -/
def put (d : Stores β) (a : Int) (x : β) : Stores β :=
  ⟨Function.update d.mem a x, d.log ++ [a]⟩

/-- Store a block, first cell first. -/
def puts (d : Stores β) (a : Int) : List β → Stores β
  | [] => d
  | x :: xs => (d.put a x).puts (a + 1) xs

@[simp] theorem mem_put (d : Stores β) (a : Int) (x : β) :
    (d.put a x).mem = Function.update d.mem a x := rfl

@[simp] theorem log_put (d : Stores β) (a : Int) (x : β) : (d.put a x).log = d.log ++ [a] := rfl

@[simp] theorem log_fresh (m : Int → β) : (fresh m).log = [] := rfl

theorem mem_log_puts (d : Stores β) (a i : Int) (xs : List β) :
    i ∈ (d.puts a xs).log ↔ i ∈ d.log ∨ a ≤ i ∧ i < a + xs.length := by
  induction xs generalizing d a with
  | nil =>
    have hno : ¬ (a ≤ i ∧ i < a + (([] : List β).length : Int)) := by simp
    simp only [puts, hno, or_false]
  | cons x xs ih =>
    simp only [puts, ih, log_put, List.mem_append, List.mem_singleton, List.length_cons,
      Int.natCast_add]
    constructor
    · rintro ((h | h) | h)
      · exact Or.inl h
      · exact Or.inr (by omega)
      · exact Or.inr (by omega)
    · rintro (h | h)
      · exact Or.inl (Or.inl h)
      · by_cases hi : i = a
        · exact Or.inl (Or.inr hi)
        · exact Or.inr (by omega)

/-- A block leaves the cells on either side alone. -/
theorem mem_puts_of_outside (d : Stores β) {a i : Int} {xs : List β}
    (h : i < a ∨ a + xs.length ≤ i) : (d.puts a xs).mem i = d.mem i := by
  induction xs generalizing d a with
  | nil => rfl
  | cons x xs ih =>
    rw [List.length_cons, Int.natCast_add] at h
    rw [puts, ih _ (by omega), mem_put, Function.update_of_ne (by omega)]

/-- A block can be read back. -/
theorem shows_puts {β : Type} (d : Stores β) (a : Int) (xs : List β) :
    Shows (d.puts a xs).mem a xs := by
  induction xs generalizing d a with
  | nil => exact shows_nil _ _
  | cons x xs ih =>
    rw [shows_cons, puts]
    refine ⟨?_, ih _ _⟩
    rw [mem_puts_of_outside _ (.inl (by omega)), mem_put, Function.update_self]

/-- Two arrays that have been written alike: they can only differ where nothing was stored. -/
structure Agree (d d' : Stores β) : Prop where
  log : d.log = d'.log
  mem : ∀ a ∈ d.log, d.mem a = d'.mem a

namespace Agree

variable {d d' : Stores β}

theorem fresh (m m' : Int → β) : Agree (Stores.fresh m) (Stores.fresh m') :=
  ⟨rfl, fun _ ha => absurd ha List.not_mem_nil⟩

theorem put (h : Agree d d') (a : Int) (x : β) : Agree (d.put a x) (d'.put a x) := by
  refine ⟨by rw [log_put, log_put, h.log], fun i hi => ?_⟩
  by_cases hia : i = a
  · rw [mem_put, mem_put, hia, Function.update_self, Function.update_self]
  · rw [mem_put, mem_put, Function.update_of_ne hia, Function.update_of_ne hia]
    rw [log_put, List.mem_append, List.mem_singleton] at hi
    exact h.mem i (hi.resolve_right hia)

theorem puts (h : Agree d d') (a : Int) (xs : List β) : Agree (d.puts a xs) (d'.puts a xs) := by
  induction xs generalizing d d' a with
  | nil => exact h
  | cons x xs ih => exact ih (h.put a x) (a + 1)

/-- A block that has been stored all over is the same in both. -/
theorem cells_eq {β : Type} {d d' : Stores β} (h : Agree d d') {a : Int} {n : Nat}
    (hlog : ∀ i, a ≤ i → i < a + n → i ∈ d.log) : cells d.mem a n = cells d'.mem a n := by
  apply List.ext_getElem (by simp)
  intro i hi _
  rw [length_cells] at hi
  rw [getElem_cells, getElem_cells]
  exact h.mem _ (hlog _ (by omega) (by omega))

end Agree

end Stores

end Library
