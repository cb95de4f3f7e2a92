import Mathlib.Data.List.Basic
import Mathlib.Tactic.SplitIfs

/-!
# Bounded FIFO queues with their history

A `Fifo` records everything it has taken in and everything it has handed out, and carries
the proof that the two differ by exactly what it still holds. Losing, repeating, inventing
or reordering an element is therefore not a state of this type: a program is shown to do
none of them by relating it to a `Fifo`.
-/
namespace Library

variable {β : Type*}

/-- A queue with its history. -/
structure Fifo (β : Type*) where
  accepted : List β
  delivered : List β
  content : List β
  conserved : delivered ++ content = accepted

namespace Fifo

def empty : Fifo β := ⟨[], [], [], rfl⟩

/-- Take in `xs` at the back. -/
def put (q : Fifo β) (xs : List β) : Fifo β where
  accepted := q.accepted ++ xs
  delivered := q.delivered
  content := q.content ++ xs
  conserved := by rw [← List.append_assoc, q.conserved]

/-- Hand out at most `k` elements from the front. -/
def take (q : Fifo β) (k : Nat) : Fifo β where
  accepted := q.accepted
  delivered := q.delivered ++ q.content.take k
  content := q.content.drop k
  conserved := by rw [List.append_assoc, List.take_append_drop, q.conserved]

@[simp] theorem take_zero (q : Fifo β) : q.take 0 = q := by
  cases q
  simp [take]

theorem length_conserved (q : Fifo β) :
    q.delivered.length + q.content.length = q.accepted.length := by
  rw [← List.length_append, q.conserved]

/-- The operations of a queue with limited room. -/
inductive Op (β : Type*) where
  | offer (xs : List β)
  | push (x : β)
  | look (k : Nat)
  | take (k : Nat)

/-- One operation on a queue that holds at most `cap` elements. A block is taken in whole
and only if it leaves a place free; a single element may use the last place. -/
def apply (cap : Nat) (q : Fifo β) : Op β → Fifo β
  | .offer xs => if q.content.length + xs.length < cap then q.put xs else q
  | .push x => if q.content.length < cap then q.put [x] else q
  | .look _ => q
  | .take k => q.take k

end Fifo

end Library
