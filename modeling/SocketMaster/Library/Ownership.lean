import Mathlib.Data.Set.Insert
import Mathlib.Order.BooleanAlgebra.Set

/-!
# Things that are taken and given back

A record of what has been taken and what has been given back. It is proper if nothing is taken
that is held already and nothing given back that is not held, and clean if at the end nothing is
held. A proper record can go on where another one ends, as long as they do not share anything.
-/
namespace Library

variable {α : Type*}

inductive Use (α : Type*) where
  | take (a : α)
  | release (a : α)

namespace Use

/-- What is held after these uses, the latest of which stands first. -/
def held : List (Use α) → Set α
  | [] => ∅
  | .take a :: us => insert a (held us)
  | .release a :: us => held us \ {a}

/-- Nothing is taken twice and nothing is given back twice. -/
def Proper : List (Use α) → Prop
  | [] => True
  | .take a :: us => a ∉ held us ∧ Proper us
  | .release a :: us => a ∈ held us ∧ Proper us

structure Clean (us : List (Use α)) : Prop where
  proper : Proper us
  nothing : held us = ∅

/-- The record `us` goes on where `base` ends, and leaves what `base` holds alone. -/
structure Over (base us : List (Use α)) : Prop where
  proper : Proper (us ++ base)
  apart : ∀ a ∈ held us, a ∉ held base
  both : held (us ++ base) = held us ∪ held base

variable {base us : List (Use α)} {a : α}

/-- What stands first is later. -/
theorem Proper.of_append (h : Proper (us ++ base)) : Proper base := by
  induction us with
  | nil => exact h
  | cons u us ih =>
    cases u with
    | take a => exact ih h.2
    | release a => exact ih h.2

theorem Over.nil (h : Proper base) : Over base [] :=
  ⟨h, fun a ha => absurd ha (Set.notMem_empty a), (Set.empty_union _).symm⟩

theorem Over.take (h : Over base us) (hnot : a ∉ held us) (hbase : a ∉ held base) :
    Over base (.take a :: us) := by
  have hfree : a ∉ held (us ++ base) := by
    rw [h.both]
    exact fun hmem => hmem.elim hnot hbase
  refine ⟨⟨hfree, h.proper⟩, Set.forall_mem_insert.mpr ⟨hbase, h.apart⟩, ?_⟩
  change insert a (held (us ++ base)) = insert a (held us) ∪ held base
  rw [h.both, Set.insert_union]

theorem Over.release (h : Over base us) (hmem : a ∈ held us) : Over base (.release a :: us) := by
  have hbase : a ∉ held base := h.apart a hmem
  have hheld : a ∈ held (us ++ base) := by
    rw [h.both]
    exact Set.mem_union_left _ hmem
  refine ⟨⟨hheld, h.proper⟩, fun b hb => h.apart b hb.1, ?_⟩
  change held (us ++ base) \ {a} = held us \ {a} ∪ held base
  rw [h.both, Set.union_sdiff_distrib, Set.sdiff_singleton_eq_self hbase]

/-- The uses that give these back, the latest of which stands first. -/
def releases (as : List α) : List (Use α) := (as.map release).reverse

theorem releases_cons (a : α) (as : List α) :
    releases (a :: as) = releases as ++ [.release a] := by
  rw [releases, List.map_cons, List.reverse_cons]
  rfl

/-- All of these are given back, one after the other. -/
theorem Proper.releases {as : List α} (h : Proper us) (nodup : as.Nodup)
    (all : ∀ a ∈ as, a ∈ held us) :
    Proper (releases as ++ us) ∧ held (releases as ++ us) = held us \ {a | a ∈ as} := by
  induction as generalizing us with
  | nil =>
    refine ⟨h, ?_⟩
    simp [Use.releases]
  | cons a as ih =>
    obtain ⟨hnot, hnodup⟩ := List.nodup_cons.mp nodup
    have hnext : Proper (.release a :: us) := ⟨all a List.mem_cons_self, h⟩
    obtain ⟨hproper, hheld⟩ := ih hnext hnodup fun b hb =>
      ⟨all b (List.mem_cons_of_mem a hb), fun heq => hnot (heq ▸ hb)⟩
    rw [releases_cons, List.append_assoc]
    refine ⟨hproper, hheld.trans ?_⟩
    change (held us \ {a}) \ {b | b ∈ as} = held us \ {b | b ∈ a :: as}
    ext b
    simp [and_assoc]

end Use

end Library
