import Mathlib.Algebra.BigOperators.Group.List.Basic
import Mathlib.Algebra.Ring.Int.Defs
import Mathlib.Algebra.Order.Group.Unbundled.Int
import Mathlib.Data.List.Basic

/-!
# Codes

Code words none of which is the beginning of another can be written one after the other without
anything in between. A text that comes in bit by bit may be decoded as it comes. A sum modulo `m`
over weights that differ by less than `m` detects every change of a single symbol, and no change
of their order.
-/
namespace Library

variable {α β : Type*}

/-! ## Prefix codes -/

/-- Of what begins with the words of two symbols, the symbols are the same. -/
def PrefixCode (P : α → Prop) (f : α → List β) : Prop :=
  ∀ a b xs ys, P a → P b → f a ++ xs = f b ++ ys → a = b

namespace PrefixCode

variable {P : α → Prop} {f : α → List β}

/-- No word is empty, if there are two symbols; so a text is decoded from its front. -/
theorem eq_of_flatMap_eq (h : PrefixCode P f) (hne : ∀ a, P a → f a ≠ []) {as bs : List α}
    (has : ∀ a ∈ as, P a) (hbs : ∀ b ∈ bs, P b) (heq : as.flatMap f = bs.flatMap f) :
    as = bs := by
  induction as generalizing bs with
  | nil =>
    cases bs with
    | nil => rfl
    | cons b bs =>
      rw [List.flatMap_nil, List.flatMap_cons] at heq
      exact absurd (List.append_eq_nil_iff.mp heq.symm).1 (hne b (hbs b List.mem_cons_self))
  | cons a as ih =>
    have ha := has a List.mem_cons_self
    cases bs with
    | nil =>
      rw [List.flatMap_nil, List.flatMap_cons] at heq
      exact absurd (List.append_eq_nil_iff.mp heq).1 (hne a ha)
    | cons b bs =>
      rw [List.flatMap_cons, List.flatMap_cons] at heq
      obtain rfl := h a b _ _ ha (hbs b List.mem_cons_self) heq
      rw [ih (fun a' ha' => has a' (List.mem_cons_of_mem a ha'))
        (fun b hb => hbs b (List.mem_cons_of_mem a hb)) (List.append_cancel_left heq)]

/-- What comes first of a text, and more of it, are decoded alike. -/
theorem prefix_of_flatMap (h : PrefixCode P f) (hne : ∀ a, P a → f a ≠ []) {as bs : List α}
    (has : ∀ a ∈ as, P a) (hbs : ∀ b ∈ bs, P b) (hpre : as.flatMap f <+: bs.flatMap f) :
    as <+: bs := by
  induction as generalizing bs with
  | nil => exact List.nil_prefix
  | cons a as ih =>
    have ha := has a List.mem_cons_self
    obtain ⟨zs, heq⟩ := hpre
    cases bs with
    | nil =>
      rw [List.flatMap_nil, List.flatMap_cons] at heq
      exact absurd (List.append_eq_nil_iff.mp (List.append_eq_nil_iff.mp heq).1).1 (hne a ha)
    | cons b bs =>
      rw [List.flatMap_cons, List.flatMap_cons, List.append_assoc] at heq
      obtain rfl := h a b _ _ ha (hbs b List.mem_cons_self) heq
      rw [List.prefix_cons_inj]
      exact ih (fun a' ha' => has a' (List.mem_cons_of_mem a ha'))
        (fun b hb => hbs b (List.mem_cons_of_mem a hb)) ⟨zs, List.append_cancel_left heq⟩

end PrefixCode

/-- A text falls into the words of these symbols, and `rest` is left. -/
structure Falls (f : α → List β) (P : α → Prop) (text : List β) (as : List α) (rest : List β) :
    Prop where
  whole : text = as.flatMap f ++ rest
  good : ∀ a ∈ as, P a

namespace Falls

variable {f : α → List β} {P : α → Prop} {text rest : List β} {as : List α}

theorem nil (text : List β) : Falls f P text [] text :=
  ⟨rfl, fun _ ha => absurd ha List.not_mem_nil⟩

/-- What is left of a text stands before what comes in later. -/
theorem append {more rest' : List β} {as' : List α} (h : Falls f P text as rest)
    (h' : Falls f P (rest ++ more) as' rest') : Falls f P (text ++ more) (as ++ as') rest' := by
  constructor
  · rw [h.whole, List.append_assoc, h'.whole, List.flatMap_append, List.append_assoc]
  · intro a ha
    obtain ha | ha := List.mem_append.mp ha
    · exact h.good a ha
    · exact h'.good a ha

end Falls

/-- Words that end in a mark that they do not contain. -/
theorem prefixCode_ended (mark : β) :
    PrefixCode (fun w : List β => mark ∉ w) fun w => w ++ [mark] := by
  intro a b xs ys ha hb heq
  induction a generalizing b with
  | nil =>
    cases b with
    | nil => rfl
    | cons y b =>
      obtain ⟨rfl, -⟩ := List.cons.inj heq
      exact absurd List.mem_cons_self hb
  | cons x a ih =>
    cases b with
    | nil =>
      obtain ⟨rfl, -⟩ := List.cons.inj heq
      exact absurd List.mem_cons_self ha
    | cons y b =>
      obtain ⟨rfl, hrest⟩ := List.cons.inj heq
      rw [ih b (fun h => ha (List.mem_cons_of_mem x h)) (fun h => hb (List.mem_cons_of_mem x h))
        hrest]

/-! ## Sums modulo a number -/

section Checksum

variable (w : α → Int) (m : Int)

/-- The sum of the weights, with the remainder that a division towards zero leaves. -/
def checksum (xs : List α) : Int := (xs.map w).sum.tmod m

variable {w m}

theorem checksum_perm {xs ys : List α} (h : xs.Perm ys) : checksum w m xs = checksum w m ys := by
  rw [checksum, checksum, (h.map w).sum_eq]

/-- Another symbol anywhere. -/
theorem checksum_set_ne (hspread : ∀ a b, a ≠ b → w a ≠ w b ∧ w a - w b < m) {xs : List α} {k : Nat}
    (hk : k < xs.length) {a : α} (hne : a ≠ xs[k]) :
    checksum w m (xs.set k a) ≠ checksum w m xs := by
  have hsum : ((xs.set k a).map w).sum = (xs.map w).sum + (w a - w xs[k]) := by
    have hk' : k < (xs.map w).length := by rwa [List.length_map]
    rw [List.map_set, List.sum_set', dif_pos hk', List.getElem_map]
    omega
  obtain ⟨hdiff, hlt⟩ := hspread a xs[k] hne
  obtain ⟨-, hlt'⟩ := hspread xs[k] a hne.symm
  intro heq
  rw [checksum, checksum, hsum] at heq
  -- equal remainders, so `m` divides the difference of the two symbols
  have hdvd : m ∣ w a - w xs[k] := by
    have h1 := Int.mul_tdiv_add_tmod ((xs.map w).sum + (w a - w xs[k])) m
    have h2 := Int.mul_tdiv_add_tmod (xs.map w).sum m
    rw [heq] at h1
    refine ⟨((xs.map w).sum + (w a - w xs[k])).tdiv m - (xs.map w).sum.tdiv m, ?_⟩
    rw [Int.mul_sub]
    omega
  have hzero := Int.eq_zero_of_abs_lt_dvd hdvd (abs_lt.mpr ⟨by omega, by omega⟩)
  omega

end Checksum

end Library
