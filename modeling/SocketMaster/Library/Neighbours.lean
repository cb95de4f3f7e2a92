import Mathlib.Data.Finset.Card
import Mathlib.Data.Finset.Sort
import Mathlib.Data.List.Perm.Basic

/-!
# The element in front of the first one below a bound

A bound marks the place right in front of the first element below it. The bounds are nested: of any
two of them, one has everything below it that the other has. In whichever order a list is put, no
more of the places of an element can be marked than there are `cuts` of the list for it, and in
some order that many are.
-/
namespace Library

variable {α ω : Type*} (below : ω → α → Bool)

/-- Of any two bounds, one has everything below it that the other has. -/
def Nested : Prop := ∀ v w, (∀ a, below v a → below w a) ∨ ∀ a, below w a → below v a

/-- Some bound has its first element right behind the place `p`. -/
def Marked (ws : List ω) (xs : List α) (p : Nat) : Prop :=
  ∃ w ∈ ws, xs.findIdx? (below w) = some (p + 1)

/-- The numbers of elements below the bounds that `x` is not below, apart from none. -/
def cuts (ws : List ω) (xs : List α) (x : α) : Finset Nat :=
  ((ws.filter fun w => !below w x).map fun w => xs.countP (below w)).toFinset.erase 0

/-- The bound finds its first element right behind `x`, which is at the place `p`. -/
structure Finds (w : ω) (xs : List α) (p : Nat) (x : α) : Prop where
  not_below : ¬ below w x
  next : ∃ y, xs[p + 1]? = some y ∧ below w y
  before : ∀ (q : Nat) (y : α), q ≤ p → xs[q]? = some y → ¬ below w y

variable {below} {ws : List ω} {xs : List α} {x : α}

theorem mem_cuts {n : Nat} :
    n ∈ cuts below ws xs x ↔ 0 < n ∧ ∃ w ∈ ws, ¬ below w x ∧ xs.countP (below w) = n := by
  simp only [cuts, Finset.mem_erase, List.mem_toFinset, List.mem_map, List.mem_filter,
    Bool.not_eq_true', and_assoc, Nat.pos_iff_ne_zero, Bool.not_eq_true]

theorem cuts_perm {ys : List α} (h : ys.Perm xs) : cuts below ws ys x = cuts below ws xs x := by
  ext n
  simp only [mem_cuts, h.countP_eq]

/-- Fewer elements satisfy the stronger predicate if one satisfies the weaker only. -/
theorem countP_lt_countP {p q : α → Bool} (hpq : ∀ a, p a → q a) {y : α} (hy : y ∈ xs)
    (hq : q y) (hp : ¬ p y) : xs.countP p < xs.countP q := by
  obtain ⟨front, back, rfl⟩ := List.append_of_mem hy
  have hfront := List.countP_mono_left (l := front) fun a _ => hpq a
  have hback := List.countP_mono_left (l := back) fun a _ => hpq a
  rw [List.countP_append, List.countP_append, List.countP_cons_of_pos hq,
    List.countP_cons_of_neg hp]
  omega

/-! ## No more places are marked -/

theorem finds_of_findIdx {w : ω} {p : Nat} (h : xs.findIdx? (below w) = some (p + 1))
    (hx : xs[p]? = some x) : Finds below w xs p x := by
  obtain ⟨hlt, hbelow, hbefore⟩ := List.findIdx?_eq_some_iff_getElem.mp h
  have hnot : ∀ (q : Nat) (y : α), q ≤ p → xs[q]? = some y → ¬ below w y := by
    intro q y hq hy
    obtain ⟨hqlt, rfl⟩ := List.getElem?_eq_some_iff.mp hy
    exact hbefore q (by omega)
  exact ⟨hnot p x (Nat.le_refl p) hx, ⟨_, List.getElem?_eq_getElem hlt, hbelow⟩, hnot⟩

namespace Finds

variable {v w : ω} {p q : Nat} {x' : α}

theorem countP_mem (h : Finds below w xs p x) (hw : w ∈ ws) :
    xs.countP (below w) ∈ cuts below ws xs x := by
  obtain ⟨y, hy, hbelow⟩ := h.next
  have hpos := List.countP_pos_iff.mpr ⟨y, List.mem_of_getElem? hy, hbelow⟩
  exact mem_cuts.mpr ⟨hpos, w, hw, h.not_below, rfl⟩

/-- The bound that finds its element earlier has more below it. -/
theorem countP_lt (nested : Nested below) (hv : Finds below v xs p x) (hw : Finds below w xs q x')
    (hlt : p < q) : xs.countP (below w) < xs.countP (below v) := by
  obtain ⟨y, hy, hbelow⟩ := hv.next
  have hnot : ¬ below w y := hw.before (p + 1) y hlt hy
  obtain hvw | hwv := nested v w
  · exact absurd (hvw y hbelow) hnot
  · exact countP_lt_countP hwv (List.mem_of_getElem? hy) hbelow hnot

end Finds

/-- If every place of `x` is marked, there is a cut for each of them. -/
theorem count_le_card_cuts [BEq α] [LawfulBEq α] (nested : Nested below)
    (h : ∀ p : Nat, xs[p]? = some x → Marked below ws xs p) :
    xs.count x ≤ (cuts below ws xs x).card := by
  have hplaces : ∀ p : Nat, p ∈ xs.findIdxs (· == x) → xs[p]? = some x := by
    intro p hp
    obtain ⟨hlt, hbeq⟩ := List.mem_findIdxs_iff_exists_getElem_pos.mp hp
    exact List.getElem?_eq_some_iff.mpr ⟨hlt, beq_iff_eq.mp hbeq⟩
  have hfinds : ∀ p : Nat, ∃ n, p ∈ xs.findIdxs (· == x) →
      ∃ w ∈ ws, Finds below w xs p x ∧ xs.countP (below w) = n := by
    intro p
    by_cases hp : p ∈ xs.findIdxs (· == x)
    · obtain ⟨w, hw, hfind⟩ := h p (hplaces p hp)
      exact ⟨_, fun _ => ⟨w, hw, finds_of_findIdx hfind (hplaces p hp), rfl⟩⟩
    · exact ⟨0, fun hmem => absurd hmem hp⟩
  choose cut hcut using hfinds
  have hcard : (xs.findIdxs (· == x)).toFinset.card = xs.count x := by
    rw [List.toFinset_card_of_nodup List.nodup_findIdxs, List.length_findIdxs]
    rfl
  rw [← hcard]
  refine Finset.card_le_card_of_injOn cut ?_ ?_
  · intro p hp
    obtain ⟨w, hw, hfind, hn⟩ := hcut p (List.mem_toFinset.mp hp)
    rw [← hn]
    exact hfind.countP_mem hw
  · intro p hp q hq heq
    obtain ⟨v, -, hv, hvn⟩ := hcut p (List.mem_toFinset.mp hp)
    obtain ⟨w, -, hw, hwn⟩ := hcut q (List.mem_toFinset.mp hq)
    obtain hlt | rfl | hlt := Nat.lt_trichotomy p q
    · have := hv.countP_lt nested hw hlt
      omega
    · rfl
    · have := hw.countP_lt nested hv hlt
      omega

/-! ## As many places are marked in some order -/

variable (below) in
/-- `names` with an `x` in front of the first element below each of the bounds. -/
def weave (x : α) : List ω → List α → List α
  | [], names => names
  | w :: ws, names =>
    names.filter (fun a => !below w a) ++ x :: weave x ws (names.filter (below w))

variable (below) in
/-- The bounds go down, each below the one before it by an element at least, and to no less than an
element. -/
def Descends (ws : List ω) (names : List α) : Prop :=
  ws.Pairwise (fun v w => names.countP (below w) < names.countP (below v)) ∧
    ∀ w ∈ ws, 0 < names.countP (below w)

variable (below x) in
theorem weave_perm (ws : List ω) (names : List α) :
    (weave below x ws names).Perm (List.replicate ws.length x ++ names) := by
  induction ws generalizing names with
  | nil => exact .refl names
  | cons w ws ih =>
    have hsplit : (names.filter (fun a => !below w a) ++ names.filter (below w)).Perm names :=
      List.perm_append_comm.trans (List.filter_append_perm _ names)
    calc
      (weave below x (w :: ws) names).Perm
          (names.filter (fun a => !below w a) ++
            x :: (List.replicate ws.length x ++ names.filter (below w))) :=
        ((ih _).cons x).append_left _
      List.Perm _ (x :: (List.replicate ws.length x ++
          (names.filter (fun a => !below w a) ++ names.filter (below w)))) := by
        refine List.perm_middle.trans (.cons x ?_)
        rw [← List.append_assoc, ← List.append_assoc]
        exact List.perm_append_comm.append_right _
      List.Perm _ (x :: (List.replicate ws.length x ++ names)) :=
        (hsplit.append_left _).cons x

/-- What is behind elements that are not below the bound is found that much later. -/
theorem findIdx_behind {v : ω} {front : List α} (hfront : ∀ a ∈ front, below v a = false)
    (hx : below v x = false) (rest : List α) :
    (front ++ x :: rest).findIdx? (below v) =
      (rest.findIdx? (below v)).map (· + front.length + 1) := by
  rw [List.findIdx?_append, List.findIdx?_eq_none_iff.mpr hfront, Option.none_or,
    List.findIdx?_cons, hx]
  cases rest.findIdx? (below v) with
  | none => rfl
  | some i =>
    simp only [Bool.false_eq_true, if_false, Option.map_some, Option.some.injEq]
    omega

namespace Descends

variable {w : ω} {names : List α}

/-- What is below a later bound is below the first. -/
theorem imp (nested : Nested below) (h : Descends below (w :: ws) names) {v : ω} (hv : v ∈ ws) :
    ∀ a, below v a → below w a := by
  have hlt := (List.pairwise_cons.mp h.1).1 v hv
  obtain hvw | hwv := nested v w
  · exact hvw
  · have hle := List.countP_mono_left (l := names) fun a _ => hwv a
    omega

/-- Later bounds count the same below the first one. -/
theorem countP_filter (nested : Nested below) (h : Descends below (w :: ws) names) {v : ω}
    (hv : v ∈ ws) : (names.filter (below w)).countP (below v) = names.countP (below v) := by
  rw [List.countP_filter]
  refine List.countP_congr fun a _ => ?_
  have himp := h.imp nested hv a
  grind

theorem tail (nested : Nested below) (h : Descends below (w :: ws) names) :
    Descends below ws (names.filter (below w)) := by
  refine ⟨(List.pairwise_cons.mp h.1).2.imp_of_mem fun {u v} hu hv huv => ?_, fun v hv => ?_⟩
  · rwa [h.countP_filter nested hu, h.countP_filter nested hv]
  · rw [h.countP_filter nested hv]
    exact h.2 v (List.mem_cons_of_mem w hv)

/-- If no bound has all of the names below it, one of the names comes first. -/
theorem head_weave (h : ∀ w ∈ ws, names.countP (below w) < names.length) (hne : names ≠ []) :
    ∃ y t, weave below x ws names = y :: t ∧ y ∈ names := by
  cases ws with
  | nil =>
    obtain ⟨y, t, rfl⟩ := List.exists_cons_of_ne_nil hne
    exact ⟨y, t, rfl, List.mem_cons_self⟩
  | cons w ws =>
    have hlt := h w List.mem_cons_self
    have hex : ∃ y ∈ names, ¬ below w y := by
      by_contra hall
      push Not at hall
      exact absurd (List.countP_eq_length.mpr hall) (by omega)
    obtain ⟨z, hz, hnot⟩ := hex
    have hmem : z ∈ names.filter (fun a => !below w a) := by
      rw [List.mem_filter]
      exact ⟨hz, by simpa using hnot⟩
    obtain ⟨y, t, ht⟩ := List.exists_cons_of_ne_nil (List.ne_nil_of_mem hmem)
    refine ⟨y, t ++ x :: weave below x ws (names.filter (below w)), ?_, ?_⟩
    · rw [weave, ht, List.cons_append]
    · have hy : y ∈ names.filter (fun a => !below w a) := ht ▸ List.mem_cons_self
      exact (List.mem_filter.mp hy).1

/-- Behind the first `x` an element comes that is below the first bound. -/
theorem head_tail (nested : Nested below) (h : Descends below (w :: ws) names) (x : α) :
    ∃ y t, weave below x ws (names.filter (below w)) = y :: t ∧ below w y := by
  have hless : ∀ v ∈ ws, (names.filter (below w)).countP (below v) <
      (names.filter (below w)).length := by
    intro v hv
    rw [h.countP_filter nested hv, ← List.countP_eq_length_filter]
    exact (List.pairwise_cons.mp h.1).1 v hv
  have hne : names.filter (below w) ≠ [] := by
    have hpos := h.2 w List.mem_cons_self
    rw [List.countP_eq_length_filter] at hpos
    exact List.ne_nil_of_length_pos hpos
  obtain ⟨y, t, ht, hy⟩ := head_weave (x := x) hless hne
  exact ⟨y, t, ht, (List.mem_filter.mp hy).2⟩

/-- All bounds find their first element behind the first `x`. -/
theorem findIdx_weave (nested : Nested below) (hx : ∀ v ∈ w :: ws, ¬ below v x)
    (h : Descends below (w :: ws) names) {v : ω} (hv : v ∈ w :: ws) :
    (weave below x (w :: ws) names).findIdx? (below v) =
      ((weave below x ws (names.filter (below w))).findIdx? (below v)).map
        (· + (names.filter (fun a => !below w a)).length + 1) := by
  refine findIdx_behind (fun a ha => ?_) (by simpa using hx v hv) _
  have hnot : below w a = false := by simpa using (List.mem_filter.mp ha).2
  obtain rfl | hv := List.mem_cons.mp hv
  · exact hnot
  · have himp := h.imp nested hv a
    grind

/-- Every `x` that was put in stands where a bound marks it. -/
theorem marked_weave (nested : Nested below) (hx : ∀ w ∈ ws, ¬ below w x)
    (h : Descends below ws names) (hnames : x ∉ names) (p : Nat)
    (hp : (weave below x ws names)[p]? = some x) : Marked below ws (weave below x ws names) p := by
  induction ws generalizing names p with
  | nil => exact absurd (List.mem_of_getElem? hp) hnames
  | cons w ws ih =>
    obtain hlt | rfl | hgt := Nat.lt_trichotomy p (names.filter (fun a => !below w a)).length
    · -- among the names that are not below the bound
      rw [weave, List.getElem?_append_left hlt] at hp
      exact absurd (List.mem_filter.mp (List.mem_of_getElem? hp)).1 hnames
    · -- the `x` that the first bound marks
      obtain ⟨y, t, ht, hy⟩ := h.head_tail nested x
      refine ⟨w, List.mem_cons_self, ?_⟩
      rw [h.findIdx_weave nested hx List.mem_cons_self, ht, List.findIdx?_cons, hy, if_pos rfl,
        Option.map_some, Nat.zero_add]
    · -- those that the later bounds mark
      obtain ⟨q, rfl⟩ := Nat.exists_eq_add_of_lt hgt
      rw [weave, List.getElem?_append_right (by omega), Nat.add_assoc, Nat.add_sub_cancel_left,
        List.getElem?_cons_succ] at hp
      obtain ⟨v, hv, hfind⟩ := ih (fun v hv => hx v (List.mem_cons_of_mem w hv)) (h.tail nested)
        (fun hmem => hnames (List.mem_filter.mp hmem).1) q hp
      refine ⟨v, List.mem_cons_of_mem w hv, ?_⟩
      rw [h.findIdx_weave nested hx (List.mem_cons_of_mem w hv), hfind, Option.map_some]
      exact congrArg some (by omega)

end Descends

/-- As many cuts as there are in `ns` come from bounds that go down. -/
theorem exists_descends [BEq α] [LawfulBEq α] {ns : Finset Nat} (hns : ns ⊆ cuts below ws xs x) :
    ∃ vs : List ω, vs.length = ns.card ∧ (∀ v ∈ vs, v ∈ ws ∧ ¬ below v x) ∧
      Descends below vs (xs.filter fun a => !(a == x)) := by
  have hbound : ∀ n : Nat, n ∈ ns → ∃ w ∈ ws, ¬ below w x ∧ xs.countP (below w) = n := by
    intro n hn
    exact (mem_cuts.mp (hns hn)).2
  have hsame : ∀ w, ¬ below w x →
      (xs.filter fun a => !(a == x)).countP (below w) = xs.countP (below w) := by
    intro w hw
    rw [List.countP_filter]
    refine List.countP_congr fun a _ => ?_
    grind
  choose bound hmem hnot hcount using hbound
  have hvs : ∀ v ∈ (ns.sort (· ≥ ·)).pmap bound (by simp), ∃ n, ∃ hn : n ∈ ns, v = bound n hn := by
    intro v hv
    obtain ⟨n, hn, rfl⟩ := List.mem_pmap.mp hv
    exact ⟨n, _, rfl⟩
  refine ⟨(ns.sort (· ≥ ·)).pmap bound (by simp), ?_, ?_, ?_, ?_⟩
  · rw [List.length_pmap, Finset.length_sort]
  · intro v hv
    obtain ⟨n, hn, rfl⟩ := hvs v hv
    exact ⟨hmem n hn, hnot n hn⟩
  · refine ((Finset.sortedGT_sort ns).pairwise).pmap _ ?_
    intro m hm n hn hlt
    rwa [hsame _ (hnot m hm), hsame _ (hnot n hn), hcount m hm, hcount n hn]
  · intro v hv
    obtain ⟨n, hn, rfl⟩ := hvs v hv
    rw [hsame _ (hnot n hn), hcount n hn]
    exact (mem_cuts.mp (hns hn)).1

/-- In some order every `x` is marked if the cuts are no fewer. -/
theorem exists_perm_marked [BEq α] [LawfulBEq α] (nested : Nested below)
    (h : xs.count x ≤ (cuts below ws xs x).card) :
    ∃ ys, ys.Perm xs ∧ ∀ p : Nat, ys[p]? = some x → Marked below ws ys p := by
  obtain ⟨ns, hsub, hcard⟩ := Finset.exists_subset_card_eq h
  obtain ⟨vs, hlen, hvs, hdesc⟩ := exists_descends hsub
  refine ⟨weave below x vs (xs.filter fun a => !(a == x)), ?_, ?_⟩
  · have hsplit := List.filter_append_perm (· == x) xs
    rw [List.filter_beq] at hsplit
    have hperm := weave_perm below x vs (xs.filter fun a => !(a == x))
    rw [hlen, hcard] at hperm
    exact hperm.trans hsplit
  · intro p hp
    obtain ⟨v, hv, hfind⟩ := hdesc.marked_weave nested (fun v hv => (hvs v hv).2) (by simp) p hp
    exact ⟨v, (hvs v hv).1, hfind⟩

end Library
