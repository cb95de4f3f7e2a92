import Mathlib.Data.List.Basic

/-!
# Runs of labelled transitions

A step relation takes a state and a label to a next state. `Run` follows a list of labels.
An invariant is proved for one step and carried along a run by `Run.invariant`; a relation
between two machines is carried by `Run.simulates`, or by `Run.expands` where the second machine
takes any number of steps for one of the first. A run under a side condition is a run
of the relation restricted to the steps that meet it. Where a rank decreases, runs come to an end.
A machine that can fail is folded over
its labels; the fold follows a run up to the first failure.
-/
namespace Library

variable {σ τ ε : Type*}

/-- The labels, one step each, lead from the first state to the last. -/
inductive Run (step : σ → ε → σ → Prop) : σ → List ε → σ → Prop where
  | nil (s : σ) : Run step s [] s
  | cons {s t u : σ} {e : ε} {es : List ε} : step s e t → Run step t es u → Run step s (e :: es) u

/-- The steps of a machine given by a function, restricted to those that meet `ok`. -/
def Steps (next : σ → ε → σ) (ok : σ → ε → Prop) (s : σ) (e : ε) (t : σ) : Prop :=
  ok s e ∧ t = next s e

theorem Run.invariant {step : σ → ε → σ → Prop} {inv : σ → Prop}
    (keep : ∀ s e t, inv s → step s e t → inv t) {s t : σ} {es : List ε}
    (run : Run step s es t) (start : inv s) : inv t := by
  induction run with
  | nil => exact start
  | cons hstep _ ih => exact ih (keep _ _ _ start hstep)

theorem Run.append {step : σ → ε → σ → Prop} {s t u : σ} {es es' : List ε} (run : Run step s es t)
    (run' : Run step t es' u) : Run step s (es ++ es') u := by
  induction run with
  | nil => exact run'
  | cons hstep _ ih => exact .cons hstep (ih run')

/-- Every run of the first machine is matched, label for label, by one of the second. -/
theorem Run.simulates {step : σ → ε → σ → Prop} {step' : τ → ε → τ → Prop} {R : σ → τ → Prop}
    (match_step : ∀ s a e t, R s a → step s e t → ∃ b, step' a e b ∧ R t b)
    {s t : σ} {es : List ε} (run : Run step s es t) {a : τ} (start : R s a) :
    ∃ b, Run step' a es b ∧ R t b := by
  induction run generalizing a with
  | nil => exact ⟨a, .nil a, start⟩
  | cons hstep _ ih =>
    obtain ⟨b, hb, hR⟩ := match_step _ _ _ _ start hstep
    obtain ⟨c, hc, hR'⟩ := ih hR
    exact ⟨c, .cons hb hc, hR'⟩

/-- Every step of the first machine is matched by a run of the second, whose labels are among those
that the step allows. -/
theorem Run.expands {ι : Type*} {step : σ → ε → σ → Prop} {step' : τ → ι → τ → Prop}
    {R : σ → τ → Prop} {labels : ε → List ι → Prop}
    (match_step : ∀ s a e t, R s a → step s e t → ∃ is b, labels e is ∧ Run step' a is b ∧ R t b)
    {s t : σ} {es : List ε} (run : Run step s es t) {a : τ} (start : R s a) :
    ∃ iss b, List.Forall₂ labels es iss ∧ Run step' a iss.flatten b ∧ R t b := by
  induction run generalizing a with
  | nil => exact ⟨[], a, .nil, .nil a, start⟩
  | cons hstep _ ih =>
    obtain ⟨is, b, hlabels, hrun, hR⟩ := match_step _ _ _ _ start hstep
    obtain ⟨iss, c, hall, hrest, hR'⟩ := ih hR
    exact ⟨is :: iss, c, .cons hlabels hall, hrun.append hrest, hR'⟩

/-- Steps that leave the state as it is can be left out of a run. -/
theorem Run.erase {ι : Type*} {step : σ → ε → σ → Prop} {step' : σ → ι → σ → Prop}
    {visible : ε → Option ι} (hidden : ∀ s e t, step s e t → visible e = none → t = s)
    (shown : ∀ s e t i, step s e t → visible e = some i → step' s i t)
    {s t : σ} {es : List ε} (run : Run step s es t) : Run step' s (es.filterMap visible) t := by
  induction run with
  | nil s => exact .nil s
  | @cons s u t e es hstep _ ih =>
    cases he : visible e with
    | none =>
      rw [List.filterMap_cons_none he, ← hidden s e u hstep he]
      exact ih
    | some i =>
      rw [List.filterMap_cons_some he]
      exact .cons (shown s e u i hstep he) ih

/-! ## Runs that come to an end -/

section Ranked

variable {step : σ → ε → σ → Prop} {rank : σ → Nat}

/-- A run is no longer than what it uses up of the rank. -/
theorem Run.length_add_le (decreases : ∀ s e t, step s e t → rank t < rank s) {s t : σ}
    {es : List ε} (run : Run step s es t) : es.length + rank t ≤ rank s := by
  induction run with
  | nil s => exact Nat.le_of_eq (Nat.zero_add _)
  | cons hstep _ ih =>
    have hlt := decreases _ _ _ hstep
    rw [List.length_cons]
    omega

/-- From every state there is a run that cannot be continued. -/
theorem Run.exists_stuck (decreases : ∀ s e t, step s e t → rank t < rank s) (s : σ) :
    ∃ es t, Run step s es t ∧ ∀ e u, ¬ step t e u := by
  induction hn : rank s using Nat.strongRecOn generalizing s with
  | ind n ih =>
    by_cases hstuck : ∀ e u, ¬ step s e u
    · exact ⟨[], s, .nil s, hstuck⟩
    · push Not at hstuck
      obtain ⟨e, t, hstep⟩ := hstuck
      obtain ⟨es, u, run, hu⟩ := ih (rank t) (hn ▸ decreases s e t hstep) t rfl
      exact ⟨e :: es, u, .cons hstep run, hu⟩

end Ranked

/-! ## Machines that can fail -/

section Fallible

variable {φ ι : Type*} {next : σ → ε → Except φ σ} {ok : σ → ε → Prop}

/-- Every label may be given to the machine in the state that it meets. -/
def Allowed (next : σ → ε → Except φ σ) (ok : σ → ε → Prop) : σ → List ε → Prop
  | _, [] => True
  | s, e :: es => ok s e ∧ ∀ t, next s e = .ok t → Allowed next ok t es

theorem Allowed.cons {s t : σ} {e : ε} {es : List ε} (hok : ok s e) (hnext : next s e = .ok t)
    (rest : Allowed next ok t es) : Allowed next ok s (e :: es) := by
  refine ⟨hok, fun t' ht' => ?_⟩
  obtain rfl := Except.ok.inj (hnext.symm.trans ht')
  exact rest

/-- The machine runs through all the labels, or up to one on which it fails. -/
theorem Run.of_allowed {s : σ} {es : List ε} (h : Allowed next ok s es) :
    (∃ t, es.foldlM next s = .ok t ∧ Run (fun s e t => ok s e ∧ next s e = .ok t) s es t) ∨
      ∃ before e after t f, es = before ++ e :: after ∧
        Run (fun s e t => ok s e ∧ next s e = .ok t) s before t ∧ ok t e ∧
        next t e = .error f ∧ es.foldlM next s = .error f := by
  induction es generalizing s with
  | nil => exact .inl ⟨s, rfl, .nil s⟩
  | cons e es ih =>
    obtain ⟨hok, hrest⟩ := h
    rw [List.foldlM_cons]
    cases hnext : next s e with
    | error f => exact .inr ⟨[], e, es, s, f, rfl, .nil s, hok, hnext, rfl⟩
    | ok t =>
      obtain ⟨u, hfold, hrun⟩ | ⟨before, e', after, u, f, rfl, hrun, hok', hfail, hfold⟩ :=
        ih (hrest t hnext)
      · exact .inl ⟨u, hfold, .cons ⟨hok, hnext⟩ hrun⟩
      · exact .inr ⟨e :: before, e', after, u, f, rfl, .cons ⟨hok, hnext⟩ hrun, hok', hfail, hfold⟩

theorem foldlM_flatMap (f : ι → List ε) (xs : List ι) (s : σ) :
    (xs.flatMap f).foldlM next s = xs.foldlM (fun s x => (f x).foldlM next s) s := by
  induction xs generalizing s with
  | nil => rfl
  | cons x xs ih =>
    rw [List.flatMap_cons, List.foldlM_append, List.foldlM_cons]
    exact congrArg _ (funext ih)

/-- A part of the state that evolves by itself. -/
theorem foldlM_proj {next' : τ → ε → Except φ τ} {g : σ → τ}
    (h : ∀ s e, next' (g s) e = (next s e).map g) (es : List ε) (s : σ) :
    es.foldlM next' (g s) = (es.foldlM next s).map g := by
  induction es generalizing s with
  | nil => rfl
  | cons e es ih =>
    rw [List.foldlM_cons, List.foldlM_cons, h]
    cases next s e with
    | error f => rfl
    | ok t => exact ih t

end Fallible

end Library
