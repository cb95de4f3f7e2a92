import SocketMaster.Server.Basic
import Mathlib.Data.Set.Card

/-!
# The limit on the number of connections

`init` compares `userCount` with the limit, but only `Close` ever changes it. From the first
client on, the count is wrong, and no client is ever refused.
-/
namespace SocketMaster

open Library

namespace AppManager

/-- The descriptors whose connection object is open. -/
def openFds (m : AppManager) : Set Int := {fd | (m.users fd).isClose = false}

/-- The limit is enforced: `userCount` is the number of open connections, and `init` refuses a
client, and then changes nothing, exactly if that is the largest there may be. -/
structure LimitEnforced (m : AppManager) : Prop where
  count : m.userCount = m.openFds.ncard
  nonneg : 0 ≤ m.userCount
  le_maxFd : m.userCount ≤ maxFd
  refuses : ∀ fd, (m.init fd).1 = -1 ↔ (m.openFds.ncard : Int) = maxFd
  unchanged : ∀ fd, (m.init fd).1 = -1 → (m.init fd).2 = m

/-- From the first manager to the second, no connection is opened, and one that is closed is
counted. -/
structure Closes (m m' : AppManager) : Prop where
  count : m'.userCount ≤ m.userCount
  subset : m'.openFds ⊆ m.openFds
  same : m'.userCount = m.userCount → m'.openFds = m.openFds

namespace Closes

variable {m m' m'' : AppManager} {fd : Int}

theorem refl (m : AppManager) : Closes m m := ⟨le_refl _, subset_rfl, fun _ => rfl⟩

theorem trans (h : Closes m m') (h' : Closes m' m'') : Closes m m'' := by
  refine ⟨h'.count.trans h.count, h'.subset.trans h.subset, fun heq => ?_⟩
  have h1 := h.count
  have h2 := h'.count
  rw [h'.same (by omega), h.same (by omega)]

end Closes

variable {m m' : AppManager} {fd : Int} {c : AppConn}

theorem openFds_set : (m.set fd c).openFds =
    {i | i ≠ fd ∧ i ∈ m.openFds ∨ i = fd ∧ c.isClose = false} := by
  ext i
  by_cases h : i = fd
  · simp [openFds, set, h]
  · simp [openFds, set, h]

theorem closes_set (h : c.isClose = (m.users fd).isClose) : Closes m (m.set fd c) := by
  have hopen : (m.set fd c).openFds = m.openFds := by
    rw [openFds_set]
    ext i
    by_cases hi : i = fd
    · simp [hi, h, openFds]
    · simp [hi]
  exact ⟨le_refl _, hopen.subset, fun _ => hopen⟩

theorem closes_close (h : m.close fd = .ok m') : Closes m m' ∧ m'.userCount < m.userCount := by
  rw [close] at h
  split_ifs at h
  cases h
  refine ⟨⟨?_, ?_, ?_⟩, ?_⟩
  · show m.userCount - 1 ≤ m.userCount
    omega
  · intro i hi
    by_cases hfd : i = fd
    · subst hfd
      simp only [openFds, set, Set.mem_ofPred_eq, Function.update_self, AppConn.close] at hi
      split_ifs at hi with hclose
      exact hi
    · simpa [openFds, set, hfd] using hi
  · intro heq
    exact absurd heq (show m.userCount - 1 ≠ m.userCount by omega)
  · show m.userCount - 1 < m.userCount
    omega

end AppManager

namespace SocketServer

open SocketMaster.AppManager (Closes closes_set closes_close LimitEnforced)

variable {cs : CharSign} {s t : SocketServer} {fd : Int} {log : Log}

theorem closes_closeConn (h : s.closeConn fd = .ok t) :
    Closes s.manager t.manager ∧ t.manager.userCount < s.manager.userCount := by
  obtain ⟨manager, hclose, rfl⟩ := closeConn_ok h
  exact closes_close hclose

theorem closes_dealRead {i : ReadInput} (h : s.dealRead cs fd i = .ok (t, log)) :
    Closes s.manager t.manager := by
  have hread : Closes s.manager (s.setConn fd ((s.conn fd).read_ i.errno i.calls).conn).manager :=
    closes_set (AppConn.flags_read_ ..).1
  obtain ⟨-, hclose, -⟩ | ⟨-, p, hp, rfl, -⟩ := dealRead_ok h
  · exact hread.trans (closes_closeConn hclose).1
  · exact closes_set ((AppConn.flags_process hp).1.trans (AppConn.flags_read_ ..).1)

theorem closes_writeLoop {w : Int → WriteInput} {writeErrno : Nat} {fds : List Int}
    (h : s.writeLoop w writeErrno fds = .ok (t, log)) : Closes s.manager t.manager := by
  induction fds generalizing s writeErrno log with
  | nil =>
    cases h
    exact .refl _
  | cons fd fds ih =>
    have hwrite : Closes s.manager (s.setConn fd
        ((s.conn fd).dealWrite true (w fd).arrays (w fd).errno writeErrno (w fd).calls).conn).manager :=
      closes_set (AppConn.flags_dealWrite ..).1
    obtain ⟨log', hrest, -⟩ := writeLoop_cons_ok h
    exact hwrite.trans (ih hrest)

/-- Only `accept` opens a connection. -/
theorem closes_next {e : Event} (h : s.next cs e = .ok (t, log)) (he : ∀ fd, e ≠ .accept fd) :
    Closes s.manager t.manager := by
  cases e with
  | accept fd => exact absurd rfl (he fd)
  | hangup fd => exact (closes_closeConn (hangup_ok h).1).1
  | readable fd i => exact closes_dealRead (s := s.setEpoll fd (some false)) h
  | batchEnd w => exact closes_writeLoop h

/-- Once a client has been accepted, there is an open connection, or one has been counted off
that was never counted. -/
structure Miscounted (m : AppManager) : Prop where
  nonpos : m.userCount ≤ 0
  finite : m.openFds.Finite
  wrong : m.openFds.Nonempty ∨ m.userCount < 0

theorem Miscounted.closes {m m' : AppManager} (h : Miscounted m) (hc : Closes m m') :
    Miscounted m' := by
  refine ⟨hc.count.trans h.nonpos, h.finite.subset hc.subset, ?_⟩
  by_cases hsame : m'.userCount = m.userCount
  · rw [hc.same hsame, hsame]
    exact h.wrong
  · have hcount := hc.count
    have hnonpos := h.nonpos
    exact .inr (by omega)

theorem Miscounted.not_limitEnforced {m : AppManager} (h : Miscounted m) : ¬ LimitEnforced m := by
  intro hlimit
  have hnonneg := hlimit.nonneg
  obtain hopen | hneg := h.wrong
  · have hpos := (Set.ncard_pos h.finite).mpr hopen
    have hcount := hlimit.count
    have hnonpos := h.nonpos
    omega
  · omega

/-- No client is refused while the count is not positive. -/
theorem miscounted_addClient (hnonpos : s.manager.userCount ≤ 0) (hfinite : s.manager.openFds.Finite)
    (fd : Int) : Miscounted (s.addClient fd).manager := by
  have hinit : s.manager.init fd = (0, s.manager.set fd ((s.conn fd).init fd)) := by
    rw [AppManager.init, if_neg (by rw [maxFd]; omega)]
    rfl
  have hadd : (s.addClient fd).manager = s.manager.set fd ((s.conn fd).init fd) := by
    rw [addClient, hinit]
    rfl
  rw [hadd]
  refine ⟨hnonpos, ?_, .inl ⟨fd, ?_⟩⟩
  · rw [AppManager.openFds_set]
    refine (hfinite.insert fd).subset fun i hi => ?_
    obtain ⟨-, hi⟩ | ⟨rfl, -⟩ := hi
    · exact Set.mem_insert_of_mem fd hi
    · exact Set.mem_insert i _
  · rw [AppManager.openFds_set]
    exact .inr ⟨rfl, rfl⟩

/-! ## Runs -/

def Event.IsAccept (e : Event) : Prop := ∃ fd, e = .accept fd

theorem Miscounted.run {events : List Event} (run : Run (Step cs) s events t)
    (h : Miscounted s.manager) : Miscounted t.manager := by
  have keep : ∀ s e t, Miscounted s.manager → Step cs s e t → Miscounted t.manager := by
    rintro s e t hs ⟨-, log, hnext⟩
    by_cases he : e.IsAccept
    · obtain ⟨fd, rfl⟩ := he
      cases hnext
      exact miscounted_addClient hs.nonpos hs.finite fd
    · exact hs.closes (closes_next hnext fun fd hfd => he ⟨fd, hfd⟩)
  exact run.invariant keep h

variable (junk : Int → (Nat → UInt8) × (Nat → UInt8))

@[simp] theorem openFds_start : (start junk).manager.openFds = ∅ := by
  ext fd
  simp [AppManager.openFds, start, AppConn.new]

theorem limitEnforced_start : LimitEnforced (start junk).manager := by
  have hinit : ∀ fd, ((start junk).manager.init fd).1 = 0 := fun fd => rfl
  have hcount : (start junk).manager.userCount = 0 := rfl
  refine ⟨?_, hcount.ge, hcount.trans_le (by decide), fun fd => ?_, fun fd h => ?_⟩
  · rw [openFds_start, Set.ncard_empty, hcount]
    rfl
  · rw [hinit, openFds_start, Set.ncard_empty]
    decide
  · rw [hinit] at h
    exact absurd h (by decide)

variable {junk}

/-- Until the first client is accepted, nothing happens. -/
theorem step_start {e : Event} (h : Step cs (start junk) e t) (he : ¬ e.IsAccept) :
    t = start junk := by
  obtain ⟨henabled, log, hnext⟩ := h
  cases e with
  | accept fd => exact absurd ⟨fd, rfl⟩ he
  | hangup fd => cases henabled
  | readable fd i => cases henabled
  | batchEnd w =>
    cases hnext
    rfl

theorem run_start {events : List Event} (run : Run (Step cs) (start junk) events s) :
    (∀ e ∈ events, ¬ e.IsAccept) ∧ s = start junk ∨
      (∃ e ∈ events, e.IsAccept) ∧ Miscounted s.manager := by
  induction events with
  | nil =>
    cases run
    exact .inl ⟨by simp, rfl⟩
  | cons e events ih =>
    cases run with
    | cons step rest =>
      by_cases he : e.IsAccept
      · refine .inr ⟨⟨e, List.mem_cons_self, he⟩, ?_⟩
        obtain ⟨fd, rfl⟩ := he
        obtain ⟨-, log, hnext⟩ := step
        cases hnext
        exact (miscounted_addClient (le_refl _) (by simp) fd).run rest
      · rw [step_start step he] at rest
        obtain ⟨hnone, rfl⟩ | ⟨⟨e', he', haccept⟩, hwrong⟩ := ih rest
        · exact .inl ⟨List.forall_mem_cons.mpr ⟨he, hnone⟩, rfl⟩
        · exact .inr ⟨⟨e', List.mem_cons_of_mem e he', haccept⟩, hwrong⟩

/-- The limit is enforced exactly as long as there has been no client. -/
theorem limitEnforced_iff {events : List Event} (run : Run (Step cs) (start junk) events s) :
    LimitEnforced s.manager ↔ ∀ e ∈ events, ¬ e.IsAccept := by
  obtain ⟨hnone, rfl⟩ | ⟨⟨e, he, haccept⟩, hwrong⟩ := run_start run
  · exact iff_of_true (limitEnforced_start junk) hnone
  · exact iff_of_false hwrong.not_limitEnforced fun hnone => hnone e he haccept

/-- An idle server. -/
theorem limitEnforced_idle : LimitEnforced (start zeros).manager := by
  have step : Step .signed (start zeros) (.batchEnd fun _ => ⟨fun _ => 0, 0, .zero⟩) (start zeros) :=
    ⟨trivial, [], rfl⟩
  refine (limitEnforced_iff (.cons step (.nil _))).mpr fun e he => ?_
  rw [List.mem_singleton.mp he]
  rintro ⟨fd, h⟩
  cases h

/-- The first client. -/
theorem not_limitEnforced_one_client :
    Run (Step .signed) (start zeros) [.accept 5] ((start zeros).addClient 5) ∧
      ¬ LimitEnforced ((start zeros).addClient 5).manager :=
  ⟨.cons (step_accept _ _ _ (by decide) (by decide)) (.nil _),
    (miscounted_addClient (le_refl _) (by simp) 5).not_limitEnforced⟩

end SocketServer

end SocketMaster
