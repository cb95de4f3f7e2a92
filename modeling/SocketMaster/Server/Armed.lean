import SocketMaster.Server.Events

/-!
# One-shot descriptors

`EPOLLONESHOT` disarms a descriptor when it is reported, and only `DealRead_` arms it again. An
event that is neither a hang-up nor input is logged and forgotten, so its descriptor stays open and
is never heard of again. Every other open connection is armed as soon as the loop has come to it,
and can be reported in the next batch, whatever has happened to it and to the others.
-/
namespace SocketMaster.Loop

open Library

variable {cs : CharSign} {s t : Loop} {fd : Int} {e : Event}

/-- The connection has had an event that is only logged, as far as this event goes. -/
def mute (fd : Int) (muted : Bool) : Event → Bool
  | .accept fd' => if fd' = fd then false else muted
  | .other fd' => if fd' = fd then true else muted
  | _ => muted

/-- The last `accept` of the descriptor is followed by an event that is only logged. -/
def muted (fd : Int) (events : List Event) : Bool := events.foldl (mute fd) false

/-- `Wait` reports nothing that is disarmed. -/
def ReportsArmed (s : Loop) : Event → Prop
  | .wait reported => ∀ fd ∈ reported, s.server.epoll fd = some true
  | _ => True

/-- A step of the loop on a kernel that keeps to `EPOLLONESHOT`. -/
def OneShot (cs : CharSign) (s : Loop) (e : Event) (t : Loop) : Prop :=
  ReportsArmed s e ∧ Step cs s e t

/-- The descriptor that a batch has come to. -/
def Event.about? : Event → Option Int
  | .hangup fd => some fd
  | .readable fd _ => some fd
  | .other fd => some fd
  | _ => none

theorem about_pending (enabled : s.Enabled e) (h : e.about? = some fd) :
    s.pending.head? = some fd := by
  cases e with
  | hangup | readable | other =>
    cases h
    exact enabled.2
  | wait | accept | batchEnd => cases h

/-- The descriptors that an event finds ready. -/
def Event.reports : Event → List Int
  | .wait reported => reported
  | _ => []

/-- What the loop knows of an open connection: it is armed unless it is muted or waits to be
handled, which a muted one does not. -/
structure Listening (s : Loop) (fd : Int) (muted : Bool) : Prop where
  epoll : fd ∈ s.server.fdSet → s.server.epoll fd = some (!muted && decide (fd ∉ s.pending))
  pending : muted = true → fd ∉ s.pending
  idle : s.inBatch = false → s.pending = []

/-- A muted connection is not reported. -/
theorem Listening.not_reported (h : s.Listening fd true) (booked : s.Booked)
    (hreports : ReportsArmed s e) : fd ∉ e.reports := by
  intro hin
  cases e with
  | wait reported =>
    have harmed := hreports fd hin
    have hmem := (booked.agreed fd).epoll.mp (by rw [harmed]; exact Option.some_ne_none true)
    rw [h.epoll hmem, Bool.not_true, Bool.false_and] at harmed
    cases harmed
  | accept | hangup | readable | other | batchEnd => cases hin

/-- A descriptor that is refused, or that is not open, is no connection. -/
theorem epoll_addClient (s : SocketServer) (fd : Int) (hnot : fd ∉ s.fdSet)
    (hmem : fd ∈ (s.addClient fd).fdSet) : (s.addClient fd).epoll fd = some true := by
  rw [SocketServer.addClient] at hmem ⊢
  split_ifs at hmem ⊢
  · exact absurd hmem hnot
  · exact Function.update_self ..

theorem epoll_dealRead {s t : SocketServer} {i : ReadInput} {log : Log} (hnodup : s.fdSet.Nodup)
    (h : s.next cs (.readable fd i) = .ok (t, log)) (hmem : fd ∈ t.fdSet) :
    t.epoll fd = some true := by
  obtain ⟨-, hclose, -⟩ | ⟨-, p, -, rfl, -⟩ := SocketServer.dealRead_ok h
  · obtain ⟨-, -, hnot, -⟩ := SocketServer.closeConn_cases
      (s := (s.setEpoll fd (some false)).setConn fd ((s.conn fd).read_ i.errno i.calls).conn)
      hnodup hclose
    exact absurd hmem hnot
  · exact Function.update_self ..

/-- An event for other descriptors, and the end of a batch. -/
theorem epoll_elsewhere (hnodup : s.server.fdSet.Nodup) (step : Step cs s e t)
    (haccept : e ≠ .accept fd) (hreports : fd ∉ e.reports) (habout : e.about? ≠ some fd) :
    t.server.epoll fd = s.server.epoll fd ∧ (fd ∈ t.server.fdSet ↔ fd ∈ s.server.fdSet) := by
  obtain ⟨-, hnext⟩ := step
  cases he : e.server? with
  | none =>
    obtain ⟨-, hset⟩ := next_none hnext he
    refine ⟨?_, by rw [hset]⟩
    cases e with
    | wait reported =>
      cases hnext
      exact if_neg hreports
    | other =>
      cases hnext
      rfl
    | accept | hangup | readable | batchEnd => cases he
  | some e' =>
    have hserver := next_server e' hnext he
    have heffect := SocketServer.effect_next hnodup fd hserver
    generalize actionsOf fd (s.log cs e) = acts at heffect
    cases heffect with
    | elsewhere _ _ epoll mem => exact ⟨epoll, mem⟩
    | accepted => exact absurd (Event.eq_ofServer he) haccept
    | hungup | broken | read =>
      obtain rfl := Event.eq_ofServer he
      exact absurd rfl habout
    | written w =>
      obtain ⟨hepoll, hset, -⟩ := SocketServer.writeLoop_cases fd hserver
      exact ⟨by rw [hepoll], by rw [hset]⟩

/-- A descriptor that is reported. -/
theorem epoll_reported {reported : List Int} (hnext : s.next cs (.wait reported) = .ok t)
    (harmed : s.server.epoll fd = some true) (hin : fd ∈ reported) :
    t.server.epoll fd = some false := by
  cases hnext
  dsimp only
  rw [SocketServer.epoll_disarm, if_pos hin, harmed]
  rfl

/-- A descriptor that the handling of another one leaves in the batch. -/
theorem mem_pending_tail {fd' : Int} (hhead : s.pending.head? = some fd') (hne : fd' ≠ fd) :
    fd ∈ s.pending.tail ↔ fd ∈ s.pending := by
  obtain ⟨rest, hpending⟩ := List.head?_eq_some_iff.mp hhead
  rw [hpending, List.tail_cons, List.mem_cons, or_iff_right (Ne.symm hne)]

/-- Between two batches nothing waits to be handled. -/
theorem idle_step (step : Step cs s e t) : t.inBatch = false → t.pending = [] := by
  obtain ⟨enabled, hnext⟩ := step
  have hbatch := next_batch hnext
  intro hidle
  cases e with
  | wait reported => rw [hbatch.2] at hidle; cases hidle
  | accept | hangup | readable | other => rw [hbatch.2, enabled.1] at hidle; cases hidle
  | batchEnd w => rw [hbatch.1, enabled.2]

/-- One event. -/
theorem Listening.step {muted : Bool} (h : s.Listening fd muted) (booked : s.Booked)
    (step : OneShot cs s e t) : t.Listening fd (mute fd muted e) := by
  obtain ⟨hreports, hstep⟩ := step
  have enabled := hstep.1
  have hbatch := next_batch hstep.2
  have hidle := idle_step hstep
  -- an event that leaves the descriptor where it is
  have hkept : mute fd muted e = muted → e ≠ .accept fd → fd ∉ e.reports → e.about? ≠ some fd →
      (fd ∈ t.pending ↔ fd ∈ s.pending) → t.Listening fd (mute fd muted e) := by
    intro hmute haccept hnot habout hpending
    obtain ⟨hepoll, hmem⟩ := epoll_elsewhere booked.nodup hstep haccept hnot habout
    rw [hmute]
    refine ⟨fun hin => ?_, fun hmuted hin => h.pending hmuted (hpending.mp hin), hidle⟩
    rw [hepoll, h.epoll (hmem.mp hin)]
    simp only [hpending]
  cases e with
  | wait reported =>
    obtain ⟨hpending, -⟩ := hbatch
    have hnone : s.pending = [] := h.idle enabled.1
    by_cases hin : fd ∈ reported
    · have hmuted : muted = false := by
        by_contra hne
        obtain rfl := eq_true_of_ne_false hne
        exact h.not_reported booked hreports hin
      subst hmuted
      refine ⟨fun _ => ?_, fun hfalse => absurd hfalse Bool.false_ne_true, hidle⟩
      have hwaits : decide (fd ∉ t.pending) = false :=
        decide_eq_false (not_not.mpr (hpending ▸ hin))
      rw [epoll_reported hstep.2 (hreports fd hin) hin, hwaits, Bool.and_false]
    · refine hkept rfl (by simp) hin (by simp [Event.about?]) ?_
      rw [hpending, hnone]
      exact iff_of_false hin List.not_mem_nil
  | accept fd' =>
    by_cases hfd : fd' = fd
    · subst hfd
      have hnot : fd' ∉ s.server.fdSet := fun hmem => booked.not_accept hmem enabled
      have hserver := next_server (.accept fd') hstep.2 rfl
      have hadd : t.server = s.server.addClient fd' :=
        (congrArg Prod.fst (Except.ok.inj hserver)).symm
      have hfree : fd' ∉ t.pending := fun hin => hnot (booked.pending fd' (hbatch.1 ▸ hin))
      rw [mute, if_pos rfl]
      refine ⟨fun hin => ?_, fun hfalse => absurd hfalse Bool.false_ne_true, hidle⟩
      rw [hadd] at hin ⊢
      rw [epoll_addClient s.server fd' hnot hin, decide_eq_true hfree]
      rfl
    · refine hkept (if_neg hfd) (fun heq => hfd (Event.accept.inj heq)) List.not_mem_nil
        (by simp [Event.about?]) ?_
      rw [hbatch.1]
  | hangup fd' =>
    by_cases hfd : fd' = fd
    · subst hfd
      have hserver := next_server (.hangup fd') hstep.2 rfl
      obtain ⟨hclose, -⟩ := SocketServer.hangup_ok hserver
      obtain ⟨-, -, hmem, -⟩ := SocketServer.closeConn_cases
        (s := s.server.setEpoll fd' (some false)) booked.nodup hclose
      obtain ⟨-, hnot⟩ := booked.head_not_mem_tail enabled.2
      exact ⟨fun hin => absurd hin hmem, fun _ hin => hnot (hbatch.1 ▸ hin), hidle⟩
    · refine hkept rfl (by simp) List.not_mem_nil (fun heq => hfd (Option.some.inj heq)) ?_
      rw [hbatch.1, mem_pending_tail enabled.2 hfd]
  | readable fd' i =>
    by_cases hfd : fd' = fd
    · subst hfd
      have hserver := next_server (.readable fd' i) hstep.2 rfl
      obtain ⟨hin, hnot⟩ := booked.head_not_mem_tail enabled.2
      have hdone : fd' ∉ t.pending := fun hin => hnot (hbatch.1 ▸ hin)
      -- it is being handled, so it was not muted
      have hmuted : muted = false := by
        by_contra hne
        exact h.pending (eq_true_of_ne_false hne) hin
      subst hmuted
      refine ⟨fun hmem => ?_, fun _ => hdone, hidle⟩
      rw [epoll_dealRead booked.nodup hserver hmem, decide_eq_true hdone]
      rfl
    · refine hkept rfl (by simp) List.not_mem_nil (fun heq => hfd (Option.some.inj heq)) ?_
      rw [hbatch.1, mem_pending_tail enabled.2 hfd]
  | other fd' =>
    by_cases hfd : fd' = fd
    · subst hfd
      obtain ⟨hin, hnot⟩ := booked.head_not_mem_tail enabled.2
      have hdisarmed := h.epoll (booked.pending fd' hin)
      rw [decide_eq_false (not_not.mpr hin), Bool.and_false] at hdisarmed
      have hnext := hstep.2
      cases hnext
      rw [mute, if_pos rfl]
      exact ⟨fun _ => hdisarmed, fun _ hin => hnot hin, hidle⟩
    · refine hkept (if_neg hfd) (by simp) List.not_mem_nil
        (fun heq => hfd (Option.some.inj heq)) ?_
      rw [hbatch.1, mem_pending_tail enabled.2 hfd]
  | batchEnd w =>
    refine hkept rfl (by simp) List.not_mem_nil (by simp [Event.about?]) ?_
    rw [hbatch.1]

/-- A run. -/
theorem Listening.run {muted : Bool} {events : List Event} (run : Run (OneShot cs) s events t)
    (h : s.Listening fd muted) (booked : s.Booked) :
    t.Listening fd (events.foldl (mute fd) muted) := by
  induction run generalizing muted with
  | nil => exact h
  | cons hstep _ ih => exact ih (h.step booked hstep) (booked.step hstep.2)

theorem Booked.run {events : List Event} (h : s.Booked) (run : Run (OneShot cs) s events t) :
    t.Booked := run.invariant (fun _ _ _ h step => h.step step.2) h

/-- A muted connection is left alone from then on, and is still open. -/
theorem Listening.mute_forever {events : List Event} (run : Run (OneShot cs) s events t)
    (h : s.Listening fd true) (booked : s.Booked) (hmem : fd ∈ s.server.fdSet) :
    fd ∈ t.server.fdSet ∧ ∀ e ∈ events, e.about? ≠ some fd := by
  induction run with
  | nil => exact ⟨hmem, fun e he => absurd he List.not_mem_nil⟩
  | @cons s u t e events hstep _ ih =>
    have habout : e.about? ≠ some fd := fun habout =>
      h.pending rfl (List.mem_of_mem_head? (about_pending hstep.2.1 habout))
    have haccept : e ≠ .accept fd := fun heq => booked.not_accept hmem (heq ▸ hstep.2.1)
    have hmute : mute fd true e = true := by
      cases e with
      | accept fd' => exact if_neg fun heq => haccept (congrArg Event.accept heq)
      | other fd' => exact ite_self true
      | wait | hangup | readable | batchEnd => rfl
    obtain ⟨-, hset⟩ :=
      epoll_elsewhere booked.nodup hstep.2 haccept (h.not_reported booked hstep.1) habout
    obtain ⟨hopen, hrest⟩ :=
      ih (hmute ▸ h.step booked hstep) (booked.step hstep.2) (hset.mpr hmem)
    refine ⟨hopen, fun e' he' => ?_⟩
    obtain rfl | he' := List.mem_cons.mp he'
    · exact habout
    · exact hrest e' he'

/-- On a kernel that keeps to `EPOLLONESHOT`, an open connection is armed exactly if it is not
muted and does not wait to be handled, in every state of every run; and a muted one stays open and
is not reported again however the run goes on. -/
theorem armed_of_run (cs : CharSign) (junk : Int → (Nat → UInt8) × (Nat → UInt8))
    (events : List Event) (s : Loop) (run : Run (OneShot cs) (start junk) events s) (fd : Int)
    (hmem : fd ∈ s.server.fdSet) :
    s.server.epoll fd = some (!muted fd events && decide (fd ∉ s.pending)) ∧
      (muted fd events = true → ∀ later t, Run (OneShot cs) s later t →
        fd ∈ t.server.fdSet ∧ ∀ e ∈ later, e.about? ≠ some fd) := by
  have hstart : (start junk).Listening fd false :=
    ⟨fun hin => absurd hin List.not_mem_nil, fun hfalse => absurd hfalse Bool.false_ne_true,
      fun _ => rfl⟩
  have hlistening : s.Listening fd (muted fd events) := hstart.run run (booked_start junk)
  refine ⟨hlistening.epoll hmem, fun hmuted later t hlater => ?_⟩
  rw [hmuted] at hlistening
  exact hlistening.mute_forever hlater ((booked_start junk).run run) hmem

/-- A client that has neither hung up nor sent anything is reported all the same. -/
def logged : List Event :=
  [.wait [], .accept 5, .batchEnd SocketServer.takesAll, .wait [5], .other 5]

theorem armed_of_run_logged :
    (logged.foldl handled (start SocketServer.zeros)).server.epoll 5 =
        some (!muted 5 logged &&
          decide (5 ∉ (logged.foldl handled (start SocketServer.zeros)).pending)) ∧
      (muted 5 logged = true → ∀ later t,
        Run (OneShot .signed) (logged.foldl handled (start SocketServer.zeros)) later t →
          5 ∈ t.server.fdSet ∧ ∀ e ∈ later, e.about? ≠ some 5) := by
  refine armed_of_run .signed SocketServer.zeros logged _ ?_ 5 (by decide +kernel)
  refine .cons ⟨by nofun, step_handled ⟨rfl, by decide, by decide⟩ (by decide)⟩ ?_
  refine .cons ⟨trivial, step_handled ⟨rfl, by decide, rfl⟩ (by decide)⟩ ?_
  refine .cons ⟨trivial, step_handled ⟨rfl, rfl⟩ (by decide +kernel)⟩ ?_
  refine .cons ⟨List.forall_mem_singleton.mpr (by decide +kernel),
    step_handled ⟨rfl, by decide, by decide +kernel⟩ (by decide)⟩ ?_
  exact .cons ⟨trivial, step_handled ⟨rfl, rfl⟩ (by decide)⟩ (.nil _)

end SocketMaster.Loop
