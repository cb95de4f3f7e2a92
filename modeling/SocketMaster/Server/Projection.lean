import SocketMaster.Server.Events

/-!
# The server as its connections

What the loop does to one connection object is a run of that object: it is opened, read,
processed, written and closed, by the calls that a single connection can have, and it sees nothing
of the other clients but the channel buffer. So what is known of every state that a connection can
get into holds in the server.
-/
namespace SocketMaster.Loop

open Library

variable {cs : CharSign} {s t : Loop} {fd : Int} {e : Event}

/-- What an event of the loop may be for the connection object of `fd`. -/
inductive Projects (fd : Int) : Event → List AppConn.Event → Prop where
  | unseen {e : Event} (accept : e ≠ .accept fd) (hangup : e ≠ .hangup fd)
      (readable : ∀ i, e ≠ .readable fd i) : Projects fd e []
  | refused : Projects fd (.accept fd) []
  | accepted : Projects fd (.accept fd) [.init fd]
  | hungup : Projects fd (.hangup fd) [.close]
  | broken (i : ReadInput) : Projects fd (.readable fd i) [.read i.errno i.calls, .close]
  | read (i : ReadInput) (channel : List UInt8) :
      Projects fd (.readable fd i) [.read i.errno i.calls, .process i.env i.tail channel]
  | written (w : Int → WriteInput) (saveErrno : Nat) : Projects fd (.batchEnd w)
      [.write true (w fd).arrays (w fd).errno saveErrno (w fd).calls]

/-- One event. -/
theorem step_projects (booked : s.Booked) (step : Step cs s e t) : ∃ events,
    Projects fd e events ∧
      Run (AppConn.Step cs) (s.server.conn fd) events (t.server.conn fd) := by
  obtain ⟨hno, hconn, -⟩ | ⟨e', he', heffect⟩ := next_effect booked.nodup fd step.2
  · refine ⟨[], ?_, hconn ▸ .nil _⟩
    cases e with
    | wait | other => exact .unseen (by simp) (by simp) (by simp)
    | accept | hangup | readable | batchEnd => cases hno
  generalize actionsOf fd (s.log cs e) = acts at heffect
  cases heffect with
  | elsewhere given conn =>
    have hread : ∀ i, e ≠ .readable fd i := by
      rintro i rfl
      cases he'
      rw [SocketServer.givenTo, if_pos rfl] at given
      exact i.given_ne_nil given
    have hhangup : e ≠ .hangup fd := by
      rintro rfl
      cases he'
      rw [SocketServer.givenTo, if_pos rfl] at given
      cases given
    rw [conn]
    by_cases haccept : e = .accept fd
    · exact ⟨[], haccept ▸ .refused, .nil _⟩
    · exact ⟨[], .unseen haccept hhangup hread, .nil _⟩
  | accepted conn =>
    obtain rfl := Event.eq_ofServer he'
    obtain hconn | hconn := conn <;> rw [hconn]
    · exact ⟨[], .refused, .nil _⟩
    · exact ⟨_, .accepted, .cons (.init _ fd) (.nil _)⟩
  | hungup conn =>
    obtain rfl := Event.eq_ofServer he'
    rw [conn]
    exact ⟨_, .hungup, .cons (.close _) (.nil _)⟩
  | broken i closes conn =>
    obtain rfl := Event.eq_ofServer he'
    rw [conn]
    exact ⟨_, .broken i, .cons (.read _ i.errno i.calls) (.cons (.close _) (.nil _))⟩
  | read i stays result conn =>
    obtain rfl := Event.eq_ofServer he'
    rw [conn]
    exact ⟨_, .read i s.server.channel,
      .cons (.read _ i.errno i.calls) (.cons (.process _ i.env i.tail _ result) (.nil _))⟩
  | written w saveErrno member pending conn =>
    obtain rfl := Event.eq_ofServer he'
    have hdeal : (s.server.conn fd).dealWrite true (w fd).arrays (w fd).errno saveErrno
        (w fd).calls = (s.server.conn fd).write_ true (w fd).arrays (w fd).errno saveErrno
          (w fd).calls := if_pos pending
    rw [conn, hdeal]
    exact ⟨_, .written w saveErrno, .cons (.write ..) (.nil _)⟩

/-- In every run of the loop, what has been done to the object of any descriptor is a run of that
object from its construction, made of what each event may be for it; so it is in a state that a
connection can get into. -/
theorem projects_of_run (cs : CharSign) (junk : Int → (Nat → UInt8) × (Nat → UInt8))
    (events : List Event) (s : Loop) (run : Run (Step cs) (start junk) events s) (fd : Int) :
    (∃ projected, List.Forall₂ (Projects fd) events projected ∧
        Run (AppConn.Step cs) (.new (junk fd).1 (junk fd).2) projected.flatten
          (s.server.conn fd)) ∧
      (s.server.conn fd).Reachable cs := by
  have hmatch : ∀ (s : Loop) (c : AppConn) (e : Event) (t : Loop),
      (s.Booked ∧ s.server.conn fd = c) → Step cs s e t →
        ∃ is b, Projects fd e is ∧ Run (AppConn.Step cs) c is b ∧
          t.Booked ∧ t.server.conn fd = b := by
    rintro s c e t ⟨booked, rfl⟩ step
    obtain ⟨is, hprojects, hrun⟩ := step_projects booked step
    exact ⟨is, _, hprojects, hrun, booked.step step, rfl⟩
  obtain ⟨projected, c, hall, hrun, -, rfl⟩ := run.expands hmatch ⟨booked_start junk, rfl⟩
  exact ⟨⟨projected, hall, hrun⟩, _, _, _, hrun⟩

theorem projects_of_run_accepted :
    (∃ projected, List.Forall₂ (Projects 5)
        [.wait [], .accept 5, .batchEnd SocketServer.takesAll] projected ∧
        Run (AppConn.Step .signed) (.new (SocketServer.zeros 5).1 (SocketServer.zeros 5).2)
          projected.flatten (accepted.server.conn 5)) ∧
      (accepted.server.conn 5).Reachable .signed :=
  projects_of_run .signed SocketServer.zeros _ accepted run_accepted 5

end SocketMaster.Loop
