import SocketMaster.Server.Basic
import SocketMaster.Conn.Contents

/-!
# What an event does to one client

`Effect` lists all that an event of the server can do to the connection under one descriptor,
whatever it does to the others. What holds in every run follows from it.
-/
namespace SocketMaster

open Library

/-- What a client gives to the server, and what the system calls made for it return. Each block
is one of its own, whichever other blocks the same event takes. -/
inductive Given where
  | read (block : Option Chunk) (env : Env)
  | write (lengths : List Nat)
  | hangup

/-- What a read event gives: its blocks in order, none where there is nothing yet, or the end of
the connection. -/
def ReadInput.given (i : ReadInput) : List Given :=
  if Broken (i.calls.chunks i.errno) (i.calls.ending i.errno) then [.hangup]
  else match i.calls.chunks i.errno with
    | [] => [.read none i.env.clean]
    | chunks => chunks.map fun chunk => .read (some chunk) i.env.clean

@[simp] theorem ReadInput.given_ne_nil (i : ReadInput) : i.given ≠ [] := by
  rw [given]
  split_ifs
  · simp
  · cases i.calls.chunks i.errno <;> simp

theorem ReadInput.given_of_broken {i : ReadInput}
    (h : Broken (i.calls.chunks i.errno) (i.calls.ending i.errno)) : i.given = [.hangup] := if_pos h

/-- An event that takes one block at most gives that. -/
theorem ReadInput.given_of_single {i : ReadInput}
    (h : ¬ Broken (i.calls.chunks i.errno) (i.calls.ending i.errno))
    (single : (i.calls.chunks i.errno).length ≤ 1) : ∃ block : Option Chunk,
      i.given = [.read block i.env.clean] ∧ i.calls.chunks i.errno = block.toList := by
  rw [given, if_neg h]
  cases hchunks : i.calls.chunks i.errno with
  | nil => exact ⟨none, rfl, rfl⟩
  | cons chunk chunks =>
    rw [hchunks, List.length_cons] at single
    obtain rfl : chunks = [] := List.length_eq_zero_iff.mp (by omega)
    exact ⟨some chunk, rfl, rfl⟩

/-- What the server has done for the connection `fd`. -/
def actionsOf (fd : Int) (log : Log) : List Action :=
  log.filterMap fun p => if p.1 = fd then some p.2 else none

@[simp] theorem actionsOf_append (fd : Int) (log log' : Log) :
    actionsOf fd (log ++ log') = actionsOf fd log ++ actionsOf fd log' := List.filterMap_append

theorem actionsOf_map (fd : Int) (acts : List Action) :
    actionsOf fd (acts.map (Prod.mk fd)) = acts := by
  simp [actionsOf, List.filterMap_map]

theorem actionsOf_map_of_ne {fd fd' : Int} (h : fd' ≠ fd) (acts : List Action) :
    actionsOf fd (acts.map (Prod.mk fd')) = [] := by
  simp [actionsOf, List.filterMap_map, h]

namespace SocketServer

variable {cs : CharSign} {s t : SocketServer} {fd fd' : Int} {log : Log}

theorem mem_insertFd {fds : List Int} : fd ∈ insertFd fds fd' ↔ fd = fd' ∨ fd ∈ fds := by
  rw [insertFd]
  split_ifs with h
  · exact ⟨.inr, fun hmem => hmem.elim (fun heq => heq ▸ h) id⟩
  · rw [List.mem_orderedInsert]

theorem nodup_insertFd {fds : List Int} (h : fds.Nodup) (fd : Int) : (insertFd fds fd).Nodup := by
  rw [insertFd]
  split_ifs with hmem
  · exact h
  · exact (List.perm_orderedInsert _ fd fds).nodup_iff.mpr (List.nodup_cons.mpr ⟨hmem, h⟩)

@[simp] theorem conn_setConn (c : AppConn) : (s.setConn fd c).conn fd = c :=
  Function.update_self ..

theorem conn_setConn_of_ne (c : AppConn) (h : fd ≠ fd') : (s.setConn fd' c).conn fd = s.conn fd :=
  Function.update_of_ne h ..

/-- What an event gives to the connection `fd`. -/
def givenTo (s : SocketServer) (fd : Int) : Event → List Given
  | .accept _ => []
  | .hangup fd' => if fd' = fd then [.hangup] else []
  | .readable fd' i =>
    if fd' = fd then i.given else []
  | .batchEnd w =>
    if fd ∈ s.fdSet ∧ (s.conn fd).toWriteBytes ≠ 0 then
      [.write ((w fd).calls.lengths (s.conn fd).toWriteBytes)]
    else []

/-- All that an event can do to the connection `fd`, and the actions for it. -/
inductive Effect (cs : CharSign) (s : SocketServer) (fd : Int) (t : SocketServer) :
    Event → List Action → Prop where
  | elsewhere {e : Event} (given : s.givenTo fd e = []) (conn : t.conn fd = s.conn fd)
      (epoll : t.epoll fd = s.epoll fd) (mem : fd ∈ t.fdSet ↔ fd ∈ s.fdSet) : Effect cs s fd t e []
  | accepted (conn : t.conn fd = s.conn fd ∨ t.conn fd = (s.conn fd).init fd) :
      Effect cs s fd t (.accept fd) []
  | hungup (conn : t.conn fd = (s.conn fd).close.2) (epoll : t.epoll fd = none)
      (mem : fd ∉ t.fdSet) : Effect cs s fd t (.hangup fd) []
  | broken (i : ReadInput)
      (closes : ((s.conn fd).read_ i.errno i.calls).ret ≤ 0 ∧
        ((s.conn fd).read_ i.errno i.calls).saveErrno ≠ eagain)
      (conn : t.conn fd = ((s.conn fd).read_ i.errno i.calls).conn.close.2)
      (epoll : t.epoll fd = none) (mem : fd ∉ t.fdSet) : Effect cs s fd t (.readable fd i) []
  | read (i : ReadInput) {p : Processed}
      (stays : ¬ (((s.conn fd).read_ i.errno i.calls).ret ≤ 0 ∧
        ((s.conn fd).read_ i.errno i.calls).saveErrno ≠ eagain))
      (result : (((s.conn fd).read_ i.errno i.calls).conn.process cs i.env i.tail s.channel).result =
        .ok p) (conn : t.conn fd = p.conn) :
      Effect cs s fd t (.readable fd i)
        ((((s.conn fd).read_ i.errno i.calls).conn.process cs i.env i.tail
          s.channel).dispatched.toList.map .dispatched ++ [.queued p.accepted])
  | written (w : Int → WriteInput) (saveErrno : Nat) (member : fd ∈ s.fdSet)
      (pending : (s.conn fd).toWriteBytes ≠ 0)
      (conn : t.conn fd =
        ((s.conn fd).dealWrite true (w fd).arrays (w fd).errno saveErrno (w fd).calls).conn) :
      Effect cs s fd t (.batchEnd w)
        [.sent ((s.conn fd).dealWrite true (w fd).arrays (w fd).errno saveErrno (w fd).calls).sent]

/-- Closing a connection, as the others and it itself see it. -/
theorem closeConn_cases (hnodup : s.fdSet.Nodup) (h : s.closeConn fd' = .ok t) :
    t.conn fd' = (s.conn fd').close.2 ∧ t.epoll fd' = none ∧ fd' ∉ t.fdSet ∧
      ∀ fd, fd ≠ fd' → t.conn fd = s.conn fd ∧ t.epoll fd = s.epoll fd ∧
        (fd ∈ t.fdSet ↔ fd ∈ s.fdSet) := by
  obtain ⟨manager, hclose, rfl⟩ := closeConn_ok h
  rw [close_ok hclose]
  refine ⟨Function.update_self .., Function.update_self .., hnodup.not_mem_erase, fun fd hne => ?_⟩
  exact ⟨Function.update_of_ne hne .., Function.update_of_ne hne .., List.mem_erase_of_ne hne⟩

theorem epoll_setEpoll_of_ne (state : Option Bool) (h : fd ≠ fd') :
    (s.setEpoll fd' state).epoll fd = s.epoll fd := Function.update_of_ne h ..

theorem effect_accept (cs : CharSign) (s : SocketServer) (fd fd' : Int) :
    Effect cs s fd (s.addClient fd') (.accept fd') [] := by
  have hmanager : (s.addClient fd').manager = (s.manager.init fd').2 := by
    rw [addClient]
    split_ifs <;> rfl
  by_cases hfd : fd' = fd
  · subst hfd
    refine .accepted ?_
    rw [conn, hmanager, AppManager.init]
    split_ifs
    · exact .inl rfl
    · exact .inr (Function.update_self ..)
  · have hne : fd ≠ fd' := Ne.symm hfd
    refine .elsewhere rfl ?_ ?_ ?_
    · rw [conn, hmanager, AppManager.init]
      split_ifs
      · rfl
      · exact Function.update_of_ne hne ..
    · rw [addClient]
      split_ifs
      · rfl
      · exact epoll_setEpoll_of_ne (some true) hne
    · rw [addClient]
      split_ifs
      · rfl
      · exact mem_insertFd.trans (or_iff_right hne)

theorem effect_hangup (hnodup : s.fdSet.Nodup) (fd : Int)
    (h : (s.setEpoll fd' (some false)).closeConn fd' = .ok t) :
    Effect cs s fd t (.hangup fd') [] := by
  obtain ⟨hconn, hepoll, hmem, hrest⟩ := closeConn_cases (s := s.setEpoll fd' (some false)) hnodup h
  by_cases hfd : fd' = fd
  · subst hfd
    exact .hungup hconn hepoll hmem
  · have hne : fd ≠ fd' := Ne.symm hfd
    obtain ⟨hconn, hepoll, hmem⟩ := hrest fd hne
    exact .elsewhere (if_neg hfd) hconn (hepoll.trans (epoll_setEpoll_of_ne _ hne)) hmem

theorem effect_readable (hnodup : s.fdSet.Nodup) (fd : Int) {i : ReadInput}
    (h : (s.setEpoll fd' (some false)).dealRead cs fd' i = .ok (t, log)) :
    Effect cs s fd t (.readable fd' i) (actionsOf fd log) := by
  obtain ⟨hcloses, hclose, rfl⟩ | ⟨hstays, p, hp, rfl, rfl⟩ := dealRead_ok h
  · obtain ⟨hconn, hepoll, hmem, hrest⟩ := closeConn_cases
      (s := (s.setEpoll fd' (some false)).setConn fd' ((s.conn fd').read_ i.errno i.calls).conn)
      hnodup hclose
    rw [conn_setConn] at hconn
    by_cases hfd : fd' = fd
    · subst hfd
      exact .broken i hcloses hconn hepoll hmem
    · have hne : fd ≠ fd' := Ne.symm hfd
      obtain ⟨hconn, hepoll, hmem⟩ := hrest fd hne
      exact .elsewhere (if_neg hfd) (hconn.trans (conn_setConn_of_ne _ hne))
        (hepoll.trans (epoll_setEpoll_of_ne _ hne)) hmem
  · by_cases hfd : fd' = fd
    · subst hfd
      rw [actionsOf_map]
      exact .read i hstays hp (conn_setConn _)
    · have hne : fd ≠ fd' := Ne.symm hfd
      rw [actionsOf_map_of_ne hfd]
      refine .elsewhere (if_neg hfd) (conn_setConn_of_ne _ hne) ?_ Iff.rfl
      exact (epoll_setEpoll_of_ne _ hne).trans (epoll_setEpoll_of_ne _ hne)

theorem actionsOf_sent (bytes : List UInt8) : actionsOf fd
    (if (s.conn fd').toWriteBytes ≠ 0 then [(fd', Action.sent bytes)] else []) =
      if fd' = fd ∧ (s.conn fd').toWriteBytes ≠ 0 then [.sent bytes] else [] := by
  by_cases hfd : fd' = fd
  · subst hfd
    split_ifs with hsome hno hno
    · exact actionsOf_map fd' [.sent bytes]
    · exact absurd ⟨rfl, hsome⟩ hno
    · exact absurd hno.2 hsome
    · rfl
  · simp only [hfd, false_and, if_false]
    split_ifs
    · exact actionsOf_map_of_ne hfd [.sent bytes]
    · rfl

/-- The pass over the connections changes nothing but them, and comes to each of them once. -/
theorem writeLoop_cases {w : Int → WriteInput} {writeErrno : Nat} {fds : List Int} (fd : Int)
    (h : s.writeLoop w writeErrno fds = .ok (t, log)) :
    t.epoll = s.epoll ∧ t.fdSet = s.fdSet ∧
      (fd ∉ fds → t.conn fd = s.conn fd ∧ actionsOf fd log = []) ∧
      (fds.Nodup → fd ∈ fds → ∃ saveErrno,
        t.conn fd =
          ((s.conn fd).dealWrite true (w fd).arrays (w fd).errno saveErrno (w fd).calls).conn ∧
        actionsOf fd log = if (s.conn fd).toWriteBytes ≠ 0 then
          [.sent ((s.conn fd).dealWrite true (w fd).arrays (w fd).errno saveErrno
            (w fd).calls).sent] else []) := by
  induction fds generalizing s writeErrno log with
  | nil =>
    cases h
    exact ⟨rfl, rfl, fun _ => ⟨rfl, rfl⟩, fun _ hmem => absurd hmem List.not_mem_nil⟩
  | cons fd' fds ih =>
    obtain ⟨log', hrest, rfl⟩ := writeLoop_cons_ok h
    obtain ⟨hepoll, hset, hout, hin⟩ := ih hrest
    refine ⟨hepoll, hset, fun hnot => ?_, fun hnodup hmem => ?_⟩
    · rw [List.mem_cons, not_or] at hnot
      obtain ⟨hne, hnot⟩ := hnot
      obtain ⟨hconn, hlog⟩ := hout hnot
      refine ⟨hconn.trans (conn_setConn_of_ne _ hne), ?_⟩
      rw [actionsOf_append, actionsOf_sent, hlog, if_neg fun h => hne h.1.symm]
      rfl
    · obtain ⟨hnot, hnodup⟩ := List.nodup_cons.mp hnodup
      by_cases hfd : fd = fd'
      · subst hfd
        obtain ⟨hconn, hlog⟩ := hout hnot
        refine ⟨writeErrno, hconn.trans (conn_setConn _), ?_⟩
        rw [actionsOf_append, actionsOf_sent, hlog, List.append_nil]
        simp only [true_and]
      · obtain ⟨saveErrno, hconn, hlog⟩ := hin hnodup ((List.mem_cons.mp hmem).resolve_left hfd)
        rw [conn_setConn_of_ne _ hfd] at hconn hlog
        refine ⟨saveErrno, hconn, ?_⟩
        rw [actionsOf_append, actionsOf_sent, hlog, if_neg fun h => hfd h.1.symm]
        rfl

theorem effect_batchEnd (hnodup : s.fdSet.Nodup) (fd : Int) {w : Int → WriteInput}
    (h : s.dealWrite w = .ok (t, log)) : Effect cs s fd t (.batchEnd w) (actionsOf fd log) := by
  obtain ⟨hepoll, hset, hout, hin⟩ := writeLoop_cases fd h
  have hmem : fd ∈ t.fdSet ↔ fd ∈ s.fdSet := by rw [hset]
  by_cases hfd : fd ∈ s.fdSet
  · obtain ⟨saveErrno, hconn, hlog⟩ := hin hnodup hfd
    by_cases hsome : (s.conn fd).toWriteBytes = 0
    · rw [hlog, if_neg (not_not.mpr hsome)]
      rw [AppConn.dealWrite, if_neg (not_not.mpr hsome)] at hconn
      exact .elsewhere (if_neg fun h => h.2 hsome) hconn (congrFun hepoll fd) hmem
    · rw [hlog, if_pos hsome]
      exact .written w saveErrno hfd hsome hconn
  · obtain ⟨hconn, hlog⟩ := hout hfd
    rw [hlog]
    exact .elsewhere (if_neg fun h => hfd h.1) hconn (congrFun hepoll fd) hmem

theorem effect_next {e : Event} (hnodup : s.fdSet.Nodup) (fd : Int)
    (h : s.next cs e = .ok (t, log)) : Effect cs s fd t e (actionsOf fd log) := by
  cases e with
  | accept fd' =>
    cases h
    exact effect_accept cs s fd fd'
  | hangup fd' =>
    obtain ⟨hclose, rfl⟩ := hangup_ok h
    exact effect_hangup hnodup fd hclose
  | readable fd' i => exact effect_readable hnodup fd h
  | batchEnd w => exact effect_batchEnd hnodup fd h

/-- The descriptors stay in a set. -/
theorem nodup_next {e : Event} (hnodup : s.fdSet.Nodup) (h : s.next cs e = .ok (t, log)) :
    t.fdSet.Nodup := by
  cases e with
  | accept fd' =>
    cases h
    rw [addClient]
    split_ifs
    · exact hnodup
    · exact nodup_insertFd hnodup fd'
  | hangup fd' =>
    obtain ⟨manager, -, rfl⟩ := closeConn_ok (hangup_ok h).1
    exact hnodup.erase fd'
  | readable fd' i =>
    obtain ⟨-, hclose, -⟩ | ⟨-, p, -, rfl, -⟩ := dealRead_ok h
    · obtain ⟨manager, -, rfl⟩ := closeConn_ok hclose
      exact hnodup.erase fd'
    · exact hnodup
  | batchEnd w =>
    obtain ⟨-, hset, -⟩ := writeLoop_cases 0 h
    rwa [hset]

end SocketServer

/-! ## Invariants -/

namespace AppConn

variable {c : AppConn}

theorem Indexed.dealWrite (h : c.Indexed) (isET : Bool) (arrays : Nat → UInt8)
    (errno saveErrno : Nat) (calls : WriteCalls) :
    (c.dealWrite isET arrays errno saveErrno calls).conn.Indexed :=
  keeps_dealWrite (fun _ len hc => hc.popWrite len) h ..

end AppConn

namespace SocketServer

variable {cs : CharSign} {s t : SocketServer} {fd : Int}

/-- What holds of the server in every run. -/
structure WellFormed (s : SocketServer) : Prop where
  nodup : s.fdSet.Nodup
  indexed : ∀ fd, (s.conn fd).Indexed

theorem wellFormed_start (junk : Int → (Nat → UInt8) × (Nat → UInt8)) : WellFormed (start junk) :=
  ⟨List.nodup_nil, fun _ => ⟨show 0 < 256 by decide, show 0 < 256 by decide⟩⟩

theorem WellFormed.next {e : Event} {log : Log} (h : WellFormed s)
    (hnext : s.next cs e = .ok (t, log)) : WellFormed t := by
  refine ⟨nodup_next h.nodup hnext, fun fd => ?_⟩
  have heffect := effect_next h.nodup fd hnext
  have hfd := h.indexed fd
  generalize actionsOf fd log = acts at heffect
  cases heffect with
  | elsewhere _ conn => rwa [conn]
  | accepted conn =>
    obtain hconn | hconn := conn
    · rwa [hconn]
    · rw [hconn]
      exact ⟨hfd.read, hfd.write⟩
  | hungup conn =>
    rw [conn]
    exact hfd.close
  | broken i _ conn =>
    rw [conn]
    exact (hfd.read_ i.errno i.calls).close
  | read i _ result conn =>
    rw [conn]
    exact (hfd.read_ i.errno i.calls).process result
  | written w saveErrno _ _ conn =>
    rw [conn]
    exact hfd.dealWrite ..

theorem WellFormed.run {events : List Event} (run : Run (Step cs) s events t) (h : WellFormed s) :
    WellFormed t :=
  run.invariant (fun _ _ _ hs ⟨_, _, hnext⟩ => hs.next hnext) h

end SocketServer

end SocketMaster
