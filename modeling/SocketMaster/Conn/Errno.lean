import SocketMaster.Conn.Intake

/-!
# What a left-over `errno` does to `read_`

`read_` copies `errno` after every `read`, also where the call has not set it. A value that was
`EAGAIN` before ends the loop after the first block, and lets an end of file pass for a
connection that has nothing to read at the moment.
-/
namespace SocketMaster

open Library

/-- How many `read` calls the loop of `read_` makes. -/
def ReadCalls.made (errno : Nat) : ReadCalls → Nat
  | .eof => 1
  | .fail _ => 1
  | .data _ next => if errno = eagain then 1 else made errno next + 1

namespace AppConn

/-- `DealRead_` closes the connection. -/
def Closes (r : ReadResult) : Prop := r.ret ≤ 0 ∧ r.saveErrno ≠ eagain

/-- With either value of `errno` before, the same calls are made, the same sum is returned, the
same ring is left and the same decision taken; and an end of file closes the connection. -/
structure ErrnoIrrelevant (c : AppConn) (errno errno' : Nat) (calls : ReadCalls) : Prop where
  made : calls.made errno = calls.made errno'
  ret : (c.read_ errno calls).ret = (c.read_ errno' calls).ret
  readBuff : (c.read_ errno calls).conn.readBuff = (c.read_ errno' calls).conn.readBuff
  closes : Closes (c.read_ errno calls) ↔ Closes (c.read_ errno' calls)
  eof : calls = .eof → Closes (c.read_ errno calls) ∧ Closes (c.read_ errno' calls)

variable {c : AppConn} {errno errno' : Nat} {calls : ReadCalls}

theorem made_pos (errno : Nat) (calls : ReadCalls) : 0 < calls.made errno := by
  unfold ReadCalls.made
  cases calls with
  | eof => exact Nat.one_pos
  | fail e => exact Nat.one_pos
  | data chunk next =>
    dsimp only
    split_ifs
    · exact Nat.one_pos
    · exact Nat.succ_pos _

/-- Two values that are not `EAGAIN` lead through the same loop. -/
theorem readLoop_of_ne (calls : ReadCalls) (hne : errno ≠ eagain) (hne' : errno' ≠ eagain) (sum : Int) :
    calls.made errno = calls.made errno' ∧
      (c.readLoop errno sum calls).ret = (c.readLoop errno' sum calls).ret ∧
      (c.readLoop errno sum calls).conn = (c.readLoop errno' sum calls).conn := by
  induction calls generalizing c sum with
  | eof => exact ⟨rfl, rfl, rfl⟩
  | fail e => exact ⟨rfl, rfl, rfl⟩
  | data chunk next ih =>
    obtain ⟨hmade, hret, hconn⟩ :=
      ih (c := c.appendRead chunk.bytes) (sum + chunk.bytes.length)
    simp only [ReadCalls.made, readLoop, if_neg hne, if_neg hne', hmade]
    exact ⟨trivial, hret, hconn⟩

/-- With data the sum is positive, and the connection stays. -/
theorem not_closes_of_data (c : AppConn) (errno : Nat) (chunk : Chunk) (next : ReadCalls) :
    ¬ Closes (c.read_ errno (.data chunk next)) := by
  have hpos := List.length_pos_iff.mpr chunk.ne_nil
  rintro ⟨hret, -⟩
  rw [read_, ret_readLoop, ReadCalls.bytes, ReadCalls.chunks, List.flatMap_cons,
    List.length_append] at hret
  omega

/-- What was left in `errno` makes no difference exactly if the first call fails, or both values
are not `EAGAIN`, or both are and the first call returns data. -/
theorem errnoIrrelevant_iff (c : AppConn) (errno errno' : Nat) (calls : ReadCalls) :
    ErrnoIrrelevant c errno errno' calls ↔ (∃ e, calls = .fail e) ∨
      (errno ≠ eagain ∧ errno' ≠ eagain) ∨
      (errno = eagain ∧ errno' = eagain ∧ ∃ chunk next, calls = .data chunk next) := by
  cases calls with
  | fail e => exact iff_of_true ⟨rfl, rfl, rfl, Iff.rfl, fun h => by cases h⟩ (.inl ⟨e, rfl⟩)
  | eof =>
    have hcloses : ∀ n, Closes (c.read_ n .eof) ↔ n ≠ eagain :=
      fun n => and_iff_right (le_refl (0 : Int))
    constructor
    · intro h
      obtain ⟨hcl, hcl'⟩ := h.eof rfl
      exact .inr (.inl ⟨(hcloses errno).mp hcl, (hcloses errno').mp hcl'⟩)
    · rintro (⟨e, he⟩ | ⟨hne, hne'⟩ | ⟨-, -, chunk, next, hdata⟩)
      · cases he
      · have hcl := (hcloses errno).mpr hne
        have hcl' := (hcloses errno').mpr hne'
        exact ⟨rfl, rfl, rfl, iff_of_true hcl hcl', fun _ => ⟨hcl, hcl'⟩⟩
      · cases hdata
  | data chunk next =>
    have hopen := not_closes_of_data c errno chunk next
    have hopen' := not_closes_of_data c errno' chunk next
    have hmade : ∀ n, ReadCalls.made n (.data chunk next) = 1 ↔ n = eagain := by
      intro n
      have hpos := made_pos n next
      rw [ReadCalls.made]
      split_ifs with hn
      · exact iff_of_true rfl hn
      · exact iff_of_false (by omega) hn
    constructor
    · intro h
      have hboth : errno = eagain ↔ errno' = eagain := by rw [← hmade, ← hmade, h.made]
      by_cases hn : errno = eagain
      · exact .inr (.inr ⟨hn, hboth.mp hn, chunk, next, rfl⟩)
      · exact .inr (.inl ⟨hn, fun hn' => hn (hboth.mpr hn')⟩)
    · rintro (⟨e, he⟩ | ⟨hne, hne'⟩ | ⟨rfl, rfl, -⟩)
      · cases he
      · obtain ⟨hcalls, hret, hconn⟩ :=
          readLoop_of_ne (c := c) (.data chunk next) hne hne' 0
        exact ⟨hcalls, hret, congrArg AppConn.readBuff hconn, iff_of_false hopen hopen',
          fun h => by cases h⟩
      · exact ⟨rfl, rfl, rfl, Iff.rfl, fun h => by cases h⟩

/-- A client that has closed its end, where an earlier call has left `EAGAIN`. -/
theorem not_errnoIrrelevant_eof :
    ¬ ErrnoIrrelevant (new (fun _ => 0) fun _ => 0) 0 eagain .eof := by
  intro h
  exact (h.eof rfl).2.2 rfl

end AppConn

end SocketMaster
