import SocketMaster.Record.Basic

/-!
# The lines of a record file

The loop of `initRecordFile` stores a line from the front of its array again each time the index
comes back to zero, so that of a line the chars behind the last full 256 are left when its newline
arrives. `Typed` says what the array holds of a line that has begun.
-/
namespace SocketMaster.StorageRecord

open Library

variable {now : Tm}

/-- The lines that end in a newline, without it; `line` is what has come of the first. -/
def completeLines : List UInt8 → List UInt8 → List (List UInt8)
  | _, [] => []
  | line, c :: content =>
    if c = 10 then line :: completeLines [] content else completeLines (line ++ [c]) content

/-- What `parseLines` is handed for a line. -/
def text (line : List UInt8) : List UInt8 := cString (line.drop (256 * (line.length / 256)))

/-- A line with its number, as `parseLines` gets it. -/
def readLine (now : Tm) (r : StorageRecord) (p : List UInt8 × Nat) : StorageRecord :=
  r.parseLines now (text p.1) (UInt8.ofNat p.2)

/-- `line` has been stored since the last newline. -/
structure Typed (s : Reader) (line : List UInt8) : Prop where
  i : s.i = UInt8.ofNat line.length
  cells : slice s.lines 0 (line.length % 256) = line.drop (256 * (line.length / 256))

namespace Typed

variable {s : Reader} {line : List UInt8}

theorem i_toNat (h : Typed s line) : s.i.toNat = line.length % 256 := by
  rw [h.i, UInt8.toNat_ofNat']

theorem start (r : StorageRecord) (junk : Nat → UInt8) (lineNum : UInt8) :
    Typed ⟨r, junk, 0, lineNum⟩ [] := ⟨rfl, rfl⟩

/-- The char is stored behind those of the line that are in the array. -/
theorem stored (h : Typed s line) (c : UInt8) :
    slice (blit s.lines s.i.toNat [c]) 0 (line.length % 256 + 1) =
      line.drop (256 * (line.length / 256)) ++ [c] := by
  have hrow := slice_blit_append s.lines 0 (line.length % 256) [c]
  rw [Nat.zero_add] at hrow
  rw [h.i_toNat, ← h.cells]
  exact hrow

theorem char (h : Typed s line) (now : Tm) {c : UInt8} (hc : c ≠ 10) :
    Typed (s.turn now c) (line ++ [c]) := by
  have hlen : (line ++ [c]).length = line.length + 1 := by simp
  have hturn : s.turn now c = { s with lines := blit s.lines s.i.toNat [c], i := s.i + 1 } :=
    if_neg hc
  rw [hturn]
  refine ⟨?_, ?_⟩
  · rw [hlen, UInt8.ofNat_add, ← h.i]
    rfl
  · rw [hlen]
    by_cases hwrap : (line.length + 1) % 256 = 0
    · -- the index is back at zero
      have hall : 256 * ((line.length + 1) / 256) = line.length + 1 := by omega
      rw [hwrap, hall, List.drop_of_length_le (by rw [hlen])]
      rfl
    · have hmod : (line.length + 1) % 256 = line.length % 256 + 1 := by omega
      have hdiv : (line.length + 1) / 256 = line.length / 256 := by omega
      rw [hmod, hdiv, List.drop_append_of_le_length (by omega)]
      exact h.stored c

/-- At the newline the array holds the text of the line. -/
theorem cString_newline (h : Typed s line) :
    cString (slice (blit (blit s.lines s.i.toNat [10]) s.i.toNat [0]) 0 512) = text line := by
  have hrow : slice (blit (blit s.lines s.i.toNat [10]) s.i.toNat [0]) 0 (line.length % 256) =
      line.drop (256 * (line.length / 256)) := by
    rw [← h.cells]
    refine slice_congr fun k hk => ?_
    have hi := h.i_toNat
    rw [blit_of_lt _ _ (by omega), blit_of_lt _ _ (by omega)]
  have hnul : blit (blit s.lines s.i.toNat [10]) s.i.toNat [0] (0 + line.length % 256) = 0 := by
    rw [Nat.zero_add, ← h.i_toNat]
    exact blit_add _ _ [0] (i := 0) Nat.one_pos
  have hsplit : 512 = line.length % 256 + (1 + (511 - line.length % 256)) := by omega
  rw [hsplit, slice_add, slice_add, hrow, slice_one, hnul]
  exact cString_append_nul _ _

/-- The newline ends the line, and the array is free for the next. -/
theorem newline (h : Typed s line) (now : Tm) :
    (s.turn now 10).record = s.record.parseLines now (text line) (s.lineNum + 1) ∧
      (s.turn now 10).lineNum = s.lineNum + 1 ∧ Typed (s.turn now 10) [] := by
  refine ⟨?_, rfl, rfl, rfl⟩
  rw [← h.cString_newline]
  rfl

end Typed

/-- The char that stands for the end of the file completes no line. -/
theorem completeLines_append_eof (line content : List UInt8) :
    completeLines line (content ++ [255]) = completeLines line content := by
  induction content generalizing line with
  | nil => rfl
  | cons c content ih =>
    rw [List.cons_append, completeLines, completeLines, ih, ih]

/-- The loop hands the lines to `parseLines` in their order, each with its number. -/
theorem record_foldl_turn (content : List UInt8) {s : Reader} {line : List UInt8} {n : Nat}
    (h : Typed s line) (hn : s.lineNum = UInt8.ofNat n) :
    (content.foldl (Reader.turn now) s).record =
      ((completeLines line content).zipIdx (n + 1)).foldl (readLine now) s.record := by
  induction content generalizing s line n with
  | nil => rfl
  | cons c content ih =>
    rw [List.foldl_cons, completeLines]
    split_ifs with hc
    · subst hc
      obtain ⟨hrecord, hnum, hnew⟩ := h.newline now
      have hnext : (s.turn now 10).lineNum = UInt8.ofNat (n + 1) := by
        rw [hnum, hn, UInt8.ofNat_add]
        rfl
      rw [ih hnew hnext, hrecord, hn, List.zipIdx_cons, List.foldl_cons, readLine, UInt8.ofNat_add]
      rfl
    · have hturn : s.turn now c = { s with lines := blit s.lines s.i.toNat [c], i := s.i + 1 } :=
        if_neg hc
      have hrest := ih (h.char now hc) (n := n) (by rw [hturn, hn])
      rw [hrest, hturn]

/-- The lines of a file with their numbers. -/
def numberedLines (content : List UInt8) : List (List UInt8 × Nat) :=
  (completeLines [] content).zipIdx 1

/-- Reading a file is reading its lines, whatever the array holds before. -/
theorem record_readLoop (r : StorageRecord) (junk : Nat → UInt8) (content : List UInt8) :
    (readLoop now ⟨r, junk, 0, 0⟩ content).record =
      (numberedLines content).foldl (readLine now) r := by
  rw [readLoop, record_foldl_turn _ (.start r junk 0) (n := 0) rfl, completeLines_append_eof]
  rfl

theorem initRecordFile_some (r : StorageRecord) (fs : FileSystem) (junk : Nat → UInt8)
    (content : List UInt8) :
    r.initRecordFile fs now junk (some content) =
      let record := (numberedLines content).foldl (readLine now) r
      let left := record.parse fs ⟨content, content.length, false⟩
      some ⟨record, left.1, left.2.content⟩ := by
  rw [← record_readLoop r junk]
  rfl

/-! ## What a line sets -/

section

variable {r : StorageRecord} {p : List UInt8 × Nat}

theorem ofNat_eq_iff {k m : Nat} (hm : m < 256) : UInt8.ofNat k = UInt8.ofNat m ↔ k % 256 = m := by
  rw [← UInt8.toNat_inj, UInt8.toNat_ofNat', UInt8.toNat_ofNat', Nat.mod_eq_of_lt hm]

theorem readLine_head (h : p.2 % 256 = 1) :
    (readLine now r p).lineState = if recordHead <+: text p.1 then r.lineState else .fail := by
  have hnum : UInt8.ofNat p.2 = 1 := (ofNat_eq_iff (by decide)).mpr h
  have hhead : recordHead <+: text p.1 ↔ (text p.1).take recordHead.length = recordHead :=
    List.prefix_iff_eq_take.trans eq_comm
  rw [readLine, parseLines, if_pos hnum]
  by_cases heq : (text p.1).take recordHead.length = recordHead
  · rw [if_neg (not_not.mpr heq), if_pos (hhead.mpr heq)]
  · rw [if_pos heq, if_neg (mt hhead.mp heq)]

theorem readLine_last (h : p.2 % 256 = 4) :
    (readLine now r p).lineState =
      if text p.1 < getFileByLocalTime now then .workUpdateAndDel
      else if text p.1 = getFileByLocalTime now then .workDel
      else .fail := by
  have hnum : UInt8.ofNat p.2 = 4 := (ofNat_eq_iff (by decide)).mpr h
  rw [readLine, parseLines, hnum]
  rfl

/-- No other line sets the state. -/
theorem readLine_other (h1 : p.2 % 256 ≠ 1) (h4 : p.2 % 256 ≠ 4) :
    (readLine now r p).lineState = r.lineState := by
  have hnum1 : UInt8.ofNat p.2 ≠ 1 := fun h => h1 ((ofNat_eq_iff (by decide)).mp h)
  have hnum4 : UInt8.ofNat p.2 ≠ 4 := fun h => h4 ((ofNat_eq_iff (by decide)).mp h)
  rw [readLine, parseLines, if_neg hnum1]
  split_ifs <;> rfl

end

end SocketMaster.StorageRecord
