import SocketMaster.Library.Folds
import SocketMaster.Record.Lines

/-!
# A record file with a wrong header

A wrong header sets `m_line_state` to `LINES_FAIL`, but every later line with the number four, or
with a number that eight bits take for four, sets it once more from the date alone. So the file is
refused only as long as no such line, with a day up to today, comes after the last one to refuse
it. A file without a newline is not refused either: there no line is looked at.
-/
namespace SocketMaster.StorageRecord

open Library

variable {now : Tm} {r : StorageRecord} {p : List UInt8 × Nat}

/-- The name is a day before today or today's. -/
def UpTo (now : Tm) (name : List UInt8) : Prop :=
  name < getFileByLocalTime now ∨ name = getFileByLocalTime now

/-- The line sets `LINES_FAIL`: it stands in the place of the header without being one, or in the
place of the last name with a later day. -/
def Refuses (now : Tm) (p : List UInt8 × Nat) : Prop :=
  p.2 % 256 = 1 ∧ ¬ recordHead <+: text p.1 ∨ p.2 % 256 = 4 ∧ ¬ UpTo now (text p.1)

/-- The line sets one of the states in which files are deleted. -/
def Admits (now : Tm) (p : List UInt8 × Nat) : Prop := p.2 % 256 = 4 ∧ UpTo now (text p.1)

theorem readLine_refuses (h : Refuses now p) : (readLine now r p).lineState = .fail := by
  obtain ⟨hnum, hhead⟩ | ⟨hnum, hlate⟩ := h
  · rw [readLine_head hnum, if_neg hhead]
  · obtain ⟨hearly, htoday⟩ := not_or.mp hlate
    rw [readLine_last hnum, if_neg hearly, if_neg htoday]

theorem readLine_admits (h : Admits now p) : (readLine now r p).lineState ≠ .fail := by
  obtain ⟨hnum, hday⟩ := h
  rw [readLine_last hnum]
  split_ifs with hearly htoday
  · exact LineState.noConfusion
  · exact LineState.noConfusion
  · exact absurd hday (not_or.mpr ⟨hearly, htoday⟩)

theorem readLine_neither (hrefuses : ¬ Refuses now p) (hadmits : ¬ Admits now p) :
    (readLine now r p).lineState = r.lineState := by
  by_cases h4 : p.2 % 256 = 4
  · by_cases hday : UpTo now (text p.1)
    · exact absurd ⟨h4, hday⟩ hadmits
    · exact absurd (.inr ⟨h4, hday⟩) hrefuses
  by_cases h1 : p.2 % 256 = 1
  · by_cases hhead : recordHead <+: text p.1
    · rw [readLine_head h1, if_pos hhead]
    · exact absurd (.inl ⟨h1, hhead⟩) hrefuses
  · exact readLine_other h1 h4

/-- A file is refused by the last line that decides anything. -/
theorem lineState_eq_fail_iff (path content : List UInt8) :
    ((numberedLines content).foldl (readLine now) (new path)).lineState = .fail ↔
      LastSets (Refuses now) (Admits now) (numberedLines content) := by
  have hset : ∀ (r : StorageRecord) p, Refuses now p → (readLine now r p).lineState = .fail :=
    fun _ _ => readLine_refuses
  have hclear : ∀ (r : StorageRecord) p, Admits now p → ¬ (readLine now r p).lineState = .fail :=
    fun _ _ => readLine_admits
  have hkeep : ∀ (r : StorageRecord) p, ¬ Refuses now p → ¬ Admits now p →
      ((readLine now r p).lineState = .fail ↔ r.lineState = .fail) := by
    intro r p hrefuses hadmits
    rw [readLine_neither hrefuses hadmits]
  have hfold := foldl_iff_lastSets (P := fun r : StorageRecord => r.lineState = .fail)
    hset hclear hkeep (numberedLines content) (new path)
  rw [hfold]
  constructor
  · rintro (h | ⟨h, -⟩)
    · exact h
    · cases h
  · exact .inl

/-- The state is `LINES_FAIL` when `parse` runs, and no file is passed to `remove`. -/
def DeletesNothing (fs : FileSystem) (now : Tm) (junk : Nat → UInt8) (path content : List UInt8) :
    Prop :=
  ∃ o, (new path).initRecordFile fs now junk (some content) = some o ∧
    o.record.lineState = .fail ∧ o.removed = []

theorem deletesNothing_iff_lineState (fs : FileSystem) (junk : Nat → UInt8)
    (path content : List UInt8) :
    DeletesNothing fs now junk path content ↔
      ((numberedLines content).foldl (readLine now) (new path)).lineState = .fail := by
  rw [DeletesNothing, initRecordFile_some]
  constructor
  · rintro ⟨o, ho, hstate, -⟩
    cases ho
    exact hstate
  · intro h
    refine ⟨_, rfl, h, ?_⟩
    dsimp only
    unfold parse
    rw [h]

/-- The first line of a file begins with `MP4_RECORD`. -/
def HasHeader (content : List UInt8) : Prop := recordHead <+: content.takeWhile (· ≠ 10)

instance (content : List UInt8) : Decidable (HasHeader content) :=
  inferInstanceAs (Decidable (_ <+: _))

/-- The first file that a new object reads: with a wrong header it is refused, and nothing deleted,
exactly when the last of its lines to decide anything refuses it. -/
theorem deletesNothing_iff (fs : FileSystem) (now : Tm) (junk : Nat → UInt8)
    (path content : List UInt8) :
    (¬ HasHeader content → DeletesNothing fs now junk path content) ↔
      (¬ HasHeader content → LastSets (Refuses now) (Admits now) (numberedLines content)) := by
  rw [deletesNothing_iff_lineState, lineState_eq_fail_iff]

/-- The lines `BAD`, `/p`, `h` and `2000-01-01`. -/
def wrongHeader : List UInt8 :=
  [66, 65, 68, 10, 47, 112, 10, 104, 10, 50, 48, 48, 48, 45, 48, 49, 45, 48, 49, 10]

/-- Every directory has one video, and no time of the last day is recorded. -/
def oneVideo : FileSystem where
  readdir _ _ := some [⟨[97], false⟩]
  fopen _ _ := some []
  remove _ _ := true

/-- In 2026 the video is passed to `remove`, for both days. -/
theorem not_deletesNothing_wrongHeader :
    ¬ HasHeader wrongHeader ∧
      ((new []).initRecordFile oneVideo ⟨126, 0, 1⟩ (fun _ => 0) (some wrongHeader)).map
        Outcome.removed = some [[97], [97]] ∧
      ¬ DeletesNothing oneVideo ⟨126, 0, 1⟩ (fun _ => 0) [] wrongHeader := by
  have hremoved : ((new []).initRecordFile oneVideo ⟨126, 0, 1⟩ (fun _ => 0)
      (some wrongHeader)).map Outcome.removed = some [[97], [97]] := by
    rw [initRecordFile_some]
    rfl
  refine ⟨by decide, hremoved, ?_⟩
  rintro ⟨o, ho, -, hnone⟩
  rw [ho] at hremoved
  cases (Option.some.inj hremoved).symm.trans hnone

end SocketMaster.StorageRecord
