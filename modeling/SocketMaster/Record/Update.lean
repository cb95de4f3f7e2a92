import SocketMaster.Library.Folds
import SocketMaster.Record.Lines

/-!
# The record file after an update

`linesWorkUpdate` writes to the file that was opened to be read, so nothing is written, and the
next run finds the lines of the run before. Their last name is still the day before today's, and
the run ends in the state that asks for the update again.
-/
namespace SocketMaster.StorageRecord

open Library

variable {now : Tm} {r : StorageRecord}

/-! ## Nothing is written -/

theorem fwrite_of_readOnly {f : Stream} (h : f.canWrite = false) (bytes : List UInt8) :
    f.fwrite bytes = f := if_neg (by rw [h]; exact Bool.false_ne_true)

theorem linesWorkUpdate_of_readOnly {f : Stream} (h : f.canWrite = false) :
    r.linesWorkUpdate f = f := by
  have keep : ∀ lines : List (List UInt8),
      lines.foldl (fun f line => (f.fwrite (cString line)).fwrite [10]) f = f := by
    intro lines
    induction lines with
    | nil => rfl
    | cons line lines ih => rw [List.foldl_cons, fwrite_of_readOnly h, fwrite_of_readOnly h, ih]
  exact keep _

/-- Whatever `parse` does, the bytes of the record file stay as they are. -/
theorem content_parse (fs : FileSystem) (content : List UInt8) (pos : Nat) :
    (r.parse fs ⟨content, pos, false⟩).2.content = content := by
  unfold parse
  split
  · rfl
  · rfl
  · rfl
  · rw [linesWorkUpdate_of_readOnly rfl]
  · rfl

theorem config_initRecordFile {fs : FileSystem} {junk : Nat → UInt8} {content : List UInt8}
    {o : Outcome} (h : r.initRecordFile fs now junk (some content) = some o) :
    o.config fs = none ∨ o.config fs = some content := by
  rw [initRecordFile_some] at h
  cases h
  unfold Outcome.config
  split_ifs
  · exact .inl rfl
  · exact .inr (congrArg some (content_parse fs content content.length))

/-! ## What the next run reads -/

/-- The line sets `LINES_WORK_UPDATE_AND_DEL`. -/
def Earlier (now : Tm) (p : List UInt8 × Nat) : Prop :=
  p.2 % 256 = 4 ∧ text p.1 < getFileByLocalTime now

/-- The line sets another state. -/
def Elsewhere (now : Tm) (p : List UInt8 × Nat) : Prop :=
  p.2 % 256 = 1 ∧ ¬ recordHead <+: text p.1 ∨
    p.2 % 256 = 4 ∧ ¬ text p.1 < getFileByLocalTime now

theorem lineState_eq_update_iff (lines : List (List UInt8 × Nat)) (r : StorageRecord) :
    (lines.foldl (readLine now) r).lineState = .workUpdateAndDel ↔
      LastSets (Earlier now) (Elsewhere now) lines ∨
        r.lineState = .workUpdateAndDel ∧ ∀ p ∈ lines, ¬ Elsewhere now p := by
  refine foldl_iff_lastSets (P := fun r : StorageRecord => r.lineState = .workUpdateAndDel)
    ?_ ?_ ?_ lines r
  · rintro r p ⟨hnum, hearly⟩
    rw [readLine_last hnum, if_pos hearly]
  · rintro r p (⟨hnum, hhead⟩ | ⟨hnum, hlate⟩)
    · rw [readLine_head hnum, if_neg hhead]
      exact LineState.noConfusion
    · rw [readLine_last hnum, if_neg hlate]
      split_ifs <;> exact not_false
  · intro r p hearlier helsewhere
    by_cases h4 : p.2 % 256 = 4
    · by_cases hearly : text p.1 < getFileByLocalTime now
      · exact absurd ⟨h4, hearly⟩ hearlier
      · exact absurd (.inr ⟨h4, hearly⟩) helsewhere
    by_cases h1 : p.2 % 256 = 1
    · by_cases hhead : recordHead <+: text p.1
      · rw [readLine_head h1, if_pos hhead]
      · exact absurd (.inl ⟨h1, hhead⟩) helsewhere
    · rw [readLine_other h1 h4]

/-- Lines that ask for the update in one run ask for it in every later one of the same day. -/
theorem lineState_again {path : List UInt8} {lines : List (List UInt8 × Nat)}
    (h : (lines.foldl (readLine now) (new path)).lineState = .workUpdateAndDel)
    (r : StorageRecord) : (lines.foldl (readLine now) r).lineState = .workUpdateAndDel := by
  obtain hlast | ⟨hinit, -⟩ := (lineState_eq_update_iff lines (new path)).mp h
  · exact (lineState_eq_update_iff lines r).mpr (.inl hlast)
  · cases hinit

/-- The run on the file left by the run before ends as that one did. -/
theorem initRecordFile_again {fs fs' : FileSystem} {junk junk' : Nat → UInt8}
    {path content : List UInt8} {first second : Outcome}
    (hfirst : (new path).initRecordFile fs now junk (some content) = some first)
    (hstate : first.record.lineState = .workUpdateAndDel)
    (hsecond : r.initRecordFile fs' now junk' (first.config fs) = some second) :
    second.record.lineState = .workUpdateAndDel := by
  obtain hnone | hsome := config_initRecordFile hfirst
  · rw [hnone] at hsecond
    cases hsecond
  · rw [hsome, initRecordFile_some] at hsecond
    rw [initRecordFile_some] at hfirst
    cases hfirst
    cases hsecond
    exact lineState_again hstate r

/-! ## A record file as it should be -/

/-- The four lines. -/
def configFile (path history last : List UInt8) : List UInt8 :=
  recordHead ++ 10 :: (path ++ 10 :: (history ++ 10 :: (last ++ [10])))

/-- The lines are text that the reader's index can count, and the last day is over. -/
structure ValidConfig (now : Tm) (path history last : List UInt8) : Prop where
  lines : ∀ line ∈ [path, history, last], 10 ∉ line ∧ 0 ∉ line ∧ line.length < 256
  early : last < getFileByLocalTime now

theorem completeLines_append {line : List UInt8} (h : 10 ∉ line) (front rest : List UInt8) :
    completeLines front (line ++ 10 :: rest) = (front ++ line) :: completeLines [] rest := by
  induction line generalizing front with
  | nil =>
    rw [List.append_nil]
    rfl
  | cons c line ih =>
    obtain ⟨hc, hline⟩ := not_or.mp (mt List.mem_cons.mpr h)
    rw [List.cons_append, completeLines, if_neg (Ne.symm hc), ih hline, List.append_assoc]
    rfl

theorem text_eq_self {line : List UInt8} (hnul : 0 ∉ line) (hlen : line.length < 256) :
    text line = line := by
  have hdiv : 256 * (line.length / 256) = 0 := by omega
  rw [text, hdiv, List.drop_zero, cString_eq_self hnul]

/-- The first run reads the names and asks for the update. -/
theorem record_configFile {path history last : List UInt8}
    (h : ValidConfig now path history last) (start : List UInt8) :
    (numberedLines (configFile path history last)).foldl (readLine now) (new start) =
      ⟨path, .workUpdateAndDel, history, last, []⟩ := by
  obtain ⟨⟨hpath, hpath0, hpathlen⟩, ⟨hhist, hhist0, hhistlen⟩, hlast, hlast0, hlastlen⟩ :
      (10 ∉ path ∧ 0 ∉ path ∧ path.length < 256) ∧
        (10 ∉ history ∧ 0 ∉ history ∧ history.length < 256) ∧
        10 ∉ last ∧ 0 ∉ last ∧ last.length < 256 := by
    simpa using h.lines
  have hlines : completeLines [] (configFile path history last) =
      [recordHead, path, history, last] := by
    rw [configFile, completeLines_append (by decide), completeLines_append hpath,
      completeLines_append hhist, completeLines_append hlast]
    rfl
  have hhead : text recordHead = recordHead := text_eq_self (by decide) (by decide)
  rw [numberedLines, hlines]
  show readLine now (readLine now (readLine now (readLine now (new start) (recordHead, 1))
    (path, 2)) (history, 3)) (last, 4) = _
  have h1 : readLine now (new start) (recordHead, 1) = new start := by
    rw [readLine, hhead]
    rfl
  rw [h1]
  show (⟨text path, if text last < getFileByLocalTime now then _ else _, text history, text last,
    []⟩ : StorageRecord) = _
  rw [text_eq_self hpath0 hpathlen, text_eq_self hhist0 hhistlen, text_eq_self hlast0 hlastlen,
    if_pos h.early]

/-- The first run asks for the update, and the next run of the day reads what it should have
written. -/
def UpdateAgrees (fs fs' : FileSystem) (now : Tm) (junk junk' : Nat → UInt8)
    (start content : List UInt8) (r : StorageRecord) : Prop :=
  ∃ first second, (new start).initRecordFile fs now junk (some content) = some first ∧
    first.record.lineState = .workUpdateAndDel ∧
    r.initRecordFile fs' now junk' (first.config fs) = some second ∧
    second.record.path = first.record.path ∧
    second.record.historyName = first.record.lastName ∧
    second.record.lastName = getFileByLocalTime now ∧
    second.record.lineState = .workDel

/-- No file is read as it was to be written, whichever object the second run is made on. -/
theorem not_updateAgrees (fs fs' : FileSystem) (now : Tm) (junk junk' : Nat → UInt8)
    (start content : List UInt8) (r : StorageRecord) :
    ¬ UpdateAgrees fs fs' now junk junk' start content r := by
  rintro ⟨first, second, hfirst, hstate, hsecond, -, -, -, hdel⟩
  have hagain := initRecordFile_again hfirst hstate hsecond
  cases hagain.symm.trans hdel

/-- No directory can be opened, and no file removed. -/
def emptyDisk : FileSystem := ⟨fun _ _ => none, fun _ _ => none, fun _ _ => false⟩

/-- `2026-01-01` and `2026-01-02`. -/
def twoDays : List UInt8 × List UInt8 :=
  ([50, 48, 50, 54, 45, 48, 49, 45, 48, 49], [50, 48, 50, 54, 45, 48, 49, 45, 48, 50])

/-- On the third day, with the path `/v/`: the second run finds the second day once more. -/
theorem not_updateAgrees_emptyDisk :
    let now : Tm := ⟨126, 0, 3⟩
    let content := configFile [47, 118, 47] twoDays.1 twoDays.2
    let run := (new []).initRecordFile emptyDisk now fun _ => 0
    ValidConfig now [47, 118, 47] twoDays.1 twoDays.2 ∧
      (((run (some content)).bind fun first => run (first.config emptyDisk)).map fun second =>
        (second.record.lastName, second.record.lineState)) =
          some (twoDays.2, .workUpdateAndDel) ∧
      ¬ UpdateAgrees emptyDisk emptyDisk now (fun _ => 0) (fun _ => 0) [] content (new []) := by
  refine ⟨⟨by decide, by decide⟩, by decide +kernel, ?_⟩
  rintro ⟨first, second, hfirst, hstate, hsecond, -, -, -, hdel⟩
  cases (initRecordFile_again hfirst hstate hsecond).symm.trans hdel

end SocketMaster.StorageRecord
