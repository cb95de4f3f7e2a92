import SocketMaster.Library.Fields
import SocketMaster.Library.Run
import SocketMaster.Record.Config

/-!
# The days of the record

A day is named by its date, and days are compared by comparing their names. As long as the year has
four digits, that is the order of the calendar: the record file asks for what the day in its fourth
line asks for, and of the directories that `findLastDir` goes through, in whatever order they are
listed, it finds the one of the latest day.
-/
namespace SocketMaster

open Library

/-- What `localtime` tells of a day before the year 10000. -/
structure Tm.Valid (t : Tm) : Prop where
  year : t.tmYear + 1900 < 10000
  month : t.tmMon < 12
  day : t.tmMday ≤ 31

/-- The day `s` is before `t`. -/
def Tm.Before (s t : Tm) : Prop :=
  s.tmYear < t.tmYear ∨ s.tmYear = t.tmYear ∧
    (s.tmMon < t.tmMon ∨ s.tmMon = t.tmMon ∧ s.tmMday < t.tmMday)

instance (s t : Tm) : Decidable (s.Before t) := inferInstanceAs (Decidable (_ ∨ _))

theorem Tm.not_before_self (t : Tm) : ¬ t.Before t := by
  unfold Before
  omega

theorem Tm.before_trichotomy (s t : Tm) : s.Before t ∨ s = t ∨ t.Before s := by
  obtain ⟨sy, sm, sd⟩ := s
  obtain ⟨ty, tm, td⟩ := t
  rw [Tm.mk.injEq]
  unfold Before
  dsimp only
  omega

theorem Tm.Before.asymm {s t : Tm} (h : s.Before t) : ¬ t.Before s := by
  unfold Before at *
  omega

namespace StorageRecord

/-! ## The names -/

section

variable {s t : Tm}

/-- The names are in the order of the days. -/
theorem getFileByLocalTime_lt_iff (hs : s.Valid) (ht : t.Valid) :
    getFileByLocalTime s < getFileByLocalTime t ↔ s.Before t := by
  obtain ⟨hsy, hsm, hsd⟩ := hs
  obtain ⟨hty, htm, htd⟩ := ht
  rw [getFileByLocalTime, getFileByLocalTime, List.append_assoc, List.append_assoc,
    padded_append_lt_iff (by decide) hsy hty, List.cons_append, List.cons_append,
    List.cons_lt_cons_iff, padded_append_lt_iff (by decide) (by omega) (by omega),
    List.cons_lt_cons_iff, padded_lt_padded_iff (by decide) (by omega) (by omega)]
  have hdash : ¬ (45 : UInt8) < 45 := by decide
  simp only [hdash, true_and, false_or]
  unfold Tm.Before
  omega

theorem getFileByLocalTime_inj (hs : s.Valid) (ht : t.Valid) :
    getFileByLocalTime s = getFileByLocalTime t ↔ s = t := by
  refine ⟨fun heq => ?_, fun heq => by rw [heq]⟩
  obtain hlt | hsame | hlt := s.before_trichotomy t
  · exact absurd (heq ▸ (getFileByLocalTime_lt_iff hs ht).mpr hlt) (List.lt_irrefl _)
  · exact hsame
  · exact absurd (heq ▸ (getFileByLocalTime_lt_iff ht hs).mpr hlt) (List.lt_irrefl _)

end

theorem char_of_mem_name {t : Tm} {c : UInt8} (h : c ∈ getFileByLocalTime t) : 45 ≤ c.toNat := by
  have hdigit : ∀ {width n : Nat}, c ∈ padded width n → 45 ≤ c.toNat := by
    intro width n hc
    have := (digit_of_mem_padded hc).1
    omega
  rw [getFileByLocalTime, List.mem_append, List.mem_append, List.mem_cons, List.mem_cons] at h
  obtain (hyear | rfl | hmonth) | rfl | hday := h
  · exact hdigit hyear
  · decide
  · exact hdigit hmonth
  · decide
  · exact hdigit hday

/-- The reader gets a name as it stands in the file. -/
theorem text_name {t : Tm} (ht : t.Valid) :
    text (getFileByLocalTime t) = getFileByLocalTime t := by
  obtain ⟨hyear, hmonth, hday⟩ := ht
  refine text_eq_self (fun hnul => absurd (char_of_mem_name hnul) (by decide)) ?_
  rw [getFileByLocalTime, List.length_append, List.length_append, List.length_cons,
    List.length_cons, length_padded (by decide) hyear, length_padded (by decide) (by omega),
    length_padded (by decide) (by omega)]
  decide

/-! ## The record file -/

/-- A call of `initRecordFile`: the object, and what it meets. -/
structure Reading where
  record : StorageRecord
  fs : FileSystem
  now : Tm
  junk : Nat → UInt8

def Reading.outcome (x : Reading) (config : Option (List UInt8)) : Option Outcome :=
  x.record.initRecordFile x.fs x.now x.junk config

/-- The call is made on the record file `config` and leaves `config'`. -/
def Reading.Step (config : Option (List UInt8)) (x : Reading) (config' : Option (List UInt8)) :
    Prop :=
  config' = (x.outcome config).bind fun o => o.config x.fs

/-- What is done follows the calendar: files are deleted up to the day itself, and before that the
update is asked for. -/
structure Calendar (last now : Tm) (o : Outcome) : Prop where
  update : o.record.lineState = .workUpdateAndDel ↔ last.Before now
  delete : o.record.lineState = .workDel ↔ last = now
  refuse : o.record.lineState = .fail ↔ now.Before last
  removed : now.Before last → o.removed = []

theorem lineState_of_day {f : LineFile} {last now : Tm} (hlast : last.Valid)
    (hlen : f.lines.length ≤ 256) (hline : f.lines[3]? = some (getFileByLocalTime last))
    (r : StorageRecord) :
    ((numberedLines f.content).foldl (readLine now) r).lineState =
      if getFileByLocalTime last < getFileByLocalTime now then .workUpdateAndDel
      else if getFileByLocalTime last = getFileByLocalTime now then .workDel
      else .fail := by
  rw [numberedLines, f.completeLines_content]
  generalize f.lines = lines at hlen hline
  rcases lines with _ | ⟨head, _ | ⟨path, _ | ⟨history, _ | ⟨name, rest⟩⟩⟩⟩
  all_goals cases hline
  simp only [List.length_cons] at hlen
  rw [List.zipIdx_cons, List.zipIdx_cons, List.zipIdx_cons, List.zipIdx_cons, List.foldl_cons,
    List.foldl_cons, List.foldl_cons, List.foldl_cons,
    foldl_readLine_later rest (by decide) (by omega), readLine_last (by rfl)]
  dsimp only
  rw [text_name hlast]

theorem Calendar.of_lineState {last now : Tm} {o : Outcome} (hlast : last.Valid)
    (hnow : now.Valid)
    (hstate : o.record.lineState =
      if getFileByLocalTime last < getFileByLocalTime now then .workUpdateAndDel
      else if getFileByLocalTime last = getFileByLocalTime now then .workDel
      else .fail)
    (hremoved : o.record.lineState = .fail → o.removed = []) : Calendar last now o := by
  have hlt := getFileByLocalTime_lt_iff hlast hnow
  have heq := getFileByLocalTime_inj hlast hnow
  obtain hbefore | rfl | hafter := last.before_trichotomy now
  · have hne : last ≠ now := by
      rintro rfl
      exact last.not_before_self hbefore
    rw [if_pos (hlt.mpr hbefore)] at hstate
    refine ⟨?_, ?_, ?_, fun h => absurd h hbefore.asymm⟩
    all_goals simp [hstate, hbefore, hne, hbefore.asymm]
  · have hnot := last.not_before_self
    rw [if_neg (hlt.not.mpr hnot), if_pos rfl] at hstate
    refine ⟨?_, ?_, ?_, fun h => absurd h hnot⟩
    all_goals simp [hstate, hnot]
  · have hne : last ≠ now := by
      rintro rfl
      exact last.not_before_self hafter
    rw [if_neg (hlt.not.mpr hafter.asymm), if_neg (heq.not.mpr hne)] at hstate
    refine ⟨?_, ?_, ?_, fun _ => hremoved hstate⟩
    all_goals simp [hstate, hafter, hne, hafter.asymm]

/-- However often and on whatever days a record file is read whose fourth line names a day, by
whatever objects, each reading that finds it does what the calendar says of that day. -/
theorem calendar_of_readings {f : LineFile} {last : Tm} (hlast : last.Valid)
    (hlen : f.lines.length ≤ 256) (hline : f.lines[3]? = some (getFileByLocalTime last))
    {readings : List Reading} {config : Option (List UInt8)}
    (run : Run Reading.Step (some f.content) readings config) (x : Reading) (hnow : x.now.Valid) :
    config = none ∧ x.outcome config = none ∨
      config = some f.content ∧ ∃ o, x.outcome config = some o ∧ Calendar last x.now o := by
  have keep : ∀ (c : Option (List UInt8)) (y : Reading) (c' : Option (List UInt8)),
      c = none ∨ c = some f.content → y.Step c c' → c' = none ∨ c' = some f.content := by
    rintro c y c' (rfl | rfl) rfl
    · exact .inl rfl
    · exact config_initRecordFile rfl
  obtain rfl | rfl := run.invariant keep (.inr rfl)
  · exact .inl ⟨rfl, rfl⟩
  · refine .inr ⟨rfl, _, initRecordFile_some .., ?_⟩
    refine Calendar.of_lineState hlast hnow (lineState_of_day hlast hlen hline _) fun hfail => ?_
    dsimp only
    unfold parse
    rw [hfail]

/-- The days `2026-01-01` and `2026-01-02`, in `/v/`. -/
def twoDayFile : LineFile where
  lines := [recordHead, [47, 118, 47], twoDays.1, twoDays.2]
  wellFormed := by decide +kernel

def firstDay : Reading := ⟨new [], emptyDisk, ⟨126, 0, 1⟩, fun _ => 0⟩
def thirdDay : Reading := ⟨new [], emptyDisk, ⟨126, 0, 3⟩, fun _ => 0⟩

/-- It is read twice on the third day, and then by a clock that is two days back. -/
theorem calendar_of_readings_twoDays :
    some twoDayFile.content = none ∧ firstDay.outcome (some twoDayFile.content) = none ∨
      some twoDayFile.content = some twoDayFile.content ∧
        ∃ o, firstDay.outcome (some twoDayFile.content) = some o ∧
          Calendar ⟨126, 0, 2⟩ ⟨126, 0, 1⟩ o := by
  have hread : thirdDay.Step (some twoDayFile.content) (some twoDayFile.content) := by
    rw [Reading.Step]
    decide +kernel
  exact calendar_of_readings ⟨by decide, by decide, by decide⟩ (by decide) (by decide +kernel)
    (.cons hread (.cons hread (.nil _))) firstDay ⟨by decide, by decide, by decide⟩

/-! ## The directories -/

/-- `00-00-00-00`. -/
def noDir : List UInt8 := [48, 48, 45, 48, 48, 45, 48, 48, 45, 48, 48]

/-- One turn of the loop of `findLastDir`. -/
def laterDir (maxDir : List UInt8) (d : Dirent) : List UInt8 :=
  if d.dName ≠ [46] ∧ d.dName ≠ [46, 46] then
    if d.isDir then
      if maxDir < d.dName then d.dName else maxDir
    else maxDir
  else maxDir

/-- What the argument `maxDir` holds afterwards; it stays as it is if the directory cannot be
opened. -/
def findLastDir (r : StorageRecord) (fs : FileSystem) (removed : List (List UInt8))
    (maxDir : List UInt8) : List UInt8 :=
  match fs.readdir removed r.path with
  | some entries => entries.foldl laterDir noDir
  | none => maxDir

/-- The directory is one of those that are compared, and has this name. -/
def ListsDir (entries : List Dirent) (name : List UInt8) : Prop :=
  ∃ d ∈ entries, (d.dName ≠ [46] ∧ d.dName ≠ [46, 46]) ∧ d.isDir = true ∧ d.dName = name

theorem listsDir_cons {d : Dirent} {entries : List Dirent} {name : List UInt8} :
    ListsDir (d :: entries) name ↔ ListsDir [d] name ∨ ListsDir entries name := by
  simp [ListsDir]

/-- One turn goes up to the name of the directory, if it is greater. -/
theorem laterDir_spec (maxDir : List UInt8) (d : Dirent) :
    (laterDir maxDir d = maxDir ∨ ListsDir [d] (laterDir maxDir d)) ∧ maxDir ≤ laterDir maxDir d ∧
      ∀ name, ListsDir [d] name → name ≤ laterDir maxDir d := by
  unfold laterDir
  split_ifs with hdots hdir hless
  · refine ⟨.inr ⟨d, by simp, hdots, hdir, rfl⟩, List.le_of_lt hless, ?_⟩
    rintro name ⟨d', hd', -, -, rfl⟩
    obtain rfl := List.mem_singleton.mp hd'
    exact List.le_refl _
  · refine ⟨.inl rfl, List.le_refl _, ?_⟩
    rintro name ⟨d', hd', -, -, rfl⟩
    obtain rfl := List.mem_singleton.mp hd'
    exact List.not_lt.mp hless
  · refine ⟨.inl rfl, List.le_refl _, ?_⟩
    rintro name ⟨d', hd', -, hdir', -⟩
    obtain rfl := List.mem_singleton.mp hd'
    exact absurd hdir' hdir
  · refine ⟨.inl rfl, List.le_refl _, ?_⟩
    rintro name ⟨d', hd', hdots', -, -⟩
    obtain rfl := List.mem_singleton.mp hd'
    exact absurd hdots' hdots

/-- The loop ends with the greatest of the names and what it began with. -/
theorem foldl_laterDir_spec (entries : List Dirent) (maxDir : List UInt8) :
    (entries.foldl laterDir maxDir = maxDir ∨ ListsDir entries (entries.foldl laterDir maxDir)) ∧
      maxDir ≤ entries.foldl laterDir maxDir ∧
      ∀ name, ListsDir entries name → name ≤ entries.foldl laterDir maxDir := by
  induction entries generalizing maxDir with
  | nil => exact ⟨.inl rfl, List.le_refl _, fun name ⟨_, hd, _⟩ => absurd hd List.not_mem_nil⟩
  | cons d entries ih =>
    obtain ⟨hone, hup, hname⟩ := laterDir_spec maxDir d
    obtain ⟨hrest, hup', hname'⟩ := ih (laterDir maxDir d)
    rw [List.foldl_cons]
    refine ⟨?_, List.le_trans hup hup', ?_⟩
    · obtain hsame | hlisted := hrest
      · rw [hsame, listsDir_cons]
        exact hone.imp_right .inl
      · exact .inr (listsDir_cons.mpr (.inr hlisted))
    · intro name hlisted
      obtain hfirst | hlater := listsDir_cons.mp hlisted
      · exact List.le_trans (hname name hfirst) hup'
      · exact hname' name hlater

/-- Every directory that is listed is that of a day. -/
def OnlyDays (entries : List Dirent) : Prop :=
  ∀ name, ListsDir entries name → ∃ day : Tm, day.Valid ∧ name = getFileByLocalTime day

/-- The century of a day is not zero. -/
theorem noDir_lt {day : Tm} (hday : day.Valid) : noDir < getFileByLocalTime day := by
  have hyear := hday.year
  have hzero : noDir = padded 2 0 ++ [45, 48, 48, 45, 48, 48, 45, 48, 48] := by decide +kernel
  have hcentury : padded 4 (day.tmYear + 1900) = padded 2 ((day.tmYear + 1900) / 100) ++
      (decimal ((day.tmYear + 1900) / 10 % 10) ++ decimal ((day.tmYear + 1900) % 10)) := by
    rw [padded_succ (by decide), padded_succ (by decide), Nat.div_div_eq_div_mul,
      List.append_assoc]
  rw [hzero, getFileByLocalTime, hcentury, List.append_assoc, List.append_assoc,
    padded_append_lt_iff (by decide) (by decide) (by omega)]
  exact .inl (by omega)

/-- In whatever order the directories of days are listed, the one of the latest day is found, and
`00-00-00-00` if there is none. -/
theorem findLastDir_of_onlyDays {r : StorageRecord} {fs : FileSystem}
    {removed : List (List UInt8)} {entries : List Dirent}
    (hopen : fs.readdir removed r.path = some entries) (hdays : OnlyDays entries)
    (maxDir : List UInt8) :
    (r.findLastDir fs removed maxDir = noDir ↔ ∀ name, ¬ ListsDir entries name) ∧
      ∀ day : Tm, day.Valid →
        (r.findLastDir fs removed maxDir = getFileByLocalTime day ↔
          ListsDir entries (getFileByLocalTime day) ∧
            ∀ other : Tm, other.Valid → ListsDir entries (getFileByLocalTime other) →
              ¬ day.Before other) := by
  have hfind : r.findLastDir fs removed maxDir = entries.foldl laterDir noDir := by
    rw [findLastDir, hopen]
  obtain ⟨hfrom, -, hgreatest⟩ := foldl_laterDir_spec entries noDir
  rw [← hfind] at hfrom hgreatest
  generalize r.findLastDir fs removed maxDir = found at hfrom hgreatest
  refine ⟨⟨?_, ?_⟩, fun day hday => ⟨?_, ?_⟩⟩
  · rintro rfl name hlisted
    obtain ⟨day, hday, rfl⟩ := hdays name hlisted
    exact hgreatest _ hlisted (noDir_lt hday)
  · intro hnone
    exact hfrom.resolve_right (hnone _)
  · rintro rfl
    have hlisted : ListsDir entries (getFileByLocalTime day) := by
      obtain hdefault | hlisted := hfrom
      · exact absurd (hdefault ▸ noDir_lt hday) (List.lt_irrefl _)
      · exact hlisted
    refine ⟨hlisted, fun other hother hdir hbefore => ?_⟩
    exact hgreatest _ hdir ((getFileByLocalTime_lt_iff hday hother).mpr hbefore)
  · rintro ⟨hlisted, hlatest⟩
    obtain rfl | hdir := hfrom
    · exact absurd (noDir_lt hday) (hgreatest _ hlisted)
    · obtain ⟨other, hother, rfl⟩ := hdays _ hdir
      have hnot : ¬ other.Before day := fun h =>
        hgreatest _ hlisted ((getFileByLocalTime_lt_iff hother hday).mpr h)
      obtain h | rfl | h := day.before_trichotomy other
      · exact absurd h (hlatest other hother hdir)
      · rfl
      · exact absurd h hnot

/-- The parent, a file, and the directories of two days, the later one in front. -/
def twoDirs : FileSystem where
  readdir _ _ := some [⟨[46, 46], true⟩, ⟨twoDays.2, true⟩, ⟨[122], false⟩, ⟨twoDays.1, true⟩]
  fopen _ _ := none
  remove _ _ := false

theorem findLastDir_of_onlyDays_twoDirs :
    let entries : List Dirent :=
      [⟨[46, 46], true⟩, ⟨twoDays.2, true⟩, ⟨[122], false⟩, ⟨twoDays.1, true⟩]
    ((new []).findLastDir twoDirs [] [] = noDir ↔ ∀ name, ¬ ListsDir entries name) ∧
      ∀ day : Tm, day.Valid →
        ((new []).findLastDir twoDirs [] [] = getFileByLocalTime day ↔
          ListsDir entries (getFileByLocalTime day) ∧
            ∀ other : Tm, other.Valid → ListsDir entries (getFileByLocalTime other) →
              ¬ day.Before other) := by
  refine findLastDir_of_onlyDays rfl ?_ []
  rintro name ⟨d, hd, hdots, hdir, rfl⟩
  simp only [List.mem_cons, List.not_mem_nil, or_false] at hd
  obtain rfl | rfl | rfl | rfl := hd
  · exact absurd rfl hdots.2
  · exact ⟨⟨126, 0, 2⟩, ⟨by decide, by decide, by decide⟩, by decide +kernel⟩
  · cases hdir
  · exact ⟨⟨126, 0, 1⟩, ⟨by decide, by decide, by decide⟩, by decide +kernel⟩

end StorageRecord

end SocketMaster
