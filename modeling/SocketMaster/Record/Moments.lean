import SocketMaster.Library.Fields
import SocketMaster.Record.Listing

/-!
# The moments that are recorded

`setTimeMap` adds a line with the time of day to the file of the day, and `findAndDeleteFiles` reads
the file back, a line at a time. On a listing that goes down, each moment saves the first video that
is not before it, unless no video is; and all other videos are removed.
-/
namespace SocketMaster

open Library

/-- The time of day that `localtime` tells; the second can be a leap second. -/
structure ClockTime where
  hour : Nat
  minute : Nat
  sec : Nat
  hour_lt : hour < 24
  minute_lt : minute < 60
  sec_le : sec ≤ 60

namespace StorageRecord

/-- `%02d-%02d-%02d-00` and a newline. -/
def timeLine (t : ClockTime) : List UInt8 :=
  padded 2 t.hour ++ 45 :: padded 2 t.minute ++ 45 :: padded 2 t.sec ++ [45, 48, 48, 10]

/-- The file of the day after a call. Opening it, if that succeeds, makes it if it is not there. -/
def setTimeMap (file : Option (List UInt8)) (t : ClockTime) (opened : Bool) :
    Option (List UInt8) :=
  if opened then some (file.getD [] ++ timeLine t) else file

/-- After a number of calls. -/
def setTimeMaps (file : Option (List UInt8)) (calls : List (ClockTime × Bool)) :
    Option (List UInt8) :=
  calls.foldl (fun file c => setTimeMap file c.1 c.2) file

/-- The moments that have got into the file. -/
def recorded (calls : List (ClockTime × Bool)) : List ClockTime :=
  (calls.filter Prod.snd).map Prod.fst

/-- The name is that of the first video that is not before the moment. -/
structure FirstSince (t : ClockTime) (allFiles : List (List UInt8)) (name : List UInt8) : Prop where
  since : ¬ name < timeLine t
  first : ∀ other ∈ allFiles, other < name → other < timeLine t
  before : ∃ other ∈ allFiles, other < timeLine t

/-! ## The file -/

/-- A line is text in front of its newline, and shorter than the array of the reader. -/
theorem timeLine_eq (t : ClockTime) : ∃ front : List UInt8, timeLine t = front ++ [10] ∧
    front.length = 11 ∧ ∀ c ∈ front, c ≠ 10 ∧ c ≠ 0 := by
  have hh := t.hour_lt
  have hm := t.minute_lt
  have hs := t.sec_le
  have hdigit : ∀ {width n : Nat} {c : UInt8}, c ∈ padded width n → c ≠ 10 ∧ c ≠ 0 := by
    intro width n c hc
    obtain ⟨hlo, -⟩ := digit_of_mem_padded hc
    constructor
    all_goals rintro rfl
    all_goals exact absurd hlo (by decide)
  refine ⟨padded 2 t.hour ++ 45 :: padded 2 t.minute ++ 45 :: padded 2 t.sec ++ [45, 48, 48], ?_,
    ?_, fun c hc => ?_⟩
  · simp [timeLine]
  · simp only [List.length_append, List.length_cons, List.length_nil,
      length_padded (show 0 < 2 by decide) (show t.hour < 10 ^ 2 by omega),
      length_padded (show 0 < 2 by decide) (show t.minute < 10 ^ 2 by omega),
      length_padded (show 0 < 2 by decide) (show t.sec < 10 ^ 2 by omega)]
  · simp only [List.mem_append, List.mem_cons, List.not_mem_nil, or_false] at hc
    obtain ((hc | rfl | hc) | rfl | hc) | rfl | rfl | rfl := hc
    all_goals first | exact hdigit hc | decide

/-- `fgets` gives back a line that fits, and goes on behind it. -/
theorem fgetsAll_line {size : Nat} (line front rest : List UInt8)
    (hshort : line.length + front.length + 2 ≤ size) (hnewline : 10 ∉ front) :
    fgetsAll size line (front ++ 10 :: rest) = (line ++ front ++ [10]) :: fgetsAll size [] rest := by
  induction front generalizing line with
  | nil => simp [fgetsAll]
  | cons c front ih =>
    rw [List.length_cons] at hshort
    have hc : c ≠ 10 := fun heq => hnewline (heq ▸ List.mem_cons_self)
    have hroom : (line ++ [c]).length + 1 ≠ size := by
      rw [List.length_append, List.length_singleton]
      omega
    rw [List.cons_append, fgetsAll, if_neg (not_or.mpr ⟨hc, hroom⟩), ih (line ++ [c]) (by
      rw [List.length_append, List.length_singleton]
      omega) fun h => hnewline (List.mem_cons_of_mem c h)]
    simp

/-- The lines come back as they were written. -/
theorem recordedLines_moments (moments : List ClockTime) :
    recordedLines (moments.flatMap timeLine) = moments.map timeLine := by
  suffices h : fgetsAll fileNameMaxLen [] (moments.flatMap timeLine) = moments.map timeLine by
    rw [recordedLines, h, List.map_map]
    refine List.map_congr_left fun t _ => ?_
    obtain ⟨front, hline, -, hchars⟩ := timeLine_eq t
    refine cString_eq_self ?_
    rw [hline, List.mem_append, List.mem_singleton]
    rintro (hzero | hzero)
    · exact (hchars 0 hzero).2 rfl
    · cases hzero
  induction moments with
  | nil => rfl
  | cons t moments ih =>
    obtain ⟨front, hline, hlen, hchars⟩ := timeLine_eq t
    rw [List.flatMap_cons, List.map_cons, hline, List.append_assoc, List.singleton_append,
      fgetsAll_line [] front _ (by rw [List.length_nil, hlen]; decide)
        fun hmem => (hchars 10 hmem).1 rfl, ih]
    rfl

theorem setTimeMaps_eq (file : Option (List UInt8)) (calls : List (ClockTime × Bool)) :
    setTimeMaps file calls =
      if recorded calls = [] then file
      else some (file.getD [] ++ (recorded calls).flatMap timeLine) := by
  induction calls generalizing file with
  | nil => rfl
  | cons c calls ih =>
    obtain ⟨t, opened⟩ := c
    have hstep : setTimeMaps file ((t, opened) :: calls) =
        setTimeMaps (setTimeMap file t opened) calls := rfl
    rw [hstep, ih]
    cases opened with
    | false => rfl
    | true =>
      have hcons : recorded ((t, true) :: calls) = t :: recorded calls := rfl
      rw [hcons, if_neg (List.cons_ne_nil t _), setTimeMap, if_pos rfl]
      split_ifs with hnil
      · simp [hnil]
      · simp

/-! ## The videos -/

/-- In a listing that goes down, the place that a line marks is that of the first name that is not
below it. -/
theorem marked_iff {allFiles : List (List UInt8)} (descending : allFiles.Pairwise fun a b => b < a)
    (lines : List (List UInt8)) {p : Nat} {name : List UInt8} (hp : allFiles[p]? = some name) :
    Marked lessThan lines allFiles p ↔ ∃ line ∈ lines, ¬ name < line ∧
      (∀ other ∈ allFiles, other < name → other < line) ∧ ∃ other ∈ allFiles, other < line := by
  obtain ⟨hlt, rfl⟩ := List.getElem?_eq_some_iff.mp hp
  have hget := List.pairwise_iff_getElem.mp descending
  refine exists_congr fun line => and_congr_right fun _ => ?_
  rw [List.findIdx?_eq_some_iff_getElem]
  constructor
  · rintro ⟨hnext, hbelow, hbefore⟩
    have hbelow : allFiles[p + 1] < line := of_decide_eq_true hbelow
    refine ⟨fun h => hbefore p (by omega) (decide_eq_true h), fun other hother hless => ?_,
      _, List.getElem_mem hnext, hbelow⟩
    -- what is below the name stands behind it
    obtain ⟨q, hq, rfl⟩ := List.mem_iff_getElem.mp hother
    have hpq : p < q := by
      by_contra hle
      obtain heq | hqp := Nat.eq_or_lt_of_le (Nat.le_of_not_lt hle)
      · subst heq
        exact absurd hless (List.lt_irrefl _)
      · exact absurd hless (List.lt_asymm (hget q p hq hlt hqp))
    obtain heq | hlater := Nat.eq_or_lt_of_le (Nat.succ_le_of_lt hpq)
    · subst heq
      exact hbelow
    · exact List.lt_trans (hget (p + 1) q hnext hq hlater) hbelow
  · rintro ⟨hsince, hfirst, other, hother, hbelow⟩
    obtain ⟨q, hq, rfl⟩ := List.mem_iff_getElem.mp hother
    have hnot : ∀ i (hi : i < allFiles.length), i ≤ p → ¬ allFiles[i] < line := by
      intro i hi hip hless
      obtain heq | hlater := Nat.eq_or_lt_of_le hip
      · subst heq
        exact hsince hless
      · exact hsince (List.lt_trans (hget i p hi hlt hlater) hless)
    have hpq : p < q := by
      by_contra hle
      exact hnot q hq (Nat.le_of_not_lt hle) hbelow
    refine ⟨by omega, decide_eq_true ?_, fun i hi h => ?_⟩
    · exact hfirst _ (List.getElem_mem _) (hget p (p + 1) hlt (by omega) (Nat.lt_succ_self p))
    · exact hnot i (by omega) (by omega) (of_decide_eq_true h)

/-- On a listing that goes down, and whatever calls of `setTimeMap` there have been on a new file:
if one of them has got into it, the names removed are those of the videos that are not the first
since any recorded moment; if none has, nothing is removed. -/
theorem removed_of_moments (calls : List (ClockTime × Bool)) (allFiles : List (List UInt8))
    (descending : allFiles.Pairwise fun a b => b < a) (name : List UInt8) :
    name ∈ findAndDeleteFiles (setTimeMaps none calls) allFiles ↔
      recorded calls ≠ [] ∧ name ∈ allFiles ∧
        ∀ t ∈ recorded calls, ¬ FirstSince t allFiles name := by
  rw [setTimeMaps_eq]
  split_ifs with hnil
  · exact iff_of_false List.not_mem_nil fun h => h.1 hnil
  · rw [Option.getD_none, List.nil_append, mem_findAndDeleteFiles, recordedLines_moments,
      and_iff_right hnil, List.mem_iff_getElem?]
    have hmarked : ∀ p, allFiles[p]? = some name →
        (Marked lessThan ((recorded calls).map timeLine) allFiles p ↔
          ∃ t ∈ recorded calls, FirstSince t allFiles name) := by
      intro p hp
      rw [marked_iff descending _ hp]
      constructor
      · rintro ⟨line, hline, hsince, hfirst, hbefore⟩
        obtain ⟨t, ht, rfl⟩ := List.mem_map.mp hline
        exact ⟨t, ht, hsince, hfirst, hbefore⟩
      · rintro ⟨t, ht, hsince, hfirst, hbefore⟩
        exact ⟨timeLine t, List.mem_map_of_mem ht, hsince, hfirst, hbefore⟩
    constructor
    · rintro ⟨p, hp, hnot⟩
      rw [hmarked p hp] at hnot
      exact ⟨⟨p, hp⟩, fun t ht hfirst => hnot ⟨t, ht, hfirst⟩⟩
    · rintro ⟨⟨p, hp⟩, hnone⟩
      refine ⟨p, hp, fun h => ?_⟩
      obtain ⟨t, ht, hfirst⟩ := (hmarked p hp).mp h
      exact hnone t ht hfirst

/-- A warning at ten o'clock, with a video of eleven o'clock, one of half past ten and one of
nine. -/
def threeVideos : List (List UInt8) :=
  [[49, 49, 45, 48, 48], [49, 48, 45, 51, 48], [48, 57, 45, 48, 48]]

def tenOClock : ClockTime := ⟨10, 0, 0, by decide, by decide, by decide⟩

theorem removed_of_moments_tenOClock :
    [49, 49, 45, 48, 48] ∈ findAndDeleteFiles (setTimeMaps none [(tenOClock, true)]) threeVideos ↔
      recorded [(tenOClock, true)] ≠ [] ∧ [49, 49, 45, 48, 48] ∈ threeVideos ∧
        ∀ t ∈ recorded [(tenOClock, true)],
          ¬ FirstSince t threeVideos [49, 49, 45, 48, 48] :=
  removed_of_moments [(tenOClock, true)] threeVideos (by decide) [49, 49, 45, 48, 48]

end StorageRecord

end SocketMaster
