import SocketMaster.Record.Update

/-!
# The lines that the reader takes from a file

The reader is to take the second, the third and the fourth line of a file. It counts the chars of a
line and the lines in eight bits each, so it loses the front of a long line, and in a long file it
takes later lines, too.
-/
namespace SocketMaster.StorageRecord

open Library

variable {now : Tm} {r : StorageRecord}

/-- A file of complete lines without NUL. -/
structure LineFile where
  lines : List (List UInt8)
  wellFormed : ∀ line ∈ lines, 10 ∉ line ∧ 0 ∉ line

def LineFile.content (f : LineFile) : List UInt8 := f.lines.flatMap (· ++ [10])

/-- `parseLines` looks at a line with this number. -/
def Interpreted (lineNum : UInt8) : Prop :=
  lineNum = 1 ∨ lineNum = 2 ∨ lineNum = 3 ∨ lineNum = 4

/-- What the loop of `initRecordFile` should leave of a file, on the object `r` and with `junk` in
the array. A line that is missing leaves its field alone. -/
structure TakesLines (now : Tm) (r : StorageRecord) (junk : Nat → UInt8) (f : LineFile) :
    Prop where
  path : (readLoop now ⟨r, junk, 0, 0⟩ f.content).record.path = f.lines[1]?.getD r.path
  historyName :
    (readLoop now ⟨r, junk, 0, 0⟩ f.content).record.historyName = f.lines[2]?.getD r.historyName
  lastName :
    (readLoop now ⟨r, junk, 0, 0⟩ f.content).record.lastName = f.lines[3]?.getD r.lastName
  /-- At the newline of a line behind the fourth. -/
  later : ∀ front back, f.content = front ++ 10 :: back → 4 ≤ front.count 10 →
    ¬ Interpreted ((front.foldl (Reader.turn now) ⟨r, junk, 0, 0⟩).lineNum + 1)
  /-- At every char. -/
  index : ∀ front c back, f.content ++ [255] = front ++ c :: back →
    (front.foldl (Reader.turn now) ⟨r, junk, 0, 0⟩).i.toNat < 512

/-! ## The two counters -/

theorem lineNum_foldl_turn (content : List UInt8) {s : Reader} {n : Nat}
    (h : s.lineNum = UInt8.ofNat n) :
    (content.foldl (Reader.turn now) s).lineNum = UInt8.ofNat (n + content.count 10) := by
  induction content generalizing s n with
  | nil => exact h
  | cons c content ih =>
    rw [List.foldl_cons]
    by_cases hc : c = 10
    · have hnext : (s.turn now c).lineNum = UInt8.ofNat (n + 1) := by
        have hturn : (s.turn now c).lineNum = s.lineNum + 1 := by
          rw [Reader.turn, if_pos hc]
        rw [hturn, h, UInt8.ofNat_add]
        rfl
      rw [ih hnext, hc, List.count_cons_self, Nat.add_right_comm, Nat.add_assoc n]
    · have hnext : (s.turn now c).lineNum = UInt8.ofNat n := by
        rw [Reader.turn, if_neg hc]
        exact h
      rw [ih hnext, List.count_cons_of_ne hc]

/-- The number that the next line gets. -/
theorem interpreted_next_iff (r : StorageRecord) (junk : Nat → UInt8) (front : List UInt8) :
    Interpreted ((front.foldl (Reader.turn now) ⟨r, junk, 0, 0⟩).lineNum + 1) ↔
      (front.count 10 + 1) % 256 ∈ [1, 2, 3, 4] := by
  have hnum : (front.foldl (Reader.turn now) ⟨r, junk, 0, 0⟩).lineNum + 1 =
      UInt8.ofNat (front.count 10 + 1) := by
    rw [lineNum_foldl_turn front (n := 0) rfl, Nat.zero_add, UInt8.ofNat_add]
    rfl
  have hone := ofNat_eq_iff (k := front.count 10 + 1) (m := 1) (by decide)
  have htwo := ofNat_eq_iff (k := front.count 10 + 1) (m := 2) (by decide)
  have hthree := ofNat_eq_iff (k := front.count 10 + 1) (m := 3) (by decide)
  have hfour := ofNat_eq_iff (k := front.count 10 + 1) (m := 4) (by decide)
  rw [hnum, Interpreted]
  grind

/-- The index cannot leave the array. -/
theorem i_toNat_lt (s : Reader) : s.i.toNat < 512 := by
  have := s.i.toNat_lt
  omega

/-! ## The lines of a file -/

namespace LineFile

theorem completeLines_content (f : LineFile) : completeLines [] f.content = f.lines := by
  obtain ⟨lines, hlines⟩ := f
  show completeLines [] (lines.flatMap (· ++ [10])) = lines
  induction lines with
  | nil => rfl
  | cons line lines ih =>
    have hline := (hlines line List.mem_cons_self).1
    rw [List.flatMap_cons, List.append_assoc, List.singleton_append, completeLines_append hline,
      ih fun other hother => hlines other (List.mem_cons_of_mem line hother)]
    rfl

theorem count_flatMap (lines : List (List UInt8)) (h : ∀ line ∈ lines, 10 ∉ line) :
    (lines.flatMap (· ++ [10])).count 10 = lines.length := by
  induction lines with
  | nil => rfl
  | cons line lines ih =>
    have hline := List.count_eq_zero.mpr (h line List.mem_cons_self)
    have hrest := ih fun other hother => h other (List.mem_cons_of_mem line hother)
    rw [List.flatMap_cons, List.count_append, List.count_append, hline, hrest, List.length_cons]
    exact Nat.add_comm 1 lines.length

/-- A line together with what stands in front of its newline. -/
theorem exists_front (f : LineFile) {k : Nat} (hk : k < f.lines.length) :
    ∃ front back, f.content = front ++ 10 :: back ∧ front.count 10 = k := by
  have hline := (f.wellFormed _ (List.getElem_mem hk)).1
  refine ⟨(f.lines.take k).flatMap (· ++ [10]) ++ f.lines[k],
    (f.lines.drop (k + 1)).flatMap (· ++ [10]), ?_, ?_⟩
  · have hsplit : f.lines = f.lines.take k ++ f.lines[k] :: f.lines.drop (k + 1) := by
      rw [List.getElem_cons_drop, List.take_append_drop]
    calc
      f.content = (f.lines.take k ++ f.lines[k] :: f.lines.drop (k + 1)).flatMap (· ++ [10]) := by
        rw [← hsplit]
        rfl
      _ = _ := by
        rw [List.flatMap_append, List.flatMap_cons, List.append_assoc, List.append_assoc,
          List.singleton_append]
  · rw [List.count_append, List.count_eq_zero.mpr hline, count_flatMap, List.length_take,
      Nat.min_eq_left (Nat.le_of_lt hk), Nat.add_zero]
    intro line hmem
    exact (f.wellFormed line (List.mem_of_mem_take hmem)).1

end LineFile

/-! ## What the lines set -/

theorem parseLines_of_not_interpreted {lineNum : UInt8} (h : ¬ Interpreted lineNum)
    (r : StorageRecord) (lines : List UInt8) : r.parseLines now lines lineNum = r := by
  obtain ⟨h1, h2, h3, h4⟩ : lineNum ≠ 1 ∧ lineNum ≠ 2 ∧ lineNum ≠ 3 ∧ lineNum ≠ 4 := by
    simpa [Interpreted] using h
  rw [parseLines, if_neg h1, if_neg h2, if_neg h3, if_neg h4]

/-- The lines from the fifth to the last that has a number of its own set nothing. -/
theorem foldl_readLine_later (lines : List (List UInt8)) {n : Nat} (hn : 5 ≤ n)
    (hlen : n + lines.length ≤ 257) (r : StorageRecord) :
    (lines.zipIdx n).foldl (readLine now) r = r := by
  induction lines generalizing n with
  | nil => rfl
  | cons line lines ih =>
    rw [List.length_cons] at hlen
    have hnot : ¬ Interpreted (UInt8.ofNat n) := by
      have hne : ∀ m, 1 ≤ m → m ≤ 4 → UInt8.ofNat n ≠ UInt8.ofNat m := by
        intro m hlo hhi heq
        have hmod := (ofNat_eq_iff (by omega)).mp heq
        omega
      rintro (h | h | h | h)
      · exact hne 1 (by decide) (by decide) h
      · exact hne 2 (by decide) (by decide) h
      · exact hne 3 (by decide) (by decide) h
      · exact hne 4 (by decide) (by decide) h
    have hline : readLine now r (line, n) = r := parseLines_of_not_interpreted hnot r _
    rw [List.zipIdx_cons, List.foldl_cons, hline]
    exact ih (by omega) (by omega)

/-- The fields that hold names. -/
def names (r : StorageRecord) : List UInt8 × List UInt8 × List UInt8 :=
  (r.path, r.historyName, r.lastName)

theorem names_head (now : Tm) (r : StorageRecord) (line : List UInt8) :
    (readLine now r (line, 1)).names = r.names := by
  have hnum : UInt8.ofNat (line, 1).2 = 1 := rfl
  rw [readLine, parseLines, if_pos hnum]
  split_ifs
  · rfl
  · rfl

/-- Of a file that has no line with a number used before, the names are the texts of three lines. -/
theorem names_readLoop (now : Tm) (r : StorageRecord) (junk : Nat → UInt8) (f : LineFile)
    (hlen : f.lines.length ≤ 256) :
    (readLoop now ⟨r, junk, 0, 0⟩ f.content).record.names =
      ((f.lines[1]?.map text).getD r.path, (f.lines[2]?.map text).getD r.historyName,
        (f.lines[3]?.map text).getD r.lastName) := by
  rw [record_readLoop, numberedLines, f.completeLines_content]
  generalize f.lines = lines at hlen
  rcases lines with _ | ⟨head, _ | ⟨path, _ | ⟨history, _ | ⟨last, rest⟩⟩⟩⟩
  · rfl
  · exact names_head now r head
  · exact congrArg (fun n => (text path, n.2.1, n.2.2)) (names_head now r head)
  · exact congrArg (fun n => (text path, text history, n.2.2)) (names_head now r head)
  · simp only [List.length_cons] at hlen
    rw [List.zipIdx_cons, List.zipIdx_cons, List.zipIdx_cons, List.zipIdx_cons, List.foldl_cons,
      List.foldl_cons, List.foldl_cons, List.foldl_cons,
      foldl_readLine_later rest (by decide) (by omega)]
    rfl

/-! ## The exact condition -/

/-- The text that is left of a line is shorter where the index has wrapped. -/
theorem text_eq_self_iff {line : List UInt8} (hnul : 0 ∉ line) :
    text line = line ↔ line.length < 256 := by
  refine ⟨fun h => ?_, text_eq_self hnul⟩
  by_contra hlong
  have hle : (text line).length ≤ (line.drop (256 * (line.length / 256))).length :=
    (List.takeWhile_prefix _).length_le
  rw [h, List.length_drop] at hle
  omega

/-- The lines that name something. -/
theorem map_text_eq_iff {f : LineFile} {k : Nat} (old : List UInt8) :
    (f.lines[k]?.map text).getD old = f.lines[k]?.getD old ↔
      ∀ line ∈ f.lines[k]?, line.length < 256 := by
  cases hline : f.lines[k]? with
  | none => simp
  | some line =>
    have hnul := (f.wellFormed line (List.mem_of_getElem? hline)).2
    simp [text_eq_self_iff hnul]

/-- The line 257 is read as a head. -/
theorem TakesLines.length_le {junk : Nat → UInt8} {f : LineFile} (h : TakesLines now r junk f) :
    f.lines.length ≤ 256 := by
  by_contra hmany
  obtain ⟨front, back, hcontent, hcount⟩ := f.exists_front (k := 256) (by omega)
  refine h.later front back hcontent (by omega) ((interpreted_next_iff ..).mpr ?_)
  rw [hcount]
  decide

/-- The reader takes the lines that it is to take exactly if each of the three is shorter than 256
chars and no line has a number greater than 256. -/
theorem takesLines_iff (now : Tm) (r : StorageRecord) (junk : Nat → UInt8) (f : LineFile) :
    TakesLines now r junk f ↔
      f.lines.length ≤ 256 ∧ ∀ k ∈ [1, 2, 3], ∀ line ∈ f.lines[k]?, line.length < 256 := by
  constructor
  · intro h
    have hlen := h.length_le
    have hnames := names_readLoop now r junk f hlen
    rw [names, h.path, h.historyName, h.lastName, Prod.mk.injEq, Prod.mk.injEq] at hnames
    obtain ⟨hpath, hhistory, hlast⟩ := hnames
    refine ⟨hlen, List.forall_mem_cons.mpr ⟨(map_text_eq_iff _).mp hpath.symm, ?_⟩⟩
    refine List.forall_mem_cons.mpr ⟨(map_text_eq_iff _).mp hhistory.symm, ?_⟩
    exact List.forall_mem_singleton.mpr ((map_text_eq_iff _).mp hlast.symm)
  · rintro ⟨hlen, hshort⟩
    have hnames := names_readLoop now r junk f hlen
    rw [(map_text_eq_iff _).mpr (hshort 1 (by decide)), (map_text_eq_iff _).mpr
      (hshort 2 (by decide)), (map_text_eq_iff _).mpr (hshort 3 (by decide)), names,
      Prod.mk.injEq, Prod.mk.injEq] at hnames
    obtain ⟨hpath, hhistory, hlast⟩ := hnames
    refine ⟨hpath, hhistory, hlast, ?_, fun front c back _ => i_toNat_lt _⟩
    intro front back hcontent hfour hlater
    have hmod := (interpreted_next_iff ..).mp hlater
    have hcount : f.content.count 10 = f.lines.length :=
      LineFile.count_flatMap f.lines fun line hline => (f.wellFormed line hline).1
    rw [hcontent, List.count_append, List.count_cons_self] at hcount
    have hsmall : front.count 10 + 1 < 257 := by omega
    simp only [List.mem_cons, List.not_mem_nil, or_false] at hmod
    omega

/-- The path has 256 chars. -/
def longPath : LineFile where
  lines := [recordHead, List.replicate 256 97, twoDays.1, twoDays.2]
  wellFormed := by decide +kernel

/-- The last of the lines is `x`, behind 257 empty ones. -/
def manyLines : LineFile where
  lines := List.replicate 257 [] ++ [[120]]
  wellFormed := by decide +kernel

/-- Of the long path nothing is left, and the line 258 becomes the path. -/
theorem not_takesLines :
    let now : Tm := ⟨126, 0, 3⟩
    let read (f : LineFile) := (readLoop now ⟨new [], fun _ => 0, 0, 0⟩ f.content).record
    ((read longPath).path = [] ∧ ¬ TakesLines now (new []) (fun _ => 0) longPath) ∧
      (read manyLines).path = [120] ∧ ¬ TakesLines now (new []) (fun _ => 0) manyLines := by
  intro now read
  have hlong : (read longPath).path = [] := by
    have hnames := names_readLoop now (new []) (fun _ => 0) longPath (by decide)
    have hsecond : longPath.lines[1]? = some (List.replicate 256 97) := rfl
    have htext : text (List.replicate 256 97) = [] := by decide +kernel
    rw [hsecond, Option.map_some, htext, names, Prod.mk.injEq] at hnames
    exact hnames.1
  have hmany : (read manyLines).path = [120] := by
    have hpath : ((manyLines.lines.zipIdx 1).foldl (readLine now) (new [])).path = [120] := by
      decide +kernel
    rw [← manyLines.completeLines_content] at hpath
    exact (congrArg path (record_readLoop (new []) _ manyLines.content)).trans hpath
  refine ⟨⟨hlong, fun h => ?_⟩, hmany, fun h => absurd h.length_le (by decide +kernel)⟩
  have hpath := hlong.symm.trans h.path
  cases hpath

end SocketMaster.StorageRecord
