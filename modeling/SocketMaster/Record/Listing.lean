import SocketMaster.Library.Neighbours
import SocketMaster.Record.Basic

/-!
# Which names are passed to `remove`

A recorded line saves the name that stands in front of the first name below the line. Which name
that is depends on the order of the listing, and a directory is listed in any. The names removed
are the same in every order exactly if none of them can have all its places saved.
-/
namespace SocketMaster.StorageRecord

open Library

/-- The lines of a file, as `getIndex` gets them. -/
def recordedLines (content : List UInt8) : List (List UInt8) :=
  (fgetsAll fileNameMaxLen [] content).map cString

/-- The comparison of `getIndex`: the name is less than the line. -/
def lessThan (line name : List UInt8) : Bool := name < line

theorem lessThan_of_le {v w : List UInt8} (hle : v ≤ w) (name : List UInt8)
    (h : lessThan v name) : lessThan w name := by
  have hlt : name < v := of_decide_eq_true h
  obtain hvw | rfl := List.le_iff_lt_or_eq.mp hle
  · exact decide_eq_true (List.lt_trans hlt hvw)
  · exact h

theorem nested_lessThan : Nested lessThan := by
  intro v w
  obtain hle | hle := List.le_total v w
  · exact .inl (lessThan_of_le hle)
  · exact .inr (lessThan_of_le hle)

/-! ## The names that are saved -/

/-- What one line does to `need_save`. -/
def saveLine (allFiles : List (List UInt8)) (needSave : List Bool) (line : List UInt8) :
    List Bool :=
  let index := getIndex (cString line) allFiles
  if 0 ≤ index then needSave.set index.toNat true else needSave

variable {allFiles : List (List UInt8)} {needSave : List Bool}

theorem saveLine_iff (h : needSave.length = allFiles.length) (line : List UInt8) (p : Nat) :
    (saveLine allFiles needSave line)[p]? = some true ↔
      needSave[p]? = some true ∨ allFiles.findIdx? (lessThan (cString line)) = some (p + 1) := by
  have hfind : allFiles.findIdx? (lessThan (cString line)) =
      allFiles.findIdx? (· < cString line) := rfl
  rw [hfind, saveLine, getIndex]
  cases hidx : allFiles.findIdx? (· < cString line) with
  | none => simp
  | some i =>
    obtain ⟨hlt, -⟩ := List.findIdx?_eq_some_iff_getElem.mp hidx
    cases i with
    | zero => simp
    | succ i =>
      have hindex : (0 : Int) ≤ ((i + 1 : Nat) : Int) - 1 := by omega
      have hnat : (((i + 1 : Nat) : Int) - 1).toNat = i := by omega
      dsimp only
      rw [if_pos hindex, hnat, List.getElem?_set]
      grind

theorem length_saveLine (line : List UInt8) :
    (saveLine allFiles needSave line).length = needSave.length := by
  unfold saveLine
  dsimp only
  split_ifs
  · exact List.length_set
  · rfl

/-- After all lines, the places are saved that one of them marks. -/
theorem foldl_saveLine_iff (h : needSave.length = allFiles.length) (lines : List (List UInt8))
    (p : Nat) :
    (lines.foldl (saveLine allFiles) needSave)[p]? = some true ↔
      needSave[p]? = some true ∨ Marked lessThan (lines.map cString) allFiles p := by
  induction lines generalizing needSave with
  | nil => simp [Marked]
  | cons line lines ih =>
    rw [List.foldl_cons, ih ((length_saveLine line).trans h), saveLine_iff h, or_assoc]
    simp [Marked]

theorem length_foldl_saveLine (allFiles : List (List UInt8)) (needSave : List Bool)
    (lines : List (List UInt8)) :
    (lines.foldl (saveLine allFiles) needSave).length = needSave.length := by
  induction lines generalizing needSave with
  | nil => rfl
  | cons line lines ih => rw [List.foldl_cons, ih, length_saveLine]

/-- A name is removed if one of its places is not saved. -/
theorem mem_findAndDeleteFiles {content name : List UInt8} :
    name ∈ findAndDeleteFiles (some content) allFiles ↔
      ∃ p : Nat, allFiles[p]? = some name ∧
        ¬ Marked lessThan (recordedLines content) allFiles p := by
  have hlen : (List.replicate allFiles.length false).length = allFiles.length :=
    List.length_replicate
  have hsaved : ∀ p : Nat,
      ((fgetsAll fileNameMaxLen [] content).foldl (saveLine allFiles)
        (List.replicate allFiles.length false))[p]? = some true ↔
          Marked lessThan (recordedLines content) allFiles p := by
    intro p
    rw [foldl_saveLine_iff hlen, or_iff_right]
    · rfl
    · grind
  have hlength := (length_foldl_saveLine allFiles (List.replicate allFiles.length false)
    (fgetsAll fileNameMaxLen [] content)).trans hlen
  have hdef : findAndDeleteFiles (some content) allFiles =
      ((allFiles.zip ((fgetsAll fileNameMaxLen [] content).foldl (saveLine allFiles)
        (List.replicate allFiles.length false))).filter fun p => !p.2).map Prod.fst := rfl
  rw [hdef]
  generalize (fgetsAll fileNameMaxLen [] content).foldl (saveLine allFiles)
    (List.replicate allFiles.length false) = needSave at hsaved hlength
  simp only [List.mem_map, List.mem_filter, List.mem_iff_getElem? (l := allFiles.zip needSave),
    List.getElem?_zip_eq_some, ← hsaved]
  constructor
  · rintro ⟨⟨name', saved⟩, ⟨⟨p, hname, hp⟩, hnot⟩, rfl⟩
    refine ⟨p, hname, ?_⟩
    grind
  · rintro ⟨p, hname, hp⟩
    obtain ⟨hlt, -⟩ := List.getElem?_eq_some_iff.mp hname
    obtain ⟨saved, hsome⟩ : ∃ saved, needSave[p]? = some saved :=
      ⟨_, List.getElem?_eq_getElem (by omega)⟩
    cases saved with
    | true => exact absurd hsome hp
    | false => exact ⟨(name, false), ⟨⟨p, hname, hsome⟩, rfl⟩, rfl⟩

/-! ## The order of the listing -/

/-- The names passed to `remove` are the same in every order of the listing. -/
def OrderFree (ref : Option (List UInt8)) (allFiles : List (List UInt8)) : Prop :=
  ∀ listing : List (List UInt8), listing.Perm allFiles →
    ∀ name, name ∈ findAndDeleteFiles ref listing ↔ name ∈ findAndDeleteFiles ref allFiles

/-- If a name is listed more often than it can be saved, all names are removed. -/
theorem mem_findAndDeleteFiles_of_lt {content name : List UInt8}
    (h : (cuts lessThan (recordedLines content) allFiles name).card < allFiles.count name) :
    name ∈ findAndDeleteFiles (some content) allFiles := by
  by_contra hnot
  rw [mem_findAndDeleteFiles] at hnot
  push Not at hnot
  exact absurd (count_le_card_cuts nested_lessThan hnot) (by omega)

/-- A name that is listed last is removed, whatever the lines are. -/
theorem mem_findAndDeleteFiles_last (content name : List UInt8) (front : List (List UInt8)) :
    name ∈ findAndDeleteFiles (some content) (front ++ [name]) := by
  refine mem_findAndDeleteFiles.mpr ⟨front.length, by simp, ?_⟩
  rintro ⟨line, -, hfind⟩
  obtain ⟨hlt, -⟩ := List.findIdx?_eq_some_iff_getElem.mp hfind
  rw [List.length_append, List.length_singleton] at hlt
  omega

/-- The order does not matter exactly if each name is listed more often than there are cuts of the
listing for it, or if the record file cannot be opened. -/
theorem orderFree_iff (ref : Option (List UInt8)) (allFiles : List (List UInt8)) :
    OrderFree ref allFiles ↔
      ∀ content ∈ ref, ∀ name ∈ allFiles,
        (cuts lessThan (recordedLines content) allFiles name).card < allFiles.count name := by
  constructor
  · rintro h content rfl name hname
    by_contra hfew
    -- the name is removed where it is listed last, but not where all its places are saved
    obtain ⟨listing, hperm, hmarked⟩ := exists_perm_marked nested_lessThan (not_lt.mp hfew)
    have hlast : (allFiles.erase name ++ [name]).Perm allFiles :=
      List.perm_append_comm.trans (List.perm_cons_erase hname).symm
    have hremoved := (h _ hlast name).mp (mem_findAndDeleteFiles_last content name _)
    obtain ⟨p, hp, hnot⟩ := mem_findAndDeleteFiles.mp ((h listing hperm name).mpr hremoved)
    exact hnot (hmarked p hp)
  · intro h listing hperm name
    cases ref with
    | none => exact Iff.rfl
    | some content =>
      have hall : ∀ files : List (List UInt8), files.Perm allFiles →
          (name ∈ findAndDeleteFiles (some content) files ↔ name ∈ allFiles) := by
        intro files hfiles
        constructor
        · intro hmem
          obtain ⟨p, hp, -⟩ := mem_findAndDeleteFiles.mp hmem
          exact hfiles.mem_iff.mp (List.mem_of_getElem? hp)
        · intro hname
          refine mem_findAndDeleteFiles_of_lt ?_
          rw [cuts_perm hfiles, hfiles.count_eq]
          exact h content rfl name hname
      rw [hall listing hperm, hall allFiles (.refl allFiles)]

/-- In a listing without repetitions no recorded line may come between two names. -/
theorem orderFree_iff_of_nodup {allFiles : List (List UInt8)} (hnodup : allFiles.Nodup)
    (content : List UInt8) :
    OrderFree (some content) allFiles ↔
      ∀ line ∈ recordedLines content, ∀ name ∈ allFiles, ∀ other ∈ allFiles,
        lessThan line other → lessThan line name := by
  have hone : ∀ name ∈ allFiles, allFiles.count name = 1 := fun name hname =>
    List.count_eq_one_of_mem hnodup hname
  rw [orderFree_iff]
  constructor
  · intro h line hline name hname other hother hless
    by_contra hnot
    have hpos := List.countP_pos_iff.mpr ⟨other, hother, hless⟩
    have hcut := mem_cuts.mpr ⟨hpos, line, hline, hnot, rfl⟩
    have hcard := Finset.card_pos.mpr ⟨_, hcut⟩
    have hlt := h content rfl name hname
    rw [hone name hname] at hlt
    omega
  · rintro h _ ⟨⟩ name hname
    rw [hone name hname, Nat.lt_one_iff, Finset.card_eq_zero, Finset.eq_empty_iff_forall_notMem]
    intro n hn
    obtain ⟨hpos, line, hline, hnot, rfl⟩ := mem_cuts.mp hn
    obtain ⟨other, hother, hless⟩ := List.countP_pos_iff.mp hpos
    exact hnot (h line hline name hname other hother hless)

/-- The line `b` saves the name `c` if it is listed in front of `a`, and no name otherwise. -/
theorem not_orderFree :
    let files : List (List UInt8) := [[97], [99]]
    findAndDeleteFiles (some [98, 10]) files.reverse = [[97]] ∧
      findAndDeleteFiles (some [98, 10]) files = files ∧ ¬ OrderFree (some [98, 10]) files := by
  have hdown : findAndDeleteFiles (some [98, 10]) [[99], [97]] = [[97]] := by decide +kernel
  have hup : findAndDeleteFiles (some [98, 10]) [[97], [99]] = [[97], [99]] := by decide +kernel
  refine ⟨hdown, hup, fun h => ?_⟩
  have hsame := h [[99], [97]] (.swap [97] [99] []) [99]
  rw [hdown, hup] at hsame
  exact absurd (hsame.mpr (by decide)) (by decide)

end SocketMaster.StorageRecord
