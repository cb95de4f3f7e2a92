import SocketMaster.Conn.Answers
import Mathlib.Data.List.Nodup

/-!
# What warnings and `SET_INFO` replies report

A warning carries groups of eight words and, in front, how many groups there are. The default
group for a text that is too long or does not divide into groups is gathered in a vector that
is not sent.

The status of a `SET_INFO` reply tells only whether the shell of the last step could be
started: the exit status of a script is not looked at, a second step writes over the status of
the first, and the step that is to power the machine off runs another command.
-/
namespace SocketMaster

open Library

namespace AppConn

/-- The words of a text: what stands between the white space. -/
def tokens (infos : List UInt8) : List (List UInt8) := (infos.splitOnP isSpace).filter (· ≠ [])

theorem tokens_of_forall_not {w : List UInt8} (h : ∀ c ∈ w, isSpace c = false) :
    tokens w = if w = [] then [] else [w] := by
  rw [tokens, List.splitOnP_eq_singleton h]
  split_ifs with hw
  · subst hw
    rfl
  · exact List.filter_cons_of_pos (decide_eq_true hw)

theorem tokens_append_space {c : UInt8} (hc : isSpace c = true) (xs ys : List UInt8) :
    tokens (xs ++ c :: ys) = tokens xs ++ tokens ys := by
  rw [tokens, List.splitOnP_append_cons xs ys hc, List.filter_append]
  rfl

/-- What `>>` has read of a word is carried along until white space or the end closes it. -/
theorem tokensFrom_eq_tokens {cur : List UInt8} (hcur : ∀ c ∈ cur, isSpace c = false)
    (xs : List UInt8) : tokensFrom cur xs = tokens (cur ++ xs) := by
  induction xs generalizing cur with
  | nil => rw [List.append_nil, tokens_of_forall_not hcur, tokensFrom]
  | cons c xs ih =>
    rw [tokensFrom]
    by_cases hc : isSpace c = true
    · have hnil : tokensFrom [] xs = tokens xs := ih (List.forall_mem_nil _)
      rw [if_pos hc, hnil, tokens_append_space hc, tokens_of_forall_not hcur]
      split_ifs with h
      · rfl
      · rfl
    · rw [if_neg hc, ih, List.append_assoc, List.singleton_append]
      intro d hd
      rcases List.mem_append.mp hd with hd | hd
      · exact hcur d hd
      · rw [List.mem_singleton.mp hd]
        exact Bool.eq_false_of_not_eq_true hc

theorem tokensFrom_nil (xs : List UInt8) : tokensFrom [] xs = tokens xs :=
  tokensFrom_eq_tokens (List.forall_mem_nil _) xs

/-- The group of a warning that cannot be told: no position, and ones for the size, the center
and the captured area. -/
def defaultGroup : List (List UInt8) :=
  [zeroText, zeroText, zeroText, oneText, oneText, oneText, oneText, oneText]

/-- The text is not longer than `FRAME_MAX_LEN`, and divides into groups of eight words. -/
def Groups (infos : List UInt8) : Prop := infos.length ≤ 256 ∧ (tokens infos).length % 8 = 0

/-- The parameters of a warning: how many groups there are, and the groups. They are the words
of the text where it divides into groups, and one default group otherwise. -/
structure Coherent (infos : List UInt8) (paras : List (List UInt8)) : Prop where
  shape : ∃ g groups, paras = decimal g :: groups ∧ groups.length = 8 * g
  own : Groups infos → paras.tail = tokens infos
  default : ¬ Groups infos → paras = oneText :: defaultGroup

theorem warnParas_of_groups {infos : List UInt8} (h : Groups infos) :
    warnParas infos = decimal ((tokens infos).length / 8) :: tokens infos := by
  rw [warnParas, tokensFrom_nil, if_neg (by have := h.1; omega), if_neg (not_not_intro h.2)]

/-- In the other branches nothing reaches the vector that is sent. -/
theorem warnParas_of_not_groups {infos : List UInt8} (h : ¬ Groups infos) :
    warnParas infos = [] := by
  rw [warnParas, tokensFrom_nil]
  split_ifs with hlen hmod
  · rfl
  · rfl
  · exact absurd ⟨Nat.not_lt.mp hlen, not_not.mp hmod⟩ h

/-- A warning has the right parameters exactly if its text divides into groups of eight words
and is not too long. -/
theorem warn_coherent_iff (cs : CharSign) (arr : Int → UInt8) (channel : List UInt8) (c : AppConn)
    (info : List UInt8) :
    (warn cs arr channel c info).made =
        some (Frame.make cs arr nanoId appId typeHost Cmd.warn (warnParas (cString info))) ∧
      (Coherent (cString info) (warnParas (cString info)) ↔ Groups (cString info)) := by
  refine ⟨rfl, ?_, ?_⟩
  · intro hcoh
    by_contra hgroups
    obtain ⟨g, groups, heq, -⟩ := hcoh.shape
    rw [warnParas_of_not_groups hgroups] at heq
    cases heq
  · intro hgroups
    have hparas := warnParas_of_groups hgroups
    exact {
      shape := ⟨_, _, hparas, (Nat.mul_div_cancel' (Nat.dvd_of_mod_eq_zero hgroups.2)).symm⟩
      own := fun _ => by rw [hparas, List.tail_cons]
      default := fun h => absurd hgroups h }

/-- A warning of one word is sent with no parameters at all. -/
theorem not_coherent_one_word : ¬ Coherent (cString [97]) (warnParas (cString [97])) := by
  rintro ⟨⟨g, groups, heq, -⟩, -, -⟩
  have hnone : warnParas (cString [97]) = [] := by decide
  rw [hnone] at heq
  cases heq

/-! ### `SET_INFO` -/

/-- The scripts that an action is meant to run. -/
def scripts (t : Int) : List String :=
  if t = 1 then ["/home/hhu/start/run.sh"]
  else if t = 2 then ["/home/hhu/start/save.sh", "/home/hhu/start/kill.sh"]
  else if t = 3 then ["/home/hhu/start/save-no-color.sh", "/home/hhu/start/kill.sh"]
  else if t = 4 then ["/home/hhu/start/poweroff.sh"]
  else []

/-- Each script of an action was one of the commands run, and exited with 0. -/
def Succeeded (system : Nat → Int) (t : Int) (commands : List String) : Prop :=
  ∀ script ∈ scripts t, ∃ k, commands[k]? = some script ∧ system k = 0

/-- Success is reported for nothing but an action that did succeed. -/
def Honest (system : Nat → Int) (t : Int) (status : List UInt8) (commands : List String) : Prop :=
  status = zeroText → t = 0 ∨ 1 ≤ t ∧ t ≤ 4 ∧ Succeeded system t commands

/-- The results of `system` that the status does reflect: that of the last script is -1, or
each script exits with 0. At power off the command that is run in place of the script must
fail to start. -/
structure Reflected (system : Nat → Int) (t : Int) : Prop where
  run : t = 1 → system 0 = -1 ∨ system 0 = 0
  save : t = 2 ∨ t = 3 → system 1 = -1 ∨ system 0 = 0 ∧ system 1 = 0
  poweroff : t = 4 → system 0 = -1

/-- A request to act: its first parameter reads as `t`. -/
structure SetInfoRequest (f : Frame) (a : List UInt8) (t : Int) : Prop where
  type : f.type ≠ typeAck
  cmd : f.cmd = Cmd.setInfo
  para : f.FirstPara a
  parses : stoi a = .ok t

theorem commandStatus_eq_zeroText_iff {result : Int} :
    commandStatus result = zeroText ↔ result ≠ -1 := by
  unfold commandStatus
  split_ifs with h
  · exact iff_of_false (by decide) (not_not_intro h)
  · exact iff_of_true rfl h

/-- Where the commands are the scripts themselves, no two of them the same, each result is the
result of one script. -/
theorem succeeded_iff_of_nodup {system : Nat → Int} {t : Int} (hnodup : (scripts t).Nodup) :
    Succeeded system t (scripts t) ↔ ∀ k < (scripts t).length, system k = 0 := by
  constructor
  · intro h k hk
    obtain ⟨j, hj, hzero⟩ := h _ (List.getElem_mem hk)
    obtain ⟨hlt, hget⟩ := List.getElem?_eq_some_iff.mp hj
    rwa [hnodup.getElem_inj_iff.mp hget] at hzero
  · intro h script hscript
    obtain ⟨k, hk, rfl⟩ := List.getElem_of_mem hscript
    exact ⟨k, List.getElem?_eq_getElem hk, h k hk⟩

variable {system : Nat → Int} {t : Int}

/-- The action of one script. -/
theorem honest_run_iff :
    Honest system 1 (commandStatus (system 0)) (scripts 1) ↔ system 0 = -1 ∨ system 0 = 0 := by
  have hsucc : Succeeded system 1 (scripts 1) ↔ system 0 = 0 := by
    have hlen : (scripts 1).length = 1 := rfl
    rw [succeeded_iff_of_nodup (by decide), hlen]
    simp
  rw [Honest, commandStatus_eq_zeroText_iff, hsucc]
  omega

/-- The actions of two scripts, of which the second gives the status. -/
theorem honest_save_iff (ht : t = 2 ∨ t = 3) :
    Honest system t (commandStatus (system 1)) (scripts t) ↔
      system 1 = -1 ∨ system 0 = 0 ∧ system 1 = 0 := by
  have hscripts : (scripts t).Nodup ∧ (scripts t).length = 2 := by
    rcases ht with rfl | rfl
    · decide
    · decide
  have hsucc : Succeeded system t (scripts t) ↔ system 0 = 0 ∧ system 1 = 0 := by
    rw [succeeded_iff_of_nodup hscripts.1, hscripts.2]
    constructor
    · intro h
      exact ⟨h 0 Nat.zero_lt_two, h 1 Nat.one_lt_two⟩
    · rintro ⟨hfirst, hsecond⟩ k hk
      obtain rfl | rfl : k = 0 ∨ k = 1 := by omega
      · exact hfirst
      · exact hsecond
  rw [Honest, commandStatus_eq_zeroText_iff, hsucc]
  omega

/-- The script that powers off is never among the commands. -/
theorem not_succeeded_poweroff : ¬ Succeeded system 4 ["command"] := by
  intro h
  obtain ⟨k, hk, -⟩ := h "/home/hhu/start/poweroff.sh" (by decide)
  have hmem := List.mem_of_getElem? hk
  exact absurd hmem (by decide)

theorem honest_poweroff_iff :
    Honest system 4 (commandStatus (system 0)) ["command"] ↔ system 0 = -1 := by
  rw [Honest, commandStatus_eq_zeroText_iff]
  constructor
  · intro h
    by_contra hres
    rcases h hres with h0 | ⟨-, -, hsucc⟩
    · omega
    · exact not_succeeded_poweroff hsucc
  · intro hres hne
    exact absurd hres hne

/-- The status of each action, and when it is to be trusted. -/
theorem honest_setInfoAction_iff (system : Nat → Int) (t : Int) :
    Honest system t (setInfoAction system t).1 (setInfoAction system t).2 ↔ Reflected system t := by
  unfold setInfoAction
  split_ifs with h0 h1 h2 h3 h4
  · exact iff_of_true (fun _ => .inl h0) ⟨by omega, by omega, by omega⟩
  · subst h1
    exact honest_run_iff.trans ⟨fun h => ⟨fun _ => h, by omega, by omega⟩, fun h => h.run rfl⟩
  · subst h2
    exact (honest_save_iff (.inl rfl)).trans
      ⟨fun h => ⟨by omega, fun _ => h, by omega⟩, fun h => h.save (.inl rfl)⟩
  · subst h3
    exact (honest_save_iff (.inr rfl)).trans
      ⟨fun h => ⟨by omega, fun _ => h, by omega⟩, fun h => h.save (.inr rfl)⟩
  · subst h4
    exact honest_poweroff_iff.trans
      ⟨fun h => ⟨by omega, by omega, fun _ => h⟩, fun h => h.poweroff rfl⟩
  · exact iff_of_true (fun h => absurd h (by decide)) ⟨by omega, by omega, by omega⟩

/-- A request to start. -/
def startRequest : Frame := { type := typeHost, cmd := Cmd.setInfo, paras := [oneText] }

theorem startRequest_spec : SetInfoRequest startRequest oneText 1 where
  type := by decide
  cmd := rfl
  para := rfl
  parses := rfl

/-- An operating system where every script exits with `1`. -/
def scriptsFail : Env := { printsNinetyNine with system := fun _ => 256 }

/-- A request to act is answered with its parameter and the status of the action, which is "0"
without success except where the results of `system` are reflected in it. -/
theorem setInfo_honest_iff (cs : CharSign) (env : Env) (channel : List UInt8) (c : AppConn)
    {f : Frame} {a : List UInt8} {t : Int} (hreq : SetInfoRequest f a t) :
    frameProcess cs env channel c f = .ok (c.reply channel
        (Frame.make cs env.arr nanoId appId typeAck Cmd.setInfo
          [a, (setInfoAction env.system t).1]) (setInfoAction env.system t).2) ∧
      (Honest env.system t (setInfoAction env.system t).1 (setInfoAction env.system t).2 ↔
        Reflected env.system t) := by
  have hanswer : Answer cs env channel c f _ :=
    .setInfo hreq.type hreq.cmd hreq.para hreq.parses
  exact ⟨hanswer.ok, honest_setInfoAction_iff env.system t⟩

theorem setInfo_honest_iff_start :
    let c := new (fun _ => 0) fun _ => 0
    let r := setInfoAction scriptsFail.system 1
    SetInfoRequest startRequest oneText 1 ∧
      frameProcess .signed scriptsFail [] c startRequest = .ok (c.reply []
        (Frame.make .signed scriptsFail.arr nanoId appId typeAck Cmd.setInfo [oneText, r.1]) r.2) ∧
      (Honest scriptsFail.system 1 r.1 r.2 ↔ Reflected scriptsFail.system 1) :=
  ⟨startRequest_spec, setInfo_honest_iff .signed scriptsFail [] _ startRequest_spec⟩

/-- The start script fails, and the reply reports success. -/
theorem not_honest_start :
    SetInfoRequest startRequest oneText 1 ∧
      ¬ Honest scriptsFail.system 1 (setInfoAction scriptsFail.system 1).1
        (setInfoAction scriptsFail.system 1).2 := by
  refine ⟨startRequest_spec, ?_⟩
  rw [honest_setInfoAction_iff]
  intro h
  exact absurd (h.run rfl) (by decide)

end AppConn

end SocketMaster
