import SocketMaster.Library.Codes
import SocketMaster.Frame.Made

/-!
# Frames one after the other

What `make` writes can be told apart. The length digits say where a frame ends, and the spaces say
where a parameter ends, so a client that has received some frames one after the other knows which
ones they were, whatever the check digits say.
-/
namespace SocketMaster

open Library

/-- The bytes that `make` stores. -/
theorem Frame.cells_make (cs : CharSign) (dst : Int → UInt8) (host client type cmd : UInt8)
    (paras : List (List UInt8)) :
    let made := Frame.make cs dst host client type cmd paras
    let bytes := Frame.checked host client type cmd paras
    cells made.1.mem 0 made.2.toNat = frameHead :: (digitChars (parasLength paras + 9) 4 ++
      (bytes ++ (digitChars ((cs.sum bytes).tmod 1000) 3 ++ [newline]))) := by
  intro made bytes
  have hshows := Frame.shows_make cs dst host client type cmd paras
  have hlen : made.2.toNat = (frameHead :: (digitChars (parasLength paras + 9) 4 ++
      (bytes ++ (digitChars ((cs.sum bytes).tmod 1000) 3 ++ [newline])))).length := by
    simp only [made, bytes, Frame.make_ret, List.length_cons, List.length_append,
      length_digitChars, Frame.checked, length_parasBytes, List.length_nil]
    omega
  rw [hlen]
  exact hshows

/-- Four digits say which number below 10000 they stand for. -/
theorem digitChars_inj {n n' : Nat} (hn : n + 9 ≤ 9999) (hn' : n' + 9 ≤ 9999)
    (h : digitChars (n + 9) 4 = digitChars (n' + 9) 4) : n = n' := by
  have hnat := (decimal_digitChars (k := 4) (v := n + 9) (by omega)).value
  have hnat' := (decimal_digitChars (k := 4) (v := n' + 9) (by omega)).value
  push_cast at hnat hnat'
  rw [h, hnat'] at hnat
  omega

/-- The arguments of a call of `make` whose length field does not wrap. -/
structure Message where
  host : UInt8
  client : UInt8
  type : UInt8
  cmd : UInt8
  paras : List (List UInt8)
  spaceless : ∀ p ∈ paras, space ∉ p
  fits : parasLength paras + 9 ≤ 9999

namespace Message

/-- What `SendCmd` queues of it. -/
def wire (cs : CharSign) (msg : Message) : List UInt8 :=
  let made := Frame.make cs (fun _ => 0) msg.host msg.client msg.type msg.cmd msg.paras
  cells made.1.mem 0 made.2.toNat

def body (msg : Message) : List UInt8 :=
  Frame.checked msg.host msg.client msg.type msg.cmd msg.paras

theorem wire_eq (cs : CharSign) (msg : Message) : ∃ check,
    check.length = 3 ∧ msg.wire cs = frameHead :: (digitChars (parasLength msg.paras + 9) 4 ++
      (msg.body ++ (check ++ [newline]))) :=
  ⟨digitChars ((cs.sum msg.body).tmod 1000) 3, length_digitChars .., Frame.cells_make ..⟩

theorem paras_eq {msg msg' : Message} (h : parasBytes msg.paras = parasBytes msg'.paras) :
    msg.paras = msg'.paras :=
  (prefixCode_ended space).eq_of_flatMap_eq (fun _ _ => by simp) msg.spaceless msg'.spaceless h

/-- Frames are a prefix code. -/
theorem prefixCode_wire (cs : CharSign) : PrefixCode (fun _ : Message => True) (wire cs) := by
  intro msg msg' xs ys _ _ heq
  obtain ⟨check, -, hwire⟩ := msg.wire_eq cs
  obtain ⟨check', -, hwire'⟩ := msg'.wire_eq cs
  rw [hwire, hwire'] at heq
  simp only [List.cons_append, List.append_assoc] at heq
  obtain ⟨-, heq⟩ := List.cons.inj heq
  obtain ⟨hdigits, heq⟩ := List.append_inj heq (by rw [length_digitChars, length_digitChars])
  -- the four digits are the same, so the bodies are equally long
  have hlength := digitChars_inj msg.fits msg'.fits hdigits
  obtain ⟨hbody, -⟩ := List.append_inj heq (by
    simp only [body, Frame.checked, List.length_cons, length_parasBytes, hlength])
  simp only [body, Frame.checked, List.cons.injEq] at hbody
  obtain ⟨hhost, hclient, htype, hcmd, hparas⟩ := hbody
  have hall := paras_eq hparas
  cases msg
  cases msg'
  simp only [mk.injEq]
  exact ⟨hhost, hclient, htype, hcmd, hall⟩

theorem wire_ne_nil (cs : CharSign) (msg : Message) : msg.wire cs ≠ [] := by
  obtain ⟨check, -, hwire⟩ := msg.wire_eq cs
  rw [hwire]
  nofun

/-- What a client has received of a stream of frames determines the frames, and what it received
before is the beginning of what it has received by now. -/
theorem stream_decodable (cs : CharSign) (msgs msgs' : List Message) :
    (msgs.flatMap (wire cs) = msgs'.flatMap (wire cs) ↔ msgs = msgs') ∧
      (msgs.flatMap (wire cs) <+: msgs'.flatMap (wire cs) ↔ msgs <+: msgs') := by
  have hne : ∀ msg : Message, True → msg.wire cs ≠ [] := fun msg _ => msg.wire_ne_nil cs
  have hall : ∀ (msgs : List Message), ∀ msg ∈ msgs, True := fun _ _ _ => trivial
  refine ⟨⟨fun h => ?_, fun h => by rw [h]⟩, ⟨fun h => ?_, ?_⟩⟩
  · exact (prefixCode_wire cs).eq_of_flatMap_eq hne (hall msgs) (hall msgs') h
  · exact (prefixCode_wire cs).prefix_of_flatMap hne (hall msgs) (hall msgs') h
  · rintro ⟨rest, rfl⟩
    rw [List.flatMap_append]
    exact List.prefix_append ..

end Message

end SocketMaster
