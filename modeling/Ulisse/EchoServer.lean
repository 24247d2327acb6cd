import Mathlib.Data.List.ReduceOption
import Ulisse.Lib.Drain
import Ulisse.Lib.Run
import Ulisse.Lib.Stdio
import Ulisse.Packet

/-!
# EchoServer — the receiver of the echo server

`serialEvent` and `loop` of `echo_server.ino`, a round for each chunk of bytes that becomes
available.  A packet is copied when the count of bytes is that of a packet behind a round, not when
it gets there, so which packets are copied depends on where rounds end (`echo_receives_iff`).
-/

namespace Ulisse

open ByteMem Stdio Run Drain

structure PacketHeader where
  type : UInt8
  size : UInt8
  seq : UInt16
  deriving DecidableEq, Repr

structure ParamControlPacket where
  header : PacketHeader
  action : UInt8
  paramType : UInt8
  deriving DecidableEq, Repr

namespace ParamControlPacket

/-- The packet in memory. -/
def toBytes (p : ParamControlPacket) : List UInt8 :=
  [p.header.type, p.header.size, lowByte p.header.seq, highByte p.header.seq, p.action, p.paramType]

/-- The packet that bytes are. -/
def ofBytes (bs : List UInt8) : ParamControlPacket :=
  ⟨⟨bs.getD 0 0, bs.getD 1 0, headerSeq bs⟩, bs.getD 4 0, bs.getD 5 0⟩

theorem ofBytes_toBytes (p : ParamControlPacket) : ofBytes p.toBytes = p := by
  show (⟨⟨p.header.type, p.header.size, word (lowByte p.header.seq) (highByte p.header.seq)⟩,
    p.action, p.paramType⟩ : ParamControlPacket) = p
  rw [word_bytes]

theorem length_toBytes (p : ParamControlPacket) : p.toBytes.length = sizeofParamControlPacket :=
  rfl

end ParamControlPacket

/-- The variables of the sketch, with the bytes that are available and those that were sent. -/
structure Echo where
  avail : List UInt8
  buf : Fin 256 → UInt8
  readBytes : UInt8
  echoFlag : Bool
  pcp : ParamControlPacket
  sent : List UInt8

namespace Echo

/-! ## The sketch -/

def ascii (s : String) : List UInt8 := s.toList.map fun c => UInt8.ofNat c.toNat

/-- `%d`, of an unsigned argument. -/
def decimal (n : ℕ) : List UInt8 := sprintf ⟨4, .d, 0⟩ (BitVec.ofNat 32 n)

/-- `PacketHeader_print`. -/
def headerPrint (h : PacketHeader) : List UInt8 :=
  ascii "Header: [PacketType]: " ++ decimal h.type.toNat ++ ascii ", [PacketSize]: " ++
    decimal h.size.toNat ++ ascii ", [packetSeq]: " ++ decimal h.seq.toNat ++ ascii "\n"

/-- `ParamControlPacket_print`. -/
def packetPrint (p : ParamControlPacket) : List UInt8 :=
  headerPrint p.header ++ ascii "ParamControlPacket: [action]: " ++ decimal p.action.toNat ++
    ascii ", [param_type]: " ++ decimal p.paramType.toNat ++ ascii "\n"

/-- The loop of `serialEvent`: the bytes that stay available, `buf` and `read_bytes`. -/
def receive : List UInt8 → (Fin 256 → UInt8) → UInt8 → List UInt8 × (Fin 256 → UInt8) × UInt8
  | [], buf, readBytes => ([], buf, readBytes)
  | b :: rest, buf, readBytes =>
    let buf := Function.update buf ⟨readBytes.toNat, readBytes.toNat_lt⟩ b
    let readBytes := readBytes + 1
    if b = 0 then (rest, buf, readBytes) else receive rest buf readBytes

theorem packet_fits : 0 + sizeofParamControlPacket ≤ 256 := by decide

/-- `serialEvent`, and the packet that it copies. -/
def serialEvent (s : Echo) : Echo × Option ParamControlPacket :=
  let r := receive s.avail s.buf s.readBytes
  let s := { s with avail := r.1, buf := r.2.1, readBytes := r.2.2 }
  if s.readBytes.toNat = sizeofParamControlPacket then
    let p := ParamControlPacket.ofBytes (slice s.buf 0 sizeofParamControlPacket packet_fits)
    ({ s with pcp := p, echoFlag := true }, some p)
  else (s, none)

/-- `loop`. -/
def loop (s : Echo) : Echo :=
  if s.echoFlag then
    let pcp := { s.pcp with action := 1 }
    let text := packetPrint pcp
    { s with
      echoFlag := false, pcp, buf := overwrite s.buf 0 (text ++ [0]), sent := s.sent ++ text
      readBytes := 0 }
  else s

/-- A chunk becomes available, then `serialEvent` and `loop` run. -/
def round (s : Echo) (chunk : List UInt8) : Option (Echo × Option ParamControlPacket) :=
  let r := serialEvent { s with avail := s.avail ++ chunk }
  some (loop r.1, r.2)

/-- The sketch with nothing received. -/
def start (buf : Fin 256 → UInt8) (pcp : ParamControlPacket) (sent : List UInt8) : Echo :=
  ⟨[], buf, 0, false, pcp, sent⟩

/-! ## The bytes of a lap -/

/-- The bytes `acc` were received since the last packet: `buf` holds those of the last lap of
`read_bytes`. -/
structure Lap (acc : List UInt8) (buf : Fin 256 → UInt8) (readBytes : UInt8) : Prop where
  count : readBytes.toNat = acc.length % 256
  bytes : ∀ i : Fin 256, i.val < readBytes.toNat →
    acc[acc.length - readBytes.toNat + i.val]? = some (buf i)

section Lap

variable {acc avail : List UInt8} {buf : Fin 256 → UInt8} {readBytes : UInt8}

theorem lap_nil (buf : Fin 256 → UInt8) : Lap [] buf 0 :=
  ⟨rfl, fun i h => absurd h (Nat.not_lt_zero i)⟩

/-- **A byte more.** -/
theorem Lap.push (h : Lap acc buf readBytes) (b : UInt8) :
    Lap (acc ++ [b]) (Function.update buf ⟨readBytes.toNat, readBytes.toNat_lt⟩ b)
      (readBytes + 1) := by
  have hcount := h.count
  have hnext : (readBytes + 1).toNat = (readBytes.toNat + 1) % 256 := UInt8.toNat_add _ _
  have hle : readBytes.toNat ≤ acc.length := hcount ▸ Nat.mod_le _ _
  have hlen : (acc ++ [b]).length = acc.length + 1 := List.length_append
  constructor
  · rw [hnext, hlen]
    omega
  · intro i hi
    -- behind the last cell the count starts again
    have hlt := readBytes.toNat_lt
    have hsucc : (readBytes + 1).toNat = readBytes.toNat + 1 := by omega
    rw [hlen, hsucc]
    by_cases hin : i = ⟨readBytes.toNat, readBytes.toNat_lt⟩
    · subst hin
      show (acc ++ [b])[acc.length + 1 - (readBytes.toNat + 1) + readBytes.toNat]? = _
      rw [Function.update_self, List.getElem?_append_right (by omega),
        show acc.length + 1 - (readBytes.toNat + 1) + readBytes.toNat - acc.length = 0 by omega]
      rfl
    · have hne : i.val ≠ readBytes.toNat := by
        intro heq
        exact hin (Fin.ext heq)
      have hbyte := h.bytes i (by omega)
      rw [Function.update_of_ne hin, List.getElem?_append_left (by omega), ← hbyte]
      congr 1
      omega

/-- What the loop of `serialEvent` takes. -/
theorem receive_split (h : Lap acc buf readBytes) (avail : List UInt8) :
    ∃ buf' readBytes', receive avail buf readBytes =
        ((split (· == 0) avail).2, buf', readBytes') ∧
      Lap (acc ++ (split (· == 0) avail).1) buf' readBytes' := by
  induction avail generalizing acc buf readBytes with
  | nil => exact ⟨buf, readBytes, rfl, by rw [split, List.append_nil]; exact h⟩
  | cons b rest ih =>
    have hpush := h.push b
    rw [split, receive]
    by_cases hb : b = 0
    · rw [if_pos hb, if_pos (beq_iff_eq.mpr hb)]
      exact ⟨_, _, rfl, hpush⟩
    · obtain ⟨buf', readBytes', hreceive, hlap⟩ := ih hpush
      rw [if_neg hb, if_neg (by rwa [beq_iff_eq])]
      refine ⟨buf', readBytes', hreceive, ?_⟩
      rwa [List.append_assoc] at hlap

/-- **The packet in the buffer** are the last bytes received. -/
theorem Lap.packet (h : Lap acc buf readBytes)
    (hcount : readBytes.toNat = sizeofParamControlPacket) :
    slice buf 0 sizeofParamControlPacket packet_fits =
      acc.drop (acc.length - sizeofParamControlPacket) := by
  have hle : sizeofParamControlPacket ≤ acc.length := by
    rw [← hcount, h.count]
    exact Nat.mod_le _ _
  apply List.ext_getElem
  · rw [length_slice, List.length_drop]
    omega
  · intro i h1 h2
    have hi : i < readBytes.toNat := by
      rwa [length_slice, ← hcount] at h1
    have hlt : i < 256 := hi.trans readBytes.toNat_lt
    have hbyte := h.bytes ⟨i, hlt⟩ hi
    rw [hcount] at hbyte
    obtain ⟨hin, hget⟩ := List.getElem?_eq_some_iff.mp hbyte
    rw [getElem_slice, List.getElem_drop, hget]
    congr 1
    apply Fin.ext
    exact Nat.zero_add i

end Lap

/-! ## The rounds -/

/-- Nothing is pending behind a round, and `acc` was received since the last packet. -/
structure Receiving (s : Echo) (acc : List UInt8) : Prop where
  idle : s.echoFlag = false
  lap : Lap acc s.buf s.readBytes

section Rounds

variable {s : Echo} {acc : List UInt8}

theorem loop_idle (h : s.echoFlag = false) : loop s = s := by
  rw [loop, h]
  rfl

/-- **A round** takes bytes, and copies a packet if the count of bytes is that of one. -/
theorem round_delivers (h : Receiving s acc) (chunk : List UInt8) :
    ∃ t o acc', round s chunk = some (t, o) ∧
      t.avail = (split (· == 0) (s.avail ++ chunk)).2 ∧
      acc' = acc ++ (split (· == 0) (s.avail ++ chunk)).1 ∧
      ((acc'.length % 256 = sizeofParamControlPacket ∧
          o = some (.ofBytes (acc'.drop (acc'.length - sizeofParamControlPacket))) ∧
          Receiving t []) ∨
        (acc'.length % 256 ≠ sizeofParamControlPacket ∧ o = none ∧ Receiving t acc')) := by
  obtain ⟨buf', readBytes', hreceive, hlap⟩ := receive_split h.lap (s.avail ++ chunk)
  simp only [round, serialEvent, hreceive]
  by_cases hfull : readBytes'.toNat = sizeofParamControlPacket
  · rw [if_pos hfull, hlap.packet hfull]
    exact ⟨_, _, _, rfl, rfl, rfl, Or.inl ⟨hlap.count.symm.trans hfull, rfl, rfl, lap_nil _⟩⟩
  · rw [if_neg hfull]
    refine ⟨{ s with avail := _, buf := buf', readBytes := readBytes' }, none, _, ?_, rfl, rfl,
      Or.inr ⟨fun heq => hfull (hlap.count.trans heq), rfl, h.idle, hlap⟩⟩
    exact congrArg (fun t => some (t, none)) (loop_idle h.idle)

/-- **What a run copies** are the blocks that a counting receiver gives out. -/
theorem run_delivers (h : Receiving s acc) (chunks : List (List UInt8)) :
    ∃ t os, run round s chunks = some (t, os) ∧ t.avail = (drains (· == 0) s.avail chunks).2 ∧
      os.reduceOption = (deliver sizeofParamControlPacket 256 acc
        (drains (· == 0) s.avail chunks).1).map ParamControlPacket.ofBytes := by
  induction chunks generalizing s acc with
  | nil => exact ⟨s, [], rfl, rfl, rfl⟩
  | cons c cs ih =>
    obtain ⟨t, o, acc', hround, havail, rfl, hrest⟩ := round_delivers h c
    -- the rounds behind this one
    have hnext : ∀ {acc''}, Receiving t acc'' → ∃ u os, run round s (c :: cs) = some (u, o :: os) ∧
        u.avail = (drains (· == 0) (split (· == 0) (s.avail ++ c)).2 cs).2 ∧
        os.reduceOption = (deliver sizeofParamControlPacket 256 acc''
          (drains (· == 0) (split (· == 0) (s.avail ++ c)).2 cs).1).map
            ParamControlPacket.ofBytes := by
      intro acc'' ht
      obtain ⟨u, os, hrun, huavail, hos⟩ := ih ht
      rw [havail] at huavail hos
      refine ⟨u, os, ?_, huavail, hos⟩
      rw [run_cons_of hround, hrun]
      rfl
    rw [drains, deliver]
    rcases hrest with ⟨hfull, ho, ht⟩ | ⟨hfull, ho, ht⟩
    · obtain ⟨u, os, hrun, huavail, hos⟩ := hnext ht
      refine ⟨u, o :: os, hrun, huavail, ?_⟩
      rw [if_pos hfull, ho, List.reduceOption_cons_of_some, hos, List.map_cons]
    · obtain ⟨u, os, hrun, huavail, hos⟩ := hnext ht
      refine ⟨u, o :: os, hrun, huavail, ?_⟩
      rw [if_neg hfull, ho, List.reduceOption_cons_of_none, hos]

end Rounds

end Echo

/-! ## All packets, once and in order -/

/-- Behind every packet but the last a round ends: the packet ends in a zero byte, or with a chunk
such that the rounds before were enough for the zero bytes in front of its end. -/
def RoundsEnd (packets : List ParamControlPacket) (chunks : List (List UInt8)) : Prop :=
  ∀ k, 0 < k → k < packets.length → StopsAt (· == 0) chunks (sizeofParamControlPacket * k)

section Echo

variable {packets : List ParamControlPacket} {chunks : List (List UInt8)}

theorem length_flatten_toBytes (packets : List ParamControlPacket) :
    (packets.map ParamControlPacket.toBytes).flatten.length =
      sizeofParamControlPacket * packets.length := by
  induction packets with
  | nil => rfl
  | cons p ps ih =>
    rw [List.map_cons, List.flatten_cons, List.length_append, ih,
      ParamControlPacket.length_toBytes, List.length_cons, Nat.mul_succ, Nat.add_comm]

theorem map_ofBytes_toBytes (packets : List ParamControlPacket) :
    (packets.map ParamControlPacket.toBytes).map ParamControlPacket.ofBytes = packets := by
  rw [List.map_map, List.map_congr_left (g := id), List.map_id]
  intro p _
  exact p.ofBytes_toBytes

/-- **A counting receiver** gives out the packets exactly if rounds end behind each of them. -/
theorem deliver_iff (hflat : chunks.flatten = (packets.map ParamControlPacket.toBytes).flatten)
    (hleft : (drains (· == 0) [] chunks).2 = []) :
    (deliver sizeofParamControlPacket 256 [] (drains (· == 0) [] chunks).1).map
        ParamControlPacket.ofBytes = packets ↔ RoundsEnd packets chunks := by
  have hds := drains_flatten (· == 0) [] chunks
  rw [hleft, List.append_nil, List.nil_append, hflat] at hds
  have hlen := length_flatten_toBytes packets
  have hpos : ∀ {k}, 0 < k → 0 < sizeofParamControlPacket * k := fun hk =>
    Nat.mul_pos (Nat.succ_pos 5) hk
  constructor
  · intro hpackets k hk hkn
    have hcount := congrArg List.length hpackets
    rw [List.length_map] at hcount
    have hsum : ([] : List UInt8).length + (drains (· == 0) [] chunks).1.flatten.length =
        sizeofParamControlPacket * packets.length := by
      rw [hds, hlen, List.length_nil, Nat.zero_add]
    obtain ⟨j, hj⟩ := cuts_of_deliver hsum hcount hk hkn.le
    rw [List.length_nil, Nat.zero_add] at hj
    exact (cut_iff hleft (hpos hk)).mp ⟨j, hj⟩
  · intro hends
    have hcuts : ∀ k, 0 < k → k ≤ (packets.map ParamControlPacket.toBytes).length →
        ∃ j, ([] : List UInt8).length + ((drains (· == 0) [] chunks).1.take j).flatten.length =
          sizeofParamControlPacket * k := by
      intro k hk hkn
      rw [List.length_map] at hkn
      rw [List.length_nil]
      rcases Nat.lt_or_eq_of_le hkn with hlt | rfl
      · obtain ⟨j, hj⟩ := (cut_iff hleft (hpos hk)).mpr (hends k hk hlt)
        exact ⟨j, by rw [hj, Nat.zero_add]⟩
      · exact ⟨(drains (· == 0) [] chunks).1.length, by rw [List.take_length, hds, hlen,
          Nat.zero_add]⟩
    rw [deliver_eq (by decide) ?_ hds (by decide) hcuts, map_ofBytes_toBytes]
    intro b hb
    obtain ⟨p, -, rfl⟩ := List.mem_map.mp hb
    exact p.length_toBytes

/-- **The echo server's receiver** copies each packet once and in order exactly if a round ends
behind each of them. -/
theorem echo_receives_iff (buf : Fin 256 → UInt8) (pcp : ParamControlPacket) (sent : List UInt8)
    (hsplit : chunks.flatten = (packets.map ParamControlPacket.toBytes).flatten) :
    (∃ e t os, run Echo.round (Echo.start buf pcp sent) (chunks ++ List.replicate e []) =
      some (t, os) ∧ t.avail = []) ∧
    ∀ e t os, run Echo.round (Echo.start buf pcp sent) (chunks ++ List.replicate e []) =
      some (t, os) → t.avail = [] → (os.reduceOption = packets ↔ RoundsEnd packets chunks) := by
  have hstart : Echo.Receiving (Echo.start buf pcp sent) [] := ⟨rfl, Echo.lap_nil buf⟩
  have hrun := Echo.run_delivers hstart
  constructor
  · obtain ⟨t, os, ht, havail, -⟩ :=
      hrun (chunks ++ List.replicate (drains (· == 0) [] chunks).2.length [])
    refine ⟨_, t, os, ht, havail.trans ?_⟩
    show (drains (· == 0) [] _).2 = []
    rw [drains_append]
    exact drains_idle (Nat.le_refl _)
  · intro e t os hrun' hleft
    obtain ⟨t', os', hrun'', havail, hos⟩ := hrun (chunks ++ List.replicate e [])
    obtain ⟨rfl, rfl⟩ := result_unique hrun' hrun''
    have hiff := deliver_iff ((flatten_extra chunks e).trans hsplit) (havail.symm.trans hleft)
    rw [hos]
    refine hiff.trans (forall_congr' fun k => forall_congr' fun hk => forall_congr' fun hkn =>
      stopsAt_extra ?_)
    rw [hsplit, length_flatten_toBytes]
    exact Nat.mul_lt_mul_of_pos_left hkn (Nat.succ_pos 5)

/-- Two packets of a chunk each are received by two rounds. -/
theorem echo_receives_two :
    (∃ e t os, run Echo.round (Echo.start (fun _ => 0) ⟨⟨0, 0, 0⟩, 0, 0⟩ [])
        ([[1, 6, 1, 1, 1, 2], [1, 6, 2, 1, 1, 2]] ++ List.replicate e []) = some (t, os) ∧
      t.avail = []) ∧
    ∀ e t os, run Echo.round (Echo.start (fun _ => 0) ⟨⟨0, 0, 0⟩, 0, 0⟩ [])
        ([[1, 6, 1, 1, 1, 2], [1, 6, 2, 1, 1, 2]] ++ List.replicate e []) = some (t, os) →
      t.avail = [] →
      (os.reduceOption = [⟨⟨1, 6, 257⟩, 1, 2⟩, ⟨⟨1, 6, 258⟩, 1, 2⟩] ↔
        RoundsEnd [⟨⟨1, 6, 257⟩, 1, 2⟩, ⟨⟨1, 6, 258⟩, 1, 2⟩]
          [[1, 6, 1, 1, 1, 2], [1, 6, 2, 1, 1, 2]]) :=
  echo_receives_iff (fun _ => 0) ⟨⟨0, 0, 0⟩, 0, 0⟩ [] (by decide)

/-- If the bytes of these packets come at once, neither is copied, and none is left to come. -/
theorem echo_receives_counterexample :
    (run Echo.round (Echo.start (fun _ => 0) ⟨⟨0, 0, 0⟩, 0, 0⟩ [])
      [[1, 6, 1, 1, 1, 2], [1, 6, 2, 1, 1, 2]]).map (fun r => (r.1.avail, r.2.reduceOption)) =
      some ([], [⟨⟨1, 6, 257⟩, 1, 2⟩, ⟨⟨1, 6, 258⟩, 1, 2⟩]) ∧
    (run Echo.round (Echo.start (fun _ => 0) ⟨⟨0, 0, 0⟩, 0, 0⟩ [])
      [[1, 6, 1, 1, 1, 2, 1, 6, 2, 1, 1, 2]]).map (fun r => (r.1.avail, r.2.reduceOption)) =
      some ([], []) := by
  constructor
  · decide +kernel
  · decide +kernel

end Echo

end Ulisse
