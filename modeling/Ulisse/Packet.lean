import Mathlib.Data.List.Basic
import Mathlib.Data.Nat.Notation

/-!
# Packet — packet headers and the packets of the robot

From `packet_header.h` and `ulisse_packets.h`.  All packets are packed structs that begin with a
`PacketHeader` (type, size, two bytes of seq); `Packet` is the object that a `PacketHeader*`
points to, as its bytes.  Words are little-endian, as on both ends of the serial line.
-/

namespace Ulisse

/-- `PACKET_SIZE_ANY` -/
def packetSizeAny : UInt8 := 0xFF

/-- `PACKET_TYPE_MAX` -/
def packetTypeMax : ℕ := 16

/-- `PACKET_SIZE_MAX` -/
def packetSizeMax : ℕ := 254

/-- `sizeof(PacketHeader)` -/
def sizeofPacketHeader : ℕ := 4

/-- `sizeof(PacketSeq)` -/
def sizeofPacketSeq : ℕ := 2

/-! ## Words -/

/-- The word stored as the bytes `lo`, `hi`. -/
def word (lo hi : UInt8) : UInt16 := UInt16.ofNat (lo.toNat + 256 * hi.toNat)

def lowByte (w : UInt16) : UInt8 := UInt8.ofNat w.toNat

def highByte (w : UInt16) : UInt8 := UInt8.ofNat (w.toNat / 256)

@[simp] theorem word_bytes (w : UInt16) : word (lowByte w) (highByte w) = w := by
  apply UInt16.toNat_inj.mp
  have := w.toNat_lt
  simp only [word, lowByte, highByte, UInt16.toNat_ofNat', UInt8.toNat_ofNat']
  omega

/-! ## Packets in memory -/

/-- The object behind a `PacketHeader*`: it holds a header and all of the `header.size` bytes. -/
structure Packet where
  bytes : List UInt8
  header_le : sizeofPacketHeader ≤ bytes.length
  size_le : (bytes.getD 1 0).toNat ≤ bytes.length
  deriving DecidableEq

namespace Packet

/-- `p->type` -/
def type (p : Packet) : UInt8 := p.bytes.getD 0 0

/-- `p->size` -/
def size (p : Packet) : UInt8 := p.bytes.getD 1 0

/-- `p->seq` -/
def seq (p : Packet) : UInt16 := word (p.bytes.getD 2 0) (p.bytes.getD 3 0)

/-- The `p->size` bytes that are sent. -/
def content (p : Packet) : List UInt8 := p.bytes.take p.size.toNat

/-- `p->seq = s` -/
def setSeq (p : Packet) (s : UInt16) : Packet where
  bytes := (p.bytes.set 2 (lowByte s)).set 3 (highByte s)
  header_le := by rw [List.length_set, List.length_set]; exact p.header_le
  size_le := by
    rw [List.length_set, List.length_set]
    simpa using p.size_le

@[simp] theorem length_content (p : Packet) : p.content.length = p.size.toNat := by
  rw [content, List.length_take]
  exact Nat.min_eq_left p.size_le

@[simp] theorem setSeq_type (p : Packet) (s : UInt16) : (p.setSeq s).type = p.type := by
  simp [type, setSeq]

@[simp] theorem setSeq_size (p : Packet) (s : UInt16) : (p.setSeq s).size = p.size := by
  simp [size, setSeq]

@[simp] theorem setSeq_seq (p : Packet) (s : UInt16) : (p.setSeq s).seq = s := by
  have h : 3 < p.bytes.length := p.header_le
  have h2 : 2 < p.bytes.length := by omega
  simp [seq, setSeq, List.getD_eq_getElem?_getD, h, h2]

end Packet

/-! ## The packets of the robot -/

/-- `NUM_MOTORS` -/
def numMotors : ℕ := 4

def responsePacketId : UInt8 := 0
def paramControlPacketId : UInt8 := 1
def systemStatusPacketId : UInt8 := 2
def jointStatusPacketId : UInt8 := 4
def jointControlPacketId : UInt8 := 5
def jointParamPacketId : UInt8 := 6
def endEpochPacketId : UInt8 := 10

/-- Header, `p_type`, `p_seq`, `p_result`. -/
def sizeofResponsePacket : ℕ := sizeofPacketHeader + 1 + 2 + 1

/-- Header, `action`, `param_type`. -/
def sizeofParamControlPacket : ℕ := sizeofPacketHeader + 1 + 1

/-- Header, nine words, `rx_packet_queue`, `idle_cycles`. -/
def sizeofSystemStatusPacket : ℕ := sizeofPacketHeader + 9 * 2 + 1 + 4

/-- Header and a `JointInfo` (three words) for each motor. -/
def sizeofJointStatusPacket : ℕ := sizeofPacketHeader + numMotors * (3 * 2)

/-- Header and a `JointControl` (a word and a byte) for each motor. -/
def sizeofJointControlPacket : ℕ := sizeofPacketHeader + numMotors * (2 + 1)

/-- Header and a `JointParams` (eight words) for each motor. -/
def sizeofJointParamPacket : ℕ := sizeofPacketHeader + numMotors * (8 * 2)

/-- `EndEpochPacket` is a bare header. -/
def sizeofEndEpochPacket : ℕ := sizeofPacketHeader

/-- `response.p_type` of a `ResponsePacket` in memory. -/
def responsePType (bytes : List UInt8) : UInt8 := bytes.getD 4 0

/-- `response.p_seq` of a `ResponsePacket` in memory. -/
def responsePSeq (bytes : List UInt8) : UInt16 := word (bytes.getD 5 0) (bytes.getD 6 0)

/-- `header.seq` of a packet in memory. -/
def headerSeq (bytes : List UInt8) : UInt16 := word (bytes.getD 2 0) (bytes.getD 3 0)

end Ulisse
