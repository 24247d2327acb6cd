import Mathlib.Tactic.FinCases
import Ulisse.Handler.Rx
import Ulisse.Handler.Tx

/-!
# Client.Basic — the host's client and its set-up

The first half of `ulisse_client.c`.  The members of a `UlisseClient` that packets are copied to and
from are blocks of a memory (`Obj`); the handler and the plain fields are fields.  `init` starts
from what `malloc` returned, which may be anything.
-/

namespace Ulisse

open BlockMem

/-- The parts of a `UlisseClient` that pointers point to; `client` is its own address. -/
inductive Obj where
  | client
  | response
  | endEpoch
  | systemStatus
  | jointParam
  | jointStatus
  | packetBuffer
  deriving DecidableEq, Repr

/-- Their sizes.  Nothing is read through the address of the client but its members. -/
def Obj.size : Obj → ℕ
  | .client => 0
  | .response => sizeofResponsePacket
  | .endEpoch => sizeofEndEpochPacket
  | .systemStatus => sizeofSystemStatusPacket
  | .jointParam => sizeofJointParamPacket
  | .jointStatus => sizeofJointStatusPacket
  | .packetBuffer => packetSizeMax

/-- `UlisseClient` -/
structure UlisseClient where
  packetHandler : PacketHandler Obj.size
  globalSeq : UInt16
  mem : Mem UInt8 Obj.size
  fd : ℤ
  packetSizes : Fin packetTypeMax → UInt8

namespace Client

/-- `_initializeBuffer`: the client's packet buffer, whatever is received. -/
def initializeBuffer (_type _size : UInt8) (arg : Option (Ptr Obj)) (m : Mem UInt8 Obj.size) :
    Option (Ptr Obj) × Mem UInt8 Obj.size :=
  (arg.map fun _ => ⟨.packetBuffer, 0⟩, m)

/-- `_copyToBuffer` -/
def copyToBuffer (p args : Option (Ptr Obj)) (m : Mem UInt8 Obj.size) :
    PacketStatus × Mem UInt8 Obj.size :=
  match p, args with
  | some p, some args => (.success, memcpy m args p ((view m p).getD 1 0).toNat)
  | _, _ => (.success, m)

/-- The operations that `_installPacketOp` allocates, at the address `addr`. -/
def packetOp (addr : ℕ) (dest : Obj) (type size : UInt8) : PacketOperations Obj.size where
  addr := addr
  type := type
  size := size
  initializeBufferFn := initializeBuffer
  initializeBufferArgs := some ⟨.client, 0⟩
  onReciveFn := some copyToBuffer
  onReciveArgs := some ⟨dest, 0⟩

/-- `_installPacketOp`; `none` is `exit(0)`. -/
def installPacketOp (addr : ℕ) (cl : UlisseClient) (dest : Obj) (type size : UInt8) :
    Option UlisseClient :=
  match cl.packetHandler.installPacket (packetOp addr dest type size) with
  | (.success, h) => some { cl with packetHandler := h }
  | _ => none

/-- The response as `UlisseClient_init` leaves it: `p_result` is not set. -/
def initResponse (m : Mem UInt8 Obj.size) : Mem UInt8 Obj.size :=
  let m := write m ⟨.response, 0⟩ responsePacketId
  let m := write m ⟨.response, 1⟩ (UInt8.ofNat sizeofResponsePacket)
  let m := write (write m ⟨.response, 2⟩ 0) ⟨.response, 3⟩ 0
  let m := write (write m ⟨.response, 5⟩ 0) ⟨.response, 6⟩ 0
  write m ⟨.response, 4⟩ (UInt8.ofNat packetTypeMax)

/-- The expected sizes of outbound packets. -/
def packetSizes : Fin packetTypeMax → UInt8 := fun t =>
  if t.val = paramControlPacketId.toNat then UInt8.ofNat sizeofParamControlPacket
  else if t.val = jointParamPacketId.toNat then UInt8.ofNat sizeofJointParamPacket
  else if t.val = jointControlPacketId.toNat then UInt8.ofNat sizeofJointControlPacket
  else 0

/-- The four installations of `UlisseClient_init`. -/
def installPackets (heap : Fin 4 → ℕ) (cl : UlisseClient) : Option UlisseClient := do
  let cl ← installPacketOp (heap 0) cl .response responsePacketId
    (UInt8.ofNat sizeofResponsePacket)
  let cl ← installPacketOp (heap 1) cl .systemStatus systemStatusPacketId
    (UInt8.ofNat sizeofSystemStatusPacket)
  let cl ← installPacketOp (heap 2) cl .jointParam jointParamPacketId
    (UInt8.ofNat sizeofJointParamPacket)
  installPacketOp (heap 3) cl .jointStatus jointStatusPacketId
    (UInt8.ofNat sizeofJointStatusPacket)

end Client

/-- How `UlisseClient_init` ends. -/
inductive InitResult where
  | null
  | exit
  | client (cl : UlisseClient)

namespace UlisseClient

/-- `UlisseClient_init`, given what `serial_open` and `serial_set_interface_attribs` return, the
block that `malloc` returns for the client, and the addresses it returns for the operations. -/
def init (opened attribs : ℤ) (block : UlisseClient) (heap : Fin 4 → ℕ) : InitResult :=
  if opened < 0 then .null
  else if attribs < 0 then .null
  else if opened = 0 then .null
  else match Client.installPackets heap { block with globalSeq := 0, fd := opened } with
    | none => .exit
    | some cl =>
      .client { cl with mem := Client.initResponse cl.mem, packetSizes := Client.packetSizes }

/-- `UlisseClient_get`: the status, and the bytes copied to `dest`. -/
def get (cl : UlisseClient) (type : UInt8) : PacketStatus × List UInt8 :=
  if ht : type.toNat < packetTypeMax then
    match cl.packetHandler.operations ⟨type.toNat, ht⟩ with
    | none => (.unknownType, [])
    | some ops => (.success, (readable cl.mem ops.onReciveArgs).take ops.size.toNat)
  else (.packetTypeOutOfBounds, [])

end UlisseClient

/-- A block of zeros. -/
def zeroBlock : UlisseClient where
  packetHandler := zeroHandler
  globalSeq := 0
  mem := ⟨fun o => List.replicate o.size 0, fun _ => List.length_replicate⟩
  fd := 0
  packetSizes _ := 0

/-! ## The table that is installed -/

/-- The operations that `UlisseClient_init` installs, by type. -/
def clientTable (heap : Fin 4 → ℕ) (t : Fin packetTypeMax) : Option (PacketOperations Obj.size) :=
  if t.val = responsePacketId.toNat then
    some (Client.packetOp (heap 0) .response responsePacketId (UInt8.ofNat sizeofResponsePacket))
  else if t.val = systemStatusPacketId.toNat then
    some (Client.packetOp (heap 1) .systemStatus systemStatusPacketId
      (UInt8.ofNat sizeofSystemStatusPacket))
  else if t.val = jointParamPacketId.toNat then
    some (Client.packetOp (heap 2) .jointParam jointParamPacketId
      (UInt8.ofNat sizeofJointParamPacket))
  else if t.val = jointStatusPacketId.toNat then
    some (Client.packetOp (heap 3) .jointStatus jointStatusPacketId
      (UInt8.ofNat sizeofJointStatusPacket))
  else none

/-- The client with another operation table. -/
def UlisseClient.withTable (cl : UlisseClient)
    (operations : Fin packetTypeMax → Option (PacketOperations Obj.size)) : UlisseClient :=
  { cl with packetHandler := { cl.packetHandler with operations } }

@[simp] theorem withTable_operations (cl : UlisseClient)
    (operations : Fin packetTypeMax → Option (PacketOperations Obj.size)) :
    (cl.withTable operations).packetHandler.operations = operations := rfl

@[simp] theorem withTable_withTable (cl : UlisseClient)
    (table table' : Fin packetTypeMax → Option (PacketOperations Obj.size)) :
    (cl.withTable table).withTable table' = cl.withTable table' := rfl

section Install

variable {heap : Fin 4 → ℕ} {addr : ℕ} {dest : Obj} {type size : UInt8} {cl cl' : UlisseClient}

/-- **Installing**: the slot was empty and is filled; the rest of the client is as it was. -/
theorem installPacketOp_some :
    Client.installPacketOp addr cl dest type size = some cl' ↔
      ∃ ht : type.toNat < packetTypeMax,
        cl.packetHandler.operations ⟨type.toNat, ht⟩ = none ∧
        cl' = cl.withTable (Function.update cl.packetHandler.operations ⟨type.toNat, ht⟩
          (some (Client.packetOp addr dest type size))) := by
  have htype : (Client.packetOp addr dest type size).type = type := rfl
  unfold Client.installPacketOp PacketHandler.installPacket
  simp only [htype]
  by_cases ht : type.toNat < packetTypeMax
  · rw [dif_pos ht]
    cases ho : cl.packetHandler.operations ⟨type.toNat, ht⟩ with
    | some op => simp [ht, ho]
    | none =>
      simp only [ho, Option.some.injEq]
      constructor
      · rintro rfl
        exact ⟨ht, trivial, rfl⟩
      · rintro ⟨-, -, rfl⟩
        rfl
  · rw [dif_neg ht]
    simp [ht]

/-- Installing one type leaves the slots of the others alone. -/
theorem update_slot {table : Fin packetTypeMax → Option (PacketOperations Obj.size)}
    {op : Option (PacketOperations Obj.size)} {t u : UInt8} {ht : t.toNat < packetTypeMax}
    {hu : u.toNat < packetTypeMax} (h : t.toNat ≠ u.toNat) :
    Function.update table ⟨u.toNat, hu⟩ op ⟨t.toNat, ht⟩ = table ⟨t.toNat, ht⟩ :=
  Function.update_of_ne (fun e => h (Fin.mk.inj e)) _ _

/-- **All four installations** succeed exactly if the four slots were null. -/
theorem installPackets_some :
    Client.installPackets heap cl = some cl' ↔
      (∀ t, (clientTable heap t).isSome → cl.packetHandler.operations t = none) ∧
      cl' = cl.withTable fun t => (clientTable heap t).or (cl.packetHandler.operations t) := by
  have h0 : responsePacketId.toNat < packetTypeMax := by decide
  have h2 : systemStatusPacketId.toNat < packetTypeMax := by decide
  have h6 : jointParamPacketId.toNat < packetTypeMax := by decide
  have h4 : jointStatusPacketId.toNat < packetTypeMax := by decide
  -- the table that the four updates leave
  have htable : ∀ f : Fin packetTypeMax → Option (PacketOperations Obj.size),
      Function.update (Function.update (Function.update (Function.update f
        ⟨responsePacketId.toNat, h0⟩ (some (Client.packetOp (heap 0) .response responsePacketId
          (UInt8.ofNat sizeofResponsePacket))))
        ⟨systemStatusPacketId.toNat, h2⟩ (some (Client.packetOp (heap 1) .systemStatus
          systemStatusPacketId (UInt8.ofNat sizeofSystemStatusPacket))))
        ⟨jointParamPacketId.toNat, h6⟩ (some (Client.packetOp (heap 2) .jointParam
          jointParamPacketId (UInt8.ofNat sizeofJointParamPacket))))
        ⟨jointStatusPacketId.toNat, h4⟩ (some (Client.packetOp (heap 3) .jointStatus
          jointStatusPacketId (UInt8.ofNat sizeofJointStatusPacket))) =
      fun t => (clientTable heap t).or (f t) := by
    intro f
    funext t
    have ht : t ∈ List.finRange 16 := List.mem_finRange t
    fin_cases ht <;> rfl
  unfold Client.installPackets
  simp only [Option.bind_eq_bind, Option.bind_eq_some_iff, installPacketOp_some]
  constructor
  · rintro ⟨_, ⟨_, e0, rfl⟩, _, ⟨_, e2, rfl⟩, _, ⟨_, e6, rfl⟩, _, e4, rfl⟩
    simp only [withTable_operations, withTable_withTable] at e2 e6 e4 ⊢
    simp (disch := decide) only [update_slot] at e2 e6 e4
    refine ⟨fun t ht => ?_, by rw [htable]⟩
    unfold clientTable at ht
    split_ifs at ht with t0 t2 t6 t4
    · exact (congrArg _ (Fin.ext t0)).trans e0
    · exact (congrArg _ (Fin.ext t2)).trans e2
    · exact (congrArg _ (Fin.ext t6)).trans e6
    · exact (congrArg _ (Fin.ext t4)).trans e4
    · cases ht
  · rintro ⟨hnone, rfl⟩
    refine ⟨_, ⟨h0, hnone _ rfl, rfl⟩, _, ⟨h2, ?_, rfl⟩, _, ⟨h6, ?_, rfl⟩, h4, ?_, ?_⟩
    · simp (disch := decide) only [withTable_operations, update_slot]
      exact hnone _ rfl
    · simp (disch := decide) only [withTable_operations, update_slot]
      exact hnone _ rfl
    · simp (disch := decide) only [withTable_operations, update_slot]
      exact hnone _ rfl
    · simp only [withTable_operations, withTable_withTable, htable]

end Install

/-- The client that `UlisseClient_init` makes of `block`, if it returns one. -/
def UlisseClient.setUp (block : UlisseClient) (opened : ℤ) (heap : Fin 4 → ℕ) : UlisseClient where
  packetHandler :=
    { block.packetHandler with
      operations := fun t => (clientTable heap t).or (block.packetHandler.operations t) }
  globalSeq := 0
  mem := Client.initResponse block.mem
  fd := opened
  packetSizes := Client.packetSizes

/-- **Set-up**: when the serial calls succeed, a client is returned exactly if the four slots were
null in the block, and the block is overwritten in the fields that `setUp` names. -/
theorem init_client_iff {opened attribs : ℤ} (ho : 0 < opened) (ha : 0 ≤ attribs)
    {block cl : UlisseClient} {heap : Fin 4 → ℕ} :
    UlisseClient.init opened attribs block heap = .client cl ↔
      (∀ t, (clientTable heap t).isSome → block.packetHandler.operations t = none) ∧
      cl = block.setUp opened heap := by
  unfold UlisseClient.init
  rw [if_neg (by omega), if_neg (by omega), if_neg (by omega)]
  cases hi : Client.installPackets heap { block with globalSeq := 0, fd := opened } with
  | none =>
    constructor
    · intro h
      cases h
    · rintro ⟨hnone, -⟩
      have hsome := installPackets_some.mpr
        (show (∀ t, (clientTable heap t).isSome → ({ block with globalSeq := 0, fd := opened } :
          UlisseClient).packetHandler.operations t = none) ∧ _ from ⟨hnone, rfl⟩)
      rw [hi] at hsome
      cases hsome
  | some cl' =>
    obtain ⟨hnone, rfl⟩ := installPackets_some.mp hi
    simp only [InitResult.client.injEq]
    constructor
    · rintro rfl
      exact ⟨hnone, rfl⟩
    · rintro ⟨-, rfl⟩
      rfl

end Ulisse
