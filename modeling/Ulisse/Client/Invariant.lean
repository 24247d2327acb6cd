import Ulisse.Client.Calls
import Ulisse.Handler.RxRuns

/-!
# Client.Invariant — the client between two bytes

`ClientAt` holds from the set-up on: the handler hunts for frames of the four installed types,
a packet under way lies in the packet buffer (`ListensAt`), and the transmit ring is a queue.  A
byte received is one step of the hunter, and the only memory that it touches outside the packet
buffer is the destination of a packet that it completes (`rxByte_listens`).
-/

namespace Ulisse

open BlockMem Run Framing

/-- The phases of the client's receiver. -/
abbrev ClientPhase := Phase UInt8 (PacketOperations Obj.size)

/-- A completed frame and the operation that it is for. -/
abbrev Completed := PacketOperations Obj.size × Frame UInt8

/-! ## The installed table -/

/-- Where packets of a type are copied to. -/
def destination (t : UInt8) : Option Obj :=
  if t = responsePacketId then some .response
  else if t = systemStatusPacketId then some .systemStatus
  else if t = jointParamPacketId then some .jointParam
  else if t = jointStatusPacketId then some .jointStatus
  else none

section Table

variable {heap : Fin 4 → ℕ} {t : UInt8} {op : PacketOperations Obj.size} {dest : Obj}

/-- The installed operations: of the size of their destinations. -/
theorem lookup_client (h : lookup (clientTable heap) t = some op) :
    ∃ addr dest, destination t = some dest ∧
      op = Client.packetOp addr dest t (UInt8.ofNat dest.size) := by
  have ht := lookup_some_lt h
  rw [lookup_of_lt _ ht] at h
  have hinj : ∀ {a : UInt8}, t.toNat = a.toNat → t = a := fun he => UInt8.toNat_inj.mp he
  unfold clientTable at h
  split_ifs at h with t0 t2 t6 t4
  · obtain rfl := hinj t0
    exact ⟨heap 0, .response, rfl, (Option.some_inj.mp h).symm⟩
  · obtain rfl := hinj t2
    exact ⟨heap 1, .systemStatus, rfl, (Option.some_inj.mp h).symm⟩
  · obtain rfl := hinj t6
    exact ⟨heap 2, .jointParam, rfl, (Option.some_inj.mp h).symm⟩
  · obtain rfl := hinj t4
    exact ⟨heap 3, .jointStatus, rfl, (Option.some_inj.mp h).symm⟩

/-- A destination holds one packet, and is neither the packet buffer nor the end of epoch. -/
theorem destination_some (h : destination t = some dest) :
    3 ≤ dest.size ∧ dest.size ≤ packetSizeMax ∧ dest ≠ .packetBuffer ∧ dest ≠ .endEpoch ∧
      (dest = .response ↔ t = responsePacketId) := by
  unfold destination at h
  split_ifs at h with t0 t2 t6 t4 <;> obtain rfl := Option.some_inj.mp h
  · exact ⟨by decide, by decide, by decide, by decide, iff_of_true rfl t0⟩
  · exact ⟨by decide, by decide, by decide, by decide, iff_of_false (by decide) t0⟩
  · exact ⟨by decide, by decide, by decide, by decide, iff_of_false (by decide) t0⟩
  · exact ⟨by decide, by decide, by decide, by decide, iff_of_false (by decide) t0⟩

theorem packetOp_size (h : destination t = some dest) :
    (UInt8.ofNat dest.size).toNat = dest.size := by
  have hle := (destination_some h).2.1
  rw [UInt8.toNat_ofNat', packetSizeMax] at *
  omega

/-- Every request gets the packet buffer, which has room for every installed size. -/
theorem clientTable_fixed (heap : Fin 4 → ℕ) : FixedTable (clientTable heap) := by
  intro t op h
  obtain ⟨addr, dest, hd, rfl⟩ := lookup_client h
  obtain ⟨h3, h254, -⟩ := destination_some hd
  have hsize : (Client.packetOp addr dest t (UInt8.ofNat dest.size)).size.toNat = dest.size :=
    packetOp_size hd
  refine ⟨by rw [hsize]; exact h3, by rw [hsize]; exact h254, fun m p hp => ?_⟩
  obtain rfl : ⟨.packetBuffer, 0⟩ = p := Option.some_inj.mp hp
  rw [hsize]
  show 0 + dest.size ≤ packetSizeMax
  omega

/-- Every operation has a function for what is received. -/
theorem clientTable_receives (h : lookup (clientTable heap) t = some op) :
    op.onReciveFn.isSome := by
  obtain ⟨addr, dest, -, rfl⟩ := lookup_client h
  rfl

end Table

/-! ## The invariant -/

/-- A packet is under way in the packet buffer. -/
def Holding : ClientPhase → Prop
  | .body _ _ _ _ _ => True
  | .stop _ _ _ _ => True
  | _ => False

/-- **The client** in phase `ph`, with the bytes of `q` to be sent. -/
structure ClientAt (heap : Fin 4 → ℕ) (cl : UlisseClient) (ph : ClientPhase)
    (q : RingQueue UInt8 packetSizeMax) : Prop where
  rx : RxAt (clientTable heap) cl.rx ph
  room : RoomAt cl.rx ph
  held : Holding ph → cl.packetHandler.rxCurrentPacket = some ⟨.packetBuffer, 0⟩
  ring : RingAt cl.packetHandler q
  sizes : cl.packetSizes = Client.packetSizes

/-- The receiving half of it: the handler and the memory. -/
structure ListensAt (heap : Fin 4 → ℕ) (s : RxState Obj.size) (ph : ClientPhase) : Prop where
  rx : RxAt (clientTable heap) s ph
  room : RoomAt s ph
  held : Holding ph → s.h.rxCurrentPacket = some ⟨.packetBuffer, 0⟩

/-- What the block `o` holds after a step that completed `d`, if it completed one. -/
def copied (m : Mem UInt8 Obj.size) (d : Option Completed) (o : Obj) : List UInt8 :=
  match d with
  | some (op, f) => if op.onReciveArgs = some ⟨o, 0⟩ then rebuilt op f else m.cells o
  | none => m.cells o

section Step

variable {heap : Fin 4 → ℕ} {cl : UlisseClient} {ph : ClientPhase}
  {q : RingQueue UInt8 packetSizeMax} {s s' : RxState Obj.size} {c : UInt8} {r : RxReturn Obj.size}

/-- A hunting receiver over the client's table listens. -/
theorem ListensAt.hunting (hops : s.h.operations = clientTable heap) (hfn : s.h.rxFn = .rxAA) :
    ListensAt heap s .hunt :=
  ⟨⟨hops, trivial, hfn⟩, trivial, fun h => h.elim⟩

theorem ClientAt.listens (hcl : ClientAt heap cl ph q) : ListensAt heap cl.rx ph :=
  ⟨hcl.rx, hcl.room, hcl.held⟩

/-- Before the size byte nothing is stored. -/
theorem rxByte_mem {β : Type} [DecidableEq β] {len : β → ℕ} {s s' : RxState len} {c : UInt8}
    {r : RxReturn len} (hfn : s.h.rxFn = .rxAA ∨ s.h.rxFn = .rx55 ∨ s.h.rxFn = .rxType)
    (he : rxByte s c = some (s', r)) : s'.mem = s.mem := by
  have hno : ∀ {g : RxFn}, s.h.rxFn = g → g ≠ .rxAA ∧ g ≠ .rx55 ∧ g ≠ .rxType → s'.mem = s.mem := by
    rintro g rfl ⟨h1, h2, h3⟩
    rcases hfn with h | h | h
    · exact absurd h h1
    · exact absurd h h2
    · exact absurd h h3
  cases rxByte_step he with
  | rxBufferError op hfn' => exact hno hfn' (by decide)
  | syncSize op p m m' hfn' => exact hno hfn' (by decide)
  | syncPayload p m hfn' => exact hno hfn' (by decide)
  | syncPayloadComplete p m hfn' => exact hno hfn' (by decide)
  | recive op f hfn' => exact hno hfn' (by decide)
  | _ => rfl

/-- The size byte: the packet buffer gets the rebuilt header, if the frame is started. -/
theorem rxSize_client {t : UInt8} {op : PacketOperations Obj.size}
    (hr : RxAt (clientTable heap) s (.len t op)) (he : rxByte s c = some (s', r)) :
    (Holding ((rxScheme (clientTable heap)).step true (.len t op) c).1 →
      s'.h.rxCurrentPacket = some ⟨.packetBuffer, 0⟩) ∧
    ∀ o, o ≠ .packetBuffer → s'.mem.cells o = s.mem.cells o := by
  obtain ⟨hfn, ho⟩ := hr.fields
  obtain ⟨addr, dest, -, hop⟩ := lookup_client hr.wf
  simp only [rxByte, hfn] at he
  have hinit : op.initializeBuffer s.mem = (some ⟨.packetBuffer, 0⟩, s.mem) := by
    rw [hop]
    rfl
  rcases rxSize_cases ho he with ⟨hbad, rfl, -⟩ | ⟨hok, -⟩
  · have hacc : (rxScheme (clientTable heap)).accept op c = none := accept_of_bad hbad
    refine ⟨fun h => ?_, fun o _ => rfl⟩
    simp only [Scheme.step, hacc] at h
    exact h.elim
  · obtain ⟨-, rfl, -⟩ := rxSize_started ho hok (by rw [hinit]) he
    refine ⟨fun _ => rfl, fun o hne => ?_⟩
    rw [hinit]
    rw [write_other hne, write_other hne]

/-- **Completion**: the packet is copied to its destination. -/
theorem rxChecksum_client {t x : UInt8} {op : PacketOperations Obj.size} {got : List UInt8}
    (hs : ListensAt heap s (.stop t op x got)) (he : rxByte s 0xFF = some (s', r))
    (o : Obj) : s'.mem.cells o = copied s.mem (some (op, ⟨t, x, got⟩)) o := by
  obtain ⟨hfn, ho, p, hb⟩ := hs.rx.fields
  obtain ⟨hlook, hacc⟩ := hs.rx.wf
  obtain rfl : p = ⟨.packetBuffer, 0⟩ :=
    Option.some_inj.mp (hb.packet.symm.trans (hs.held trivial))
  have hfix := clientTable_fixed heap t op hlook
  have hsum := (hfix.accept_iff.mp hacc).2
  obtain ⟨addr, dest, hd, hop⟩ := lookup_client hlook
  obtain ⟨-, h254, -⟩ := destination_some hd
  have hsize : op.size.toNat = dest.size := by
    rw [hop]
    exact packetOp_size hd
  -- the packet in the buffer, and its size as the copy reads it
  have hbytes : (view s.mem ⟨.packetBuffer, 0⟩).take op.size.toNat =
      op.type :: op.size :: got := by
    rw [← hsum]
    exact hb.bytes
  have hread : ((view s.mem ⟨.packetBuffer, 0⟩).getD 1 0).toNat = dest.size := by
    have h1 := congrArg (fun xs => xs.getD 1 0) hbytes
    have h2 := hfix.size_ge
    have h3 : 1 < op.size.toNat := by omega
    simp only [List.getD_eq_getElem?_getD, List.getElem?_take_of_lt h3] at h1
    rw [List.getD_eq_getElem?_getD]
    exact (congrArg UInt8.toNat h1).trans hsize
  have hmem : s'.mem = memcpy s.mem ⟨dest, 0⟩ ⟨.packetBuffer, 0⟩ dest.size := by
    have hpacket : s.h.rxCurrentPacket = some ⟨.packetBuffer, 0⟩ := hb.packet
    have hon : op.onReciveFn = some Client.copyToBuffer := by rw [hop]; rfl
    have hargs : op.onReciveArgs = some ⟨dest, 0⟩ := by rw [hop]; rfl
    simp only [rxByte, hfn, rxChecksum, if_true, ho, hon, hpacket, hargs, Option.some.injEq,
      Prod.mk.injEq] at he
    rw [← he.1, ← hread]
    rfl
  have hargs : op.onReciveArgs = some ⟨o, 0⟩ ↔ o = dest := by
    rw [hop]
    show some (⟨dest, 0⟩ : Ptr Obj) = some ⟨o, 0⟩ ↔ _
    simp [eq_comm]
  by_cases hdest : o = dest
  · subst hdest
    have hcopy : (view (memcpy s.mem ⟨o, 0⟩ ⟨.packetBuffer, 0⟩ o.size) ⟨o, 0⟩).take o.size =
        (view s.mem ⟨.packetBuffer, 0⟩).take o.size :=
      view_memcpy (show 0 + o.size ≤ o.size by omega) (show 0 + o.size ≤ packetSizeMax by omega)
    have hwhole : ∀ m : Mem UInt8 Obj.size, (view m ⟨o, 0⟩).take o.size = m.cells o := fun m =>
      List.take_of_length_le (m.length_cells o).le
    rw [hwhole, ← hmem, ← hsize, hbytes, ← rebuilt_of_length (f := ⟨t, x, got⟩) hsum] at hcopy
    rw [hcopy, copied, if_pos (hargs.mpr rfl)]
  · rw [hmem, memcpy_other hdest, copied, if_neg fun h => hdest (hargs.mp h)]

/-- The phases that a step of the hunter leads to from a phase that holds a packet. -/
theorem holding_step {F : Scheme UInt8 (PacketOperations Obj.size)} {g : Bool} {ph : ClientPhase}
    {c : UInt8} (h : Holding (F.step g ph c).1) : Holding ph ∨ ∃ t op, ph = .len t op := by
  generalize hnext : (F.step g ph c).1 = next at h
  cases next with
  | body t op x need got =>
    rcases Scheme.step_to_body hnext with ⟨-, hev⟩ | ⟨n, got', rfl, -, -⟩
    · obtain ⟨t', op', n, rfl, -, -⟩ := Scheme.step_len hev
      exact Or.inr ⟨t', op', rfl⟩
    · exact Or.inl trivial
  | stop t op x got =>
    obtain ⟨got', rfl, -, -⟩ := Scheme.step_to_stop hnext
    exact Or.inl trivial
  | _ => exact h.elim

/-- What a byte does to the packet buffer's pointer and to the memory outside the buffer. -/
theorem rxByte_effect (hs : ListensAt heap s ph) (he : rxByte s c = some (s', r)) :
    (Holding ((rxScheme (clientTable heap)).step true ph c).1 →
      s'.h.rxCurrentPacket = some ⟨.packetBuffer, 0⟩) ∧
    ∀ o, o ≠ .packetBuffer → s'.mem.cells o =
      copied s.mem ((rxScheme (clientTable heap)).step true ph c).2.done? o := by
  have hf := hs.rx.fields
  -- only the size byte starts a packet
  have hno : ∀ {ph : ClientPhase}, ¬ Holding ph → (∀ t op, ph ≠ .len t op) →
      ¬ Holding ((rxScheme (clientTable heap)).step true ph c).1 := by
    intro ph h1 h2 h
    rcases holding_step h with h | ⟨t, op, h⟩
    · exact h1 h
    · exact h2 t op h
  cases ph with
  | hunt =>
    have hmem := rxByte_mem (Or.inl hf) he
    refine ⟨fun h => absurd h (hno (fun h => h) fun t op h => by cases h), fun o _ => ?_⟩
    rw [hmem]
    by_cases hc : c = (rxScheme (clientTable heap)).sync₀ <;> simp [Scheme.step, hc] <;> rfl
  | sync =>
    have hmem := rxByte_mem (Or.inr (Or.inl hf)) he
    refine ⟨fun h => absurd h (hno (fun h => h) fun t op h => by cases h), fun o _ => ?_⟩
    rw [hmem]
    by_cases hc : c = (rxScheme (clientTable heap)).sync₁ <;> simp [Scheme.step, hc] <;> rfl
  | tag =>
    have hmem := rxByte_mem (Or.inr (Or.inr hf)) he
    refine ⟨fun h => absurd h (hno (fun h => h) fun t op h => by cases h), fun o _ => ?_⟩
    rw [hmem]
    cases hl : (rxScheme (clientTable heap)).look c <;> simp [Scheme.step, hl] <;> rfl
  | len t op =>
    obtain ⟨h1, h2⟩ := rxSize_client hs.rx he
    refine ⟨h1, fun o ho => ?_⟩
    rw [h2 o ho]
    cases ha : (rxScheme (clientTable heap)).accept op c <;> simp [Scheme.step, ha] <;> rfl
  | body t op x need got =>
    have hfn : s.h.rxFn = .rxPayload := hf.1
    simp only [rxByte, hfn] at he
    obtain ⟨p, hb, -, rfl, -⟩ := rxPayload_stored hs.rx he
    have hheld := hs.held trivial
    obtain rfl : p = ⟨.packetBuffer, 0⟩ := Option.some_inj.mp (hb.packet.symm.trans hheld)
    refine ⟨fun _ => hheld, fun o ho => ?_⟩
    rw [write_other ho]
    by_cases hn : need = 1 <;> simp [Scheme.step, hn] <;> rfl
  | stop t op x got =>
    refine ⟨fun h => ?_, fun o _ => ?_⟩
    · by_cases hc : c = (rxScheme (clientTable heap)).stop <;> simp [Scheme.step, hc, Holding] at h
    · by_cases hc : c = 0xFF
      · have hstep : (rxScheme (clientTable heap)).step true (.stop t op x got) c =
            (.hunt, .done op ⟨t, x, got⟩) := if_pos hc
        rw [hstep]
        rw [hc] at he
        exact rxChecksum_client hs he o
      · have hstep : (rxScheme (clientTable heap)).step true (.stop t op x got) c =
            (.hunt, .badStop) := if_neg hc
        have hfn : s.h.rxFn = .rxChecksum := hf.1
        simp only [rxByte, hfn, rxChecksum, if_neg hc, Option.some.injEq, Prod.mk.injEq] at he
        rw [hstep, ← he.1]
        rfl

/-- **One byte** is always defined and one step of the hunter with room granted, and outside the
packet buffer only a completed packet is copied. -/
theorem rxByte_listens (hs : ListensAt heap s ph) (c : UInt8) :
    ∃ s' r, rxByte s c = some (s', r) ∧
      ListensAt heap s' ((rxScheme (clientTable heap)).step true ph c).1 ∧
      Answers r ((rxScheme (clientTable heap)).step true ph c).2 ∧
      ∀ o, o ≠ .packetBuffer → s'.mem.cells o =
        copied s.mem ((rxScheme (clientTable heap)).step true ph c).2.done? o := by
  -- the packet buffer is never refused
  have hserve : Serves (clientTable heap) ph := by
    refine PacketOperations.Fixed.serves ?_
    rintro t op rfl
    refine ⟨clientTable_fixed heap t op hs.rx.wf, fun m hnone => ?_⟩
    obtain ⟨addr, dest, -, rfl⟩ := lookup_client hs.rx.wf
    cases hnone
  obtain ⟨s', r, he, hr, hroom, ha⟩ := rxByte_granted hs.rx hs.room hserve c
  obtain ⟨hheld, hmem⟩ := rxByte_effect hs he
  exact ⟨s', r, he, ⟨hr, hroom, hheld⟩, ha, hmem⟩

/-- The same at the client: the ring and the expected sizes are not touched. -/
theorem rxByte_client (hcl : ClientAt heap cl ph q) (c : UInt8) :
    ∃ s' r, rxByte cl.rx c = some (s', r) ∧
      ClientAt heap (cl.setRx s') ((rxScheme (clientTable heap)).step true ph c).1 q ∧
      Answers r ((rxScheme (clientTable heap)).step true ph c).2 ∧
      ∀ o, o ≠ .packetBuffer → s'.mem.cells o =
        copied cl.mem ((rxScheme (clientTable heap)).step true ph c).2.done? o := by
  obtain ⟨s', r, he, hs', ha, hmem⟩ := rxByte_listens hcl.listens c
  refine ⟨s', r, he, ⟨hs'.rx, hs'.room, hs'.held, ?_, hcl.sizes⟩, ha, hmem⟩
  obtain ⟨_, _, _, _, _, _, hh⟩ := rxByte_change he
  have hring := hcl.ring
  show RingAt s'.h q
  rw [hh]
  exact ⟨hring.cells, hring.start, hring.tail, hring.size⟩

end Step

end Ulisse
