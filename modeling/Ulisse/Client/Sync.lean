import Ulisse.Client.Ack

/-!
# Client.Sync — waiting for the end of an epoch

`UlisseClient_sync` waits for `end_epoch.seq` to change, but no operation is installed that copies
packets there: whatever comes in, the loop reads on (`awaitEpoch_blocked`).
-/

namespace Ulisse

open BlockMem Run Framing

/-- The frame of an `EndEpochPacket`. -/
def endEpochPacket (seq : UInt16) : List UInt8 :=
  [endEpochPacketId, UInt8.ofNat sizeofEndEpochPacket, lowByte seq, highByte seq]

/-- The stream `before`, the end of the epoch with the number `seq`, and `after`. -/
def epochStream (before : List UInt8) (seq : UInt16) (after : List UInt8) : List ReadAnswer :=
  (before ++ 0xAA :: 0x55 :: (endEpochPacket seq ++ [0xFF]) ++ after).map .byte

/-- The inner loop of `UlisseClient_sync` ends right behind the end of the epoch, with that packet
in `end_epoch`. -/
def EpochEnds (cl : UlisseClient) (before : List UInt8) (seq : UInt16) (after : List UInt8) :
    Prop :=
  ∃ cl', Client.awaitEpoch cl.endEpochSeq cl (epochStream before seq after) =
      .ok (cl', after.map .byte) ∧
    cl'.mem.cells .endEpoch = endEpochPacket seq

section Epoch

variable {heap : Fin 4 → ℕ} {cl cl₁ : UlisseClient} {ph : ClientPhase}
  {q : RingQueue UInt8 packetSizeMax} {d : Completed}

/-- No packet is copied to the end of epoch. -/
theorem Receives.endEpoch (hinst : Installed heap d) (hrec : Receives cl cl₁ d) :
    cl₁.endEpochSeq = cl.endEpochSeq := by
  obtain ⟨op, f⟩ := d
  obtain ⟨addr, dest, hd, hop⟩ := lookup_client hinst.look
  obtain ⟨-, -, -, hne, -⟩ := destination_some hd
  have hargs : op.onReciveArgs ≠ some ⟨.endEpoch, 0⟩ := by
    have hop' : op = Client.packetOp addr dest f.tag (UInt8.ofNat dest.size) := hop
    rw [hop']
    show some (⟨dest, 0⟩ : Ptr Obj) ≠ some ⟨.endEpoch, 0⟩
    simp [hne]
  have hcells := hrec.mem .endEpoch (by decide)
  rw [copied, if_neg hargs] at hcells
  rw [UlisseClient.endEpochSeq, hcells]
  rfl

/-- **The wait does not end**, whatever comes in. -/
theorem awaitEpoch_blocked (hcl : ClientAt heap cl ph q) (answers : List ReadAnswer) :
    Client.awaitEpoch cl.endEpochSeq cl answers = .error .blocked := by
  generalize hn : answers.length = n
  induction n using Nat.strong_induction_on generalizing cl ph answers with
  | _ n ih =>
    rw [Client.awaitEpoch]
    cases hnext : nextPacket heap ph answers with
    | none =>
      have hread := readPacket_blocked hcl hnext
      split
      · next e he =>
        rw [hread] at he
        rw [← Except.error.inj he]
      · next he =>
        rw [hread] at he
        cases he
    | some x =>
      obtain ⟨d, rest⟩ := x
      obtain ⟨cl₁, rs₁, hread, hcl₁, -, hinst, hrec⟩ := readPacket_ok hcl hnext
      have hseq := hrec.endEpoch hinst
      split
      · next he =>
        rw [hread] at he
        cases he
      · next cl' rs rest' he =>
        rw [hread] at he
        simp only [Except.ok.injEq, Prod.mk.injEq] at he
        obtain ⟨rfl, rfl, rfl⟩ := he
        rw [if_pos hseq.symm, ← hseq]
        exact ih _ (hn ▸ readPacket_rest hread) hcl₁ rest rfl

theorem not_epochEnds (hcl : ClientAt heap cl ph q) (before : List UInt8) (seq : UInt16)
    (after : List UInt8) : ¬ EpochEnds cl before seq after := by
  rintro ⟨cl', hends, -⟩
  rw [awaitEpoch_blocked hcl] at hends
  cases hends

/-- `UlisseClient_sync` does not complete a cycle. -/
theorem sync_blocked (hcl : ClientAt heap cl ph q) (cycles : ℕ) (answers : List ReadAnswer) :
    UlisseClient.sync (cycles + 1) cl answers = .error .blocked := by
  obtain ⟨cl₁, q₁, hf, hcl₁, -⟩ := flushBuffer_ok hcl
  rw [UlisseClient.sync, hf]
  simp only [awaitEpoch_blocked hcl₁]
  rfl

/-- **The end of an epoch is missed**: for every value of `end_epoch.seq` that the block held, and
whatever comes before and after the end of the epoch, the loop goes on reading. -/
theorem awaitEpoch_never (h : Started heap cl) (before : List UInt8) (seq : UInt16)
    (after : List UInt8) :
    Client.awaitEpoch cl.endEpochSeq cl (epochStream before seq after) = .error .blocked ∧
      ¬ EpochEnds cl before seq after := by
  obtain ⟨q, hcl⟩ := h.at
  exact ⟨awaitEpoch_blocked hcl _, not_epochEnds hcl before seq after⟩

end Epoch

theorem awaitEpoch_never_started :
    ¬ EpochEnds startedClient jointStatusFrame 1 [] :=
  (awaitEpoch_never startedClient_started jointStatusFrame 1 []).2

/-- The packet that ends epoch `1` does not end the loop of a client that has seen none. -/
theorem awaitEpoch_counterexample :
    Started (fun i => i.val) startedClient ∧ startedClient.endEpochSeq = 0 ∧
      ¬ EpochEnds startedClient [] 1 [] := by
  obtain ⟨q, hcl⟩ := startedClient_started.at
  exact ⟨startedClient_started, by decide +kernel, not_epochEnds hcl [] 1 []⟩

end Ulisse
