import Ulisse.EchoServer
import Ulisse.Lib.Codeword

/-!
# EchoText — what the echo server sends back

`loop` prints the packet that was copied, its action set to 1, to `buf` and sends `buf` up to the
zero byte.  The text fits, and it tells every field of the packet and where it ends, so the bytes
that were sent at any time tell the packets that were copied up to then, but for their actions
(`echo_tells`).
-/

namespace Ulisse

open ByteMem Stdio Run Numeral Codeword

namespace Echo

/-! ## The text of a packet -/

section Text

variable {n k : ℕ}

theorem decimal_eq (hn : n < 2 ^ 31) : decimal n = text 10 n := by
  have hnat : (BitVec.ofNat 32 n).toNat = n := by
    rw [BitVec.toNat_ofNat]
    omega
  have hval : ((BitVec.ofNat 32 n).setWidth (8 * 4)).toInt = n := by
    show (BitVec.setWidth 32 (BitVec.ofNat 32 n)).toInt = n
    rw [BitVec.setWidth_eq, BitVec.toInt_eq_toNat_of_lt (by omega), hnat]
  show zeroPad 0 (if ((BitVec.ofNat 32 n).setWidth (8 * 4)).toInt < 0 then [45] else [])
    (text 10 ((BitVec.ofNat 32 n).setWidth (8 * 4)).toInt.natAbs) = _
  rw [hval, if_neg (by omega), Int.natAbs_natCast, zeroPad, Nat.zero_sub]
  rfl

theorem isDigit_decimal (hn : n < 2 ^ 31) : ∀ c ∈ decimal n, isDigit 10 c = true := by
  rw [decimal_eq hn]
  exact isDigit_text (by omega) (by omega) n

theorem decimal_inj (hn : n < 2 ^ 31) (hk : k < 2 ^ 31) (h : decimal n = decimal k) : n = k := by
  rw [decimal_eq hn, decimal_eq hk] at h
  exact text_injective (by omega) (by omega) h

/-- A number in front of a part that goes on without a digit. -/
theorem tells_number {γ : Type} {f : ParamControlPacket → List UInt8}
    {u : ParamControlPacket → γ} {l : List UInt8} (field : ParamControlPacket → ℕ)
    (hf : Tells f u) (hfield : ∀ p, field p < 2 ^ 31)
    (hl : ∃ c, l.head? = some c ∧ isDigit 10 c = false) :
    Tells (fun p => decimal (field p) ++ (l ++ f p)) fun p => (field p, u p) := by
  obtain ⟨c, hhead, hc⟩ := hl
  apply (hf.letters (fun p => isDigit_decimal (hfield p)) hhead hc).map
  intro p q h
  obtain ⟨hnum, hu⟩ := Prod.mk.inj h
  exact Prod.ext (decimal_inj (hfield p) (hfield q) hnum) hu

theorem byte_lt (b : UInt8) : b.toNat < 2 ^ 31 := b.toNat_lt.trans (by decide)

theorem word_lt (w : UInt16) : w.toNat < 2 ^ 31 := w.toNat_lt.trans (by decide)

/-- **The text of a packet** tells its fields. -/
theorem tells_packetPrint : Tells packetPrint id := by
  have hline : ∃ c, (ascii "\n").head? = some c ∧ isDigit 10 c = false :=
    ⟨10, by decide +kernel, rfl⟩
  have hcomma : ∀ l : List UInt8, ∃ c, (44 :: l).head? = some c ∧ isDigit 10 c = false :=
    fun l => ⟨44, rfl, rfl⟩
  -- the parts, from the last one
  have hparam := tells_number (·.paramType.toNat) tells_nil (fun p => byte_lt _) hline
  have haction := tells_number (·.action.toNat) (l := ascii ", [param_type]: ") hparam
    (fun p => byte_lt _) (hcomma _)
  have hseq := tells_number (·.header.seq.toNat)
    (haction.literal (ascii "ParamControlPacket: [action]: ")) (fun p => word_lt _) hline
  have hsize := tells_number (·.header.size.toNat) (l := ascii ", [packetSeq]: ") hseq
    (fun p => byte_lt _) (hcomma _)
  have htype := tells_number (·.header.type.toNat) (l := ascii ", [PacketSize]: ") hsize
    (fun p => byte_lt _) (hcomma _)
  have hall := htype.literal (ascii "Header: [PacketType]: ")
  intro p q s t heq
  simp only [packetPrint, headerPrint, List.append_assoc] at heq
  obtain ⟨hfields, hst⟩ := hall p q s t
    (by simpa only [List.append_assoc, List.nil_append] using heq)
  refine ⟨?_, hst⟩
  rcases p with ⟨⟨type, size, seq⟩, action, paramType⟩
  rcases q with ⟨⟨type', size', seq'⟩, action', paramType'⟩
  simp only [Prod.mk.injEq, UInt8.toNat_inj, UInt16.toNat_inj] at hfields
  obtain ⟨rfl, rfl, rfl, rfl, rfl, -⟩ := hfields
  rfl

theorem length_decimal (hk : 0 < k) (hn : n < 10 ^ k) (h : n < 2 ^ 31) :
    (decimal n).length ≤ k := by
  rw [decimal_eq h]
  exact length_text_le (by omega) hk hn

/-- The text has room in `buf`, with the zero byte behind it. -/
theorem length_packetPrint (p : ParamControlPacket) : (packetPrint p).length < 256 := by
  have hbyte : ∀ b : UInt8, (decimal b.toNat).length ≤ 3 := fun b =>
    length_decimal (by omega) (b.toNat_lt.trans (by decide)) (byte_lt b)
  have hword : (decimal p.header.seq.toNat).length ≤ 5 :=
    length_decimal (by omega) (p.header.seq.toNat_lt.trans (by decide)) (word_lt _)
  have htexts : (ascii "Header: [PacketType]: ").length = 22 ∧
      (ascii ", [PacketSize]: ").length = 16 ∧ (ascii ", [packetSeq]: ").length = 15 ∧
      (ascii "ParamControlPacket: [action]: ").length = 30 ∧
      (ascii ", [param_type]: ").length = 16 ∧ (ascii "\n").length = 1 := by decide +kernel
  have htype := hbyte p.header.type
  have hsize := hbyte p.header.size
  have haction := hbyte p.action
  have hparam := hbyte p.paramType
  simp only [packetPrint, headerPrint, List.length_append]
  omega

theorem zero_notMem_packetPrint (p : ParamControlPacket) : 0 ∉ packetPrint p := by
  have hnum : ∀ {n : ℕ}, n < 2 ^ 31 → 0 ∉ decimal n := fun hn h0 =>
    absurd (isDigit_decimal hn 0 h0) (by decide)
  have htexts : 0 ∉ ascii "Header: [PacketType]: " ∧ 0 ∉ ascii ", [PacketSize]: " ∧
      0 ∉ ascii ", [packetSeq]: " ∧ 0 ∉ ascii "ParamControlPacket: [action]: " ∧
      0 ∉ ascii ", [param_type]: " ∧ 0 ∉ ascii "\n" := by decide +kernel
  obtain ⟨h1, h2, h3, h4, h5, h6⟩ := htexts
  simp only [packetPrint, headerPrint, List.mem_append, not_or]
  refine ⟨⟨⟨⟨⟨?_, h4⟩, hnum (byte_lt _)⟩, h5⟩, hnum (byte_lt _)⟩, h6⟩
  exact ⟨⟨⟨⟨⟨⟨h1, hnum (byte_lt _)⟩, h2⟩, hnum (byte_lt _)⟩, h3⟩, hnum (word_lt _)⟩, h6⟩

end Text

/-! ## The texts of a run -/

/-- What `Serial.write` sends of a buffer. -/
def cString (buf : Fin 256 → UInt8) : List UInt8 := (List.ofFn buf).takeWhile (· ≠ 0)

/-- The packet as it is sent back. -/
def echoed (p : ParamControlPacket) : ParamControlPacket := { p with action := 1 }

/-- The packets that a run sends back. -/
def echoes (os : List (Option ParamControlPacket)) : List ParamControlPacket :=
  os.reduceOption.map echoed

section Texts

variable {s t : Echo} {o : Option ParamControlPacket} {os : List (Option ParamControlPacket)}
  {chunk : List UInt8} {chunks : List (List UInt8)}

/-- A text with its zero byte is read back from the buffer. -/
theorem cString_overwrite (buf : Fin 256 → UInt8) {cs : List UInt8} (hlen : cs.length < 256)
    (h0 : 0 ∉ cs) : cString (overwrite buf 0 (cs ++ [0])) = cs := by
  have hin : cs ++ [0] <+: List.ofFn (overwrite buf 0 (cs ++ [0])) := by
    have hle : (cs ++ [0]).length ≤ 256 := by
      rw [List.length_append]
      exact hlen
    rw [List.prefix_iff_getElem]
    refine ⟨by rw [List.length_ofFn]; exact hle, fun i hi => ?_⟩
    rw [List.getElem_ofFn, overwrite_inside (Nat.zero_le i) hi]
    rfl
  obtain ⟨rest, hrest⟩ := hin
  have hletters : ∀ c ∈ cs, decide (c ≠ 0) = true := fun c hc =>
    decide_eq_true fun hzero => h0 (hzero ▸ hc)
  rw [cString, ← hrest, List.append_assoc, List.takeWhile_append_of_pos hletters,
    List.singleton_append, List.takeWhile_cons_of_neg (by decide), List.append_nil]

/-- **A copied packet** is printed to the buffer and sent from it. -/
theorem loop_sends (h : s.echoFlag = true) :
    (loop s).echoFlag = false ∧ (loop s).sent = s.sent ++ packetPrint (echoed s.pcp) ∧
      cString (loop s).buf = packetPrint (echoed s.pcp) := by
  have htext := cString_overwrite s.buf (length_packetPrint (echoed s.pcp))
    (zero_notMem_packetPrint (echoed s.pcp))
  rw [loop, if_pos h]
  dsimp only
  exact ⟨rfl, rfl, htext⟩

/-- **A round** sends the text of the packet that it copies, which is then in `buf`. -/
theorem round_sends (h : s.echoFlag = false) (hround : round s chunk = some (t, o)) :
    t.echoFlag = false ∧ (o = none ∧ t.sent = s.sent ∨ ∃ p, o = some p ∧
      t.sent = s.sent ++ packetPrint (echoed p) ∧ cString t.buf = packetPrint (echoed p)) := by
  simp only [round, serialEvent] at hround
  split_ifs at hround with hfull
  · obtain ⟨rfl, rfl⟩ := result_unique rfl hround
    obtain ⟨hidle, hsent⟩ := loop_sends (s := Echo.mk _ _ _ true _ _) rfl
    exact ⟨hidle, Or.inr ⟨_, rfl, hsent⟩⟩
  · obtain ⟨rfl, rfl⟩ := result_unique rfl hround
    rw [loop_idle]
    · exact ⟨h, Or.inl ⟨rfl, rfl⟩⟩
    · exact h

/-- **A run** sends the texts of the packets that it copies. -/
theorem run_sends (h : s.echoFlag = false) (hrun : run round s chunks = some (t, os)) :
    t.echoFlag = false ∧ t.sent = s.sent ++ (echoes os).flatMap packetPrint := by
  induction chunks generalizing s os with
  | nil =>
    obtain ⟨rfl, rfl⟩ := run_nil_some hrun
    exact ⟨h, (List.append_nil _).symm⟩
  | cons c cs ih =>
    obtain ⟨s', o, os', hround, hrest, rfl⟩ := run_cons_some.mp hrun
    obtain ⟨hidle, hsends⟩ := round_sends h hround
    obtain ⟨htidle, hsent⟩ := ih hidle hrest
    refine ⟨htidle, ?_⟩
    rcases hsends with ⟨rfl, hsame⟩ | ⟨p, rfl, hmore, -⟩
    · rw [hsent, hsame]
      rfl
    · rw [hsent, hmore, List.append_assoc]
      rfl

/-- **What the bytes sent tell**: in every run from the start they are the texts of the packets that
were copied, each of them with its zero byte no longer than `buf` and what is in `buf` up to that; and
of two runs one has sent the first part of what the other has exactly if it copied the first of its
packets, but for their actions. -/
theorem echo_tells {buf buf' : Fin 256 → UInt8} {pcp pcp' : ParamControlPacket}
    {sent : List UInt8} {t' : Echo} {os' : List (Option ParamControlPacket)}
    {chunks' : List (List UInt8)} (hrun : run round (start buf pcp sent) chunks = some (t, os))
    (hrun' : run round (start buf' pcp' sent) chunks' = some (t', os')) :
    t.sent = sent ++ (echoes os).flatMap packetPrint ∧
    (∀ p ∈ echoes os, (packetPrint p ++ [0]).length ≤ 256 ∧ 0 ∉ packetPrint p) ∧
    (t.sent <+: t'.sent ↔ echoes os <+: echoes os') ∧
    ∀ chunk s o, round t chunk = some (s, o) →
      s.sent = t.sent ++ if o.isSome then cString s.buf else [] := by
  obtain ⟨hidle, hsent⟩ := run_sends rfl hrun
  obtain ⟨-, hsent'⟩ := run_sends rfl hrun'
  have hline : ascii "\n" ≠ [] := by decide +kernel
  have hne : ∀ p, packetPrint p ≠ [] := fun p => List.append_ne_nil_of_right_ne_nil _ hline
  have hfits : ∀ p, (packetPrint p ++ [0]).length ≤ 256 := by
    intro p
    rw [List.length_append]
    exact length_packetPrint p
  refine ⟨hsent, fun p _ => ⟨hfits p, zero_notMem_packetPrint p⟩, ?_, fun chunk s o hround => ?_⟩
  · rw [hsent, hsent']
    exact (List.prefix_append_right_inj sent).trans (prefix_flatMap_iff tells_packetPrint hne)
  · obtain ⟨-, ⟨rfl, hsame⟩ | ⟨p, rfl, hmore, htext⟩⟩ := round_sends hidle hround
    · exact hsame.trans (List.append_nil _).symm
    · rw [hmore, htext]
      rfl

/-- A run with one packet, and one with two of which the first has another action. -/
theorem echo_tells_two : ∃ t os t' os',
    run round (start (fun _ => 0) ⟨⟨0, 0, 0⟩, 0, 0⟩ []) [[1, 6, 1, 1, 7, 2]] = some (t, os) ∧
    run round (start (fun _ => 0) ⟨⟨0, 0, 0⟩, 0, 0⟩ [])
      [[1, 6, 1, 1, 8, 2], [1, 6, 2, 1, 1, 2]] = some (t', os') ∧
    os = [some ⟨⟨1, 6, 257⟩, 7, 2⟩] ∧
    os' = [some ⟨⟨1, 6, 257⟩, 8, 2⟩, some ⟨⟨1, 6, 258⟩, 1, 2⟩] ∧
    t.sent = packetPrint ⟨⟨1, 6, 257⟩, 1, 2⟩ ∧ t.sent <+: t'.sent := by
  have hone : (run round (start (fun _ => 0) ⟨⟨0, 0, 0⟩, 0, 0⟩ [])
      [[1, 6, 1, 1, 7, 2]]).map Prod.snd = some [some ⟨⟨1, 6, 257⟩, 7, 2⟩] := by decide +kernel
  have htwo : (run round (start (fun _ => 0) ⟨⟨0, 0, 0⟩, 0, 0⟩ [])
      [[1, 6, 1, 1, 8, 2], [1, 6, 2, 1, 1, 2]]).map Prod.snd =
        some [some ⟨⟨1, 6, 257⟩, 8, 2⟩, some ⟨⟨1, 6, 258⟩, 1, 2⟩] := by decide +kernel
  obtain ⟨⟨t, os⟩, hrun, rfl⟩ := Option.map_eq_some_iff.mp hone
  obtain ⟨⟨t', os'⟩, hrun', rfl⟩ := Option.map_eq_some_iff.mp htwo
  obtain ⟨hsent, -, hprefix, -⟩ := echo_tells hrun hrun'
  refine ⟨t, _, t', _, hrun, hrun', rfl, rfl, hsent, hprefix.mpr ⟨[⟨⟨1, 6, 258⟩, 1, 2⟩], rfl⟩⟩

end Texts

end Echo

end Ulisse
