import Ulisse.Client.Rules
import Ulisse.Handler.RxSound

/-!
# Client.Latest — what `UlisseClient_get` finds

All four operations receive into the one packet buffer, and a completed packet is copied to the
member of its type.  So whatever bytes arrive, each of the four members holds the packet of its type
that was completed last, and what it held before there was one.
-/

namespace Ulisse

open BlockMem Run Framing

/-- **Last writer wins**: a cell that some elements of a list overwrite holds what the last of them
wrote. -/
theorem foldl_overwrite {α γ : Type} (p : α → Bool) (f : α → γ) (xs : List α) (init : γ) :
    xs.foldl (fun y x => if p x then f x else y) init =
      ((xs.filter p).getLast?.map f).getD init := by
  induction xs using List.reverseRecOn with
  | nil => rfl
  | append_singleton xs x ih =>
    rw [List.foldl_append, List.filter_append, ih]
    cases hx : p x <;> simp [hx]

/-- The block `o` after the packets `ds` were completed. -/
def stored (m : Mem UInt8 Obj.size) (ds : List Completed) (o : Obj) : List UInt8 :=
  ds.foldl (fun bytes d => if d.1.onReciveArgs = some ⟨o, 0⟩ then rebuilt d.1 d.2 else bytes)
    (m.cells o)

theorem stored_append (m : Mem UInt8 Obj.size) (ds ds' : List Completed) (o : Obj) :
    stored m (ds ++ ds') o =
      ds'.foldl (fun bytes d => if d.1.onReciveArgs = some ⟨o, 0⟩ then rebuilt d.1 d.2 else bytes)
        (stored m ds o) :=
  List.foldl_append

/-- The last of them that is copied to `o`. -/
theorem stored_eq (m : Mem UInt8 Obj.size) (ds : List Completed) (o : Obj) :
    stored m ds o =
      ((ds.filter fun d => decide (d.1.onReciveArgs = some ⟨o, 0⟩)).getLast?.map
        fun d => rebuilt d.1 d.2).getD (m.cells o) := by
  rw [← foldl_overwrite]
  simp only [decide_eq_true_eq]
  rfl

section Receive

variable {heap : Fin 4 → ℕ} {cl : UlisseClient} {s : RxState Obj.size} {ph : ClientPhase}
  {T : UInt8} {op : PacketOperations Obj.size} {addr : ℕ} {dest : Obj}

/-- Two types are copied to two members. -/
theorem destination_inj {t u : UInt8} (ht : destination t = some dest)
    (hu : destination u = some dest) : t = u := by
  unfold destination at ht hu
  split_ifs at ht with t0 t2 t6 t4
  all_goals
    obtain rfl := Option.some_inj.mp ht
    split_ifs at hu <;> simp_all

/-- An installed operation copies to `dest` if it is the one of the type that `dest` is for. -/
theorem copies_iff (hop : lookup (clientTable heap) op.type = some op)
    (hd : destination T = some dest) : op.onReciveArgs = some ⟨dest, 0⟩ ↔ op.type = T := by
  obtain ⟨addr, dest', hd', he⟩ := lookup_client hop
  have hargs : op.onReciveArgs = some ⟨dest', 0⟩ := by
    rw [he]
    rfl
  rw [hargs]
  constructor
  · intro h
    obtain rfl : dest' = dest := by simpa using h
    exact destination_inj hd' hd
  · rintro rfl
    rw [Option.some_inj.mp (hd'.symm.trans hd)]

/-- The four operations stand in the slots of their types. -/
theorem clientTable_own (t : UInt8) (op : PacketOperations Obj.size)
    (hl : lookup (clientTable heap) t = some op) : op.type = t := by
  obtain ⟨addr, dest, -, rfl⟩ := lookup_client hl
  rfl

/-- What is stored for a type is the last segment of it. -/
theorem stored_last {m : Mem UInt8 Obj.size} {bs : List UInt8}
    {es : List (Event UInt8 (PacketOperations Obj.size))}
    {segs : List (Segment UInt8 (PacketOperations Obj.size))}
    (hacc : (rxScheme (clientTable heap)).Accounts bs es segs) (hd : destination T = some dest) :
    stored m (dones es) dest =
      (((segs.map RxSegment.ofSegment).filter fun g => decide (g.op.type = T)).getLast?.map
        RxSegment.packet).getD (m.cells dest) := by
  have hseg := fun g hg =>
    RxSegment.ofSegment_occurs clientTable_own (clientTable_fixed heap) (hacc.occurs g hg)
  have hsame : segs.filter ((fun d : Completed =>
        decide (d.1.onReciveArgs = some ⟨dest, 0⟩)) ∘ fun g => (g.op, g.frame)) =
      segs.filter ((fun g => decide (g.op.type = T)) ∘ RxSegment.ofSegment) := by
    apply List.filter_congr
    intro g hg
    exact decide_eq_decide.mpr (copies_iff (hseg g hg).1.installed hd)
  rw [stored_eq, hacc.dones, List.filter_map, List.filter_map, List.getLast?_map,
    List.getLast?_map, Option.map_map, Option.map_map, hsame]
  cases hlast : (segs.filter ((fun g => decide (g.op.type = T)) ∘
      RxSegment.ofSegment)).getLast? with
  | none => rfl
  | some g =>
    have hg := (List.mem_filter.mp (List.mem_of_getLast? hlast)).1
    exact (hseg g hg).2.2

/-- **Any stream** is taken in, and leaves the members with what was completed last. -/
theorem rxRun_stored (hs : ListensAt heap s ph) (bs : List UInt8) :
    ∃ s' rs es ph', run rxByte s bs = some (s', rs) ∧
      Trace (rxScheme (clientTable heap)) ph bs es ph' ∧ ListensAt heap s' ph' ∧
      List.Forall₂ Answers rs es ∧
      ∀ o, o ≠ .packetBuffer → s'.mem.cells o = stored s.mem (dones es) o := by
  induction bs using List.reverseRecOn with
  | nil => exact ⟨s, [], [], ph, rfl, .nil, hs, .nil, fun o _ => rfl⟩
  | append_singleton bs c ih =>
    obtain ⟨s₁, rs, es, ph₁, hrun, htr, hs₁, hans, hmem⟩ := ih
    obtain ⟨s₂, r, he, hs₂, ha, hmem₂⟩ := rxByte_listens hs₁ c
    refine ⟨s₂, rs ++ [r], _, _, run_append_of hrun (run_singleton he), htr.snoc true c, hs₂,
      List.rel_append hans (.cons ha .nil), fun o ho => ?_⟩
    rw [hmem₂ o ho, dones_append, stored_append, dones_singleton, ← hmem o ho]
    cases ((rxScheme (clientTable heap)).step true ph₁ c).2.done? <;> rfl

/-- **`UlisseClient_get`** reads the member of the type. -/
theorem get_installed (hs : ListensAt heap s ph)
    (hl : lookup (clientTable heap) T = some (Client.packetOp addr dest T (UInt8.ofNat dest.size)))
    (hd : destination T = some dest) : (cl.setRx s).get T = (.success, s.mem.cells dest) := by
  have ht := lookup_some_lt hl
  have hslot : (cl.setRx s).packetHandler.operations ⟨T.toNat, ht⟩ =
      some (Client.packetOp addr dest T (UInt8.ofNat dest.size)) := by
    rw [← hl, lookup_of_lt _ ht]
    exact congrFun hs.rx.table _
  rw [UlisseClient.get, dif_pos ht, hslot]
  show (PacketStatus.success, (s.mem.cells dest).take (UInt8.ofNat dest.size).toNat) = _
  rw [packetOp_size hd, List.take_of_length_le (s.mem.length_cells dest).le]

/-- A type without operation is answered so, and nothing is copied. -/
theorem get_unknown (hs : ListensAt heap s ph) (ht : T.toNat < packetTypeMax)
    (hl : lookup (clientTable heap) T = none) : (cl.setRx s).get T = (.unknownType, []) := by
  have hslot : (cl.setRx s).packetHandler.operations ⟨T.toNat, ht⟩ = none := by
    rw [← hl, lookup_of_lt _ ht]
    exact congrFun hs.rx.table _
  rw [UlisseClient.get, dif_pos ht, hslot]

/-- A byte that does not complete a packet of a type leaves the one that is stored. -/
theorem get_unchanged (hs : ListensAt heap s ph) {c : UInt8} {s' : RxState Obj.size}
    {r : RxReturn Obj.size} (he : rxByte s c = some (s', r))
    (hl : lookup (clientTable heap) T = some op) (hno : ∀ d ∈ deliveries [r], d.op.type ≠ T) :
    (cl.setRx s').get T = (cl.setRx s).get T := by
  obtain ⟨t, q, he', hs', ha, hmem⟩ := rxByte_listens hs c
  obtain ⟨rfl, rfl⟩ := result_unique he he'
  obtain ⟨addr, dest, hd, rfl⟩ := lookup_client hl
  obtain ⟨-, -, hne, -⟩ := destination_some hd
  rw [get_installed hs' hl hd, get_installed hs hl hd, hmem dest hne]
  congr 1
  rcases (rxScheme (clientTable heap)).step_cases true ph c with
    ⟨t, op, x, got, rfl, -, hstep⟩ | ⟨hquiet, -⟩
  · rw [hstep] at ha ⊢
    obtain ⟨hlook, hacc⟩ := hs.rx.wf
    have hlen := ((clientTable_fixed heap t op hlook).accept_iff.mp hacc).2
    rw [ha.deliver rfl hlen.ge, PacketOperations.deliver,
      if_pos (clientTable_receives hlook)] at hno
    have htype : op.type ≠ T := hno _ (List.mem_singleton_self _)
    have hown : lookup (clientTable heap) op.type = some op := by
      rw [clientTable_own t op hlook]
      exact hlook
    simp only [Event.done?, copied]
    rw [if_neg fun h => htype ((copies_iff hown hd).mp h)]
  · rw [hquiet]
    rfl

end Receive

/-- **The latest packet**: over any stream, the completed frames `segs` are disjoint segments of it,
and `UlisseClient_get` returns for an installed type the last of its segments, and what it returned
before if there is none; a byte that completes no packet of the type changes nothing about it, and
a type without operation is unknown. -/
theorem get_latest {heap : Fin 4 → ℕ} {cl : UlisseClient}
    (hops : cl.packetHandler.operations = clientTable heap) (hfn : cl.packetHandler.rxFn = .rxAA)
    (bs : List UInt8) :
    ∃ (s' : RxState Obj.size) (rs : List (RxReturn Obj.size)) (segs : List (RxSegment Obj.size)),
      run rxByte cl.rx bs = some (s', rs) ∧
      (∀ g ∈ segs, g.StandsIn (clientTable heap) bs) ∧
      segs.Pairwise (fun a b => a.behind ≤ b.start) ∧
      deliveries rs = segs.map (fun g => ⟨g.op, g.packet⟩) ∧
      (∀ (i : ℕ) (r : RxReturn Obj.size), rs[i]? = some r → r.status = .syncChecksum →
        ∃ g ∈ segs, g.behind = i + 1) ∧
      (∀ T op, lookup (clientTable heap) T = some op →
        (∀ g, (segs.filter fun g => g.op.type = T).getLast? = some g →
          (cl.setRx s').get T = (.success, g.packet)) ∧
        ((∀ g ∈ segs, g.op.type ≠ T) → (cl.setRx s').get T = cl.get T) ∧
        ∀ c s'' r, rxByte s' c = some (s'', r) → (∀ d ∈ deliveries [r], d.op.type ≠ T) →
          (cl.setRx s'').get T = (cl.setRx s').get T) ∧
      ∀ T : UInt8, T.toNat < packetTypeMax → lookup (clientTable heap) T = none →
        (cl.setRx s').get T = (.unknownType, []) := by
  have hs : ListensAt heap cl.rx .hunt := ListensAt.hunting hops hfn
  obtain ⟨s', rs, es, ph, hrun, htr, hs', hans, hmem⟩ := rxRun_stored hs bs
  obtain ⟨segs, hacc, -⟩ := htr.sound
  have hfix := clientTable_fixed heap
  have hstands := segments_standIn clientTable_own hfix hacc
  refine ⟨s', rs, segs.map RxSegment.ofSegment, hrun, hstands,
    segments_apart clientTable_own hfix hacc, ?_, ?_, ?_, ?_⟩
  · rw [deliveries_segments clientTable_own hfix hacc hans,
      ← List.flatMap_pure_eq_map fun g : RxSegment Obj.size => Delivery.mk g.op g.packet]
    apply List.flatMap_congr
    intro g hg
    rw [PacketOperations.deliver, if_pos (clientTable_receives (hstands g hg).installed)]
    rfl
  · intro i r hi hstatus
    obtain ⟨e, he, ha⟩ := forall₂_getElem? hans hi
    obtain ⟨op, f, rfl⟩ := ha.syncChecksum_iff.mp hstatus
    obtain ⟨g, hg, -, -, hbehind⟩ := hacc.ends i op f he
    have hend := (RxSegment.ofSegment_occurs clientTable_own hfix (hacc.occurs g hg)).2.1
    exact ⟨_, List.mem_map_of_mem hg, hend.trans hbehind⟩
  · intro T op hl
    obtain ⟨addr, dest, hd, rfl⟩ := lookup_client hl
    obtain ⟨-, -, hne, -⟩ := destination_some hd
    have hstored := (hmem dest hne).trans (stored_last hacc hd)
    refine ⟨?_, ?_, fun c s'' r he hno => get_unchanged hs' he hl hno⟩
    · intro g hg
      rw [get_installed hs' hl hd, hstored, hg]
      rfl
    · intro hno
      have hnil : ((segs.map RxSegment.ofSegment).filter fun g => decide (g.op.type = T)) = [] := by
        rw [List.filter_eq_nil_iff]
        intro g hg
        rw [decide_eq_true_eq]
        exact hno g hg
      have hbefore : (cl.setRx cl.rx).get T = (.success, cl.mem.cells dest) :=
        get_installed hs hl hd
      rw [get_installed hs' hl hd, hstored, hnil]
      exact hbefore.symm
  · intro T ht hl
    exact get_unknown hs' ht hl

/-- A started client that receives a joint status has it, and nothing of the types not installed. -/
theorem get_latest_started :
    ∃ s' rs, run rxByte startedClient.rx jointStatusFrame = some (s', rs) ∧
      (startedClient.setRx s').get jointStatusPacketId = (.success, 4 :: 28 :: List.replicate 26 0) ∧
      (startedClient.setRx s').get jointControlPacketId = (.unknownType, []) := by
  obtain ⟨q, hcl⟩ := startedClient_started.at
  obtain ⟨s', rs, segs, hrun, -, -, -, -, -, hunknown⟩ :=
    get_latest hcl.rx.table hcl.rx.fields jointStatusFrame
  have hget : (run rxByte startedClient.rx jointStatusFrame).map
      (fun q => (startedClient.setRx q.1).get jointStatusPacketId) =
        some (.success, 4 :: 28 :: List.replicate 26 0) := by decide +kernel
  rw [hrun] at hget
  exact ⟨s', rs, hrun, Option.some_inj.mp hget, hunknown jointControlPacketId (by decide) rfl⟩

end Ulisse
