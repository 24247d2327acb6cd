import Ulisse.Handler.Halves
import Ulisse.Handler.TxQueue
import Ulisse.Handler.Uninstall
import Ulisse.Lib.Weave

/-!
# Handler.Duplex — all calls of a handler, interleaved

Sends and byte fetches run on the transmit half, the table and the receiver on the other one
(`handler_halves`): whatever the order in which a program makes its calls, each half is where its own
calls in their own order take it.
-/

namespace Ulisse

open BlockMem Run Weave

variable {β ι ο : Type} {len : β → ℕ}

/-- A call of the receive half, made by `f`, or one at the transmit end. -/
def beside (f : RxState len → ι → Option (RxState len × ο)) (s : RxState len) :
    ι ⊕ TxCall → Option (RxState len × (ο ⊕ TxReturn))
  | .inl i => (f s i).map fun r => (r.1, .inl r.2)
  | .inr call => (txStep s.h call).map fun r => (⟨r.1, s.mem⟩, .inr r.2)

section Halves

@[simp] theorem rxState_withTx_self (s : RxState len) : s.withTx s.h = s := rfl

/-- **Transmitting** neither reads nor moves the receive half. -/
theorem txStep_withTx (h g : PacketHandler len) (call : TxCall) :
    txStep (h.withTx g) call = (txStep g call).map fun r => (h.withTx r.1, r.2) := by
  cases call with
  | sendPacket p =>
    rw [txStep, txStep, sendPacket_withTx]
    cases g.sendPacket p <;> rfl
  | txByte =>
    have hhead : (h.withTx g).txHead = g.txHead := rfl
    rw [txStep, txStep, txByte_withTx, hhead]
    cases g.txByte <;> rfl

theorem tableStep_withTx (h g : PacketHandler len) (c : TableCall len) :
    tableStep (h.withTx g) c = (tableStep h c).map fun r => (r.1.withTx g, r.2) := by
  have hops : (h.withTx g).operations = h.operations := rfl
  cases c with
  | installPacket ops =>
    simp only [tableStep, PacketHandler.installPacket, hops]
    split_ifs with ht
    · cases h.operations ⟨ops.type.toNat, ht⟩ <;> rfl
    · rfl
  | uninstallPacket type =>
    simp only [tableStep, PacketHandler.uninstallPacket, hops]
    split_ifs with ht
    · cases h.operations ⟨type.toNat, ht⟩ <;> rfl
    · rfl

theorem handlerStep_withTx [DecidableEq β] (s : RxState len) (g : PacketHandler len)
    (call : HandlerCall len) :
    handlerStep (s.withTx g) call = (handlerStep s call).map fun r => (r.1.withTx g, r.2) := by
  cases call with
  | table c =>
    have hh : (s.withTx g).h = s.h.withTx g := rfl
    rw [handlerStep, handlerStep, hh, tableStep_withTx]
    cases tableStep s.h c <;> rfl
  | rxByte b =>
    rw [handlerStep, handlerStep, rxByte_withTx]
    cases rxByte s b <;> rfl

/-- What leaves the transmit half alone splits off from it. -/
theorem beside_splits {f : RxState len → ι → Option (RxState len × ο)}
    (hf : ∀ s g i, f (s.withTx g) i = (f s i).map fun r => (r.1.withTx g, r.2)) :
    Splits (beside f) f txStep RxState.withTx where
  left s g i := by
    rw [beside, hf]
    cases f s i <;> rfl
  right s g call := by
    have hh : (s.withTx g).h = s.h.withTx g := rfl
    rw [beside, hh, txStep_withTx]
    cases txStep g call <;> rfl

end Halves

variable [DecidableEq β]

/-- **The halves are independent**: any interleaving of all calls of a handler is defined exactly
when the calls of each half are on their own, gives each half the answers that they get on their
own, and joins the states that they lead to. -/
theorem handler_halves (s : RxState len) (calls : List (HandlerCall len ⊕ TxCall)) :
    ((run (beside handlerStep) s calls).map fun r => (r.1, lefts r.2, rights r.2)) =
      (run handlerStep s (lefts calls)).bind fun a =>
        (run txStep s.h (rights calls)).map fun b => (a.1.withTx b.1, a.2, b.2) :=
  (beside_splits handlerStep_withTx).run_eq s s.h calls

end Ulisse
