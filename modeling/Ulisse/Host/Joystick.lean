import Mathlib.Data.Int.Notation
import Mathlib.Tactic.SplitIfs
import Ulisse.Lib.Writes

/-!
# Host.Joystick — the joystick of the host

`controller.c`.  A read takes a `struct js_event` from the device, which may also fail or return
less.  The pads hold the value of the last complete axis event for each of their coordinates,
whatever came in between (`axis_reads`): buttons, other axes, and the initial events of the driver,
whose type is not exactly `JS_EVENT_AXIS`.
-/

namespace Ulisse

open Writes

/-- `js_pad` -/
structure JsPad where
  x : Int16
  y : Int16
  deriving DecidableEq

/-- `js_handler` -/
structure JsHandler where
  fd : ℤ
  rightPad : JsPad
  leftPad : JsPad
  deriving DecidableEq

/-- The members of `struct js_event` that are looked at. -/
structure JsEvent where
  value : Int16
  type : UInt8
  number : UInt8
  deriving DecidableEq

/-- `JS_EVENT_AXIS` -/
def jsEventAxis : UInt8 := 0x02

/-- The event in the bytes of one: behind the time its value, type and number. -/
def JsEvent.ofBytes : List UInt8 → Option JsEvent
  | [_, _, _, _, lo, hi, type, number] =>
    some ⟨(lo.toUInt16 ||| (hi.toUInt16 <<< 8)).toInt16, type, number⟩
  | _ => none

/-- What `read` on the joystick does: an error, or so many bytes. -/
inductive JsAnswer where
  | error
  | bytes (bs : List UInt8)
  deriving DecidableEq

/-- The event that an answer is, if it is a complete one. -/
def JsAnswer.event? : JsAnswer → Option JsEvent
  | error => none
  | bytes bs => JsEvent.ofBytes bs

namespace JsHandler

/-- The branch of an axis event. -/
def setAxis (h : JsHandler) (number : UInt8) (value : Int16) : JsHandler :=
  if number = 3 then { h with leftPad := { h.leftPad with x := value } }
  else if number = 4 then { h with leftPad := { h.leftPad with y := value } }
  else if number = 0 then { h with rightPad := { h.rightPad with x := value } }
  else if number = 1 then { h with rightPad := { h.rightPad with y := value } }
  else h

/-- `js_handler_read` -/
def read (h : JsHandler) : JsAnswer → ℤ × JsHandler
  | .error => (-1, h)
  | .bytes bs =>
    if bs = [] then (-1, h)
    else match JsEvent.ofBytes bs with
      | none => (0, h)
      | some e => (0, if e.type = jsEventAxis then h.setAxis e.number e.value else h)

/-- The coordinate that an axis number stands for. -/
def axis (h : JsHandler) (number : UInt8) : Int16 :=
  if number = 3 then h.leftPad.x
  else if number = 4 then h.leftPad.y
  else if number = 0 then h.rightPad.x
  else h.rightPad.y

/-- The handler after some reads. -/
def reads (h : JsHandler) (answers : List JsAnswer) : JsHandler :=
  answers.foldl (fun h a => (h.read a).2) h

end JsHandler

/-- The numbers of the axes that are kept. -/
def KeptAxis (number : UInt8) : Prop := number = 3 ∨ number = 4 ∨ number = 0 ∨ number = 1

instance (number : UInt8) : Decidable (KeptAxis number) := inferInstanceAs (Decidable (_ ∨ _))

/-- The axis and value that an answer gives. -/
def JsAnswer.axis? (a : JsAnswer) : Option (UInt8 × Int16) :=
  a.event?.bind fun e => if e.type = jsEventAxis then some (e.number, e.value) else none

/-- The values given for the axes, in their order. -/
def axisLog (answers : List JsAnswer) : List (UInt8 × Int16) := answers.filterMap JsAnswer.axis?

section Reads

variable {h : JsHandler} {number : UInt8}

/-- The branch of an axis event writes the coordinate of its axis, if it has one. -/
theorem axis_setAxis (h : JsHandler) (w : UInt8 × Int16) (hn : KeptAxis number) :
    (h.setAxis w.1 w.2).axis number = store KeptAxis h.axis w number := by
  obtain ⟨k, v⟩ := w
  by_cases hk : KeptAxis k
  · rw [store, if_pos hk]
    by_cases hkn : number = k
    · subst hkn
      rw [Function.update_self]
      rcases hn with rfl | rfl | rfl | rfl <;> rfl
    · rw [Function.update_of_ne hkn]
      rcases hn with rfl | rfl | rfl | rfl <;> rcases hk with rfl | rfl | rfl | rfl <;>
        first | rfl | exact absurd rfl hkn
  · rw [store, if_neg hk]
    have hset : h.setAxis k v = h := by
      simp only [KeptAxis, not_or] at hk
      obtain ⟨h3, h4, h0, h1⟩ := hk
      rw [JsHandler.setAxis, if_neg h3, if_neg h4, if_neg h0, if_neg h1]
    rw [hset]

/-- A read sets the axis that its answer gives, if it gives one. -/
theorem read_axis? (h : JsHandler) (a : JsAnswer) :
    (h.read a).2 = match a.axis? with
      | none => h
      | some w => h.setAxis w.1 w.2 := by
  cases a with
  | error => rfl
  | bytes bs =>
    by_cases hbs : bs = []
    · rw [hbs]
      rfl
    · rw [JsHandler.read, if_neg hbs]
      cases he : JsEvent.ofBytes bs with
      | none => simp only [JsAnswer.axis?, JsAnswer.event?, he, Option.bind_none]
      | some e =>
        simp only [JsAnswer.axis?, JsAnswer.event?, he, Option.bind_some]
        split_ifs <;> rfl

theorem setAxis_fd (h : JsHandler) (number : UInt8) (value : Int16) :
    (h.setAxis number value).fd = h.fd := by
  unfold JsHandler.setAxis
  split_ifs <;> rfl

theorem reads_concat (h : JsHandler) (answers : List JsAnswer) (a : JsAnswer) :
    h.reads (answers ++ [a]) = ((h.reads answers).read a).2 := by
  rw [JsHandler.reads, List.foldl_append]
  rfl

/-- The coordinates behind some reads are those of the writes that their answers are. -/
theorem axis_stores (h : JsHandler) (answers : List JsAnswer) (hn : KeptAxis number) :
    (h.reads answers).axis number = (axisLog answers).foldl (store KeptAxis) h.axis number := by
  induction answers using List.reverseRecOn generalizing number with
  | nil => rfl
  | append_singleton answers a ih =>
    rw [reads_concat, read_axis?, axisLog, List.filterMap_append, List.foldl_append]
    cases ha : a.axis? with
    | none =>
      rw [List.filterMap_cons_none ha]
      exact ih hn
    | some w =>
      rw [List.filterMap_cons_some ha]
      refine (axis_setAxis (h.reads answers) w hn).trans ?_
      show store KeptAxis (h.reads answers).axis w number = store KeptAxis _ w number
      unfold store
      split_ifs with hk
      · by_cases hw : number = w.1
        · rw [hw, Function.update_self, Function.update_self]
        · rw [Function.update_of_ne hw, Function.update_of_ne hw]
          exact ih hn
      · exact ih hn

/-- **The last event of an axis wins**; the descriptor stays. -/
theorem axis_reads (h : JsHandler) (answers : List JsAnswer) :
    (∀ number, KeptAxis number →
      (h.reads answers).axis number = (last (axisLog answers) number).getD (h.axis number)) ∧
    (h.reads answers).fd = h.fd := by
  refine ⟨fun number hn => ?_, ?_⟩
  · rw [axis_stores h answers hn, stores_eq, if_pos hn]
  · induction answers using List.reverseRecOn with
    | nil => rfl
    | append_singleton answers a ih =>
      rw [reads_concat, read_axis?]
      cases a.axis? with
      | none => exact ih
      | some w => exact (setAxis_fd _ _ _).trans ih

end Reads

end Ulisse
