import Ulisse.Host.Joystick
import Ulisse.Lib.Run

/-!
# Host.Main — how the host ends

`main` of `host.c` from the creation of the joystick's thread on: the prompt is read until its end,
`exit_flag_thrd` is set, the thread is joined, the client is destroyed.  The thread looks at the flag
between its reads, and a read waits for the joystick.  So behind the end of the prompt at most one
more event is read, and the program waits for one exactly if the thread was waiting then
(`host_ends`).
-/

namespace Ulisse

open Run Writes

/-- Where `main` is. -/
inductive MainPc where
  | prompt
  | leaving
  | joining
  | closing
  | done
  deriving DecidableEq, Repr

/-- Where `js_handlerFn` is. -/
inductive JsPc where
  | check
  | reading
  | returned
  deriving DecidableEq, Repr

/-- The two threads, `exit_flag_thrd` and the handler. -/
structure HostState where
  main : MainPc
  thread : JsPc
  exitFlag : Bool
  jsh : JsHandler

/-- The thread was created, and nothing was done yet. -/
def HostState.start (jsh : JsHandler) : HostState := ⟨.prompt, .check, false, jsh⟩

/-- A step of one of the threads; `line` and `noLine` are the answers of `readline`. -/
inductive HostEvent where
  | line
  | noLine
  | setFlag
  | join
  | destroy
  | check
  | answer (a : JsAnswer)

def hostStep (s : HostState) : HostEvent → Option (HostState × Unit)
  | .line => if s.main = .prompt then some (s, ()) else none
  | .noLine => if s.main = .prompt then some ({ s with main := .leaving }, ()) else none
  | .setFlag =>
    if s.main = .leaving then some ({ s with main := .joining, exitFlag := true }, ()) else none
  | .join =>
    if s.main = .joining ∧ s.thread = .returned then some ({ s with main := .closing }, ())
    else none
  | .destroy => if s.main = .closing then some ({ s with main := .done }, ()) else none
  | .check =>
    if s.thread = .check then
      some ({ s with thread := if s.exitFlag then .returned else .reading }, ())
    else none
  | .answer a =>
    if s.thread = .reading then some ({ s with thread := .check, jsh := (s.jsh.read a).2 }, ())
    else none

/-- The answer that an event is. -/
def HostEvent.answer? : HostEvent → Option JsAnswer
  | .answer a => some a
  | _ => none

/-- The answers of the joystick in a run. -/
def jsAnswers (es : List HostEvent) : List JsAnswer := es.filterMap HostEvent.answer?

/-- The reads that the thread is in. -/
def HostState.pending (s : HostState) : ℕ := if s.thread = .reading then 1 else 0

/-- Behind the flag: of the reads that were pending, `n` were made since, and the thread has returned
once `main` has joined it. -/
structure Ending (pending n : ℕ) (s : HostState) : Prop where
  flag : s.exitFlag = true
  reads : n + s.pending = pending
  main : s.main = .joining ∨ (s.main = .closing ∨ s.main = .done) ∧ s.thread = .returned

section Ends

variable {s s' : HostState} {es es' : List HostEvent} {os os' : List Unit} {e : HostEvent}
  {pending n : ℕ}

theorem jsAnswers_concat (es : List HostEvent) (e : HostEvent) :
    jsAnswers (es ++ [e]) = jsAnswers es ++ jsAnswers [e] := List.filterMap_append

theorem hostStep_reads {o : Unit} (h : hostStep s e = some (s', o)) :
    s'.jsh = s.jsh.reads (jsAnswers [e]) := by
  cases e <;> rw [hostStep] at h <;> split_ifs at h <;>
    exact (congrArg HostState.jsh (Prod.mk.inj (Option.some_inj.mp h)).1).symm

/-- The handler has seen the answers. -/
theorem hostRun_reads (h : run hostStep s es = some (s', os)) :
    s'.jsh = s.jsh.reads (jsAnswers es) := by
  refine run_history (J := fun es _ t => t.jsh = s.jsh.reads (jsAnswers es)) rfl ?_ h
  intro es os t e u o hJ hs
  rw [hostStep_reads hs, hJ, jsAnswers_concat, JsHandler.reads, JsHandler.reads, JsHandler.reads,
    List.foldl_append]

/-- **A step behind the flag.** -/
theorem Ending.step {o : Unit} (h : Ending pending n s) (hs : hostStep s e = some (s', o)) :
    Ending pending (n + (jsAnswers [e]).length) s' := by
  obtain ⟨hflag, hreads, hmain⟩ := h
  cases e with
  | line =>
    rw [hostStep] at hs
    split_ifs at hs with hprompt
    rw [hprompt] at hmain
    rcases hmain with h | ⟨h | h, -⟩ <;> cases h
  | noLine =>
    rw [hostStep] at hs
    split_ifs at hs with hprompt
    rw [hprompt] at hmain
    rcases hmain with h | ⟨h | h, -⟩ <;> cases h
  | setFlag =>
    rw [hostStep] at hs
    split_ifs at hs with hleaving
    rw [hleaving] at hmain
    rcases hmain with h | ⟨h | h, -⟩ <;> cases h
  | join =>
    rw [hostStep] at hs
    split_ifs at hs with hjoin
    obtain ⟨rfl, -⟩ := Prod.mk.inj (Option.some_inj.mp hs)
    exact ⟨hflag, hreads, Or.inr ⟨Or.inl rfl, hjoin.2⟩⟩
  | destroy =>
    rw [hostStep] at hs
    split_ifs at hs with hclosing
    obtain ⟨rfl, -⟩ := Prod.mk.inj (Option.some_inj.mp hs)
    refine ⟨hflag, hreads, Or.inr ⟨Or.inr rfl, ?_⟩⟩
    rcases hmain with h | ⟨-, h⟩
    · rw [hclosing] at h
      cases h
    · exact h
  | check =>
    -- the flag is set, so the thread returns
    have hreturn : (if s.exitFlag then JsPc.returned else JsPc.reading) = .returned := if_pos hflag
    rw [hostStep, hreturn] at hs
    split_ifs at hs with hcheck
    obtain ⟨rfl, -⟩ := Prod.mk.inj (Option.some_inj.mp hs)
    rw [HostState.pending, hcheck] at hreads
    exact ⟨hflag, hreads, hmain.imp_right fun h => ⟨h.1, rfl⟩⟩
  | answer a =>
    rw [hostStep] at hs
    split_ifs at hs with hreading
    obtain ⟨rfl, -⟩ := Prod.mk.inj (Option.some_inj.mp hs)
    rw [HostState.pending, if_pos hreading] at hreads
    refine ⟨hflag, hreads, ?_⟩
    rcases hmain with h | ⟨-, h⟩
    · exact Or.inl h
    · rw [hreading] at h
      cases h

/-- **A run behind the flag.** -/
theorem Ending.run (h : Ending pending n s) (hrun : run hostStep s es = some (s', os)) :
    Ending pending (n + (jsAnswers es).length) s' := by
  refine run_history (J := fun es _ t => Ending pending (n + (jsAnswers es).length) t) h ?_ hrun
  intro es os t e u o hJ hs
  rw [jsAnswers_concat, List.length_append, ← Nat.add_assoc]
  exact hJ.step hs

/-- A program behind its flag can end, with an event if one is awaited. -/
theorem Ending.ends (h : Ending pending n s) (a : JsAnswer) : ∃ es' os s',
    Run.run hostStep s es' = some (s', os) ∧ s'.main = .done ∧
      jsAnswers es' = if s.thread = .reading then [a] else [] := by
  obtain ⟨main, thread, exitFlag, jsh⟩ := s
  obtain ⟨hflag, -, hmain⟩ := h
  obtain rfl : exitFlag = true := hflag
  rcases hmain with hjoining | ⟨hclosing | hdone, hreturned⟩
  · obtain rfl : main = .joining := hjoining
    cases thread with
    | check => exact ⟨[.check, .join, .destroy], _, _, rfl, rfl, rfl⟩
    | reading => exact ⟨[.answer a, .check, .join, .destroy], _, _, rfl, rfl, rfl⟩
    | returned => exact ⟨[.join, .destroy], _, _, rfl, rfl, rfl⟩
  · obtain rfl : main = .closing := hclosing
    obtain rfl : thread = .returned := hreturned
    exact ⟨[.destroy], _, _, rfl, rfl, rfl⟩
  · obtain rfl : main = .done := hdone
    obtain rfl : thread = .returned := hreturned
    exact ⟨[], _, _, rfl, rfl, rfl⟩

/-- **How the host ends**: behind the end of the prompt at most the read that the thread is in is
made; the client is destroyed only when the thread has returned, and exactly when that read was
made; from wherever the program has got to it can end, with one event if one is awaited and with none
otherwise; and the pads hold the last value of each axis. -/
theorem host_ends {jsh : JsHandler} {es₁ es₂ : List HostEvent} {s₁ s₂ : HostState}
    {os₁ os₂ : List Unit} (h₁ : run hostStep (.start jsh) es₁ = some (s₁, os₁))
    (h₂ : run hostStep s₁ (.setFlag :: es₂) = some (s₂, os₂)) :
    (jsAnswers es₂).length + s₂.pending = s₁.pending ∧
    (s₂.main = .closing ∨ s₂.main = .done →
      s₂.thread = .returned ∧ (jsAnswers es₂).length = s₁.pending) ∧
    (∀ a, ∃ es os s', run hostStep s₂ es = some (s', os) ∧ s'.main = .done ∧
      jsAnswers es = if s₂.thread = .reading then [a] else []) ∧
    ∀ number, KeptAxis number → s₂.jsh.axis number =
      (last (axisLog (jsAnswers es₁ ++ jsAnswers es₂)) number).getD (jsh.axis number) := by
  obtain ⟨s, o, os, hflag, hrest, -⟩ := run_cons_some.mp h₂
  have hset : Ending s₁.pending 0 s := by
    rw [hostStep] at hflag
    split_ifs at hflag
    obtain ⟨rfl, -⟩ := Prod.mk.inj (Option.some_inj.mp hflag)
    exact ⟨rfl, Nat.zero_add _, Or.inl rfl⟩
  have hend := hset.run hrest
  rw [Nat.zero_add] at hend
  refine ⟨hend.reads, fun hmain => ?_, hend.ends, fun number hn => ?_⟩
  · have hreturned : s₂.thread = .returned := by
      rcases hend.main with h | ⟨-, h⟩
      · rw [h] at hmain
        rcases hmain with h | h <;> cases h
      · exact h
    have hreads := hend.reads
    rw [HostState.pending, hreturned] at hreads
    exact ⟨hreturned, hreads⟩
  · have hjsh : s₂.jsh = jsh.reads (jsAnswers es₁ ++ jsAnswers es₂) := by
      rw [hostRun_reads h₂, hostRun_reads h₁]
      exact List.foldl_append.symm
    rw [hjsh]
    exact (axis_reads jsh _).1 number hn

/-- The thread is in a read when the prompt ends: the left pad's event is read, and nothing more. -/
theorem host_ends_reading : ∃ s₁ s₂ os₁ os₂,
    run hostStep (.start ⟨4, ⟨0, 0⟩, ⟨0, 0⟩⟩) [.line, .check, .noLine] = some (s₁, os₁) ∧
    run hostStep s₁ [.setFlag, .answer (.bytes [0, 0, 0, 0, 1, 0, 2, 3]), .check, .join, .destroy] =
      some (s₂, os₂) ∧ s₂.jsh.axis 3 = 1 := by
  have h₁ : run hostStep (.start ⟨4, ⟨0, 0⟩, ⟨0, 0⟩⟩) [.line, .check, .noLine] =
      some (⟨.leaving, .reading, false, ⟨4, ⟨0, 0⟩, ⟨0, 0⟩⟩⟩, [(), (), ()]) := rfl
  have h₂ : run hostStep ⟨.leaving, .reading, false, ⟨4, ⟨0, 0⟩, ⟨0, 0⟩⟩⟩
      [.setFlag, .answer (.bytes [0, 0, 0, 0, 1, 0, 2, 3]), .check, .join, .destroy] =
      some (⟨.done, .returned, true, ⟨4, ⟨0, 0⟩, ⟨1, 0⟩⟩⟩, [(), (), (), (), ()]) := rfl
  exact ⟨_, _, _, _, h₁, h₂, (host_ends h₁ h₂).2.2.2 3 (Or.inl rfl)⟩

end Ends

end Ulisse
