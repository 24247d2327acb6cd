import Mathlib.Data.List.Basic
import Mathlib.Data.List.Induction
import Mathlib.Data.List.Infix
import Mathlib.Algebra.Group.Nat.Even

/-!
# Lib.Framing — hunting for frames in a stream of symbols

A frame is `sync₀ sync₁ tag len body stop`: the tag names what the frame is for (`look`), and the
length symbol says how many body symbols follow (`accept`), if it is one that the tag allows.
`step` is the receiver that reads such a stream one symbol at a time; the flag `g` says whether the
environment grants it room for the body.

* `step_cases`: one symbol completes a frame, extends the pending one, or sends the receiver back
  to hunting.
* `Trace`: what the receiver can do on a stream, whatever is granted.
* `Trace.since_len`, `Trace.body_run`: what a body has read, and when it ends.
* `Trace.sound`: every completed frame stands in the stream, and no two of them overlap.
* `Ahead.step`: on the symbols of a frame that fits, the receiver goes through to the end.
* `Trace.noise`: on a stream without a sync pair the receiver completes nothing; it is left hunting
  if the stream ends in an even number of `sync₀`, and one symbol into a sync pair otherwise.
-/

namespace Framing

/-- The symbols that mark frames, and what tags and length symbols mean. -/
structure Scheme (α ω : Type) where
  sync₀ : α
  sync₁ : α
  stop : α
  sync_ne : sync₀ ≠ sync₁
  look : α → Option ω
  accept : ω → α → Option ℕ
  accept_pos : ∀ {o x n}, accept o x = some n → 0 < n

/-- What a frame carries. -/
structure Frame (α : Type) where
  tag : α
  len : α
  body : List α

/-- How far the receiver is: `len t o` has read the tag `t` of `o`, `body t o x need got` has read
`got` of the body announced by `x` and waits for `need` more, `stop` waits for the stop symbol. -/
inductive Phase (α ω : Type) where
  | hunt
  | sync
  | tag
  | len (t : α) (o : ω)
  | body (t : α) (o : ω) (x : α) (need : ℕ) (got : List α)
  | stop (t : α) (o : ω) (x : α) (got : List α)

/-- How a symbol is answered. -/
inductive Event (α ω : Type) where
  | lost
  | sync₀
  | sync₁
  | badTag (t : α)
  | tag
  | badLen
  | refused
  | len
  | body
  | bodyEnd
  | badStop
  | done (o : ω) (f : Frame α)

variable {α ω : Type}

/-- The completed frame, if the symbol completed one. -/
def Event.done? : Event α ω → Option (ω × Frame α)
  | .done o f => some (o, f)
  | _ => none

theorem done_of_done? {e : Event α ω} {d : ω × Frame α} (h : e.done? = some d) :
    e = .done d.1 d.2 := by
  cases e <;> simp only [Event.done?, Option.some.injEq, reduceCtorEq] at h
  rw [← h]

/-- The frames completed by a run of answers. -/
def dones (es : List (Event α ω)) : List (ω × Frame α) := es.filterMap Event.done?

@[simp] theorem dones_append (es fs : List (Event α ω)) : dones (es ++ fs) = dones es ++ dones fs :=
  List.filterMap_append

theorem dones_singleton (e : Event α ω) : dones [e] = e.done?.toList := by
  cases e <;> rfl

namespace Scheme

variable (F : Scheme α ω)

/-- The symbols of a frame. -/
def wire (f : Frame α) : List α := F.sync₀ :: F.sync₁ :: f.tag :: f.len :: (f.body ++ [F.stop])

/-- `f` is a frame for `o`. -/
structure Fits (o : ω) (f : Frame α) : Prop where
  look : F.look f.tag = some o
  accept : F.accept o f.len = some f.body.length

@[simp] theorem length_wire (f : Frame α) : (F.wire f).length = f.body.length + 5 := by
  simp [wire]

/-- The symbols of the frame under way. -/
def pending : Phase α ω → List α
  | .hunt => []
  | .sync => [F.sync₀]
  | .tag => [F.sync₀, F.sync₁]
  | .len t _ => [F.sync₀, F.sync₁, t]
  | .body t _ x _ got => F.sync₀ :: F.sync₁ :: t :: x :: got
  | .stop t _ x got => F.sync₀ :: F.sync₁ :: t :: x :: got

/-- The data of a phase agree with the scheme. -/
def Wf : Phase α ω → Prop
  | .len t o => F.look t = some o
  | .body t o x need got =>
    F.look t = some o ∧ F.accept o x = some (got.length + need) ∧ 0 < need
  | .stop t o x got => F.look t = some o ∧ F.accept o x = some got.length
  | _ => True

/-- The receiver in phase `p` has read the beginning of the frame `f` and `cs` is the rest. -/
structure Ahead (f : Frame α) (p : Phase α ω) (cs : List α) : Prop where
  wf : F.Wf p
  rest : F.pending p ++ cs = F.wire f

variable [DecidableEq α]

/-- The receiver, with the answer `g` to a request for room. -/
def step (g : Bool) : Phase α ω → α → Phase α ω × Event α ω
  | .hunt, c => if c = F.sync₀ then (.sync, .sync₀) else (.hunt, .lost)
  | .sync, c => if c = F.sync₁ then (.tag, .sync₁) else (.hunt, .lost)
  | .tag, c =>
    match F.look c with
    | none => (.hunt, .badTag c)
    | some o => (.len c o, .tag)
  | .len t o, c =>
    match F.accept o c with
    | none => (.hunt, .badLen)
    | some n => if g then (.body t o c n [], .len) else (.hunt, .refused)
  | .body t o x need got, c =>
    if need = 1 then (.stop t o x (got ++ [c]), .bodyEnd)
    else (.body t o x (need - 1) (got ++ [c]), .body)
  | .stop t o x got, c =>
    if c = F.stop then (.hunt, .done o ⟨t, x, got⟩) else (.hunt, .badStop)

/-! ### One symbol -/

/-- **What one symbol can do**: complete a frame, extend the pending symbols, or drop them. -/
theorem step_cases (g : Bool) (p : Phase α ω) (c : α) :
    (∃ t o x got, p = .stop t o x got ∧ c = F.stop ∧ F.step g p c = (.hunt, .done o ⟨t, x, got⟩)) ∨
    ((F.step g p c).2.done? = none ∧
      (F.pending (F.step g p c).1 = F.pending p ++ [c] ∨ (F.step g p c).1 = .hunt)) := by
  cases p with
  | hunt => by_cases h : c = F.sync₀ <;> simp [step, h, Event.done?, pending]
  | sync => by_cases h : c = F.sync₁ <;> simp [step, h, Event.done?, pending]
  | tag => cases h : F.look c <;> simp [step, h, Event.done?, pending]
  | len t o =>
    cases h : F.accept o c with
    | none => simp [step, h, Event.done?]
    | some n => cases g <;> simp [step, h, Event.done?, pending]
  | body t o x need got =>
    by_cases h : need = 1 <;> simp [step, h, Event.done?, pending]
  | stop t o x got => by_cases h : c = F.stop <;> simp [step, h, Event.done?]

theorem step_wf {g : Bool} {p : Phase α ω} {c : α} (h : F.Wf p) : F.Wf (F.step g p c).1 := by
  cases p with
  | hunt => by_cases hc : c = F.sync₀ <;> simp [step, hc, Wf]
  | sync => by_cases hc : c = F.sync₁ <;> simp [step, hc, Wf]
  | tag => cases hc : F.look c <;> simp [step, hc, Wf]
  | len t o =>
    cases hc : F.accept o c with
    | none => simp [step, hc, Wf]
    | some n => cases g <;> simp [step, hc, Wf, F.accept_pos hc, show F.look t = some o from h]
  | body t o x need got =>
    obtain ⟨h1, h2, h3⟩ := h
    by_cases hc : need = 1
    · subst hc; simp [step, Wf, h1, h2]
    · simp only [step, if_neg hc, Wf, List.length_append, List.length_singleton]
      exact ⟨h1, by rw [h2]; congr 1; omega, by omega⟩
  | stop t o x got => by_cases hc : c = F.stop <;> simp [step, hc, Wf]

/-! ### Along a frame -/

variable {F}

omit [DecidableEq α] in
theorem Ahead.start (f : Frame α) : F.Ahead f .hunt (F.wire f) := ⟨trivial, rfl⟩

/-- **Along a frame** that fits, with room granted, every symbol goes on and the last completes. -/
theorem Ahead.step {o : ω} {f : Frame α} {p : Phase α ω} {c : α} {cs : List α}
    (hf : F.Fits o f) (h : F.Ahead f p (c :: cs)) :
    (cs = [] ∧ F.step true p c = (.hunt, .done o f)) ∨
    ((F.step true p c).2.done? = none ∧ F.Ahead f (F.step true p c).1 cs) := by
  have hr := h.rest
  have hwf := F.step_wf (g := true) (c := c) h.wf
  cases p with
  | hunt =>
    simp only [pending, wire, List.nil_append, List.cons.injEq] at hr
    obtain ⟨rfl, hr⟩ := hr
    refine Or.inr ⟨by simp [Scheme.step, Event.done?], hwf, ?_⟩
    simp [Scheme.step, pending, wire, hr]
  | sync =>
    simp only [pending, wire, List.cons_append, List.nil_append, List.cons.injEq, true_and] at hr
    obtain ⟨rfl, hr⟩ := hr
    refine Or.inr ⟨by simp [Scheme.step, Event.done?], hwf, ?_⟩
    simp [Scheme.step, pending, wire, hr]
  | tag =>
    simp only [pending, wire, List.cons_append, List.nil_append, List.cons.injEq, true_and] at hr
    obtain ⟨rfl, hr⟩ := hr
    refine Or.inr ⟨by simp [Scheme.step, hf.look, Event.done?], hwf, ?_⟩
    simp [Scheme.step, hf.look, pending, wire, hr]
  | len t o' =>
    simp only [pending, wire, List.cons_append, List.nil_append, List.cons.injEq, true_and] at hr
    obtain ⟨rfl, rfl, hr⟩ := hr
    have ho : o' = o := Option.some_inj.mp (h.wf.symm.trans hf.look)
    subst ho
    refine Or.inr ⟨by simp [Scheme.step, hf.accept, Event.done?], hwf, ?_⟩
    simp [Scheme.step, hf.accept, pending, wire, hr]
  | body t o' x need got =>
    obtain ⟨h1, h2, h3⟩ := h.wf
    simp only [pending, wire, List.cons_append, List.cons.injEq, true_and] at hr
    by_cases hn : need = 1
    · refine Or.inr ⟨by simp [Scheme.step, hn, Event.done?], hwf, ?_⟩
      simp [Scheme.step, hn, pending, wire, hr]
    · refine Or.inr ⟨by simp [Scheme.step, hn, Event.done?], hwf, ?_⟩
      simp [Scheme.step, hn, pending, wire, hr]
  | stop t o' x got =>
    obtain ⟨h1, h2⟩ := h.wf
    simp only [pending, wire, List.cons_append, List.cons.injEq, true_and] at hr
    obtain ⟨rfl, rfl, hr⟩ := hr
    have ho : o' = o := Option.some_inj.mp (h1.symm.trans hf.look)
    subst ho
    have hlen : got.length = f.body.length := Option.some_inj.mp (h2.symm.trans hf.accept)
    obtain ⟨hgot, hc⟩ := List.append_inj hr hlen
    simp only [List.cons.injEq] at hc
    exact Or.inl ⟨hc.2, by simp [Scheme.step, hc.1, hgot]⟩

omit [DecidableEq α] in
/-- A frame that fits is not over before its stop symbol. -/
theorem Ahead.ne_nil {o : ω} {f : Frame α} {p : Phase α ω} {cs : List α} (hf : F.Fits o f)
    (h : F.Ahead f p cs) : cs ≠ [] := by
  rintro rfl
  have hr := h.rest
  have hlen := congrArg List.length hr
  rw [List.append_nil, length_wire] at hlen
  cases p with
  | body t o' x need got =>
    obtain ⟨h1, h2, h3⟩ := h.wf
    simp only [pending, wire, List.append_nil, List.cons.injEq, true_and] at hr
    obtain ⟨rfl, rfl, -⟩ := hr
    obtain rfl : o' = o := Option.some_inj.mp (h1.symm.trans hf.look)
    have hn := Option.some_inj.mp (h2.symm.trans hf.accept)
    simp only [pending, List.length_cons] at hlen
    omega
  | stop t o' x got =>
    obtain ⟨h1, h2⟩ := h.wf
    simp only [pending, wire, List.append_nil, List.cons.injEq, true_and] at hr
    obtain ⟨rfl, rfl, -⟩ := hr
    obtain rfl : o' = o := Option.some_inj.mp (h1.symm.trans hf.look)
    have hn := Option.some_inj.mp (h2.symm.trans hf.accept)
    simp only [pending, List.length_cons] at hlen
    omega
  | _ =>
    simp only [pending, List.length_nil, List.length_cons] at hlen
    omega

end Scheme

/-! ## Traces -/

section Trace

variable [DecidableEq α] {F : Scheme α ω}

/-- What the receiver can do from phase `p`, whatever room it is granted: the symbols read, the
answers given and the phase reached. -/
inductive Trace (F : Scheme α ω) (p : Phase α ω) :
    List α → List (Event α ω) → Phase α ω → Prop where
  | nil : Trace F p [] [] p
  | snoc {xs es q} (h : Trace F p xs es q) (g : Bool) (c : α) :
    Trace F p (xs ++ [c]) (es ++ [(F.step g q c).2]) (F.step g q c).1

theorem Trace.wf {p q : Phase α ω} {xs : List α} {es : List (Event α ω)} (h : Trace F p xs es q)
    (hp : F.Wf p) : F.Wf q := by
  induction h with
  | nil => exact hp
  | snoc _ g c ih => exact F.step_wf ih

theorem Trace.length {p q : Phase α ω} {xs : List α} {es : List (Event α ω)}
    (h : Trace F p xs es q) : es.length = xs.length := by
  induction h with
  | nil => rfl
  | snoc _ g c ih => simp [ih]

/-- The pending symbols are the last ones read, and the receiver was hunting before them. -/
theorem Trace.pending {q : Phase α ω} {xs : List α} {es : List (Event α ω)}
    (h : Trace F .hunt xs es q) :
    ∃ pre es', Trace F .hunt pre es' .hunt ∧ xs = pre ++ F.pending q := by
  induction h with
  | nil => exact ⟨[], [], .nil, rfl⟩
  | @snoc xs es q htr g c ih =>
    obtain ⟨pre, es', h1, h2⟩ := ih
    have hnext := htr.snoc g c
    rcases F.step_cases g q c with ⟨t, o, x, got, -, -, he⟩ | ⟨-, he | he⟩
    · rw [he] at hnext ⊢
      exact ⟨_, _, hnext, by simp [Scheme.pending]⟩
    · exact ⟨pre, es', h1, by rw [he, h2, List.append_assoc]⟩
    · rw [he] at hnext ⊢
      exact ⟨_, _, hnext, by simp [Scheme.pending]⟩

/-! ### Inside a body -/

/-- **The way through a body**: it is entered at the length symbol, takes symbols in, and is closed
by the last of them; nothing else leads into it or behind it. -/
theorem Scheme.step_inside (F : Scheme α ω) (g : Bool) (p : Phase α ω) (c : α) :
    (∃ t o n, p = .len t o ∧ F.accept o c = some n ∧
      F.step g p c = (.body t o c n [], .len)) ∨
    (∃ t o x n got, p = .body t o x n got ∧
      F.step g p c = (.body t o x (n - 1) (got ++ [c]), .body)) ∨
    (∃ t o x got, p = .body t o x 1 got ∧
      F.step g p c = (.stop t o x (got ++ [c]), .bodyEnd)) ∨
    ((F.step g p c).2 ≠ .len ∧ (∀ t o x n got, (F.step g p c).1 ≠ .body t o x n got) ∧
      ∀ t o x got, (F.step g p c).1 ≠ .stop t o x got) := by
  cases p with
  | hunt =>
    refine Or.inr (Or.inr (Or.inr ?_))
    by_cases hc : c = F.sync₀ <;> simp [Scheme.step, hc]
  | sync =>
    refine Or.inr (Or.inr (Or.inr ?_))
    by_cases hc : c = F.sync₁ <;> simp [Scheme.step, hc]
  | tag =>
    refine Or.inr (Or.inr (Or.inr ?_))
    cases hc : F.look c <;> simp [Scheme.step, hc]
  | len t o =>
    cases hc : F.accept o c with
    | none =>
      refine Or.inr (Or.inr (Or.inr ?_))
      simp [Scheme.step, hc]
    | some n =>
      cases g with
      | false =>
        refine Or.inr (Or.inr (Or.inr ?_))
        simp [Scheme.step, hc]
      | true => exact Or.inl ⟨t, o, n, rfl, hc, by simp [Scheme.step, hc]⟩
  | body t o x need got =>
    by_cases hc : need = 1
    · subst hc
      exact Or.inr (Or.inr (Or.inl ⟨t, o, x, got, rfl, rfl⟩))
    · exact Or.inr (Or.inl ⟨t, o, x, need, got, rfl, by simp [Scheme.step, hc]⟩)
  | stop t o x got =>
    refine Or.inr (Or.inr (Or.inr ?_))
    by_cases hc : c = F.stop <;> simp [Scheme.step, hc]

theorem Scheme.step_len {g : Bool} {p : Phase α ω} {c : α} (h : (F.step g p c).2 = .len) :
    ∃ t o n, p = .len t o ∧ F.accept o c = some n ∧ (F.step g p c).1 = .body t o c n [] := by
  rcases F.step_inside g p c with ⟨t, o, n, hp, hacc, hstep⟩ | ⟨_, _, _, _, _, -, hstep⟩ |
    ⟨_, _, _, _, -, hstep⟩ | ⟨hne, -, -⟩
  · exact ⟨t, o, n, hp, hacc, congrArg Prod.fst hstep⟩
  · rw [hstep] at h
    cases h
  · rw [hstep] at h
    cases h
  · exact absurd h hne

/-- A body is entered with nothing read, at its length symbol, or goes on by one symbol. -/
theorem Scheme.step_to_body {g : Bool} {p : Phase α ω} {c t x : α} {o : ω} {need : ℕ}
    {got : List α} (h : (F.step g p c).1 = .body t o x need got) :
    (got = [] ∧ (F.step g p c).2 = .len) ∨
    ∃ n got', p = .body t o x n got' ∧ got = got' ++ [c] ∧ (F.step g p c).2 = .body := by
  rcases F.step_inside g p c with ⟨_, _, _, -, -, hstep⟩ | ⟨t', o', x', n, got', rfl, hstep⟩ |
    ⟨_, _, _, _, -, hstep⟩ | ⟨-, hne, -⟩
  · rw [hstep] at h ⊢
    cases h
    exact Or.inl ⟨rfl, rfl⟩
  · rw [hstep] at h ⊢
    cases h
    exact Or.inr ⟨n, got', rfl, rfl, rfl⟩
  · rw [hstep] at h
    cases h
  · exact absurd h (hne _ _ _ _ _)

/-- **Since the length symbol**: what a body has read are the last symbols of the stream, and the
length symbol is the one before them. -/
theorem Trace.since_len {q : Phase α ω} {xs : List α} {es : List (Event α ω)}
    (h : Trace F .hunt xs es q) {t x : α} {o : ω} {need : ℕ} {got : List α}
    (hq : q = .body t o x need got) :
    ∃ pre es₀ es₁, xs = pre ++ got ∧ es = es₀ ++ [.len] ++ es₁ ∧ es₀.length + 1 = pre.length ∧
      ∀ e ∈ es₁, e = .body := by
  induction h generalizing need got with
  | nil => cases hq
  | @snoc xs es q htr g c ih =>
    rcases Scheme.step_to_body hq with ⟨rfl, he⟩ | ⟨n, got', rfl, rfl, he⟩
    · refine ⟨xs ++ [c], es, [], by simp, by rw [he, List.append_nil], ?_, by simp⟩
      rw [List.length_append, List.length_singleton, htr.length]
    · obtain ⟨pre, es₀, es₁, rfl, rfl, h3, h4⟩ := ih rfl
      refine ⟨pre, es₀, es₁ ++ [.body], by simp, by rw [he]; simp, h3, fun e hm => ?_⟩
      rcases List.mem_append.mp hm with hm | hm
      · exact h4 e hm
      · exact List.mem_singleton.mp hm

theorem Scheme.step_to_stop {g : Bool} {p : Phase α ω} {c t x : α} {o : ω} {got : List α}
    (h : (F.step g p c).1 = .stop t o x got) :
    ∃ got', p = .body t o x 1 got' ∧ got = got' ++ [c] ∧ (F.step g p c).2 = .bodyEnd := by
  rcases F.step_inside g p c with ⟨_, _, _, -, -, hstep⟩ | ⟨_, _, _, _, _, -, hstep⟩ |
    ⟨t', o', x', got', rfl, hstep⟩ | ⟨-, -, hne⟩
  · rw [hstep] at h
    cases h
  · rw [hstep] at h
    cases h
  · rw [hstep] at h ⊢
    cases h
    exact ⟨got', rfl, rfl, rfl⟩
  · exact absurd h (hne _ _ _ _)

/-- The same when the body is complete: it was closed by its last symbol. -/
theorem Trace.since_len_stop {xs : List α} {es : List (Event α ω)} {t x : α} {o : ω} {got : List α}
    (h : Trace F .hunt xs es (.stop t o x got)) :
    ∃ pre es₀ es₁, xs = pre ++ got ∧ es = es₀ ++ [.len] ++ es₁ ∧ es₀.length + 1 = pre.length ∧
      ∀ e ∈ es₁, e = .body ∨ e = .bodyEnd := by
  generalize hq : Phase.stop t o x got = q at h
  cases h with
  | nil => cases hq
  | @snoc xs es q htr g c =>
    obtain ⟨got', rfl, rfl, he⟩ := Scheme.step_to_stop hq.symm
    obtain ⟨pre, es₀, es₁, rfl, rfl, h3, h4⟩ := htr.since_len rfl
    refine ⟨pre, es₀, es₁ ++ [.bodyEnd], by simp, by rw [he]; simp, h3, fun e hm => ?_⟩
    rcases List.mem_append.mp hm with hm | hm
    · exact Or.inl (h4 e hm)
    · exact Or.inr (List.mem_singleton.mp hm)

/-- **Deaf until the end**: a body takes in exactly the symbols it needs and the stop symbol,
whatever they are. -/
theorem Trace.body_run {t x : α} {o : ω} {need : ℕ} {got xs : List α} {es : List (Event α ω)}
    {q : Phase α ω} (h : Trace F (.body t o x need got) xs es q) (hpos : 0 < need) :
    (xs.length < need → q = .body t o x (need - xs.length) (got ++ xs)) ∧
    (xs.length = need → q = .stop t o x (got ++ xs)) ∧
    (xs.length = need + 1 → q = .hunt) := by
  induction h with
  | nil =>
    simp only [List.length_nil, List.append_nil, Nat.sub_zero]
    exact ⟨fun _ => trivial, fun h0 => absurd h0 (by omega), fun h0 => absurd h0 (by omega)⟩
  | @snoc xs es q htr g c ih =>
    obtain ⟨ih1, ih2, -⟩ := ih
    rw [List.length_append, List.length_singleton, ← List.append_assoc]
    refine ⟨fun hlt => ?_, fun heq => ?_, fun heq => ?_⟩
    · rw [ih1 (by omega)]
      simp only [Scheme.step, if_neg (show ¬ need - xs.length = 1 by omega), Nat.sub_sub]
    · rw [ih1 (by omega)]
      simp only [Scheme.step, if_pos (show need - xs.length = 1 by omega)]
    · rw [ih2 (by omega)]
      by_cases hc : c = F.stop <;> simp [Scheme.step, hc]

/-! ### Completed frames stand in the stream -/

/-- A frame for `op` at position `start` of a stream. -/
structure Segment (α ω : Type) where
  start : ℕ
  op : ω
  frame : Frame α

/-- The position behind the segment. -/
def Scheme.behind (F : Scheme α ω) (s : Segment α ω) : ℕ := s.start + (F.wire s.frame).length

/-- The segment stands in the stream `xs` and fits its `op`. -/
structure Scheme.Occurs (F : Scheme α ω) (xs : List α) (s : Segment α ω) : Prop where
  fits : F.Fits s.op s.frame
  here : F.wire s.frame <+: xs.drop s.start

omit [DecidableEq α] in
theorem Scheme.Occurs.append {xs : List α} {s : Segment α ω} (h : F.Occurs xs s) (ys : List α) :
    F.Occurs (xs ++ ys) s := by
  refine ⟨h.fits, ?_⟩
  rw [List.drop_append]
  exact h.here.trans (List.prefix_append _ _)

/-- The segments account for the answers `es` to the stream `xs`. -/
structure Scheme.Accounts (F : Scheme α ω) (xs : List α) (es : List (Event α ω))
    (segs : List (Segment α ω)) : Prop where
  occurs : ∀ s ∈ segs, F.Occurs xs s
  apart : segs.Pairwise fun a b => F.behind a ≤ b.start
  dones : dones es = segs.map fun s => (s.op, s.frame)
  ends : ∀ i o f, es[i]? = some (.done o f) →
    ∃ s ∈ segs, s.op = o ∧ s.frame = f ∧ F.behind s = i + 1

theorem getElem?_snoc {γ : Type} {xs : List γ} {x y : γ} {i : ℕ}
    (h : (xs ++ [x])[i]? = some y) : xs[i]? = some y ∨ (i = xs.length ∧ x = y) := by
  rcases Nat.lt_or_ge i xs.length with hlt | hge
  · rw [List.getElem?_append_left hlt] at h
    exact Or.inl h
  · rw [List.getElem?_append_right hge] at h
    obtain ⟨hi, hx⟩ := List.getElem?_eq_some_iff.mp h
    rw [List.length_singleton] at hi
    rw [List.getElem_singleton] at hx
    exact Or.inr ⟨by omega, hx⟩

section Accounts

variable {xs : List α} {es : List (Event α ω)} {segs : List (Segment α ω)} {c : α}

omit [DecidableEq α] in
/-- A symbol that completes no frame needs no segment. -/
theorem Scheme.Accounts.skip (h : F.Accounts xs es segs) {e : Event α ω} (he : e.done? = none) :
    F.Accounts (xs ++ [c]) (es ++ [e]) segs := by
  refine ⟨fun s hs => (h.occurs s hs).append _, h.apart, ?_, ?_⟩
  · rw [dones_append, dones_singleton, he, h.dones]
    exact List.append_nil _
  · intro i o f hi
    rcases getElem?_snoc hi with hi | ⟨-, rfl⟩
    · exact h.ends i o f hi
    · cases he

omit [DecidableEq α] in
/-- The segment of a frame that the symbol completes goes behind the others. -/
theorem Scheme.Accounts.snoc (h : F.Accounts xs es segs) {s : Segment α ω}
    (hocc : F.Occurs (xs ++ [c]) s) (hend : F.behind s = es.length + 1)
    (hap : ∀ a ∈ segs, F.behind a ≤ s.start) :
    F.Accounts (xs ++ [c]) (es ++ [.done s.op s.frame]) (segs ++ [s]) := by
  refine ⟨?_, ?_, ?_, ?_⟩
  · intro s' hs
    rcases List.mem_append.mp hs with hs | hs
    · exact (h.occurs s' hs).append _
    · rw [List.mem_singleton.mp hs]
      exact hocc
  · refine List.pairwise_append.mpr ⟨h.apart, List.pairwise_singleton _ _, ?_⟩
    intro a has b hbs
    rw [List.mem_singleton.mp hbs]
    exact hap a has
  · rw [dones_append, h.dones, List.map_append]
    rfl
  · intro i o f hi
    rcases getElem?_snoc hi with hi | ⟨rfl, hev⟩
    · obtain ⟨s', hs, h1⟩ := h.ends i o f hi
      exact ⟨s', List.mem_append_left _ hs, h1⟩
    · simp only [Event.done.injEq] at hev
      exact ⟨s, List.mem_append_right _ (List.mem_singleton_self _), hev.1, hev.2, hend⟩

end Accounts

/-- **Soundness**: the completed frames are disjoint segments of the stream, in order. -/
theorem Trace.sound {q : Phase α ω} {xs : List α} {es : List (Event α ω)}
    (h : Trace F .hunt xs es q) :
    ∃ segs, F.Accounts xs es segs ∧ ∀ s ∈ segs, F.behind s + (F.pending q).length ≤ xs.length := by
  induction h with
  | nil => exact ⟨[], ⟨by simp, by simp, rfl, by simp⟩, by simp⟩
  | @snoc xs es q htr g c ih =>
    obtain ⟨segs, ha, hb⟩ := ih
    rcases F.step_cases g q c with ⟨t, o, x, got, rfl, rfl, he⟩ | ⟨hdone, hp⟩
    · -- the frame just completed is the pending one with its stop symbol
      obtain ⟨pre, -, -, hxs⟩ := htr.pending
      obtain ⟨hlook, hacc⟩ := htr.wf trivial
      have hwire : F.wire ⟨t, x, got⟩ = F.pending (.stop t o x got) ++ [F.stop] := rfl
      have hlen : xs.length = pre.length + (F.pending (.stop t o x got)).length := by
        rw [hxs, List.length_append]
      have hbehind : F.behind ⟨pre.length, o, ⟨t, x, got⟩⟩ = xs.length + 1 := by
        rw [Scheme.behind, hwire, List.length_append, hlen]
        rfl
      have hocc : F.Occurs (xs ++ [F.stop]) ⟨pre.length, o, ⟨t, x, got⟩⟩ := by
        refine ⟨⟨hlook, hacc⟩, ?_⟩
        rw [hwire, hxs, List.append_assoc, List.drop_left]
      have hap : ∀ a ∈ segs, F.behind a ≤ pre.length := by
        intro a has
        have := hb a has
        omega
      rw [he]
      refine ⟨_, ha.snoc hocc (by rw [hbehind, htr.length]) hap, ?_⟩
      intro s hs
      rw [List.length_append, List.length_singleton]
      rcases List.mem_append.mp hs with hs | hs
      · have := hb s hs
        simp only [Scheme.pending, List.length_nil]
        omega
      · rw [List.mem_singleton.mp hs, hbehind]
        rfl
    · have hpend : (F.pending (F.step g q c).1).length ≤ (F.pending q).length + 1 := by
        rcases hp with hp | hp <;> rw [hp] <;> simp [Scheme.pending]
      refine ⟨segs, ha.skip hdone, ?_⟩
      intro s hs
      have := hb s hs
      rw [List.length_append, List.length_singleton]
      omega

/-! ### Streams without a sync pair -/

/-- How many symbols `a` stand at the end of `xs`. -/
def trail (a : α) (xs : List α) : ℕ := (xs.reverse.takeWhile (· = a)).length

theorem trail_concat (a c : α) (xs : List α) :
    trail a (xs ++ [c]) = if c = a then trail a xs + 1 else 0 := by
  by_cases h : c = a <;> simp [trail, h]

theorem trail_pos {a : α} {xs : List α} (h : trail a xs ≠ 0) : ∃ ys, xs = ys ++ [a] := by
  rcases List.eq_nil_or_concat xs with rfl | ⟨ys, c, rfl⟩
  · simp [trail] at h
  · rw [List.concat_eq_append] at h ⊢
    rw [trail_concat] at h
    by_cases hc : c = a
    · exact ⟨ys, by rw [hc]⟩
    · simp [hc] at h

/-- **Noise**: without a sync pair nothing completes, and every second `sync₀` of a run is lost. -/
theorem Trace.noise {q : Phase α ω} {xs : List α} {es : List (Event α ω)}
    (h : Trace F .hunt xs es q) (hn : ¬ [F.sync₀, F.sync₁] <:+: xs) :
    dones es = [] ∧ q = if Even (trail F.sync₀ xs) then .hunt else .sync := by
  induction h with
  | nil => exact ⟨rfl, by simp [trail]⟩
  | @snoc xs es q htr g c ih =>
    obtain ⟨hd, hq⟩ := ih fun hi => hn (hi.trans (List.infix_append' [] xs [c]))
    rw [dones_append, hd, dones_singleton, trail_concat]
    by_cases hev : Even (trail F.sync₀ xs)
    · rw [if_pos hev] at hq
      subst hq
      by_cases hc : c = F.sync₀
      · simp [Scheme.step, hc, Event.done?, Nat.even_add_one, hev]
      · simp [Scheme.step, hc, Event.done?]
    · rw [if_neg hev] at hq
      subst hq
      -- the run of `sync₀` is not empty, so `c` is not `sync₁`
      have hne : trail F.sync₀ xs ≠ 0 := by
        intro h0
        exact hev (by rw [h0]; exact ⟨0, rfl⟩)
      obtain ⟨ys, rfl⟩ := trail_pos hne
      have hc1 : c ≠ F.sync₁ := by
        rintro rfl
        exact hn ⟨ys, [], by simp⟩
      by_cases hc : c = F.sync₀
      · simp [Scheme.step, hc, F.sync_ne, Event.done?, Nat.even_add_one, hev]
      · simp [Scheme.step, hc, hc1, Event.done?]

end Trace

end Framing
