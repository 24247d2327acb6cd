import Ulisse.Lib.Locks

/-!
# Lib.Sections — critical sections in one go

A critical section goes from taking a first lock to giving back the last.  Under any schedule of
disciplined threads the world stands for (`Shadows`) a state that sections in one go lead to, taken
in an order of the schedule's: a section is done, for all others, when it gives back its first lock.
So the order alone decides about the threads outside of sections and the parts whose locks are free
(`serializable`), and if a section has a `meaning` as a function, the whole run is one of these
functions (`Serial.run`).
-/

namespace Locks

open Run

variable {L S σ ε T : Type} [LinearOrder L]

/-! ## Critical sections -/

/-- The thread in `p`, alone with the shared state `s`, takes locks and works until it is in `q` and
has made `u` of the state. -/
inductive Grows (prog : σ → Action L S σ ε) (p : σ) (s : S) : σ → S → Prop where
  | refl : Grows prog p s p s
  | lock {q : σ} {u : S} {l : L} {k : σ} (h : Grows prog p s q u) (hq : prog q = .lock l k) :
    Grows prog p s k u
  | work {q : σ} {u u' : S} {f : S → Except ε (S × σ)} {k : σ} (h : Grows prog p s q u)
      (hq : prog q = .work f) (hf : f u = .ok (u', k)) : Grows prog p s k u'

/-- Giving back what is held leads from `p` to `q`. -/
inductive Releases (prog : σ → Action L S σ ε) (held : σ → Finset L) : σ → σ → Prop where
  | free {p : σ} (h : held p = ∅) : Releases prog held p p
  | unlock {p k q : σ} {l : L} (hp : prog p = .unlock l k) (h : Releases prog held k q) :
    Releases prog held p q

/-- **A section in one go**: work without a lock, or everything from taking the first lock to giving
back the last. -/
inductive Atomic (prog : σ → Action L S σ ε) (held : σ → Finset L) : σ → S → σ → S → Prop where
  | work {p k : σ} {s s' : S} {f : S → Except ε (S × σ)} (hfree : held p = ∅)
      (hp : prog p = .work f) (hf : f s = .ok (s', k)) : Atomic prog held p s k s'
  | locked {p k q r : σ} {s s' : S} {l : L} (hfree : held p = ∅) (hp : prog p = .lock l k)
      (hgrow : Grows prog k s q s') (hrel : Releases prog held q r) : Atomic prog held p s r s'

/-- Sections in one go, by the threads of the list in their order. -/
inductive Serial [DecidableEq T] (prog : σ → Action L S σ ε) (held : σ → Finset L) (pc : T → σ)
    (s : S) : List T → (T → σ) → S → Prop where
  | nil : Serial prog held pc s [] pc s
  | snoc {ts : List T} {c : T → σ} {a b : S} {t : T} {q : σ} (h : Serial prog held pc s ts c a)
      (hsec : Atomic prog held (c t) a q b) :
    Serial prog held pc s (ts ++ [t]) (Function.update c t q) b

/-- A thread in `p` is in a section that it begins in `c`, where the state is `a`: it has come to `p`
alone, and has made what it holds of `s`. -/
def Growing (D : Parts L S) (prog : σ → Action L S σ ε) (held : σ → Finset L) (a s : S) (c p : σ) :
    Prop :=
  ∃ l k, held c = ∅ ∧ prog c = .lock l k ∧ Grows prog k a p (D.overlay (held p) s a)

/-- The world `w` and the state `c`, `a` between sections that it stands for: the threads of `G` are
in sections that `c` has yet to begin, all others will end theirs where `c` has them. -/
structure Shadows (D : Parts L S) (prog : σ → Action L S σ ε) (held : σ → Finset L)
    (w : World L S σ T) (G : Set T) (c : T → σ) (a : S) : Prop where
  good : D.Good a
  grow : ∀ t ∈ G, Growing D prog held a w.shared (c t) (w.pc t)
  shrink : ∀ t, t ∉ G → Releases prog held (w.pc t) (c t)
  same : ∀ l, (∀ t ∈ G, l ∉ held (w.pc t)) → D.part l w.shared = D.part l a

section Releases

omit [LinearOrder L]

variable {prog : σ → Action L S σ ε} {held : σ → Finset L}

theorem Releases.step {p q : σ} (h : Releases prog held p q) :
    (p = q ∧ held p = ∅) ∨ ∃ l k, prog p = .unlock l k ∧ Releases prog held k q := by
  cases h with
  | free h => exact Or.inl ⟨rfl, h⟩
  | unlock hp h => exact Or.inr ⟨_, _, hp, h⟩

end Releases

section Grows

variable {prog : σ → Action L S σ ε} {held : σ → Finset L} {D : Parts L S} {p q k : σ} {a b u : S}
  {l : L}

theorem Grows.good (hd : Disciplined D prog held) (ha : D.Good a) (h : Grows prog p a q u) :
    D.Good u := by
  induction h with
  | refl => exact ha
  | lock _ _ ih => exact ih
  | work _ hq hf ih => exact (hd.work_next hq ih hf).1

/-- What is held at the start is held in the end. -/
theorem Grows.subset (hd : Disciplined D prog held) (ha : D.Good a) (h : Grows prog p a q u) :
    held p ⊆ held q := by
  induction h with
  | refl => exact subset_rfl
  | lock _ hq ih =>
    rw [(hd.lock_next hq).2]
    exact ih.trans (Finset.subset_insert _ _)
  | work hg hq hf ih =>
    rw [(hd.work_next hq (hg.good hd ha) hf).2]
    exact ih

/-- What is not held in the end has not been touched. -/
theorem Grows.frame (hd : Disciplined D prog held) (ha : D.Good a) (h : Grows prog p a q u)
    (hl : l ∉ held q) : D.part l u = D.part l a := by
  induction h with
  | refl => rfl
  | lock _ hq ih =>
    rw [(hd.lock_next hq).2, Finset.mem_insert, not_or] at hl
    exact ih hl.2
  | work hg hq hf ih =>
    have hgood := hg.good hd ha
    rw [(hd.work_next hq hgood hf).2] at hl
    rw [work_frame hd hq hgood hf hl, ih hl]

/-- **Transfer**: a section begins in the same way on a state with the same parts. -/
theorem Grows.transfer (hd : Disciplined D prog held) (ha : D.Good a) (hb : D.Good b)
    (h : Grows prog p a q u) (hsame : ∀ l ∈ held q, D.part l a = D.part l b) :
    Grows prog p b q (D.overlay (held q) u b) := by
  induction h with
  | refl =>
    rw [D.overlay_eq_right ha hb hsame]
    exact .refl
  | @lock q u l k hg hq ih =>
    have hk := (hd.lock_next hq).2
    have hu := hg.good hd ha
    have hover : D.overlay (held k) u b = D.overlay (held q) u b := by
      refine D.ext _ _ (D.good_overlay _ _ _ hu hb) (D.good_overlay _ _ _ hu hb) fun m => ?_
      rw [D.part_overlay, D.part_overlay, hk]
      by_cases hm : m ∈ held q
      · rw [if_pos (Finset.mem_insert_of_mem hm), if_pos hm]
      · rw [if_neg hm]
        split_ifs with hml
        · rw [hg.frame hd ha hm, hsame m (hk ▸ hml)]
        · rfl
    rw [hover]
    exact (ih fun m hm => hsame m (hk ▸ Finset.mem_insert_of_mem hm)).lock hq
  | @work q u u' f k hg hq hf ih =>
    have hu := hg.good hd ha
    have hk := (hd.work_next hq hu hf).2
    rw [hk] at hsame ⊢
    refine (ih hsame).work hq ?_
    rw [hd.work_local hq u b hu hb, hf]
    rfl

/-- Whoever gives a lock back can give all of them back. -/
theorem releases_of_unlock (hd : Disciplined D prog held) (hp : prog p = .unlock l k) :
    ∃ q, Releases prog held p q := by
  generalize hn : (held p).card = n
  induction n using Nat.strong_induction_on generalizing p l k with
  | _ n ih =>
    obtain ⟨hl, hk, hnext⟩ := hd.unlock_next hp
    by_cases hfree : held k = ∅
    · exact ⟨k, .unlock hp (.free hfree)⟩
    · obtain ⟨m, k', hm⟩ := hnext hfree
      have hlt : (held k).card < n := by
        rw [hk, ← hn]
        exact Finset.card_erase_lt_of_mem hl
      obtain ⟨q, hq⟩ := ih _ hlt hm rfl
      exact ⟨q, .unlock hp hq⟩

end Grows

section Shadows

variable [DecidableEq T] {prog : σ → Action L S σ ε} {held : σ → Finset L} {D : Parts L S}
  {w w' : World L S σ T} {G : Set T} {c : T → σ} {a : S} {t : T} {l : L} {k : σ}

omit [DecidableEq T] in
theorem Quiet.shadows (hq : Quiet held w) (hg : D.Good w.shared) :
    Shadows D prog held w ∅ w.pc w.shared :=
  ⟨hg, fun _ h => h.elim, fun t _ => .free (hq.held t), fun _ _ => rfl⟩

/-- **One thread moves**, to `k`, and shows at `q`: the others have to see the same parts. -/
theorem Shadows.move (h : Shadows D prog held w G c a) {own : L → Option T} {s b : S} {q : σ}
    {G' : Set T} (hG : ∀ u, u ≠ t → (u ∈ G' ↔ u ∈ G)) (hb : D.Good b)
    (hgrow : t ∈ G' → Growing D prog held b s q k) (hshrink : t ∉ G' → Releases prog held k q)
    (hothers : ∀ u, u ≠ t → Growing D prog held a w.shared (c u) (w.pc u) →
      Growing D prog held b s (c u) (w.pc u))
    (hsame : ∀ m, (∀ u, u ≠ t → u ∈ G → m ∉ held (w.pc u)) → (t ∈ G' → m ∉ held k) →
      D.part m s = D.part m b) :
    Shadows D prog held ⟨own, s, Function.update w.pc t k⟩ G' (Function.update c t q) b := by
  refine ⟨hb, fun u hu => ?_, fun u hu => ?_, fun m hm => ?_⟩
  · by_cases hut : u = t
    · subst hut
      simp only [Function.update_self]
      exact hgrow hu
    · simp only [Function.update_of_ne hut]
      exact hothers u hut (h.grow u ((hG u hut).mp hu))
  · by_cases hut : u = t
    · subst hut
      simp only [Function.update_self]
      exact hshrink hu
    · simp only [Function.update_of_ne hut]
      exact h.shrink u fun hc => hu ((hG u hut).mpr hc)
  · refine hsame m (fun u hut hu => ?_) fun ht => ?_
    · have hum := hm u ((hG u hut).mpr hu)
      simp only [Function.update_of_ne hut] at hum
      exact hum
    · have htm := hm t ht
      simp only [Function.update_self] at htm
      exact htm

/-- The same, where the thread shows as before. -/
theorem Shadows.stay (h : Shadows D prog held w G c a) {own : L → Option T} {s : S} {G' : Set T}
    (hG : ∀ u, u ≠ t → (u ∈ G' ↔ u ∈ G)) (hgrow : t ∈ G' → Growing D prog held a s (c t) k)
    (hshrink : t ∉ G' → Releases prog held k (c t))
    (hothers : ∀ u, u ≠ t → Growing D prog held a w.shared (c u) (w.pc u) →
      Growing D prog held a s (c u) (w.pc u))
    (hsame : ∀ m, (∀ u, u ≠ t → u ∈ G → m ∉ held (w.pc u)) → (t ∈ G' → m ∉ held k) →
      D.part m s = D.part m a) :
    Shadows D prog held ⟨own, s, Function.update w.pc t k⟩ G' c a := by
  have hmove : Shadows D prog held ⟨own, s, Function.update w.pc t k⟩ G'
      (Function.update c t (c t)) a := h.move hG h.good hgrow hshrink hothers hsame
  rwa [Function.update_eq_self] at hmove

/-- Parts that nobody growing holds, `t` included or not. -/
theorem Shadows.same_of (h : Shadows D prog held w G c a) {m : L}
    (hothers : ∀ u, u ≠ t → u ∈ G → m ∉ held (w.pc u)) (ht : t ∈ G → m ∉ held (w.pc t)) :
    D.part m w.shared = D.part m a := by
  refine h.same m fun u hu => ?_
  by_cases hut : u = t
  · subst hut
    exact ht hu
  · exact hothers u hut hu

/-- A thread that grows takes one more lock. -/
theorem Shadows.lock (hd : Disciplined D prog held) (hs : Sound D held w)
    (h : Shadows D prog held w G c a) {own : L → Option T} (hp : prog (w.pc t) = .lock l k)
    (hfree : w.owner l = none) (ht : t ∈ G) :
    Shadows D prog held ⟨own, w.shared, Function.update w.pc t k⟩ G c a := by
  have hk := (hd.lock_next hp).2
  have hsame : D.part l w.shared = D.part l a := h.same l fun u _ => hs.free hfree u
  -- the new part is the same in both states
  have hover : D.overlay (held k) w.shared a = D.overlay (held (w.pc t)) w.shared a := by
    refine D.ext _ _ (D.good_overlay _ _ _ hs.good h.good) (D.good_overlay _ _ _ hs.good h.good)
      fun m => ?_
    rw [D.part_overlay, D.part_overlay, hk]
    by_cases hm : m ∈ held (w.pc t)
    · rw [if_pos (Finset.mem_insert_of_mem hm), if_pos hm]
    · rw [if_neg hm]
      split_ifs with hml
      · rw [(Finset.mem_insert.mp hml).resolve_right hm, hsame]
      · rfl
  refine h.stay (fun _ _ => Iff.rfl) (fun _ => ?_) (fun hc => absurd ht hc) (fun _ _ hu => hu)
    fun m hm htm => ?_
  · obtain ⟨l', k', h1, h2, hgrow⟩ := h.grow t ht
    refine ⟨l', k', h1, h2, ?_⟩
    rw [hover]
    exact hgrow.lock hp
  · refine h.same_of hm fun _ hc => htm ht ?_
    rw [hk]
    exact Finset.mem_insert_of_mem hc

/-- A thread that grows works. -/
theorem Shadows.work (hd : Disciplined D prog held) (hs : Sound D held w)
    (h : Shadows D prog held w G c a) {own : L → Option T} {f : S → Except ε (S × σ)} {s : S}
    (hp : prog (w.pc t) = .work f) (hf : f w.shared = .ok (s, k)) (ht : t ∈ G) :
    Shadows D prog held ⟨own, s, Function.update w.pc t k⟩ G c a := by
  obtain ⟨hgood, hk⟩ := hd.work_next hp hs.good hf
  refine h.stay (fun _ _ => Iff.rfl) (fun _ => ?_) (fun hc => absurd ht hc) (fun u hut hu => ?_)
    fun m hm htm => ?_
  · obtain ⟨l', k', h1, h2, hgrow⟩ := h.grow t ht
    refine ⟨l', k', h1, h2, ?_⟩
    rw [hk]
    refine hgrow.work hp ?_
    rw [hd.work_local hp _ _ hs.good h.good, hf]
    rfl
  · -- what the others hold is not touched
    obtain ⟨l', k', h1, h2, hgrow⟩ := hu
    refine ⟨l', k', h1, h2, ?_⟩
    rw [D.overlay_congr hgood h.good hs.good h.good (fun m hm => work_frame hd hp hs.good hf
      fun hc => hut (hs.holder hm hc)) fun _ _ => rfl]
    exact hgrow
  · rw [hk] at htm
    rw [work_frame hd hp hs.good hf (htm ht)]
    exact h.same_of hm htm

/-- **Commit**: with the first lock that it gives back, a thread has done its section. -/
theorem Shadows.commit (hd : Disciplined D prog held) (hs : Sound D held w)
    (h : Shadows D prog held w G c a) {own : L → Option T} (hp : prog (w.pc t) = .unlock l k)
    (ht : t ∈ G) :
    ∃ q b, Atomic prog held (c t) a q b ∧
      Shadows D prog held ⟨own, w.shared, Function.update w.pc t k⟩ (G \ {t})
        (Function.update c t q) b := by
  obtain ⟨l', k', hfree, hlock, hgrow⟩ := h.grow t ht
  obtain ⟨q, hq⟩ := releases_of_unlock hd hp
  have hgood := D.good_overlay (held (w.pc t)) _ _ hs.good h.good
  have hnot : t ∉ G \ {t} := fun hc => hc.2 rfl
  refine ⟨q, D.overlay (held (w.pc t)) w.shared a, .locked hfree hlock hgrow hq,
    h.move (fun u hut => ⟨fun hu => hu.1, fun hu => ⟨hu, hut⟩⟩) hgood (fun hc => absurd hc hnot)
      (fun _ => ?_) (fun u hut hu => ?_) fun m hm _ => ?_⟩
  · rcases hq.step with ⟨-, hempty⟩ | ⟨l₂, k₂, hp₂, hk₂⟩
    · have hl := (hd.unlock_next hp).1
      rw [hempty] at hl
      exact absurd hl (Finset.notMem_empty l)
    · rw [hp] at hp₂
      obtain ⟨rfl, rfl⟩ := Action.unlock.inj hp₂
      exact hk₂
  · -- the sections of the others have begun on parts that have not changed
    obtain ⟨l', k', h1, h2, hgrow⟩ := hu
    refine ⟨l', k', h1, h2, ?_⟩
    have hmove := hgrow.transfer hd h.good hgood fun m hm =>
      (D.part_of_not_mem fun hc => hut (hs.holder hm hc)).symm
    rwa [D.overlay_overlay hs.good h.good hgood] at hmove
  · by_cases hmt : m ∈ held (w.pc t)
    · exact (D.part_of_mem hmt).symm
    · rw [D.part_of_not_mem hmt]
      exact h.same_of hm fun _ => hmt

/-- A thread begins a section. -/
theorem Shadows.enter (hd : Disciplined D prog held) (hs : Sound D held w)
    (h : Shadows D prog held w G c a) {own : L → Option T} (hp : prog (w.pc t) = .lock l k)
    (hfree : w.owner l = none) (ht : t ∉ G) (hc : w.pc t = c t) (hempty : held (w.pc t) = ∅) :
    Shadows D prog held ⟨own, w.shared, Function.update w.pc t k⟩ (insert t G) c a := by
  have hk : held k = {l} := by rw [(hd.lock_next hp).2, hempty, insert_empty_eq]
  have hsame : D.part l w.shared = D.part l a := h.same l fun u _ => hs.free hfree u
  refine h.stay (fun u hut => Set.mem_insert_iff.trans (or_iff_right hut)) (fun _ => ?_)
    (fun hn => absurd (Set.mem_insert t G) hn) (fun _ _ hu => hu) fun m hm _ => ?_
  · refine ⟨l, k, hc ▸ hempty, hc ▸ hp, ?_⟩
    rw [hk, D.overlay_eq_right hs.good h.good fun m hm => by
      rw [Finset.mem_singleton.mp hm, hsame]]
    exact .refl
  · exact h.same_of hm fun hn => absurd hn ht

/-- A thread works without a lock. -/
theorem Shadows.unguarded (hd : Disciplined D prog held) (hs : Sound D held w)
    (h : Shadows D prog held w G c a) {own : L → Option T} {f : S → Except ε (S × σ)} {s : S}
    (hp : prog (w.pc t) = .work f) (hf : f w.shared = .ok (s, k)) (ht : t ∉ G)
    (hc : w.pc t = c t) (hempty : held (w.pc t) = ∅) :
    Atomic prog held (c t) a k a ∧
      Shadows D prog held ⟨own, s, Function.update w.pc t k⟩ G (Function.update c t k) a := by
  obtain ⟨hgood, hk⟩ := hd.work_next hp hs.good hf
  -- nothing is read of the state, and nothing written
  have hfa := hd.work_local hp w.shared a hs.good h.good
  rw [hempty, D.overlay_empty hs.good h.good, hf] at hfa
  have hfa' : f a = .ok (a, k) := by
    rw [hfa]
    show Except.ok (D.overlay ∅ s a, k) = _
    rw [D.overlay_empty hgood h.good]
  have hsw : s = w.shared := by
    refine D.ext _ _ hgood hs.good fun m => work_frame hd hp hs.good hf ?_
    rw [hempty]
    exact Finset.notMem_empty m
  subst hsw
  refine ⟨.work (hc ▸ hempty) (hc ▸ hp) hfa', h.move (fun _ _ => Iff.rfl) h.good
    (fun hn => absurd hn ht) (fun _ => .free (hk.trans hempty)) (fun _ _ hu => hu) fun m hm _ => ?_⟩
  exact h.same_of hm fun hn => absurd hn ht

/-- A thread gives back one more lock. -/
theorem Shadows.release (h : Shadows D prog held w G c a) {own : L → Option T} (ht : t ∉ G)
    (hrel : Releases prog held k (c t)) :
    Shadows D prog held ⟨own, w.shared, Function.update w.pc t k⟩ G c a :=
  h.stay (fun _ _ => Iff.rfl) (fun hn => absurd hn ht) (fun _ => hrel) (fun _ _ hu => hu)
    fun _ hm _ => h.same_of hm fun hn => absurd hn ht

/-- **Simulation**: a step is invisible between the sections, or is one of them. -/
theorem Shadows.step (hd : Disciplined D prog held) (hs : Sound D held w)
    (h : Shadows D prog held w G c a) (hm : Moves prog w t w') :
    ∃ G', Shadows D prog held w' G' c a ∨
      ∃ q b, Atomic prog held (c t) a q b ∧
        Shadows D prog held w' G' (Function.update c t q) b := by
  by_cases ht : t ∈ G
  · cases hm with
    | lock hp hfree => exact ⟨G, Or.inl (h.lock hd hs hp hfree ht)⟩
    | unlock hp _ => exact ⟨G \ {t}, Or.inr (h.commit hd hs hp ht)⟩
    | work hp hf => exact ⟨G, Or.inl (h.work hd hs hp hf ht)⟩
  · rcases (h.shrink t ht).step with ⟨hc, hempty⟩ | ⟨l, k, hp, hrel⟩
    · cases hm with
      | lock hp hfree => exact ⟨insert t G, Or.inl (h.enter hd hs hp hfree ht hc hempty)⟩
      | unlock hp _ =>
        have hl := (hd.unlock_next hp).1
        rw [hempty] at hl
        exact absurd hl (Finset.notMem_empty _)
      | work hp hf => exact ⟨G, Or.inr ⟨_, a, h.unguarded hd hs hp hf ht hc hempty⟩⟩
    · cases hm with
      | lock hp' _ =>
        rw [hp] at hp'
        cases hp'
      | unlock hp' _ =>
        rw [hp] at hp'
        obtain ⟨rfl, rfl⟩ := Action.unlock.inj hp'
        exact ⟨G, Or.inl (h.release ht hrel)⟩
      | work hp' _ =>
        rw [hp] at hp'
        cases hp'

/-- **Atomicity**: after any schedule the world stands for a state that sections in one go lead to,
taken in an order of the schedule's. -/
theorem run_shadows (hd : Disciplined D prog held) (hq : Quiet held w) (hg : D.Good w.shared)
    {ts : List T} {os : List Unit} (hrun : run (step prog) w ts = some (w', os)) :
    ∃ order G c a, order.Sublist ts ∧ Serial prog held w.pc w.shared order c a ∧
      Shadows D prog held w' G c a ∧ Sound D held w' := by
  refine run_history (J := fun ts _ w' => ∃ order G c a, order.Sublist ts ∧
    Serial prog held w.pc w.shared order c a ∧ Shadows D prog held w' G c a ∧ Sound D held w')
    ⟨[], ∅, _, _, .slnil, .nil, hq.shadows hg, hq.sound hg⟩ ?_ hrun
  rintro ts _ w₁ t w₂ o ⟨order, G, c, a, hsub, hser, hsh, hsound⟩ hstep
  have hm := step_moves hstep
  have hsound' := hm.sound hd hsound
  obtain ⟨G', h | ⟨q, b, hsec, h⟩⟩ := hsh.step hd hsound hm
  · exact ⟨order, G', c, a, hsub.trans (List.sublist_append_left ts [t]), hser, h, hsound'⟩
  · exact ⟨order ++ [t], G', _, b, hsub.append (List.Sublist.refl _), hser.snoc hsec, h, hsound'⟩

omit [DecidableEq T] in
/-- Outside of sections a thread is where it shows. -/
theorem Shadows.pc_eq (hd : Disciplined D prog held) (h : Shadows D prog held w G c a)
    (ht : held (w.pc t) = ∅) : c t = w.pc t := by
  have hG : t ∉ G := by
    intro hc
    obtain ⟨l, k, -, hlock, hgrow⟩ := h.grow t hc
    -- a section that has begun holds its first lock
    have hl := hgrow.subset hd h.good
      ((hd.lock_next hlock).2 ▸ Finset.mem_insert_self l (held (c t)))
    rw [ht] at hl
    exact absurd hl (Finset.notMem_empty l)
  rcases (h.shrink t hG).step with ⟨he, -⟩ | ⟨l, k, hp, -⟩
  · exact he.symm
  · have hl := (hd.unlock_next hp).1
    rw [ht] at hl
    exact absurd hl (Finset.notMem_empty l)

/-- **Serializability**: there are sections in one go, taken in an order of the schedule's, that
lead every thread outside of its sections to where it is, and every part whose lock is free to what
it is. -/
theorem serializable (hd : Disciplined D prog held) (hq : Quiet held w) (hg : D.Good w.shared)
    {ts : List T} {os : List Unit} (hrun : run (step prog) w ts = some (w', os)) :
    ∃ order c a, order.Sublist ts ∧ Serial prog held w.pc w.shared order c a ∧
      (∀ t, held (w'.pc t) = ∅ → c t = w'.pc t) ∧
      (∀ l, w'.owner l = none → D.part l a = D.part l w'.shared) ∧
      ((∀ l, w'.owner l = none) → a = w'.shared) := by
  obtain ⟨order, G, c, a, hsub, hser, hsh, hsound⟩ := run_shadows hd hq hg hrun
  have hparts : ∀ l, w'.owner l = none → D.part l a = D.part l w'.shared := fun l hl =>
    (hsh.same l fun t _ => hsound.free hl t).symm
  exact ⟨order, c, a, hsub, hser, fun t ht => hsh.pc_eq hd ht, hparts, fun hl =>
    D.ext _ _ hsh.good hsound.good fun l => hparts l (hl l)⟩

end Shadows

/-! ## Sections as functions -/

/-- What a section does, as a function: it does not change along the section's steps, and where the
locks are given back it says where that leads. -/
structure Means (prog : σ → Action L S σ ε) (held : σ → Finset L) (D : Parts L S)
    (meaning : σ → S → Except ε (σ × S)) : Prop where
  lock : ∀ {p l k s}, prog p = .lock l k → D.Good s → meaning k s = meaning p s
  work : ∀ {p f s s' k}, prog p = .work f → held p ≠ ∅ → D.Good s → f s = .ok (s', k) →
    meaning k s' = meaning p s
  free : ∀ {p f s s' k}, prog p = .work f → held p = ∅ → D.Good s → f s = .ok (s', k) →
    meaning p s = .ok (k, s')
  unlock : ∀ {p l k s}, prog p = .unlock l k →
    meaning p s = if held k = ∅ then .ok (k, s) else meaning k s

/-- The section that the thread `t` begins, in one go. -/
def sectionStep [DecidableEq T] (meaning : σ → S → Except ε (σ × S)) (x : (T → σ) × S) (t : T) :
    Option (((T → σ) × S) × Unit) :=
  match meaning (x.1 t) x.2 with
  | .ok (p, s) => some ((Function.update x.1 t p, s), ())
  | .error _ => none

section Means

variable {prog : σ → Action L S σ ε} {held : σ → Finset L} {D : Parts L S}
  {M : σ → S → Except ε (σ × S)} {p q r : σ} {a b : S}

theorem Grows.meaning (hm : Means prog held D M) (hd : Disciplined D prog held) (ha : D.Good a)
    (hp : held p ≠ ∅) (h : Grows prog p a q b) : M q b = M p a := by
  induction h with
  | refl => rfl
  | lock hg hq ih => rw [hm.lock hq (hg.good hd ha), ih]
  | work hg hq hf ih =>
    have hne : held _ ≠ ∅ := fun he => hp (Finset.subset_empty.mp (he ▸ hg.subset hd ha))
    rw [hm.work hq hne (hg.good hd ha) hf, ih]

theorem Releases.meaning (hm : Means prog held D M) (hd : Disciplined D prog held)
    (h : Releases prog held q r) (hq : held q ≠ ∅) : M q b = .ok (r, b) := by
  induction h with
  | free he => exact absurd he hq
  | unlock hp h ih =>
    rw [hm.unlock hp]
    split_ifs with hk
    · rcases h.step with ⟨rfl, -⟩ | ⟨l, k, hp', -⟩
      · rfl
      · have hl := (hd.unlock_next hp').1
        rw [hk] at hl
        exact absurd hl (Finset.notMem_empty l)
    · exact ih hk

/-- **A section is its function.** -/
theorem Atomic.meaning (hm : Means prog held D M) (hd : Disciplined D prog held) (ha : D.Good a)
    (h : Atomic prog held p a r b) : M p a = .ok (r, b) ∧ D.Good b := by
  cases h with
  | work hfree hp hf => exact ⟨hm.free hp hfree ha hf, (hd.work_next hp ha hf).1⟩
  | @locked k q _ _ _ l hfree hp hgrow hrel =>
    have hne : held k ≠ ∅ := by
      rw [(hd.lock_next hp).2]
      exact Finset.insert_ne_empty _ _
    have hne' : held q ≠ ∅ := fun he => hne (Finset.subset_empty.mp (he ▸ hgrow.subset hd ha))
    refine ⟨?_, hgrow.good hd ha⟩
    rw [← hm.lock hp ha, ← hgrow.meaning hm hd ha hne, hrel.meaning hm hd hne']

/-- **A serial order is a run of the functions.** -/
theorem Serial.run [DecidableEq T] (hm : Means prog held D M) (hd : Disciplined D prog held)
    {pc c : T → σ} {order : List T} (ha : D.Good a) (h : Serial prog held pc a order c b) :
    (∃ os, run (sectionStep M) (pc, a) order = some ((c, b), os)) ∧ D.Good b := by
  induction h with
  | nil => exact ⟨⟨[], rfl⟩, ha⟩
  | @snoc ts c a' b t q hser hsec ih =>
    obtain ⟨⟨os, hrun⟩, hgood⟩ := ih
    obtain ⟨hmean, hgood'⟩ := hsec.meaning hm hd hgood
    have hstep : sectionStep M (c, a') t = some ((Function.update c t q, b), ()) := by
      simp only [sectionStep, hmean]
    exact ⟨⟨_, run_append_of hrun (run_singleton hstep)⟩, hgood'⟩

end Means

end Locks
