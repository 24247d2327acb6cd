import Mathlib.Data.List.Basic
import Mathlib.Data.List.Induction
import Mathlib.Data.Nat.Notation

/-!
# Lib.Drain — streams that are taken up to a stop symbol

Elements arrive in chunks.  A round adds a chunk to what is there, and takes the elements up to the
first stop symbol, or all of them.  So a round serves one stop symbol at most, and the end of a
chunk is reached if the rounds were enough for the stop symbols before it (`left_eq_nil_iff`).  A
receiver that counts modulo `w` what was taken, and gives out the last `m` elements where the count
is `m` at the end of a round, gives out blocks of `m` elements one by one exactly if a round ends at
the end of each of them (`deliver_eq`, `cuts_of_deliver`).
-/

namespace Drain

variable {α : Type}

/-! ## Rounds -/

section Rounds

variable (stop : α → Bool)

/-- What a round takes, and what it leaves. -/
def split : List α → List α × List α
  | [] => ([], [])
  | x :: xs => if stop x then ([x], xs) else (x :: (split xs).1, (split xs).2)

/-- What the rounds take, one for each chunk, and what the last of them leaves. -/
def drains : List α → List (List α) → List (List α) × List α
  | avail, [] => ([], avail)
  | avail, c :: cs =>
    let r := split stop (avail ++ c)
    (r.1 :: (drains r.2 cs).1, (drains r.2 cs).2)

variable {xs avail c : List α} {cs : List (List α)}

theorem split_append (xs : List α) : (split stop xs).1 ++ (split stop xs).2 = xs := by
  induction xs with
  | nil => rfl
  | cons x xs ih =>
    rw [split]
    split_ifs
    · rfl
    · exact congrArg (x :: ·) ih

/-- A round that leaves something ends with a stop symbol. -/
theorem split_end (xs : List α) :
    (split stop xs).2 = [] ∨ ∃ ys z, (split stop xs).1 = ys ++ [z] ∧ stop z = true := by
  induction xs with
  | nil => exact Or.inl rfl
  | cons x xs ih =>
    rw [split]
    split_ifs with hx
    · exact Or.inr ⟨[], x, rfl, hx⟩
    · rcases ih with h | ⟨ys, z, h, hz⟩
      · exact Or.inl h
      · exact Or.inr ⟨x :: ys, z, congrArg (x :: ·) h, hz⟩

/-- A round ends with the first stop symbol. -/
theorem split_inside (xs : List α) : (split stop xs).1.dropLast.countP stop = 0 := by
  induction xs with
  | nil => rfl
  | cons x xs ih =>
    rw [split]
    split_ifs with hx
    · rfl
    · cases hd : (split stop xs).1 with
      | nil => rfl
      | cons y ys =>
        rw [hd] at ih
        rw [List.dropLast_cons_cons, List.countP_cons_of_neg hx, ih]

theorem drains_append (avail : List α) (cs cs' : List (List α)) :
    drains stop avail (cs ++ cs') =
      ((drains stop avail cs).1 ++ (drains stop (drains stop avail cs).2 cs').1,
        (drains stop (drains stop avail cs).2 cs').2) := by
  induction cs generalizing avail with
  | nil => rfl
  | cons c cs ih =>
    rw [List.cons_append, drains, ih]
    rfl

/-- Nothing is lost. -/
theorem drains_flatten (avail : List α) (cs : List (List α)) :
    (drains stop avail cs).1.flatten ++ (drains stop avail cs).2 = avail ++ cs.flatten := by
  induction cs generalizing avail with
  | nil => exact (List.append_nil avail).symm
  | cons c cs ih =>
    rw [drains, List.flatten_cons, List.append_assoc, ih, ← List.append_assoc, split_append,
      List.flatten_cons, List.append_assoc]

theorem length_drains (avail : List α) (cs : List (List α)) :
    (drains stop avail cs).1.length = cs.length := by
  induction cs generalizing avail with
  | nil => rfl
  | cons c cs ih => rw [drains, List.length_cons, ih, List.length_cons]

/-- What the first rounds take does not depend on the later chunks. -/
theorem take_drains (avail : List α) (cs : List (List α)) (i : ℕ) :
    (drains stop avail cs).1.take i = (drains stop avail (cs.take i)).1 := by
  induction cs generalizing avail i with
  | nil =>
    rw [List.take_nil]
    exact List.take_nil
  | cons c cs ih =>
    cases i with
    | zero => rfl
    | succ i => exact congrArg (_ :: ·) (ih _ i)

theorem drains_concat (avail : List α) (cs : List (List α)) (c : List α) :
    drains stop avail (cs ++ [c]) =
      ((drains stop avail cs).1 ++ [(split stop ((drains stop avail cs).2 ++ c)).1],
        (split stop ((drains stop avail cs).2 ++ c)).2) := by
  rw [drains_append]
  rfl

/-- A round takes one stop symbol at most. -/
theorem countP_split_le (xs : List α) : (split stop xs).1.countP stop ≤ 1 := by
  have hinside := split_inside stop xs
  rcases List.eq_nil_or_concat (split stop xs).1 with h | ⟨ys, z, h⟩
  · rw [h]
    exact Nat.zero_le 1
  · rw [h, List.concat_eq_append, List.dropLast_concat] at hinside
    rw [h, List.concat_eq_append, List.countP_append, hinside, Nat.zero_add]
    exact List.countP_le_length

variable {stop}

/-- Unless it takes everything, a round takes a stop symbol. -/
theorem countP_split_of_left (h : (split stop xs).2 ≠ []) : (split stop xs).1.countP stop = 1 := by
  refine Nat.le_antisymm (countP_split_le stop xs) ?_
  rcases split_end stop xs with hnil | ⟨ys, z, heq, hz⟩
  · exact absurd hnil h
  · rw [heq, List.countP_append, List.countP_singleton, if_pos hz]
    exact Nat.le_add_left 1 _

/-! ### Rounds served -/

/-- **No more stop symbols are taken** than arrived by some round, and one for each round since. -/
theorem countP_drains_le {r : ℕ} (hr : r ≤ cs.length) :
    (drains stop [] cs).1.flatten.countP stop ≤
      (cs.take r).flatten.countP stop + (cs.length - r) := by
  induction cs using List.reverseRecOn with
  | nil => exact Nat.zero_le _
  | append_singleton cs c ih =>
    rw [List.length_append, List.length_singleton] at hr ⊢
    by_cases hlast : r = cs.length + 1
    · subst hlast
      have hflat := congrArg (List.countP stop) (drains_flatten stop [] (cs ++ [c]))
      rw [List.countP_append, List.nil_append] at hflat
      rw [List.take_of_length_le (by rw [List.length_append]; exact Nat.le_refl _)]
      omega
    · have hle : r ≤ cs.length := by omega
      have hone := countP_split_le stop ((drains stop [] cs).2 ++ c)
      rw [drains_concat, List.flatten_append, List.countP_append, List.flatten_singleton,
        List.take_append_of_le_length hle]
      have hcs := ih hle
      omega

/-- **The bound is attained** by a round. -/
theorem countP_drains_eq (stop : α → Bool) (cs : List (List α)) :
    ∃ r ≤ cs.length, (drains stop [] cs).1.flatten.countP stop =
      (cs.take r).flatten.countP stop + (cs.length - r) := by
  induction cs using List.reverseRecOn with
  | nil => exact ⟨0, Nat.le_refl 0, rfl⟩
  | append_singleton cs c ih =>
    by_cases hleft : (split stop ((drains stop [] cs).2 ++ c)).2 = []
    · refine ⟨(cs ++ [c]).length, Nat.le_refl _, ?_⟩
      have hflat := drains_flatten stop [] (cs ++ [c])
      have hnil : (drains stop [] (cs ++ [c])).2 = [] := by
        rw [drains_concat]
        exact hleft
      rw [List.nil_append, hnil, List.append_nil] at hflat
      rw [hflat, List.take_length, Nat.sub_self, Nat.add_zero]
    · obtain ⟨r, hr, heq⟩ := ih
      refine ⟨r, by rw [List.length_append]; omega, ?_⟩
      rw [drains_concat, List.flatten_append, List.countP_append, List.flatten_singleton,
        countP_split_of_left hleft, heq, List.take_append_of_le_length hr, List.length_append,
        List.length_singleton]
      omega

/-- **The end of a chunk is reached** by its round exactly if the rounds before were enough, from
every chunk on, for the stop symbols in front of the last element. -/
theorem left_eq_nil_iff (cs : List (List α)) (c : List α) :
    (drains stop [] (cs ++ [c])).2 = [] ↔
      ∀ r ≤ cs.length, (cs ++ [c]).flatten.dropLast.countP stop ≤
        (cs.take r).flatten.countP stop + (cs.length - r) := by
  have hflat := drains_flatten stop [] (cs ++ [c])
  rw [List.nil_append, drains_concat, List.flatten_append, List.flatten_singleton] at hflat
  rw [drains_concat, ← hflat]
  constructor
  · intro hleft r hr
    refine Nat.le_trans ?_ (countP_drains_le hr)
    have hleft : (split stop ((drains stop [] cs).2 ++ c)).2 = [] := hleft
    have hinside := split_inside stop ((drains stop [] cs).2 ++ c)
    rw [hleft, List.append_nil]
    by_cases hd : (split stop ((drains stop [] cs).2 ++ c)).1 = []
    · rw [hd, List.append_nil]
      exact (List.dropLast_sublist _).countP_le
    · refine Nat.le_of_eq ?_
      rw [List.dropLast_append_of_ne_nil hd, List.countP_append, hinside, Nat.add_zero]
  · intro h
    obtain ⟨r, hr, heq⟩ := countP_drains_eq stop cs
    by_contra hleft
    have hr' := h r hr
    have hone := countP_split_of_left hleft
    rw [← heq, List.dropLast_append_of_ne_nil hleft, List.countP_append, List.countP_append] at hr'
    omega

/-! ### Where rounds end -/

/-- A round ends behind `p` elements. -/
def Cut (ds : List (List α)) (p : ℕ) : Prop := ∃ j, (ds.take j).flatten.length = p

/-- Rounds end behind every stop symbol. -/
theorem cut_of_stop {ds : List (List α)} (hds : ∀ d ∈ ds, d.dropLast.countP stop = 0) {p : ℕ}
    {x : α} (hx : ds.flatten[p]? = some x) (hstop : stop x = true) : Cut ds (p + 1) := by
  induction ds generalizing p with
  | nil => cases hx
  | cons d ds ih =>
    rw [List.flatten_cons] at hx
    by_cases hp : p < d.length
    · have hlast : ¬ p < d.length - 1 := by
        intro hlt
        rw [List.getElem?_append_left hp] at hx
        have hmem : x ∈ d.dropLast :=
          List.mem_of_getElem? ((List.getElem?_dropLast).trans ((if_pos hlt).trans hx))
        exact List.countP_eq_zero.mp (hds d List.mem_cons_self) x hmem hstop
      refine ⟨1, ?_⟩
      rw [List.take_succ_cons, List.take_zero, List.flatten_singleton]
      omega
    · obtain ⟨j, hj⟩ := ih (fun e he => hds e (List.mem_cons_of_mem _ he)) (p := p - d.length) (by
        rwa [List.getElem?_append_right (by omega)] at hx)
      refine ⟨j + 1, ?_⟩
      rw [List.take_succ_cons, List.flatten_cons, List.length_append, hj]
      omega

/-- A round can end behind `p` elements: there is a stop symbol, or a chunk ends there and the
rounds before were enough for the stop symbols in front. -/
def StopsAt (stop : α → Bool) (cs : List (List α)) (p : ℕ) : Prop :=
  (∃ x, cs.flatten[p - 1]? = some x ∧ stop x = true) ∨
    ∃ i, 0 < i ∧ i ≤ cs.length ∧ (cs.take i).flatten.length = p ∧
      ∀ r < i, (cs.flatten.take (p - 1)).countP stop ≤
        (cs.take r).flatten.countP stop + (i - 1 - r)

theorem drains_inside (avail : List α) (cs : List (List α)) :
    ∀ d ∈ (drains stop avail cs).1, d.dropLast.countP stop = 0 := by
  induction cs generalizing avail with
  | nil =>
    intro d hd
    cases hd
  | cons c cs ih =>
    intro d hd
    rcases List.mem_cons.mp hd with rfl | hd
    · exact split_inside stop _
    · exact ih _ d hd

/-- What the rounds for the first chunks take, if that is all of these. -/
theorem flatten_take_drains {i : ℕ} (h : (drains stop [] (cs.take i)).2 = []) :
    ((drains stop [] cs).1.take i).flatten = (cs.take i).flatten := by
  have hflat := drains_flatten stop [] (cs.take i)
  rwa [h, List.append_nil, List.nil_append, ← take_drains] at hflat

/-- The end of a chunk is reached, in terms of the whole stream. -/
theorem left_take_iff {i p : ℕ} (hi : 0 < i) (hle : i ≤ cs.length)
    (hp : (cs.take i).flatten.length = p) :
    (drains stop [] (cs.take i)).2 = [] ↔
      ∀ r < i, (cs.flatten.take (p - 1)).countP stop ≤
        (cs.take r).flatten.countP stop + (i - 1 - r) := by
  obtain ⟨k, rfl⟩ : ∃ k, i = k + 1 := ⟨i - 1, by omega⟩
  have hfront : (cs.take (k + 1)).flatten.dropLast = cs.flatten.take (p - 1) := by
    rw [List.dropLast_eq_take, hp]
    nth_rewrite 2 [← List.take_append_drop (k + 1) cs]
    rw [List.flatten_append, List.take_append_of_le_length (by omega)]
  have hlen : (cs.take k).length = k := List.length_take_of_le (by omega)
  rw [← hfront, ← List.take_append_getElem (show k < cs.length by omega),
    left_eq_nil_iff, hlen]
  constructor
  · intro h r hr
    have hr' := h r (Nat.lt_succ_iff.mp hr)
    rwa [List.take_take, Nat.min_eq_left (Nat.lt_succ_iff.mp hr)] at hr'
  · intro h r hr
    rw [List.take_take, Nat.min_eq_left hr]
    exact h r (Nat.lt_succ_iff.mpr hr)

/-- A round that leaves something ends behind a stop symbol. -/
theorem stop_of_left {k p : ℕ} (hk : k < cs.length)
    (hflat : (drains stop [] cs).1.flatten = cs.flatten)
    (hleft : (drains stop [] (cs.take (k + 1))).2 ≠ [])
    (hp : ((drains stop [] cs).1.take (k + 1)).flatten.length = p) :
    ∃ x, cs.flatten[p - 1]? = some x ∧ stop x = true := by
  have hds : cs.flatten = ((drains stop [] cs).1.take (k + 1)).flatten ++
      ((drains stop [] cs).1.drop (k + 1)).flatten := by
    rw [← List.flatten_append, List.take_append_drop, hflat]
  rw [take_drains, ← List.take_append_getElem hk, drains_concat, List.flatten_append,
    List.flatten_singleton] at hp hds
  rw [← List.take_append_getElem hk, drains_concat] at hleft
  rcases split_end stop ((drains stop [] (cs.take k)).2 ++ cs[k]) with h | ⟨ys, z, heq, hz⟩
  · exact absurd h hleft
  · rw [heq, ← List.append_assoc] at hp hds
    rw [List.length_append, List.length_singleton] at hp
    refine ⟨z, ?_, hz⟩
    rw [hds, ← hp, Nat.add_sub_cancel, List.append_assoc,
      List.getElem?_append_right (Nat.le_refl _), Nat.sub_self]
    rfl

/-- **Where rounds end**, if nothing is left behind the last one. -/
theorem cut_iff (hleft : (drains stop [] cs).2 = []) {p : ℕ} (hp : 0 < p) :
    Cut (drains stop [] cs).1 p ↔ StopsAt stop cs p := by
  have hflat := drains_flatten stop [] cs
  rw [hleft, List.append_nil, List.nil_append] at hflat
  constructor
  · rintro ⟨j, hj⟩
    obtain ⟨i, hle, htake⟩ : ∃ i ≤ cs.length,
        (drains stop [] cs).1.take j = (drains stop [] cs).1.take i :=
      ⟨min j cs.length, Nat.min_le_right _ _, by
        rw [← length_drains stop [] cs]
        exact List.take_eq_take_min⟩
    rw [htake] at hj
    cases i with
    | zero => exact absurd hj (Nat.ne_of_lt hp)
    | succ k =>
      by_cases hnil : (drains stop [] (cs.take (k + 1))).2 = []
      · have hlen : (cs.take (k + 1)).flatten.length = p := by
          rw [← flatten_take_drains hnil, hj]
        exact Or.inr ⟨k + 1, Nat.succ_pos k, hle, hlen,
          (left_take_iff (Nat.succ_pos k) hle hlen).mp hnil⟩
      · exact Or.inl (stop_of_left hle hflat hnil hj)
  · rintro (⟨x, hx, hstop⟩ | ⟨i, hi, hle, hlen, hr⟩)
    · rw [← hflat] at hx
      have hcut := cut_of_stop (drains_inside [] cs) hx hstop
      rwa [Nat.sub_add_cancel hp] at hcut
    · exact ⟨i, by rw [flatten_take_drains ((left_take_iff hi hle hlen).mpr hr), hlen]⟩

/-! ### Rounds without a chunk -/

theorem length_split_le (stop : α → Bool) (xs : List α) :
    (split stop xs).2.length ≤ xs.length - 1 := by
  cases xs with
  | nil => exact Nat.le_refl 0
  | cons x xs =>
    have hsplit := congrArg List.length (split_append stop xs)
    rw [List.length_append] at hsplit
    rw [split]
    split_ifs
    · exact Nat.le_refl _
    · show (split stop xs).2.length ≤ xs.length
      omega

/-- **Enough rounds** leave nothing. -/
theorem drains_idle {e : ℕ} (h : avail.length ≤ e) :
    (drains stop avail (List.replicate e [])).2 = [] := by
  induction e generalizing avail with
  | zero => exact List.eq_nil_of_length_eq_zero (Nat.le_zero.mp h)
  | succ e ih =>
    have hle := length_split_le stop (avail ++ [])
    rw [List.append_nil] at hle
    rw [List.replicate_succ, drains]
    refine ih ?_
    rw [List.append_nil]
    omega

theorem flatten_extra (cs : List (List α)) (e : ℕ) :
    (cs ++ List.replicate e []).flatten = cs.flatten := by
  rw [List.flatten_append, List.flatten_replicate_nil, List.append_nil]

/-- Inside the stream, rounds without a chunk behind it do not count. -/
theorem stopsAt_extra {p e : ℕ} (hp : p < cs.flatten.length) :
    StopsAt stop (cs ++ List.replicate e []) p ↔ StopsAt stop cs p := by
  unfold StopsAt
  rw [flatten_extra]
  refine or_congr Iff.rfl ?_
  have htake : ∀ {i}, i ≤ cs.length → (cs ++ List.replicate e []).take i = cs.take i :=
    fun hi => List.take_append_of_le_length hi
  constructor
  · rintro ⟨i, hi, hle, hlen, hr⟩
    have hi' : i ≤ cs.length := by
      by_contra hgt
      rw [List.take_append, List.take_of_length_le (by omega), List.take_replicate,
        flatten_extra] at hlen
      omega
    rw [htake hi'] at hlen
    refine ⟨i, hi, hi', hlen, ?_⟩
    intro r hri
    have hr' := hr r hri
    rwa [htake (by omega)] at hr'
  · rintro ⟨i, hi, hle, hlen, hr⟩
    refine ⟨i, hi, by rw [List.length_append]; omega, by rw [htake hle, hlen], ?_⟩
    intro r hri
    rw [htake (by omega)]
    exact hr r hri

end Rounds

/-! ## A receiver that counts -/

section Receiver

variable {m w : ℕ} {acc : List α} {ds blocks : List (List α)}

/-- The blocks that are given out: the last `m` elements, where the count of the elements since the
last block, modulo `w`, is `m` at the end of a round. -/
def deliver (m w : ℕ) : List α → List (List α) → List (List α)
  | _, [] => []
  | acc, d :: ds =>
    if (acc ++ d).length % w = m then
      (acc ++ d).drop ((acc ++ d).length - m) :: deliver m w [] ds
    else deliver m w (acc ++ d) ds

theorem length_flatten_cons (d : List α) (ds : List (List α)) :
    (d :: ds).flatten.length = d.length + ds.flatten.length := by
  rw [List.flatten_cons, List.length_append]

/-- A block takes `m` elements at least. -/
theorem length_deliver_le (m w : ℕ) (acc : List α) (ds : List (List α)) :
    m * (deliver m w acc ds).length ≤ acc.length + ds.flatten.length := by
  induction ds generalizing acc with
  | nil => exact Nat.zero_le _
  | cons d ds ih =>
    have hacc : (acc ++ d).length = acc.length + d.length := List.length_append
    rw [deliver, length_flatten_cons]
    split_ifs with h
    · have hrest := ih []
      have hm := Nat.mod_le (acc ++ d).length w
      rw [List.length_cons, Nat.mul_succ]
      rw [List.length_nil] at hrest
      omega
    · have hrest := ih (acc ++ d)
      omega

/-- **All blocks come only if rounds end** at the end of each: each block takes at least `m`
elements, and there are no more than that. -/
theorem cuts_of_deliver {n k : ℕ} (hsum : acc.length + ds.flatten.length = m * n)
    (hcount : (deliver m w acc ds).length = n) (hk : 0 < k) (hkn : k ≤ n) :
    ∃ j, acc.length + (ds.take j).flatten.length = m * k := by
  induction ds generalizing acc n k with
  | nil =>
    have hn : 0 = n := hcount
    omega
  | cons d ds ih =>
    have hacc : (acc ++ d).length = acc.length + d.length := List.length_append
    rw [length_flatten_cons] at hsum
    rw [deliver] at hcount
    split_ifs at hcount with h
    · rw [List.length_cons] at hcount
      have hm := Nat.mod_le (acc ++ d).length w
      have hrest := length_deliver_le m w [] ds
      rw [List.length_nil, Nat.zero_add] at hrest
      -- the first block has all its elements, and no others
      rw [← hcount, Nat.mul_succ] at hsum
      by_cases hone : k = 1
      · refine ⟨1, ?_⟩
        rw [List.take_succ_cons, length_flatten_cons, hone, List.take_zero, List.flatten_nil,
          List.length_nil]
        omega
      · have hsum' : ([] : List α).length + ds.flatten.length =
            m * (deliver m w [] ds).length := by
          rw [List.length_nil]
          omega
        obtain ⟨j, hj⟩ := ih hsum' rfl (k := k - 1) (by omega) (by omega)
        have hmul : m * k = m * (k - 1) + m := by
          rw [← Nat.mul_succ, Nat.succ_eq_add_one, Nat.sub_add_cancel hk]
        rw [List.length_nil, Nat.zero_add] at hj
        refine ⟨j + 1, ?_⟩
        rw [List.take_succ_cons, length_flatten_cons, hj, hmul]
        omega
    · obtain ⟨j, hj⟩ := ih (by rw [hacc]; omega) hcount hk hkn
      refine ⟨j + 1, ?_⟩
      rw [List.take_succ_cons, length_flatten_cons, ← hj, hacc, Nat.add_assoc]

/-- A round that ends at the end of a block is the next one or a later one. -/
theorem cut_later {d : List α} {k : ℕ} (hacc : acc.length < m) (hk : 0 < k)
    (hcut : ∃ j, acc.length + ((d :: ds).take j).flatten.length = m * k) :
    ∃ j, (acc ++ d).length + (ds.take j).flatten.length = m * k := by
  obtain ⟨j, hj⟩ := hcut
  cases j with
  | zero =>
    have hle := Nat.le_mul_of_pos_right m hk
    rw [List.take_zero, List.flatten_nil, List.length_nil] at hj
    omega
  | succ j =>
    refine ⟨j, ?_⟩
    rw [← hj, List.take_succ_cons, length_flatten_cons, List.length_append, Nat.add_assoc]

/-- **Blocks come one by one** if rounds end at the end of each. -/
theorem deliver_eq (hmw : m < w) (hblocks : ∀ b ∈ blocks, b.length = m)
    (hsum : acc ++ ds.flatten = blocks.flatten) (hacc : acc.length < m)
    (hcuts : ∀ k, 0 < k → k ≤ blocks.length →
      ∃ j, acc.length + (ds.take j).flatten.length = m * k) :
    deliver m w acc ds = blocks := by
  induction ds generalizing acc blocks with
  | nil =>
    cases blocks with
    | nil => rfl
    | cons b bs =>
      have hlen := congrArg List.length hsum
      rw [List.flatten_nil, List.append_nil, List.flatten_cons, List.length_append,
        hblocks b List.mem_cons_self] at hlen
      omega
  | cons d ds ih =>
    rw [List.flatten_cons, ← List.append_assoc] at hsum
    -- a round ends at the end of the first block, so this one does not go past it
    have hle : (acc ++ d).length ≤ m := by
      cases blocks with
      | nil =>
        rw [(List.append_eq_nil_iff.mp hsum).1]
        exact Nat.zero_le m
      | cons b bs =>
        obtain ⟨j, hj⟩ := cut_later hacc Nat.zero_lt_one
          (hcuts 1 Nat.zero_lt_one (Nat.succ_le_succ (Nat.zero_le _)))
        omega
    rw [deliver]
    split_ifs with h
    · have hfull : (acc ++ d).length = m := Nat.le_antisymm hle (h ▸ Nat.mod_le _ _)
      cases blocks with
      | nil =>
        rw [(List.append_eq_nil_iff.mp hsum).1] at hfull
        exact absurd hacc (hfull ▸ Nat.not_lt_zero _)
      | cons b bs =>
        rw [List.flatten_cons] at hsum
        obtain ⟨hb, hrest⟩ := List.append_inj hsum
          (hfull.trans (hblocks b List.mem_cons_self).symm)
        rw [hfull, Nat.sub_self, List.drop_zero, hb]
        refine congrArg (b :: ·)
          (ih (fun c hc => hblocks c (List.mem_cons_of_mem _ hc)) hrest ?_ ?_)
        · exact Nat.lt_of_le_of_lt (Nat.zero_le _) hacc
        · intro k hk hkn
          obtain ⟨j, hj⟩ := cut_later hacc (Nat.succ_pos k)
            (hcuts (k + 1) (Nat.succ_pos k) (Nat.succ_le_succ hkn))
          rw [hfull, Nat.mul_succ] at hj
          refine ⟨j, ?_⟩
          rw [List.length_nil]
          omega
    · have hlt : (acc ++ d).length < m := by
        refine Nat.lt_of_le_of_ne hle ?_
        intro hfull
        rw [hfull, Nat.mod_eq_of_lt hmw] at h
        exact h rfl
      exact ih hblocks hsum hlt fun k hk hkn => cut_later hacc hk (hcuts k hk hkn)

end Receiver

end Drain
