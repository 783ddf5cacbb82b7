import Mathlib.Data.List.ReduceOption
import Stepwise.Proofs.Eval.Trajectory
/-!
# What a trace shows and what it costs

A trace asked for `k` states shows the first `k` of the sequence of states, with the error of the
limit behind them where the sequence is longer than that, and nothing further. It takes one step
fewer than the states it shows. Once nothing more comes, the last state shown is the answer of
`reduce`, and the store is the one that `reduce` leaves.

Steps are counted by running the same trace with a step that counts itself.
-/

namespace Stepwise

variable {e e' : Expr} {s t : Store} {err : Error} {i j k limit left : Nat}

namespace Trace

/-- Asks `k` times for the next state. The answers in order, and the store afterwards. -/
def pull : Nat → Trace → Store → List (Option (Except Error Expr)) × Store
  | 0, _, s => ([], s)
  | k + 1, t, s =>
    let (item, t, s) := t.next s
    let (items, s) := pull k t s
    (item :: items, s)

/-! ## A step that counts itself -/

section

variable {σ τ : Type}

/-- `next`, with any way to take a step and to keep what steps are taken on. -/
def nextWith (evaluate : Expr → σ → Except Error Expr × σ) (t : Trace) (s : σ) :
    Option (Except Error Expr) × Trace × σ :=
  match t.progress with
  | .fresh e => (some (.ok e), ⟨t.limit, .shown e t.limit⟩, s)
  | .finished => (none, t, s)
  | .shown e left =>
    if e.isValue then (none, ⟨t.limit, .finished⟩, s)
    else
      match left with
      | 0 => (some (.error (.evaluation (.stepLimit t.limit))), ⟨t.limit, .finished⟩, s)
      | left + 1 =>
        match evaluate e s with
        | (.ok e, s) => (some (.ok e), ⟨t.limit, .shown e left⟩, s)
        | (.error err, s) => (some (.error err), ⟨t.limit, .finished⟩, s)

/-- `pull`, with any way to take a step. -/
def pullWith (evaluate : Expr → σ → Except Error Expr × σ) :
    Nat → Trace → σ → List (Option (Except Error Expr)) × σ
  | 0, _, s => ([], s)
  | k + 1, t, s =>
    let (item, t, s) := t.nextWith evaluate s
    let (items, s) := pullWith evaluate k t s
    (item :: items, s)

/-- One step, counted. -/
def countedStep (e : Expr) : Store × Nat → Except Error Expr × Store × Nat
  | (s, count) =>
    let (result, s) := (step e).runOn s
    (result, s, count + 1)

/-- How many steps are taken for `k` answers. -/
def calls (k : Nat) (t : Trace) (s : Store) : Nat :=
  (pullWith countedStep k t (s, 0)).2.2

/-- Counting changes nothing. -/
theorem next_of_nextWith (t : Trace) (s : Store) (count : Nat) :
    t.next s =
      ((t.nextWith countedStep (s, count)).1, (t.nextWith countedStep (s, count)).2.1,
        (t.nextWith countedStep (s, count)).2.2.1) := by
  obtain ⟨limit, progress⟩ := t
  cases progress with
  | fresh e => rfl
  | finished => rfl
  | shown e left =>
    simp only [next, nextWith, countedStep]
    split
    · rfl
    · cases left with
      | zero => rfl
      | succ left => rcases (step e).runOn s with ⟨err | e', s'⟩ <;> rfl

theorem pull_of_pullWith (k : Nat) (t : Trace) (s : Store) (count : Nat) :
    pull k t s =
      ((pullWith countedStep k t (s, count)).1, (pullWith countedStep k t (s, count)).2.1) := by
  induction k generalizing t s count with
  | zero => rfl
  | succ k ih =>
    simp only [pull, pullWith, next_of_nextWith t s count]
    rcases t.nextWith countedStep (s, count) with ⟨item, t', s', count'⟩
    simp only [ih t' s' count']

end

/-! ## The answers -/

/-- The answer to the request with number `i`, when `e` was shown and `left` steps may be taken. -/
def itemAfter (limit left : Nat) (e : Expr) (s : Store) (i : Nat) : Option (Except Error Expr) :=
  if isSettled (stateAfter e s i) then none
  else if i < left then some (stateAfter e s (i + 1)).1
  else if i = left then some (.error (.evaluation (.stepLimit limit)))
  else none

/-- The answer to the request with number `i`, from the start. -/
def item (limit : Nat) (e : Expr) (s : Store) : Nat → Option (Except Error Expr)
  | 0 => some (.ok e)
  | i + 1 => itemAfter limit limit e s i

theorem itemAfter_succ_of_ok (h : (step e).runOn s = (.ok e', t)) (i : Nat) :
    itemAfter limit (left + 1) e s (i + 1) = itemAfter limit left e' t i := by
  simp only [itemAfter, stateAfter_succ_of_ok h, Nat.add_lt_add_iff_right, Nat.add_right_cancel_iff]

theorem pullWith_finished (k limit : Nat) (s : Store) (count : Nat) :
    pullWith countedStep k ⟨limit, .finished⟩ (s, count) = (List.replicate k none, s, count) := by
  induction k with
  | zero => rfl
  | succ k ih => simp only [pullWith, nextWith, ih, List.replicate_succ]

/-- A list of answers by its first and the others. -/
theorem answers_succ {f g : Nat → Option (Except Error Expr)} (k : Nat)
    (h : ∀ i, f (i + 1) = g i) :
    (List.range (k + 1)).map f = f 0 :: (List.range k).map g := by
  rw [List.range_succ_eq_map, List.map_cons, List.map_map]
  congr 2
  funext i
  exact h i

theorem answers_none {f : Nat → Option (Except Error Expr)} (k : Nat) (h : ∀ i, f i = none) :
    (List.range k).map f = List.replicate k none := by
  rw [List.map_congr_left fun i _ => h i, List.map_const', List.length_range]

/-- Behind a state that was shown: the answers, the store and the count of steps. -/
theorem pullWith_shown (k limit left : Nat) (e : Expr) (s : Store) (count : Nat) :
    ∃ m : Nat, (m : ℕ∞) = min (k : ℕ∞) (min (stepCount e s) left) ∧
      pullWith countedStep k ⟨limit, .shown e left⟩ (s, count) =
        ((List.range k).map (itemAfter limit left e s), (stateAfter e s m).2, count + m) := by
  induction k generalizing e s left count with
  | zero => exact ⟨0, by simp, rfl⟩
  | succ k ih =>
    by_cases hv : e.isValue = true
    · refine ⟨0, by simp [stepCount_of_isValue hv], ?_⟩
      have hnone : ∀ i, itemAfter limit left e s i = none := by
        intro i
        rw [itemAfter, stateAfter_of_isValue hv]
        exact if_pos hv
      rw [answers_none _ hnone]
      simp only [pullWith, nextWith, hv, if_true, pullWith_finished, List.replicate_succ]
      rfl
    · have hv' : e.isValue = false := Bool.not_eq_true _ ▸ hv
      cases left with
      | zero =>
        refine ⟨0, by simp, ?_⟩
        have hfirst : itemAfter limit 0 e s 0 = some (.error (.evaluation (.stepLimit limit))) := by
          simp [itemAfter, stateAfter, isSettled, hv']
        rw [answers_succ k (g := fun _ => none) fun i => by simp [itemAfter], hfirst,
          answers_none k fun _ => rfl]
        simp only [pullWith, nextWith, hv', Bool.false_eq_true, if_false, pullWith_finished]
        rfl
      | succ left =>
        rcases hx : (step e).runOn s with ⟨err | e', t⟩
        · refine ⟨1, by simp [stepCount_of_error hv' hx], ?_⟩
          have hfirst : itemAfter limit (left + 1) e s 0 = some (.error err) := by
            simp [itemAfter, stateAfter, isSettled, hv', hx]
          have hrest : ∀ i, itemAfter limit (left + 1) e s (i + 1) = none := by
            intro i
            rw [itemAfter, stateAfter_succ_of_error hx]
            rfl
          rw [answers_succ k hrest, hfirst, answers_none k fun _ => rfl,
            stateAfter_succ_of_error hx]
          simp only [pullWith, nextWith, hv', Bool.false_eq_true, if_false, countedStep, hx,
            pullWith_finished]
        · obtain ⟨m, hm, hpull⟩ := ih left e' t (count + 1)
          refine ⟨m + 1, ?_, ?_⟩
          · rw [stepCount_of_ok hv' hx]
            push_cast
            rw [hm, ← min_add_add_right, ← min_add_add_right]
          · have hfirst : itemAfter limit (left + 1) e s 0 = some (.ok e') := by
              simp [itemAfter, stateAfter, isSettled, hv', hx]
            rw [answers_succ k (itemAfter_succ_of_ok hx), hfirst, stateAfter_succ_of_ok hx]
            simp only [pullWith, nextWith, hv', Bool.false_eq_true, if_false, countedStep, hx, hpull]
            rw [Nat.add_right_comm, Nat.add_assoc]

/-- From the start: the answers, the store and the count of steps. -/
theorem pull_start (k limit : Nat) (e : Expr) (s : Store) :
    (calls k (start limit e) s : ℕ∞) = min ((k - 1 : Nat) : ℕ∞) (min (stepCount e s) limit) ∧
      pull k (start limit e) s =
        ((List.range k).map (item limit e s),
          (stateAfter e s (calls k (start limit e) s)).2) := by
  cases k with
  | zero => exact ⟨by simp [calls, pullWith], rfl⟩
  | succ k =>
    obtain ⟨m, hm, hpull⟩ := pullWith_shown k limit limit e s 0
    have hstart : pullWith countedStep (k + 1) (start limit e) (s, 0) =
        ((List.range (k + 1)).map (item limit e s), (stateAfter e s m).2, m) := by
      rw [answers_succ k (g := itemAfter limit limit e s) fun _ => rfl]
      simp only [pullWith, nextWith, start, hpull, Nat.zero_add]
      rfl
    have hcalls : calls (k + 1) (start limit e) s = m := by
      rw [calls, hstart]
    rw [hcalls, pull_of_pullWith _ _ _ 0, hstart]
    exact ⟨hm, rfl⟩

/-! ## The last answer -/

/-- Where answers come up to the one with number `n` and none after it, the last answer is that
one, or the last one asked for. -/
theorem getLast?_reduceOption {α : Type} {f : Nat → Option α} {n : Nat}
    (h : ∀ i, (f i).isSome = true ↔ i ≤ n) (k : Nat) :
    ((List.range (k + 1)).map f).reduceOption.getLast? = f (min k n) := by
  induction k with
  | zero =>
    obtain ⟨a, ha⟩ := Option.isSome_iff_exists.1 ((h 0).2 (Nat.zero_le n))
    simp [ha]
  | succ k ih =>
    rw [List.range_succ, List.map_append, List.reduceOption_append, List.getLast?_append, ih]
    by_cases hk : k + 1 ≤ n
    · obtain ⟨a, ha⟩ := Option.isSome_iff_exists.1 ((h (k + 1)).2 hk)
      simp [ha, Nat.min_eq_left hk]
    · have hnone : f (k + 1) = none :=
        Option.not_isSome_iff_eq_none.1 fun hsome => hk ((h (k + 1)).1 hsome)
      simp [hnone, Nat.min_eq_right (show n ≤ k by omega), Nat.min_eq_right (show n ≤ k + 1 by omega)]

/-- How many steps a whole trace takes. -/
theorem exists_reach (e : Expr) (s : Store) (limit : Nat) :
    ∃ r : Nat, (r : ℕ∞) = min (stepCount e s) limit := by
  obtain ⟨r, hr⟩ := ENat.ne_top_iff_exists.1
    (ne_top_of_le_ne_top (ENat.natCast_ne_top limit) (min_le_right (stepCount e s) limit))
  exact ⟨r, hr⟩

variable {r : Nat}

theorem le_reach_iff (hr : (r : ℕ∞) = min (stepCount e s) limit) :
    i ≤ r ↔ (i : ℕ∞) ≤ stepCount e s ∧ i ≤ limit := by
  rw [← ENat.natCast_le_natCast, hr, le_min_iff, ENat.natCast_le_natCast]

theorem calls_start (k : Nat) (hr : (r : ℕ∞) = min (stepCount e s) limit) :
    calls k (start limit e) s = min (k - 1) r := by
  have hcalls := (pull_start k limit e s).1
  rw [← hr, ← (Nat.mono_cast (α := ℕ∞)).map_min] at hcalls
  exact ENat.natCast_inj.1 hcalls

theorem item_of_le (h : (i : ℕ∞) ≤ stepCount e s) (hi : i ≤ limit) :
    item limit e s i = some (stateAfter e s i).1 := by
  cases i with
  | zero => rfl
  | succ i =>
    have hlt : (i : ℕ∞) < stepCount e s := by
      push_cast at h
      exact (ENat.add_one_le_iff (ENat.natCast_ne_top i)).1 h
    rw [item, itemAfter, lt_stepCount_iff.1 hlt]
    simp only [Bool.false_eq_true, if_false, if_pos (show i < limit from hi)]

theorem item_limit (h : limit < stepCount e s) :
    item limit e s (limit + 1) = some (.error (.evaluation (.stepLimit limit))) := by
  simp [item, itemAfter, lt_stepCount_iff.1 h]

theorem item_of_lt (hi : min (stepCount e s) limit < i)
    (h : i = limit + 1 → stepCount e s ≤ limit) : item limit e s i = none := by
  obtain ⟨r, hr⟩ := exists_reach e s limit
  rw [← hr, ENat.natCast_lt_natCast] at hi
  obtain ⟨i, rfl⟩ : ∃ j, i = j + 1 := ⟨i - 1, by omega⟩
  rw [item, itemAfter]
  cases hs : isSettled (stateAfter e s i) with
  | true => rfl
  | false =>
    -- a state that is not settled lies beyond the reach only when the limit comes first
    have hri : ¬ (i + 1 ≤ r) := by omega
    rw [le_reach_iff hr] at hri
    have hlt : (i : ℕ∞) < stepCount e s := lt_stepCount_iff.2 hs
    have hle : ((i + 1 : Nat) : ℕ∞) ≤ stepCount e s := by
      push_cast
      exact (ENat.add_one_le_iff (ENat.natCast_ne_top i)).2 hlt
    have hlim : limit ≤ i := by
      by_contra hc
      exact hri ⟨hle, by omega⟩
    have hne : i ≠ limit := by
      rintro rfl
      exact absurd (h rfl) (not_le.2 hlt)
    simp [show ¬ i < limit by omega, hne]

/-- A state that is shown is one of the sequence. -/
theorem eq_stateAfter_of_item (h : item limit e s i = some (.ok e')) :
    (i : ℕ∞) ≤ stepCount e s ∧ i ≤ limit ∧ (stateAfter e s i).1 = .ok e' := by
  by_cases hi : (i : ℕ∞) ≤ stepCount e s ∧ i ≤ limit
  · rw [item_of_le hi.1 hi.2] at h
    exact ⟨hi.1, hi.2, Option.some.inj h⟩
  · by_cases hlast : i = limit + 1 ∧ (limit : ℕ∞) < stepCount e s
    · rw [hlast.1, item_limit hlast.2] at h
      cases h
    · rw [item_of_lt] at h
      · cases h
      · rw [min_lt_iff, ENat.natCast_lt_natCast, ← not_le, ← not_le]
        exact not_and_or.1 hi
      · intro heq
        exact not_lt.1 fun hlt => hlast ⟨heq, hlt⟩

/-- The last answer of a whole trace: its number, and that it is the result of `reduce`. The steps
up to it are all that the trace takes. -/
theorem exists_last (limit : Nat) (e : Expr) (s : Store) :
    ∃ r last : Nat, (r : ℕ∞) = min (stepCount e s) limit ∧ r ≤ last ∧ last ≤ limit + 1 ∧
      (∀ i, (item limit e s i).isSome = true ↔ i ≤ last) ∧
      item limit e s last = some (reduce limit e s).1 ∧
      (stateAfter e s r).2 = (reduce limit e s).2 := by
  rcases lt_or_ge (limit : ℕ∞) (stepCount e s) with hlt | hle
  · refine ⟨limit, limit + 1, (min_eq_right hlt.le).symm, Nat.le_succ _, le_refl _, ?_, ?_, ?_⟩
    · intro i
      rcases Nat.lt_or_ge (limit + 1) i with hi | hi
      · have hnone : item limit e s i = none := by
          apply item_of_lt
          · exact lt_of_le_of_lt (min_le_right _ _) (ENat.natCast_lt_natCast.2 (by omega))
          · intro heq
            omega
        simp [hnone, hi]
      · refine iff_of_true ?_ hi
        rcases Nat.lt_or_ge limit i with hlim | hlim
        · rw [show i = limit + 1 by omega, item_limit hlt]
          rfl
        · rw [item_of_le (le_trans (ENat.natCast_le_natCast.2 hlim) hlt.le) hlim]
          rfl
    all_goals rw [reduce_of_lt_stepCount hlt]
    exact item_limit hlt
  · obtain ⟨r, hr⟩ := exists_reach e s limit
    have hn : stepCount e s = r := by
      rw [hr, min_eq_left hle]
    have hrl : r ≤ limit := by
      rw [← ENat.natCast_le_natCast, ← hn]
      exact hle
    have hred := reduce_of_stepCount hn hrl
    refine ⟨r, r, hr, le_refl _, by omega, ?_, ?_, by rw [hred]⟩
    · intro i
      rcases Nat.lt_or_ge r i with hi | hi
      · have hnone : item limit e s i = none := by
          apply item_of_lt
          · rw [← hr]
            exact ENat.natCast_lt_natCast.2 hi
          · exact fun _ => hle
        simp [hnone, hi]
      · obtain ⟨h, hlim⟩ := (le_reach_iff hr).1 hi
        rw [item_of_le h hlim]
        exact iff_of_true rfl hi
    · rw [item_of_le hn.ge hrl, hred]

/-- Behind an error, a value or nothing there is nothing. -/
theorem item_eq_none_of_lt (hij : i < j)
    (h : item limit e s i = none ∨ (∃ err, item limit e s i = some (.error err)) ∨
      ∃ v, v.isValue = true ∧ item limit e s i = some (.ok v)) :
    item limit e s j = none := by
  obtain ⟨r, last, hr, -, hlast, hsome, -, -⟩ := exists_last limit e s
  apply Option.not_isSome_iff_eq_none.1
  intro hj
  have hjl := (hsome j).1 hj
  have hi : i ≤ limit := by omega
  have hin : (i : ℕ∞) ≤ stepCount e s := by
    by_contra hc
    have hnone : item limit e s i = none :=
      item_of_lt (min_lt_iff.2 (.inl (not_le.1 hc))) (by omega)
    have hsi := (hsome i).2 (by omega)
    rw [hnone] at hsi
    cases hsi
  rw [item_of_le hin hi] at h
  have hsettled : isSettled (stateAfter e s i) = true := by
    rcases hx : stateAfter e s i with ⟨err | v, t⟩
    · rfl
    · rw [hx] at h
      rcases h with h | ⟨err, h⟩ | ⟨v', hv, h⟩
      · cases h
      · cases h
      · cases h
        exact hv
  have hjn : item limit e s j = none := by
    have hle := stepCount_le_iff.2 hsettled
    apply item_of_lt
    · exact min_lt_iff.2 (.inl (lt_of_le_of_lt hle (ENat.natCast_lt_natCast.2 hij)))
    · exact fun _ => le_trans hle (ENat.natCast_le_natCast.2 hi)
  rw [hjn] at hj
  cases hj

theorem getElem?_pull (k limit : Nat) (e : Expr) (s : Store) (hi : i < k) :
    (pull k (start limit e) s).1[i]? = some (item limit e s i) := by
  rw [(pull_start k limit e s).2]
  simp [hi]

/-- No more than two answers come for the start and the limit, and one for each step. -/
theorem none_mem_pull (e : Expr) (s : Store) (hk : limit + 3 ≤ k) :
    none ∈ (pull k (start limit e) s).1 := by
  rw [(pull_start k limit e s).2]
  refine List.mem_map.2 ⟨limit + 2, List.mem_range.2 (by omega), ?_⟩
  apply item_of_lt
  · exact lt_of_le_of_lt (min_le_right _ _) (ENat.natCast_lt_natCast.2 (by omega))
  · intro heq
    omega

/-- Once a request is answered by nothing, the trace has shown what `reduce` comes to. -/
theorem reduce_of_none_mem_pull (h : none ∈ (pull k (start limit e) s).1) :
    (pull k (start limit e) s).1.reduceOption.getLast? = some (reduce limit e s).1 ∧
      (pull k (start limit e) s).2 = (reduce limit e s).2 := by
  obtain ⟨r, last, hr, hle, -, hsome, hitem, hstore⟩ := exists_last limit e s
  rw [(pull_start k limit e s).2] at h ⊢
  obtain ⟨i, hik, hnone⟩ := List.mem_map.1 h
  have hi : last < i := by
    apply not_le.1
    intro hc
    have := (hsome i).2 hc
    rw [hnone] at this
    cases this
  obtain ⟨k, rfl⟩ : ∃ k', k = k' + 1 := ⟨k - 1, by have := List.mem_range.1 hik; omega⟩
  have hk : last ≤ k := by
    have := List.mem_range.1 hik
    omega
  have hcalls : calls (k + 1) (start limit e) s = r := by
    rw [calls_start _ hr]
    omega
  rw [getLast?_reduceOption hsome, Nat.min_eq_right hk, hitem, ← hstore, hcalls]
  exact ⟨rfl, rfl⟩

/-- A reduction that is watched for a while can be finished from the last state shown. -/
theorem reduce_of_pull
    (h : (pull k (start limit e) s).1.reduceOption.getLast? = some (.ok e')) :
    unnumbered (reduce (limit - calls k (start limit e) s) e' (pull k (start limit e) s).2) =
      unnumbered (reduce limit e s) := by
  obtain ⟨r, last, hr, hle, -, hsome, -, -⟩ := exists_last limit e s
  rw [(pull_start k limit e s).2] at h ⊢
  cases k with
  | zero => cases h
  | succ k =>
    rw [getLast?_reduceOption hsome] at h
    obtain ⟨hn, hlim, hstate⟩ := eq_stateAfter_of_item h
    have hreach : min k last ≤ r := (le_reach_iff hr).2 ⟨hn, hlim⟩
    have hcalls : calls (k + 1) (start limit e) s = min k last := by
      rw [calls_start _ hr]
      omega
    rw [hcalls, reduce, unnumbered_reduceWithin _ limit,
      ← reduceWithin_of_stateAfter (Prod.ext hstate rfl) hlim]
    rfl

end Trace

/-- For a sequence of `stepCount e s` steps: `reduce` gives its end where the limit allows it, and
else the error of the limit behind `limit` steps; asked `k` times, a trace answers with the states
in order, then with that error if the sequence goes on beyond the limit, then with nothing for
ever, and takes no step before it is needed; all its answers together end in what `reduce` gives. A
greater limit changes no other outcome, and a state that was shown can be reduced further in its
place. -/
theorem reduce_and_trace_follow_states (limit : Nat) (e : Expr) (s : Store) :
    (∀ i : Nat, stepCount e s = i → i ≤ limit →
      reduce limit e s = stateAfter e s i ∧ Unlimited (reduce limit e s).1) ∧
    (limit < stepCount e s → reduce limit e s =
      (.error (.evaluation (.stepLimit limit)), (stateAfter e s limit).2)) ∧
    (∀ k, let items := ((Trace.start limit e).pull k s).1
      let store := ((Trace.start limit e).pull k s).2
      let calls := (Trace.start limit e).calls k s
      (calls : ℕ∞) = min ((k - 1 : Nat) : ℕ∞) (min (stepCount e s) limit) ∧
      store = (stateAfter e s calls).2 ∧
      items.length = k ∧
      (∀ i < k,
        (i ≤ stepCount e s → i ≤ limit → items[i]? = some (some (stateAfter e s i).1)) ∧
        (i = limit + 1 → limit < stepCount e s →
          items[i]? = some (some (.error (.evaluation (.stepLimit limit))))) ∧
        (min (stepCount e s) limit < i → (i = limit + 1 → stepCount e s ≤ limit) →
          items[i]? = some none)) ∧
      (∀ i j, i < j → j < k →
        (items[i]? = some none ∨ (∃ err, items[i]? = some (some (.error err))) ∨
          ∃ v, v.isValue = true ∧ items[i]? = some (some (.ok v))) → items[j]? = some none) ∧
      (limit + 3 ≤ k → none ∈ items) ∧
      (none ∈ items →
        items.reduceOption.getLast? = some (reduce limit e s).1 ∧ store = (reduce limit e s).2) ∧
      (∀ e', items.reduceOption.getLast? = some (.ok e') →
        unnumbered (reduce (limit - calls) e' store) = unnumbered (reduce limit e s))) ∧
    (∀ limit', limit ≤ limit' → Unlimited (reduce limit e s).1 →
      reduce limit' e s = reduce limit e s) := by
  refine ⟨?_, reduce_of_lt_stepCount, ?_, fun limit' => reduce_of_le⟩
  · intro i hn hi
    rw [reduce_of_stepCount hn hi]
    exact ⟨rfl, unlimited_stateAfter e s i⟩
  · intro k
    obtain ⟨hcalls, hpull⟩ := Trace.pull_start k limit e s
    refine ⟨hcalls, by rw [hpull], by simp [hpull], ?_, ?_, Trace.none_mem_pull e s,
      Trace.reduce_of_none_mem_pull, fun e' => Trace.reduce_of_pull⟩
    · intro i hi
      rw [Trace.getElem?_pull k limit e s hi]
      refine ⟨fun hn hlim => by rw [Trace.item_of_le hn hlim], ?_,
        fun hlt hlast => by rw [Trace.item_of_lt hlt hlast]⟩
      rintro rfl hlt
      rw [Trace.item_limit hlt]
    · intro i j hij hj
      rw [Trace.getElem?_pull k limit e s hj, Trace.getElem?_pull k limit e s (hij.trans hj)]
      simp only [Option.some.injEq]
      exact Trace.item_eq_none_of_lt hij

end Stepwise
