import Mathlib

/-!
# A matcher that does not go back

A matcher passes a stream on and holds back what may be the start of a pattern. On a mismatch it
passes on what it has held back together with the element that does not match, which it does not
try again as the start of a match. So it can miss the pattern, but what it has passed on and what it
holds is always what it has read, and after an element that the pattern does not contain it holds
nothing.
-/

namespace Search

variable {α : Type*}

/-- What has been passed on, the number of elements held back, and whether the pattern has been
read. -/
structure Matcher (α : Type*) where
  passed : List α
  held : Nat
  closed : Bool
  deriving DecidableEq

namespace Matcher

def start : Matcher α where
  passed := []
  held := 0
  closed := false

variable [DecidableEq α] {d u : List α} {m : Matcher α} {x : α}

def step (d : List α) (m : Matcher α) (x : α) : Matcher α :=
  if m.closed then m
  else if d[m.held]? = some x then
    if m.held + 1 = d.length then { m with closed := true } else { m with held := m.held + 1 }
  else { m with passed := m.passed ++ d.take m.held ++ [x], held := 0 }

/-- The matcher behind a text. -/
def run (d : List α) (m : Matcher α) (u : List α) : Matcher α := u.foldl (step d) m

@[simp] theorem run_nil (d : List α) (m : Matcher α) : run d m [] = m := rfl

@[simp] theorem run_cons (d : List α) (m : Matcher α) (x : α) (u : List α) :
    run d m (x :: u) = run d (step d m x) u := rfl

theorem run_append (d : List α) (m : Matcher α) (u v : List α) :
    run d m (u ++ v) = run d (run d m u) v := List.foldl_append

theorem step_of_closed (h : m.closed = true) (x : α) : step d m x = m := if_pos h

theorem run_of_closed (h : m.closed = true) (u : List α) : run d m u = m := by
  induction u with
  | nil => rfl
  | cons x u ih => rw [run_cons, step_of_closed h, ih]

/-- Not closed, nothing more than a proper start of the pattern held, and `u` read. -/
structure Reads (d u : List α) (m : Matcher α) : Prop where
  opened : m.closed = false
  held_lt : m.held < d.length
  read : m.passed ++ d.take m.held = u

/-- The step reads on, or the pattern has been read. -/
theorem Reads.step (h : m.Reads d u) (x : α) :
    (m.step d x).Reads d (u ++ [x]) ∨ d <:+ u ++ [x] := by
  obtain ⟨hopened, hheld, rfl⟩ := h
  have hcons := List.take_succ_eq_append_getElem hheld
  rw [Matcher.step, if_neg (by simp [hopened])]
  split_ifs with hx hlast
  · obtain ⟨_, hget⟩ := List.getElem?_eq_some_iff.mp hx
    right
    rw [hget, hlast, List.take_length] at hcons
    exact ⟨m.passed, by rw [List.append_assoc, ← hcons]⟩
  · obtain ⟨_, hget⟩ := List.getElem?_eq_some_iff.mp hx
    rw [hget] at hcons
    exact .inl ⟨hopened, by dsimp only; omega, by dsimp only; rw [hcons, List.append_assoc]⟩
  · exact .inl ⟨hopened, by dsimp only; omega, by simp⟩

/-- A text without the pattern is read to its end. -/
theorem reads_run (hd : d ≠ []) (hu : ¬ d <:+: u) : (run d start u).Reads d u := by
  induction u using List.reverseRecOn with
  | nil => exact ⟨rfl, List.length_pos_iff.mpr hd, rfl⟩
  | append_singleton u x ih =>
    have hshorter : ¬ d <:+: u := fun h => hu (h.trans (List.prefix_append u [x]).isInfix)
    rw [run_append]
    rcases (ih hshorter).step x with hreads | hsuffix
    · exact hreads
    · exact absurd hsuffix.isInfix hu

/-- After an element that is not in the pattern nothing is held back. -/
theorem step_of_notMem (h : m.Reads d u) (hx : x ∉ d) :
    m.step d x = { passed := u ++ [x], held := 0, closed := false } := by
  obtain ⟨hopened, -, rfl⟩ := h
  have hne : d[m.held]? ≠ some x := fun h => hx (List.mem_of_getElem? h)
  rw [Matcher.step, if_neg (by simp [hopened]), if_neg hne, hopened]

theorem run_content (hd : d ≠ []) (hu : ¬ d <:+: u) (hx : x ∉ d) :
    run d start (u ++ [x]) = { passed := u ++ [x], held := 0, closed := false } := by
  rw [run_append, run_cons, run_nil, step_of_notMem (reads_run hd hu) hx]

/-- From there on the pattern is held back, whatever follows it. -/
theorem passed_run_pattern (w e t : List α) (n : Nat) {k : Nat} (hk : k < d.length)
    (he : d.drop k = e) :
    (run d { passed := w, held := k, closed := false } ((e ++ t).take n)).passed = w := by
  induction e generalizing k n with
  | nil =>
    have hlen := congrArg List.length he
    rw [List.length_drop, List.length_nil] at hlen
    omega
  | cons y e ih =>
    cases n with
    | zero => rfl
    | succ n =>
      have hget : d[k]? = some y := by
        rw [← List.head?_drop, he, List.head?_cons]
      rw [List.cons_append, List.take_succ_cons, run_cons, Matcher.step, if_neg Bool.false_ne_true,
        if_pos hget]
      dsimp only
      split_ifs with hlast
      · rw [run_of_closed rfl]
      · refine ih n (by omega) ?_
        rw [← List.tail_drop, he, List.tail_cons]

end Matcher

end Search
