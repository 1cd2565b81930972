import Mathlib

/-!
# Memory blocks

A memory is the list of the blocks that were ever handed out, with their content as long as they
live. The address of a block is its place in the list, so no address is used twice. What loads,
stores or frees through a null pointer or a pointer to a dead block is stopped by a `HeapFault`.
Which calls of `malloc` are granted is given from outside, by the number of the call.
-/

namespace Heap

abbrev Addr := Nat

/-- What stops a program. A block may also be used as what it is not, and a list that goes round in
circles has no end. -/
inductive HeapFault
  | null
  | dangling
  | mistyped
  | endless
  deriving DecidableEq, Repr

structure Mem (V : Type) where
  blocks : List (Option V)
  calls : Nat

abbrev Prog (V α : Type) := StateT (Mem V) (Except HeapFault) α

variable {V α β : Type} {m : Mem V} {a b : Addr} {v : V}

namespace Mem

/-- The content of a block that lives. -/
def get (m : Mem V) (a : Addr) : Option V := m.blocks[a]?.join

/-- The address of the next block. -/
def size (m : Mem V) : Nat := m.blocks.length

def put (m : Mem V) (a : Addr) (v : Option V) : Mem V := { m with blocks := m.blocks.set a v }

def push (m : Mem V) (v : V) : Mem V where
  blocks := m.blocks ++ [some v]
  calls := m.calls + 1

def Live (m : Mem V) (a : Addr) : Prop := (m.get a).isSome

theorem Live.lt (h : m.Live a) : a < m.size := by
  by_contra hge
  simp [Live, get, List.getElem?_eq_none (not_lt.mp hge)] at h

theorem live_of_get (h : m.get a = some v) : m.Live a := by simp [Live, h]

theorem get_put (h : m.Live a) (v : Option V) : (m.put a v).get = Function.update m.get a v := by
  have hlt : a < m.blocks.length := h.lt
  ext1 b
  obtain rfl | hne := eq_or_ne b a
  · simp [get, put, hlt]
  · simp [get, put, hne, hne.symm]

theorem get_push (v : V) : (m.push v).get = Function.update m.get m.size (some v) := by
  ext1 b
  obtain hlt | rfl | hgt := lt_trichotomy b m.size
  · rw [Function.update_of_ne hlt.ne, get, get, push, List.getElem?_append_left hlt]
  · simp [get, push, size]
  · have hold : m.blocks[b]? = none := List.getElem?_eq_none hgt.le
    have hnew : (m.blocks ++ [some v])[b]? = none := by
      rw [List.getElem?_eq_none_iff, List.length_append]
      exact hgt
    rw [Function.update_of_ne hgt.ne', get, get, push, hold, hnew]

@[simp] theorem get_push_self (v : V) : (m.push v).get m.size = some v := by
  rw [get_push, Function.update_self]

theorem get_push_of_ne (h : a ≠ m.size) (v : V) : (m.push v).get a = m.get a := by
  rw [get_push, Function.update_of_ne h]

@[simp] theorem size_put (v : Option V) : (m.put a v).size = m.size := by simp [put, size]

@[simp] theorem calls_put (v : Option V) : (m.put a v).calls = m.calls := rfl

@[simp] theorem size_push : (m.push v).size = m.size + 1 := by simp [push, size]

@[simp] theorem calls_push : (m.push v).calls = m.calls + 1 := rfl

end Mem

/-! ## Primitive programs -/

def fail (e : HeapFault) : Prog V α := fun _ => .error e

/-- A new block with a content, if the call is granted. -/
def malloc (grants : Nat → Bool) (v : V) : Prog V (Option Addr) := fun m =>
  if grants m.calls then .ok (some m.size, m.push v)
  else .ok (none, { m with calls := m.calls + 1 })

def load : Option Addr → Prog V V
  | none => fail .null
  | some a => fun m =>
    match m.get a with
    | none => .error .dangling
    | some v => .ok (v, m)

def store (p : Option Addr) (v : V) : Prog V Unit := do
  let _ ← load p
  fun m => .ok ((), m.put (p.getD 0) (some v))

/-- `free` does nothing with a null pointer. -/
def free : Option Addr → Prog V Unit
  | none => pure ()
  | some a => do
    let _ ← load (some a)
    fun m => .ok ((), m.put a none)

/-- A program goes on where the first part of it ended. -/
theorem bind_of_ok {x : Prog V α} {f : α → Prog V β} {r : α} {m' : Mem V}
    (h : x m = .ok (r, m')) : (x >>= f) m = f r m' := by
  simp [bind, StateT.bind, h, Except.bind]

@[simp] theorem pure_run (r : α) : (pure r : Prog V α) m = .ok (r, m) := rfl

theorem malloc_granted {grants : Nat → Bool} (h : grants m.calls = true) :
    malloc grants v m = .ok (some m.size, m.push v) := if_pos h

theorem malloc_refused {grants : Nat → Bool} (h : ¬ grants m.calls = true) :
    malloc grants v m = .ok (none, { m with calls := m.calls + 1 }) := if_neg h

theorem load_live (h : m.get a = some v) : load (some a) m = .ok (v, m) := by
  simp [load, h]

theorem store_live (h : m.Live a) (v : V) :
    store (some a) v m = .ok ((), m.put a (some v)) := by
  obtain ⟨w, hw⟩ := Option.isSome_iff_exists.mp h
  exact bind_of_ok (load_live hw)

/-! ## Calls of malloc -/

/-- The calls from number `i` up to number `j` were granted. -/
def Granted (grants : Nat → Bool) (i j : Nat) : Prop :=
  i ≤ j ∧ ∀ k, i ≤ k → k < j → grants k = true

/-- Of the calls from number `i` up to number `j` the last was refused, and no other. -/
def Refused (grants : Nat → Bool) (i j : Nat) : Prop :=
  ∃ k, j = k + 1 ∧ Granted grants i k ∧ grants k = false

section

variable {grants : Nat → Bool} {i j k : Nat}

theorem Granted.refl (i : Nat) : Granted grants i i :=
  ⟨le_rfl, fun _ hk hlt => absurd hlt hk.not_gt⟩

theorem Granted.trans (h : Granted grants i j) (h' : Granted grants j k) : Granted grants i k := by
  refine ⟨h.1.trans h'.1, ?_⟩
  intro n hn hlt
  rcases lt_or_ge n j with hnj | hjn
  · exact h.2 n hn hnj
  · exact h'.2 n hjn hlt

theorem Granted.single (h : grants i = true) : Granted grants i (i + 1) := by
  refine ⟨i.le_succ, ?_⟩
  intro k hk hlt
  obtain rfl : k = i := by omega
  exact h

theorem Granted.refused (h : Granted grants i j) (h' : Refused grants j k) :
    Refused grants i k := by
  obtain ⟨n, hk, hgranted, hrefused⟩ := h'
  exact ⟨n, hk, h.trans hgranted, hrefused⟩

end

/-! ## Freeing -/

/-- The blocks that were freed on the way from one memory to another, in which nothing else is
different. -/
structure Freed (m : Mem V) (freed : List Addr) (m' : Mem V) : Prop where
  get : ∀ a, m'.get a = if a ∈ freed then none else m.get a
  size : m'.size = m.size
  calls : m'.calls = m.calls

theorem Freed.refl (m : Mem V) : Freed m [] m where
  get := by simp
  size := rfl
  calls := rfl

theorem Freed.trans {m' m'' : Mem V} {as bs : List Addr} (h : Freed m as m')
    (h' : Freed m' bs m'') : Freed m (as ++ bs) m'' where
  get a := by
    rw [h'.get, h.get]
    by_cases ha : a ∈ as <;> simp [ha]
  size := h'.size.trans h.size
  calls := h'.calls.trans h.calls

theorem Freed.get_of_notMem {m' : Mem V} {as : List Addr} (h : Freed m as m') (ha : a ∉ as) :
    m'.get a = m.get a := (h.get a).trans (if_neg ha)

theorem Freed.live_of_notMem {m' : Mem V} {as : List Addr} (h : Freed m as m') (ha : a ∉ as) :
    m'.Live a ↔ m.Live a := by
  rw [Mem.Live, Mem.Live, h.get_of_notMem ha]

/-- The order in which blocks are freed does not count. -/
theorem Freed.of_mem_iff {m' : Mem V} {as : List Addr} (h : Freed m as m') (bs : List Addr)
    (hmem : ∀ a, a ∈ as ↔ a ∈ bs) : Freed m bs m' where
  get a := by simp only [h.get, hmem]
  size := h.size
  calls := h.calls

theorem free_live (h : m.Live a) : ∃ m', free (some a) m = .ok ((), m') ∧ Freed m [a] m' := by
  obtain ⟨w, hw⟩ := Option.isSome_iff_exists.mp h
  refine ⟨m.put a none, bind_of_ok (load_live hw), ?_, by simp, rfl⟩
  intro b
  rw [Mem.get_put h, Function.update_apply]
  simp

/-- A pointer that is null or points to a live block can be freed. -/
theorem free_option {p : Option Addr} (h : ∀ a ∈ p, m.Live a) :
    ∃ m', free p m = .ok ((), m') ∧ Freed m p.toList m' := by
  cases p with
  | none => exact ⟨m, rfl, .refl m⟩
  | some a => exact free_live (h a rfl)

/-- Blocks that live at different addresses are no more than were handed out. -/
theorem Mem.length_le_size {as : List Addr} (h : ∀ a ∈ as, m.Live a) (hnodup : as.Nodup) :
    as.length ≤ m.size := by
  have hsubset : as ⊆ List.range m.size := fun a ha => List.mem_range.mpr (h a ha).lt
  simpa using (hnodup.subperm hsubset).length_le

end Heap
