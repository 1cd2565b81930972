import Mathlib

/-!
# Doubly linked lists

The links of the nodes are a function from addresses. `Linked` says that a list of addresses is
linked in both directions, as a part of a list or as a whole. The four ways to change such a list
are given by the writes that do it, where a write through a null pointer is no write.
-/

namespace Chain

variable {α : Type*}

@[ext] structure Links (α : Type*) where
  next : Option α
  prev : Option α

/-- The nodes are linked to each other, the first to `before` and the last to `behind`. -/
def Linked (links : α → Links α) : Option α → List α → Option α → Prop
  | _, [], _ => True
  | before, p :: ps, behind =>
    links p = ⟨ps.head?.or behind, before⟩ ∧ Linked links (some p) ps behind

variable {links links' : α → Links α} {before behind : Option α} {xs ys : List α} {c q : α}

@[simp] theorem linked_nil : Linked links before [] behind := trivial

@[simp] theorem linked_cons : Linked links before (q :: xs) behind ↔
    links q = ⟨xs.head?.or behind, before⟩ ∧ Linked links (some q) xs behind := Iff.rfl

theorem linked_append : Linked links before (xs ++ ys) behind ↔
    Linked links before xs (ys.head?.or behind) ∧
      Linked links (xs.getLast?.or before) ys behind := by
  induction xs generalizing before with
  | nil => simp
  | cons x xs ih =>
    have hlast : (x :: xs).getLast?.or before = xs.getLast?.or (some x) := by
      rw [List.getLast?_cons]
      cases xs.getLast? <;> rfl
    simp [ih, hlast, Option.or_assoc, and_assoc]

/-- Being linked is a matter of the links of the nodes alone. -/
theorem Linked.congr (h : Linked links before xs behind) (heq : ∀ p ∈ xs, links' p = links p) :
    Linked links' before xs behind := by
  induction xs generalizing before with
  | nil => trivial
  | cons x xs ih =>
    rw [List.forall_mem_cons] at heq
    exact ⟨heq.1.trans h.1, ih h.2 heq.2⟩

/-! ## Writes -/

variable [DecidableEq α]

/-- `p->next = n`, if there is a `p`. -/
def setNext (links : α → Links α) (p n : Option α) : α → Links α :=
  match p with
  | none => links
  | some p => Function.update links p { links p with next := n }

/-- `p->prev = n`, if there is a `p`. -/
def setPrev (links : α → Links α) (p n : Option α) : α → Links α :=
  match p with
  | none => links
  | some p => Function.update links p { links p with prev := n }

@[simp] theorem setNext_none (n : Option α) : setNext links none n = links := rfl

@[simp] theorem setPrev_none (n : Option α) : setPrev links none n = links := rfl

@[simp] theorem setNext_self (n : Option α) :
    setNext links (some q) n q = { links q with next := n } := by
  simp [setNext]

@[simp] theorem setPrev_self (n : Option α) :
    setPrev links (some q) n q = { links q with prev := n } := by
  simp [setPrev]

theorem setNext_of_ne {p n : Option α} (h : p ≠ some q) : setNext links p n q = links q := by
  cases p with
  | none => rfl
  | some p => exact Function.update_of_ne (by simpa [eq_comm] using h) _ _

theorem setPrev_of_ne {p n : Option α} (h : p ≠ some q) : setPrev links p n q = links q := by
  cases p with
  | none => rfl
  | some p => exact Function.update_of_ne (by simpa [eq_comm] using h) _ _

theorem Linked.setNext_of_notMem (h : Linked links before xs behind) {p : Option α}
    (hp : ∀ q ∈ p, q ∉ xs) (n : Option α) : Linked (setNext links p n) before xs behind :=
  h.congr fun q hq => setNext_of_ne fun heq => hp q heq hq

theorem Linked.setPrev_of_notMem (h : Linked links before xs behind) {p : Option α}
    (hp : ∀ q ∈ p, q ∉ xs) (n : Option α) : Linked (setPrev links p n) before xs behind :=
  h.congr fun q hq => setPrev_of_ne fun heq => hp q heq hq

/-- The last node can be linked to something else. -/
theorem Linked.setNext_getLast (h : Linked links before xs behind) (hnodup : xs.Nodup)
    (n : Option α) : Linked (setNext links xs.getLast? n) before xs n := by
  rcases List.eq_nil_or_concat xs with rfl | ⟨xs, x, rfl⟩
  · trivial
  · rw [List.concat_eq_append, linked_append] at h
    have hx : x ∉ xs := fun hx => (List.nodup_concat xs x).mp hnodup |>.1 hx
    simp only [List.concat_eq_append, List.getLast?_concat, linked_append]
    refine ⟨?_, ?_⟩
    · simpa using h.1.setNext_of_notMem (by simpa using hx) n
    · simpa using congrArg Links.prev h.2.1

/-- The first node can be linked to something else. -/
theorem Linked.setPrev_head (h : Linked links before xs behind) (hnodup : xs.Nodup)
    (p : Option α) : Linked (setPrev links xs.head? p) p xs behind := by
  cases xs with
  | nil => trivial
  | cons x xs =>
    have hx : x ∉ xs := (List.nodup_cons.mp hnodup).1
    refine ⟨?_, h.2.setPrev_of_notMem (by simpa using hx) p⟩
    simpa using congrArg Links.next h.1

/-! ## Changing a list -/

/-- Two parts are put together by the two writes at the place where they meet. -/
theorem Linked.join (hxs : Linked links none xs behind) (hys : Linked links before ys none)
    (hnodup : (xs ++ ys).Nodup) :
    Linked (setPrev (setNext links xs.getLast? ys.head?) ys.head? xs.getLast?) none (xs ++ ys)
      none := by
  obtain ⟨hx, hy, hdisjoint⟩ := List.nodup_append'.mp hnodup
  rw [linked_append]
  constructor
  · have h := hxs.setNext_getLast hx ys.head?
    simpa using h.setPrev_of_notMem
      (fun q hq hmem => hdisjoint hmem (List.mem_of_mem_head? hq)) xs.getLast?
  · have h := hys.setNext_of_notMem
      (fun q hq hmem => hdisjoint (List.mem_of_mem_getLast? hq) hmem) ys.head?
    simpa using h.setPrev_head hy xs.getLast?

/-- A node is put between two parts. -/
theorem Linked.between (hxs : Linked links none xs behind) (hys : Linked links before ys none)
    (hnodup : (xs ++ q :: ys).Nodup) :
    Linked (setNext (setPrev (Function.update links q ⟨ys.head?, xs.getLast?⟩) ys.head? (some q))
      xs.getLast? (some q)) none (xs ++ q :: ys) none := by
  obtain ⟨hx, hqys, hdisjoint⟩ := List.nodup_append'.mp hnodup
  obtain ⟨hq, hy⟩ := List.nodup_cons.mp hqys
  have hlast : ∀ p ∈ xs.getLast?, p ∉ q :: ys :=
    fun p hp hmem => hdisjoint (List.mem_of_mem_getLast? hp) hmem
  have hhead : ∀ p ∈ ys.head?, p ∈ ys := fun p hp => List.mem_of_mem_head? hp
  have hnew : ∀ zs : List α, q ∉ zs → ∀ p ∈ zs,
      Function.update links q ⟨ys.head?, xs.getLast?⟩ p = links p := by
    intro zs hzs p hp
    exact Function.update_of_ne (ne_of_mem_of_not_mem hp hzs) _ _
  rw [linked_append]
  refine ⟨?_, ?_, ?_⟩
  · have hqxs : q ∉ xs := fun hmem => hdisjoint hmem List.mem_cons_self
    have hfront := (hxs.congr (hnew xs hqxs)).setPrev_of_notMem
      (fun p hp hmem => hdisjoint hmem (List.mem_cons_of_mem _ (hhead p hp))) (some q)
    simpa using hfront.setNext_getLast hx (some q)
  · rw [setNext_of_ne (fun heq => hlast q heq List.mem_cons_self),
      setPrev_of_ne (fun heq => hq (hhead q heq))]
    simp
  · have hback := (hys.congr (hnew ys hq)).setPrev_head hy (some q)
    exact hback.setNext_of_notMem
      (fun p hp hmem => hlast p hp (List.mem_cons_of_mem _ hmem)) (some q)

/-- A node is put in front of another one. -/
theorem Linked.insert (h : Linked links none (xs ++ c :: ys) none)
    (hnodup : (xs ++ q :: c :: ys).Nodup) :
    Linked (setNext (setPrev (Function.update links q ⟨some c, xs.getLast?⟩) (some c) (some q))
      xs.getLast? (some q)) none (xs ++ q :: c :: ys) none :=
  (linked_append.mp h).1.between (linked_append.mp h).2 hnodup

/-- The links of a node that is out of the list do not count. -/
theorem Linked.update (h : Linked links before xs behind) (hc : c ∉ xs) (l : Links α) :
    Linked (Function.update links c l) before xs behind :=
  h.congr fun _ hp => Function.update_of_ne (ne_of_mem_of_not_mem hp hc) _ _

end Chain
