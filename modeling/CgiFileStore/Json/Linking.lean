import CgiFileStore.Json.Forest

/-!
# The functions that link and unlink items

What `cJSON_AddItemToArray`, `cJSON_InsertItemInArray`, `cJSON_DetachItemFromArray` and the linking
part of `cJSON_ReplaceItemInArray` write: links of the children, and the pointer to the first child.
-/

namespace CgiFileStore.Json

open CSem Heap Chain

variable {D : Type} {m m' : Mem (Stored D)} {p a c : Addr} {l : Label D} {n h : Option Addr}
  {links : Addr → Links Addr}

def IsItem (m : Mem (Stored D)) (a : Addr) : Prop := ∃ c, core m a = some (.item c)

theorem Body.isItem {t : Tree D} (h : Body m t) : IsItem m t.addr := by
  cases h with
  | node cell => exact ⟨_, cell⟩

/-! ## Single accesses -/

theorem field_item {α : Type} (h : IsItem m a) (f : Cell D → α) :
    ∃ c, core m a = some (.item c) ∧ field (some a) f m =
      .ok (f { c with next := (linksOf m a).next, prev := (linksOf m a).prev }, m) := by
  obtain ⟨c, hc⟩ := h
  exact ⟨c, hc, bind_of_ok (loadCell_item (get_item hc))⟩

theorem field_next (h : IsItem m a) : field (some a) (·.next) m = .ok ((linksOf m a).next, m) :=
  (field_item h _).choose_spec.2

theorem field_cell {α : Type} {c : Cell D} (h : core m a = some (.item c)) (f : Cell D → α)
    (hf : ∀ (c : Cell D) (n q : Option Addr), f { c with next := n, prev := q } = f c) :
    field (some a) f m = .ok (f c, m) := by
  rw [← hf c (linksOf m a).next (linksOf m a).prev]
  exact bind_of_ok (loadCell_item (get_item h))

/-- A write to an item, as the links and the rest of memory see it. -/
theorem assign_item {c : Cell D} (h : core m a = some (.item c)) (f : Cell D → Cell D) :
    ∃ m', assign (some a) f m = .ok ((), m') ∧
      m'.get = Function.update m.get a
        (some (.item (f { c with next := (linksOf m a).next, prev := (linksOf m a).prev }))) ∧
      m'.size = m.size ∧ m'.calls = m.calls := by
  have hlive := live_of_core h
  refine ⟨_, (bind_of_ok (loadCell_item (get_item h))).trans (store_live hlive _), ?_, by simp, rfl⟩
  rw [Mem.get_put hlive]

/-- A write to the fields of a label. -/
theorem assign_cell {l' : Label D} {child : Option Addr}
    (ha : core m a = some (.item (l.cell child))) {f : Cell D → Cell D}
    (hf : ∀ next prev, f { l.cell child with next, prev } = { l'.cell child with next, prev }) :
    ∃ m', assign (some a) f m = .ok ((), m') ∧ core m' a = some (.item (l'.cell child)) ∧
      linksOf m' a = linksOf m a ∧ (∀ b ≠ a, m'.get b = m.get b) ∧ m'.size = m.size ∧
        m'.calls = m.calls := by
  obtain ⟨m', hm, hget, hsize, hcalls⟩ := assign_item ha f
  rw [hf] at hget
  have hself := congrFun hget a
  rw [Function.update_self] at hself
  exact ⟨m', hm, core_of_item hself, linksOf_of_item hself,
    fun b hb => by rw [hget, Function.update_of_ne hb], hsize, hcalls⟩

/-- The memory after writes to links and to the pointer from `p` to its first child. -/
structure Rewired (m : Mem (Stored D)) (p : Addr) (l : Label D) (h : Option Addr)
    (links : Addr → Links Addr) (m' : Mem (Stored D)) : Prop where
  core : ∀ a ≠ p, core m' a = core m a
  cell : Json.core m' p = some (.item (l.cell h))
  links : linksOf m' = links
  size : m'.size = m.size
  calls : m'.calls = m.calls

namespace Rewired

theorem refl (hp : Json.core m p = some (.item (l.cell h))) : Rewired m p l h (linksOf m) m :=
  ⟨fun _ _ => rfl, hp, rfl, rfl, rfl⟩

theorem isItem (hw : Rewired m p l h links m') (ha : IsItem m a) : IsItem m' a := by
  by_cases hap : a = p
  · subst hap
    exact ⟨_, hw.cell⟩
  · rw [IsItem, hw.core a hap]
    exact ha

theorem field_next (hw : Rewired m p l h links m') (ha : IsItem m a) :
    field (some a) (·.next) m' = .ok ((links a).next, m') := by
  rw [Json.field_next (hw.isItem ha), hw.links]

theorem field_child (hw : Rewired m p l h links m') :
    field (some p) (·.child) m' = .ok (h, m') :=
  field_cell hw.cell _ fun _ _ _ => rfl

/-- A write to the links of an item. -/
theorem assign_links (hw : Rewired m p l h links m') (ha : IsItem m a)
    (f : Cell D → Cell D) (g : Links Addr → Links Addr)
    (hf : ∀ c : Cell D, unlinked (.item (f c)) = unlinked (.item c) ∧
      (⟨(f c).next, (f c).prev⟩ : Links Addr) = g ⟨c.next, c.prev⟩) :
    ∃ m'', assign (some a) f m' = .ok ((), m'') ∧
      Rewired m p l h (Function.update links a (g (links a))) m'' := by
  obtain ⟨c, hc⟩ := hw.isItem ha
  obtain ⟨m'', hm, hget, hsize, hcalls⟩ := assign_item hc f
  have hcore : Json.core m'' = Json.core m' := by
    ext1 b
    rw [Json.core, hget]
    by_cases hb : b = a
    · subst hb
      rw [Function.update_self, Option.map_some, (hf _).1, Json.core, get_item hc]
      rfl
    · rw [Function.update_of_ne hb, Json.core]
  refine ⟨m'', hm, fun b hb => (congrFun hcore b).trans (hw.core b hb),
    (congrFun hcore p).trans hw.cell, ?_, hsize.trans hw.size, hcalls.trans hw.calls⟩
  ext1 b
  rw [linksOf, hget]
  by_cases hb : b = a
  · subst hb
    simp [(hf _).2, hw.links]
  · rw [Function.update_of_ne hb, Function.update_of_ne hb, ← hw.links, linksOf]

theorem putNext (hw : Rewired m p l h links m') (ha : IsItem m a) (n : Option Addr) :
    ∃ m'', putNext (some a) n m' = .ok ((), m'') ∧
      Rewired m p l h (setNext links (some a) n) m'' :=
  hw.assign_links ha _ (fun k => { k with next := n }) fun _ => ⟨rfl, rfl⟩

theorem putPrev (hw : Rewired m p l h links m') (ha : IsItem m a) (n : Option Addr) :
    ∃ m'', putPrev (some a) n m' = .ok ((), m'') ∧
      Rewired m p l h (setPrev links (some a) n) m'' :=
  hw.assign_links ha _ (fun k => { k with prev := n }) fun _ => ⟨rfl, rfl⟩

/-- The pointer to the first child. -/
theorem putChild (hw : Rewired m p l h links m') (n : Option Addr) :
    ∃ m'', putChild (some p) n m' = .ok ((), m'') ∧ Rewired m p l n links m'' := by
  obtain ⟨m'', hm, hget, hsize, hcalls⟩ := assign_item hw.cell fun c => { c with child := n }
  refine ⟨m'', hm, fun b hb => ?_, ?_, ?_, hsize.trans hw.size, hcalls.trans hw.calls⟩
  · rw [Json.core, hget, Function.update_of_ne hb]
    exact hw.core b hb
  · rw [Json.core, hget, Function.update_self]
    rfl
  · ext1 b
    rw [linksOf, hget]
    by_cases hb : b = p
    · subst hb
      simp [← hw.links]
    · rw [Function.update_of_ne hb, ← hw.links, linksOf]

/-- The children at `p` have become another list. -/
theorem relinked {old new : List (Tree D)} (hw : Rewired m p l (addrs new).head? links m')
    (hlinks : ∀ a, a ∉ addrs old → a ∉ addrs new → links a = linksOf m a)
    (hlinked : Linked links none (addrs new) none) : Relinked m m' p l old new where
  core := hw.core
  links a hold hnew := (congrFun hw.links a).trans (hlinks a hold hnew)
  cell := hw.cell
  linked := hw.links ▸ hlinked
  size := hw.size
  calls := hw.calls

end Rewired

/-! ## Walking along the children -/

theorem nthItem_list {before : Option Addr} {as : List Addr}
    (hlinked : Linked (linksOf m) before as none) (hitem : ∀ a ∈ as, IsItem m a) (i : Nat) :
    nthItem i as.head? m = .ok (as[i]?, m) := by
  induction i generalizing as before with
  | zero => cases as <;> rfl
  | succ i ih =>
    cases as with
    | nil => rfl
    | cons a as =>
      obtain ⟨hlinks, hrest⟩ := hlinked
      rw [List.forall_mem_cons] at hitem
      rw [List.head?_cons, nthItem, bind_of_ok (field_next hitem.1), hlinks, Option.or_none,
        ih hrest hitem.2, List.getElem?_cons_succ]

theorem setLinks_of_notMem {q n : Option Addr} (hq : ∀ b ∈ q, a ≠ b) :
    setNext links q n a = links a ∧ setPrev links q n a = links a := by
  have hne : q ≠ some a := fun heq => hq a heq rfl
  exact ⟨setNext_of_ne hne, setPrev_of_ne hne⟩

section

variable {old front back : List (Tree D)} {t s : Tree D}

/-- The item is linked behind the last child, or as the first. -/
theorem linkBehind_spec (hp : Body m (.node p l old)) (ht : Root m t)
    (hnodup : (addrs (old ++ [t])).Nodup) :
    ∃ m', linkBehind p (addrs old).getLast? t.addr m = .ok ((), m') ∧
      Relinked m m' p l old (old ++ [t]) := by
  obtain ⟨hcell, -, hlinked, hbodies⟩ := Body.node_iff.mp hp
  have hw := Rewired.refl hcell
  have hitem : ∀ a ∈ addrs old, IsItem m a :=
    List.forall_mem_map.mpr fun u hu => (hbodies u hu).isItem
  rw [addrs_append] at hnodup
  cases hlast : (addrs old).getLast? with
  | none =>
    obtain rfl : old = [] := by simpa [addrs] using hlast
    obtain ⟨m1, hm1, hw1⟩ := hw.putChild (some t.addr)
    exact ⟨m1, hm1, Rewired.relinked hw1 (fun _ _ _ => rfl) ⟨ht.links, trivial⟩⟩
  | some z =>
    have hz := List.mem_of_mem_getLast? hlast
    obtain ⟨m1, hm1, hw1⟩ := hw.putNext (hitem z hz) (some t.addr)
    obtain ⟨m2, hm2, hw2⟩ := hw1.putPrev ht.body.isItem (some z)
    have hjoin : Linked (setPrev (setNext (linksOf m) (some z) (some t.addr)) (some t.addr) (some z))
        none (addrs old ++ [t.addr]) none := by
      have hback : Linked (linksOf m) none [t.addr] none := ⟨ht.links, trivial⟩
      simpa [hlast] using hlinked.join hback hnodup
    have hhead : (addrs old).head? = (addrs (old ++ [t])).head? := by
      cases old with
      | nil => cases hlast
      | cons u us => rfl
    refine ⟨m2, (bind_of_ok hm1).trans hm2, Rewired.relinked (hhead ▸ hw2) (fun a hold hnew => ?_)
      (by simpa using hjoin)⟩
    have hz' : ∀ b ∈ some z, a ≠ b := by
      rintro b ⟨⟩ rfl
      exact hold hz
    have ht' : ∀ b ∈ some t.addr, a ≠ b := by
      rintro b ⟨⟩ rfl
      exact hnew (by simp)
    rw [(setLinks_of_notMem ht').2, (setLinks_of_notMem hz').1]

/-- A child between its neighbours. -/
structure Between (m : Mem (Stored D)) (front back : List Addr) (a : Addr) : Prop where
  links : linksOf m a = ⟨back.head?, front.getLast?⟩
  item : IsItem m a
  front_item : ∀ b ∈ front.getLast?, IsItem m b
  back_item : ∀ b ∈ back.head?, IsItem m b
  front_ne : ∀ b ∈ front.getLast?, a ≠ b
  back_ne : ∀ b ∈ back.head?, a ≠ b

theorem Body.between (hp : Body m (.node p l (front ++ s :: back)))
    (hnodup : (addrs (front ++ s :: back)).Nodup) :
    Between m (addrs front) (addrs back) s.addr := by
  obtain ⟨-, -, hlinked, hbodies⟩ := Body.node_iff.mp hp
  have hitem : ∀ u ∈ front ++ s :: back, IsItem m u.addr := fun u hu => (hbodies u hu).isItem
  rw [addrs_append, addrs_cons] at hlinked hnodup
  rw [linked_append, linked_cons] at hlinked
  have hnot := (List.nodup_cons.mp (List.nodup_middle.mp hnodup)).1
  have hfront : ∀ b ∈ (addrs front).getLast?, ∃ u ∈ front, u.addr = b := fun b hb =>
    List.mem_map.mp (List.mem_of_mem_getLast? hb)
  have hback : ∀ b ∈ (addrs back).head?, ∃ u ∈ back, u.addr = b := fun b hb =>
    List.mem_map.mp (List.mem_of_mem_head? hb)
  refine ⟨by simpa using hlinked.2.1, hitem s (by simp), fun b hb => ?_, fun b hb => ?_,
    fun b hb heq => hnot ?_, fun b hb heq => hnot ?_⟩
  · obtain ⟨u, hu, rfl⟩ := hfront b hb
    exact hitem u (by simp [hu])
  · obtain ⟨u, hu, rfl⟩ := hback b hb
    exact hitem u (by simp [hu])
  · exact List.mem_append_left _ (heq ▸ List.mem_of_mem_getLast? hb)
  · exact List.mem_append_right _ (heq ▸ List.mem_of_mem_head? hb)

end

end CgiFileStore.Json
