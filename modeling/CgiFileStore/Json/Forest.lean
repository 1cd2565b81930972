import CgiFileStore.Json.Deleting

/-!
# All items of a program

A program of cJSON holds some trees, and every live block belongs to one of them. A step that links
items differently changes the list of children of one item somewhere in these trees.
-/

namespace CgiFileStore.Json

open CSem Heap Chain

variable {D : Type} {m m' : Mem (Stored D)} {p : Addr} {l : Label D}
  {old new : List (Tree D)} {t : Tree D}

/-- The tree has an item at `p`, with the label and the children. -/
inductive Has (p : Addr) (l : Label D) (cs : List (Tree D)) : Tree D → Prop
  | here : Has p l cs (.node p l cs)
  | inside {a : Addr} {l' : Label D} {ds : List (Tree D)} {d : Tree D} (hd : d ∈ ds)
      (h : Has p l cs d) : Has p l cs (.node a l' ds)

mutual

/-- The tree with other children at `p`. -/
def Tree.subst (p : Addr) (new : List (Tree D)) : Tree D → Tree D
  | .node a l cs => .node a l (if a = p then new else substAll p new cs)

def substAll (p : Addr) (new : List (Tree D)) : List (Tree D) → List (Tree D)
  | [] => []
  | t :: ts => t.subst p new :: substAll p new ts

end

theorem substAll_eq_map (ts : List (Tree D)) : substAll p new ts = ts.map (Tree.subst p new) := by
  induction ts with
  | nil => rfl
  | cons t ts ih => rw [substAll, ih, List.map_cons]

@[simp] theorem addr_subst : (t.subst p new).addr = t.addr := by
  cases t
  rfl

@[simp] theorem addrs_substAll (ts : List (Tree D)) : addrs (substAll p new ts) = addrs ts := by
  simp [substAll_eq_map, addrs]

theorem blocks_sublist {ts : List (Tree D)} (ht : t ∈ ts) :
    t.blocks.Sublist (blocksOf ts) := by
  obtain ⟨front, back, rfl⟩ := List.append_of_mem ht
  rw [blocksOf_append, blocksOf_cons]
  exact (List.sublist_append_left _ _).trans (List.sublist_append_right _ _)

theorem children_sublist : (blocksOf t.children).Sublist t.blocks := by
  obtain ⟨a, l, cs⟩ := t
  rw [blocks_node]
  exact (List.sublist_append_right l.blocks _).cons a

theorem Has.sublist (h : Has p l old t) : (Tree.node p l old).blocks.Sublist t.blocks := by
  induction h with
  | here => exact .refl _
  | inside hd _ ih =>
    exact (ih.trans (blocks_sublist hd)).trans (children_sublist (t := .node _ _ _))

theorem Has.old_sublist (h : Has p l old t) : (blocksOf old).Sublist (blocksOf t.children) := by
  cases h with
  | here => exact .refl _
  | inside hd h => exact (children_sublist.trans h.sublist).trans (blocks_sublist hd)

theorem Has.mem_addr (h : Has p l old t) : p ∈ t.blocks := h.sublist.subset (by simp)

theorem Has.body (h : Has p l old t) (ht : Body m t) : Body m (.node p l old) := by
  induction h with
  | here => exact ht
  | inside hd _ ih => exact ih ((Body.node_iff.mp ht).2.2.2 _ hd)

theorem subst_of_notMem (h : p ∉ t.blocks) : t.subst p new = t := by
  induction t using Tree.induct with
  | node a l cs ih =>
    rw [blocks_node, List.mem_cons, List.mem_append, not_or, not_or] at h
    have hcs : cs.map (Tree.subst p new) = cs := by
      conv_rhs => rw [← List.map_id cs]
      exact List.map_congr_left fun c hc => ih c hc fun hmem =>
        h.2.2 (mem_blocksOf.mpr ⟨c, hc, hmem⟩)
    rw [Tree.subst, if_neg (Ne.symm h.1), substAll_eq_map, hcs]

theorem substAll_of_notMem {ts : List (Tree D)} (h : p ∉ blocksOf ts) :
    substAll p new ts = ts := by
  rw [substAll_eq_map]
  conv_rhs => rw [← List.map_id ts]
  exact List.map_congr_left fun t ht => subst_of_notMem fun hmem =>
    h (mem_blocksOf.mpr ⟨t, ht, hmem⟩)

theorem substAll_append (ts us : List (Tree D)) :
    substAll p new (ts ++ us) = substAll p new ts ++ substAll p new us := by
  simp [substAll_eq_map]

/-- In a list of trees without shared blocks the item at `p` is in one of them, and the others
do not change. -/
theorem exists_split {ts : List (Tree D)} (ht : t ∈ ts) (hnodup : (blocksOf ts).Nodup)
    (hp : p ∈ t.blocks) : ∃ front back, ts = front ++ t :: back ∧
      ∀ new, substAll p new ts = front ++ t.subst p new :: back := by
  obtain ⟨front, back, rfl⟩ := List.append_of_mem ht
  rw [blocksOf_append, blocksOf_cons] at hnodup
  obtain ⟨-, hback, hfront⟩ := List.nodup_append'.mp hnodup
  obtain ⟨-, -, hback⟩ := List.nodup_append'.mp hback
  refine ⟨front, back, rfl, fun new => ?_⟩
  rw [substAll_append, substAll, substAll_of_notMem fun hmem => hfront hmem (by simp [hp]),
    substAll_of_notMem fun hmem => hback hp hmem]

/-- Where the children are put in, their blocks are, and those of the old ones are not. -/
theorem Has.blocks_subst (h : Has p l old t) (new : List (Tree D)) (hnodup : t.blocks.Nodup) :
    (blocksOf old ++ (t.subst p new).blocks).Perm (blocksOf new ++ t.blocks) := by
  induction h with
  | here =>
    simp only [Tree.subst, if_pos, blocks_node, List.perm_iff_count, List.count_append,
      List.count_cons]
    intro a
    omega
  | @inside a l' ds d hd h ih =>
    rw [blocks_node] at hnodup
    obtain ⟨ha, hnodup⟩ := List.nodup_cons.mp hnodup
    have hds := (List.nodup_append'.mp hnodup).2.1
    have hne : a ≠ p := by
      rintro rfl
      exact ha (List.mem_append_right _ (mem_blocksOf.mpr ⟨d, hd, h.mem_addr⟩))
    obtain ⟨front, back, rfl, hsubst⟩ := exists_split hd hds h.mem_addr
    have hperm := ih ((List.nodup_append'.mp (blocksOf_append front _ ▸ hds)).2.1 |> fun h =>
      (List.nodup_append'.mp h).1)
    rw [Tree.subst, if_neg hne, hsubst]
    simp only [blocks_node, blocksOf_append, blocksOf_cons, List.perm_iff_count,
      List.count_append, List.count_cons] at hperm ⊢
    intro b
    have := hperm b
    omega

/-- The blocks of the other trees stay, those of the children are exchanged. -/
theorem blocksOf_substAll {ts : List (Tree D)} (ht : t ∈ ts) (h : Has p l old t)
    (new : List (Tree D)) (hnodup : (blocksOf ts).Nodup) :
    (blocksOf old ++ blocksOf (substAll p new ts)).Perm (blocksOf new ++ blocksOf ts) := by
  obtain ⟨front, back, rfl, hsubst⟩ := exists_split ht hnodup h.mem_addr
  rw [blocksOf_append, blocksOf_cons] at hnodup
  have hperm := h.blocks_subst new
    (List.nodup_append'.mp (List.nodup_append'.mp hnodup).2.1).1
  rw [hsubst]
  simp only [blocksOf_append, blocksOf_cons, List.perm_iff_count, List.count_append] at hperm ⊢
  intro b
  have := hperm b
  omega

/-! ## Changing the children of an item -/

/-- The list of children at `p` is another one, made by writing links and the pointer to its first
item. -/
structure Relinked (m m' : Mem (Stored D)) (p : Addr) (l : Label D) (old new : List (Tree D)) :
    Prop where
  core : ∀ a ≠ p, core m' a = core m a
  links : ∀ a, a ∉ addrs old → a ∉ addrs new → linksOf m' a = linksOf m a
  cell : Json.core m' p = some (.item (l.cell (addrs new).head?))
  linked : Linked (linksOf m') none (addrs new) none
  size : m'.size = m.size
  calls : m'.calls = m.calls

/-- What is below one of several trees is the root of none. -/
theorem notMem_addrs {ts : List (Tree D)} (ht : t ∈ ts) (hnodup : (blocksOf ts).Nodup) {a : Addr}
    (ha : a ∈ blocksOf t.children) : a ∉ addrs ts := by
  obtain ⟨front, back, rfl⟩ := List.append_of_mem ht
  have hat : a ∈ t.blocks := children_sublist.subset ha
  rw [blocksOf_append, blocksOf_cons] at hnodup
  obtain ⟨-, hback, hfront⟩ := List.nodup_append'.mp hnodup
  obtain ⟨hnode, -, hback⟩ := List.nodup_append'.mp hback
  rw [addrs_append, addrs_cons, List.mem_append, List.mem_cons, not_or, not_or]
  refine ⟨fun hmem => ?_, ?_, fun hmem => hback hat ((addrs_sublist back).subset hmem)⟩
  · exact hfront ((addrs_sublist front).subset hmem) (List.mem_append_left _ hat)
  · rintro rfl
    obtain ⟨a, l, cs⟩ := t
    rw [blocks_node] at hnode
    exact (List.nodup_cons.mp hnode).1 (List.mem_append_right _ ha)

/-- A tree stands in memory with the new children, if nothing above them has changed. -/
theorem Has.body_subst (h : Has p l old t) (ht : Body m t) (hnodup : t.blocks.Nodup)
    (hnew : Body m' (.node p l new)) (hcore : ∀ a ≠ p, core m' a = core m a)
    (hlinks : ∀ a ∈ t.blocks, a ∉ blocksOf old → linksOf m' a = linksOf m a) :
    Body m' (t.subst p new) := by
  induction h with
  | here => simpa [Tree.subst] using hnew
  | @inside a l' ds d hd h ih =>
    obtain ⟨hcell, htexts, hlinked, hbodies⟩ := Body.node_iff.mp ht
    rw [blocks_node] at hnodup
    obtain ⟨ha, hnodup⟩ := List.nodup_cons.mp hnodup
    obtain ⟨-, hds, hl⟩ := List.nodup_append'.mp hnodup
    have hp : p ∈ blocksOf ds := mem_blocksOf.mpr ⟨d, hd, h.mem_addr⟩
    have hne : a ≠ p := by
      rintro rfl
      exact ha (List.mem_append_right _ hp)
    have hblocks : ∀ e ∈ ds, ∀ b ∈ e.blocks, b ∈ (Tree.node a l' ds).blocks := by
      intro e he b hb
      rw [blocks_node]
      exact List.mem_cons_of_mem _ (List.mem_append_right _ (mem_blocksOf.mpr ⟨e, he, hb⟩))
    rw [Tree.subst, if_neg hne, Body.node_iff, addrs_substAll]
    refine ⟨(hcore a hne).trans hcell, htexts.imp fun b s hb hs => ?_, ?_, ?_⟩
    · rw [hcore b fun heq => hl hb (heq ▸ hp), hs]
    · refine hlinked.congr fun b hb => hlinks b ?_ fun hmem => ?_
      · rw [blocks_node]
        exact List.mem_cons_of_mem _ (List.mem_append_right _ ((addrs_sublist ds).subset hb))
      · exact notMem_addrs hd hds (h.old_sublist.subset hmem) hb
    · obtain ⟨front, back, rfl, hsubst⟩ := exists_split hd hds h.mem_addr
      rw [hsubst]
      rw [blocksOf_append, blocksOf_cons] at hds
      obtain ⟨-, hback, hfront⟩ := List.nodup_append'.mp hds
      obtain ⟨hd', -, hback⟩ := List.nodup_append'.mp hback
      have hold : ∀ b ∈ blocksOf old, b ∈ d.blocks := fun b hb =>
        children_sublist.subset (h.old_sublist.subset hb)
      have hother : ∀ e ∈ front ++ d :: back, (∀ b ∈ e.blocks, b ∉ d.blocks) → Body m' e := by
        intro e he hdisjoint
        refine (hbodies e he).congr (fun b hb => hcore b ?_) fun b hb => ?_
        · rintro rfl
          exact hdisjoint b hb h.mem_addr
        · have hbe := children_sublist.subset hb
          exact hlinks b (hblocks e he b hbe) fun hmem => hdisjoint b hbe (hold b hmem)
      intro e he
      rw [List.mem_append, List.mem_cons] at he
      rcases he with he | rfl | he
      · refine hother e (by simp [he]) fun b hb hbd => ?_
        exact hfront (mem_blocksOf.mpr ⟨e, he, hb⟩) (List.mem_append_left _ hbd)
      · exact ih (hbodies d (by simp)) hd' fun b hb => hlinks b (hblocks d (by simp) b hb)
      · refine hother e (by simp [he]) fun b hb hbd => ?_
        exact hback hbd (mem_blocksOf.mpr ⟨e, he, hb⟩)

/-! ## Programs and their trees -/

/-- The trees of a program. No block is in two of them, and every block that lives is in one. -/
structure World (m : Mem (Stored D)) (roots : List (Tree D)) : Prop where
  nodup : (blocksOf roots).Nodup
  root : ∀ t ∈ roots, Root m t
  live : ∀ a, m.Live a ↔ a ∈ blocksOf roots

/-- At the start there are no trees. -/
theorem World.empty (calls : Nat) : World ({ blocks := [], calls } : Mem (Stored D)) [] :=
  ⟨by simp, by simp, by simp [Mem.Live, Mem.get]⟩

variable {roots rest : List (Tree D)} (ins outs : List (Tree D)) {r : Tree D}

theorem Root.congr (h : Root m t) (hget : ∀ a ∈ t.blocks, m'.get a = m.get a) : Root m' t where
  body := h.body.congr (fun a ha => core_congr (hget a ha))
    fun a ha => linksOf_congr (hget a (children_sublist.subset ha))
  links := (linksOf_congr (hget _ t.addr_mem_blocks)).trans h.links

/-- The children of an item and roots that it is not in share no block, with each other and with
the item. -/
theorem World.moved_nodup (h : World m (ins ++ rest)) (hr : r ∈ rest) (hhas : Has p l old r) :
    (p :: (l.blocks ++ blocksOf (old ++ ins))).Nodup := by
  have hnodup := h.nodup
  rw [blocksOf_append] at hnodup
  obtain ⟨hins, hrest, hdisjoint⟩ := List.nodup_append'.mp hnodup
  have hnode : (Tree.node p l old).blocks.Sublist (blocksOf rest) :=
    hhas.sublist.trans (blocks_sublist hr)
  have hboth : ((Tree.node p l old).blocks ++ blocksOf ins).Nodup :=
    List.nodup_append'.mpr ⟨hnode.nodup hrest, hins, fun a ha hmem => hdisjoint hmem (hnode.subset ha)⟩
  simpa [blocksOf_append] using hboth

/-- A step that puts some trees into the children of an item and takes some out of them. -/
theorem World.relinked (h : World m (ins ++ rest)) (hr : r ∈ rest) (hhas : Has p l old r)
    (hperm : (old ++ ins).Perm (new ++ outs)) (hlinked : Relinked m m' p l old new)
    (houts : ∀ t ∈ outs, linksOf m' t.addr = ⟨none, none⟩) :
    World m' (outs ++ substAll p new rest) := by
  have hnodup := h.nodup
  rw [blocksOf_append] at hnodup
  obtain ⟨hins, hrest, hdisjoint⟩ := List.nodup_append'.mp hnodup
  have hrnodup := (blocks_sublist hr).nodup hrest
  have hrbody := (h.root r (List.mem_append_right _ hr)).body
  have hhasbody := hhas.body hrbody
  have hrmem : ∀ a ∈ r.blocks, a ∈ blocksOf rest := (blocks_sublist hr).subset
  have holdmem : ∀ a ∈ blocksOf old, a ∈ r.blocks := fun a ha =>
    children_sublist.subset (hhas.old_sublist.subset ha)
  have hpmem := hhas.mem_addr
  -- the trees that are linked or unlinked
  obtain ⟨hpnot, hlu⟩ := List.nodup_cons.mp (h.moved_nodup ins hr hhas)
  rw [List.mem_append, not_or] at hpnot
  obtain ⟨hpl, hp⟩ := hpnot
  have hu := (List.nodup_append'.mp hlu).2.1
  have hnewaddr : ∀ a ∈ addrs new, a ∈ addrs (old ++ ins) := fun a ha =>
    ((hperm.map Tree.addr).mem_iff).mpr (by
      rw [List.map_append]
      exact List.mem_append_left _ ha)
  have hmoved : ∀ t ∈ old ++ ins, Body m' t := by
    intro t ht
    have htbody : Body m t := by
      obtain ht | ht := List.mem_append.mp ht
      · exact (Body.node_iff.mp hhasbody).2.2.2 t ht
      · exact (h.root t (List.mem_append_left _ ht)).body
    refine htbody.congr (fun a ha => hlinked.core a ?_) fun a ha => ?_
    · rintro rfl
      exact hp (mem_blocksOf.mpr ⟨t, ht, ha⟩)
    · have hnot := notMem_addrs ht hu ha
      refine hlinked.links a (fun hmem => hnot ?_) fun hmem => hnot (hnewaddr a hmem)
      rw [addrs_append]
      exact List.mem_append_left _ hmem
  have hlinks : ∀ a ∈ blocksOf rest, a ∉ blocksOf old → linksOf m' a = linksOf m a := by
    intro a ha hold
    refine hlinked.links a (fun hmem => hold ((addrs_sublist old).subset hmem)) fun hmem => ?_
    have hmem := hnewaddr a hmem
    rw [addrs_append, List.mem_append] at hmem
    obtain hmem | hmem := hmem
    · exact hold ((addrs_sublist old).subset hmem)
    · exact hdisjoint ((addrs_sublist ins).subset hmem) ha
  have hnode : Body m' (.node p l new) := by
    obtain ⟨-, htexts, -, -⟩ := Body.node_iff.mp hhasbody
    refine Body.node_iff.mpr ⟨hlinked.cell, htexts.imp fun a s ha hs => ?_, hlinked.linked,
      fun t ht => hmoved t (hperm.mem_iff.mpr (List.mem_append_left _ ht))⟩
    rw [hlinked.core a (ne_of_mem_of_not_mem ha hpl), hs]
  -- the blocks
  have hblocks : (blocksOf (outs ++ substAll p new rest)).Perm (blocksOf (ins ++ rest)) := by
    have hmoved := hperm.flatMap_right Tree.blocks
    have hsubst := blocksOf_substAll hr hhas new hrest
    simp only [List.flatMap_append, ← blocksOf_eq_flatMap, List.perm_iff_count, blocksOf_append,
      List.count_append] at hmoved hsubst ⊢
    intro a
    have h1 := hmoved a
    have h2 := hsubst a
    omega
  refine ⟨hblocks.nodup_iff.mpr h.nodup, ?_, fun a => ?_⟩
  · intro t ht
    obtain ht | ht := List.mem_append.mp ht
    · exact ⟨hmoved t (hperm.mem_iff.mpr (List.mem_append_right _ ht)), houts t ht⟩
    · have hroot : ∀ u ∈ rest, linksOf m' u.addr = ⟨none, none⟩ := fun u hu => by
        have haddr : u.addr ∈ addrs rest := List.mem_map_of_mem hu
        rw [hlinks _ ((addrs_sublist rest).subset haddr) fun hmem =>
          notMem_addrs hr hrest (hhas.old_sublist.subset hmem) haddr]
        exact (h.root u (List.mem_append_right _ hu)).links
      have hother : ∀ u ∈ rest, (∀ a ∈ u.blocks, a ∉ r.blocks) → Root m' u := fun u hu hur => by
        refine ⟨(h.root u (List.mem_append_right _ hu)).body.congr (fun a ha => hlinked.core a ?_)
          fun a ha => ?_, hroot u hu⟩
        · rintro rfl
          exact hur a ha hpmem
        · have hau := children_sublist.subset ha
          exact hlinks a ((blocks_sublist hu).subset hau) fun hmem => hur a hau (holdmem a hmem)
      obtain ⟨front, back, rfl, hsubst⟩ := exists_split hr hrest hpmem
      rw [blocksOf_append, blocksOf_cons] at hrest
      obtain ⟨-, hback, hfront⟩ := List.nodup_append'.mp hrest
      obtain ⟨-, -, hback⟩ := List.nodup_append'.mp hback
      rw [hsubst, List.mem_append, List.mem_cons] at ht
      rcases ht with ht | rfl | ht
      · refine hother t (by simp [ht]) fun a ha hmem => ?_
        exact hfront ((blocks_sublist ht).subset ha) (List.mem_append_left _ hmem)
      · refine ⟨hhas.body_subst hrbody hrnodup hnode hlinked.core fun a ha => hlinks a (hrmem a ha),
          ?_⟩
        rw [addr_subst]
        exact hroot r hr
      · refine hother t (by simp [ht]) fun a ha hmem => ?_
        exact hback hmem ((blocks_sublist ht).subset ha)
  · rw [hblocks.mem_iff, ← h.live]
    by_cases hap : a = p
    · subst hap
      exact iff_of_true (live_of_core hlinked.cell) (hhasbody.live a (by simp))
    · exact live_congr (hlinked.core a hap)

end CgiFileStore.Json
