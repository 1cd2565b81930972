import CgiFileStore.Json.Building

/-!
# Items that are filled in

What a parse function may do to the memory: the item it is given gets a value, for which new blocks
may be made, and everything else stays as it was. The single writes of the parser are of this kind,
they can be made one after the other, and an item of which a new child is filled in is filled in
itself.
-/

namespace CgiFileStore.Json

open CSem Heap Chain

variable {D : Type} {m0 m m' m1 : Mem (Stored D)} {p c : Addr} {l0 l l' z : Label D}
  {cs ds : List (Tree D)}

/-- From `m0` to `m` the item at `p`, of the label `l0` and without children, has become
`node p l cs`. What it has come to own is new, and but for the item nothing that was there before
has changed. -/
structure Grown (m0 m : Mem (Stored D)) (p : Addr) (l0 l : Label D) (cs : List (Tree D)) :
    Prop where
  item : p < m0.size
  body : Body m (.node p l cs)
  nodup : (Tree.node p l cs).blocks.Nodup
  own : ∀ a < m0.size, a ∈ l.blocks ↔ a ∈ l0.blocks
  below : ∀ a ∈ blocksOf cs, m0.size ≤ a
  new : ∀ a, m0.size ≤ a → (m.Live a ↔ a ∈ (Tree.node p l cs).blocks)
  core : ∀ a < m0.size, a ≠ p → core m a = core m0 a
  links : ∀ a < m0.size, linksOf m a = linksOf m0 a
  size : m0.size ≤ m.size

/-- An item without children, with the blocks of its label. -/
def Bare (m : Mem (Stored D)) (p : Addr) (l : Label D) : Prop :=
  Body m (.node p l []) ∧ (Tree.node p l []).blocks.Nodup

theorem Bare.nodup_label (h : Bare m p l) : l.blocks.Nodup :=
  (List.nodup_append'.mp (nodup_node.mp h.2).2.2).1

theorem Grown.bare (h : Grown m0 m p l0 l []) : Bare m p l := ⟨h.body, h.nodup⟩

theorem Bare.grown (h : Bare m p l) : Grown m m p l l [] where
  item := (h.1.live p (by simp)).lt
  body := h.1
  nodup := h.2
  own _ _ := Iff.rfl
  below := by simp
  new a ha :=
    iff_of_false (fun hlive => ha.not_gt hlive.lt) fun hmem => ha.not_gt (h.1.live a hmem).lt
  core _ _ _ := rfl
  links _ _ := rfl
  size := le_rfl

theorem Grown.old (h : Grown m0 m p l0 l cs) {a : Addr} (ha : a < m0.size) :
    a ∈ (Tree.node p l cs).blocks ↔ a = p ∨ a ∈ l0.blocks := by
  have hbelow : a ∉ blocksOf cs := fun hmem => (h.below a hmem).not_gt ha
  simp [hbelow, h.own a ha]

theorem Grown.live_old (h : Grown m0 m p l0 l cs) {a : Addr} (ha : a < m0.size) (hne : a ≠ p) :
    m.Live a ↔ m0.Live a := live_congr (h.core a ha hne)

theorem Grown.trans (h : Grown m0 m p l0 l []) (h' : Grown m m' p l l' cs) :
    Grown m0 m' p l0 l' cs where
  item := h.item
  body := h'.body
  nodup := h'.nodup
  own a ha := (h'.own a (ha.trans_le h.size)).trans (h.own a ha)
  below a ha := h.size.trans (h'.below a ha)
  new a ha := by
    obtain hlt | hge := lt_or_ge a m.size
    · have hne : a ≠ p := fun heq => ha.not_gt (heq ▸ h.item)
      rw [h'.live_old hlt hne, h.new a ha, h'.old hlt]
      simp
    · exact h'.new a hge
  core a ha hne := (h'.core a (ha.trans_le h.size) hne).trans (h.core a ha hne)
  links a ha := (h'.links a (ha.trans_le h.size)).trans (h.links a ha)
  size := h.size.trans h'.size

/-- The number of calls does not count. -/
theorem Grown.calls (h : Grown m0 m p l0 l cs) (n : Nat) :
    Grown m0 { m with calls := n } p l0 l cs where
  item := h.item
  body := h.body.congr (fun _ _ => rfl) fun _ _ => rfl
  nodup := h.nodup
  own := h.own
  below := h.below
  new := h.new
  core := h.core
  links := h.links
  size := h.size

/-- What a function that returns NULL leaves. -/
def Left (m : Mem (Stored D)) (p : Addr) (l : Label D) (m' : Mem (Stored D)) : Prop :=
  ∃ l' cs, Grown m m' p l l' cs

/-- What a function leaves that returns a pointer: an item that stands for the value. -/
def Filled {β : Type} (stands : Tree D → β → Prop) (m : Mem (Stored D)) (p : Addr) (l : Label D)
    (b : β × List Byte) (stop : List Byte) (m' : Mem (Stored D)) : Prop :=
  b.2 = stop ∧ ∃ l' cs, Grown m m' p l l' cs ∧ stands (.node p l' cs) b.1

theorem Bare.left (h : Bare m p l) : Left m p l m := ⟨l, [], h.grown⟩

theorem Grown.left_trans (h : Grown m0 m p l0 l []) (h' : Left m p l m') : Left m0 p l0 m' := by
  obtain ⟨l', cs, hgrown⟩ := h'
  exact ⟨l', cs, h.trans hgrown⟩

/-- A new child is filled in. -/
theorem Grown.nest (h : Grown m0 m p l0 l (cs ++ [.node c z []]))
    (hz : z.blocks = []) (h' : Grown m m' c z l' ds) :
    Grown m0 m' p l0 l (cs ++ [.node c l' ds]) := by
  have hblocks : (Tree.node p l (cs ++ [.node c l' ds])).blocks =
      (p :: (l.blocks ++ blocksOf cs)) ++ (Tree.node c l' ds).blocks := by
    simp [blocksOf_append]
  have hold : (Tree.node p l (cs ++ [.node c z []])).blocks =
      (p :: (l.blocks ++ blocksOf cs)) ++ [c] := by
    simp [blocksOf_append, hz]
  have hnodup := h.nodup
  have hlive := h.body.live
  rw [hold] at hnodup hlive
  obtain ⟨hfront, -, hcfront⟩ := List.nodup_append'.mp hnodup
  have hcnot : c ∉ p :: (l.blocks ++ blocksOf cs) := fun hmem => hcfront hmem (by simp)
  have hlt : ∀ a ∈ p :: (l.blocks ++ blocksOf cs), a < m.size := fun a ha =>
    (hlive a (List.mem_append_left _ ha)).lt
  have hne : ∀ a ∈ p :: (l.blocks ++ blocksOf cs), a ≠ c := fun a ha =>
    ne_of_mem_of_not_mem ha hcnot
  have hchild : ∀ a < m.size, a ∈ (Tree.node c l' ds).blocks ↔ a = c := fun a ha => by
    rw [h'.old ha]
    simp [hz]
  have hc : m0.size ≤ c := h.below c (mem_blocksOf.mpr ⟨.node c z [], by simp⟩)
  obtain ⟨hcell, htexts, hlinked, hbodies⟩ := Body.node_iff.mp h.body
  have hcore : ∀ a ∈ p :: (l.blocks ++ blocksOf cs), Json.core m' a = Json.core m a := fun a ha =>
    h'.core a (hlt a ha) (hne a ha)
  refine ⟨h.item, Body.node_iff.mpr ⟨?_, htexts.imp fun a s ha hs => ?_, ?_, fun t ht => ?_⟩, ?_,
    h.own, fun a ha => ?_, fun a ha => ?_, fun a ha hap => ?_, fun a ha => ?_, h.size.trans h'.size⟩
  · rw [hcore p (by simp), hcell]
    simp [addrs, Tree.addr]
  · rw [hcore a (by simp [ha]), hs]
  · have haddrs : addrs (cs ++ [.node c l' ds]) = addrs (cs ++ [.node c z []]) := by
      simp [Tree.addr]
    rw [haddrs]
    refine hlinked.congr fun a ha => h'.links a (h.body.live a ?_).lt
    rw [blocks_node]
    exact List.mem_cons_of_mem _ (List.mem_append_right _ ((addrs_sublist _).subset ha))
  · obtain ht | ht := List.mem_append.mp ht
    · have hmem : ∀ a ∈ t.blocks, a ∈ p :: (l.blocks ++ blocksOf cs) := fun a ha =>
        List.mem_cons_of_mem _ (List.mem_append_right _ ((blocks_sublist ht).subset ha))
      exact (hbodies t (List.mem_append_left _ ht)).congr (fun a ha => hcore a (hmem a ha))
        fun a ha => h'.links a (hlt a (hmem a (children_sublist.subset ha)))
    · obtain rfl := List.mem_singleton.mp ht
      exact h'.body
  · rw [hblocks]
    refine List.nodup_append'.mpr ⟨hfront, h'.nodup, fun a ha hmem => ?_⟩
    exact hne a ha ((hchild a (hlt a ha)).mp hmem)
  · rw [blocksOf_append, blocksOf_cons, blocksOf_nil, List.append_nil, List.mem_append] at ha
    obtain ha | ha := ha
    · exact h.below a (by simp [blocksOf_append, ha])
    · by_contra hlt'
      have hac := (hchild a ((not_le.mp hlt').trans_le h.size)).mp ha
      exact hlt' (hac ▸ hc)
  · rw [hblocks, List.mem_append]
    obtain hlt' | hge := lt_or_ge a m.size
    · rw [hchild a hlt']
      obtain rfl | hac := eq_or_ne a c
      · exact iff_of_true (h'.body.live a (by simp)) (.inr rfl)
      · rw [h'.live_old hlt' hac, h.new a ha, hold, List.mem_append, List.mem_singleton]
    · rw [h'.new a hge]
      exact ⟨.inr, fun hmem => hmem.resolve_left fun hmem => hge.not_gt (hlt a hmem)⟩
  · exact (h'.core a (ha.trans_le h.size) (ha.trans_le hc).ne).trans (h.core a ha hap)
  · exact (h'.links a (ha.trans_le h.size)).trans (h.links a ha)

/-! ## Single steps -/

/-- An assignment to fields of an item without children, after a block was made for it or not. -/
theorem Bare.assign (h : Bare m p l) {f : Cell D → Cell D}
    (hf : ∀ next prev, f { l.cell none with next, prev } = { l'.cell none with next, prev })
    (hsame : ∀ a < m.size, m1.get a = m.get a) (hsize : m.size ≤ m1.size)
    (hnodup : l'.blocks.Nodup) (hown : ∀ a < m.size, a ∈ l'.blocks ↔ a ∈ l.blocks)
    (hnew : ∀ a, m.size ≤ a → (m1.Live a ↔ a ∈ l'.blocks))
    (htexts : l'.Texts fun a s => m1.get a = some (.text s)) :
    ∃ m2, assign (some p) f m1 = .ok ((), m2) ∧ m2.calls = m1.calls ∧ Grown m m2 p l l' [] := by
  have hp : p < m.size := (h.1.live p (by simp)).lt
  have hpl' : p ∉ l'.blocks := fun hmem => (nodup_node.mp h.2).1 ((hown p hp).mp hmem)
  have hcell := (Body.node_iff.mp h.1).1
  obtain ⟨m2, hm2, hcell2, hlinks, hne, hsize2, hcalls⟩ :=
    assign_cell ((core_congr (hsame p hp)).trans hcell) hf
  refine ⟨m2, hm2, hcalls, hp, Body.node_iff.mpr ⟨hcell2, htexts.imp fun a s ha hs => ?_, trivial,
    by simp⟩, ?_, hown, by simp, fun a ha => ?_, fun a ha hap => ?_, fun a ha => ?_,
    hsize2 ▸ hsize⟩
  · exact core_of_text ((hne a (ne_of_mem_of_not_mem ha hpl')).trans hs)
  · simpa [hpl'] using hnodup
  · have hap : a ≠ p := (hp.trans_le ha).ne'
    rw [Mem.Live, hne a hap, ← Mem.Live, hnew a ha]
    simp [hap]
  · exact core_congr ((hne a hap).trans (hsame a ha))
  · obtain rfl | hap := eq_or_ne a p
    · exact hlinks.trans (linksOf_congr (hsame a ha))
    · exact linksOf_congr ((hne a hap).trans (hsame a ha))

/-- An assignment that leaves the item its blocks. -/
theorem Bare.assign_fields (h : Bare m p l) {f : Cell D → Cell D}
    (hf : ∀ next prev, f { l.cell none with next, prev } = { l'.cell none with next, prev })
    (hblocks : l'.blocks = l.blocks) (htexts : ∀ holds, l.Texts holds → l'.Texts holds) :
    ∃ m2, Json.assign (some p) f m = .ok ((), m2) ∧ m2.calls = m.calls ∧ Grown m m2 p l l' [] := by
  refine h.assign hf (fun _ _ => rfl) le_rfl (hblocks ▸ h.nodup_label)
    (fun a _ => by rw [hblocks]) (fun a ha => ?_)
    ((htexts _ (Body.node_iff.mp h.1).2.1).imp fun a s _ hs => get_text hs)
  refine iff_of_false (fun hlive => ha.not_gt hlive.lt) fun hmem => ha.not_gt ?_
  exact (h.1.live a (by simp [← hblocks, hmem])).lt

/-- An item gets a string, in a new block. -/
theorem Bare.assign_string (h : Bare m p l) (hnone : l.valuestring = none) (s₀ s : List Byte) :
    ∃ m1 m2, store (some m.size) (.text s) (m.push (.text s₀)) = .ok ((), m1) ∧
      Json.assign (some p)
        (fun c => { c with valuestring := some m.size, type := .cJSONString }) m1 = .ok ((), m2) ∧
      m1.calls = (m.push (.text s₀)).calls ∧ m2.calls = m1.calls ∧
      Grown m m2 p l { l with valuestring := some (m.size, s), type := .cJSONString } [] := by
  have hlive : (m.push (.text s₀)).Live m.size := by
    rw [Mem.Live, Mem.get_push_self]
    rfl
  have hget : ((m.push (.text s₀)).put m.size (some (.text s))).get =
      Function.update m.get m.size (some (.text s)) := by
    rw [Mem.get_put hlive, Mem.get_push, Function.update_idem]
  have hne : ∀ a ≠ m.size, ((m.push (.text s₀)).put m.size (some (.text s))).get a = m.get a :=
    fun a ha => by rw [hget, Function.update_of_ne ha]
  have hlt : ∀ a ∈ l.blocks, a < m.size := fun a ha => (h.1.live a (by simp [ha])).lt
  have hblocks : Label.blocks { l with valuestring := some (m.size, s), type := .cJSONString } =
      m.size :: l.blocks := by
    simp [Label.blocks, Label.valueBlocks, Label.nameBlocks, hnone]
  have htexts := (Body.node_iff.mp h.1).2.1
  obtain ⟨m2, hm2⟩ : ∃ m2, Json.assign (some p)
      (fun c => { c with valuestring := some m.size, type := .cJSONString })
        ((m.push (.text s₀)).put m.size (some (.text s))) = .ok ((), m2) ∧
      m2.calls = (m.push (.text s₀)).calls ∧
      Grown m m2 p l { l with valuestring := some (m.size, s), type := .cJSONString } [] := by
    refine h.assign (fun _ _ => rfl) (fun a ha => hne a ha.ne) (by simp)
      (hblocks ▸ List.nodup_cons.mpr ⟨fun hmem => (hlt _ hmem).ne rfl, h.nodup_label⟩)
      (fun a ha => by simp [hblocks, ha.ne]) (fun a ha => ?_) ⟨?_, fun a s' hs => ?_⟩
    · rw [hblocks, List.mem_cons]
      obtain rfl | hgt := eq_or_ne a m.size
      · refine iff_of_true ?_ (.inl rfl)
        rw [Mem.Live, hget, Function.update_self]
        rfl
      · rw [Mem.Live, hne a hgt, ← Mem.Live]
        exact iff_of_false (fun hlive => ha.not_gt hlive.lt)
          fun hmem => hmem.elim hgt fun hmem => ha.not_gt (hlt a hmem)
    · rintro v ⟨⟩
      rw [hget, Function.update_self]
    · have hs' := get_text (htexts.name a s' hs)
      rw [hne a (Mem.live_of_get hs').lt.ne, hs']
  obtain ⟨hm2, hcalls, hgrown⟩ := hm2
  exact ⟨_, m2, store_live hlive _, hm2, rfl, hcalls, hgrown⟩

/-- A new child is linked behind the others. -/
theorem Grown.link (h : Grown m0 m p l0 l cs) (hz : z.blocks = []) :
    ∃ m2, linkBehind p (addrs cs).getLast? m.size (m.push (.item (z.cell none))) = .ok ((), m2) ∧
      m2.calls = (m.push (.item (z.cell none))).calls ∧
      Grown m0 m2 p l0 l (cs ++ [.node m.size z []]) ∧ Bare m2 m.size z := by
  have hget : ∀ a ≠ m.size, (m.push (.item (z.cell none))).get a = m.get a := fun a ha =>
    Mem.get_push_of_ne ha _
  have hself := Mem.get_push_self (m := m) (.item (z.cell none))
  have hlt : ∀ a ∈ (Tree.node p l cs).blocks, a < m.size := fun a ha => (h.body.live a ha).lt
  have hbody : Body (m.push (.item (z.cell none))) (.node p l cs) :=
    h.body.congr (fun a ha => core_congr (hget a (hlt a ha).ne))
      fun a ha => linksOf_congr (hget a (hlt a (children_sublist.subset ha)).ne)
  have hchild := root_of_get hz hself
  have hblocks : (Tree.node p l (cs ++ [.node m.size z []])).blocks =
      (Tree.node p l cs).blocks ++ [m.size] := by
    simp [blocksOf_append, hz]
  have hnodup : (Tree.node p l (cs ++ [.node m.size z []])).blocks.Nodup := by
    rw [hblocks]
    refine List.nodup_append'.mpr ⟨h.nodup, by simp, fun a ha hmem => ?_⟩
    exact (hlt a ha).ne (List.mem_singleton.mp hmem)
  have hcsnodup := (children_sublist (t := .node p l (cs ++ [.node m.size z []]))).nodup hnodup
  have hp := (nodup_node.mp hnodup).2.1
  obtain ⟨m2, hm2, hlinked⟩ := linkBehind_spec hbody hchild ((addrs_sublist _).nodup hcsnodup)
  have hlinks : ∀ a, a ∉ addrs (cs ++ [.node m.size z []]) →
      linksOf m2 a = linksOf (m.push (.item (z.cell none))) a := by
    intro a ha
    refine hlinked.links a (fun hmem => ha ?_) ha
    rw [addrs_append]
    exact List.mem_append_left _ hmem
  have hkept : ∀ t ∈ cs ++ [.node m.size z []], Body (m.push (.item (z.cell none))) t →
      Body m2 t := fun t ht hbody => by
    refine hbody.congr (fun a ha => hlinked.core a ?_) fun a ha => hlinks a ?_
    · rintro rfl
      exact hp (mem_blocksOf.mpr ⟨t, ht, ha⟩)
    · exact notMem_addrs ht hcsnodup ha
  have hbodies := (Body.node_iff.mp hbody).2.2.2
  have hnew := hkept _ (by simp) hchild.body
  refine ⟨m2, hm2, hlinked.calls, ⟨h.item, Body.node_iff.mpr ⟨hlinked.cell, ?_, hlinked.linked,
    fun t ht => ?_⟩, hnodup, h.own, fun a ha => ?_, fun a ha => ?_, fun a ha hap => ?_,
    fun a ha => ?_, ?_⟩, hnew, by simp [hz]⟩
  · refine (Body.node_iff.mp hbody).2.1.imp fun a s ha hs => ?_
    rw [hlinked.core a, hs]
    rintro rfl
    exact (nodup_node.mp h.nodup).1 ha
  · obtain ht' | ht' := List.mem_append.mp ht
    · exact hkept t ht (hbodies t ht')
    · obtain rfl := List.mem_singleton.mp ht'
      exact hnew
  · rw [blocksOf_append, List.mem_append] at ha
    obtain ha | ha := ha
    · exact h.below a ha
    · obtain rfl : a = m.size := by simpa [hz] using ha
      exact h.size
  · have hap : a ≠ p := (h.item.trans_le ha).ne'
    rw [live_congr (hlinked.core a hap), hblocks, List.mem_append, List.mem_singleton]
    obtain rfl | hne := eq_or_ne a m.size
    · exact iff_of_true (Mem.live_of_get hself) (.inr rfl)
    · rw [Mem.Live, hget a hne, ← Mem.Live, h.new a ha]
      simp [hne]
  · rw [hlinked.core a hap, core_congr (hget a (ha.trans_le h.size).ne), h.core a ha hap]
  · rw [hlinks a, linksOf_congr (hget a (ha.trans_le h.size).ne), h.links a ha]
    intro hmem
    have hmem := (addrs_sublist _).subset hmem
    rw [blocksOf_append, List.mem_append] at hmem
    obtain hmem | hmem := hmem
    · exact (h.below a hmem).not_gt ha
    · obtain rfl : a = m.size := by simpa [hz] using hmem
      exact h.size.not_gt ha
  · rw [hlinked.size, Mem.size_push]
    exact h.size.trans (Nat.le_succ _)

/-! ## Roots -/

section

variable (d : Doubles) {m m' : Mem (Stored d.Double)} {l : Label d.Double}
  {cs roots : List (Tree d.Double)}

theorem bare_push (m : Mem (Stored d.Double)) :
    Bare (m.push (.item (zeroCell d))) m.size (blankLabel d .cJSONFalse) := by
  have hself : (m.push (.item (zeroCell d))).get m.size =
      some (.item ((blankLabel d .cJSONFalse).cell none)) := Mem.get_push_self _
  refine ⟨(root_of_get rfl hself).body, ?_⟩
  simp [Label.blocks, Label.valueBlocks, Label.nameBlocks, blankLabel]

/-- What has grown from a new item is a tree of its own. -/
theorem World.grown (h : World m roots)
    (hgrown : Grown (m.push (.item (zeroCell d))) m' m.size (blankLabel d .cJSONFalse) l cs) :
    World m' (.node m.size l cs :: roots) := by
  have hlt : ∀ a ∈ blocksOf roots, a < m.size := fun a ha => ((h.live a).mpr ha).lt
  have hsize : (m.push (.item (zeroCell d))).size = m.size + 1 := Mem.size_push
  have hnot : ∀ a < m.size, a ∉ (Tree.node m.size l cs).blocks := fun a ha hmem => by
    rw [hgrown.old (by rw [hsize]; exact ha.trans (Nat.lt_succ_self _))] at hmem
    exact hmem.elim ha.ne fun hmem => by cases hmem
  have hget : ∀ a < m.size, (m.push (.item (zeroCell d))).get a = m.get a := fun a ha =>
    Mem.get_push_of_ne ha.ne _
  have hcore : ∀ a < m.size, core m' a = core m a := fun a ha =>
    (hgrown.core a (hsize ▸ ha.trans (Nat.lt_succ_self _)) ha.ne).trans (core_congr (hget a ha))
  have hlinks : ∀ a < m.size, linksOf m' a = linksOf m a := fun a ha =>
    (hgrown.links a (by omega)).trans (linksOf_congr (hget a ha))
  refine ⟨?_, fun t ht => ?_, fun a => ?_⟩
  · rw [blocksOf_cons]
    exact List.nodup_append'.mpr ⟨hgrown.nodup, h.nodup, fun a ha hmem => hnot a (hlt a hmem) ha⟩
  · obtain rfl | ht := List.mem_cons.mp ht
    · exact ⟨hgrown.body,
        (hgrown.links m.size (by omega)).trans (linksOf_of_item (Mem.get_push_self _))⟩
    · have hmem : ∀ a ∈ t.blocks, a < m.size := fun a ha => hlt a ((blocks_sublist ht).subset ha)
      have hroot := h.root t ht
      refine ⟨hroot.body.congr (fun a ha => hcore a (hmem a ha)) fun a ha =>
        hlinks a (hmem a (children_sublist.subset ha)), ?_⟩
      rw [hlinks _ (hmem _ t.addr_mem_blocks), hroot.links]
  · rw [blocksOf_cons, List.mem_append]
    obtain hlt' | rfl | hgt := lt_trichotomy a m.size
    · rw [live_congr (hcore a hlt'), h.live a]
      exact ⟨.inr, fun hmem => hmem.resolve_left (hnot a hlt')⟩
    · exact iff_of_true (hgrown.body.live _ (by simp)) (.inl (by simp))
    · rw [hgrown.new a (hsize ▸ hgt)]
      exact ⟨.inl, fun hmem => hmem.resolve_right fun hmem => hgt.not_gt (hlt a hmem)⟩

end

end CgiFileStore.Json
