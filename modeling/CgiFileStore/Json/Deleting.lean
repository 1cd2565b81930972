import CgiFileStore.Json.Trees

/-!
# `cJSON_Delete`

What is deleted are the items of a list from some item on, each with everything below it. All their
blocks are freed, each one once, and nothing else is touched.
-/

namespace CgiFileStore.Json

open CSem Heap Chain

variable {D : Type} {m m' : Mem (Stored D)}

theorem loadCell_item {a : Addr} {c : Cell D} (h : m.get a = some (.item c)) :
    loadCell (some a) m = .ok (c, m) := bind_of_ok (load_live h)

/-- A tree stays where it is when other blocks are freed. -/
theorem Body.of_freed {t : Tree D} (ht : Body m t) {freed : List Addr} (h : Freed m freed m')
    (hdisjoint : t.blocks.Disjoint freed) : Body m' t := by
  have hget : ∀ a ∈ t.blocks, m'.get a = m.get a := fun a ha =>
    h.get_of_notMem fun hmem => hdisjoint ha hmem
  refine ht.congr (fun a ha => core_congr (hget a ha)) fun a ha => linksOf_congr (hget a ?_)
  obtain ⟨_, _, cs⟩ := t
  have ha' : a ∈ blocksOf cs := ha
  simp [ha']

/-- A name that is no constant is freed. -/
theorem free_name (l : Label D) (hlive : ∀ a ∈ l.nameBlocks, m.Live a) :
    ∃ m', onlyIf (!l.string.any NameText.isConst) (freeName (l.string.map NameText.ptr)) m =
      .ok ((), m') ∧ Freed m l.nameBlocks m' := by
  obtain ⟨_, _, _, _, name⟩ := l
  cases name with
  | none => exact ⟨m, rfl, .refl m⟩
  | some name =>
    cases name with
    | const s => exact ⟨m, rfl, .refl m⟩
    | block a s => exact free_live (hlive a (List.mem_singleton_self a))

theorem Body.node_iff {a : Addr} {l : Label D} {cs : List (Tree D)} :
    Body m (.node a l cs) ↔ core m a = some (.item (l.cell (addrs cs).head?)) ∧
      l.Texts (fun a s => core m a = some (.text s)) ∧ Linked (linksOf m) none (addrs cs) none ∧
        ∀ c ∈ cs, Body m c :=
  ⟨fun h => by cases h; exact ⟨‹_›, ‹_›, ‹_›, ‹_›⟩, fun ⟨h1, h2, h3, h4⟩ => .node h1 h2 h3 h4⟩

/-- The list from some item on is deleted, if there are as many rounds as it has blocks. -/
theorem deleteLoop_list (n : Nat) {ts : List (Tree D)} {before : Option Addr}
    (hbody : ∀ t ∈ ts, Body m t) (hlinked : Linked (linksOf m) before (addrs ts) none)
    (hnodup : (blocksOf ts).Nodup) (hn : (blocksOf ts).length ≤ n) :
    ∃ m', deleteLoop n (addrs ts).head? m = .ok ((), m') ∧ Freed m (blocksOf ts) m' := by
  induction n generalizing ts before m with
  | zero =>
    cases ts with
    | nil => exact ⟨m, rfl, .refl m⟩
    | cons t ts =>
      obtain ⟨_, _, _⟩ := t
      simp at hn
  | succ n ih =>
    cases ts with
    | nil => exact ⟨m, rfl, .refl m⟩
    | cons t ts =>
      obtain ⟨a, l, cs⟩ := t
      obtain ⟨hcell, htexts, hcs, hbodies⟩ := Body.node_iff.mp (hbody _ List.mem_cons_self)
      obtain ⟨hlinks, hrest⟩ := hlinked
      obtain ⟨hroot, hts, hroot_ts⟩ := List.nodup_append'.mp hnodup
      rw [blocks_node] at hroot hroot_ts
      obtain ⟨ha, hbelow⟩ := List.nodup_cons.mp hroot
      obtain ⟨hl, hcsnodup, hl_cs⟩ := List.nodup_append'.mp hbelow
      obtain ⟨-, -, hvalue_name⟩ := List.nodup_append'.mp hl
      have hlive : ∀ b ∈ l.blocks, m.Live b := fun b hb =>
        (hbody _ List.mem_cons_self).live b (by simp [hb])
      simp only [blocksOf_cons, blocks_node, List.length_append, List.length_cons] at hn
      -- the children, the strings, the item itself
      obtain ⟨m1, hm1, hf1⟩ := ih hbodies hcs hcsnodup (by omega)
      obtain ⟨m2, hm2, hf2⟩ := free_option (m := m1) (p := l.valuestring.map Prod.fst)
        fun b hb => by
          have hb : b ∈ l.blocks := List.mem_append_left _ (Option.mem_toList.mpr hb)
          exact (hf1.live_of_notMem fun hmem => hl_cs hb hmem).mpr (hlive b hb)
      have hf12 := hf1.trans hf2
      obtain ⟨m3, hm3, hf3⟩ := free_name (m := m2) l fun b hb => by
        have hb' : b ∈ l.blocks := List.mem_append_right _ hb
        refine (hf12.live_of_notMem fun hmem => ?_).mpr (hlive b hb')
        obtain hmem | hmem := List.mem_append.mp hmem
        · exact hl_cs hb' hmem
        · exact hvalue_name hmem hb
      have hf123 := hf12.trans hf3
      obtain ⟨m4, hm4, hf4⟩ := free_live (m := m3) (a := a) (by
        refine (hf123.live_of_notMem fun hmem => ha ?_).mpr (live_of_core hcell)
        simp only [List.mem_append] at hmem ⊢
        obtain (hmem | hmem) | hmem := hmem
        · exact .inr hmem
        · exact .inl (List.mem_append_left _ hmem)
        · exact .inl (List.mem_append_right _ hmem))
      have hf := (hf123.trans hf4).of_mem_iff (a :: (l.blocks ++ blocksOf cs)) fun b => by
        simp only [Label.blocks, Label.valueBlocks, List.mem_append, List.mem_cons,
          List.not_mem_nil, or_false]
        tauto
      -- the rest of the list
      have hbody4 : ∀ t ∈ ts, Body m4 t := fun t ht =>
        (hbody t (List.mem_cons_of_mem _ ht)).of_freed hf fun b hb hmem =>
          hroot_ts hmem (mem_blocksOf.mpr ⟨t, ht, hb⟩)
      have hrest4 := hrest.congr fun b hb => linksOf_congr (hf.get_of_notMem fun hmem =>
        hroot_ts hmem ((addrs_sublist ts).subset hb))
      obtain ⟨m5, hm5, hf5⟩ := ih hbody4 hrest4 hts (by omega)
      refine ⟨m5, ?_, ?_⟩
      · rw [addrs_cons, Tree.addr, List.head?_cons, deleteLoop]
        refine (bind_of_ok (loadCell_item (get_item hcell))).trans ?_
        refine (bind_of_ok hm1).trans ?_
        refine (bind_of_ok hm2).trans ?_
        refine (bind_of_ok hm3).trans ?_
        refine (bind_of_ok hm4).trans ?_
        rw [Tree.addr] at hlinks
        simpa [hlinks, addrs] using hm5
      · rw [blocksOf_cons, blocks_node]
        exact hf.trans hf5

/-- A tree of its own. -/
structure Root (m : Mem (Stored D)) (t : Tree D) : Prop where
  body : Body m t
  links : linksOf m t.addr = ⟨none, none⟩

/-- `cJSON_Delete` of a root frees the blocks of its tree. -/
theorem cJSONDelete_root {t : Tree D} (h : Root m t) (hnodup : t.blocks.Nodup) :
    ∃ m', cJSONDelete (some t.addr) m = .ok ((), m') ∧ Freed m t.blocks m' := by
  have hn := Mem.length_le_size h.body.live hnodup
  have hbody : ∀ u ∈ [t], Body m u := by simpa using h.body
  have hlinked : Linked (linksOf m) none (addrs [t]) none := ⟨h.links, trivial⟩
  obtain ⟨m', hm', hf⟩ := deleteLoop_list m.size hbody hlinked (by simpa using hnodup)
    (by simpa using hn)
  exact ⟨m', (bind_of_ok (x := rounds) rfl).trans hm', by simpa using hf⟩

end CgiFileStore.Json
