import CgiFileStore.Json.Building

/-!
# The list functions on trees

What the functions that edit lists of children do to the trees of a program. Each one leaves a
`World`, with other children at the item it is called for.
-/

namespace CgiFileStore.Json

open CSem Heap Chain

variable {D : Type} {m m' : Mem (Stored D)} {a p : Addr} {l : Label D}
  {cs old roots rest : List (Tree D)} {t s r : Tree D}

/-! ## Finding a child by its name -/

/-- Whether `cJSON_strcasecmp` takes the name of the item for the string. -/
def Tree.isNamed (string : List Byte) (t : Tree D) : Bool :=
  t.label.string.any fun name => cJSONStrcasecmp name.text string = 0

theorem compareName_spec (h : Body m t) (string : List Byte) :
    ∃ z, compareName string (t.label.string.map NameText.ptr) m = .ok (z, m) ∧
      (z = 0 ↔ t.isNamed string = true) := by
  obtain ⟨a, l, cs⟩ := t
  have htexts := (Body.node_iff.mp h).2.1
  unfold Tree.isNamed
  cases hs : l.string with
  | none => exact ⟨1, by simp [Tree.label, hs, compareName], by simp [Tree.label, hs]⟩
  | some name =>
    refine ⟨cJSONStrcasecmp name.text string, ?_, by simp [Tree.label, hs]⟩
    cases name with
    | const c => simp [Tree.label, hs, compareName, NameText.ptr, NameText.text]
    | block b c =>
      have hload : loadText (some b) m = .ok (c, m) :=
        bind_of_ok (load_live (get_text (htexts.name b c hs)))
      simp only [Tree.label, hs, Option.map_some, NameText.ptr, compareName, NameText.text]
      exact bind_of_ok hload

theorem namedItem_list {before : Option Addr} (hlinked : Linked (linksOf m) before (addrs cs) none)
    (hbody : ∀ c ∈ cs, Body m c) (string : List Byte) {n : Nat} (hn : cs.length ≤ n) (i : Nat) :
    ∃ k, namedItem string n i (addrs cs).head? m =
      .ok ((k, (cs.find? (Tree.isNamed string)).map Tree.addr), m) ∧
        ∀ j, cs.findIdx? (Tree.isNamed string) = some j → k = i + j := by
  induction n generalizing cs before i with
  | zero =>
    obtain rfl : cs = [] := by simpa using hn
    exact ⟨i, rfl, by simp⟩
  | succ n ih =>
    cases cs with
    | nil => exact ⟨i, rfl, by simp⟩
    | cons c cs =>
      rw [List.forall_mem_cons] at hbody
      obtain ⟨hlinks, hrest⟩ := hlinked
      obtain ⟨z, hz, hnamed⟩ := compareName_spec hbody.1 string
      have hname : field (some c.addr) (·.string) m =
          .ok (c.label.string.map NameText.ptr, m) := by
        obtain ⟨b, l, ds⟩ := c
        exact field_cell (Body.node_iff.mp hbody.1).1 _ fun _ _ _ => rfl
      rw [addrs_cons, List.head?_cons, namedItem, bind_of_ok hname, bind_of_ok hz]
      by_cases hc : c.isNamed string
      · refine ⟨i, ?_, ?_⟩
        · rw [if_pos (hnamed.mpr hc), List.find?_cons_of_pos hc]
          rfl
        · simp [List.findIdx?_cons, hc]
      · obtain ⟨k, hk, hj⟩ := ih hrest hbody.2 (by simpa using hn) (i + 1)
        refine ⟨k, ?_, ?_⟩
        · rw [if_neg (hnamed.not.mpr hc), bind_of_ok (field_next hbody.1.isItem), hlinks,
            Option.or_none, List.find?_cons_of_neg hc]
          exact hk
        · intro j hfound
          rw [List.findIdx?_cons, if_neg hc] at hfound
          obtain ⟨j', hrest, rfl⟩ := Option.map_eq_some_iff.mp hfound
          rw [hj j' hrest]
          omega

/-! ## What the functions do to the trees -/

theorem Has.world_body (h : World m roots) (hr : r ∈ roots) (hhas : Has p l old r) :
    Body m (.node p l old) := hhas.body (h.root r hr).body

theorem addrs_nodup {ts : List (Tree D)} (h : (blocksOf ts).Nodup) : (addrs ts).Nodup :=
  (addrs_sublist ts).nodup h

theorem field_child (hp : Body m (.node p l old)) :
    field (some p) (·.child) m = .ok ((addrs old).head?, m) :=
  (Rewired.refl (Body.node_iff.mp hp).1).field_child

/-- The child that `cJSON_GetArrayItem` ends at. -/
theorem World.getArrayItem (h : World m roots) (hr : r ∈ roots) (hhas : Has p l old r)
    (item : Int) :
    Json.getArrayItem (some p) item m = .ok (old[item.toNat]?.map Tree.addr, m) := by
  have hbody := hhas.world_body h hr
  obtain ⟨-, -, hlinked, hbodies⟩ := Body.node_iff.mp hbody
  have hitem := List.forall_mem_map.mpr fun u hu => (hbodies u hu).isItem
  refine (bind_of_ok (field_child hbody)).trans ?_
  rw [nthItem_list hlinked hitem, addrs, List.getElem?_map]

/-- A root is deleted with all its blocks. -/
theorem World.deleted (h : World m (t :: rest)) :
    ∃ m', cJSONDelete (some t.addr) m = .ok ((), m') ∧ World m' rest ∧ m'.calls = m.calls := by
  have hnodup := h.nodup
  rw [blocksOf_cons] at hnodup
  obtain ⟨ht, hrest, hdisjoint⟩ := List.nodup_append'.mp hnodup
  obtain ⟨m', hm, hfreed⟩ := cJSONDelete_root (h.root t List.mem_cons_self) ht
  refine ⟨m', hm, ⟨hrest, fun u hu => ?_, fun a => ?_⟩, hfreed.calls⟩
  · refine (h.root u (List.mem_cons_of_mem t hu)).congr fun a ha => hfreed.get_of_notMem ?_
    exact fun hmem => hdisjoint hmem ((blocks_sublist hu).subset ha)
  · have hlive := h.live a
    rw [blocksOf_cons, List.mem_append] at hlive
    by_cases ha : a ∈ t.blocks
    · refine iff_of_false ?_ (hdisjoint ha)
      rw [Mem.Live, hfreed.get, if_pos ha]
      simp
    · rw [hfreed.live_of_notMem ha, hlive]
      simp [ha]

/-- The root with another name. -/
def Tree.renamed (name : Option NameText) : Tree D → Tree D
  | .node a l cs => .node a (l.named name) cs

@[simp] theorem addr_renamed (name : Option NameText) : (t.renamed name).addr = t.addr := by
  cases t
  rfl

section

variable (grants : Nat → Bool)

/-- The child that `cJSON_GetObjectItem` ends at. -/
theorem World.findItem (h : World m roots) (hr : r ∈ roots) (hhas : Has p l old r)
    (string : List Byte) :
    ∃ k, Json.findItem (some p) string m =
      .ok ((k, (old.find? (Tree.isNamed string)).map Tree.addr), m) ∧
        ∀ j, old.findIdx? (Tree.isNamed string) = some j → k = j := by
  have hbody := hhas.world_body h hr
  obtain ⟨-, -, hlinked, hbodies⟩ := Body.node_iff.mp hbody
  have hmoved := (List.nodup_append'.mp (List.nodup_cons.mp (h.moved_nodup [] hr hhas)).2).2.1
  rw [List.append_nil] at hmoved
  have hlive : ∀ a ∈ addrs old, m.Live a := List.forall_mem_map.mpr fun u hu =>
    (hbodies u hu).live _ u.addr_mem_blocks
  have hn := Mem.length_le_size hlive (addrs_nodup hmoved)
  obtain ⟨k, hk, hj⟩ := namedItem_list hlinked hbodies string (n := m.size)
    (by simpa [addrs] using hn) 0
  refine ⟨k, ?_, fun j hfound => by simpa using hj j hfound⟩
  refine (bind_of_ok (x := rounds) rfl).trans ?_
  rw [bind_of_ok (field_child hbody), hk]

end

end CgiFileStore.Json
