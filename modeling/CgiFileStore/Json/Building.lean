import CgiFileStore.Json.Linking

/-!
# Making and naming items

What a program holds after an item was made or got a name, and after an item was put into another
one. An allocation that is refused leaves an item without a name or without its string, or no item
at all.
-/

namespace CgiFileStore.Json

open CSem Heap Chain

variable {D : Type} {m m' : Mem (Stored D)} {a p : Addr} {l l' : Label D}
  {cs old roots rest : List (Tree D)} {t r : Tree D}

/-- The trees of a program do not depend on the number of calls. -/
theorem World.congr (h : World m roots) (hget : ∀ a, m'.get a = m.get a) : World m' roots where
  nodup := h.nodup
  root t ht := (h.root t ht).congr fun a _ => hget a
  live a := by
    rw [Mem.Live, hget]
    exact h.live a

theorem not_mem_of_not_live (h : World m roots) (ha : ¬ m.Live a) : a ∉ blocksOf roots :=
  fun hmem => ha ((h.live a).mpr hmem)

theorem texts_of_no_blocks {holds : Addr → List Byte → Prop} (hl : l.blocks = []) :
    l.Texts holds := by
  have htexts : l.Texts fun _ _ => True := ⟨fun _ _ => trivial, fun _ _ _ => trivial⟩
  exact htexts.imp fun a s ha => by simp [hl] at ha

/-- A block of an item without children and strings is a tree of its own. -/
theorem root_of_get (hl : l.blocks = []) (h : m.get a = some (.item (l.cell none))) :
    Root m (.node a l []) where
  body := Body.node_iff.mpr ⟨core_of_item h, texts_of_no_blocks hl, trivial, by simp⟩
  links := linksOf_of_item h

/-- A new block holds an item without children and strings. -/
theorem World.push (h : World m roots) (ha : ¬ m.Live a) (hl : l.blocks = [])
    (hget : m'.get = Function.update m.get a (some (.item (l.cell none)))) :
    World m' (.node a l [] :: roots) := by
  have hmem := not_mem_of_not_live h ha
  have hself : m'.get a = some (.item (l.cell none)) := by rw [hget, Function.update_self]
  have hne : ∀ b ≠ a, m'.get b = m.get b := fun b hb => by rw [hget, Function.update_of_ne hb]
  refine ⟨?_, ?_, fun b => ?_⟩
  · simpa [hl] using ⟨hmem, h.nodup⟩
  · intro t ht
    obtain rfl | ht := List.mem_cons.mp ht
    · exact root_of_get hl hself
    · refine (h.root t ht).congr fun b hb => hne b ?_
      exact ne_of_mem_of_not_mem ((blocks_sublist ht).subset hb) hmem
  · by_cases hb : b = a
    · subst hb
      exact iff_of_true (Mem.live_of_get hself) (by simp)
    · have hlive : m'.Live b ↔ m.Live b := by rw [Mem.Live, Mem.Live, hne b hb]
      rw [hlive, h.live b]
      simp [hb, hl]

section

variable (d : Doubles) (grants : Nat → Bool)

/-- What `cJSON_strdup` has done. -/
def Copied (m m' : Mem (Stored D)) (s : List Byte) (copy : Option Addr) : Prop :=
  copy = none ∧ m'.get = m.get ∨
    copy = some m.size ∧ m'.get = Function.update m.get m.size (some (.text s))

theorem Copied.fresh {m0 m1 : Mem (Stored D)} {s : List Byte} {copy : Option Addr}
    (h : Copied m0 m1 s copy) (hsize : m0.size = m.size) : ∀ b ∈ copy, ¬ m.Live b := by
  intro b hb hlive
  obtain ⟨rfl, -⟩ | ⟨rfl, -⟩ := h
  · cases hb
  · cases hb
    exact lt_irrefl _ (hsize ▸ hlive.lt)

/-- The fields of an item that was just made. -/
def blankLabel (type : ItemType) : Label d.Double where
  type := type
  valuestring := none
  valueint := 0
  valuedouble := d.ofInt 0
  string := none

end

/-! ## Names -/

/-- The label with another name. -/
def Label.named (l : Label D) (name : Option NameText) : Label D := { l with string := name }

variable (grants : Nat → Bool)

end CgiFileStore.Json
