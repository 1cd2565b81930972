import CgiFileStore.Json.Cells

/-!
# The trees that cells stand for

A tree is given with the addresses of its blocks. `Body` says that it stands in memory at these
addresses: every cell has the fields of its label, points to its first child, and its children are
linked to each other. Changes of a list of children are changes of links, so the memory is looked
at as links and as what is left of it.
-/

namespace CgiFileStore.Json

open CSem Heap Chain

variable {D : Type}

/-- A name, with the block it is in. -/
inductive NameText
  | block (a : Addr) (s : List Byte)
  | const (s : List Byte)

namespace NameText

def ptr : NameText → NamePtr
  | block a _ => .block a
  | const s => .const s

def text : NameText → List Byte
  | block _ s => s
  | const s => s

def blocks : NameText → List Addr
  | block a _ => [a]
  | const _ => []

def isConst : NameText → Bool
  | block _ _ => false
  | const _ => true

end NameText

/-- The fields of an item but for the links, and the strings it owns. A name is flagged as constant
exactly when it is. -/
structure Label (D : Type) where
  type : ItemType
  valuestring : Option (Addr × List Byte)
  valueint : Int
  valuedouble : D
  string : Option NameText

namespace Label

/-- The cell of an item that is linked to nothing. -/
def cell (l : Label D) (child : Option Addr) : Cell D where
  next := none
  prev := none
  child := child
  type := l.type
  isReference := false
  stringIsConst := l.string.any NameText.isConst
  valuestring := l.valuestring.map Prod.fst
  valueint := l.valueint
  valuedouble := l.valuedouble
  string := l.string.map NameText.ptr

/-- The block of the name. -/
def nameBlocks (l : Label D) : List Addr := l.string.elim [] NameText.blocks

/-- The block of the string. -/
def valueBlocks (l : Label D) : List Addr := (l.valuestring.map Prod.fst).toList

def blocks (l : Label D) : List Addr := l.valueBlocks ++ l.nameBlocks

/-- The strings are in memory. -/
structure Texts (l : Label D) (holds : Addr → List Byte → Prop) : Prop where
  value : ∀ v ∈ l.valuestring, holds v.1 v.2
  name : ∀ a s, l.string = some (.block a s) → holds a s

theorem Texts.of_mem {l : Label D} {holds : Addr → List Byte → Prop} (h : l.Texts holds)
    {a : Addr} (ha : a ∈ l.blocks) : ∃ s, holds a s := by
  obtain ha | ha := List.mem_append.mp ha
  · obtain ⟨v, hv⟩ : ∃ v, l.valuestring = some (a, v) := by simpa [valueBlocks] using ha
    exact ⟨v, h.value _ hv⟩
  · cases hs : l.string with
    | none => simp [nameBlocks, hs] at ha
    | some name =>
      cases name with
      | const s => simp [nameBlocks, hs, NameText.blocks] at ha
      | block b s =>
        obtain rfl : a = b := by simpa [nameBlocks, hs, NameText.blocks] using ha
        exact ⟨s, h.name a s hs⟩

theorem Texts.imp {l : Label D} {holds holds' : Addr → List Byte → Prop} (h : l.Texts holds)
    (himp : ∀ a s, a ∈ l.blocks → holds a s → holds' a s) : l.Texts holds' where
  value v hv := himp _ _ (List.mem_append_left _ (by simpa [valueBlocks] using ⟨v.2, hv⟩))
    (h.value v hv)
  name a s hs := himp _ _ (List.mem_append_right _ (by simp [nameBlocks, hs, NameText.blocks]))
    (h.name a s hs)

end Label

/-- An item with everything below it. -/
inductive Tree (D : Type)
  | node (addr : Addr) (label : Label D) (children : List (Tree D))

namespace Tree

def addr : Tree D → Addr
  | node a _ _ => a

def label : Tree D → Label D
  | node _ l _ => l

def children : Tree D → List (Tree D)
  | node _ _ cs => cs

/-- A property that items have if their children have it. -/
theorem induct {motive : Tree D → Prop}
    (node : ∀ a l cs, (∀ c ∈ cs, motive c) → motive (.node a l cs)) (t : Tree D) : motive t :=
  @Tree.rec D motive (fun cs => ∀ c ∈ cs, motive c) node (by simp)
    (fun _ _ h hs => List.forall_mem_cons.mpr ⟨h, hs⟩) t

end Tree

mutual

/-- All blocks of a tree. -/
def Tree.blocks : Tree D → List Addr
  | .node a l cs => a :: (l.blocks ++ blocksOf cs)

def blocksOf : List (Tree D) → List Addr
  | [] => []
  | t :: ts => t.blocks ++ blocksOf ts

end

def addrs (ts : List (Tree D)) : List Addr := ts.map Tree.addr

@[simp] theorem blocksOf_nil : blocksOf ([] : List (Tree D)) = [] := rfl

@[simp] theorem blocksOf_cons (t : Tree D) (ts : List (Tree D)) :
    blocksOf (t :: ts) = t.blocks ++ blocksOf ts := rfl

theorem blocksOf_eq_flatMap (ts : List (Tree D)) : blocksOf ts = ts.flatMap Tree.blocks := by
  induction ts with
  | nil => rfl
  | cons t ts ih => rw [blocksOf_cons, ih, List.flatMap_cons]

theorem blocksOf_append (ts us : List (Tree D)) :
    blocksOf (ts ++ us) = blocksOf ts ++ blocksOf us := by
  simp [blocksOf_eq_flatMap]

theorem mem_blocksOf {ts : List (Tree D)} {a : Addr} :
    a ∈ blocksOf ts ↔ ∃ t ∈ ts, a ∈ t.blocks := by
  simp [blocksOf_eq_flatMap]

@[simp] theorem addrs_nil : addrs ([] : List (Tree D)) = [] := rfl

@[simp] theorem addrs_cons (t : Tree D) (ts : List (Tree D)) :
    addrs (t :: ts) = t.addr :: addrs ts := rfl

@[simp] theorem addrs_append (ts us : List (Tree D)) : addrs (ts ++ us) = addrs ts ++ addrs us :=
  List.map_append

@[simp] theorem blocks_node (a : Addr) (l : Label D) (cs : List (Tree D)) :
    (Tree.node a l cs).blocks = a :: (l.blocks ++ blocksOf cs) := by
  rw [Tree.blocks]

theorem nodup_node {a : Addr} {l : Label D} {cs : List (Tree D)} :
    (Tree.node a l cs).blocks.Nodup ↔
      a ∉ l.blocks ∧ a ∉ blocksOf cs ∧ (l.blocks ++ blocksOf cs).Nodup := by
  rw [blocks_node, List.nodup_cons, List.mem_append, not_or, and_assoc]

theorem Tree.addr_mem_blocks (t : Tree D) : t.addr ∈ t.blocks := by
  cases t
  simp [Tree.addr]

theorem addrs_sublist (ts : List (Tree D)) : (addrs ts).Sublist (blocksOf ts) := by
  induction ts with
  | nil => simp
  | cons t ts ih =>
    obtain ⟨a, l, cs⟩ := t
    simp only [addrs_cons, Tree.addr, blocksOf_cons, blocks_node, List.cons_append]
    exact (ih.trans (List.sublist_append_right _ _)).cons_cons a

/-! ## Links and the rest of memory -/

def unlinked : Stored D → Stored D
  | .item c => .item { c with next := none, prev := none }
  | .text s => .text s

/-- The memory without the links. -/
def core (m : Mem (Stored D)) (a : Addr) : Option (Stored D) := (m.get a).map unlinked

def linksOf (m : Mem (Stored D)) (a : Addr) : Links Addr :=
  match m.get a with
  | some (.item c) => ⟨c.next, c.prev⟩
  | _ => ⟨none, none⟩

variable {m m' : Mem (Stored D)}

theorem core_congr {a : Addr} (h : m'.get a = m.get a) : core m' a = core m a := by
  rw [core, core, h]

theorem linksOf_congr {a : Addr} (h : m'.get a = m.get a) : linksOf m' a = linksOf m a := by
  rw [linksOf, linksOf, h]

theorem core_of_item {a : Addr} {c : Cell D} (h : m.get a = some (.item c)) :
    core m a = some (.item { c with next := none, prev := none }) := by
  rw [core, h]
  rfl

theorem core_of_text {a : Addr} {s : List Byte} (h : m.get a = some (.text s)) :
    core m a = some (.text s) := by
  rw [core, h]
  rfl

theorem linksOf_of_item {a : Addr} {c : Cell D} (h : m.get a = some (.item c)) :
    linksOf m a = ⟨c.next, c.prev⟩ := by
  rw [linksOf, h]

theorem live_of_core {a : Addr} {v : Stored D} (h : core m a = some v) : m.Live a := by
  obtain ⟨w, hw, -⟩ := Option.map_eq_some_iff.mp h
  exact Mem.live_of_get hw

theorem live_congr {a : Addr} (h : core m' a = core m a) : m'.Live a ↔ m.Live a := by
  have heq := congrArg Option.isSome h
  simp only [core, Option.isSome_map] at heq
  rw [Mem.Live, Mem.Live, heq]

/-- The cell of an item, as its fields and its links say. -/
theorem get_item {a : Addr} {c : Cell D} (h : core m a = some (.item c)) :
    m.get a = some (.item { c with next := (linksOf m a).next, prev := (linksOf m a).prev }) := by
  obtain ⟨v, hv, hc⟩ := Option.map_eq_some_iff.mp h
  cases v with
  | text s => simp [unlinked] at hc
  | item w =>
    simp only [unlinked, Stored.item.injEq] at hc
    subst hc
    simp [linksOf, hv]

theorem get_text {a : Addr} {s : List Byte} (h : core m a = some (.text s)) :
    m.get a = some (.text s) := by
  obtain ⟨v, hv, hs⟩ := Option.map_eq_some_iff.mp h
  cases v with
  | text t =>
    cases hs
    exact hv
  | item w => simp [unlinked] at hs

/-- The tree stands in memory, whatever its root is linked to. -/
inductive Body (m : Mem (Stored D)) : Tree D → Prop
  | node {a : Addr} {l : Label D} {cs : List (Tree D)}
      (cell : core m a = some (.item (l.cell (addrs cs).head?)))
      (texts : l.Texts fun a s => core m a = some (.text s))
      (linked : Linked (linksOf m) none (addrs cs) none)
      (children : ∀ c ∈ cs, Body m c) : Body m (.node a l cs)

theorem Body.live {t : Tree D} (h : Body m t) : ∀ a ∈ t.blocks, m.Live a := by
  induction h with
  | node cell texts _ _ ih =>
    intro a ha
    rw [blocks_node, List.mem_cons, List.mem_append, mem_blocksOf] at ha
    rcases ha with rfl | ha | ⟨c, hc, ha⟩
    · exact live_of_core cell
    · obtain ⟨s, hs⟩ := texts.of_mem ha
      exact live_of_core hs
    · exact ih c hc a ha

/-- A tree stays where it is as long as its blocks keep what they hold, and the cells below the
root their links. -/
theorem Body.congr {t : Tree D} (h : Body m t) (hcore : ∀ a ∈ t.blocks, core m' a = core m a)
    (hlinks : ∀ a ∈ blocksOf t.children, linksOf m' a = linksOf m a) : Body m' t := by
  induction h with
  | @node a l cs cell texts linked _ ih =>
    have hc : ∀ c ∈ cs, ∀ b ∈ c.blocks, b ∈ blocksOf cs := fun c hc b hb =>
      mem_blocksOf.mpr ⟨c, hc, hb⟩
    refine .node ?_ ?_ ?_ fun c hcs => ih c hcs ?_ ?_
    · rw [hcore a (by simp), cell]
    · refine texts.imp fun b s hb hs => ?_
      rw [hcore b (by simp [hb]), hs]
    · exact linked.congr fun b hb => hlinks b ((addrs_sublist cs).subset hb)
    · intro b hb
      exact hcore b (by simp [hc c hcs b hb])
    · intro b hb
      refine hlinks b (hc c hcs b ?_)
      obtain ⟨_, _, ds⟩ := c
      have hb' : b ∈ blocksOf ds := hb
      simp [hb']

end CgiFileStore.Json
