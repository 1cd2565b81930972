import CgiFileStore.Json.Editing
import CgiFileStore.Json.Grammar
import CgiFileStore.Json.Growing
import CgiFileStore.Json.Outcomes

/-!
# The parser in memory and the parser for texts

The parser in memory refines the parser for texts. It has the same faults and no others; where
memory suffices it fails as the other does, or returns a tree that stands for the item; and when it
returns NULL, everything that it has made is deleted again.
-/

namespace CgiFileStore.Json

open CSem Heap

/-! ## The items that trees stand for -/

mutual

/-- The item that a tree stands for. -/
def Tree.toItem {D : Type} : Tree D → Option (JsonItem D)
  | .node _ l cs =>
    match l.type with
    | .cJSONNULL => some .null
    | .cJSONFalse => some (.bool false)
    | .cJSONTrue => some (.bool true)
    | .cJSONNumber => some (.number l.valueint l.valuedouble)
    | .cJSONString => l.valuestring.map fun v => .string v.2
    | .cJSONArray => (itemsOf cs).map .array
    | .cJSONObject => (membersOf cs).map .object

def itemsOf {D : Type} : List (Tree D) → Option (List (JsonItem D))
  | [] => some []
  | t :: ts => do return (← t.toItem) :: (← itemsOf ts)

def membersOf {D : Type} : List (Tree D) → Option (List (List Byte × JsonItem D))
  | [] => some []
  | t :: ts => do
    let name ← t.label.string
    return (name.text, ← t.toItem) :: (← membersOf ts)

end

variable {D : Type}

/-- The tree is a child of an array. -/
def IsElement (t : Tree D) (item : JsonItem D) : Prop := t.toItem = some item

/-- The tree is a child of an object, with its name. -/
def IsMember (t : Tree D) (member : List Byte × JsonItem D) : Prop :=
  t.label.string.map NameText.text = some member.1 ∧ t.toItem = some member.2

theorem itemsOf_eq {ts : List (Tree D)} {items : List (JsonItem D)}
    (h : List.Forall₂ IsElement ts items) : itemsOf ts = some items := by
  induction h with
  | nil => rfl
  | cons ht hts ih => simp [itemsOf, show _ = _ from ht, ih]

theorem membersOf_eq {ts : List (Tree D)} {members : List (List Byte × JsonItem D)}
    (h : List.Forall₂ IsMember ts members) : membersOf ts = some members := by
  induction h with
  | nil => rfl
  | cons ht hts ih =>
    obtain ⟨name, hname, htext⟩ := Option.map_eq_some_iff.mp ht.1
    simp [membersOf, hname, htext, ht.2, ih]

/-! ## The text of a string

Behind the `malloc` of `parse_string` there is no `return 0`, so its block is never lost. -/

section

variable {α β : Type} {x : Parse α} {f : α → Parse β}

/-- The function does not return NULL. -/
def NeverFails (x : Parse α) : Prop := ∀ ep, x ≠ .error (.failed ep)

theorem NeverFails.bind (hx : NeverFails x) (hf : ∀ a, NeverFails (f a)) :
    NeverFails (x >>= f) := by
  match x, hx with
  | .ok a, _ => exact hf a
  | .error (.fault e), _ => exact fun ep h => by cases h
  | .error (.failed ep), hx => exact absurd rfl (hx ep)

theorem neverFails_ok (a : α) : NeverFails (.ok a) := fun ep h => by cases h

theorem neverFails_fault (e : CSem.Fault) : NeverFails (.error (.fault e) : Parse α) :=
  fun ep h => by cases h

theorem neverFails_deref (ptr : List Byte) : NeverFails (deref ptr) := by
  cases ptr with
  | nil => exact neverFails_fault _
  | cons c ptr => exact neverFails_ok _

theorem neverFails_put (size : Nat) (out bytes : List Byte) : NeverFails (put size out bytes) := by
  unfold put
  split
  · exact neverFails_ok _
  · exact neverFails_fault _

theorem neverFails_secondHalf (uc : Nat) (ptr : List Byte) : NeverFails (secondHalf uc ptr) := by
  refine (neverFails_deref _).bind fun c => ?_
  split
  · exact neverFails_ok _
  · refine (neverFails_deref _).bind fun c => ?_
    split
    · exact neverFails_ok _
    · split
      · dsimp only
        split
        · exact neverFails_ok _
        · exact neverFails_ok _
      · exact neverFails_fault _

theorem neverFails_escapeBytes (e : Byte) (ptr : List Byte) : NeverFails (escapeBytes e ptr) := by
  unfold escapeBytes unicodeEscape
  split
  · split
    · dsimp only
      split_ifs
      · exact neverFails_ok _
      · exact neverFails_secondHalf _ _
      · exact neverFails_ok _
    · exact neverFails_fault _
  · exact neverFails_ok _

theorem neverFails_stringBytes (size n : Nat) (ptr out : List Byte) :
    NeverFails (stringBytes size n ptr out) := by
  induction n generalizing ptr out with
  | zero => exact neverFails_fault _
  | succ n ih =>
    rw [stringBytes]
    refine (neverFails_deref ptr).bind fun c => ?_
    split_ifs
    · exact neverFails_ok _
    · exact (neverFails_put size out [c]).bind fun out => ih _ _
    · refine (neverFails_deref _).bind fun e => (neverFails_escapeBytes e _).bind ?_
      rintro ⟨bytes, ptr⟩
      exact (neverFails_put size out bytes).bind fun out => ih _ _

end

/-! ## The functions -/

variable (d : Doubles) (grants : Nat → Bool) {m m0 m' : Mem (Stored d.Double)} {p : Addr}
  {l l0 : Label d.Double} {cs roots : List (Tree d.Double)} {alloc : Allocator}

/-- A value in place of the item. -/
def IsValue (l : Label d.Double) (t : Tree d.Double) (item : JsonItem d.Double) : Prop :=
  t.label.string = l.string ∧ t.toItem = some item

/-- An assignment to fields of an item. -/
theorem Outcome.fields {β γ : Type} {lost : Mem (Stored d.Double) → Prop}
    {done : β → γ → Mem (Stored d.Double) → Prop} {x : Parse β}
    {g : Unit → CellParse d.Double γ} {f : Cell d.Double → Cell d.Double} (h : Bare m p l)
    (l' : Label d.Double)
    (hf : ∀ next prev, f { l.cell none with next, prev } = { l'.cell none with next, prev })
    (hblocks : l'.blocks = l.blocks) (htexts : ∀ holds, l.Texts holds → l'.Texts holds)
    (hnext : ∀ m1, Grown m m1 p l l' [] → Outcome grants m1 lost done x (g () m1)) :
    Outcome grants m lost done x ((Json.cells (assign (some p) f) >>= g) m) := by
  obtain ⟨m1, hm1, hcalls, hgrown⟩ := h.assign_fields hf hblocks htexts
  exact Outcome.cells hm1 hcalls (hnext m1 hgrown)

theorem outcome_parseNumber (h : Bare m p l) (num : List Byte) :
    Outcome grants m (Left m p l) (Filled (IsValue d l) m p l) (parseNumber d num)
      (Pointers.parseNumber d p num m) := by
  unfold parseNumber Pointers.parseNumber
  refine Outcome.text (fun _ _ => h.left) ?_
  rintro ⟨sign, num⟩ -
  refine Outcome.text (fun _ _ => h.left) ?_
  rintro ⟨n, num⟩ -
  refine Outcome.text (fun _ _ => h.left) ?_
  rintro ⟨⟨n, scale⟩, num⟩ -
  refine Outcome.text (fun _ _ => h.left) ?_
  rintro ⟨exponent, num⟩ -
  dsimp only
  cases d.toInt (scaled d sign n scale exponent) with
  | none => exact .halted _ rfl
  | some valueint =>
    refine Outcome.fields d grants h { l with
      valuedouble := scaled d sign n scale exponent, valueint, type := .cJSONNumber }
      (fun _ _ => rfl) rfl (fun holds ht => ⟨ht.value, ht.name⟩) fun m1 hgrown => ?_
    exact .returned _ _ _ rfl (.refl _) ⟨rfl, _, _, hgrown, rfl, by rw [Tree.toItem]⟩

theorem toNat_lt_of_checked {n size : Int} (h : checked (toChecked n) = .ok size) :
    size.toNat < 2 ^ 31 := by
  unfold toChecked at h
  split_ifs at h with hn
  · obtain rfl : n = size := by simpa using h
    simp only [IsInt, intMax] at hn
    omega
  · simp at h

/-- The string of an item, in a new block. -/
theorem outcome_parseString {alloc : Allocator} (hgrants : Grants alloc) (h : Bare m p l)
    (hnone : l.valuestring = none) (str : List Byte) :
    Outcome grants m (Left m p l)
      (fun b stop m' => b.2 = stop ∧ ∃ a, Grown m m' p l
        { l with valuestring := some (a, b.1), type := .cJSONString } [])
      (parseString alloc str) (Pointers.parseString grants p str m) := by
  unfold parseString Pointers.parseString
  refine Outcome.text (fun _ _ => h.left) fun c _ => ?_
  split_ifs
  · exact .failed _ _ rfl (.refl _) h.left
  · refine Outcome.text (fun _ _ => h.left) fun len hlen => ?_
    refine Outcome.text (fun _ _ => h.left) fun size hsize => ?_
    rw [if_neg (by simp [Option.isSome_iff_ne_none.mp (hgrants _ (toNat_lt_of_checked hsize))])]
    refine Outcome.malloc ⟨l, [], h.grown.calls _⟩ ?_
    refine Outcome.text (fun ep hep => absurd hep (neverFails_stringBytes _ _ _ _ ep)) ?_
    rintro ⟨out, ptr⟩ -
    refine Outcome.text (fun ep hep => absurd hep (neverFails_put _ _ _ ep)) fun out _ => ?_
    obtain ⟨m1, m2, hm1, hm2, hcalls1, hcalls2, hgrown⟩ := h.assign_string hnone [] (cstring out)
    refine Outcome.cells hm1 hcalls1 ?_
    refine Outcome.text (fun ep hep => absurd hep (neverFails_deref _ ep)) fun c _ => ?_
    exact Outcome.cells hm2 hcalls2 (.returned _ _ _ rfl (.refl _) ⟨rfl, m.size, hgrown⟩)

section

variable {β : Type} {stands : Tree d.Double → β → Prop}
  {parseChild : List Byte → Parse (β × List Byte)}
  {parseCell : Addr → List Byte → CellParse d.Double (List Byte)}

/-- The functions that parse a child, with and without memory. -/
def Children (stands : Tree d.Double → β → Prop) (parseChild : List Byte → Parse (β × List Byte))
    (parseCell : Addr → List Byte → CellParse d.Double (List Byte)) : Prop :=
  ∀ m c value, Bare m c (blankLabel d .cJSONFalse) →
    Outcome grants m (Left m c (blankLabel d .cJSONFalse))
      (Filled stands m c (blankLabel d .cJSONFalse)) (parseChild value) (parseCell c value m)

theorem newItem_granted (hgrants : Grants alloc) : cJSONNewItem alloc = .ok () :=
  if_pos (hgrants 64 (by decide))

theorem outcome_parseChildren (hgrants : Grants alloc)
    (hchild : Children d grants stands parseChild parseCell) (n : Nat)
    (h : Grown m0 m p l0 l cs) (value : List Byte) :
    Outcome grants m (Left m0 p l0)
      (fun b stop m' => b.2 = stop ∧
        ∃ new, Grown m0 m' p l0 l (cs ++ new) ∧ List.Forall₂ stands new b.1)
      (parseChildren alloc parseChild n value)
      (Pointers.parseChildren d grants parseCell p n (addrs cs).getLast? value m) := by
  induction n generalizing m cs value with
  | zero => exact .halted _ rfl
  | succ n ih =>
    rw [parseChildren, Pointers.parseChildren, newItem_granted hgrants, parse_ok_bind]
    refine Outcome.malloc ⟨l, cs, h.calls _⟩ ?_
    obtain ⟨m2, hm2, hcalls, hlinked, hbare⟩ := h.link (z := blankLabel d .cJSONFalse) rfl
    refine Outcome.cells hm2 hcalls ?_
    have hleft : Left m0 p l0 m2 := ⟨_, _, hlinked⟩
    refine Outcome.text (fun _ _ => hleft) fun value _ => ?_
    refine Outcome.bind ((hchild m2 m.size value hbare).imp_lost ?_) ?_
    · rintro m3 ⟨l', ds, hgrown⟩
      exact ⟨_, _, hlinked.nest rfl hgrown⟩
    rintro ⟨b, _⟩ stop m3 ⟨rfl, l', ds, hgrown, hstands⟩
    have hnest := hlinked.nest rfl hgrown
    have hleft3 : Left m0 p l0 m3 := ⟨_, _, hnest⟩
    refine Outcome.text (fun _ _ => hleft3) fun value _ => ?_
    refine Outcome.text (fun _ _ => hleft3) fun c _ => ?_
    split_ifs
    · have hlast : (addrs (cs ++ [Tree.node m.size l' ds])).getLast? = some m.size := by
        simp [Tree.addr]
      have hrest := ih hnest value.tail
      rw [hlast] at hrest
      refine hrest.map ?_
      rintro ⟨bs, _⟩ stop m4 ⟨rfl, new, hgrown4, hstands4⟩
      refine ⟨(b :: bs, _), rfl, rfl, .node m.size l' ds :: new, ?_, .cons hstands hstands4⟩
      rwa [List.append_assoc] at hgrown4
    · exact .returned _ _ _ rfl (.refl _) ⟨rfl, [.node m.size l' ds], hnest, .cons hstands .nil⟩

theorem outcome_parseBlock (hgrants : Grants alloc)
    (hchild : Children d grants stands parseChild parseCell) (close : Byte) (n : Nat)
    (h : Bare m p l) (value : List Byte) :
    Outcome grants m (Left m p l)
      (fun b stop m' => b.2 = stop ∧ ∃ cs, Grown m m' p l l cs ∧ List.Forall₂ stands cs b.1)
      (parseBlock alloc parseChild close n value)
      (Pointers.parseBlock d grants parseCell close n p value m) := by
  unfold parseBlock Pointers.parseBlock
  refine Outcome.text (fun _ _ => h.left) fun value _ => ?_
  refine Outcome.text (fun _ _ => h.left) fun c _ => ?_
  split_ifs
  · exact .returned _ _ _ rfl (.refl _) ⟨rfl, [], h.grown, .nil⟩
  · refine (outcome_parseChildren d grants hgrants hchild n h.grown value).bind ?_
    rintro ⟨bs, _⟩ stop m1 ⟨rfl, cs, hgrown, hstands⟩
    have hleft : Left m p l m1 := ⟨_, _, hgrown⟩
    refine Outcome.text (fun _ _ => hleft) fun c _ => ?_
    split_ifs
    · exact .returned _ _ _ rfl (.refl _) ⟨rfl, cs, hgrown, hstands⟩
    · exact .failed _ _ rfl (.refl _) hleft

theorem outcome_parseMember (hgrants : Grants alloc)
    {parseValue : List Byte → Parse (JsonItem d.Double × List Byte)}
    (hvalue : ∀ m c l value, Bare m c l → l.valuestring = none →
      Outcome grants m (Left m c l) (Filled (IsValue d l) m c l) (parseValue value)
        (parseCell c value m)) :
    Children d grants IsMember (parseMember alloc parseValue)
      (Pointers.parseMember grants parseCell) := by
  intro m c value h
  unfold parseMember Pointers.parseMember
  refine (outcome_parseString d grants hgrants h rfl value).bind ?_
  rintro ⟨string, _⟩ value m1 ⟨rfl, a, hgrown1⟩
  have hleft1 : Left m c (blankLabel d .cJSONFalse) m1 := ⟨_, _, hgrown1⟩
  refine Outcome.text (fun _ _ => hleft1) fun value _ => ?_
  refine Outcome.fields d grants hgrown1.bare { blankLabel d .cJSONString with
    string := some (.block a string) } (fun _ _ => rfl) rfl ?_ fun m2 hgrown2 => ?_
  · refine fun holds ht => ⟨fun v hv => absurd hv (by simp [blankLabel]), ?_⟩
    rintro b s ⟨⟩
    exact ht.value _ rfl
  have hgrown := hgrown1.trans hgrown2
  have hleft2 : Left m c (blankLabel d .cJSONFalse) m2 := ⟨_, _, hgrown⟩
  refine Outcome.text (fun _ _ => hleft2) fun c' _ => ?_
  split_ifs
  · exact .failed _ _ rfl (.refl _) hleft2
  · refine Outcome.text (fun _ _ => hleft2) fun value _ => ?_
    refine ((hvalue m2 c _ value hgrown.bare rfl).imp_lost fun _ => hgrown.left_trans).map ?_
    rintro ⟨item, _⟩ stop m3 ⟨rfl, l', cs, hgrown3, hname, hitem⟩
    refine ⟨((string, item), _), rfl, rfl, l', cs, hgrown.trans hgrown3, ?_, hitem⟩
    have hname : l'.string = some (.block a string) := hname
    simp [Tree.label, hname, NameText.text]

end

/-- An item without strings and children gets its value by one assignment. -/
theorem Outcome.value {item : JsonItem d.Double} {value : List Byte}
    {f : Cell d.Double → Cell d.Double} (h : Bare m p l) (l' : Label d.Double)
    (hf : ∀ next prev, f { l.cell none with next, prev } = { l'.cell none with next, prev })
    (hblocks : l'.blocks = l.blocks) (htexts : ∀ holds, l.Texts holds → l'.Texts holds)
    (hname : l'.string = l.string) (hitem : (Tree.node p l' []).toItem = some item) :
    Outcome grants m (Left m p l) (Filled (IsValue d l) m p l) (.ok (item, value))
      ((do
        Json.cells (Json.assign (some p) f)
        return value : CellParse d.Double (List Byte)) m) := by
  refine Outcome.fields d grants h l' hf hblocks htexts fun m1 hgrown => ?_
  exact .returned _ _ _ rfl (.refl _) ⟨rfl, l', [], hgrown, hname, hitem⟩

theorem outcome_parseValue (hgrants : Grants alloc) (n : Nat) (h : Bare m p l)
    (hnone : l.valuestring = none) (value : List Byte) :
    Outcome grants m (Left m p l) (Filled (IsValue d l) m p l) (parseValue d alloc n value)
      (Pointers.parseValue d grants n p value m) := by
  induction n generalizing m p l value with
  | zero => exact .halted _ rfl
  | succ n ih =>
    have hchildren : Children d grants IsElement (parseValue d alloc n)
        (Pointers.parseValue d grants n) := fun m c value hbare =>
      (ih hbare rfl value).mono (fun _ hl => hl)
        fun _ _ _ ⟨hstop, l', cs, hgrown, hvalue⟩ => ⟨hstop, l', cs, hgrown, hvalue.2⟩
    have hmembers := outcome_parseMember d grants hgrants
      fun m c l value hbare hnone => ih hbare hnone value
    rw [parseValue, Pointers.parseValue]
    refine Outcome.text (fun _ _ => h.left) fun isNull _ => ?_
    split_ifs
    · exact Outcome.value d grants h { l with type := .cJSONNULL } (fun _ _ => rfl) rfl
        (fun holds ht => ⟨ht.value, ht.name⟩) rfl (by rw [Tree.toItem])
    refine Outcome.text (fun _ _ => h.left) fun isFalse _ => ?_
    split_ifs
    · exact Outcome.value d grants h { l with type := .cJSONFalse } (fun _ _ => rfl) rfl
        (fun holds ht => ⟨ht.value, ht.name⟩) rfl (by rw [Tree.toItem])
    refine Outcome.text (fun _ _ => h.left) fun isTrue _ => ?_
    split_ifs
    · exact Outcome.value d grants h { l with type := .cJSONTrue, valueint := 1 }
        (fun _ _ => rfl) rfl (fun holds ht => ⟨ht.value, ht.name⟩) rfl (by rw [Tree.toItem])
    refine Outcome.text (fun _ _ => h.left) fun c _ => ?_
    split_ifs
    · refine (outcome_parseString d grants hgrants h hnone value).map ?_
      rintro ⟨string, _⟩ stop m1 ⟨rfl, a, hgrown⟩
      exact ⟨_, rfl, rfl, _, [], hgrown, rfl, by simp [Tree.toItem]⟩
    · exact outcome_parseNumber d grants h value
    · refine Outcome.fields d grants h { l with type := .cJSONArray } (fun _ _ => rfl) rfl
        (fun holds ht => ⟨ht.value, ht.name⟩) fun m1 hgrown1 => ?_
      have hblock := outcome_parseBlock d grants hgrants hchildren 93 n hgrown1.bare value.tail
      refine (hblock.imp_lost fun _ => hgrown1.left_trans).map ?_
      rintro ⟨items, _⟩ stop m2 ⟨rfl, cs, hgrown2, hitems⟩
      refine ⟨_, rfl, rfl, _, cs, hgrown1.trans hgrown2, rfl, ?_⟩
      simp [Tree.toItem, itemsOf_eq hitems]
    · refine Outcome.fields d grants h { l with type := .cJSONObject } (fun _ _ => rfl) rfl
        (fun holds ht => ⟨ht.value, ht.name⟩) fun m1 hgrown1 => ?_
      have hblock := outcome_parseBlock d grants hgrants hmembers 125 n hgrown1.bare value.tail
      refine (hblock.imp_lost fun _ => hgrown1.left_trans).map ?_
      rintro ⟨items, _⟩ stop m2 ⟨rfl, cs, hgrown2, hitems⟩
      refine ⟨_, rfl, rfl, _, cs, hgrown1.trans hgrown2, rfl, ?_⟩
      simp [Tree.toItem, membersOf_eq hitems]
    · exact .failed _ _ rfl (.refl _) h.left

/-- The parser in memory has the faults of the parser for texts, and no others. When it returns
NULL, the program holds the trees it held before; when not, it holds one more, which stands for the
item. -/
theorem cJSONParseWithOpts_refines (hgrants : Grants alloc) (h : World m roots)
    (requireNullTerminated : Bool) (value : List Byte) :
    Outcome grants m (fun m' => World m' roots)
      (fun b c m' => ∃ t, World m' (t :: roots) ∧ c = (t.addr, b.2) ∧ t.toItem = some b.1)
      (cJSONParseWithOpts d alloc requireNullTerminated value)
      (Pointers.cJSONParseWithOpts d grants requireNullTerminated value m) := by
  unfold cJSONParseWithOpts Pointers.cJSONParseWithOpts
  rw [newItem_granted hgrants, parse_ok_bind]
  have hbare := bare_push d m
  refine Outcome.malloc (h.congr fun _ => rfl) ?_
  let Lost := Left (m.push (.item (zeroCell d))) m.size (blankLabel d .cJSONFalse)
  have hdelete : ∀ m1, Lost m1 →
      ∃ m2, cJSONDelete (some m.size) m1 = .ok ((), m2) ∧ m2.calls = m1.calls ∧ World m2 roots := by
    rintro m1 ⟨l, cs, hgrown⟩
    obtain ⟨m2, hm2, hworld, hcalls⟩ := (h.grown d hgrown).deleted
    exact ⟨m2, hm2, hcalls, hworld⟩
  refine Outcome.orDelete ?_ hdelete
  refine Outcome.text (fun _ _ => hbare.left) fun value _ => ?_
  refine (outcome_parseValue d grants hgrants value.length hbare rfl value).bind ?_
  rintro ⟨item, _⟩ stop m1 ⟨rfl, l, cs, hgrown, -, hitem⟩
  have hlost : Lost m1 := ⟨l, cs, hgrown⟩
  dsimp only
  split_ifs
  · refine Outcome.text (fun _ _ => hlost) fun stop _ => ?_
    refine Outcome.text (fun _ _ => hlost) fun c _ => ?_
    split_ifs
    · exact .failed _ _ rfl (.refl _) hlost
    · exact .returned _ _ _ rfl (.refl _) ⟨_, h.grown d hgrown, rfl, hitem⟩
  · exact .returned _ _ _ rfl (.refl _) ⟨_, h.grown d hgrown, rfl, hitem⟩

/-- The second allocation is refused, in an array of one item. -/
theorem cJSONParseWithOpts_refines_array :
    Outcome (fun k => k != 1) (⟨[], 0⟩ : Mem (Stored Doubles.rational.Double))
      (fun m' => World m' [])
      (fun b c m' => ∃ t, World m' [t] ∧ c = (t.addr, b.2) ∧ t.toItem = some b.1)
      (cJSONParseWithOpts Doubles.rational Allocator.zeroed true (ascii "[true]" ++ [0]))
      (Pointers.cJSONParseWithOpts Doubles.rational (fun k => k != 1) true (ascii "[true]" ++ [0])
        ⟨[], 0⟩) :=
  cJSONParseWithOpts_refines Doubles.rational (fun k => k != 1) grants_zeroed (.empty 0) true _

end CgiFileStore.Json
