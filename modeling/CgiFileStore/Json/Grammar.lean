import CgiFileStore.Json.Numbers

/-!
# The texts of an item

`Text d item t` says that the bytes `t` are a JSON text of `item`, whatever blanks, escapes and
forms of a number it uses. Every such text is parsed to the item, wherever it stands.
-/

namespace CgiFileStore.Json

open CSem

/-- The white space of JSON. -/
def IsBlank (c : Byte) : Prop := c = 32 ∨ c = 9 ∨ c = 10 ∨ c = 13

instance (c : Byte) : Decidable (IsBlank c) := inferInstanceAs (Decidable (_ ∨ _))

def IsSpace (ws : List Byte) : Prop := ∀ c ∈ ws, IsBlank c

abbrev Space := {ws : List Byte // IsSpace ws}

def noSpace : Space := ⟨[], by simp [IsSpace]⟩

def oneBlank (c : Byte) (h : IsBlank c) : Space := ⟨[c], by simpa [IsSpace] using h⟩

/-- What stands between two commas: the text of a child, with blanks around it. -/
structure Chunk (α : Type) where
  before : Space
  value : α
  text : List Byte
  after : Space

/-- A literal. -/
def quoted (ps : List Piece) : List Byte := 34 :: (pieceBytes ps ++ [34])

/-- The name of a child of an object, with the blanks around the colon. -/
structure Name where
  pieces : List Piece
  before : Space
  after : Space

namespace Chunk

variable {α : Type}

def bytes (e : Chunk α) : List Byte := e.before.1 ++ e.text ++ e.after.1

/-- The bytes of a name in front of the value. -/
def nameBytes (n : Name) : List Byte := quoted n.pieces ++ n.before.1 ++ 58 :: n.after.1

/-- A chunk of an object, where the text of the value follows the name. -/
def named (e : Chunk (Name × α)) : Chunk (List Byte × α) where
  before := e.before
  value := (decode e.value.1.pieces, e.value.2)
  text := nameBytes e.value.1 ++ e.text
  after := e.after

end Chunk

/-- Chunks with the brackets and the commas around them. -/
def block (opening close : Byte) (blank : Space) (chunks : List (List Byte)) : List Byte :=
  opening :: (blank.1 ++ [44].intercalate chunks ++ [close])

/-- The bytes `t` are a text of the item. -/
inductive Text (d : Doubles) : JsonItem d.Double → List Byte → Prop
  | null : Text d .null (ascii "null")
  | false : Text d (.bool false) (ascii "false")
  | true : Text d (.bool true) (ascii "true")
  | number (t : NumberText) (valueint : Int) (hfits : t.ExponentFits)
      (h : d.toInt (t.value d) = some valueint) : Text d (.number valueint (t.value d)) t.bytes
  | string (ps : List Piece) : Text d (.string (decode ps)) (quoted ps)
  | array (blank : Space) (chunks : List (Chunk (JsonItem d.Double)))
      (h : ∀ e ∈ chunks, Text d e.value e.text) :
      Text d (.array (chunks.map Chunk.value)) (block 91 93 blank (chunks.map Chunk.bytes))
  | object (blank : Space) (members : List (Chunk (Name × JsonItem d.Double)))
      (h : ∀ e ∈ members, Text d e.value.2 e.text) :
      Text d (.object (members.map fun e => e.named.value))
        (block 123 125 blank (members.map fun e => e.named.bytes))

variable {α : Type}

/-! ## Blanks -/

theorem IsBlank.skipped {c : Byte} (h : IsBlank c) : c ≠ 0 ∧ c ≤ 32 := by
  obtain rfl | rfl | rfl | rfl := h <;> decide

/-- The text goes on with a byte that `skip` stops at. -/
def Stops (rest : List Byte) : Prop := ∃ c r, rest = c :: r ∧ (c = 0 ∨ 32 < c)

theorem skip_space {ws rest : List Byte} (h : IsSpace ws) (hrest : Stops rest) :
    skip (ws ++ rest) = .ok rest := by
  induction ws with
  | nil =>
    obtain ⟨c, r, rfl, hc⟩ := hrest
    have hstop : ¬ (c ≠ 0 ∧ c ≤ 32) := fun h =>
      hc.elim h.1 fun hc => UInt8.not_le.mpr hc h.2
    rw [List.nil_append, skip, if_neg hstop]
  | cons c ws ih =>
    rw [List.cons_append, skip, if_pos (h c List.mem_cons_self).skipped]
    exact ih fun x hx => h x (List.mem_cons_of_mem _ hx)

theorem ends_space_append {ws rest : List Byte} (h : IsSpace ws) (hrest : Ends rest) :
    Ends (ws ++ rest) := by
  cases ws with
  | nil => exact hrest
  | cons c ws => exact ⟨c, ws ++ rest, rfl, .inl (h c List.mem_cons_self).skipped.2⟩

/-! ## Chunks -/

/-- How the text of a child can start. -/
def Starts (text : List Byte) : Prop := ∃ c r, text = c :: r ∧ 32 < c ∧ c ≠ 93 ∧ c ≠ 125

/-- `parseChild` takes the text of the chunk, and no more. -/
def Parses (parseChild : List Byte → Parse (α × List Byte)) (e : Chunk α) : Prop :=
  Starts e.text ∧ ∀ rest, Ends rest → parseChild (e.text ++ rest) = .ok (e.value, rest)

/-- The round of a chunk: what the loop has in hand behind it is the byte that ends it. -/
theorem parseChildren_round {alloc : Allocator} (hitem : (alloc.malloc 64).isSome)
    {parseChild : List Byte → Parse (α × List Byte)} {e : Chunk α} (h : Parses parseChild e)
    {c : Byte} (hc : IsEnd c) (hstop : 32 < c) (n : Nat) (rest : List Byte) :
    parseChildren alloc parseChild (n + 1) (e.bytes ++ c :: rest) =
      if c = 44 then
        parseChildren alloc parseChild n rest >>= fun p => .ok (e.value :: p.1, p.2)
      else .ok ([e.value], c :: rest) := by
  obtain ⟨⟨x, xs, htext, hx, -⟩, hparse⟩ := h
  have hstops : Stops (e.text ++ (e.after ++ c :: rest)) :=
    ⟨x, xs ++ (e.after ++ c :: rest), by rw [htext]; rfl, .inr hx⟩
  have hnew : cJSONNewItem alloc = .ok () := if_pos hitem
  rw [Chunk.bytes, parseChildren, hnew, parse_ok_bind, List.append_assoc, List.append_assoc,
    skip_space e.before.2 hstops, parse_ok_bind,
    hparse _ (ends_space_append e.after.2 ⟨c, rest, rfl, hc⟩), parse_ok_bind]
  dsimp only
  rw [skip_space e.after.2 ⟨c, rest, rfl, .inr hstop⟩, parse_ok_bind, deref_cons, parse_ok_bind]
  rfl

/-- The loop over the children reads chunk after chunk, up to the bracket that closes. -/
theorem parseChildren_chunks {alloc : Allocator} (hitem : (alloc.malloc 64).isSome)
    {parseChild : List Byte → Parse (α × List Byte)} {close : Byte}
    (hclose : close = 93 ∨ close = 125) {e : Chunk α} {chunks : List (Chunk α)}
    (h : ∀ x ∈ e :: chunks, Parses parseChild x) {n : Nat} (hn : chunks.length < n)
    (rest : List Byte) :
    parseChildren alloc parseChild n
        ([44].intercalate ((e :: chunks).map Chunk.bytes) ++ close :: rest) =
      .ok ((e :: chunks).map Chunk.value, close :: rest) := by
  obtain ⟨n, rfl⟩ := Nat.exists_eq_succ_of_ne_zero (Nat.ne_zero_of_lt hn)
  have he := h e List.mem_cons_self
  induction chunks generalizing e n with
  | nil =>
    have hne : close ≠ 44 := by obtain rfl | rfl := hclose <;> decide
    have hstop : 32 < close := by obtain rfl | rfl := hclose <;> decide
    rw [List.map_singleton, List.intercalate_singleton,
      parseChildren_round hitem he (.inr (.inr hclose)) hstop, if_neg hne]
    rfl
  | cons e' chunks ih =>
    obtain ⟨n, rfl⟩ := Nat.exists_eq_succ_of_ne_zero (Nat.ne_zero_of_lt (Nat.lt_of_succ_lt_succ hn))
    have hcomma : IsEnd 44 := .inr (.inl rfl)
    rw [List.map_cons, List.map_cons, List.intercalate_cons_cons, List.append_assoc,
      List.append_assoc, List.cons_append, List.nil_append,
      parseChildren_round hitem he hcomma (by decide), if_pos rfl, ← List.map_cons,
      ih (fun x hx => h x (List.mem_cons_of_mem _ hx)) n (Nat.lt_of_succ_lt_succ hn)
        (h e' (by simp)), parse_ok_bind]
    rfl

/-- An array or an object behind its opening bracket. -/
theorem parseBlock_chunks {alloc : Allocator} (hitem : (alloc.malloc 64).isSome)
    {parseChild : List Byte → Parse (α × List Byte)} {close : Byte}
    (hclose : close = 93 ∨ close = 125) (blank : Space) {chunks : List (Chunk α)}
    (h : ∀ x ∈ chunks, Parses parseChild x) {n : Nat}
    (hn : chunks.length ≤ n) (rest : List Byte) :
    parseBlock alloc parseChild close n
        (blank.1 ++ [44].intercalate (chunks.map Chunk.bytes) ++ close :: rest) =
      .ok (chunks.map Chunk.value, rest) := by
  cases chunks with
  | nil =>
    have hstop : 32 < close := by obtain rfl | rfl := hclose <;> decide
    rw [List.map_nil, List.intercalate_nil, List.append_nil, parseBlock,
      skip_space blank.2 ⟨close, rest, rfl, .inr hstop⟩, parse_ok_bind, deref_cons, parse_ok_bind,
      if_pos rfl]
    rfl
  | cons e chunks =>
    -- the blanks of the first chunk are skipped along with those of the bracket
    let e0 : Chunk α := { e with before := ⟨[], by simp [IsSpace]⟩ }
    have hspace : IsSpace (blank.1 ++ e.before.1) := fun c hc =>
      (List.mem_append.mp hc).elim (blank.2 c) (e.before.2 c)
    have hsplit : blank.1 ++ [44].intercalate ((e :: chunks).map Chunk.bytes) ++ close :: rest =
        (blank.1 ++ e.before.1) ++
          ([44].intercalate ((e0 :: chunks).map Chunk.bytes) ++ close :: rest) := by
      cases chunks <;> simp [Chunk.bytes, e0, List.intercalate_cons_cons]
    obtain ⟨⟨c, r, htext, hc, hne⟩, hparse⟩ := h e List.mem_cons_self
    obtain ⟨r', hr'⟩ : ∃ r', [44].intercalate ((e0 :: chunks).map Chunk.bytes) ++ close :: rest =
        c :: r' := by
      cases chunks <;> simp [Chunk.bytes, e0, List.intercalate_cons_cons, htext]
    have hchunks : ∀ x ∈ e0 :: chunks, Parses parseChild x := by
      intro x hx
      obtain rfl | hx := List.mem_cons.mp hx
      · exact h e List.mem_cons_self
      · exact h x (List.mem_cons_of_mem _ hx)
    have hopen : c ≠ close := by
      obtain rfl | rfl := hclose
      · exact hne.1
      · exact hne.2
    rw [hsplit, parseBlock, skip_space hspace ⟨c, r', hr', .inr hc⟩, parse_ok_bind]
    conv_lhs => rw [hr', deref_cons, parse_ok_bind, if_neg hopen, ← hr']
    rw [parseChildren_chunks hitem hclose hchunks hn, parse_ok_bind]
    dsimp only
    rw [deref_cons, parse_ok_bind, if_pos rfl]
    rfl

/-! ## Lengths -/

theorem length_le_intercalate (sep : List Byte) {e : List Byte} {es : List (List Byte)} (h : e ∈ es) :
    e.length ≤ (sep.intercalate es).length := by
  have hlen := length_intercalate sep (List.ne_nil_of_mem h)
  have hsum := List.single_le_sum (fun n _ => Nat.zero_le n) _
    (List.mem_map_of_mem (f := fun e => e.length + sep.length) h)
  omega

theorem card_le_intercalate (es : List (List Byte)) :
    es.length ≤ ([44].intercalate es).length + 1 := by
  by_cases hne : es = []
  · simp [hne]
  · have hlen := length_intercalate [44] hne
    have hsum := List.card_nsmul_le_sum (es.map fun e => e.length + [44].length) 1 (by simp)
    rw [List.length_map, smul_eq_mul, Nat.mul_one] at hsum
    simp only [List.length_singleton] at hlen hsum
    omega

theorem length_block (opening close : Byte) (blank : Space) (chunks : List (List Byte)) :
    (block opening close blank chunks).length =
      blank.1.length + ([44].intercalate chunks).length + 2 := by
  simp only [block, List.length_cons, List.length_append, List.length_nil]

theorem countedLength_le (ps : List Piece) : countedLength ps ≤ (pieceBytes ps).length := by
  induction ps with
  | nil => simp [countedLength, pieceBytes]
  | cons p ps ih =>
    rw [countedLength_cons, pieceBytes_cons, List.length_append]
    cases p <;> simp [Piece.counted, Piece.bytes, Hex4.bytes] <;> omega

theorem length_quoted (ps : List Piece) : (quoted ps).length = (pieceBytes ps).length + 2 := by
  simp [quoted]

/-! ## Values -/

/-- Every block that a text of less than 2 GiB can ask for is granted. -/
def Grants (alloc : Allocator) : Prop := ∀ n < 2 ^ 31, (alloc.malloc n).isSome

theorem grants_zeroed : Grants Allocator.zeroed := fun n h => zeroed_grants n (by omega)

theorem parseString_quoted {alloc : Allocator} (hgrants : Grants alloc) {ps : List Piece}
    (hlen : (quoted ps).length < 2 ^ 31) (rest : List Byte) :
    parseString alloc (quoted ps ++ rest) = .ok (decode ps, rest) := by
  have hcount := countedLength_le ps
  rw [length_quoted] at hlen
  have hsize : (countedLength ps : Int) < intMax := by
    simp only [intMax]
    omega
  have hnone : ¬ (alloc.malloc (countedLength ps + 1)).isNone := by
    rw [Option.isNone_iff_eq_none]
    exact Option.isSome_iff_ne_none.mp (hgrants _ (by omega))
  have hsplit : quoted ps ++ rest = 34 :: (pieceBytes ps ++ 34 :: rest) := by simp [quoted]
  rw [hsplit, parseString_pieces alloc ps (.inl rfl), if_pos hsize, if_neg hnone, if_pos rfl]

/-- The name of a child, the colon and its value. -/
theorem parses_named {alloc : Allocator} (hgrants : Grants alloc)
    {parseValue : List Byte → Parse (α × List Byte)} {e : Chunk (Name × α)}
    (hlen : (quoted e.value.1.pieces).length < 2 ^ 31) (hstarts : Starts e.text)
    (hparse : ∀ rest, Ends rest → parseValue (e.text ++ rest) = .ok (e.value.2, rest)) :
    Parses (parseMember alloc parseValue) e.named := by
  obtain ⟨c, r, htext, hc, -⟩ := hstarts
  refine ⟨⟨34, _, rfl, by decide⟩, fun rest hrest => ?_⟩
  have hcolon : Stops (58 :: (e.value.1.after.1 ++ (e.text ++ rest))) := ⟨58, _, rfl, .inr (by decide)⟩
  have hvalue : Stops (e.text ++ rest) := ⟨c, r ++ rest, by rw [htext]; rfl, .inr hc⟩
  have hsplit : e.named.text ++ rest = quoted e.value.1.pieces ++
      (e.value.1.before.1 ++ 58 :: (e.value.1.after.1 ++ (e.text ++ rest))) := by
    simp [Chunk.named, Chunk.nameBytes]
  rw [hsplit, parseMember, parseString_quoted hgrants hlen, parse_ok_bind]
  dsimp only
  rw [skip_space e.value.1.before.2 hcolon, parse_ok_bind, deref_cons, parse_ok_bind,
    if_neg (not_not.mpr rfl), List.tail_cons, skip_space e.value.1.after.2 hvalue, parse_ok_bind,
    hparse rest hrest, parse_ok_bind]
  rfl

theorem strncmpEq_of_ne {c x : Byte} (h : c ≠ x) (r xs : List Byte) :
    strncmpEq (c :: r) (x :: xs) = .ok false := by
  rw [strncmpEq, if_neg h]

/-- A text that does not start with one of the three names. -/
theorem parseValue_unnamed (d : Doubles) (alloc : Allocator) (n : Nat) {c : Byte} {r : List Byte}
    (h : ∀ name ∈ [ascii "null", ascii "false", ascii "true"],
      strncmpEq (c :: r) name = .ok false) :
    parseValue d alloc (n + 1) (c :: r) =
      if c = 34 then
        parseString alloc (c :: r) >>= fun p => .ok (.string p.1, p.2)
      else if c = 45 ∨ isDigit c then parseNumber d (c :: r)
      else if c = 91 then
        parseBlock alloc (parseValue d alloc n) 93 n r >>= fun p => .ok (.array p.1, p.2)
      else if c = 123 then
        parseBlock alloc (parseMember alloc (parseValue d alloc n)) 125 n r >>= fun p =>
          .ok (.object p.1, p.2)
      else .error (.failed (some (c :: r))) := by
  rw [parseValue, h _ (by simp), h _ (by simp), h _ (by simp)]
  rfl

/-- A text that does not even start like one of them. -/
theorem parseValue_other (d : Doubles) (alloc : Allocator) (n : Nat) {c : Byte}
    (h : c ≠ 110 ∧ c ≠ 102 ∧ c ≠ 116) (r : List Byte) :
    parseValue d alloc (n + 1) (c :: r) =
      if c = 34 then
        parseString alloc (c :: r) >>= fun p => .ok (.string p.1, p.2)
      else if c = 45 ∨ isDigit c then parseNumber d (c :: r)
      else if c = 91 then
        parseBlock alloc (parseValue d alloc n) 93 n r >>= fun p => .ok (.array p.1, p.2)
      else if c = 123 then
        parseBlock alloc (parseMember alloc (parseValue d alloc n)) 125 n r >>= fun p =>
          .ok (.object p.1, p.2)
      else .error (.failed (some (c :: r))) := by
  apply parseValue_unnamed
  simp only [List.mem_cons, List.not_mem_nil, or_false, forall_eq_or_imp, forall_eq]
  exact ⟨strncmpEq_of_ne h.1 _ _, strncmpEq_of_ne h.2.1 _ _, strncmpEq_of_ne h.2.2 _ _⟩

theorem starts_number (t : NumberText) :
    ∃ c r, t.bytes = c :: r ∧ (c = 45 ∨ isDigit c = true) := by
  cases hneg : t.negative with
  | true => exact ⟨45, _, by simp only [NumberText.bytes, hneg]; rfl, .inl rfl⟩
  | false =>
    by_cases hnil : t.integer = []
    · exact ⟨48, _, by simp only [NumberText.bytes, hneg, if_pos hnil]; rfl, .inr (by decide)⟩
    · obtain ⟨x, xs, hx⟩ := List.exists_cons_of_ne_nil hnil
      refine ⟨x, _, by simp only [NumberText.bytes, hneg, hx]; rfl, .inr ?_⟩
      exact t.isInteger x (hx ▸ List.mem_cons_self)

theorem not_name_of_number {c : Byte} (h : c = 45 ∨ isDigit c = true) :
    (c ≠ 110 ∧ c ≠ 102 ∧ c ≠ 116) ∧ c ≠ 34 ∧ 32 < c ∧ c ≠ 93 ∧ c ≠ 125 := by
  obtain rfl | h := h
  · decide
  · simp only [isDigit, Bool.and_eq_true, decide_eq_true_eq] at h
    grind

theorem starts_text {d : Doubles} {item : JsonItem d.Double} {t : List Byte} (h : Text d item t) :
    Starts t := by
  cases h with
  | null => exact ⟨110, _, rfl, by decide⟩
  | false => exact ⟨102, _, rfl, by decide⟩
  | true => exact ⟨116, _, rfl, by decide⟩
  | number t =>
    obtain ⟨c, r, ht, hc⟩ := starts_number t
    exact ⟨c, r, ht, (not_name_of_number hc).2.2⟩
  | string ps => exact ⟨34, _, rfl, by decide⟩
  | array blank chunks h => exact ⟨91, _, rfl, by decide⟩
  | object blank members h => exact ⟨123, _, rfl, by decide⟩

theorem strncmpEq_self (s rest : List Byte) : strncmpEq (s ++ rest) s = .ok true := by
  induction s with
  | nil => simp [strncmpEq]
  | cons c s ih => rw [List.cons_append, strncmpEq, if_pos rfl, ih]

/-- A text that starts with one of the three names. -/
theorem parseValue_null (d : Doubles) (alloc : Allocator) (n : Nat) (rest : List Byte) :
    parseValue d alloc (n + 1) (ascii "null" ++ rest) = .ok (.null, rest) := by
  rw [parseValue, strncmpEq_self]
  rfl

theorem parseValue_false (d : Doubles) (alloc : Allocator) (n : Nat) (rest : List Byte) :
    parseValue d alloc (n + 1) (ascii "false" ++ rest) = .ok (.bool false, rest) := by
  have hnull : strncmpEq (ascii "false" ++ rest) (ascii "null") = .ok false :=
    strncmpEq_of_ne (by decide : (102 : Byte) ≠ 110) _ _
  rw [parseValue, hnull, strncmpEq_self]
  rfl

theorem parseValue_true (d : Doubles) (alloc : Allocator) (n : Nat) (rest : List Byte) :
    parseValue d alloc (n + 1) (ascii "true" ++ rest) = .ok (.bool true, rest) := by
  have hnull : strncmpEq (ascii "true" ++ rest) (ascii "null") = .ok false :=
    strncmpEq_of_ne (by decide : (116 : Byte) ≠ 110) _ _
  have hfalse : strncmpEq (ascii "true" ++ rest) (ascii "false") = .ok false :=
    strncmpEq_of_ne (by decide : (116 : Byte) ≠ 102) _ _
  rw [parseValue, hnull, hfalse, strncmpEq_self]
  rfl

/-- A text is parsed to its item, and what follows it is left. -/
theorem parseValue_text {d : Doubles} {alloc : Allocator} (hgrants : Grants alloc)
    {item : JsonItem d.Double} {t : List Byte} (h : Text d item t) (hlen : t.length < 2 ^ 31)
    {n : Nat} (hn : t.length ≤ n) {rest : List Byte} (hends : Ends rest) :
    parseValue d alloc n (t ++ rest) = .ok (item, rest) := by
  have hitem : (alloc.malloc 64).isSome := hgrants 64 (by decide)
  obtain ⟨c, r, htext, -⟩ := starts_text h
  obtain ⟨n, rfl⟩ : ∃ m, n = m + 1 := ⟨n - 1, by rw [htext, List.length_cons] at hn; omega⟩
  clear htext
  induction h generalizing n rest with
  | null => exact parseValue_null d alloc n rest
  | false => exact parseValue_false d alloc n rest
  | true => exact parseValue_true d alloc n rest
  | number t valueint hfits hint =>
    obtain ⟨c, r, ht, hc⟩ := starts_number t
    obtain ⟨hname, hquote, -⟩ := not_name_of_number hc
    rw [ht, List.cons_append, parseValue_other d alloc n hname, if_neg hquote, if_pos hc,
      ← List.cons_append, ← ht, parseNumber_eq d t hfits hends, hint]
  | string ps =>
    rw [quoted, List.cons_append, parseValue_other d alloc n (by decide), if_pos rfl,
      ← List.cons_append, ← quoted, parseString_quoted hgrants hlen, parse_ok_bind]
  | array blank chunks h ih =>
    rw [length_block] at hlen hn
    have hcard := card_le_intercalate (chunks.map Chunk.bytes)
    rw [List.length_map] at hcard
    have hparse : ∀ e ∈ chunks, Parses (parseValue d alloc n) e := by
      intro e he
      have hle := length_le_intercalate [44] (List.mem_map_of_mem (f := Chunk.bytes) he)
      simp only [Chunk.bytes, List.length_append] at hle
      obtain ⟨c, r, htext, hc⟩ := starts_text (h e he)
      refine ⟨⟨c, r, htext, hc⟩, fun rest hrest => ?_⟩
      obtain ⟨m, rfl⟩ : ∃ m, n = m + 1 := ⟨n - 1, by rw [htext, List.length_cons] at hle; omega⟩
      exact ih e he (by omega) hrest m (by omega)
    have hsplit : block 91 93 blank (chunks.map Chunk.bytes) ++ rest =
        91 :: (blank.1 ++ [44].intercalate (chunks.map Chunk.bytes) ++ 93 :: rest) := by
      simp [block]
    have hdigit : ¬ ((91 : Byte) = 45 ∨ isDigit 91 = true) := by decide
    rw [hsplit, parseValue_other d alloc n (by decide), if_neg (by decide), if_neg hdigit,
      if_pos rfl, parseBlock_chunks hitem (.inl rfl) blank hparse (by omega), parse_ok_bind]
  | object blank members h ih =>
    have hmap : (members.map fun e => e.named.bytes) =
        (members.map Chunk.named).map Chunk.bytes := by
      rw [List.map_map]
      rfl
    rw [hmap] at hlen hn ⊢
    rw [length_block] at hlen hn
    have hcard := card_le_intercalate ((members.map Chunk.named).map Chunk.bytes)
    rw [List.length_map] at hcard
    have hparse : ∀ e ∈ members.map Chunk.named,
        Parses (parseMember alloc (parseValue d alloc n)) e := by
      intro x hx
      have hle := length_le_intercalate [44] (List.mem_map_of_mem (f := Chunk.bytes) hx)
      obtain ⟨e, he, rfl⟩ := List.mem_map.mp hx
      simp only [Chunk.bytes, Chunk.named, Chunk.nameBytes, List.length_append] at hle
      obtain ⟨c, r, htext, hc⟩ := starts_text (h e he)
      refine parses_named hgrants (by omega) ⟨c, r, htext, hc⟩ fun rest hrest => ?_
      obtain ⟨m, rfl⟩ : ∃ m, n = m + 1 := ⟨n - 1, by rw [htext, List.length_cons] at hle; omega⟩
      exact ih e he (by omega) hrest m (by omega)
    have hsplit : block 123 125 blank ((members.map Chunk.named).map Chunk.bytes) ++ rest =
        123 :: (blank.1 ++ [44].intercalate ((members.map Chunk.named).map Chunk.bytes) ++
          125 :: rest) := by
      simp [block]
    have hdigit : ¬ ((123 : Byte) = 45 ∨ isDigit 123 = true) := by decide
    rw [hsplit, parseValue_other d alloc n (by decide), if_neg (by decide), if_neg hdigit,
      if_neg (by decide), if_pos rfl, parseBlock_chunks hitem (.inr rfl) blank hparse (by omega),
      parse_ok_bind, List.map_map]
    rfl

/-- The parse of a text with blanks in front, up to what follows it. -/
theorem parse_text (d : Doubles) {alloc : Allocator} (hgrants : Grants alloc)
    {item : JsonItem d.Double} {t : List Byte} (h : Text d item t) (hlen : t.length < 2 ^ 31)
    (before : Space) {rest : List Byte} (hends : Ends rest) :
    cJSONParseWithOpts d alloc false (before.1 ++ t ++ rest) = .ok (item, rest) := by
  have hitem : cJSONNewItem alloc = .ok () := if_pos (hgrants 64 (by decide))
  obtain ⟨c, r, htext, hc, -⟩ := starts_text h
  have hstops : Stops (t ++ rest) := ⟨c, r ++ rest, by rw [htext]; rfl, .inr hc⟩
  rw [cJSONParseWithOpts, hitem, parse_ok_bind, List.append_assoc, skip_space before.2 hstops,
    parse_ok_bind, parseValue_text hgrants h hlen (by simp) hends, parse_ok_bind]
  rfl

theorem cJSONParseWithOpts_true {d : Doubles} {alloc : Allocator} {value stop : List Byte}
    {item : JsonItem d.Double} (h : cJSONParseWithOpts d alloc false value = .ok (item, stop))
    {beyond : List Byte} (hskip : skip stop = .ok (0 :: beyond)) :
    cJSONParseWithOpts d alloc true value = .ok (item, 0 :: beyond) := by
  obtain ⟨_, hnew, h⟩ := parse_bind_eq_ok.mp h
  obtain ⟨start, hstart, h⟩ := parse_bind_eq_ok.mp h
  obtain ⟨⟨item', stop'⟩, hvalue, h⟩ := parse_bind_eq_ok.mp h
  obtain ⟨rfl, rfl⟩ := Prod.mk.inj (Except.ok.inj h)
  rw [cJSONParseWithOpts, hnew, parse_ok_bind, hstart, parse_ok_bind, hvalue, parse_ok_bind]
  dsimp only
  rw [if_pos rfl, hskip, parse_ok_bind, deref_cons, parse_ok_bind, if_neg (not_not.mpr rfl)]
  rfl

/-- `cJSON_ParseWithOpts` makes the item of a text from a string that holds the text with blanks
around it, and leaves the pointer behind the text, or at the end of the string if that is asked
for. -/
theorem cJSONParseWithOpts_text (d : Doubles) (alloc : Allocator) (hgrants : Grants alloc)
    (item : JsonItem d.Double) (t : List Byte) (h : Text d item t) (hlen : t.length < 2 ^ 31)
    (before after : Space) (beyond : List Byte) (requireNullTerminated : Bool) :
    cJSONParseWithOpts d alloc requireNullTerminated
        (before.1 ++ t ++ (after.1 ++ 0 :: beyond)) =
      .ok (item, if requireNullTerminated then 0 :: beyond else after.1 ++ 0 :: beyond) := by
  have hends : Ends (after.1 ++ 0 :: beyond) :=
    ends_space_append after.2 ⟨0, beyond, rfl, .inl (by decide)⟩
  have hparse := parse_text d hgrants h hlen before hends
  cases requireNullTerminated with
  | false => exact hparse
  | true => exact cJSONParseWithOpts_true hparse (skip_space after.2 ⟨0, beyond, rfl, .inl rfl⟩)

theorem cJSONParseWithOpts_text_array :
    cJSONParseWithOpts Doubles.rational Allocator.zeroed true (ascii " [true,\tnull ]\n" ++ [0]) =
      .ok (.array [.bool true, .null], [0]) :=
  cJSONParseWithOpts_text Doubles.rational Allocator.zeroed grants_zeroed _ _
    (.array noSpace [⟨noSpace, .bool true, ascii "true", noSpace⟩,
        ⟨oneBlank 9 (by decide), .null, ascii "null", oneBlank 32 (by decide)⟩]
      (by
        simp only [List.mem_cons, List.not_mem_nil, or_false, forall_eq_or_imp, forall_eq]
        exact ⟨.true, .null⟩))
    (by decide) (oneBlank 32 (by decide)) (oneBlank 10 (by decide)) [] true

end CgiFileStore.Json
