import CgiFileStore.Redis.RedisOp

/-!
# The query parser and the column reader of util_cgi.c

`query_parse_key_value` has the same body as `query_string_value_get` of data_op.c, apart
from the test for NULL and the return value for a key that is not found.

In `get_value_by_col`, `line` is the memory from `line_head` to the end of the object it
points into, and `prev` is the byte in front, which `*(pos-1)` reads at the first position.
The two scanning loops differ in their stop condition, so each has a function of its own.
-/

namespace CgiFileStore

open CSem Search Redis

/-! ## query_parse_key_value -/

/-- `while ('\0' != *end && '#' != *end && '&' != *end)`. -/
def valueEnd : List Byte → Checked Nat
  | [] => .error .read
  | c :: cs =>
    if c ≠ 0 ∧ c ≠ 35 ∧ c ≠ 38 then do
      let n ← valueEnd cs
      return n + 1
    else .ok 0

/-- The return value, the array `value`, and what is stored through the pointer to the length
if that is not NULL and something is stored. -/
structure QueryGet where
  ret : Int
  value : List Byte
  valueLen : Option Int
  deriving DecidableEq

/-- The common body of the two lookups; `missing` is returned when the key does not occur. -/
def copyQueryValue (missing : Int) (query : List Byte) (key : CStr) (value : List Byte) :
    Checked QueryGet := do
  match ← strstr query key.bytes with
  | none => return { ret := missing, value, valueLen := none }
  | some p =>
    -- behind the key and one byte more, which nothing compares with `=`
    let temp := query.drop (p + key.bytes.length + 1)
    let valueLen := wrapInt (← valueEnd temp)
    -- a negative length converts to a huge `size_t`
    if valueLen < 0 then throw .write
    else
      let value ← strncpy value 0 temp valueLen.toNat
      let value ← store value valueLen.toNat 0
      return { ret := 0, value, valueLen := some valueLen }

def queryParseKeyValue (query : List Byte) (key : CStr) (value : List Byte) : Checked QueryGet :=
  copyQueryValue (-1) query key value

/-! ## get_value_by_col -/

def backslash : Byte := 92

def newline : Byte := 10

/-- The loop for the first column, from position `pos` on. -/
def firstColEnd : Byte → List Byte → Nat → Checked Nat
  | _, [], _ => .error .read
  | prev, c :: cs, pos =>
    if c ≠ delimiter ∧ prev ≠ backslash then firstColEnd c cs (pos + 1) else .ok pos

/-- The loop for the other columns: `value_head` and `pos` when column `col` ends, or none
when the line ends before. -/
def colEnd (col : Int) : Byte → List Byte → Nat → Nat → Int → Checked (Option (Nat × Nat))
  | _, [], _, _, _ => .error .read
  | prev, c :: cs, pos, valueHead, tmpCol =>
    if (c = delimiter ∧ prev ≠ backslash) ∨ c = newline then
      if tmpCol + 1 = col then .ok (some (valueHead, pos))
      else if c = newline then .ok none
      else colEnd col c cs (pos + 1) (pos + 1) (tmpCol + 1)
    else colEnd col c cs (pos + 1) valueHead tmpCol

/-- The copy at the end of a column. A negative length converts to a huge `size_t`. -/
def copyColumn (line : List Byte) (valueHead pos : Nat) (value : List Byte) (maxLen : Int)
    (withQuote : Bool) : Checked (List Byte) := do
  let start := if withQuote then valueHead + 1 else valueHead
  let len : Int := pos - valueHead - (if withQuote then 2 else 0)
  let valueLen := if len > maxLen then maxLen else len
  if valueLen < 0 then throw .write
  else if line.length < start + valueLen.toNat then throw .read
  else
    let value ← memcpy value 0 ((line.drop start).take valueLen.toNat)
    store value valueLen.toNat 0

/-- `get_value_by_col`. The result is `value`, or none for NULL; then nothing was written. -/
def getValueByCol (prev : Byte) (line : List Byte) (col : Int) (value : List Byte) (maxLen : Int)
    (withQuote : Bool) : Checked (Option (List Byte)) := do
  if col < 1 then return some value
  else
    let maxLen ← toChecked (maxLen - 1)
    if col = 1 then
      let pos ← firstColEnd prev line 0
      let value ← copyColumn line 0 pos value maxLen withQuote
      return some value
    else
      match ← colEnd col prev line 0 0 0 with
      | none => return none
      | some (valueHead, pos) =>
        let value ← copyColumn line valueHead pos value maxLen withQuote
        return some value

theorem length_copyColumn {line value r : List Byte} {valueHead pos : Nat} {maxLen : Int}
    {withQuote : Bool} (h : copyColumn line valueHead pos value maxLen withQuote = .ok r) :
    r.length = value.length := by
  unfold copyColumn at h
  dsimp only at h
  split_ifs at h
  all_goals first
    | cases h
    | obtain ⟨buf, hbuf, h⟩ := bind_eq_ok.mp h
      rw [length_store h, length_memcpy hbuf]

/-- The array that is handed back, if one is, has the size of the one given. -/
theorem length_getValueByCol {prev : Byte} {line value : List Byte} {col maxLen : Int}
    {withQuote : Bool} {r : Option (List Byte)}
    (h : getValueByCol prev line col value maxLen withQuote = .ok r) :
    (r.getD value).length = value.length := by
  unfold getValueByCol at h
  split at h
  · obtain rfl : some value = r := by simpa using h
    rfl
  · obtain ⟨maxLen', -, h⟩ := bind_eq_ok.mp h
    split at h
    · obtain ⟨pos, -, h⟩ := bind_eq_ok.mp h
      obtain ⟨buf, hbuf, h⟩ := bind_eq_ok.mp h
      obtain rfl : some buf = r := by simpa using h
      exact length_copyColumn hbuf
    · obtain ⟨range, -, h⟩ := bind_eq_ok.mp h
      cases range with
      | none =>
        obtain rfl : none = r := by simpa using h
        rfl
      | some range =>
        obtain ⟨buf, hbuf, h⟩ := bind_eq_ok.mp h
        obtain rfl : some buf = r := by simpa using h
        exact length_copyColumn hbuf

/-! ## What the loops pass over -/

/-- No byte of `s` ends a column when `prev` stands in front. -/
def Unbroken : Byte → List Byte → Prop
  | _, [] => True
  | prev, c :: cs => (¬ (c = delimiter ∧ prev ≠ backslash) ∧ c ≠ newline) ∧ Unbroken c cs

/-- The last byte of `s`, or `prev` if there is none. -/
def lastByte : Byte → List Byte → Byte
  | prev, [] => prev
  | _, c :: cs => lastByte c cs

/-- A field that is ended by the delimiter behind it and by nothing before. -/
def Closed (prev : Byte) (s : List Byte) : Prop := Unbroken prev s ∧ lastByte prev s ≠ backslash

instance decidableUnbroken : (prev : Byte) → (s : List Byte) → Decidable (Unbroken prev s)
  | _, [] => .isTrue trivial
  | _, c :: cs =>
    have := decidableUnbroken c cs
    inferInstanceAs (Decidable (_ ∧ _))

instance (prev : Byte) (s : List Byte) : Decidable (Closed prev s) :=
  inferInstanceAs (Decidable (_ ∧ _))

theorem lastByte_mem {prev : Byte} {s : List Byte} (h : s ≠ []) : lastByte prev s ∈ s := by
  induction s generalizing prev with
  | nil => exact absurd rfl h
  | cons c cs ih =>
    by_cases hcs : cs = []
    · simp [lastByte, hcs]
    · exact List.mem_cons_of_mem _ (ih hcs)

theorem unbroken_of_notMem {prev : Byte} {s : List Byte} (hd : delimiter ∉ s)
    (hn : newline ∉ s) : Unbroken prev s := by
  induction s generalizing prev with
  | nil => trivial
  | cons c cs ih =>
    simp only [List.mem_cons, not_or] at hd hn
    exact ⟨⟨fun h => hd.1 h.1.symm, Ne.symm hn.1⟩, ih hd.2 hn.2⟩

theorem newline_notMem_of_unbroken {prev : Byte} {s : List Byte} (h : Unbroken prev s) :
    newline ∉ s := by
  induction s generalizing prev with
  | nil => exact List.not_mem_nil
  | cons c cs ih =>
    rw [List.mem_cons, not_or]
    exact ⟨Ne.symm h.1.2, ih h.2⟩

theorem unbroken_append {prev : Byte} {s t : List Byte} (hs : Unbroken prev s)
    (ht : Unbroken (lastByte prev s) t) : Unbroken prev (s ++ t) := by
  induction s generalizing prev with
  | nil => exact ht
  | cons c cs ih => exact ⟨hs.1, ih hs.2 ht⟩

theorem lastByte_append (prev : Byte) (s t : List Byte) :
    lastByte prev (s ++ t) = lastByte (lastByte prev s) t := by
  induction s generalizing prev with
  | nil => rfl
  | cons c cs ih => exact ih c

/-- A field that ends with a backslash takes in the delimiter and the field behind it. -/
theorem closed_append_delimiter {prev : Byte} {s t : List Byte} (hs : Unbroken prev s)
    (hlast : lastByte prev s = backslash) (ht : Closed delimiter t) :
    Closed prev (s ++ delimiter :: t) := by
  constructor
  · refine unbroken_append hs ⟨⟨fun h => h.2 hlast, by decide⟩, ht.1⟩
  · rw [lastByte_append]
    exact ht.2

/-- A non-empty field without the three special bytes is closed whatever stands in front. -/
theorem closed_of_notMem {prev : Byte} {s : List Byte} (hs : s ≠ []) (hd : delimiter ∉ s)
    (hn : newline ∉ s) (hb : backslash ∉ s) : Closed prev s :=
  ⟨unbroken_of_notMem hd hn, fun h => hb (h ▸ lastByte_mem hs)⟩

/-- The first byte that ends a column. -/
theorem exists_break {prev : Byte} {s : List Byte} (h : ¬ Unbroken prev s) :
    ∃ a c b, s = a ++ c :: b ∧ Unbroken prev a ∧
      ((c = delimiter ∧ lastByte prev a ≠ backslash) ∨ c = newline) := by
  induction s generalizing prev with
  | nil => exact absurd trivial h
  | cons c cs ih =>
    by_cases hc : (c = delimiter ∧ prev ≠ backslash) ∨ c = newline
    · exact ⟨[], c, cs, rfl, trivial, hc⟩
    · have hcs : ¬ Unbroken c cs := fun hcs => h ⟨not_or.mp hc, hcs⟩
      obtain ⟨a, d, b, rfl, ha, hd⟩ := ih hcs
      exact ⟨c :: a, d, b, rfl, ⟨not_or.mp hc, ha⟩, hd⟩

section

variable {prev : Byte} {s rest : List Byte}

theorem colEnd_unbroken (h : Unbroken prev s) (col : Int) (pos valueHead : Nat) (tmpCol : Int) :
    colEnd col prev (s ++ rest) pos valueHead tmpCol =
      colEnd col (lastByte prev s) rest (pos + s.length) valueHead tmpCol := by
  induction s generalizing prev pos with
  | nil => simp [lastByte]
  | cons c cs ih =>
    rw [List.cons_append, colEnd, if_neg (not_or.mpr h.1), ih h.2, lastByte, List.length_cons,
      Nat.add_assoc, Nat.add_comm 1]

/-- A column is ended by the first byte that can end one. -/
theorem colEnd_break {c : Byte} (h : Unbroken prev s)
    (hc : (c = delimiter ∧ lastByte prev s ≠ backslash) ∨ c = newline) (col : Int)
    (pos valueHead : Nat) {tmpCol : Int} (hcol : tmpCol + 1 = col) :
    colEnd col prev (s ++ c :: rest) pos valueHead tmpCol =
      .ok (some (valueHead, pos + s.length)) := by
  rw [colEnd_unbroken h, colEnd, if_pos hc, if_pos hcol]

theorem colEnd_closed (h : Closed prev s) (col : Int) (pos valueHead : Nat) {tmpCol : Int}
    (hcol : tmpCol + 1 ≠ col) :
    colEnd col prev (s ++ delimiter :: rest) pos valueHead tmpCol =
      colEnd col delimiter rest (pos + s.length + 1) (pos + s.length + 1) (tmpCol + 1) := by
  rw [colEnd_unbroken h.1, colEnd, if_pos (.inl ⟨rfl, h.2⟩), if_neg hcol, if_neg (by decide)]

end

/-! ## Lines of closed fields -/

/-- The fields, each with the delimiter behind it. -/
def delimited (fields : List (List Byte)) : List Byte := fields.flatMap (· ++ [delimiter])

/-- All fields are closed, the first one behind `prev`. -/
def AllClosed : Byte → List (List Byte) → Prop
  | _, [] => True
  | prev, f :: fs => Closed prev f ∧ AllClosed delimiter fs

/-- The byte in front of what follows the fields. -/
def frontByte (prev : Byte) (fields : List (List Byte)) : Byte :=
  if fields = [] then prev else delimiter

/-- The loop passes over closed fields in front of the column. -/
theorem colEnd_delimited {prev : Byte} {fields : List (List Byte)} (hfields : AllClosed prev fields)
    (rest : List Byte) (pos : Nat) {col tmpCol : Int} (hcol : tmpCol + fields.length < col) :
    colEnd col prev (delimited fields ++ rest) pos pos tmpCol =
      colEnd col (frontByte prev fields) rest (pos + (delimited fields).length)
        (pos + (delimited fields).length) (tmpCol + fields.length) := by
  induction fields generalizing prev pos tmpCol with
  | nil => simp [delimited, frontByte]
  | cons g gs ih =>
    have hfront : frontByte delimiter gs = frontByte prev (g :: gs) := by simp [frontByte]
    have hline : delimited (g :: gs) ++ rest = g ++ delimiter :: (delimited gs ++ rest) := by
      simp [delimited]
    have hlen : (delimited (g :: gs)).length = g.length + 1 + (delimited gs).length := by
      simp [delimited]
      omega
    have hpos : pos + (delimited (g :: gs)).length =
        pos + g.length + 1 + (delimited gs).length := by
      omega
    simp only [List.length_cons, Nat.cast_succ] at hcol ⊢
    rw [hline, colEnd_closed hfields.1 _ _ _ (by omega), ih hfields.2 _ (by omega), hfront, hpos]
    congr 1
    omega

/-- The column behind `fields` closed ones is found by the general loop. -/
theorem colEnd_column {prev c : Byte} {fields : List (List Byte)} {f : List Byte}
    (hfields : AllClosed prev fields) (hf : Unbroken (frontByte prev fields) f)
    (hc : (c = delimiter ∧ lastByte (frontByte prev fields) f ≠ backslash) ∨ c = newline)
    (rest : List Byte) (pos : Nat) (tmpCol : Int) :
    colEnd (tmpCol + fields.length + 1) prev (delimited fields ++ (f ++ c :: rest)) pos pos tmpCol =
      .ok (some (pos + (delimited fields).length,
        pos + (delimited fields).length + f.length)) := by
  rw [colEnd_delimited hfields _ _ (by omega)]
  exact colEnd_break hf hc _ _ _ rfl

/-! ## The copy of a column -/

section

variable {a f rest value : List Byte} {maxLen : Int}

/-- The copy of a field without quotes is the write of its first `maxLen` bytes and a NUL. -/
theorem copyColumn_eq (hmax : 0 ≤ maxLen) :
    copyColumn (a ++ (f ++ rest)) a.length (a.length + f.length) value maxLen false =
      (memcpy value 0 (f.take maxLen.toNat) >>= fun value =>
        store value (f.take maxLen.toNat).length 0) := by
  have hlen : (if (f.length : Int) > maxLen then maxLen else (f.length : Int)) =
      ((f.take maxLen.toNat).length : Nat) := by
    rw [List.length_take]
    split <;> omega
  have hcopy : ((a ++ (f ++ rest)).drop a.length).take (f.take maxLen.toNat).length =
      f.take maxLen.toNat := by
    rw [List.drop_left, List.take_append_of_le_length (by simp), List.length_take,
      ← List.take_eq_take_min]
  have hsub : ((a.length + f.length : Nat) : Int) - a.length - 0 = f.length := by omega
  simp only [copyColumn, Bool.false_eq_true, if_false, hsub, hlen, Int.toNat_natCast, hcopy]
  rw [if_neg (by omega), if_neg (by simp only [List.length_append, List.length_take]; omega)]

end

end CgiFileStore
