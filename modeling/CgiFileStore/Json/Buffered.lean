import CgiFileStore.Json.Numbers

/-!
# cJSON_PrintBuffered

The print functions with a `printbuffer` append to one block, which `ensure` replaces by a larger
one where it is too small. Any of the allocations may fail. What is returned is the text of
`cJSON_Print` or `cJSON_PrintUnformatted`, or NULL; nothing is written outside of the block, and
no block is lost.
-/

namespace CgiFileStore.Json

open CSem

/-! ## The source -/

/-- A `printbuffer`, with the sizes that `malloc` was asked for, and the numbers of blocks granted
and of blocks freed. -/
structure PrintBuffer where
  buffer : Option (List Byte)
  length : Int
  offset : Int
  asked : List Nat
  granted : Nat
  freed : Nat

/-- A print function returns a pointer into the buffer, as an offset, or NULL. -/
abbrev Printer := PrintBuffer → Checked (Option Int × PrintBuffer)

def pow2gt (x : Nat) : Nat :=
  let x := x - 1
  let x := x ||| x >>> 1
  let x := x ||| x >>> 2
  let x := x ||| x >>> 4
  let x := x ||| x >>> 8
  let x := x ||| x >>> 16
  x + 1

section

variable (d : Doubles) (allocs : Nat → Allocator)

/-- `ensure`; `allocs i` is the allocator at the call `i` of `malloc`. -/
def ensure (needed : Int) : Printer := fun p =>
  match p.buffer with
  | none => .ok (none, p)
  | some buffer => do
    let needed ← toChecked (needed + p.offset)
    if needed ≤ p.length then return (some p.offset, p)
    else
      let newsize ← toChecked (pow2gt needed.toNat)
      let asked := p.asked ++ [toSize newsize]
      match (allocs p.asked.length).malloc (toSize newsize) with
      | none => return (none, { p with buffer := none, length := 0, asked, freed := p.freed + 1 })
      | some b =>
        if buffer.length < p.length.toNat then throw .read
        else
          let newbuffer ← memcpy b.bytes 0 (buffer.take p.length.toNat)
          return (some p.offset,
            { p with
              buffer := some newbuffer
              length := newsize
              asked
              granted := p.granted + 1
              freed := p.freed + 1 })

/-- `update`. -/
def update (p : PrintBuffer) : Checked Int :=
  match p.buffer with
  | none => .ok 0
  | some buffer => do
    let str ← readString (buffer.drop p.offset.toNat)
    return wrapInt (p.offset + str.length)

/-- `ptr=ensure(p,needed)`, a NULL for NULL, the bytes stored at `ptr`, and `p->offset+=len`. -/
def emit (needed : Int) (bytes : List Byte) (len : Int) : Printer := fun p => do
  let (ptr, p) ← ensure allocs needed p
  match ptr, p.buffer with
  | some ptr, some buffer =>
    let buffer ← memcpy buffer ptr.toNat bytes
    let offset ← toChecked (p.offset + len)
    return (some ptr, { p with buffer := some buffer, offset })
  | _, _ => return (none, p)

/-- A function that returns NULL ends the caller, too. -/
def andThen (f g : Printer) : Printer := fun p => do
  let (ptr, p) ← f p
  if ptr = none then return (none, p) else g p

/-- The call of a print function whose result is not looked at, and `p->offset=update(p)`. -/
def updated (f : Printer) : Printer := fun p => do
  let (_, p) ← f p
  let offset ← update p
  return (some offset, { p with offset })

def nothing : Printer := fun p => .ok (some p.offset, p)

/-- The number of bytes that `print_number` asks for. -/
def numberSize (valueint : Int) (valuedouble : d.Double) : Int :=
  if d.eq valuedouble (d.ofInt 0) then 2
  else if d.le (d.fabs (d.sub (d.ofInt valueint) valuedouble)) d.epsilon ∧
      d.le valuedouble (d.ofInt intMax) ∧ d.le (d.ofInt intMin) valuedouble then 21
  else 64

/-- `print_string_ptr`, whose `len` counts what each byte takes. -/
def bufferString (str : List Byte) : Printer :=
  emit allocs (escapedLength str + 3) (printStringPtr str ++ [0]) 0

/-- The loop of `print_array`, with a print function for each child. -/
def bufferEntries (fmt : Bool) : List Printer → Printer
  | [] => nothing
  | child :: children =>
    andThen (updated child)
      (if children = [] then nothing
      else
        andThen
          (emit allocs ((if fmt then 2 else 1) + 1) (ascii "," ++ onlyFmt fmt (ascii " ") ++ [0])
            (if fmt then 2 else 1))
          (bufferEntries fmt children))

def bufferArray (fmt : Bool) (children : List Printer) : Printer := fun p =>
  if children = [] then emit allocs 3 (ascii "[]" ++ [0]) 0 p
  else do
    let i := p.offset
    let (ptr, p) ←
      andThen (emit allocs 1 (ascii "[") 1)
        (andThen (bufferEntries allocs fmt children) (emit allocs 2 (ascii "]" ++ [0]) 0)) p
    return (ptr.map fun _ => i, p)

/-- The loop of `print_object`, at the depth of the children. -/
def bufferMembers (fmt : Bool) (depth : Nat) : List (List Byte × Printer) → Printer
  | [] => nothing
  | (string, child) :: children =>
    andThen (if fmt then emit allocs depth (tabs depth) depth else nothing)
      (andThen (updated (bufferString allocs string))
        (andThen
          (emit allocs (if fmt then 2 else 1) (ascii ":" ++ onlyFmt fmt (ascii "\t"))
            (if fmt then 2 else 1))
          (andThen (updated child)
            (andThen
              (emit allocs ((if fmt then 1 else 0) + (if children = [] then 0 else 1) + 1)
                ((if children = [] then [] else ascii ",") ++ onlyFmt fmt (ascii "\n") ++ [0])
                ((if fmt then 1 else 0) + if children = [] then 0 else 1))
              (bufferMembers fmt depth children)))))

/-- In the end `i` counts the tabulators of the last line, if there are any. -/
def bufferObject (fmt : Bool) (depth : Nat) (children : List (List Byte × Printer)) : Printer :=
  fun p =>
    if children = [] then
      emit allocs (if fmt then depth + 4 else 3)
        (ascii "\x7b" ++ onlyFmt fmt (ascii "\n" ++ tabs (depth - 1)) ++ ascii "\x7d" ++ [0]) 0 p
    else do
      let i := p.offset
      let (ptr, p) ←
        andThen
          (emit allocs ((if fmt then 2 else 1) + 1) (ascii "\x7b" ++ onlyFmt fmt (ascii "\n") ++ [0])
            (if fmt then 2 else 1))
          (andThen (bufferMembers allocs fmt (depth + 1) children)
            (emit allocs (if fmt then depth + 2 else 2)
              (onlyFmt fmt (tabs depth) ++ ascii "\x7d" ++ [0]) 0)) p
      return (ptr.map fun _ => if fmt then (depth : Int) else i, p)

mutual

/-- `print_value` with a `printbuffer`. -/
def bufferValue (fmt : Bool) (depth : Nat) : JsonItem d.Double → Printer
  | .null => emit allocs 5 (ascii "null" ++ [0]) 0
  | .bool false => emit allocs 6 (ascii "false" ++ [0]) 0
  | .bool true => emit allocs 5 (ascii "true" ++ [0]) 0
  | .number valueint valuedouble =>
    emit allocs (numberSize d valueint valuedouble) (printNumber d valueint valuedouble ++ [0]) 0
  | .string valuestring => bufferString allocs valuestring
  | .array children => bufferArray allocs fmt (bufferChildren fmt (depth + 1) children)
  | .object children => bufferObject allocs fmt depth (bufferNamed fmt (depth + 1) children)

def bufferChildren (fmt : Bool) (depth : Nat) : List (JsonItem d.Double) → List Printer
  | [] => []
  | child :: children => bufferValue fmt depth child :: bufferChildren fmt depth children

def bufferChild (fmt : Bool) (depth : Nat) : List Byte × JsonItem d.Double → List Byte × Printer
  | (string, child) => (string, bufferValue fmt depth child)

def bufferNamed (fmt : Bool) (depth : Nat) :
    List (List Byte × JsonItem d.Double) → List (List Byte × Printer)
  | [] => []
  | child :: children => bufferChild fmt depth child :: bufferNamed fmt depth children

end

/-- `cJSON_PrintBuffered`. -/
def cJSONPrintBuffered (item : JsonItem d.Double) (prebuffer : Int) (fmt : Bool) :
    Checked (Option Int × PrintBuffer) :=
  let asked := [toSize prebuffer]
  match (allocs 0).malloc (toSize prebuffer) with
  | none =>
    bufferValue d allocs fmt 0 item
      { buffer := none, length := prebuffer, offset := 0, asked, granted := 0, freed := 0 }
  | some b =>
    bufferValue d allocs fmt 0 item
      { buffer := some b.bytes, length := prebuffer, offset := 0, asked, granted := 1, freed := 0 }

end

/-! ## The buffer -/

theorem pow2gt_bounds {x k : Nat} (hpos : 0 < x) (hx : x ≤ 2 ^ k) : x ≤ pow2gt x ∧ pow2gt x ≤ 2 ^ k := by
  have hshift : ∀ {y} (n : Nat), y < 2 ^ k → y ||| y >>> n < 2 ^ k := fun n hy =>
    Nat.or_lt_two_pow hy ((Nat.shiftRight_le _ n).trans_lt hy)
  have hlt : x - 1 < 2 ^ k := by omega
  have hle : ∀ y n : Nat, y ≤ y ||| y >>> n := fun _ _ => Nat.left_le_or
  have hup := hshift 16 (hshift 8 (hshift 4 (hshift 2 (hshift 1 hlt))))
  have hlow := (((((hle (x - 1) 1).trans (hle _ 2)).trans (hle _ 4)).trans (hle _ 8)).trans (hle _ 16))
  unfold pow2gt
  dsimp only
  omega

/-- The bytes `t` have been printed. -/
structure Holds (p : PrintBuffer) (t : List Byte) : Prop where
  buffer : ∃ rest, p.buffer = some (t ++ rest) ∧ p.length = (t ++ rest).length
  offset : p.offset = t.length
  blocks : p.granted = p.freed + 1 ∧ p.granted = p.asked.length

/-- The bytes `t` and a NUL have been printed, and what stands behind the offset is the end
of `t`. -/
structure Ended (p : PrintBuffer) (t : List Byte) : Prop where
  buffer : ∃ rest, p.buffer = some (t ++ 0 :: rest) ∧ p.length = (t ++ 0 :: rest).length
  offset : ∃ k ≤ t.length, p.offset = k ∧ 0 ∉ t.drop k
  blocks : p.granted = p.freed + 1 ∧ p.granted = p.asked.length

/-- The last allocation has failed, and the buffer has been freed. -/
structure Lost (allocs : Nat → Allocator) (p : PrintBuffer) : Prop where
  buffer : p.buffer = none
  blocks : p.granted = p.freed
  refused : ∃ sizes n, p.asked = sizes ++ [n] ∧ (allocs sizes.length).malloc n = none

section

variable {allocs : Nat → Allocator} {p : PrintBuffer} {t w v : List Byte}

theorem ensure_of_lost (h : Lost allocs p) (needed : Int) :
    ensure allocs needed p = .ok (none, p) := by
  simp only [ensure, h.buffer]

variable (allocs) in
/-- `ensure` makes room, and keeps what has been printed. -/
theorem ensure_of_holds (h : Holds p t) {n : Nat} (hpos : 0 < n) (hfit : t.length + n ≤ 2 ^ 30) :
    ∃ ptr p', ensure allocs n p = .ok (ptr, p') ∧
      (ptr = none ∧ Lost allocs p' ∨
        ptr = some p.offset ∧ Holds p' t ∧ p'.offset = p.offset ∧ (t.length + n : Int) ≤ p'.length) := by
  obtain ⟨⟨rest, hbuffer, hlength⟩, hoffset, hblocks⟩ := h
  have hsum : toChecked (n + p.offset) = .ok (n + p.offset) :=
    toChecked_of_isInt (by simp only [IsInt, intMin, intMax]; omega)
  simp only [ensure, hbuffer]
  rw [hsum, ok_bind]
  by_cases hroom : n + p.offset ≤ p.length
  · rw [if_pos hroom]
    exact ⟨_, p, rfl, .inr ⟨rfl, ⟨⟨rest, hbuffer, hlength⟩, hoffset, hblocks⟩, rfl, by omega⟩⟩
  · obtain ⟨hlow, hup⟩ := pow2gt_bounds (x := (n + p.offset).toNat) (k := 30) (by omega) (by omega)
    have hsize : toChecked (pow2gt (n + p.offset).toNat) = .ok (pow2gt (n + p.offset).toNat : Int) :=
      toChecked_of_isInt (by simp only [IsInt, intMin, intMax]; omega)
    rw [if_neg hroom, hsize, ok_bind, toSize_of_nonneg (Int.natCast_nonneg _) (by omega),
      Int.toNat_natCast]
    cases hb : (allocs p.asked.length).malloc (pow2gt (n + p.offset).toNat) with
    | none => exact ⟨_, _, rfl, .inl ⟨rfl, rfl, hblocks.1, _, _, rfl, hb⟩⟩
    | some b =>
      have hlen := (allocs p.asked.length).length_of_malloc _ b hb
      have hall : (t ++ rest).take p.length.toNat = t ++ rest :=
        List.take_of_length_le (by omega)
      dsimp only
      rw [if_neg (by omega), hall, memcpy_zero (by omega), ok_bind]
      refine ⟨_, _, rfl, .inr ⟨rfl, ⟨⟨rest ++ b.bytes.drop (t ++ rest).length, ?_, ?_⟩, hoffset,
        ?_, ?_⟩, rfl, ?_⟩⟩
      · simp
      · simp only [List.length_append, List.length_drop] at hlength ⊢
        omega
      · dsimp only
        omega
      · dsimp only
        rw [List.length_append, List.length_singleton, hblocks.2]
      · dsimp only
        omega

theorem emit_of_lost (h : Lost allocs p) (needed : Int) (bytes : List Byte) (len : Int) :
    emit allocs needed bytes len p = .ok (none, p) := by
  rw [emit, ensure_of_lost h, ok_bind]
  rfl

variable (allocs) in
/-- What `emit` stores, where there is room for it. -/
theorem emit_of_holds (h : Holds p t) (n : Nat) (bytes : List Byte) (len : Nat) (hpos : 0 < n)
    (hbytes : bytes.length ≤ n) (hfit : t.length + n ≤ 2 ^ 30)
    (hlen : t.length + len ≤ 2 ^ 30) :
    ∃ ptr p', emit allocs n bytes len p = .ok (ptr, p') ∧
      (ptr = none ∧ Lost allocs p' ∨
        ptr = some p.offset ∧ p'.offset = (t.length + len : Nat) ∧
          (p'.granted = p'.freed + 1 ∧ p'.granted = p'.asked.length) ∧
          ∃ rest, p'.buffer = some (t ++ bytes ++ rest) ∧
            p'.length = (t ++ bytes ++ rest).length) := by
  obtain ⟨ptr, p₁, hensure, ⟨rfl, hlost⟩ | ⟨rfl, hheld, hsame, hroom⟩⟩ :=
    ensure_of_holds allocs h hpos hfit
  · refine ⟨none, p₁, ?_, .inl ⟨rfl, hlost⟩⟩
    rw [emit, hensure, ok_bind]
    rfl
  · obtain ⟨⟨rest, hbuffer, hlength⟩, hoffset, hblocks⟩ := hheld
    have hat : p.offset = t.length := hsame ▸ hoffset
    have hstep : toChecked (p₁.offset + len) = .ok (t.length + len : Nat) := by
      rw [hoffset]
      exact toChecked_of_isInt (by simp only [IsInt, intMin, intMax]; omega)
    have hroom : bytes.length ≤ rest.length := by
      rw [hlength, List.length_append] at hroom
      omega
    refine ⟨_, { p₁ with
      buffer := some (t ++ bytes ++ rest.drop bytes.length), offset := (t.length + len : Nat) }, ?_,
      .inr ⟨rfl, rfl, hblocks, rest.drop bytes.length, rfl, ?_⟩⟩
    · rw [emit, hensure, ok_bind]
      simp only [hbuffer, hat, Int.toNat_natCast]
      rw [memcpy_left hroom, ok_bind, hstep, ok_bind]
      rfl
    · simp only [List.length_append, List.length_drop] at hlength ⊢
      omega

/-! ## What print functions append -/

/-- Called behind `t`, the function prints `w` and leaves the offset behind it, or fails. -/
structure Appends (allocs : Nat → Allocator) (f : Printer) (w : List Byte) : Prop where
  run : ∀ p t, Holds p t → t.length + w.length + 64 ≤ 2 ^ 30 →
    ∃ ptr p', f p = .ok (ptr, p') ∧ (Lost allocs p' ∨ ptr ≠ none ∧ Holds p' (t ++ w))
  lost : ∀ p, Lost allocs p → ∃ ptr p', f p = .ok (ptr, p') ∧ Lost allocs p'

/-- Called behind `t`, the function prints `w` and a NUL, or it fails and returns NULL. -/
structure Prints (allocs : Nat → Allocator) (f : Printer) (w : List Byte) : Prop where
  run : ∀ p t, Holds p t → t.length + w.length + 64 ≤ 2 ^ 30 →
    ∃ ptr p', f p = .ok (ptr, p') ∧
      (ptr = none ∧ Lost allocs p' ∨ ptr ≠ none ∧ Ended p' (t ++ w))
  lost : ∀ p, Lost allocs p → ∃ p', f p = .ok (none, p') ∧ Lost allocs p'

variable (allocs) in
theorem appends_nothing : Appends allocs nothing [] where
  run p t h _ := ⟨_, p, rfl, .inr ⟨by simp, by rwa [List.append_nil]⟩⟩
  lost p h := ⟨_, p, rfl, h⟩

theorem appends_emit {needed len : Int} {bytes : List Byte} (z : List Byte) (hbytes : bytes = w ++ z)
    (hlen : len = w.length) (hpos : 0 < needed) (hroom : bytes.length ≤ needed)
    (hneeded : needed ≤ w.length + 64) : Appends allocs (emit allocs needed bytes len) w where
  run p t h hfit := by
    obtain ⟨n, rfl⟩ := Int.eq_ofNat_of_zero_le hpos.le
    subst hbytes hlen
    obtain ⟨ptr, p', hemit, ⟨rfl, hlost⟩ | ⟨rfl, hoffset, hblocks, rest, hbuffer, hlength⟩⟩ :=
      emit_of_holds allocs h n (w ++ z) w.length (by omega) (by omega) (by omega) (by omega)
    · exact ⟨_, p', hemit, .inl hlost⟩
    · refine ⟨_, p', hemit, .inr ⟨Option.some_ne_none _, ⟨z ++ rest, ?_, ?_⟩, ?_, hblocks⟩⟩
      · simpa using hbuffer
      · simpa [Nat.add_assoc] using hlength
      · rw [hoffset, List.length_append]
  lost p h := ⟨_, p, emit_of_lost h _ _ _, h⟩

theorem prints_emit {needed : Int} {bytes : List Byte} (hbytes : bytes = w ++ [0]) (h0 : 0 ∉ w)
    (hroom : w.length < needed) (hneeded : needed ≤ w.length + 64) :
    Prints allocs (emit allocs needed bytes 0) w where
  run p t h hfit := by
    obtain ⟨n, rfl⟩ := Int.eq_ofNat_of_zero_le (show 0 ≤ needed by omega)
    subst hbytes
    obtain ⟨ptr, p', hemit, ⟨rfl, hlost⟩ | ⟨rfl, hoffset, hblocks, rest, hbuffer, hlength⟩⟩ :=
      emit_of_holds allocs h n (w ++ [0]) 0 (by omega) (by simp; omega) (by omega) (by omega)
    · exact ⟨_, p', hemit, .inl ⟨rfl, hlost⟩⟩
    · refine ⟨_, p', hemit, .inr ⟨Option.some_ne_none _, ⟨rest, ?_, ?_⟩,
        ⟨t.length, by simp, hoffset, ?_⟩, hblocks⟩⟩
      · simpa using hbuffer
      · simpa using hlength
      · rwa [List.drop_left]
  lost p h := ⟨p, emit_of_lost h _ _ _, h⟩

/-! ## Composition -/

variable {f g : Printer} {p' : PrintBuffer}

theorem andThen_none (h : f p = .ok (none, p')) : andThen f g p = .ok (none, p') := by
  rw [andThen, h, ok_bind]
  rfl

theorem andThen_some {ptr : Int} (h : f p = .ok (some ptr, p')) : andThen f g p = g p' := by
  rw [andThen, h, ok_bind]
  rfl

theorem Appends.andThen (hf : Appends allocs f w) (hg : Appends allocs g v) :
    Appends allocs (Json.andThen f g) (w ++ v) where
  run p t h hfit := by
    rw [List.length_append] at hfit
    obtain ⟨ptr, p₁, heq, hrun⟩ := hf.run p t h (by omega)
    cases ptr with
    | none =>
      exact ⟨none, p₁, andThen_none heq, .inl (hrun.resolve_right fun h => h.1 rfl)⟩
    | some ptr =>
      rw [andThen_some heq, ← List.append_assoc]
      obtain hlost | ⟨-, hheld⟩ := hrun
      · obtain ⟨ptr', p', heq', hlost'⟩ := hg.lost p₁ hlost
        exact ⟨ptr', p', heq', .inl hlost'⟩
      · exact hg.run p₁ (t ++ w) hheld (by rw [List.length_append]; omega)
  lost p h := by
    obtain ⟨ptr, p₁, heq, hlost⟩ := hf.lost p h
    cases ptr with
    | none => exact ⟨none, p₁, andThen_none heq, hlost⟩
    | some ptr => exact andThen_some (g := g) heq ▸ hg.lost p₁ hlost

theorem Appends.andThen_prints (hf : Appends allocs f w) (hg : Prints allocs g v) :
    Prints allocs (Json.andThen f g) (w ++ v) where
  run p t h hfit := by
    rw [List.length_append] at hfit
    obtain ⟨ptr, p₁, heq, hrun⟩ := hf.run p t h (by omega)
    cases ptr with
    | none =>
      exact ⟨none, p₁, andThen_none heq, .inl ⟨rfl, hrun.resolve_right fun h => h.1 rfl⟩⟩
    | some ptr =>
      rw [andThen_some heq, ← List.append_assoc]
      obtain hlost | ⟨-, hheld⟩ := hrun
      · obtain ⟨p', heq', hlost'⟩ := hg.lost p₁ hlost
        exact ⟨none, p', heq', .inl ⟨rfl, hlost'⟩⟩
      · exact hg.run p₁ (t ++ w) hheld (by rw [List.length_append]; omega)
  lost p h := by
    obtain ⟨ptr, p₁, heq, hlost⟩ := hf.lost p h
    cases ptr with
    | none => exact ⟨p₁, andThen_none heq, hlost⟩
    | some ptr => exact andThen_some (g := g) heq ▸ hg.lost p₁ hlost

theorem updated_of_lost {ptr : Option Int} (heq : f p = .ok (ptr, p')) (h : Lost allocs p') :
    updated f p = .ok (some 0, { p' with offset := 0 }) := by
  simp only [updated, heq, ok_bind, update, h.buffer]
  rfl

/-- `update` puts the offset behind what was printed. -/
theorem Prints.updated (h : Prints allocs f w) : Appends allocs (Json.updated f) w where
  run p t hp hfit := by
    obtain ⟨ptr, p', heq, ⟨rfl, hlost⟩ | ⟨-, ⟨rest, hbuffer, hlength⟩, ⟨k, hk, hoffset, h0⟩, hblocks⟩⟩ :=
      h.run p t hp hfit
    · exact ⟨_, _, updated_of_lost heq hlost, .inl ⟨hlost.buffer, hlost.blocks, hlost.refused⟩⟩
    · have hread : readString ((t ++ w ++ 0 :: rest).drop p'.offset.toNat) = .ok ((t ++ w).drop k) := by
        rw [hoffset, Int.toNat_natCast, List.drop_append_of_le_length hk, readString_append_zero h0]
      have hend : p'.offset + ((t ++ w).drop k).length = ((t ++ w).length : Int) := by
        rw [hoffset, List.length_drop]
        omega
      have hwrap : wrapInt ((t ++ w).length : Int) = (t ++ w).length := by
        refine wrapInt_of_isInt ?_
        rw [List.length_append]
        simp only [IsInt, intMin, intMax]
        omega
      refine ⟨some (t ++ w).length, { p' with offset := (t ++ w).length }, ?_,
        .inr ⟨Option.some_ne_none _, ⟨0 :: rest, hbuffer, hlength⟩, rfl, hblocks⟩⟩
      rw [Json.updated, heq, ok_bind]
      simp only [update, hbuffer, hread, ok_bind, hend, hwrap]
      rfl
  lost p hp := by
    obtain ⟨p', heq, hlost⟩ := h.lost p hp
    exact ⟨_, _, updated_of_lost heq hlost, hlost.buffer, hlost.blocks, hlost.refused⟩

/-! ## Items -/

variable (allocs)

theorem prints_string (str : List Byte) :
    Prints allocs (bufferString allocs str) (printStringPtr str) := by
  have hlen := length_printStringPtr str
  exact prints_emit rfl (zero_notMem_printStringPtr str) (by omega) (by omega)

/-- What stands between two children. -/
theorem appends_comma (fmt : Bool) :
    Appends allocs
      (emit allocs ((if fmt then 2 else 1) + 1) (ascii "," ++ onlyFmt fmt (ascii " ") ++ [0])
        (if fmt then 2 else 1)) (ascii "," ++ onlyFmt fmt (ascii " ")) := by
  refine appends_emit [0] rfl ?_ ?_ ?_ ?_
  all_goals cases fmt <;> decide

theorem appends_entries {α : Type} (fmt : Bool) {f : α → Printer} {print : α → List Byte}
    {children : List α} (h : ∀ c ∈ children, Prints allocs (f c) (print c)) :
    Appends allocs (bufferEntries allocs fmt (children.map f))
      ((ascii "," ++ onlyFmt fmt (ascii " ")).intercalate (children.map print)) := by
  induction children with
  | nil => exact appends_nothing allocs
  | cons c children ih =>
    have hc := (h c List.mem_cons_self).updated
    rw [List.map_cons, bufferEntries]
    cases children with
    | nil =>
      have hone := hc.andThen (appends_nothing allocs)
      rw [List.append_nil] at hone
      simpa using hone
    | cons e children =>
      have hrest := (appends_comma allocs fmt).andThen (ih fun x hx => h x (List.mem_cons_of_mem _ hx))
      have hall := hc.andThen hrest
      rw [List.map_cons, if_neg (List.cons_ne_nil _ _), List.map_cons, List.map_cons,
        List.intercalate_cons_cons]
      simpa only [List.map_cons, List.append_assoc] using hall

theorem Prints.map_ptr {i : PrintBuffer → Int} (h : Prints allocs f w) :
    Prints allocs (fun p => do
      let (ptr, p') ← f p
      return (ptr.map fun _ => i p, p')) w where
  run p t hp hfit := by
    obtain ⟨ptr, p', heq, hrun⟩ := h.run p t hp hfit
    refine ⟨_, p', by rw [heq, ok_bind]; rfl, ?_⟩
    cases ptr with
    | none => exact .inl ⟨rfl, (hrun.resolve_right fun h => h.1 rfl).2⟩
    | some ptr => exact .inr ⟨Option.some_ne_none _, (hrun.resolve_left fun h => by cases h.1).2⟩
  lost p hp := by
    obtain ⟨p', heq, hlost⟩ := h.lost p hp
    exact ⟨p', by rw [heq, ok_bind]; rfl, hlost⟩

theorem prints_array {α : Type} (fmt : Bool) {f : α → Printer} {print : α → List Byte}
    {children : List α} (h : ∀ c ∈ children, Prints allocs (f c) (print c)) :
    Prints allocs (bufferArray allocs fmt (children.map f)) (printArray fmt (children.map print)) := by
  cases children with
  | nil => exact prints_emit (w := ascii "[]") rfl (by decide) (by decide) (by decide)
  | cons c children =>
    have hopen : Appends allocs (emit allocs 1 (ascii "[") 1) (ascii "[") :=
      appends_emit [] rfl (by decide) (by decide) (by decide) (by decide)
    have hclose : Prints allocs (emit allocs 2 (ascii "]" ++ [0]) 0) (ascii "]") :=
      prints_emit rfl (by decide) (by decide) (by decide)
    have hall := hopen.andThen_prints ((appends_entries allocs fmt h).andThen_prints hclose)
    rw [printArray, if_neg (by simp), List.append_assoc]
    exact hall.map_ptr (i := fun p => p.offset)

/-- A member is printed with the line end behind it. -/
theorem appends_members {α : Type} (fmt : Bool) {depth : Nat} (hdepth : 0 < depth)
    {s : α → List Byte} {f : α → Printer} {print : α → List Byte} {children : List α}
    (h : ∀ c ∈ children, Prints allocs (f c) (print c)) (hne : children ≠ []) :
    Appends allocs (bufferMembers allocs fmt depth (children.map fun c => (s c, f c)))
      ((ascii "," ++ onlyFmt fmt (ascii "\n")).intercalate
        ((children.map fun c => (printStringPtr (s c), print c)).map (printMember fmt depth)) ++
          onlyFmt fmt (ascii "\n")) := by
  induction children with
  | nil => exact absurd rfl hne
  | cons c children ih =>
    have htabs : Appends allocs (if fmt then emit allocs depth (tabs depth) depth else nothing)
        (onlyFmt fmt (tabs depth)) := by
      cases fmt with
      | false => exact appends_nothing allocs
      | true =>
        have hlen := length_tabs depth
        exact appends_emit [] (List.append_nil _).symm (by rw [onlyFmt, if_pos rfl, hlen])
          (by omega) (by omega) (by rw [onlyFmt, if_pos rfl]; omega)
    have hcolon : Appends allocs
        (emit allocs (if fmt then 2 else 1) (ascii ":" ++ onlyFmt fmt (ascii "\t"))
          (if fmt then 2 else 1)) (ascii ":" ++ onlyFmt fmt (ascii "\t")) := by
      refine appends_emit [] (List.append_nil _).symm ?_ ?_ ?_ ?_
      all_goals cases fmt <;> decide
    have hname := (prints_string allocs (s c)).updated
    have hvalue := (h c List.mem_cons_self).updated
    rw [List.map_cons, bufferMembers]
    cases children with
    | nil =>
      have hline : Appends allocs
          (emit allocs ((if fmt then 1 else 0) + 0 + 1) ([] ++ onlyFmt fmt (ascii "\n") ++ [0])
            ((if fmt then 1 else 0) + 0)) (onlyFmt fmt (ascii "\n")) := by
        refine appends_emit [0] rfl ?_ ?_ ?_ ?_
        all_goals cases fmt <;> decide
      have hall := htabs.andThen (hname.andThen (hcolon.andThen (hvalue.andThen
        (hline.andThen (appends_nothing allocs)))))
      simpa [printMember, bufferMembers] using hall
    | cons e children =>
      have hcomma : Appends allocs
          (emit allocs ((if fmt then 1 else 0) + 1 + 1)
            (ascii "," ++ onlyFmt fmt (ascii "\n") ++ [0]) ((if fmt then 1 else 0) + 1))
          (ascii "," ++ onlyFmt fmt (ascii "\n")) := by
        refine appends_emit [0] rfl ?_ ?_ ?_ ?_
        all_goals cases fmt <;> decide
      have hrest := ih (fun x hx => h x (List.mem_cons_of_mem _ hx)) (List.cons_ne_nil e children)
      have hall := htabs.andThen (hname.andThen (hcolon.andThen (hvalue.andThen
        (hcomma.andThen hrest))))
      simpa [printMember, List.intercalate_cons_cons] using hall

theorem prints_object {α : Type} (fmt : Bool) (depth : Nat) {s : α → List Byte}
    {f : α → Printer} {print : α → List Byte} {children : List α}
    (h : ∀ c ∈ children, Prints allocs (f c) (print c)) :
    Prints allocs (bufferObject allocs fmt depth (children.map fun c => (s c, f c)))
      (printObject fmt depth (children.map fun c => (printStringPtr (s c), print c))) := by
  have hopen : (ascii "\x7b").length = 1 ∧ 0 ∉ ascii "\x7b" := by decide
  have hclose : (ascii "\x7d").length = 1 ∧ 0 ∉ ascii "\x7d" := by decide
  have hline : (ascii "\n").length = 1 ∧ 0 ∉ ascii "\n" := by decide
  have htabs : ∀ n, (tabs n).length = n ∧ 0 ∉ tabs n := fun n => ⟨length_tabs n, zero_notMem_tabs n⟩
  by_cases hnil : children = []
  · subst hnil
    refine prints_emit (w := printObject fmt depth []) rfl ?_ ?_ ?_
    all_goals
      rw [printObject, if_pos rfl]
      cases fmt <;> simp [onlyFmt, hopen, hclose, hline, htabs] <;> omega
  · have hbegin : Appends allocs
        (emit allocs ((if fmt then 2 else 1) + 1) (ascii "\x7b" ++ onlyFmt fmt (ascii "\n") ++ [0])
          (if fmt then 2 else 1)) (ascii "\x7b" ++ onlyFmt fmt (ascii "\n")) := by
      refine appends_emit [0] rfl ?_ ?_ ?_ ?_
      all_goals cases fmt <;> decide
    have hend : Prints allocs (emit allocs (if fmt then depth + 2 else 2)
        (onlyFmt fmt (tabs depth) ++ ascii "\x7d" ++ [0]) 0)
        (onlyFmt fmt (tabs depth) ++ ascii "\x7d") := by
      refine prints_emit rfl ?_ ?_ ?_
      all_goals cases fmt <;> simp [onlyFmt, hclose, htabs] <;> omega
    have hall := hbegin.andThen_prints
      ((appends_members allocs (s := s) fmt (Nat.succ_pos depth) h hnil).andThen_prints hend)
    have hprint : printObject fmt depth (children.map fun c => (printStringPtr (s c), print c)) =
        ascii "\x7b" ++ onlyFmt fmt (ascii "\n") ++
          ((ascii "," ++ onlyFmt fmt (ascii "\n")).intercalate
            ((children.map fun c => (printStringPtr (s c), print c)).map
              (printMember fmt (depth + 1))) ++ onlyFmt fmt (ascii "\n") ++
            (onlyFmt fmt (tabs depth) ++ ascii "\x7d")) := by
      rw [printObject, if_neg (mt List.map_eq_nil_iff.mp hnil)]
      cases fmt <;> simp [onlyFmt]
    rw [hprint]
    cases children with
    | nil => exact absurd rfl hnil
    | cons c children => exact hall.map_ptr (i := fun p => if fmt then (depth : Int) else p.offset)

end

/-! ## Whole items -/

/-- Each `valueint` is an `int`. -/
inductive HasInts {Double : Type} : JsonItem Double → Prop
  | null : HasInts .null
  | bool (b) : HasInts (.bool b)
  | number (z x) (h : IsInt z) : HasInts (.number z x)
  | string (s) : HasInts (.string s)
  | array (children) (h : ∀ c ∈ children, HasInts c) : HasInts (.array children)
  | object (children) (h : ∀ c ∈ children, HasInts c.2) : HasInts (.object children)

section

variable {d : Doubles} {allocs : Nat → Allocator} {p p' : PrintBuffer}

theorem length_sprintfInt_lt {z : Int} (h : IsInt z) :
    (sprintfInt z).length < 21 := by
  have hdigits : (ascii (toString z.natAbs)).length ≤ 10 := by
    have hlist : (toString z.natAbs).toList = Nat.toDigits 10 z.natAbs := Nat.toList_repr
    rw [ascii, List.length_map, hlist, Nat.length_toDigits_le_iff (by decide) (by decide)]
    simp only [IsInt, intMin, intMax] at h
    omega
  have hminus : (ascii "-").length = 1 := by decide
  unfold sprintfInt
  split_ifs
  · rw [List.length_append]
    omega
  · omega

theorem prints_number {z : Int} (hz : IsInt z) (x : d.Double) :
    Prints allocs (emit allocs (numberSize d z x) (printNumber d z x ++ [0]) 0) (printNumber d z x) := by
  have hsize : ((printNumber d z x).length : Int) < numberSize d z x ∧ numberSize d z x ≤ 64 := by
    unfold printNumber numberSize
    split_ifs with hzero hint hfixed hexponent
    · exact ⟨by decide, by decide⟩
    · have hlen := length_sprintfInt_lt hz
      omega
    · have hlen := d.length_sprintf .fixed0 x (fun _ => hfixed.2) (fun h => by cases h)
      omega
    · have hlen := d.length_sprintf .exponent x (fun h => by cases h) (fun h => by cases h)
      omega
    · rw [not_or, Bool.not_eq_true, Bool.not_eq_true] at hexponent
      have hlen := d.length_sprintf .fixed6 x (fun h => by cases h) (fun _ => hexponent.2)
      omega
  exact prints_emit rfl (zero_notMem_printNumber z x) (by omega) (by omega)

theorem bufferChildren_eq_map (fmt : Bool) (depth : Nat) (children : List (JsonItem d.Double)) :
    bufferChildren d allocs fmt depth children = children.map (bufferValue d allocs fmt depth) := by
  induction children with
  | nil => rfl
  | cons child children ih => rw [bufferChildren, ih, List.map_cons]

theorem bufferNamed_eq_map (fmt : Bool) (depth : Nat)
    (children : List (List Byte × JsonItem d.Double)) :
    bufferNamed d allocs fmt depth children =
      children.map fun child => (child.1, bufferValue d allocs fmt depth child.2) := by
  induction children with
  | nil => rfl
  | cons child children ih =>
    obtain ⟨string, item⟩ := child
    rw [bufferNamed, ih, List.map_cons, bufferChild]

variable (allocs) in
/-- With a buffer, `print_value` prints what it prints without one. -/
theorem prints_value {item : JsonItem d.Double} (h : HasInts item) (fmt : Bool) (depth : Nat) :
    Prints allocs (bufferValue d allocs fmt depth item) (printValue d fmt depth item) := by
  induction h generalizing depth with
  | null => exact prints_emit (w := ascii "null") rfl (by decide) (by decide) (by decide)
  | bool b =>
    cases b with
    | false => exact prints_emit (w := ascii "false") rfl (by decide) (by decide) (by decide)
    | true => exact prints_emit (w := ascii "true") rfl (by decide) (by decide) (by decide)
  | number z x h => exact prints_number h x
  | string s => exact prints_string allocs s
  | array children h ih =>
    rw [bufferValue, printValue, bufferChildren_eq_map, printEntries_eq_map]
    exact prints_array allocs fmt fun c hc => ih c hc (depth + 1)
  | object children h ih =>
    rw [bufferValue, printValue, bufferNamed_eq_map, printMembers_eq_map]
    exact prints_object allocs fmt depth fun c hc => ih c hc (depth + 1)

/-! ## The pointer that is returned -/

theorem ensure_ptr {needed ptr : Int} (h : ensure allocs needed p = .ok (some ptr, p')) :
    ptr = p.offset := by
  unfold ensure at h
  split at h
  · cases h
  · obtain ⟨n, -, h⟩ := bind_eq_ok.mp h
    split at h
    · cases h
      rfl
    · obtain ⟨newsize, -, h⟩ := bind_eq_ok.mp h
      split at h
      · cases h
      · split at h
        · cases h
        · obtain ⟨newbuffer, -, h⟩ := bind_eq_ok.mp h
          cases h
          rfl

theorem emit_ptr {needed len ptr : Int} {bytes : List Byte}
    (h : emit allocs needed bytes len p = .ok (some ptr, p')) : ptr = p.offset := by
  obtain ⟨⟨ptr₁, p₁⟩, hensure, h⟩ := bind_eq_ok.mp h
  dsimp only at h
  split at h
  · obtain ⟨buffer, -, h⟩ := bind_eq_ok.mp h
    obtain ⟨offset, -, h⟩ := bind_eq_ok.mp h
    cases h
    exact ensure_ptr hensure
  · cases h

/-- At the depth 0 the pointer is the one to the start, although `print_object` uses its `i` twice. -/
theorem bufferValue_ptr {fmt : Bool} {item : JsonItem d.Double} {ptr : Int} (hp : p.offset = 0)
    (h : bufferValue d allocs fmt 0 item p = .ok (some ptr, p')) : ptr = 0 := by
  have hemit : ∀ {needed len bytes}, emit allocs needed bytes len p = .ok (some ptr, p') →
      ptr = 0 := fun h => (emit_ptr h).trans hp
  have hmap : ∀ {f : Printer} {i : Int}, (do
      let (ptr, p) ← f p
      return (ptr.map fun _ => i, p)) = (.ok (some ptr, p') : Checked (Option Int × PrintBuffer)) →
      ptr = i := by
    intro f i h
    obtain ⟨⟨ptr₁, p₁⟩, -, h⟩ := bind_eq_ok.mp h
    cases ptr₁ with
    | none => cases h
    | some ptr₁ =>
      cases h
      rfl
  cases item with
  | null => exact hemit h
  | bool b => cases b <;> exact hemit h
  | number z x => exact hemit h
  | string s => exact hemit h
  | array children =>
    rw [bufferValue, bufferArray] at h
    split_ifs at h
    · exact hemit h
    · exact (hmap h).trans hp
  | object children =>
    rw [bufferValue, bufferObject] at h
    split_ifs at h
    · exact hemit h
    · exact hemit h
    · exact hmap h
    · exact (hmap h).trans hp

end

/-- `cJSON_PrintBuffered` returns the text of `cJSON_Print` or `cJSON_PrintUnformatted` in a block
that is the only one left, if `malloc` granted all that it was asked for; at the first size that it
refuses, NULL is returned and no block is left. -/
theorem cJSONPrintBuffered_eq (d : Doubles) (allocs : Nat → Allocator) (item : JsonItem d.Double)
    (h : HasInts item) (prebuffer : Int) (hpre : IsInt prebuffer) (fmt : Bool)
    (hlen : (printValue d fmt 0 item).length + 64 ≤ 2 ^ 30) :
    ∃ ptr p, cJSONPrintBuffered d allocs item prebuffer fmt = .ok (ptr, p) ∧
      (ptr = none ∧ p.granted = p.freed ∧
          (∃ sizes n, p.asked = sizes ++ [n] ∧ (allocs sizes.length).malloc n = none) ∨
        ptr = some 0 ∧ p.granted = p.freed + 1 ∧ p.granted = p.asked.length ∧
          ∃ rest, p.buffer = some (printValue d fmt 0 item ++ 0 :: rest)) := by
  have hprints := prints_value allocs h fmt 0
  unfold cJSONPrintBuffered
  cases hb : (allocs 0).malloc (toSize prebuffer) with
  | none =>
    let p₀ : PrintBuffer :=
      { buffer := none, length := prebuffer, offset := 0, asked := [toSize prebuffer],
        granted := 0, freed := 0 }
    obtain ⟨p, heq, hlost⟩ := hprints.lost p₀ ⟨rfl, rfl, [], _, rfl, hb⟩
    exact ⟨none, p, heq, .inl ⟨rfl, hlost.blocks, hlost.refused⟩⟩
  | some b =>
    have hlength : prebuffer = b.bytes.length := by
      have hsize := (allocs 0).length_of_malloc _ b hb
      have hhuge := (allocs 0).malloc_huge (toSize prebuffer)
      simp only [IsInt, intMin, intMax] at hpre
      obtain hneg | hnonneg := lt_or_ge prebuffer 0
      · rw [toSize_of_neg hneg (by omega)] at hhuge hb
        rw [hhuge (by omega)] at hb
        cases hb
      · rw [toSize_of_nonneg hnonneg (by omega)] at hsize
        omega
    let p₀ : PrintBuffer :=
      { buffer := some b.bytes, length := prebuffer, offset := 0, asked := [toSize prebuffer],
        granted := 1, freed := 0 }
    obtain ⟨ptr, p, heq, ⟨rfl, hlost⟩ | ⟨hptr, hended⟩⟩ :=
      hprints.run p₀ [] ⟨⟨b.bytes, rfl, hlength⟩, rfl, rfl, rfl⟩ (by simpa using hlen)
    · exact ⟨none, p, heq, .inl ⟨rfl, hlost.blocks, hlost.refused⟩⟩
    · obtain ⟨ptr, rfl⟩ := Option.ne_none_iff_exists'.mp hptr
      obtain rfl := bufferValue_ptr rfl heq
      obtain ⟨rest, hbuffer, -⟩ := hended.buffer
      exact ⟨_, p, heq, .inr ⟨rfl, hended.blocks.1, hended.blocks.2, rest, hbuffer⟩⟩

/-- A buffer of one byte for an array. -/
theorem cJSONPrintBuffered_eq_array :
    ∃ ptr p,
      cJSONPrintBuffered Doubles.rational (fun _ => Allocator.zeroed) (.array [.bool true, .null]) 1
          true = .ok (ptr, p) ∧
        (ptr = none ∧ p.granted = p.freed ∧
            (∃ sizes n, p.asked = sizes ++ [n] ∧
              ((fun _ => Allocator.zeroed : Nat → Allocator) sizes.length).malloc n = none) ∨
          ptr = some 0 ∧ p.granted = p.freed + 1 ∧ p.granted = p.asked.length ∧
            ∃ rest, p.buffer = some (ascii "[true, null]" ++ 0 :: rest)) :=
  cJSONPrintBuffered_eq Doubles.rational (fun _ => Allocator.zeroed) (.array [.bool true, .null])
    (.array _ (by
      simp only [List.mem_cons, List.not_mem_nil, or_false, forall_eq_or_imp, forall_eq]
      exact ⟨.bool true, .null⟩))
    1 (by decide) true (by decide +kernel)

end CgiFileStore.Json
