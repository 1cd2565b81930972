import CgiFileStore.Json.Cells

/-!
# The parser of cJSON.c in memory

The parse functions with the items that they make. A function that returns NULL has left behind
what was made so far, and only `cJSON_ParseWithOpts` deletes it. The text is no part of the memory:
it is read by the functions for texts.
-/

namespace CgiFileStore.Json

open CSem Heap

/-- What stops a parse function: a fault in the text, or a pointer that is misused. -/
inductive Halt
  | text (f : Fault)
  | heap (f : HeapFault)
  deriving DecidableEq

variable {D α : Type}

/-- A parse function that returns NULL gives the value of `ep`. -/
abbrev CellParse (D α : Type) :=
  ExceptT (Option (List Byte)) (StateT (Mem (Stored D)) (Except Halt)) α

/-- What is done to the text. -/
def text : Parse α → CellParse D α
  | .ok a => pure a
  | .error (.failed ep) => throw ep
  | .error (.fault f) => fun _ => .error (.text f)

/-- What is done to the memory. -/
def cells (x : CellProg D α) : CellParse D α := fun m =>
  match x m with
  | .ok (a, m') => .ok (.ok a, m')
  | .error f => .error (.heap f)

/-- `if (!p) return 0;` behind an allocation. -/
def notNull (x : CellProg D (Option Addr)) : CellParse D Addr := do
  match ← cells x with
  | none => throw none
  | some a => return a

/-- `cJSON_Delete` where a parse function returned NULL. -/
def orDelete (c : Addr) (x : CellParse D α) : CellParse D α :=
  tryCatch x fun ep => do
    cells (cJSONDelete (some c))
    throw ep

namespace Pointers

variable (d : Doubles) (grants : Nat → Bool)

/-- `parse_number`. -/
def parseNumber (item : Addr) (num : List Byte) : CellParse d.Double (List Byte) := do
  let (sign, num) ← text (parseSign d num)
  let (n, num) ← text (parseInteger d num)
  let ((n, scale), num) ← text (parseFraction d n num)
  let (exponent, num) ← text (parseExponent num)
  let n := scaled d sign n scale exponent
  match d.toInt n with
  | some valueint =>
    cells (assign (some item) fun c => { c with valuedouble := n, valueint, type := .cJSONNumber })
    return num
  | none => text (.error (.fault .overflow))

/-- `parse_string`. The block is filled before anything else is done. -/
def parseString (item : Addr) (str : List Byte) : CellParse D (List Byte) := do
  if (← text (deref str)) ≠ 34 then text (.error (.failed (some str)))
  else
    let len ← text (stringLength str.tail 0)
    let size ← text (checked (toChecked (len + 1)))
    let out ← notNull (malloc grants (.text []))
    let (bytes, ptr) ← text (stringBytes size.toNat str.length str.tail [])
    let bytes ← text (put size.toNat bytes [0])
    cells (store (some out) (.text (cstring bytes)))
    let c ← text (deref ptr)
    cells (assign (some item) fun c => { c with valuestring := some out, type := .cJSONString })
    return if c = 34 then ptr.tail else ptr

/-- The children of an array or an object, from the one behind `last` on. The first is parsed in
front of the loop, by the same steps as the others. -/
def parseChildren (parseChild : Addr → List Byte → CellParse d.Double (List Byte)) (item : Addr) :
    Nat → Option Addr → List Byte → CellParse d.Double (List Byte)
  | 0, _, _ => text (.error (.fault .read))
  | n + 1, last, value => do
    let child ← notNull (newItem d grants)
    cells (linkBehind item last child)
    let value ← text (skip value)
    let value ← parseChild child value
    let value ← text (skip value)
    if (← text (deref value)) = 44 then parseChildren parseChild item n (some child) value.tail
    else return value

/-- What `parse_array` and `parse_object` do behind their opening bracket. -/
def parseBlock (parseChild : Addr → List Byte → CellParse d.Double (List Byte)) (close : Byte)
    (n : Nat) (item : Addr) (value : List Byte) : CellParse d.Double (List Byte) := do
  let value ← text (skip value)
  if (← text (deref value)) = close then return value.tail
  else
    let value ← parseChildren d grants parseChild item n none value
    if (← text (deref value)) = close then return value.tail
    else text (.error (.failed (some value)))

/-- A child of an object. The string is parsed into the item, and becomes its name. -/
def parseMember (parseValue : Addr → List Byte → CellParse D (List Byte)) (child : Addr)
    (value : List Byte) : CellParse D (List Byte) := do
  let value ← parseString grants child value
  let value ← text (skip value)
  cells (assign (some child) fun c =>
    { c with string := c.valuestring.map .block, valuestring := none })
  if (← text (deref value)) ≠ 58 then text (.error (.failed (some value)))
  else
    let value ← text (skip value.tail)
    parseValue child value

/-- `parse_value`, for at most `n` nested calls. -/
def parseValue : Nat → Addr → List Byte → CellParse d.Double (List Byte)
  | 0, _, _ => text (.error (.fault .read))
  | n + 1, item, value => do
    if ← text (checked (strncmpEq value (ascii "null"))) then
      cells (assign (some item) fun c => { c with type := .cJSONNULL })
      return value.drop 4
    else if ← text (checked (strncmpEq value (ascii "false"))) then
      cells (assign (some item) fun c => { c with type := .cJSONFalse })
      return value.drop 5
    else if ← text (checked (strncmpEq value (ascii "true"))) then
      cells (assign (some item) fun c => { c with type := .cJSONTrue, valueint := 1 })
      return value.drop 4
    else
      let c ← text (deref value)
      if c = 34 then parseString grants item value
      else if c = 45 ∨ isDigit c then parseNumber d item value
      else if c = 91 then
        cells (assign (some item) fun c => { c with type := .cJSONArray })
        parseBlock d grants (parseValue n) 93 n item value.tail
      else if c = 123 then
        cells (assign (some item) fun c => { c with type := .cJSONObject })
        parseBlock d grants (parseMember grants (parseValue n)) 125 n item value.tail
      else text (.error (.failed (some value)))

/-- `cJSON_ParseWithOpts`, with the pointer that is stored in `return_parse_end`. -/
def cJSONParseWithOpts (requireNullTerminated : Bool) (value : List Byte) :
    CellParse d.Double (Addr × List Byte) := do
  let c ← notNull (newItem d grants)
  orDelete c do
    let value ← text (skip value)
    let stop ← parseValue d grants value.length c value
    if requireNullTerminated then
      let stop ← text (skip stop)
      if (← text (deref stop)) ≠ 0 then text (.error (.failed (some stop)))
      else return (c, stop)
    else return (c, stop)

end Pointers

end CgiFileStore.Json
