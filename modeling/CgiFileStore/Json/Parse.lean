import CgiFileStore.Data.StrReplace
import CgiFileStore.Json.Item

/-!
# The parser of cJSON.c

A pointer into the text is the list of the bytes from there to the end of the object that the
text is kept in. The parse functions call each other for as many levels as there are bytes, so
the number that bounds the recursion is one that the text runs out before.
-/

namespace CgiFileStore.Json

open CSem

/-- Why a parse function does not return a pointer: a fault, or a failure, with what it leaves
in `ep`. -/
inductive Stop
  | fault (f : Fault)
  | failed (ep : Option (List Byte))
  deriving DecidableEq

abbrev Parse (α : Type) := Except Stop α

variable {α β : Type}

def checked (x : Checked α) : Parse α := x.mapError Stop.fault

/-- `*ptr`. -/
def deref : List Byte → Parse Byte
  | [] => .error (.fault .read)
  | c :: _ => .ok c

def skip : List Byte → Parse (List Byte)
  | [] => .error (.fault .read)
  | c :: rest => if c ≠ 0 ∧ c ≤ 32 then skip rest else .ok (c :: rest)

/-- `cJSON_New_Item`, for an item of 64 bytes. -/
def cJSONNewItem (alloc : Allocator) : Parse Unit :=
  if (alloc.malloc 64).isSome then .ok () else .error (.failed none)

/-! ## Numbers -/

/-- `while (*num>='0' && *num<='9')` with the body `f`. -/
def digitLoop (f : α → Byte → Parse α) (a : α) : List Byte → Parse (α × List Byte)
  | [] => .error (.fault .read)
  | c :: num =>
    if isDigit c then do
      let a ← f a c
      digitLoop f a num
    else .ok (a, c :: num)

def digit (c : Byte) : Int := c.toNat - 48

section

variable (d : Doubles)

/-- `n=(n*10.0)+(*num++ -'0')`. -/
def addDigit (n : d.Double) (c : Byte) : d.Double :=
  d.add (d.mul n (d.ofInt 10)) (d.ofInt (digit c))

def parseSign (num : List Byte) : Parse (d.Double × List Byte) := do
  if (← deref num) = 45 then return (d.ofInt (-1), num.tail)
  else return (d.ofInt 1, num)

def parseInteger (num : List Byte) : Parse (d.Double × List Byte) := do
  let num := if (← deref num) = 48 then num.tail else num
  let c ← deref num
  if 49 ≤ c ∧ c ≤ 57 then digitLoop (fun n c => .ok (addDigit d n c)) (d.ofInt 0) num
  else return (d.ofInt 0, num)

/-- The fractional part, which changes `n` and `scale`. -/
def parseFraction (n : d.Double) (num : List Byte) :
    Parse ((d.Double × d.Double) × List Byte) := do
  if (← deref num) = 46 then
    if isDigit (← deref num.tail) then
      digitLoop (fun p c => .ok (addDigit d p.1 c, d.sub p.2 (d.ofInt 1))) (n, d.ofInt 0) num.tail
    else return ((n, d.ofInt 0), num)
  else return ((n, d.ofInt 0), num)

/-- `subscale=(subscale*10)+(*num++ - '0')`. -/
def addExponentDigit (subscale : Int) (c : Byte) : Parse Int := do
  let tens ← checked (toChecked (subscale * 10))
  checked (toChecked (tens + digit c))

/-- The exponent, as `subscale*signsubscale`. -/
def parseExponent (num : List Byte) : Parse (Int × List Byte) := do
  let c ← deref num
  if c = 101 ∨ c = 69 then
    let num := num.tail
    let c ← deref num
    let (signsubscale, num) :=
      if c = 43 then ((1 : Int), num.tail) else if c = 45 then (-1, num.tail) else (1, num)
    let (subscale, num) ← digitLoop addExponentDigit 0 num
    return (subscale * signsubscale, num)
  else return (0, num)

/-- `sign*n*pow(10.0,(scale+subscale*signsubscale))`. -/
def scaled (sign n scale : d.Double) (exponent : Int) : d.Double :=
  d.mul (d.mul sign n) (d.pow (d.ofInt 10) (d.add scale (d.ofInt exponent)))

def parseNumber (num : List Byte) : Parse (JsonItem d.Double × List Byte) := do
  let (sign, num) ← parseSign d num
  let (n, num) ← parseInteger d num
  let ((n, scale), num) ← parseFraction d n num
  let (exponent, num) ← parseExponent num
  let n := scaled d sign n scale exponent
  match d.toInt n with
  | some valueint => return (.number valueint n, num)
  | none => .error (.fault .overflow)

end

/-! ## Strings -/

/-- The value of a hexadecimal digit. -/
def hexValue (c : Byte) : Option Nat :=
  if 48 ≤ c ∧ c ≤ 57 then some (c.toNat - 48)
  else if 65 ≤ c ∧ c ≤ 70 then some (10 + c.toNat - 65)
  else if 97 ≤ c ∧ c ≤ 102 then some (10 + c.toNat - 97)
  else none

def parseHex4 (c1 c2 c3 c4 : Byte) : Nat :=
  match hexValue c1, hexValue c2, hexValue c3, hexValue c4 with
  | some h1, some h2, some h3, some h4 => ((h1 <<< 4 + h2) <<< 4 + h3) <<< 4 + h4
  | _, _, _, _ => 0

def firstByteMark : List Nat := [0x00, 0x00, 0xC0, 0xE0, 0xF0, 0xF8, 0xFC]

/-- The cases of `switch (len)`, which fall through: `n` more bytes in front of the last. -/
def utf8Fill (len : Nat) : Nat → Nat → List Byte → List Byte
  | 0, uc, bytes => UInt8.ofNat (uc ||| firstByteMark.getD len 0) :: bytes
  | n + 1, uc, bytes => utf8Fill len n (uc >>> 6) (UInt8.ofNat ((uc ||| 0x80) &&& 0xBF) :: bytes)

/-- The bytes that are stored for the code point `uc`. -/
def utf8Bytes (uc : Nat) : List Byte :=
  let len := if uc < 0x80 then 1 else if uc < 0x800 then 2 else if uc < 0x10000 then 3 else 4
  utf8Fill len (len - 1) uc []

/-- The code point of a surrogate pair. -/
def surrogatePair (uc uc2 : Nat) : Nat := 0x10000 + ((uc &&& 0x3FF) <<< 10 ||| uc2 &&& 0x3FF)

/-- The byte that the escape of `c` stands for, where it is not `\u`. -/
def unescaped (c : Byte) : Byte :=
  if c = 98 then 8 else if c = 102 then 12 else if c = 110 then 10
  else if c = 114 then 13 else if c = 116 then 9 else c

/-- The first loop of `parse_string`, which counts in `len`. -/
def stringLength : List Byte → Int → Parse Int
  | [], _ => .error (.fault .read)
  | c :: ptr, len =>
    if c = 34 ∨ c = 0 then .ok len
    else do
      let len ← checked (toChecked (len + 1))
      if c = 92 then
        match ptr with
        | [] => .error (.fault .read)
        | _ :: ptr => stringLength ptr len
      else stringLength ptr len

/-- `*ptr2++` for the bytes given, in a block of `size` bytes of which `out` are written. -/
def put (size : Nat) (out bytes : List Byte) : Parse (List Byte) :=
  if out.length + bytes.length ≤ size then .ok (out ++ bytes) else .error (.fault .write)

/-- The second half of a surrogate pair: the bytes to store, and where the loop goes on. -/
def secondHalf (uc : Nat) (ptr : List Byte) : Parse (List Byte × List Byte) := do
  if (← deref ptr) ≠ 92 then return ([], ptr)
  else if (← deref ptr.tail) ≠ 117 then return ([], ptr)
  else
    match ptr.tail.tail with
    | c1 :: c2 :: c3 :: c4 :: ptr =>
      let uc2 := parseHex4 c1 c2 c3 c4
      if uc2 < 0xDC00 ∨ 0xDFFF < uc2 then return ([], ptr)
      else return (utf8Bytes (surrogatePair uc uc2), ptr)
    | _ => .error (.fault .read)

/-- The case of `\u`, from behind the `u`. It goes on four bytes later whatever they are. -/
def unicodeEscape : List Byte → Parse (List Byte × List Byte)
  | c1 :: c2 :: c3 :: c4 :: ptr =>
    let uc := parseHex4 c1 c2 c3 c4
    if 0xDC00 ≤ uc ∧ uc ≤ 0xDFFF ∨ uc = 0 then .ok ([], ptr)
    else if 0xD800 ≤ uc ∧ uc ≤ 0xDBFF then secondHalf uc ptr
    else .ok (utf8Bytes uc, ptr)
  | _ => .error (.fault .read)

/-- What is stored for the escape of the byte `e`. -/
def escapeBytes (e : Byte) (ptr : List Byte) : Parse (List Byte × List Byte) :=
  if e = 117 then unicodeEscape ptr else .ok ([unescaped e], ptr)

/-- The second loop of `parse_string`, for at most `n` rounds. -/
def stringBytes (size : Nat) : Nat → List Byte → List Byte → Parse (List Byte × List Byte)
  | 0, _, _ => .error (.fault .read)
  | n + 1, ptr, out => do
    let c ← deref ptr
    if c = 34 ∨ c = 0 then return (out, ptr)
    else if c ≠ 92 then
      let out ← put size out [c]
      stringBytes size n ptr.tail out
    else
      let e ← deref ptr.tail
      let (bytes, ptr) ← escapeBytes e ptr.tail.tail
      let out ← put size out bytes
      stringBytes size n ptr out

/-- `parse_string`, with the string that it stores in the item. -/
def parseString (alloc : Allocator) (str : List Byte) : Parse (List Byte × List Byte) := do
  if (← deref str) ≠ 34 then .error (.failed (some str))
  else
    let len ← stringLength str.tail 0
    let size ← checked (toChecked (len + 1))
    if (alloc.malloc size.toNat).isNone then .error (.failed none)
    else
      let (out, ptr) ← stringBytes size.toNat str.length str.tail []
      let out ← put size.toNat out [0]
      return (cstring out, if (← deref ptr) = 34 then ptr.tail else ptr)

/-! ## Values -/

/-- The children of an array or an object, where `parseChild` parses one of them. The first is
parsed in front of the loop, by the same steps as the others. -/
def parseChildren (alloc : Allocator) (parseChild : List Byte → Parse (α × List Byte)) :
    Nat → List Byte → Parse (List α × List Byte)
  | 0, _ => .error (.fault .read)
  | n + 1, value => do
    cJSONNewItem alloc
    let value ← skip value
    let (child, value) ← parseChild value
    let value ← skip value
    if (← deref value) = 44 then
      let (children, value) ← parseChildren alloc parseChild n value.tail
      return (child :: children, value)
    else return ([child], value)

/-- What `parse_array` and `parse_object` do behind their opening bracket. -/
def parseBlock (alloc : Allocator) (parseChild : List Byte → Parse (α × List Byte)) (close : Byte)
    (n : Nat) (value : List Byte) : Parse (List α × List Byte) := do
  let value ← skip value
  if (← deref value) = close then return ([], value.tail)
  else
    let (children, value) ← parseChildren alloc parseChild n value
    if (← deref value) = close then return (children, value.tail)
    else .error (.failed (some value))

/-- A child of an object: its name, and its value. -/
def parseMember (alloc : Allocator) (parseValue : List Byte → Parse (α × List Byte))
    (value : List Byte) : Parse ((List Byte × α) × List Byte) := do
  let (string, value) ← parseString alloc value
  let value ← skip value
  if (← deref value) ≠ 58 then .error (.failed (some value))
  else
    let value ← skip value.tail
    let (item, value) ← parseValue value
    return ((string, item), value)

/-- `parse_value`, for at most `n` nested calls. -/
def parseValue (d : Doubles) (alloc : Allocator) :
    Nat → List Byte → Parse (JsonItem d.Double × List Byte)
  | 0, _ => .error (.fault .read)
  | n + 1, value => do
    if ← checked (strncmpEq value (ascii "null")) then return (.null, value.drop 4)
    else if ← checked (strncmpEq value (ascii "false")) then return (.bool false, value.drop 5)
    else if ← checked (strncmpEq value (ascii "true")) then return (.bool true, value.drop 4)
    else
      let c ← deref value
      if c = 34 then
        let (valuestring, value) ← parseString alloc value
        return (.string valuestring, value)
      else if c = 45 ∨ isDigit c then parseNumber d value
      else if c = 91 then
        let (children, value) ← parseBlock alloc (parseValue d alloc n) 93 n value.tail
        return (.array children, value)
      else if c = 123 then
        let (children, value) ←
          parseBlock alloc (parseMember alloc (parseValue d alloc n)) 125 n value.tail
        return (.object children, value)
      else .error (.failed (some value))

/-- `cJSON_ParseWithOpts`, with the item and the pointer that is stored in `return_parse_end`. -/
def cJSONParseWithOpts (d : Doubles) (alloc : Allocator) (requireNullTerminated : Bool)
    (value : List Byte) : Parse (JsonItem d.Double × List Byte) := do
  cJSONNewItem alloc
  let value ← skip value
  let (c, stop) ← parseValue d alloc value.length value
  if requireNullTerminated then
    let stop ← skip stop
    if (← deref stop) ≠ 0 then .error (.failed (some stop))
    else return (c, stop)
  else return (c, stop)

/-- `cJSON_Parse`. -/
def cJSONParse (d : Doubles) (alloc : Allocator) (value : List Byte) : Parse (JsonItem d.Double) := do
  let (c, _) ← cJSONParseWithOpts d alloc false value
  return c

end CgiFileStore.Json
