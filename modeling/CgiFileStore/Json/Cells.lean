import CgiFileStore.Lib.Chain
import CgiFileStore.Lib.Heap
import CgiFileStore.Json.Listing

/-!
# The items of cJSON.c in memory

The cells that items are made of, and the functions that make, link and delete them. A pointer is
an address or null, every access goes through memory, and the allocator may refuse any of its
calls. The loops that follow pointers get as many rounds as there are blocks; in a list without
circles that is enough.
-/

namespace CgiFileStore.Json

open CSem Heap

/-- The values of `type` without the flags. -/
inductive ItemType
  | cJSONFalse
  | cJSONTrue
  | cJSONNULL
  | cJSONNumber
  | cJSONString
  | cJSONArray
  | cJSONObject
  deriving DecidableEq, Repr

/-- What `string` points to, a block or a constant of the program. -/
inductive NamePtr
  | block (a : Addr)
  | const (s : List Byte)
  deriving DecidableEq, Repr

/-- `struct cJSON`, with the two flags of `type` apart. -/
structure Cell (D : Type) where
  next : Option Addr
  prev : Option Addr
  child : Option Addr
  type : ItemType
  isReference : Bool
  stringIsConst : Bool
  valuestring : Option Addr
  valueint : Int
  valuedouble : D
  string : Option NamePtr

/-- What a block holds. -/
inductive Stored (D : Type)
  | item (c : Cell D)
  | text (s : List Byte)

variable {D : Type}

abbrev CellProg (D α : Type) := Prog (Stored D) α

/-! ## Fields -/

def loadCell (p : Option Addr) : CellProg D (Cell D) := do
  match ← load p with
  | .item c => return c
  | .text _ => fail .mistyped

def loadText (p : Option Addr) : CellProg D (List Byte) := do
  match ← load p with
  | .item _ => fail .mistyped
  | .text s => return s

/-- A field of `*p`. -/
def field {α : Type} (p : Option Addr) (f : Cell D → α) : CellProg D α := do
  return f (← loadCell p)

/-- An assignment to fields of `*p`. -/
def assign (p : Option Addr) (f : Cell D → Cell D) : CellProg D Unit := do
  let c ← loadCell p
  store p (.item (f c))

/-- `p->next = n`. -/
def putNext (p n : Option Addr) : CellProg D Unit := assign p fun c => { c with next := n }

/-- `p->prev = n`. -/
def putPrev (p n : Option Addr) : CellProg D Unit := assign p fun c => { c with prev := n }

/-- `p->child = n`. -/
def putChild (p n : Option Addr) : CellProg D Unit := assign p fun c => { c with child := n }

/-- `p->string = s`. -/
def putString (p : Option Addr) (s : Option NamePtr) : CellProg D Unit :=
  assign p fun c => { c with string := s }

/-- The assignment behind `if (p)`. -/
def ifThere (p : Option Addr) (act : CellProg D Unit) : CellProg D Unit :=
  match p with
  | none => pure ()
  | some _ => act

/-- `if (b) act;`. -/
def onlyIf (b : Bool) (act : CellProg D Unit) : CellProg D Unit := if b then act else pure ()

/-- The number of rounds that the pointer loops get. -/
def rounds : CellProg D Nat := fun m => .ok (m.size, m)

/-! ## Making items -/

section

variable (d : Doubles) (grants : Nat → Bool)

/-- What `memset` leaves of an item. -/
def zeroCell : Cell d.Double where
  next := none
  prev := none
  child := none
  type := .cJSONFalse
  isReference := false
  stringIsConst := false
  valuestring := none
  valueint := 0
  valuedouble := d.ofInt 0
  string := none

/-- `cJSON_New_Item`. -/
def newItem : CellProg d.Double (Option Addr) := malloc grants (.item (zeroCell d))

/-- `cJSON_strdup`. -/
def cJSONStrdup (str : List Byte) : CellProg D (Option Addr) := malloc grants (.text str)

/-- The five functions that make an item of a type. -/
def createItem (type : ItemType) : CellProg d.Double (Option Addr) := do
  let item ← newItem d grants
  ifThere item (assign item fun c => { c with type })
  return item

def cJSONCreateNull : CellProg d.Double (Option Addr) := createItem d grants .cJSONNULL

def cJSONCreateTrue : CellProg d.Double (Option Addr) := createItem d grants .cJSONTrue

def cJSONCreateFalse : CellProg d.Double (Option Addr) := createItem d grants .cJSONFalse

def cJSONCreateArray : CellProg d.Double (Option Addr) := createItem d grants .cJSONArray

def cJSONCreateObject : CellProg d.Double (Option Addr) := createItem d grants .cJSONObject

/-- `cJSON_CreateNumber` of an integer. -/
def cJSONCreateNumber (num : Int) : CellProg d.Double (Option Addr) := do
  let item ← newItem d grants
  ifThere item (assign item fun c =>
    { c with type := .cJSONNumber, valuedouble := d.ofInt num, valueint := num })
  return item

/-- `cJSON_CreateString`. -/
def cJSONCreateString (string : List Byte) : CellProg d.Double (Option Addr) := do
  let item ← newItem d grants
  ifThere item do
    assign item fun c => { c with type := .cJSONString }
    let copy ← cJSONStrdup grants string
    assign item fun c => { c with valuestring := copy }
  return item

end

/-! ## Following the children -/

/-- `while (c && which>0) c=c->next,which--;`. -/
def nthItem : Nat → Option Addr → CellProg D (Option Addr)
  | _, none => pure none
  | 0, some c => pure (some c)
  | which + 1, some c => do nthItem which (← field (some c) (·.next))

/-- `while (c && c->next) c=c->next;`. -/
def lastItem : Nat → Option Addr → CellProg D (Option Addr)
  | _, none => pure none
  | 0, some _ => fail .endless
  | n + 1, some c => do
    match ← field (some c) (·.next) with
    | none => return some c
    | some next => lastItem n (some next)

/-- `cJSON_GetArrayItem`. -/
def getArrayItem (array : Option Addr) (item : Int) : CellProg D (Option Addr) := do
  nthItem item.toNat (← field array (·.child))

/-- `cJSON_strcasecmp` of the name of an item and a string. -/
def compareName (string : List Byte) : Option NamePtr → CellProg D Int
  | none => pure 1
  | some (.const s) => pure (cJSONStrcasecmp s string)
  | some (.block a) => do return cJSONStrcasecmp (← loadText (some a)) string

/-- `while (c && cJSON_strcasecmp(c->string,string)) i++,c=c->next;`. -/
def namedItem (string : List Byte) : Nat → Nat → Option Addr → CellProg D (Nat × Option Addr)
  | _, i, none => pure (i, none)
  | 0, _, some _ => fail .endless
  | n + 1, i, some c => do
    if (← compareName string (← field (some c) (·.string))) = 0 then return (i, some c)
    else namedItem string n (i + 1) (← field (some c) (·.next))

def findItem (object : Option Addr) (string : List Byte) : CellProg D (Nat × Option Addr) := do
  namedItem string (← rounds) 0 (← field object (·.child))

/-- `cJSON_GetObjectItem`. -/
def getObjectItem (object : Option Addr) (string : List Byte) : CellProg D (Option Addr) := do
  return (← findItem object string).2

/-! ## Linking and unlinking -/

/-- `suffix_object`. -/
def suffixObject (prev item : Option Addr) : CellProg D Unit := do
  putNext prev item
  putPrev item prev

/-- Where the parse functions link a new item: as the first child of `p`, or behind the last. -/
def linkBehind (p : Addr) (last : Option Addr) (item : Addr) : CellProg D Unit :=
  match last with
  | none => putChild (some p) (some item)
  | some last => suffixObject (some last) (some item)

/-- `cJSON_AddItemToArray`. -/
def cJSONAddItemToArray (array item : Option Addr) : CellProg D Unit := do
  let c ← field array (·.child)
  ifThere item
    (match c with
    | none => putChild array item
    | some c => do suffixObject (← lastItem (← rounds) (some c)) item)

/-- `cJSON_free` of a name. -/
def freeName : Option NamePtr → CellProg D Unit
  | none => pure ()
  | some (.block a) => free (some a)
  | some (.const _) => fail .dangling

/-- `cJSON_AddItemToObject`. -/
def cJSONAddItemToObject (grants : Nat → Bool) (object : Option Addr) (string : List Byte)
    (item : Option Addr) : CellProg D Unit :=
  ifThere item do
    freeName (← field item (·.string))
    let copy ← cJSONStrdup grants string
    putString item (copy.map .block)
    cJSONAddItemToArray object item

/-- `cJSON_AddItemToObjectCS`. -/
def cJSONAddItemToObjectCS (object : Option Addr) (string : List Byte) (item : Option Addr) :
    CellProg D Unit :=
  ifThere item do
    let c ← loadCell item
    onlyIf (!c.stringIsConst) (freeName c.string)
    assign item fun c => { c with string := some (.const string), stringIsConst := true }
    cJSONAddItemToArray object item

/-- `cJSON_DetachItemFromArray`. -/
def cJSONDetachItemFromArray (array : Option Addr) (which : Int) :
    CellProg D (Option Addr) := do
  let c ← nthItem which.toNat (← field array (·.child))
  match c with
  | none => return none
  | some _ =>
    let prev ← field c (·.prev)
    let next ← field c (·.next)
    ifThere prev (putNext prev next)
    let next ← field c (·.next)
    let prev ← field c (·.prev)
    ifThere next (putPrev next prev)
    let child ← field array (·.child)
    let next ← field c (·.next)
    onlyIf (c = child) (putChild array next)
    putNext c none
    putPrev c none
    return c

/-- `if (c==array->child) array->child=newitem; else newitem->prev->next=newitem;`. -/
def frontOrBehind (array newitem c : Option Addr) : CellProg D Unit := do
  if c = (← field array (·.child)) then putChild array newitem
  else putNext (← field newitem (·.prev)) newitem

/-- `cJSON_InsertItemInArray`. -/
def cJSONInsertItemInArray (array : Option Addr) (which : Int) (newitem : Option Addr) :
    CellProg D Unit := do
  let c ← nthItem which.toNat (← field array (·.child))
  match c with
  | none => cJSONAddItemToArray array newitem
  | some _ =>
    putNext newitem c
    putPrev newitem (← field c (·.prev))
    putPrev c newitem
    frontOrBehind array newitem c

/-! ## Deleting -/

/-- `cJSON_Delete`. Nothing is written between the reads of the fields. -/
def deleteLoop : Nat → Option Addr → CellProg D Unit
  | _, none => pure ()
  | 0, some _ => fail .endless
  | n + 1, some c => do
    let cell ← loadCell (some c)
    onlyIf (!cell.isReference) (deleteLoop n cell.child)
    onlyIf (!cell.isReference) (free cell.valuestring)
    onlyIf (!cell.stringIsConst) (freeName cell.string)
    free (some c)
    deleteLoop n cell.next

def cJSONDelete (c : Option Addr) : CellProg D Unit := do deleteLoop (← rounds) c

/-- `cJSON_DeleteItemFromArray`. -/
def cJSONDeleteItemFromArray (array : Option Addr) (which : Int) : CellProg D Unit := do
  cJSONDelete (← cJSONDetachItemFromArray array which)

/-- `cJSON_ReplaceItemInArray`. -/
def cJSONReplaceItemInArray (array : Option Addr) (which : Int) (newitem : Option Addr) :
    CellProg D Unit := do
  let c ← nthItem which.toNat (← field array (·.child))
  match c with
  | none => return
  | some _ =>
    putNext newitem (← field c (·.next))
    putPrev newitem (← field c (·.prev))
    let next ← field newitem (·.next)
    ifThere next (putPrev next newitem)
    frontOrBehind array newitem c
    putPrev c none
    putNext c none
    cJSONDelete c

/-- `cJSON_DetachItemFromObject`. -/
def cJSONDetachItemFromObject (object : Option Addr) (string : List Byte) :
    CellProg D (Option Addr) := do
  match ← findItem object string with
  | (_, none) => return none
  | (i, some _) => cJSONDetachItemFromArray object i

/-- `cJSON_DeleteItemFromObject`. -/
def cJSONDeleteItemFromObject (object : Option Addr) (string : List Byte) : CellProg D Unit := do
  cJSONDelete (← cJSONDetachItemFromObject object string)

/-- `cJSON_ReplaceItemInObject`. -/
def cJSONReplaceItemInObject (grants : Nat → Bool) (object : Option Addr) (string : List Byte)
    (newitem : Option Addr) : CellProg D Unit := do
  match ← findItem object string with
  | (_, none) => return
  | (i, some _) => do
    let copy ← cJSONStrdup grants string
    putString newitem (copy.map .block)
    cJSONReplaceItemInArray object i newitem

end CgiFileStore.Json
