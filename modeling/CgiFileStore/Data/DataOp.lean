import CgiFileStore.Data.UtilCgi
import CgiFileStore.Common.Suffix

/-!
# The listing program: data_op.c

The functions run in the order of the source. Log calls are left out, except the one that
formats the whole JSON text into a message buffer. What cJSON prints for the items is a
parameter, for which `listingText` stands once the printer is modelled.
-/

namespace CgiFileStore

open CSem Search Redis

/-- `query_string_value_get`; the query is the memory at `query_string`, none for NULL. -/
def queryStringValueGet (queryString : Option (List Byte)) (key : CStr) (value : List Byte) :
    Checked QueryGet :=
  match queryString with
  | none => .ok { ret := -1, value, valueLen := none }
  | some queryString => copyQueryValue 1 queryString key value

/-! ## file_list_to_json_print: one row -/

/-- The local arrays of `file_list_to_json_print`, which outlive a row. -/
structure Fields where
  filename : List Byte
  createTime : List Byte
  picurl : List Byte
  suffix : List Byte
  picName : List Byte
  fileUrl : List Byte
  fileId : List Byte
  user : List Byte

def Fields.initial : Fields where
  filename := zeros 128
  createTime := zeros 64
  picurl := zeros 128
  suffix := zeros 32
  picName := zeros 64
  fileUrl := zeros 256
  fileId := zeros 128
  user := zeros 128

/-- The strings of a row in the order in which they are added to its item. -/
structure Row where
  id : List Byte
  titleM : List Byte
  titleS : List Byte
  descrip : List Byte
  picurlM : List Byte
  url : List Byte
  deriving DecidableEq

structure Item extends Row where
  kind : Int
  pv : Int
  hot : Int
  deriving DecidableEq

/-- `get_value_by_col(row, col, value, VALUES_ID_SIZE-1, 0)`: the array afterwards. -/
def columnInto (prev : Byte) (line : List Byte) (col : Int) (value : List Byte) :
    Checked (List Byte) := do
  let result ← getValueByCol prev line col value (valuesIdSize - 1) false
  return result.getD value

/-- `sprintf(buf, "%s.png", suffix)` for the string `suffix`. -/
def sprintfPng (buf suffix : List Byte) : Checked (List Byte) :=
  memcpy buf 0 (suffix ++ ascii ".png" ++ [0])

/-- The columns of a row and the strings that are added to its item. -/
def readRow (prev : Byte) (line : List Byte) (fields : Fields) : Checked (Fields × Row) := do
  let fileId ← columnInto prev line 1 fields.fileId
  let id ← readString fileId
  let filename ← columnInto prev line 3 fields.filename
  let titleM ← readString filename
  let user ← columnInto prev line 5 fields.user
  let titleS ← readString user
  let createTime ← columnInto prev line 4 fields.createTime
  let descrip ← readString createTime
  let picurl ← memset0 fields.picurl 128
  let picurl ← strcat picurl (ascii "http://192.168.21.91")
  let picurl ← strcat picurl (ascii "/static/file_png/")
  let suffixBuf ← getFileSuffix filename fields.suffix
  let suffix ← readString suffixBuf
  let picNameBuf ← sprintfPng fields.picName suffix
  let picName ← readString picNameBuf
  let picurl ← strcat picurl picName
  let picurlM ← readString picurl
  let fileUrl ← columnInto prev line 2 fields.fileUrl
  let url ← readString fileUrl
  return ({ filename, createTime, picurl, suffix := suffixBuf, picName := picNameBuf, fileUrl,
            fileId, user },
    { id, titleM, titleS, descrip, picurlM, url })

/-! ## file_list_to_json_print -/

variable {S : Type}

/-- What a call of `file_list_to_json_print` meets: the connection, the allocations, the fate
of `LRANGE` and of the `ZSCORE` of each row, and the text `cJSON_Print` makes of the items. -/
structure ListEnv where
  connected : Bool
  alloc : Allocator
  range : Fate
  score : Nat → Fate
  print : List Item → List Byte
  callocated : Bool

/-- `int endId = fromId + count - 1`. -/
def pageEnd (fromId count : Int) : Checked Int := do
  let sum ← toChecked (fromId + count)
  toChecked (sum - 1)

/-- The allocation of the rows and the call of `rop_range_list`. A failed allocation is only
logged. -/
def pageRows (alloc : Allocator) (range : Fate) (fromId endId count : Int) (st : Store S) :
    Checked RangeList := do
  let size ← toChecked (count * valuesIdSize)
  ropRangeList range fileInfoList fromId endId (alloc.malloc (toSize size)) st

/-- `file_list_values[i]`: the byte in front and the memory from there on. -/
def rowAt (values : Option Block) (i : Nat) : Checked (Byte × List Byte) :=
  match values with
  | none => .error .null
  | some b => do
    let prev ← b.prev (i * valuesIdSize)
    return (prev, b.bytes.drop (i * valuesIdSize))

/-- The body of the row loop: the local arrays afterwards and the item of row `i`. -/
def itemAt [Score S] (fate : Fate) (values : Option Block) (i : Nat) (fields : Fields)
    (st : Store S) : Checked (Fields × Item) := do
  let (prev, line) ← rowAt values i
  let (fields, row) ← readRow prev line fields
  let score ← ropZsetGetScore fate fileHotZset row.id st
  let pv ← toChecked (score - 1)
  return (fields, { row with kind := 2, pv, hot := 0 })

/-- The row loop with `n` rounds left. -/
def itemLoop [Score S] (env : ListEnv) (st : Store S) (values : Option Block) :
    Nat → Nat → Fields → Checked (List Item)
  | 0, _, _ => .ok []
  | n + 1, i, fields => do
    let (fields, item) ← itemAt (env.score i) values i fields st
    let items ← itemLoop env st values n (i + 1) fields
    return item :: items

/-- `vsprintf` of the text into the message buffer of `dumpmsg_to_file`. -/
def logText (out : List Byte) : Checked (List Byte) := memcpy (zeros 4096) 0 (out ++ [0])

/-- `file_list_to_json_print`: the bytes of the block returned, or none for NULL. The
parameters `cmd` and `kind` of the source are not used by it. -/
def fileListToJsonPrint [Score S] (env : ListEnv) (fromId count : Int) (st : Store S) :
    Checked (Option (List Byte)) := do
  let endId ← pageEnd fromId count
  if env.connected = false then return none
  else
    let page ← pageRows env.alloc env.range fromId endId count st
    if page.retn < 0 then return none
    else
      let items ← itemLoop env st page.values page.getNum.toNat 0 Fields.initial
      let out := env.print items
      let _ ← logText out
      if env.callocated = false then throw .null
      else
        let returnValue ← memcpy (zeros 10240) 0 (out ++ [0])
        return some returnValue

end CgiFileStore
