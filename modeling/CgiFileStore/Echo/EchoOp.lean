import CgiFileStore.Common.Suffix
import CgiFileStore.Lib.Files
import CgiFileStore.Redis.RedisOp

/-!
# The upload program: echo_op.c

The functions run in the order of the source. Pointers into the request body are offsets
from `source_net`. Log calls are left out except where printing a buffer reads past its
end, and so are the tests of arguments against NULL: `main` passes its own arrays.
-/

namespace CgiFileStore

open CSem Search Redis

def quote : Byte := 34

def crlf : List Byte := [13, 10]

def lf : List Byte := [10]

def filenameKey : List Byte := ascii "filename="

def maxBoundaryBuf : Nat := 512

/-! ## fiel_source_get: the header scan -/

/-- `while (*tem_source != '"')`: copy into `file_name` from index `i` on. The loop tests
neither the end of the string nor the size of `file_name`. -/
def copyName : List Byte → List Byte → Nat → Checked (List Byte × Nat)
  | [], _, _ => .error .read
  | c :: cs, fileName, i =>
    if c = quote then .ok (fileName, i)
    else do
      let fileName ← store fileName i c
      copyName cs fileName (i + 1)

/-- From `strstr(source_net, "filename=")` to the NUL behind the name. -/
def extractName (fileName sourceNet : List Byte) : Checked (Option (List Byte)) := do
  match ← strstr sourceNet filenameKey with
  | none => return none
  | some p =>
    let temSource := p + filenameKey.length
    match ← strchr (sourceNet.drop temSource) quote with
    | none => throw .null
    | some q =>
      let (fileName, i) ← copyName (sourceNet.drop (temSource + (q + 1))) fileName 0
      -- `file_name[++i]`: one index behind the end of the name
      let fileName ← store fileName (i + 1) 0
      return some fileName

/-- The end of the first line, CRLF before LF. -/
def lineEnd (sourceNet : List Byte) : Checked (Option Nat) := do
  match ← strstr sourceNet crlf with
  | some p => return some p
  | none => strstr sourceNet lf

/-- The copy of the first line. A line longer than the array is only logged. -/
def takeBoundary (n : Nat) (sourceNet : List Byte) : Checked (List Byte) := do
  let boundary ← strncpy (zeros maxBoundaryBuf) 0 sourceNet n
  store boundary n 0

/-- The end of the first blank line, relative to the pointer, and `is_Linux_flag`. -/
def blankLine (temCharP : List Byte) : Checked (Option (Nat × Bool)) := do
  match ← strstr temCharP (crlf ++ crlf) with
  | some p => return some (p + 4, false)
  | none =>
    match ← strstr temCharP (lf ++ lf) with
    | some p => return some (p + 2, true)
    | none => return none

/-- What `fiel_source_get` holds when it calls `memstr`. -/
structure Header where
  fileName : List Byte
  boundary : List Byte
  temSource : Nat
  isLinuxFlag : Bool
  deriving DecidableEq

/-- The header scan either leaves through `END` or reaches the call of `memstr`. -/
inductive Scan
  | done (ret : Int) (fileName : List Byte)
  | header (h : Header)
  deriving DecidableEq

/-- From the search of the first line end to the call of `memstr`. -/
def scanLines (fileName sourceNet : List Byte) : Checked Scan := do
  match ← lineEnd sourceNet with
  | none => return .done 1 fileName
  | some n =>
    let boundary ← takeBoundary n sourceNet
    match ← blankLine (sourceNet.drop n) with
    | none => return .done 1 fileName
    | some (k, isLinuxFlag) =>
      return .header { fileName, boundary, temSource := n + k, isLinuxFlag }

def scanHeader (fileName sourceNet : List Byte) : Checked Scan := do
  match ← extractName fileName sourceNet with
  | none => return .done (-1) fileName
  | some fileName => scanLines fileName sourceNet

/-! ## fiel_source_get: the write step -/

/-- The calls on the opened file: `ftruncate` and `write` with the same count, the bytes
written being `data`. A negative count writes nothing. -/
structure Save where
  path : Path
  start : Nat
  count : Int
  data : List Byte
  deriving DecidableEq

def Save.apply (w : Save) (fs : Files) : Files :=
  Function.update (fs.create w.path) w.path
    ((fs.create w.path w.path).map fun content => overwrite (ftruncate content w.count) w.data)

/-- The return value, `file_name`, and the write step if it was reached. -/
structure SourceGet where
  ret : Int
  fileName : List Byte
  save : Option Save
  deriving DecidableEq

/-- `fiel_source_get`; `openOk` tells which paths can be opened for writing. -/
def fielSourceGet (openOk : Path → Bool) (sourceNet : List Byte) (len : Int)
    (fileName : List Byte) : Checked SourceGet := do
  match ← scanHeader fileName sourceNet with
  | .done ret fileName => return { ret, fileName, save := none }
  | .header h =>
    -- the difference is a `ptrdiff_t` and converts to the `int` that `memstr` takes
    match ← memstr (some (sourceNet.drop h.temSource)) (wrapInt (len - h.temSource))
        (some h.boundary) with
    | none => return { ret := -1, fileName := h.fileName, save := none }
    | some p =>
      let path ← readString h.fileName
      if openOk path then
        let count : Int := if h.isLinuxFlag then p - 1 else p - 2
        let data := (sourceNet.drop h.temSource).take count.toNat
        let save := { path, start := h.temSource, count, data }
        return { ret := 0, fileName := h.fileName, save := some save }
      else return { ret := -1, fileName := h.fileName, save := none }

/-- The files after `fiel_source_get`. -/
def SourceGet.files (r : SourceGet) (fs : Files) : Files :=
  match r.save with
  | some w => w.apply fs
  | none => fs

/-! ## FastDFS -/

def maxFileIdFdfs : Nat := 256

/-- `recv_file_upload`; `output` is what the one `read` returns of what `fdfs_upload_file` has
printed. `fork` succeeds, and `wait` returns. -/
def recvFileUpload (pipeOk : Bool) (output fileIdFdfs : List Byte) :
    Checked (Int × List Byte) :=
  if pipeOk then do
    let fileIdFdfs ← memcpy fileIdFdfs 0 (output.take maxFileIdFdfs)
    match ← strlen fileIdFdfs with
    | 0 => throw .write
    | n + 1 =>
      let fileIdFdfs ← store fileIdFdfs n 0
      return (0, fileIdFdfs)
  else return (-1, fileIdFdfs)

def sourceIpKey : List Byte := ascii "source ip address: "

/-- `file_url_make`; `output` is what the one `read` returns of what `fdfs_file_info` prints. This
second `pipe`, whose result is not looked at, succeeds as `fork` does, and `wait` returns. -/
def fileUrlMake (output fileIdFdfs fileUrlFdfs : List Byte) : Checked (Int × List Byte) := do
  let statBuf ← memcpy (zeros 512) 0 (output.take 512)
  -- the log call prints the buffer as a string
  let _ ← readString statBuf
  match ← strstr statBuf sourceIpKey with
  | none => throw .null
  | some p =>
    let temP := statBuf.drop (p + sourceIpKey.length)
    match ← strstr temP lf with
    | none => throw .null
    | some n =>
      let hostName ← strncpy (zeros 128) 0 temP n
      let hostName ← store hostName n 0
      let url ← strcat fileUrlFdfs (ascii "http://")
      let host ← readString hostName
      let url ← strcat url host
      let url ← strcat url (ascii "/")
      let fileId ← readString fileIdFdfs
      let url ← strcat url fileId
      return (0, url)

/-! ## file_msg_store_to_redis -/

/-- What a call of `file_msg_store_to_redis` meets: whether the connection and the
allocation succeed, the text of `strftime`, and the fate of its two commands. -/
structure StoreEnv where
  connected : Bool
  allocated : Bool
  createTime : CStr
  push : Fate
  count : Fate

/-- The record put together in the 1024 bytes of `redis_value_buf`. -/
def makeRecord (fileIdFdfs fileUrlFdfs fileName : List Byte) (createTime user : CStr) :
    Checked (List Byte) := do
  let buf := zeros 1024
  let fileId ← readString fileIdFdfs
  let buf ← strcat buf fileId
  let buf ← strcat buf [delimiter]
  let fileUrl ← readString fileUrlFdfs
  let buf ← strcat buf fileUrl
  let buf ← strcat buf [delimiter]
  let name ← readString fileName
  let buf ← strcat buf name
  let buf ← strcat buf [delimiter]
  let buf ← strcat buf createTime.bytes
  let buf ← strcat buf [delimiter]
  let buf ← strcat buf user.bytes
  let buf ← strcat buf [delimiter]
  -- `suffix` starts without a defined content, which the call never reads
  let suffix ← fileSuffixGet fileName (zeros 64)
  let suffix ← readString suffix
  strcat buf suffix

variable {S : Type}

/-- From the record to its `LPUSH`, the first of the two writes. -/
def pushFile (fate : Fate) (fileIdFdfs fileUrlFdfs fileName : List Byte) (createTime user : CStr)
    (st : Store S) : Checked (Int × Store S) := do
  let buf ← makeRecord fileIdFdfs fileUrlFdfs fileName createTime user
  let value ← readString buf
  ropListPush fate fileInfoList value st

/-- The `ZINCRBY` of the file, the second write. -/
def countFile [Score S] (fate : Fate) (fileIdFdfs : List Byte) (st : Store S) :
    Checked (Int × Store S) := do
  let member ← readString fileIdFdfs
  ropZsetIncrement fate fileHotZset member st

/-- `file_msg_store_to_redis`: the results of the two wrappers are dropped. -/
def fileMsgStoreToRedis [Score S] (env : StoreEnv)
    (fileIdFdfs fileUrlFdfs fileName : List Byte) (user : CStr) (st : Store S) :
    Checked (Int × Store S) := do
  if env.connected = false then return (-1, st)
  else if env.allocated = false then return (-1, st)
  else
    let (_, st) ← pushFile env.push fileIdFdfs fileUrlFdfs fileName env.createTime user st
    let (_, st) ← countFile env.count fileIdFdfs st
    return (0, st)

/-- The user that `echo.c` passes for every upload. -/
def zhao : CStr := ⟨ascii "zhao", by decide⟩

end CgiFileStore
