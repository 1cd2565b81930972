import CgiFileStore.Echo.Multipart
import CgiFileStore.Echo.Store
import CgiFileStore.Lib.Transition

/-!
# The request loop of the upload worker: echo.c

The body of a request is read over what the requests before have left in `text_source`, and
the `memset` at the end of the loop clears as many bytes of it as a pointer has. The main
result says which requests `fiel_source_get` answers all the same as in a worker that has
served nothing before.
-/

namespace CgiFileStore

open CSem Search Redis Transition

def maxBufSource : Nat := 102400

def maxRecvFileName : Nat := 256

def maxFileUrlFdfs : Nat := 256

/-- `sizeof(text_source)`, which is declared as a pointer. -/
def sizeofTextSource : Nat := 8

/-- What outlives a request: the arrays of `main`, the files and the two keys. -/
structure EchoState (S : Type) where
  textSource : List Byte
  fileName : List Byte
  fileIdFdfs : List Byte
  fileUrlFdfs : List Byte
  files : Files
  store : Store S

/-- A request and what its round of the loop meets: the paths that can be opened, whether a
pipe can be made, what the two FastDFS commands print, and the calls for the store. -/
structure Request where
  contentLength : Option CStr
  stdin : List Byte
  openOk : Path → Bool
  pipeOk : Bool
  uploadOutput : List Byte
  infoOutput : List Byte
  storeEnv : StoreEnv

/-- `len`: the value of `strtol` is stored in an `int`. -/
def Request.len (req : Request) : Int :=
  match req.contentLength with
  | some s => wrapInt (strtol s.bytes)
  | none => 0

theorem Request.isInt_len (req : Request) : IsInt req.len := by
  unfold Request.len
  split
  · exact isInt_wrapInt _
  · decide

/-- The loop that reads `n` more bytes to the places from `i` on; none when the input ends
before. -/
def readBody : Nat → Nat → List Byte → List Byte → Checked (Option (List Byte))
  | 0, _, _, textSource => .ok (some textSource)
  | _ + 1, _, [], _ => .ok none
  | n + 1, i, ch :: stdin, textSource => do
    let textSource ← store textSource i ch
    readBody n (i + 1) stdin textSource

section

variable {S : Type}

def EchoState.initial (files : Files) (st : Store S) : EchoState S where
  textSource := zeros maxBufSource
  fileName := zeros maxRecvFileName
  fileIdFdfs := zeros maxFileIdFdfs
  fileUrlFdfs := zeros maxFileUrlFdfs
  files := files
  store := st

/-- The loop body up to `fiel_source_get`: `text_source` and the result, none when the body
does not arrive whole. -/
def echoRead (req : Request) (s : EchoState S) :
    Checked (Option (List Byte × SourceGet)) := do
  match ← readBody req.len.toNat 0 req.stdin s.textSource with
  | none => return none
  | some textSource =>
    let source ← fielSourceGet req.openOk textSource req.len s.fileName
    return some (textSource, source)

/-- What `fiel_source_get` does in the round of a request. -/
def echoSource (req : Request) (s : EchoState S) : Checked (Option SourceGet) :=
  (echoRead req s).map (Option.map Prod.snd)

/-- One round of the loop: the state for the next one, none when the worker leaves through
`END`. -/
def echoStep [Score S] (req : Request) (s : EchoState S) :
    Checked (Option (EchoState S)) := do
  match ← echoRead req s with
  | none => return none
  | some (textSource, source) =>
    if source.ret ≠ 0 then return none
    else
      let (ret, fileIdFdfs) ← recvFileUpload req.pipeOk req.uploadOutput s.fileIdFdfs
      if ret ≠ 0 then return none
      else
        let (ret, fileUrlFdfs) ← fileUrlMake req.infoOutput fileIdFdfs s.fileUrlFdfs
        if ret ≠ 0 then return none
        else
          let (ret, st) ←
            fileMsgStoreToRedis req.storeEnv fileIdFdfs fileUrlFdfs source.fileName zhao s.store
          if ret ≠ 0 then return none
          else
            let path ← readString source.fileName
            let fileName ← memset0 source.fileName maxRecvFileName
            let fileIdFdfs ← memset0 fileIdFdfs maxFileIdFdfs
            let fileUrlFdfs ← memset0 fileUrlFdfs maxFileUrlFdfs
            let textSource ← memset0 textSource sizeofTextSource
            return some
              { textSource, fileName, fileIdFdfs, fileUrlFdfs,
                files := (source.files s.files).unlink path, store := st }

/-- A round that is processed to the end of the loop body. -/
def Processed [Score S] (s : EchoState S) (req : Request) (s' : EchoState S) : Prop :=
  echoStep req s = .ok (some s')

end

/-! ## Reading the body -/

theorem length_readBody {n i : Nat} {stdin textSource r : List Byte}
    (h : readBody n i stdin textSource = .ok (some r)) : r.length = textSource.length := by
  induction n generalizing i stdin textSource with
  | zero =>
    obtain rfl : textSource = r := by simpa [readBody] using h
    rfl
  | succ n ih =>
    cases stdin with
    | nil => simp [readBody] at h
    | cons ch stdin =>
      obtain ⟨buf, hbuf, hrest⟩ := bind_eq_ok.mp h
      rw [ih hrest, length_store hbuf]

/-- An input that is long enough replaces `n` bytes of the array. -/
theorem readBody_eq {n i : Nat} {stdin textSource : List Byte} (hn : n ≤ stdin.length)
    (hi : i + n ≤ textSource.length) :
    readBody n i stdin textSource =
      .ok (some (textSource.take i ++ stdin.take n ++ textSource.drop (i + n))) := by
  induction n generalizing i stdin textSource with
  | zero => simp [readBody]
  | succ n ih =>
    cases stdin with
    | nil => simp at hn
    | cons ch stdin =>
      have hlt : i < textSource.length := by omega
      simp only [List.length_cons, Nat.add_le_add_iff_right] at hn
      rw [readBody, store_of_lt hlt, ok_bind, ih hn (by rw [List.length_set]; omega),
        List.take_succ_eq_append_getElem (by simpa using hlt), List.drop_set_of_lt (by omega),
        List.take_set_of_le le_rfl]
      simp [Nat.add_assoc, Nat.add_comm 1 n]

theorem readBody_short {n i : Nat} {stdin textSource : List Byte} (hn : stdin.length < n)
    (hi : i + stdin.length ≤ textSource.length) :
    readBody n i stdin textSource = .ok none := by
  induction n generalizing i stdin textSource with
  | zero => omega
  | succ n ih =>
    cases stdin with
    | nil => rfl
    | cons ch stdin =>
      simp only [List.length_cons, Nat.add_lt_add_iff_right] at hn hi
      rw [readBody, store_of_lt (by omega), ok_bind]
      exact ih hn (by rw [List.length_set]; omega)

/-- Nothing but the ends of the request and of the input stops the loop. -/
theorem readBody_overrun {n i : Nat} {stdin textSource : List Byte} (hi : i ≤ textSource.length)
    (hn : textSource.length < i + n) (hstdin : textSource.length < i + stdin.length) :
    readBody n i stdin textSource = .error .write := by
  induction n generalizing i stdin textSource with
  | zero => omega
  | succ n ih =>
    cases stdin with
    | nil =>
      rw [List.length_nil] at hstdin
      omega
    | cons ch stdin =>
      rw [List.length_cons] at hstdin
      obtain hlt | rfl := hi.lt_or_eq
      · rw [readBody, store_of_lt hlt, ok_bind]
        apply ih
        all_goals
          rw [List.length_set]
          omega
      · simp [readBody, store]

/-- What a read that is not cut short has done. -/
theorem readBody_eq_some {n : Nat} {stdin textSource r : List Byte}
    (h : readBody n 0 stdin textSource = .ok (some r)) :
    n ≤ stdin.length ∧ n ≤ textSource.length ∧ r = stdin.take n ++ textSource.drop n := by
  obtain hshort | hwhole := lt_or_ge stdin.length n
  · obtain hroom | hover := le_or_gt stdin.length textSource.length
    · rw [readBody_short hshort (by omega)] at h
      cases h
    · rw [readBody_overrun (by omega) (by omega) (by omega)] at h
      cases h
  · obtain hroom | hover := le_or_gt n textSource.length
    · rw [readBody_eq hwhole (by omega)] at h
      refine ⟨hwhole, hroom, ?_⟩
      simpa using h.symm
    · rw [readBody_overrun (by omega) (by omega) (by omega)] at h
      cases h

/-! ## What follows the body -/

/-- The scan does not look at what follows the body in `text_source`: a NUL ends the strings
it searches, or everything that it searches for occurs in the body. A name that is opened in the
text of the body is closed in the body. -/
def ScanStops (body rest : List Byte) : Prop :=
  (0 ∈ body ∨ rest.head? = some 0 ∨ NameFound body ∧ crlf ++ crlf <:+: body) ∧ NameClosed body

section

variable {fileName body rest : List Byte}

theorem scanStops_zeros (hclosed : NameClosed body) (n : Nat) :
    ScanStops body (zeros (n + 1)) :=
  ⟨.inr (.inl rfl), hclosed⟩

theorem nameClosed_append_zero (h : NameClosed body) : NameClosed (body ++ [0]) := by
  intro k q hk hq
  rw [cstring_append_zero_any] at hk hq
  rw [List.drop_append_of_le_length (quotes_le hk hq)]
  exact List.mem_append_left _ (h k q hk hq)

/-- Where the scan stops, its outcome is the one with only a NUL behind the body. -/
theorem scanHeader_append (hstop : ScanStops body rest) :
    scanHeader fileName (body ++ rest) = scanHeader fileName (body ++ [0]) := by
  obtain ⟨hend, hclosed⟩ := hstop
  have hwithin : (0 ∈ body ∨ NameFound body ∧ crlf ++ crlf <:+: body) →
      scanHeader fileName (body ++ rest) = scanHeader fileName (body ++ [0]) := by
    intro h
    rw [settled_scanHeader fileName h hclosed rest, settled_scanHeader fileName h hclosed [0]]
  obtain h0 | hrest | hfound := hend
  · exact hwithin (.inl h0)
  · obtain ⟨t, rfl⟩ := List.head?_eq_some_iff.mp hrest
    rw [List.append_cons]
    exact settled_scanHeader fileName (.inl (by simp)) (nameClosed_append_zero hclosed) t
  · exact hwithin (.inr hfound)

/-- The same for `fiel_source_get`: `memstr` and the write step stay within the first `len`
bytes. -/
theorem fielSourceGet_append {openOk : Path → Bool} {len : Int} (hstop : ScanStops body rest)
    (hint : IsInt len) (hlen : len.toNat = body.length) (hbody : body.length ≤ 102400) :
    fielSourceGet openOk (body ++ rest) len fileName =
      fielSourceGet openOk (body ++ [0]) len fileName := by
  rw [fielSourceGet, fielSourceGet, scanHeader_append hstop]
  cases hheader : scanHeader fileName (body ++ [0]) with
  | error e => rfl
  | ok scan =>
    cases scan with
    | done ret name => rfl
    | header h =>
      obtain ⟨-, hread, hshort, hle⟩ := scanHeader_header hheader
      have hdata : ∀ t, ∀ p c : Nat, firstOcc (boundaryLine body) (body.drop h.temSource) = some p →
          c ≤ p → ((body ++ t).drop h.temSource).take c = (body.drop h.temSource).take c := by
        intro t p c hp hc
        have := firstOcc_add_length_le hp
        rw [List.drop_append_of_le_length hle, List.take_append_of_le_length (by omega)]
      simp only [ok_bind, memstr_content hread hshort hbody hint hlen hle]
      by_cases hnone : len ≤ h.temSource ∨ boundaryLine body = []
      · simp only [if_pos hnone]
      · simp only [if_neg hnone]
        cases hp : firstOcc (boundaryLine body) (body.drop h.temSource) with
        | none => rfl
        | some p =>
          dsimp only
          rw [hdata rest p _ hp (by split <;> omega), hdata [0] p _ hp (by split <;> omega)]

end

/-! ## The arrays at the start of a round -/

section

variable {S : Type}

/-- What every round leaves behind. -/
structure Cleared (s : EchoState S) : Prop where
  fileName : s.fileName = zeros 256
  length_textSource : s.textSource.length = 102400
  take_textSource : s.textSource.take 8 = zeros 8

theorem initial_cleared (files : Files) (st : Store S) :
    Cleared (EchoState.initial files st) where
  fileName := rfl
  length_textSource := length_zeros _
  take_textSource := by
    simp only [EchoState.initial, zeros, List.take_replicate]
    rfl

theorem drop_initial (files : Files) (st : Store S) {n : Nat} (h : n < 102400) :
    (EchoState.initial files st).textSource.drop n = zeros (102400 - n - 1 + 1) := by
  rw [EchoState.initial, zeros, List.drop_replicate, maxBufSource, zeros]
  congr 1
  omega

/-- The body that the round of a request reads. -/
def Request.body (req : Request) : List Byte := req.stdin.take req.len.toNat

/-- A body that arrives whole is searched with the rest of `text_source` behind it. -/
theorem echoSource_eq {req : Request} {s : EchoState S} (hlen : req.len < 102400)
    (hs : s.textSource.length = 102400) :
    echoSource req s =
      if req.stdin.length < req.len.toNat then .ok none
      else
        (fielSourceGet req.openOk (req.body ++ s.textSource.drop req.len.toNat) req.len
          s.fileName).map some := by
  unfold echoSource echoRead
  split_ifs with hshort
  · rw [readBody_short hshort (by omega)]
    rfl
  · rw [readBody_eq (by omega) (by omega)]
    simp only [List.take_zero, List.nil_append, Nat.zero_add, ok_bind, Request.body]
    cases fielSourceGet req.openOk _ req.len s.fileName <;> rfl

/-- What a round that is processed to its end has done. -/
theorem processed_inv [Score S] {req : Request} {s s' : EchoState S} (h : Processed s req s') :
    ∃ textSource source fileIdFdfs fileUrlFdfs path,
      echoRead req s = .ok (some (textSource, source)) ∧
      recvFileUpload req.pipeOk req.uploadOutput s.fileIdFdfs = .ok (0, fileIdFdfs) ∧
      fileUrlMake req.infoOutput fileIdFdfs s.fileUrlFdfs = .ok (0, fileUrlFdfs) ∧
      fileMsgStoreToRedis req.storeEnv fileIdFdfs fileUrlFdfs source.fileName zhao s.store =
        .ok (0, s'.store) ∧
      readString source.fileName = .ok path ∧
      memset0 source.fileName 256 = .ok s'.fileName ∧
      memset0 fileIdFdfs 256 = .ok s'.fileIdFdfs ∧
      memset0 fileUrlFdfs 256 = .ok s'.fileUrlFdfs ∧
      memset0 textSource 8 = .ok s'.textSource ∧
      source.ret = 0 ∧ s'.files = (source.files s.files).unlink path := by
  obtain ⟨read, hread, h⟩ := bind_eq_ok.mp h
  cases read with
  | none => simp at h
  | some read =>
    obtain ⟨textSource, source⟩ := read
    dsimp only at h
    split_ifs at h with hsource
    · simp at h
    obtain ⟨⟨ret, fileIdFdfs⟩, hid, h⟩ := bind_eq_ok.mp h
    dsimp only at h
    split_ifs at h with hret
    · simp at h
    obtain rfl : ret = 0 := not_not.mp hret
    obtain ⟨⟨ret, fileUrlFdfs⟩, hurl, h⟩ := bind_eq_ok.mp h
    dsimp only at h
    split_ifs at h with hret
    · simp at h
    obtain rfl : ret = 0 := not_not.mp hret
    obtain ⟨⟨ret, st⟩, hstore, h⟩ := bind_eq_ok.mp h
    dsimp only at h
    split_ifs at h with hret
    · simp at h
    obtain rfl : ret = 0 := not_not.mp hret
    obtain ⟨path, hpath, h⟩ := bind_eq_ok.mp h
    obtain ⟨fileName, hfileName, h⟩ := bind_eq_ok.mp h
    obtain ⟨fileIdFdfs', hfileIdFdfs, h⟩ := bind_eq_ok.mp h
    obtain ⟨fileUrlFdfs', hfileUrlFdfs, h⟩ := bind_eq_ok.mp h
    obtain ⟨textSource', htextSource, h⟩ := bind_eq_ok.mp h
    obtain rfl : _ = s' := by simpa using h
    exact ⟨textSource, source, fileIdFdfs, fileUrlFdfs, path, hread, hid, hurl, hstore, hpath,
      hfileName, hfileIdFdfs, hfileUrlFdfs, htextSource, not_not.mp hsource, rfl⟩

theorem length_fielSourceGet {openOk : Path → Bool} {m fileName : List Byte} {len : Int}
    {r : SourceGet} (h : fielSourceGet openOk m len fileName = .ok r) :
    r.fileName.length = fileName.length := by
  obtain ⟨scan, hscan, h⟩ := bind_eq_ok.mp h
  rw [← length_scanHeader hscan]
  cases scan with
  | done ret name =>
    obtain rfl : _ = r := by simpa using h
    rfl
  | header header =>
    obtain ⟨p, -, h⟩ := bind_eq_ok.mp h
    cases p with
    | none =>
      obtain rfl : _ = r := by simpa using h
      rfl
    | some p =>
      obtain ⟨path, -, h⟩ := bind_eq_ok.mp h
      dsimp only at h
      split_ifs at h
      all_goals
        obtain rfl : _ = r := by simpa using h
        rfl

theorem length_echoRead {req : Request} {s : EchoState S} {textSource : List Byte}
    {source : SourceGet} (h : echoRead req s = .ok (some (textSource, source))) :
    textSource.length = s.textSource.length ∧ source.fileName.length = s.fileName.length := by
  obtain ⟨text, htext, h⟩ := bind_eq_ok.mp h
  cases text with
  | none => simp at h
  | some text =>
    obtain ⟨source', hsource, h⟩ := bind_eq_ok.mp h
    obtain ⟨rfl, rfl⟩ : text = textSource ∧ source' = source := by simpa using h
    exact ⟨length_readBody htext, length_fielSourceGet hsource⟩

theorem processed_cleared [Score S] {req : Request} {s s' : EchoState S} (hs : Cleared s)
    (h : Processed s req s') : Cleared s' := by
  obtain ⟨textSource, source, -, -, -, hread, -, -, -, -, hfileName, -, -, htextSource, -⟩ :=
    processed_inv h
  obtain ⟨hlenText, hlenName⟩ := length_echoRead hread
  obtain ⟨-, hfileName⟩ := memset0_eq_ok.mp hfileName
  obtain ⟨hle, htextSource⟩ := memset0_eq_ok.mp htextSource
  rw [hs.fileName, length_zeros] at hlenName
  refine ⟨?_, ?_, ?_⟩
  · rw [hfileName, List.drop_eq_nil_of_le hlenName.le, List.append_nil]
  · rw [htextSource, List.length_append, length_zeros, List.length_drop, Nat.add_sub_cancel' hle,
      hlenText, hs.length_textSource]
  · rw [htextSource]
    exact List.take_left' (length_zeros 8)

theorem cleared_of_run [Score S] {files : Files} {st : Store S} {history : List Request}
    {s : EchoState S} (hrun : Run (EchoState.initial files st) Processed history s) : Cleared s :=
  hrun.invariant (initial_cleared files st) fun _ _ _ => processed_cleared

/-- Behind a body of less than 8 bytes stands one of the NULs of the last `memset`, and no name
is opened in it. -/
theorem scanStops_of_short {s : EchoState S} (hs : Cleared s) {body : List Byte}
    (h : body.length < 8) : ScanStops body (s.textSource.drop body.length) := by
  refine ⟨.inr (.inl ?_), fun k q hk _ => ?_⟩
  · have hget : (s.textSource.take 8)[body.length]? = some 0 := by
      rw [hs.take_textSource, zeros, List.getElem?_replicate, if_pos h]
    rw [List.head?_drop, ← hget, List.getElem?_take, if_pos h]
  · have hkey : filenameKey.length = 9 := rfl
    have hle := firstOcc_add_length_le hk
    have hshort := (cstring_isPrefix body).length_le
    omega

/-! ## Any history of uploads -/

/-- After any history of uploads that were processed to the end, `fiel_source_get` does for the
next request what it does in a worker that has served nothing, if the scan stops. -/
theorem echoSource_fresh [Score S] (files : Files) (st : Store S) (history : List Request)
    (s : EchoState S) (hrun : Run (EchoState.initial files st) Processed history s)
    (req : Request) (hlen : req.len < 102400)
    (hstop : ScanStops req.body (s.textSource.drop req.len.toNat)) :
    echoSource req s = echoSource req (EchoState.initial files st) := by
  have hinit := initial_cleared files st
  have hs := cleared_of_run hrun
  rw [echoSource_eq hlen hinit.length_textSource, echoSource_eq hlen hs.length_textSource,
    hinit.fileName, hs.fileName]
  split_ifs with hshort
  · rfl
  · have hbody : req.len.toNat = req.body.length := by
      rw [Request.body, List.length_take]
      omega
    rw [drop_initial files st (by omega), fielSourceGet_append hstop req.isInt_len hbody (by omega),
      fielSourceGet_append (scanStops_zeros hstop.2 _) req.isInt_len hbody (by omega)]

end

/-! ## Two uploads -/

/-- An upload of `body` to a server and to FastDFS commands that work. -/
def upload (contentLength : CStr) (body : List Byte) : Request where
  contentLength := some contentLength
  stdin := body
  openOk := fun _ => true
  pipeOk := true
  uploadOutput := ascii "g\n"
  infoOutput := ascii "source ip address: h\n"
  storeEnv :=
    { connected := true
      allocated := true
      createTime := ⟨ascii "t", by decide⟩
      push := .serve
      count := .serve }

/-- A body whose lines end with CRLF. -/
def crlfBody : List Byte := ascii "b\r\nfilename=\"f\"\r\n\r\nc\r\nb"

def crlfUpload : Request := upload ⟨ascii "23", by decide⟩ crlfBody

/-- A body whose lines end with LF. -/
def lfBody : List Byte := ascii "b\nfilename=\"g\"\n\nx\nb"

def lfUpload : Request := upload ⟨ascii "19", by decide⟩ lfBody

/-- What `fiel_source_get` does with `crlfBody`. -/
def crlfSource : SourceGet where
  ret := 0
  fileName := ascii "f" ++ zeros 255
  save := some { path := ascii "f", start := 19, count := 1, data := ascii "c" }

/-- The name of a body that is closed in the place where it is looked for. -/
theorem nameClosed_of_eq {body : List Byte} {k q : Nat}
    (hk : firstOcc filenameKey (cstring body) = some k)
    (hq : firstOcc [quote] ((cstring body).drop (k + 9)) = some q)
    (hmem : quote ∈ body.drop (k + 9 + (q + 1))) : NameClosed body := by
  intro k' q' hk' hq'
  obtain rfl : k = k' := Option.some.inj (hk.symm.trans hk')
  obtain rfl : q = q' := Option.some.inj (hq.symm.trans hq')
  exact hmem

theorem nameClosed_crlfBody : NameClosed crlfBody :=
  nameClosed_of_eq (k := 3) (q := 0) (by decide +kernel) (by decide +kernel) (by decide +kernel)

theorem nameClosed_lfBody : NameClosed lfBody :=
  nameClosed_of_eq (k := 2) (q := 0) (by decide +kernel) (by decide +kernel) (by decide +kernel)

theorem echoRead_crlfUpload (files : Files) (st : Store Nat) :
    echoRead crlfUpload (EchoState.initial files st) =
      .ok (some (crlfBody ++ zeros 102377, crlfSource)) := by
  have hread : readBody 23 0 crlfBody (zeros 102400) = .ok (some (crlfBody ++ zeros 102377)) := by
    rw [readBody_eq (by decide) (by simp), zeros, List.drop_replicate]
    rfl
  have hsource : fielSourceGet (fun _ => true) (crlfBody ++ zeros 102377) 23 (zeros 256) =
      .ok crlfSource := by
    rw [fielSourceGet_append (scanStops_zeros nameClosed_crlfBody 102376) (by decide) rfl
      (by decide)]
    decide +kernel
  have hlen : crlfUpload.len = 23 := by decide
  rw [echoRead, hlen]
  change (readBody 23 0 crlfBody (zeros 102400) >>= _) = _
  rw [hread, ok_bind]
  change (fielSourceGet (fun _ => true) (crlfBody ++ zeros 102377) 23 (zeros 256) >>= _) = _
  rw [hsource]
  rfl

/-- A worker before its first request. -/
def firstState : EchoState Nat := EchoState.initial (fun _ => none) (emptyStore Nat)

/-- The upload of a CRLF body is processed to its end and stays in `text_source` from the
ninth byte on. -/
theorem exists_processed_crlfUpload :
    ∃ s, Run firstState Processed [crlfUpload] s ∧
      s.textSource = zeros 8 ++ crlfBody.drop 8 ++ zeros 102377 := by
  have hupload : recvFileUpload crlfUpload.pipeOk crlfUpload.uploadOutput firstState.fileIdFdfs =
      .ok (0, ascii "g" ++ zeros 255) := by decide +kernel
  have hurl : fileUrlMake crlfUpload.infoOutput (ascii "g" ++ zeros 255) firstState.fileUrlFdfs =
      .ok (0, ascii "http://h/g" ++ zeros 246) := by decide +kernel
  have hpath : readString crlfSource.fileName = .ok (ascii "f") := by decide +kernel
  have hstored : fileMsgStoreToRedis crlfUpload.storeEnv (ascii "g" ++ zeros 255)
      (ascii "http://h/g" ++ zeros 246) crlfSource.fileName zhao firstState.store = .ok (0, _) :=
    fileMsgStoreToRedis_applied
      (readString_append_zeros (by decide : 0 ∉ ascii "g") (by decide : 0 < 255))
      (readString_append_zeros (by decide : 0 ∉ ascii "http://h/g") (by decide : 0 < 246))
      hpath ⟨by decide, by decide⟩ ⟨⟨rfl, rfl⟩, ⟨rfl, .inl rfl⟩, ⟨rfl, .inl rfl⟩⟩
  have hname : memset0 crlfSource.fileName maxRecvFileName = .ok (zeros 256) := by decide +kernel
  have hid : memset0 (ascii "g" ++ zeros 255) maxFileIdFdfs = .ok (zeros 256) := by
    decide +kernel
  have hurl' : memset0 (ascii "http://h/g" ++ zeros 246) maxFileUrlFdfs = .ok (zeros 256) := by
    decide +kernel
  have htext : memset0 (crlfBody ++ zeros 102377) sizeofTextSource =
      .ok (zeros 8 ++ crlfBody.drop 8 ++ zeros 102377) := by
    rw [memset0_eq_ok, sizeofTextSource, List.drop_append_of_le_length (by decide),
      List.append_assoc]
    exact ⟨List.length_append ▸ Nat.le_add_right_of_le (by decide), rfl⟩
  have hstep : ∃ s', Processed firstState crlfUpload s' ∧
      s'.textSource = zeros 8 ++ crlfBody.drop 8 ++ zeros 102377 := by
    simp only [Processed, echoStep]
    rw [firstState, echoRead_crlfUpload, ok_bind, ← firstState]
    dsimp only
    rw [if_neg (by decide), hupload, ok_bind, if_neg (by decide), hurl, ok_bind, if_neg (by decide),
      hstored, ok_bind, if_neg (by decide), hpath, ok_bind, hname, ok_bind, hid, ok_bind, hurl',
      ok_bind, htext, ok_bind]
    exact ⟨_, rfl, rfl⟩
  obtain ⟨s', hs', htext'⟩ := hstep
  exact ⟨s', .cons .nil hs', htext'⟩

/-- Behind the first upload the same body is answered as before. -/
theorem echoSource_fresh_crlfUpload :
    ∃ s, Run firstState Processed [crlfUpload] s ∧
      echoSource crlfUpload s = echoSource crlfUpload firstState := by
  obtain ⟨s, hrun, -⟩ := exists_processed_crlfUpload
  exact ⟨s, hrun, echoSource_fresh (fun _ => none) (emptyStore Nat) _ s hrun crlfUpload
    (by decide) ⟨.inr (.inr ⟨⟨3, by decide +kernel, by decide +kernel⟩, by decide +kernel⟩),
      nameClosed_crlfBody⟩⟩

/-- Behind the same upload a body whose lines end with LF is refused, because the CRLF that
the search for the first line meets is one of the upload before. -/
theorem echoSource_refused :
    lfUpload.len < 102400 ∧
      ∃ s, Run firstState Processed [crlfUpload] s ∧
        echoSource lfUpload firstState = .ok (some
          { ret := 0
            fileName := ascii "g" ++ zeros 255
            save := some { path := ascii "g", start := 16, count := 1, data := ascii "x" } }) ∧
        echoSource lfUpload s = .ok (some
          { ret := 1, fileName := ascii "g" ++ zeros 255, save := none }) := by
  have hlen : lfUpload.len = 19 := by decide
  obtain ⟨s, hrun, htext⟩ := exists_processed_crlfUpload
  have hs := cleared_of_run hrun
  refine ⟨by decide, s, hrun, ?_, ?_⟩
  · have hfresh : fielSourceGet lfUpload.openOk (lfBody ++ zeros 102381) 19 (zeros 256) = .ok
        { ret := 0
          fileName := ascii "g" ++ zeros 255
          save := some { path := ascii "g", start := 16, count := 1, data := ascii "x" } } := by
      rw [fielSourceGet_append (scanStops_zeros nameClosed_lfBody 102380) (by decide) rfl
        (by decide)]
      decide +kernel
    rw [echoSource_eq (by decide) (length_zeros _), if_neg (by decide), hlen, firstState,
      drop_initial _ _ (by decide)]
    exact congrArg (Except.map some) hfresh
  · have hscan : scanHeader (zeros 256) (lfBody ++ ascii "c\r\nb" ++ [0]) =
        .ok (.done 1 (ascii "g" ++ zeros 255)) := by decide +kernel
    have hstale : scanHeader (zeros 256) (lfBody ++ (ascii "c\r\nb" ++ zeros 102377)) =
        .ok (.done 1 (ascii "g" ++ zeros 255)) := by
      have hsplit : lfBody ++ (ascii "c\r\nb" ++ zeros 102377) =
          lfBody ++ ascii "c\r\nb" ++ [0] ++ zeros 102376 := by
        simp only [List.append_assoc]
        rfl
      rw [hsplit]
      exact local_scanHeader _ _ _ hscan _
    have hrest : (zeros 8 ++ crlfBody.drop 8 ++ zeros 102377).drop 19 =
        ascii "c\r\nb" ++ zeros 102377 := by
      rw [List.drop_append_of_le_length (by decide)]
      rfl
    have hsource : fielSourceGet lfUpload.openOk (lfBody ++ (ascii "c\r\nb" ++ zeros 102377)) 19
        (zeros 256) = .ok { ret := 1, fileName := ascii "g" ++ zeros 255, save := none } := by
      rw [fielSourceGet, hstale]
      rfl
    rw [echoSource_eq (by decide) hs.length_textSource, if_neg (by decide), htext, hs.fileName,
      hlen, show Int.toNat 19 = 19 from rfl, hrest]
    exact congrArg (Except.map some) hsource

end CgiFileStore
