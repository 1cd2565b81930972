import CgiFileStore.Echo.ToolOutput
import CgiFileStore.Echo.UploadFiles

/-!
# Uploaders that share a directory

Any number of upload workers, interleaved at the steps that others can see: the write of the
local file, the upload of what is found at its path, the commands to Redis and the `unlink`.
All steps succeed. Without interference the steps of a worker are a round of its loop. The
main result says for which runs FastDFS holds the content of a request under its id.
-/

namespace CgiFileStore

open CSem Redis Transition

/-- Where a worker is in a round: the body of the request that it serves, and what it holds for
it. -/
inductive Stage
  | idle
  | written (body fileName : List Byte) (w : Save)
  | stored (body fileName : List Byte) (w : Save) (fileIdFdfs : List Byte)
  | recorded (w : Save)

/-- The files, the contents in FastDFS by their ids, the two keys, the workers, and the ids that
have been recorded, each with the body of its request. -/
structure Uploads (E I W S : Type) where
  tree : Tree E I
  fastdfs : List Byte → Option (List Byte)
  store : Store S
  stage : W → Stage
  records : List (List Byte × List Byte)

inductive UploadEvent (I W : Type)
  | write (k : W) (body rest : List Byte) (len : Int) (i : I)
  | upload (k : W) (id : CStr)
  | push (k : W) (info : List Byte) (env : StoreEnv)
  | unlink (k : W)

variable {E I W S : Type}

/-- Idle workers, and nothing in FastDFS. -/
def Uploads.initial (tree : Tree E I) (store : Store S) : Uploads E I W S where
  tree := tree
  fastdfs := fun _ => none
  store := store
  stage := fun _ => .idle
  records := []

variable [DecidableEq E] [DecidableEq I] [DecidableEq W] [Score S] (resolve : Path → Option E)

/-- One step of a worker. A request with a body of `len` bytes is in `text_source`, with `rest`
behind it, and `i` is the inode that a new file gets. The command that FastDFS is called by prints
the new id in a line. -/
inductive UploadStep : Uploads E I W S → UploadEvent I W → Uploads E I W S → Prop
  | write {s : Uploads E I W S} {k : W} {body rest : List Byte} {len : Int} {i : I}
      {source : SourceGet} {w : Save} (idle : s.stage k = .idle) (unused : s.tree.Unused i)
      (int : IsInt len) (length : len.toNat = body.length)
      (size : body.length + rest.length = maxBufSource)
      (run : fielSourceGet (canOpenPath resolve s.tree) (body ++ rest) len (zeros 256) =
        .ok source)
      (ret : source.ret = 0) (save : source.save = some w) (count : 0 ≤ w.count) :
      UploadStep s (.write k body rest len i)
        { s with
          tree := w.onTree resolve i s.tree
          stage := Function.update s.stage k (.written body source.fileName w) }
  | upload {s : Uploads E I W S} {k : W} {body fileName : List Byte} {w : Save} {id : CStr}
      {path : Path} {content fileIdFdfs : List Byte}
      (written : s.stage k = .written body fileName w) (name : readString fileName = .ok path)
      (found : filesOf resolve s.tree path = some content) (fresh : s.fastdfs id.bytes = none)
      (run : recvFileUpload true (id.bytes ++ lf) (zeros 256) = .ok (0, fileIdFdfs)) :
      UploadStep s (.upload k id)
        { s with
          fastdfs := Function.update s.fastdfs id.bytes (some content)
          stage := Function.update s.stage k (.stored body fileName w fileIdFdfs) }
  | push {s : Uploads E I W S} {k : W} {body fileName : List Byte} {w : Save} {info : List Byte}
      {env : StoreEnv} {fileIdFdfs fileUrlFdfs id : List Byte} {st : Store S}
      (stored : s.stage k = .stored body fileName w fileIdFdfs)
      (url : fileUrlMake info fileIdFdfs (zeros 256) = .ok (0, fileUrlFdfs))
      (run : fileMsgStoreToRedis env fileIdFdfs fileUrlFdfs fileName zhao s.store = .ok (0, st))
      (applied : BothApplied env s.store) (recorded : readString fileIdFdfs = .ok id) :
      UploadStep s (.push k info env)
        { s with
          store := st
          stage := Function.update s.stage k (.recorded w)
          records := (id, body) :: s.records }
  | unlink {s : Uploads E I W S} {k : W} {w : Save} (recorded : s.stage k = .recorded w) :
      UploadStep s (.unlink k)
        { s with
          tree := unlinkPath resolve s.tree w.path
          stage := Function.update s.stage k .idle }

/-! ## Disturbed files -/

/-- The two paths lead to the same file, or to the same place for one. -/
def SamePath (t : Tree E I) (p p' : Path) : Prop :=
  ∃ e e', resolve p = some e ∧ resolve p' = some e' ∧ t.SameFile e e'

/-- A body is scanned without looking at what an earlier one has left behind it, and what is written
does not go to the file of a worker that has not yet had it stored. -/
def Undisturbed (s : Uploads E I W S) : UploadEvent I W → Prop
  | .write _ body rest _ _ => ScanStops body rest ∧ ∀ path, pathOf (body ++ rest) = some path →
      ∀ k body' fileName w, s.stage k = .written body' fileName w →
        ¬ SamePath resolve s.tree w.path path
  | _ => True

/-- A step that does not disturb the file of another worker. -/
def QuietStep (s : Uploads E I W S) (event : UploadEvent I W) (s' : Uploads E I W S) : Prop :=
  UploadStep resolve s event s' ∧ Undisturbed resolve s event

/-! ## A worker that is not interrupted -/

/-- The id that a worker takes from a printed line is the one that was printed. -/
theorem readString_of_line {id : CStr} {fileIdFdfs : List Byte}
    (h : recvFileUpload true (id.bytes ++ lf) (zeros 256) = .ok (0, fileIdFdfs)) :
    readString fileIdFdfs = .ok id.bytes := by
  obtain ⟨hne, hlt⟩ := recvFileUpload_eq_ok h
  obtain ⟨buf, hbuf, hread⟩ := recvFileUpload_eq hne hlt
  obtain rfl : fileIdFdfs = buf := by simpa using h.symm.trans hbuf
  rw [hread, cstring_line id.nul_free]
  exact congrArg Except.ok List.dropLast_concat

omit [DecidableEq W] [Score S] in
/-- What is found at a path that has just been written. -/
theorem filesOf_written {resolve : Path → Option E} {t : Tree E I} {w : Save} {i : I}
    (hcount : w.count = w.data.length) (hopen : canOpenPath resolve t w.path = true) :
    filesOf resolve (w.onTree resolve i t) w.path = some w.data := by
  unfold canOpenPath at hopen
  split at hopen
  · cases hopen
  · next e he =>
    simp only [filesOf, Save.onTree, he]
    rw [Tree.read_save_self hopen, hcount, overwrite_ftruncate]

/-- The steps of a worker without anything between them are a round of its loop, here in a state
in which no other worker waits for the file to be stored. -/
theorem run_round (sys : Uploads E I W S) (k : W) (i : I) (id : CStr) {req : Request}
    {s s' : EchoState S} (hs : Cleared s) (hids : IdsCleared s) (h : Processed s req s')
    (hidle : sys.stage k = .idle) (hstore : sys.store = s.store) (hunused : sys.tree.Unused i)
    (hopen : ∀ path, req.openOk path = canOpenPath resolve sys.tree path)
    (hprinted : req.pipeOk = true ∧ req.uploadOutput = id.bytes ++ lf)
    (hfresh : sys.fastdfs id.bytes = none) (happlied : BothApplied req.storeEnv s.store)
    (hcount : ∀ text source w, echoRead req s = .ok (some (text, source)) →
      source.save = some w → 0 ≤ w.count)
    (hquiet : Undisturbed resolve sys
      (.write k req.body (s.textSource.drop req.len.toNat) req.len i)) :
    ∃ (w : Save) (t' : Tree E I), echoTree resolve i req s sys.tree = .ok (some t') ∧
      Run sys (QuietStep resolve) [.unlink k, .push k req.infoOutput req.storeEnv, .upload k id,
        .write k req.body (s.textSource.drop req.len.toNat) req.len i]
        { sys with
          tree := t'
          fastdfs := Function.update sys.fastdfs id.bytes (some w.data)
          store := s'.store
          records := (id.bytes, req.body) :: sys.records } := by
  obtain ⟨text, source, fileIdFdfs, fileUrlFdfs, path, hread, hrecv, hmake, hmsg, hpath, -, -, -,
    -, hret, -⟩ := processed_inv h
  obtain ⟨rfl, hget⟩ := echoRead_inv hread
  obtain ⟨hbody, hroom⟩ := length_body_of_echoRead hread
  rw [hs.fileName, funext hopen] at hget
  obtain ⟨w, hw, -, hname, hok, hlen⟩ := fielSourceGet_zero hget hret
  have hnonneg := hcount _ _ w hread hw
  rw [hids.fileIdFdfs, hprinted.1, hprinted.2] at hrecv
  rw [hids.fileUrlFdfs] at hmake
  rw [← hstore] at hmsg happlied
  have hfound := filesOf_written (i := i) (hlen hnonneg) hok
  have hsize : req.body.length + (s.textSource.drop req.len.toNat).length = maxBufSource := by
    rw [List.length_drop, ← hbody, hs.length_textSource, maxBufSource]
    rw [hs.length_textSource] at hroom
    omega
  refine ⟨w, _, echoTree_eq hread hw hname i sys.tree, ?_⟩
  have hback : Function.update (Function.update (Function.update (Function.update sys.stage k
      (.written req.body source.fileName w)) k (.stored req.body source.fileName w fileIdFdfs)) k
        (.recorded w)) k .idle = sys.stage := by
    rw [Function.update_idem, Function.update_idem, Function.update_idem, ← hidle,
      Function.update_eq_self]
  have hwrite : QuietStep resolve sys _ _ :=
    ⟨.write hidle hunused req.isInt_len hbody hsize hget hret hw hnonneg, hquiet⟩
  have hrun := Run.single hwrite
  have hrun := hrun.cons ⟨.upload (Function.update_self ..) hname hfound hfresh hrecv, trivial⟩
  have hrun := hrun.cons ⟨.push (Function.update_self ..) hmake hmsg happlied
    (readString_of_line hrecv), trivial⟩
  have hrun := hrun.cons ⟨.unlink (Function.update_self ..), trivial⟩
  rwa [hback] at hrun

/-! ## Contents under their ids -/

/-- What holds in every state of a run without disturbed files. -/
structure Intact (s : Uploads E I W S) : Prop where
  written : ∀ k body fileName w, s.stage k = .written body fileName w →
    contentOf body = some w.data ∧ readString fileName = .ok w.path ∧
      ∀ e, resolve w.path = some e → s.tree.Holds e w.data
  stored : ∀ k body fileName w fileIdFdfs, s.stage k = .stored body fileName w fileIdFdfs →
    contentOf body = some w.data ∧
      ∃ id, readString fileIdFdfs = .ok id ∧ s.fastdfs id = some w.data
  records : ∀ r ∈ s.records, ∃ content, contentOf r.2 = some content ∧
    s.fastdfs r.1 = some content

section

variable {resolve} {t : Tree E I} {w : Save} {i : I}

/-- The write of a count that is not negative leaves the data and nothing else in the file. -/
theorem holds_onTree (hcount : w.count = w.data.length) {e : E} (he : resolve w.path = some e) :
    (w.onTree resolve i t).Holds e w.data := by
  rw [Save.onTree, he]
  exact Tree.holds_save fun content => by rw [hcount, overwrite_ftruncate]

theorem Holds.onTree {e : E} {data : List Byte} (h : t.Holds e data) (hunused : t.Unused i)
    (hother : ∀ x, resolve w.path = some x → ¬ t.SameFile e x) :
    (w.onTree resolve i t).Holds e data := by
  unfold Save.onTree
  split
  · exact h
  · next x hx => exact h.save hunused (hother x hx)

omit [DecidableEq I] in
theorem Holds.unlinkPath {e : E} {data : List Byte} (h : t.Holds e data) (path : Path) :
    (unlinkPath resolve t path).Holds e data := by
  unfold CgiFileStore.unlinkPath
  split
  · exact h
  · exact h.unlink _

variable {s s' : Uploads E I W S} {event : UploadEvent I W}

omit [DecidableEq E] [DecidableEq I] [DecidableEq W] [Score S] in
theorem initial_intact (tree : Tree E I) (store : Store S) :
    Intact resolve (Uploads.initial tree store : Uploads E I W S) where
  written := by simp [Uploads.initial]
  stored := by simp [Uploads.initial]
  records := by simp [Uploads.initial]

omit [DecidableEq E] [DecidableEq I] [Score S] in
theorem stage_update {stage : W → Stage} {k k' : W} {v x : Stage}
    (h : Function.update stage k v k' = x) : v = x ∨ stage k' = x := by
  obtain rfl | hne := eq_or_ne k' k
  · exact .inl (by simpa using h)
  · exact .inr (by simpa [hne] using h)

omit [DecidableEq E] [DecidableEq I] [Score S] in
/-- A worker at another stage than the one that was just entered was there before. -/
theorem stage_of_update {stage : W → Stage} {k k' : W} {v x : Stage}
    (h : Function.update stage k v k' = x) (hne : v ≠ x) : stage k' = x :=
  (stage_update h).resolve_left hne

omit [DecidableEq E] [DecidableEq I] [DecidableEq W] [Score S] in
/-- A fresh id is none of those in use. -/
theorem fastdfs_update {fastdfs : List Byte → Option (List Byte)} {id id' c content : List Byte}
    (hfresh : fastdfs id = none) (h : fastdfs id' = some c) :
    Function.update fastdfs id (some content) id' = some c := by
  have hne : id' ≠ id := by
    rintro rfl
    rw [hfresh] at h
    cases h
  rw [Function.update_of_ne hne, h]

/-- A step that disturbs no file keeps what is held and what is stored intact. -/
theorem step_intact (hs : Intact resolve s) (h : QuietStep resolve s event s') :
    Intact resolve s' := by
  obtain ⟨hstep, hfree⟩ := h
  cases hstep with
  | @write k body rest len i source w idle unused int length size run ret save count =>
    obtain ⟨hstop, hfree⟩ := hfree
    obtain ⟨w', hsave, hpath, hname, -, hcount⟩ := fielSourceGet_zero run ret
    obtain rfl : w = w' := by simpa [save] using hsave
    have hle : body.length ≤ 102400 := by
      rw [maxBufSource] at size
      omega
    rw [fielSourceGet_append hstop int length hle] at run
    have hcontent := contentOf_save int length hle run save count
    constructor
    · intro k' body' fileName' w' hstage
      obtain hnew | hold := stage_update hstage
      · obtain ⟨rfl, rfl, rfl⟩ : body = body' ∧ source.fileName = fileName' ∧ w = w' := by
          simpa using hnew
        exact ⟨hcontent, hname, fun e he => holds_onTree (hcount count) he⟩
      · obtain ⟨hcontent', hname', hholds⟩ := hs.written k' body' fileName' w' hold
        refine ⟨hcontent', hname', fun e he => Holds.onTree (hholds e he) unused fun x hx hsame => ?_⟩
        exact hfree w.path hpath k' body' fileName' w' hold ⟨e, x, he, hx, hsame⟩
    · intro k' body' fileName' w' fileIdFdfs hstage
      exact hs.stored k' body' fileName' w' fileIdFdfs (stage_of_update hstage (by simp))
    · exact hs.records
  | @upload k body fileName w id path content fileIdFdfs written name found fresh run =>
    obtain ⟨hcontent, hname, hholds⟩ := hs.written k body fileName w written
    obtain rfl : w.path = path := Except.ok.inj (hname.symm.trans name)
    have hfound : content = w.data := by
      unfold filesOf at found
      split at found
      · cases found
      · next e he => exact (hholds e he).read found
    constructor
    · intro k' body' fileName' w' hstage
      exact hs.written k' body' fileName' w' (stage_of_update hstage (by simp))
    · intro k' body' fileName' w' fileIdFdfs' hstage
      obtain hnew | hold := stage_update hstage
      · obtain ⟨rfl, rfl, rfl, rfl⟩ :
            body = body' ∧ fileName = fileName' ∧ w = w' ∧ fileIdFdfs = fileIdFdfs' := by
          simpa using hnew
        exact ⟨hcontent, id.bytes, readString_of_line run, by
          rw [hfound]
          exact Function.update_self ..⟩
      · obtain ⟨hcontent', id', hid', hdata⟩ := hs.stored k' body' fileName' w' fileIdFdfs' hold
        exact ⟨hcontent', id', hid', fastdfs_update fresh hdata⟩
    · intro r hr
      obtain ⟨content', hcontent', hdata⟩ := hs.records r hr
      exact ⟨content', hcontent', fastdfs_update fresh hdata⟩
  | @push k body fileName w info env fileIdFdfs fileUrlFdfs id st stored url run applied recorded =>
    obtain ⟨hcontent, id', hid', hdata⟩ := hs.stored k body fileName w fileIdFdfs stored
    obtain rfl : id' = id := Except.ok.inj (hid'.symm.trans recorded)
    constructor
    · intro k' body' fileName' w' hstage
      exact hs.written k' body' fileName' w' (stage_of_update hstage (by simp))
    · intro k' body' fileName' w' fileIdFdfs' hstage
      exact hs.stored k' body' fileName' w' fileIdFdfs' (stage_of_update hstage (by simp))
    · intro r hr
      obtain rfl | hr := List.mem_cons.mp hr
      · exact ⟨w.data, hcontent, hdata⟩
      · exact hs.records r hr
  | @unlink k w recorded =>
    constructor
    · intro k' body' fileName' w' hstage
      obtain ⟨hcontent, hname, hholds⟩ :=
        hs.written k' body' fileName' w' (stage_of_update hstage (by simp))
      exact ⟨hcontent, hname, fun e he => Holds.unlinkPath (hholds e he) w.path⟩
    · intro k' body' fileName' w' fileIdFdfs hstage
      exact hs.stored k' body' fileName' w' fileIdFdfs (stage_of_update hstage (by simp))
    · exact hs.records

/-- In a run whose writes disturb no file, FastDFS holds under each id that is recorded the content
of the body of its request. -/
theorem fastdfs_records (resolve : Path → Option E) (tree : Tree E I) (store : Store S)
    (history : List (UploadEvent I W)) (s : Uploads E I W S)
    (hrun : Run (Uploads.initial tree store) (QuietStep resolve) history s) :
    ∀ r ∈ s.records, ∃ content, contentOf r.2 = some content ∧ s.fastdfs r.1 = some content :=
  (hrun.invariant (initial_intact tree store) fun _ _ _ => step_intact).records

end

/-- A directory without files, the path of an entry being its name. -/
def emptyTree : Tree Path Nat where
  node := fun _ => none
  content := fun _ => []

/-- One worker that serves the first upload. -/
theorem fastdfs_records_crlfUpload :
    ∃ s : Uploads Path Nat Unit Nat, s.records = [(ascii "g", crlfBody)] ∧
      ∀ r ∈ s.records, ∃ content, contentOf r.2 = some content ∧ s.fastdfs r.1 = some content := by
  obtain ⟨s', hs'⟩ := processed_crlfUpload
  have hunused : emptyTree.Unused 0 := by simp [Tree.Unused, emptyTree]
  have happlied : BothApplied crlfUpload.storeEnv (emptyStore Nat) :=
    ⟨⟨rfl, rfl⟩, ⟨rfl, .inl rfl⟩, ⟨rfl, .inl rfl⟩⟩
  have hcount : ∀ text source w, echoRead crlfUpload firstState = .ok (some (text, source)) →
      source.save = some w → 0 ≤ w.count := by
    intro text source w hread hw
    rw [firstState, echoRead_crlfUpload] at hread
    obtain ⟨-, rfl⟩ : _ = text ∧ crlfSource = source := by simpa using hread
    obtain rfl := Option.some.inj hw
    decide
  have hquiet : Undisturbed some (Uploads.initial emptyTree (emptyStore Nat))
      (.write () crlfUpload.body (firstState.textSource.drop crlfUpload.len.toNat)
        crlfUpload.len 0) := by
    refine ⟨⟨.inr (.inr ⟨⟨3, by decide +kernel, by decide +kernel⟩, by decide +kernel⟩),
      nameClosed_crlfBody⟩, ?_⟩
    intro path hpath k body fileName w hstage
    cases hstage
  obtain ⟨w, t', -, hrun⟩ := run_round some (Uploads.initial emptyTree (emptyStore Nat)) () 0
    ⟨ascii "g", by decide⟩ (initial_cleared (fun _ => none) (emptyStore Nat)) ⟨rfl, rfl⟩ hs' rfl rfl
    hunused (fun _ => rfl) ⟨rfl, rfl⟩ rfl happlied hcount hquiet
  exact ⟨_, rfl, fastdfs_records some emptyTree (emptyStore Nat) _ _ hrun⟩

/-- The write step of a body with the content `data` under the name `f`. -/
def saveF (data : List Byte) : Save := { path := ascii "f", start := 19, count := 1, data }

/-- What `fiel_source_get` does with such a body. -/
def sourceF (data : List Byte) : SourceGet where
  ret := 0
  fileName := ascii "f" ++ zeros 255
  save := some (saveF data)

/-- A body like `crlfBody` with another content. -/
def otherBody : List Byte := ascii "b\r\nfilename=\"f\"\r\n\r\nx\r\nb"

/-- The first worker has written its `c`. -/
def writtenOnce : Uploads Path Nat Bool Nat where
  tree := (saveF (ascii "c")).onTree some 0 emptyTree
  fastdfs := fun _ => none
  store := emptyStore Nat
  stage := Function.update (fun _ => .idle) false
    (.written crlfBody (ascii "f" ++ zeros 255) (saveF (ascii "c")))
  records := []

/-- The second worker has written its `x` as well. -/
def writtenTwice : Uploads Path Nat Bool Nat :=
  { writtenOnce with
    tree := (saveF (ascii "x")).onTree some 1 writtenOnce.tree
    stage := Function.update writtenOnce.stage true
      (.written otherBody (ascii "f" ++ zeros 255) (saveF (ascii "x"))) }

theorem run_writtenTwice :
    Run (Uploads.initial emptyTree (emptyStore Nat)) (UploadStep some)
      [.write true otherBody (zeros 102377) 23 1, .write false crlfBody (zeros 102377) 23 0]
      writtenTwice := by
  have hunused : emptyTree.Unused 0 := by simp [Tree.Unused, emptyTree]
  have hunused' : writtenOnce.tree.Unused 1 := by
    have hnode : writtenOnce.tree.node =
        Function.update emptyTree.node (ascii "f") (some (.file 0)) := rfl
    intro e
    rw [hnode, Function.update_apply]
    split_ifs <;> simp [emptyTree]
  have hclosed : NameClosed otherBody :=
    nameClosed_of_eq (k := 3) (q := 0) (by decide +kernel) (by decide +kernel) (by decide +kernel)
  have hfirst : fielSourceGet (canOpenPath some emptyTree) (crlfBody ++ zeros 102377) 23
      (zeros 256) = .ok (sourceF (ascii "c")) := by
    rw [fielSourceGet_append (scanStops_zeros nameClosed_crlfBody 102376) (by decide) rfl
      (by decide)]
    decide +kernel
  have hsecond : fielSourceGet (canOpenPath some writtenOnce.tree) (otherBody ++ zeros 102377) 23
      (zeros 256) = .ok (sourceF (ascii "x")) := by
    rw [fielSourceGet_append (scanStops_zeros hclosed 102376) (by decide) rfl (by decide)]
    decide +kernel
  have hsize : ∀ body : List Byte, body.length = 23 →
      body.length + (zeros 102377).length = maxBufSource := fun body hbody => by
    rw [hbody, length_zeros, maxBufSource]
  have hidle : writtenOnce.stage true = .idle := by simp [writtenOnce]
  have hwrite : UploadStep some (Uploads.initial emptyTree (emptyStore Nat))
      (.write false crlfBody (zeros 102377) 23 0) writtenOnce :=
    @UploadStep.write _ _ _ _ _ _ _ _ _ _ _ _ _ _ _ (sourceF (ascii "c")) _ rfl hunused
      (by decide) rfl (hsize crlfBody rfl) hfirst rfl rfl (by decide)
  have hwrite' : UploadStep some writtenOnce (.write true otherBody (zeros 102377) 23 1)
      writtenTwice :=
    @UploadStep.write _ _ _ _ _ _ _ _ _ _ _ _ _ _ _ (sourceF (ascii "x")) _ hidle hunused'
      (by decide) rfl (hsize otherBody rfl) hsecond rfl rfl (by decide)
  exact (Run.single hwrite).cons hwrite'

/-- The first worker has its file stored and its record pushed, and finds under its id the
content of the second one. -/
theorem fastdfs_records_mixed :
    ∃ (history : List (UploadEvent Nat Bool)) (s : Uploads Path Nat Bool Nat),
      Run (Uploads.initial emptyTree (emptyStore Nat)) (UploadStep some) history s ∧
        (ascii "g", crlfBody) ∈ s.records ∧ contentOf crlfBody = some (ascii "c") ∧
          s.fastdfs (ascii "g") = some (ascii "x") ∧
            ¬ ∀ r ∈ s.records, ∃ content, contentOf r.2 = some content ∧
              s.fastdfs r.1 = some content := by
  have hupload : recvFileUpload true ((⟨ascii "g", by decide⟩ : CStr).bytes ++ lf) (zeros 256) =
      .ok (0, ascii "g" ++ zeros 255) := by decide +kernel
  have hurl : fileUrlMake (ascii "source ip address: h\n") (ascii "g" ++ zeros 255) (zeros 256) =
      .ok (0, ascii "http://h/g" ++ zeros 246) := by decide +kernel
  have hname : readString (ascii "f" ++ zeros 255) = .ok (ascii "f") := by decide +kernel
  have hid : readString (ascii "g" ++ zeros 255) = .ok (ascii "g") := by decide +kernel
  have hurlRead : readString (ascii "http://h/g" ++ zeros 246) = .ok (ascii "http://h/g") := by
    decide +kernel
  have happlied : BothApplied crlfUpload.storeEnv (emptyStore Nat) :=
    ⟨⟨rfl, rfl⟩, ⟨rfl, .inl rfl⟩, ⟨rfl, .inl rfl⟩⟩
  have hfits : RecordFits (ascii "g") (ascii "http://h/g") (ascii "f")
      crlfUpload.storeEnv.createTime.bytes zhao.bytes :=
    ⟨by decide, by decide⟩
  have hmsg := fileMsgStoreToRedis_applied hid hurlRead hname hfits happlied
  have hfound : filesOf some writtenTwice.tree (ascii "f") = some (ascii "x") := by decide +kernel
  have hwritten : writtenTwice.stage false =
      .written crlfBody (ascii "f" ++ zeros 255) (saveF (ascii "c")) := by
    simp [writtenTwice, writtenOnce]
  have hcontent : contentOf crlfBody = some (ascii "c") := by decide +kernel
  have hrun := run_writtenTwice.cons (UploadStep.upload hwritten hname hfound rfl hupload)
  have hrun := hrun.cons (UploadStep.push (Function.update_self ..) hurl hmsg happlied hid)
  have hmixed : Function.update writtenTwice.fastdfs (ascii "g") (some (ascii "x")) (ascii "g") =
      some (ascii "x") := Function.update_self ..
  refine ⟨_, _, hrun, List.mem_cons_self, hcontent, hmixed, fun h => ?_⟩
  obtain ⟨content, hcontent', hdata⟩ := h _ List.mem_cons_self
  obtain rfl := Option.some.inj (hcontent.symm.trans hcontent')
  exact absurd (hmixed.symm.trans hdata) (by decide)

end CgiFileStore
