import CgiFileStore.Echo.Main
import CgiFileStore.Lib.FileTree

/-!
# The files that an upload touches

The name sent by the client is opened, truncated, written and unlinked as a path of the
worker's own file system. The rounds of the loop are followed on a tree of files, where the
name may be that of anything. The main result says for which names nothing is left changed.
-/

namespace CgiFileStore

open CSem Search Redis Transition

/-! ## The name of the file -/

/-- The path given by a text: the bytes between the two quotes behind `filename=`, up to a
NUL. -/
def pathOf (text : List Byte) : Option Path := do
  let k ← firstOcc filenameKey (cstring text)
  let q ← firstOcc [quote] ((cstring text).drop (k + filenameKey.length))
  let src := text.drop (k + filenameKey.length + (q + 1))
  let n ← firstOcc [quote] src
  return cstring (src.take n)

/-- A name that has been extracted into the cleared array is the path of the text. -/
theorem extractName_path {m name : List Byte} (h : extractName (zeros 256) m = .ok (some name)) :
    ∃ path, pathOf m = some path ∧ readString name = .ok path := by
  obtain ⟨p, hp, h⟩ := bind_eq_ok.mp h
  cases p with
  | none => simp at h
  | some k =>
    have hk := strstr_eq_ok_some hp
    have hle := firstOcc_add_length_le hk
    obtain ⟨q, hq, h⟩ := bind_eq_ok.mp h
    cases q with
    | none => simp at h
    | some q =>
      rw [strchr_eq_strstr] at hq
      have hq := strstr_eq_ok_some hq
      rw [cstring_drop hle] at hq
      obtain ⟨⟨buf, i⟩, hcopy, h⟩ := bind_eq_ok.mp h
      obtain ⟨buf', hstore, h⟩ := bind_eq_ok.mp h
      obtain rfl : buf' = name := by simpa using h
      cases hn : firstOcc [quote] (m.drop (k + filenameKey.length + (q + 1))) with
      | none => exact absurd hcopy (copyName_ne_ok hn _)
      | some n =>
        have hlen : ((m.drop (k + filenameKey.length + (q + 1))).take n).length = n :=
          List.length_take_of_le (by have := firstOcc_add_length_le hn; omega)
        refine ⟨_, by simp [pathOf, hk, hq, hn]; rfl, ?_⟩
        rw [copyName_eq hn (Nat.zero_le _), length_zeros, Nat.zero_add] at hcopy
        split_ifs at hcopy with hfit
        obtain ⟨rfl, rfl⟩ : _ = buf ∧ n = i := by simpa using hcopy
        obtain ⟨hlt, rfl⟩ := store_eq_ok.mp hstore
        simp only [List.length_append, List.length_drop, length_zeros, hlen] at hlt
        obtain ⟨j, hj⟩ : ∃ j, 256 - n = j + 2 := ⟨254 - n, by omega⟩
        have hzeros : (zeros 256).drop n = 0 :: 0 :: zeros j := by
          rw [zeros, List.drop_replicate, hj]
          rfl
        rw [hzeros, List.set_append_right _ _ (by omega), hlen,
          Nat.add_sub_cancel_left]
        exact readString_append_zero_any _ (0 :: zeros j)

/-- A scan either ends with an error or has extracted the name. -/
theorem scanHeader_inv {fileName m : List Byte} {scan : Scan}
    (h : scanHeader fileName m = .ok scan) :
    (∃ ret name, scan = .done ret name ∧ ret ≠ 0) ∨
      ∃ header, scan = .header header ∧ extractName fileName m = .ok (some header.fileName) := by
  obtain ⟨name, hname, h⟩ := bind_eq_ok.mp h
  cases name with
  | none =>
    obtain rfl : _ = scan := by simpa using h
    exact .inl ⟨-1, fileName, rfl, by decide⟩
  | some name =>
    obtain ⟨n, -, h⟩ := bind_eq_ok.mp h
    cases n with
    | none =>
      obtain rfl : _ = scan := by simpa using h
      exact .inl ⟨1, name, rfl, by decide⟩
    | some n =>
      obtain ⟨boundary, -, h⟩ := bind_eq_ok.mp h
      obtain ⟨b, -, h⟩ := bind_eq_ok.mp h
      cases b with
      | none =>
        obtain rfl : _ = scan := by simpa using h
        exact .inl ⟨1, name, rfl, by decide⟩
      | some b =>
        obtain rfl : _ = scan := by simpa using h
        exact .inr ⟨_, rfl, hname⟩

/-- What is known of a result 0 of `fiel_source_get` on the cleared array: the write step has
been made on the path of the text, which can be opened, with as many bytes as its count says. -/
theorem fielSourceGet_zero {openOk : Path → Bool} {m : List Byte} {len : Int} {r : SourceGet}
    (h : fielSourceGet openOk m len (zeros 256) = .ok r) (hret : r.ret = 0) :
    ∃ w, r.save = some w ∧ pathOf m = some w.path ∧ readString r.fileName = .ok w.path ∧
      openOk w.path = true ∧ (0 ≤ w.count → w.count = w.data.length) := by
  obtain ⟨scan, hscan, h⟩ := bind_eq_ok.mp h
  obtain ⟨ret, name, rfl, hne⟩ | ⟨header, rfl, hname⟩ := scanHeader_inv hscan
  · obtain rfl : _ = r := by simpa using h
    exact absurd hret hne
  · obtain ⟨path, hpath, hread⟩ := extractName_path hname
    obtain ⟨p, hp, h⟩ := bind_eq_ok.mp h
    cases p with
    | none =>
      obtain rfl : _ = r := by simpa using h
      simp at hret
    | some p =>
      have hlt := memstr_lt hp
      simp only [hread, ok_bind] at h
      by_cases hopen : openOk path = true
      · rw [if_pos hopen] at h
        obtain rfl : _ = r := by simpa using h
        refine ⟨_, rfl, hpath, hread, hopen, fun hcount => ?_⟩
        dsimp only at hcount ⊢
        rw [List.length_take]
        split_ifs at hcount ⊢
        all_goals omega
      · rw [if_neg hopen] at h
        obtain rfl : _ = r := by simpa using h
        simp at hret

/-! ## A round on a tree of files -/

section

variable {E I : Type} [DecidableEq E] [DecidableEq I] (resolve : Path → Option E)

/-- Whether a path can be opened for writing; `resolve` gives the entry that it ends at. -/
def canOpenPath (t : Tree E I) (path : Path) : Bool :=
  match resolve path with
  | none => false
  | some e => t.canOpen e

/-- The write step on the file at an entry, `i` being the inode for a file that is missing. -/
def Save.onTree (w : Save) (i : I) (t : Tree E I) : Tree E I :=
  match resolve w.path with
  | none => t
  | some e => t.save i e fun content => overwrite (ftruncate content w.count) w.data

def unlinkPath (t : Tree E I) (path : Path) : Tree E I :=
  match resolve path with
  | none => t
  | some e => t.unlink e

/-- The tree after `fiel_source_get`. -/
def SourceGet.onTree (r : SourceGet) (i : I) (t : Tree E I) : Tree E I :=
  match r.save with
  | some w => w.onTree resolve i t
  | none => t

/-- The tree after a round that is processed to its end. -/
def echoTree {S : Type} (i : I) (req : Request) (s : EchoState S) (t : Tree E I) :
    Checked (Option (Tree E I)) := do
  match ← echoRead req s with
  | none => return none
  | some (_, source) =>
    let path ← readString source.fileName
    return some (unlinkPath resolve (source.onTree resolve i t) path)

/-- The bytes that are searched in the round of a request. -/
def roundText {S : Type} (req : Request) (s : EchoState S) : List Byte :=
  req.body ++ s.textSource.drop req.len.toNat

variable {resolve} {S : Type} [Score S] {files : Files} {st : Store S} {history : List Request}
  {s s' : EchoState S} {req : Request}

omit [Score S] in
/-- What is searched when a body has arrived whole. -/
theorem echoRead_inv {text : List Byte} {source : SourceGet}
    (h : echoRead req s = .ok (some (text, source))) :
    text = roundText req s ∧ fielSourceGet req.openOk text req.len s.fileName = .ok source := by
  obtain ⟨body, hbody, h⟩ := bind_eq_ok.mp h
  cases body with
  | none => simp at h
  | some body =>
    obtain ⟨source', hget, h⟩ := bind_eq_ok.mp h
    obtain ⟨rfl, rfl⟩ : body = text ∧ source' = source := by simpa using h
    exact ⟨(readBody_eq_some hbody).2.2, hget⟩

omit [Score S] in
/-- A body that has arrived whole has the announced length, and room in the array. -/
theorem length_body_of_echoRead {text : List Byte} {source : SourceGet}
    (h : echoRead req s = .ok (some (text, source))) :
    req.len.toNat = req.body.length ∧ req.len.toNat ≤ s.textSource.length := by
  obtain ⟨body, hbody, h⟩ := bind_eq_ok.mp h
  cases body with
  | none => simp at h
  | some body =>
    obtain ⟨hstdin, hroom, -⟩ := readBody_eq_some hbody
    refine ⟨?_, hroom⟩
    rw [Request.body, List.length_take]
    omega

/-- The file that a processed round has written and unlinked. -/
theorem processed_save (hs : Cleared s) (h : Processed s req s') :
    ∃ text source w, echoRead req s = .ok (some (text, source)) ∧ source.save = some w ∧
      readString source.fileName = .ok w.path ∧ pathOf (roundText req s) = some w.path ∧
        req.openOk w.path = true ∧ s'.files = (w.apply s.files).unlink w.path := by
  obtain ⟨text, source, -, -, path, hread, -, -, -, hpath, -, -, -, -, hret, hfiles⟩ :=
    processed_inv h
  obtain ⟨rfl, hget⟩ := echoRead_inv hread
  rw [hs.fileName] at hget
  obtain ⟨w, hw, hpathOf, hname, hopen, -⟩ := fielSourceGet_zero hget hret
  obtain rfl : w.path = path := Except.ok.inj (hname.symm.trans hpath)
  refine ⟨_, _, w, hread, hw, hpath, hpathOf, hopen, ?_⟩
  rw [hfiles, SourceGet.files, hw]

omit [Score S] in
theorem echoTree_eq {text : List Byte} {source : SourceGet} {w : Save}
    (hread : echoRead req s = .ok (some (text, source))) (hw : source.save = some w)
    (hpath : readString source.fileName = .ok w.path) (i : I) (t : Tree E I) :
    echoTree resolve i req s t = .ok (some (unlinkPath resolve (w.onTree resolve i t) w.path)) := by
  simp only [echoTree, hread, ok_bind, hpath, SourceGet.onTree, hw, pure_eq_ok]

/-! ## The files of a tree without aliases -/

/-- What can be read at the paths. -/
def filesOf (resolve : Path → Option E) (t : Tree E I) : Files := fun path =>
  match resolve path with
  | none => none
  | some e => t.read e

/-- No path leads to the entry of another. -/
def OnePath (resolve : Path → Option E) : Prop :=
  ∀ p p' e, resolve p = some e → resolve p' = some e → p = p'

omit [Score S] in
theorem filesOf_onTree {w : Save} {i : I} {t : Tree E I} (hplain : t.Plain)
    (hpaths : OnePath resolve) (hunused : t.Unused i)
    (hopen : canOpenPath resolve t w.path = true) :
    filesOf resolve (w.onTree resolve i t) = w.apply (filesOf resolve t) := by
  unfold canOpenPath at hopen
  split at hopen
  · cases hopen
  · next e he =>
    funext p
    by_cases hp : p = w.path
    · subst hp
      simp only [filesOf, Save.onTree, he, Tree.read_save_self hopen, Save.apply, Files.create,
        Function.update_self, Option.map_some]
    · simp only [filesOf, Save.onTree, he, Save.apply, Files.create, ne_eq, hp, not_false_eq_true,
        Function.update_of_ne]
      cases hy : resolve p with
      | none => rfl
      | some y =>
        refine Tree.read_save_of_ne hunused fun hsame => hp ?_
        exact hpaths p w.path y hy (hplain.sameFile_iff.mp hsame ▸ he)

omit [DecidableEq I] [Score S] in
theorem filesOf_unlinkPath {path : Path} {t : Tree E I} (hplain : t.Plain)
    (hpaths : OnePath resolve) :
    filesOf resolve (unlinkPath resolve t path) = (filesOf resolve t).unlink path := by
  funext p
  by_cases hp : p = path
  · subst hp
    simp only [filesOf, unlinkPath, Files.unlink, Function.update_self]
    cases resolve p with
    | none => rfl
    | some e => exact Tree.read_unlink_self
  · simp only [filesOf, unlinkPath, Files.unlink, ne_eq, hp, not_false_eq_true,
      Function.update_of_ne]
    cases hy : resolve p with
    | none => rfl
    | some y =>
      cases he : resolve path with
      | none => rfl
      | some e =>
        refine Tree.read_unlink_of_ne (hplain.not_link y) ?_
        rintro rfl
        exact hp (hpaths p path y hy he)

/-- On a tree whose files have one path each, a round does what it does to the map from paths
to contents. -/
theorem echoTree_files {i : I} {t : Tree E I} (hs : Cleared s) (h : Processed s req s')
    (hplain : t.Plain) (hpaths : OnePath resolve) (hunused : t.Unused i)
    (hopen : ∀ path, req.openOk path = canOpenPath resolve t path)
    (hfiles : s.files = filesOf resolve t) :
    ∃ t', echoTree resolve i req s t = .ok (some t') ∧ s'.files = filesOf resolve t' := by
  obtain ⟨text, source, w, hread, hw, hpath, -, hok, hfiles'⟩ := processed_save hs h
  refine ⟨_, echoTree_eq hread hw hpath i t, ?_⟩
  have hsaved : (w.onTree resolve i t).Plain := by
    unfold Save.onTree
    split
    · exact hplain
    · exact hplain.save hunused
  rw [filesOf_unlinkPath hsaved hpaths, filesOf_onTree hplain hpaths hunused (hopen _ ▸ hok),
    hfiles', hfiles]

/-! ## What is left changed -/

/-- A round that is processed to its end leaves every file system as it was exactly if the
client's name was not that of anything in it. -/
theorem echoTree_unchanged_iff (resolve : Path → Option E) (files : Files) (st : Store S)
    (history : List Request) (s s' : EchoState S)
    (hrun : Run (EchoState.initial files st) Processed history s) (req : Request)
    (h : Processed s req s') (t : Tree E I) (i : I) (hunused : t.Unused i)
    (hopen : ∀ path, req.openOk path = canOpenPath resolve t path) :
    (∃ t', echoTree resolve i req s t = .ok (some t') ∧ t.Unchanged t') ↔
      ∃ path e, pathOf (roundText req s) = some path ∧ resolve path = some e ∧
        t.node e = none := by
  obtain ⟨text, source, w, hread, hw, hpath, hname, hok, -⟩ :=
    processed_save (cleared_of_run hrun) h
  rw [hopen, canOpenPath] at hok
  split at hok
  · cases hok
  · next e he =>
    have hround : echoTree resolve i req s t = .ok (some ((t.save i e fun content =>
        overwrite (ftruncate content w.count) w.data).unlink e)) := by
      rw [echoTree_eq hread hw hpath, unlinkPath, Save.onTree, he]
    rw [hround]
    constructor
    · rintro ⟨t', ht', hunchanged⟩
      obtain rfl : _ = t' := by simpa using ht'
      exact ⟨w.path, e, hname, he, (Tree.unchanged_save_unlink_iff hunused).mp hunchanged⟩
    · rintro ⟨path, e', hpath', he', habsent⟩
      obtain rfl : w.path = path := by simpa [hname] using hpath'
      obtain rfl : e = e' := by simpa [he] using he'
      exact ⟨_, rfl, (Tree.unchanged_save_unlink_iff hunused).mpr habsent⟩

end

theorem processed_crlfUpload : ∃ s, Processed firstState crlfUpload s := by
  obtain ⟨s, hrun, -⟩ := exists_processed_crlfUpload
  cases hrun with
  | cons hbefore hstep =>
    cases hbefore
    exact ⟨s, hstep⟩

/-- A directory with one file, the path of an entry being its name. -/
def fileTree (name : Path) : Tree Path Nat where
  node := fun e => if e = name then some (.file 0) else none
  content := fun _ => ascii "old"

/-- Every name can be opened in it. -/
theorem canOpenPath_fileTree (name path : Path) : canOpenPath some (fileTree name) path = true := by
  by_cases hpath : path = name
  · have hnode : (fileTree name).node path = some (.file 0) := if_pos hpath
    have htarget : (fileTree name).target path = some path :=
      Tree.follow_of_not_link (by simp [hnode]) Tree.maxLinks
    simp [canOpenPath, Tree.canOpen, htarget, hnode]
  · have hnode : (fileTree name).node path = none := if_neg hpath
    have htarget : (fileTree name).target path = some path :=
      Tree.follow_of_not_link (by simp [hnode]) Tree.maxLinks
    simp [canOpenPath, Tree.canOpen, htarget, hnode]

theorem unused_fileTree (name : Path) : (fileTree name).Unused 1 := by
  intro e
  simp only [fileTree]
  split_ifs <;> simp

/-- An upload named `f` beside a file `g`. -/
theorem echoTree_unchanged_iff_beside :
    (∃ t', echoTree some 1 crlfUpload firstState (fileTree (ascii "g")) = .ok (some t') ∧
        (fileTree (ascii "g")).Unchanged t') ↔
      ∃ path e, pathOf (roundText crlfUpload firstState) = some path ∧ some path = some e ∧
        (fileTree (ascii "g")).node e = none := by
  obtain ⟨s, hs⟩ := processed_crlfUpload
  exact echoTree_unchanged_iff some (fun _ => none) (emptyStore Nat) [] firstState s .nil crlfUpload
    hs (fileTree (ascii "g")) 1 (unused_fileTree _) fun path => (canOpenPath_fileTree _ path).symm

/-- A directory with the file `f`. -/
def takenTree : Tree Path Nat := fileTree (ascii "f")

/-- An upload under the name of this file is processed to its end and the file is gone. -/
theorem echoTree_taken :
    (∃ s, Processed firstState crlfUpload s) ∧
      (∀ path, crlfUpload.openOk path = canOpenPath some takenTree path) ∧
      takenTree.read (ascii "f") = some (ascii "old") ∧
      ∃ t', echoTree some 1 crlfUpload firstState takenTree = .ok (some t') ∧
        t'.read (ascii "f") = none ∧ ¬ takenTree.Unchanged t' := by
  have hround : echoTree some 1 crlfUpload firstState takenTree =
      .ok (some (unlinkPath some (Save.onTree some
        { path := ascii "f", start := 19, count := 1, data := ascii "c" } 1 takenTree)
          (ascii "f"))) :=
    echoTree_eq (echoRead_crlfUpload (fun _ => none) (emptyStore Nat)) rfl (by decide +kernel) 1
      takenTree
  have hold : takenTree.read (ascii "f") = some (ascii "old") := by decide
  refine ⟨processed_crlfUpload, fun path => (canOpenPath_fileTree _ path).symm, hold, _, hround,
    Tree.read_unlink_self, fun hunchanged => ?_⟩
  obtain ⟨-, hread⟩ := hunchanged (ascii "f")
  rw [hold] at hread
  exact absurd (Tree.read_unlink_self.symm.trans hread) (by simp)

end CgiFileStore
