import CgiFileStore.Lib.Files

/-!
# Directories by path

A directory is the list of the names that lead to it from the working directory. A tree of
directories has with a directory also the one that it is in, so it can only be changed by `mkdir`.
`..` is not resolved.
-/

namespace CSem

def slash : Byte := 47

/-- The names on a path: `.` and what is empty between two slashes lead nowhere. -/
def pathNames (path : Path) : List (List Byte) :=
  (path.splitOn slash).filter fun name => name ≠ [] ∧ name ≠ ascii "."

/-- The path in front of the last slash. -/
def dirOf (path : Path) : Path := (path.rdropWhile (· ≠ slash)).dropLast

/-- The name of an entry of a directory. -/
structure EntryName extends CStr where
  slash_notMem : slash ∉ bytes
  ne_nil : bytes ≠ []
  ne_dot : bytes ≠ ascii "."
  ne_dotdot : bytes ≠ ascii ".."

theorem pathNames_append (path path' : Path) :
    pathNames (path ++ slash :: path') = pathNames path ++ pathNames path' := by
  rw [pathNames, List.splitOn_append_cons_self, List.filter_append, pathNames, pathNames]

theorem pathNames_name {name : List Byte} (hslash : slash ∉ name) (hnil : name ≠ [])
    (hdot : name ≠ ascii ".") : pathNames name = [name] := by
  rw [pathNames, List.splitOn_eq_singleton hslash]
  simp [hnil, hdot]

theorem dirOf_append {name : List Byte} (h : slash ∉ name) (path : Path) :
    dirOf (path ++ slash :: name) = path := by
  have hname : ∀ c ∈ name.reverse, decide (c ≠ slash) = true := by
    rintro c hc
    rw [List.mem_reverse] at hc
    exact decide_eq_true fun heq => h (heq ▸ hc)
  rw [dirOf, List.rdropWhile, List.reverse_append, List.reverse_cons, List.append_assoc,
    List.dropWhile_append_of_pos hname]
  simp

structure DirTree where
  dirs : Finset (List (List Byte))
  root : [] ∈ dirs
  parent : ∀ d ∈ dirs, d.dropLast ∈ dirs

namespace DirTree

variable {t t' : DirTree} {path : Path}

/-- `access(path, 0) == 0`. -/
def access (t : DirTree) (path : Path) : Bool := pathNames path ∈ t.dirs

/-- `mkdir(path, 0777)`, none where it fails. -/
def mkdir (t : DirTree) (path : Path) : Option DirTree :=
  if h : pathNames path ∉ t.dirs ∧ (pathNames path).dropLast ∈ t.dirs then
    some
      { dirs := insert (pathNames path) t.dirs
        root := Finset.mem_insert_of_mem t.root
        parent := by
          intro d hd
          rcases Finset.mem_insert.mp hd with rfl | hd
          · exact Finset.mem_insert_of_mem h.2
          · exact Finset.mem_insert_of_mem (t.parent d hd) }
  else none

/-- A file can be created at the path. -/
def canCreate (t : DirTree) (path : Path) : Bool := pathNames (dirOf path) ∈ t.dirs

theorem dirs_of_mkdir (h : t.mkdir path = some t') : t'.dirs = insert (pathNames path) t.dirs := by
  unfold mkdir at h
  split_ifs at h
  rw [← Option.some.inj h]

theorem subset_of_mkdir (h : t.mkdir path = some t') : t.dirs ⊆ t'.dirs := by
  rw [dirs_of_mkdir h]
  exact Finset.subset_insert _ _

theorem access_of_mkdir (h : t.mkdir path = some t') : t'.access path = true := by
  rw [access, dirs_of_mkdir h, decide_eq_true_eq]
  exact Finset.mem_insert_self _ _

theorem access_mono (hsub : t.dirs ⊆ t'.dirs) (h : t.access path = true) :
    t'.access path = true := by
  rw [access, decide_eq_true_eq] at h ⊢
  exact hsub h

theorem mkdir_of_access (h : t.access path = true) : t.mkdir path = none := by
  have hmem : pathNames path ∈ t.dirs := by simpa [access] using h
  exact dif_neg fun hnew => hnew.1 hmem

theorem mkdir_isSome (h : t.access path = false) (hparent : (pathNames path).dropLast ∈ t.dirs) :
    ∃ t', t.mkdir path = some t' := by
  have hnew : pathNames path ∉ t.dirs := by simpa [access] using h
  exact ⟨_, dif_pos ⟨hnew, hparent⟩⟩

end DirTree

end CSem
