import CgiFileStore.Lib.Memory

/-!
# Regular files by name

A file system state maps a path to the content of the regular file there. The calls are
those of POSIX: `open` with `O_CREAT` creates a missing file, `ftruncate` fills up with
NULs, `write` on a fresh descriptor replaces the bytes from the start. A negative length
is refused by `ftruncate` and, read as a size beyond `SSIZE_MAX`, by `write`.
-/

namespace CSem

abbrev Path := List Byte

abbrev Files := Path → Option (List Byte)

namespace Files

/-- `open(path, O_CREAT | O_WRONLY)` on a path that can be opened. -/
def create (fs : Files) (path : Path) : Files :=
  Function.update fs path (some ((fs path).getD []))

def unlink (fs : Files) (path : Path) : Files := Function.update fs path none

end Files

/-- The content after `ftruncate(fd, n)`. -/
def ftruncate (content : List Byte) (n : Int) : List Byte :=
  if 0 ≤ n then padTo n.toNat content else content

/-- The content after writing `data` at offset 0. -/
def overwrite (content data : List Byte) : List Byte := data ++ content.drop data.length

theorem length_ftruncate {content : List Byte} {n : Int} (h : 0 ≤ n) :
    (ftruncate content n).length = n.toNat := by
  simp [ftruncate, h]

/-- Truncating to the length of what is then written leaves nothing of the old content. -/
theorem overwrite_ftruncate (content data : List Byte) :
    overwrite (ftruncate content data.length) data = data := by
  have h : (ftruncate content data.length).length ≤ data.length := by
    simp [length_ftruncate]
  simp [overwrite, List.drop_eq_nil_of_le h]

end CSem
