import CgiFileStore.Lib.Files

/-!
# Files behind directory entries

A directory entry names a regular file by its inode, which other entries may name as well, or
is a symbolic link. The calls are those of POSIX: `open` follows links and creates a missing
file at the last entry, `unlink` removes the entry itself. Directories do not change here, so a
link is given by the entry that its text leads to.

`Holds` is the rule for a file that somebody has written and wants to read later: it is kept by
every call on another file and by every `unlink`.
-/

namespace CSem

/-- What an entry is. What can neither be written nor followed is `other`. -/
inductive Node (E I : Type)
  | file (inode : I)
  | link (target : E)
  | other

/-- The entries of all directories and the content of the inodes. -/
structure Tree (E I : Type) where
  node : E → Option (Node E I)
  content : I → List Byte

namespace Tree

variable {E I : Type}

/-- The number of links that are followed before `open` fails. -/
def maxLinks : Nat := 40

/-- The entry that is not a link, reached from `e` over at most `n` links. -/
def follow (node : E → Option (Node E I)) : Nat → E → Option E
  | 0, e =>
    match node e with
    | some (.link _) => none
    | _ => some e
  | n + 1, e =>
    match node e with
    | some (.link target) => follow node n target
    | _ => some e

/-- The entry that `open` and the readers end at. -/
def target (t : Tree E I) (e : E) : Option E := follow t.node maxLinks e

/-- The inode that is found at `e`. -/
def inode (t : Tree E I) (e : E) : Option I :=
  match t.target e with
  | none => none
  | some x =>
    match t.node x with
    | some (.file i) => some i
    | _ => none

/-- What a reader of `e` gets. -/
def read (t : Tree E I) (e : E) : Option (List Byte) := (t.inode e).map t.content

/-- Whether `open(e, O_CREAT | O_WRONLY)` succeeds. -/
def canOpen (t : Tree E I) (e : E) : Bool :=
  match t.target e with
  | none => false
  | some x =>
    match t.node x with
    | none => true
    | some (.file _) => true
    | some _ => false

/-- An inode that no entry names. -/
def Unused (t : Tree E I) (i : I) : Prop := ∀ e, t.node e ≠ some (.file i)

/-- The two lead to the same file, or to the same place for one. -/
def SameFile (t : Tree E I) (e e' : E) : Prop :=
  t.target e = t.target e' ∨ ∃ i, t.inode e = some i ∧ t.inode e' = some i

/-! ## The calls -/

section

variable [DecidableEq E] [DecidableEq I]

/-- `open(e, O_CREAT | O_WRONLY)`, which takes the inode `i` for a file that is missing. -/
def create (t : Tree E I) (i : I) (e : E) : Tree E I :=
  match t.target e with
  | none => t
  | some x =>
    match t.node x with
    | none =>
      { node := Function.update t.node x (some (.file i))
        content := Function.update t.content i [] }
    | some _ => t

/-- Calls on the file opened at `e` that turn its content `c` into `f c`. -/
def modify (t : Tree E I) (e : E) (f : List Byte → List Byte) : Tree E I :=
  match t.inode e with
  | none => t
  | some i => { t with content := Function.update t.content i (f (t.content i)) }

/-- Opening a file, writing and closing it. -/
def save (t : Tree E I) (i : I) (e : E) (f : List Byte → List Byte) : Tree E I :=
  (t.create i e).modify e f

/-- `unlink(e)` for an entry that is no directory. -/
def unlink (t : Tree E I) (e : E) : Tree E I := { t with node := Function.update t.node e none }

end

/-! ## Following links -/

theorem follow_of_not_link {node : E → Option (Node E I)} {e : E}
    (h : ∀ y, node e ≠ some (.link y)) (n : Nat) : follow node n e = some e := by
  cases n with
  | zero =>
    unfold follow
    split
    · next y hlink => exact absurd hlink (h y)
    · rfl
  | succ n =>
    unfold follow
    split
    · next y hlink => exact absurd hlink (h y)
    · rfl

section

variable [DecidableEq E]

/-- An entry that was not a link and does not become one is no detour. -/
theorem follow_update {node : E → Option (Node E I)} {x : E} {v : Option (Node E I)}
    (hold : ∀ y, node x ≠ some (.link y)) (hnew : ∀ y, v ≠ some (.link y)) (n : Nat) (e : E) :
    follow (Function.update node x v) n e = follow node n e := by
  by_cases hx : e = x
  · subst hx
    rw [follow_of_not_link hold, follow_of_not_link]
    simpa using hnew
  · induction n generalizing e with
    | zero => simp [follow, hx]
    | succ n ih =>
      have hstep : ∀ y, follow (Function.update node x v) n y = follow node n y := by
        intro y
        by_cases hy : y = x
        · subst hy
          rw [follow_of_not_link hold, follow_of_not_link]
          simpa using hnew
        · exact ih y hy
      simp [follow, hx, hstep]

/-- Where an entry is removed, a walk ends as before or at the gap. -/
theorem follow_remove {node : E → Option (Node E I)} {x : E} {n : Nat} {e y : E}
    (h : follow (Function.update node x none) n e = some y) : y = x ∨ follow node n e = some y := by
  induction n generalizing e with
  | zero =>
    by_cases hx : e = x
    · subst hx
      rw [follow_of_not_link (by simp)] at h
      exact .inl (Option.some.inj h).symm
    · right
      simpa [follow, hx] using h
  | succ n ih =>
    by_cases hx : e = x
    · subst hx
      rw [follow_of_not_link (by simp)] at h
      exact .inl (Option.some.inj h).symm
    · simp only [follow, ne_eq, hx, not_false_eq_true, Function.update_of_ne] at h ⊢
      split at h
      · exact ih h
      · exact .inr h

end

/-! ## Inodes -/

theorem inode_eq_some_iff {t : Tree E I} {e : E} {i : I} :
    t.inode e = some i ↔ ∃ x, t.target e = some x ∧ t.node x = some (.file i) := by
  unfold inode
  split
  · next h => simp [h]
  · next x h =>
    split
    · next j hj => simp [h, hj]
    · next hother =>
      constructor
      · intro hnone
        cases hnone
      · rintro ⟨y, hy, hfile⟩
        obtain rfl : x = y := by simpa [h] using hy
        exact absurd hfile (hother i)

theorem Unused.inode_ne {t : Tree E I} {i : I} (h : t.Unused i) (e : E) : t.inode e ≠ some i := by
  intro hi
  obtain ⟨x, -, hx⟩ := inode_eq_some_iff.mp hi
  exact h x hx

/-- If there is a file at `e`, its content is `data`. -/
def Holds (t : Tree E I) (e : E) (data : List Byte) : Prop :=
  ∀ i, t.inode e = some i → t.content i = data

theorem Holds.read {t : Tree E I} {e : E} {data c : List Byte} (h : t.Holds e data)
    (hc : t.read e = some c) : c = data := by
  obtain ⟨i, hi, rfl⟩ := Option.map_eq_some_iff.mp hc
  exact h i hi

/-! ## What the calls do -/

section

variable [DecidableEq I] {t : Tree E I} {i j : I} {e x : E} {f : List Byte → List Byte}

@[simp] theorem node_modify : (t.modify x f).node = t.node := by
  unfold modify
  split <;> rfl

@[simp] theorem inode_modify : (t.modify x f).inode e = t.inode e := by
  simp [inode, target]

theorem content_modify_self (h : t.inode x = some j) :
    (t.modify x f).content j = f (t.content j) := by
  simp [modify, h]

theorem content_modify_of_ne (h : t.inode x ≠ some j) :
    (t.modify x f).content j = t.content j := by
  unfold modify
  split
  · rfl
  · next k hk =>
    refine Function.update_of_ne ?_ _ _
    rintro rfl
    exact h hk

end

section

variable [DecidableEq E] [DecidableEq I] {t : Tree E I} {i j : I} {e x : E}
  {f : List Byte → List Byte}

theorem target_create : (t.create i x).target e = t.target e := by
  unfold create
  split
  · rfl
  · split
    · next y hy hnone => exact follow_update (by simp [hnone]) (by simp) maxLinks e
    · rfl

/-- What is found at an entry after a file may have been created. -/
theorem inode_of_create (h : (t.create i x).inode e = some j) :
    t.inode e = some j ∨ j = i ∧ t.target e = t.target x := by
  obtain ⟨y, hy, hfile⟩ := inode_eq_some_iff.mp h
  rw [target_create] at hy
  unfold create at hfile
  split at hfile
  · exact .inl (inode_eq_some_iff.mpr ⟨y, hy, hfile⟩)
  · next z hz =>
    split at hfile
    · next hnone =>
      by_cases hyz : y = z
      · subst hyz
        right
        refine ⟨?_, hy.trans hz.symm⟩
        simpa [eq_comm] using hfile
      · left
        dsimp only at hfile
        rw [Function.update_of_ne hyz] at hfile
        exact inode_eq_some_iff.mpr ⟨y, hy, hfile⟩
    · exact .inl (inode_eq_some_iff.mpr ⟨y, hy, hfile⟩)

theorem content_create (h : j ≠ i) : (t.create i x).content j = t.content j := by
  unfold create
  split
  · rfl
  · split
    · exact Function.update_of_ne h _ _
    · rfl

omit [DecidableEq I] in
/-- Removing an entry makes no other file appear anywhere. -/
theorem inode_of_unlink (h : (t.unlink x).inode e = some j) : t.inode e = some j := by
  obtain ⟨y, hy, hfile⟩ := inode_eq_some_iff.mp h
  have hne : y ≠ x := by
    rintro rfl
    simp [unlink] at hfile
  simp only [unlink, Function.update_of_ne hne] at hfile
  obtain heq | htarget := follow_remove hy
  · exact absurd heq hne
  · exact inode_eq_some_iff.mpr ⟨y, htarget, hfile⟩

/-- An entry that leads elsewhere is found with the same file as before. -/
theorem inode_create_of_ne (h : t.target e ≠ t.target x) : (t.create i x).inode e = t.inode e := by
  have htarget : (t.create i x).target e = t.target e := target_create
  have hnode : ∀ y, t.target e = some y → (t.create i x).node y = t.node y := by
    intro y hy
    unfold create
    split
    · rfl
    · next z hz =>
      split
      · refine Function.update_of_ne ?_ _ _
        rintro rfl
        exact h (hy.trans hz.symm)
      · rfl
  unfold inode
  rw [htarget]
  cases hy : t.target e with
  | none => rfl
  | some y => simp only [hnode y hy]

/-- The file that is found where one can be opened, and its content before the first write. -/
theorem create_self (h : t.canOpen e) :
    ∃ j, (t.create i e).inode e = some j ∧ (t.create i e).content j = (t.read e).getD [] := by
  unfold canOpen at h
  split at h
  · cases h
  · next x hx =>
    have htarget : (t.create i e).target e = some x := target_create.trans hx
    split at h
    · next hnone =>
      have hcreate : t.create i e = { node := Function.update t.node x (some (.file i)),
                                      content := Function.update t.content i [] } := by
        simp only [create, hx, hnone]
      have hread : t.read e = none := by simp [read, inode, hx, hnone]
      exact ⟨i, inode_eq_some_iff.mpr ⟨x, htarget, by simp [hcreate]⟩, by simp [hcreate, hread]⟩
    · next j hfile =>
      have hcreate : t.create i e = t := by simp only [create, hx, hfile]
      have hread : t.read e = some (t.content j) := by simp [read, inode, hx, hfile]
      exact ⟨j, inode_eq_some_iff.mpr ⟨x, htarget, by rw [hcreate, hfile]⟩,
        by simp [hcreate, hread]⟩
    · cases h

/-- What is read behind a write. -/
theorem read_save_self (h : t.canOpen e) :
    (t.save i e f).read e = some (f ((t.read e).getD [])) := by
  obtain ⟨j, hj, hcontent⟩ := create_self (i := i) h
  rw [read, save, inode_modify, hj, Option.map_some, content_modify_self hj, hcontent]

theorem read_save_of_ne (hunused : t.Unused i) (h : ¬ t.SameFile e x) :
    (t.save i x f).read e = t.read e := by
  have htarget : t.target e ≠ t.target x := fun heq => h (.inl heq)
  rw [read, read, save, inode_modify, inode_create_of_ne htarget]
  cases hj : t.inode e with
  | none => rfl
  | some j =>
    have hji : j ≠ i := fun heq => hunused.inode_ne e (heq ▸ hj)
    have hx : (t.create i x).inode x ≠ some j := by
      intro hx
      obtain hx | ⟨hx, -⟩ := inode_of_create hx
      · exact h (.inr ⟨j, hj, hx⟩)
      · exact hji hx
    rw [Option.map_some, Option.map_some, content_modify_of_ne hx, content_create hji]

omit [DecidableEq I] in
theorem read_unlink_self : (t.unlink e).read e = none := by
  have htarget : (t.unlink e).target e = some e := follow_of_not_link (by simp [unlink]) maxLinks
  have hinode : (t.unlink e).inode e = none := by
    simp only [inode, htarget]
    simp [unlink]
  rw [read, hinode, Option.map_none]

/-! ## Trees without aliases -/

/-- No links, and no file with two names. -/
structure Plain (t : Tree E I) : Prop where
  not_link : ∀ e x, t.node e ≠ some (.link x)
  unique : ∀ e x i, t.node e = some (.file i) → t.node x = some (.file i) → e = x

omit [DecidableEq E] [DecidableEq I] in
theorem Plain.target (h : t.Plain) (e : E) : t.target e = some e :=
  follow_of_not_link (h.not_link e) maxLinks

theorem Plain.save (h : t.Plain) (hunused : t.Unused i) : (t.save i e f).Plain := by
  have hnode : (t.save i e f).node = t.node ∨
      ∃ x, (t.save i e f).node = Function.update t.node x (some (.file i)) := by
    rw [Tree.save, node_modify]
    unfold create
    split
    · exact .inl rfl
    · next x hx =>
      split
      · exact .inr ⟨x, rfl⟩
      · exact .inl rfl
  obtain hnode | ⟨x, hnode⟩ := hnode
  · constructor
    · rw [hnode]
      exact h.not_link
    · rw [hnode]
      exact h.unique
  · constructor
    · rw [hnode]
      intro y z
      by_cases hy : y = x
      · simp [hy]
      · rw [Function.update_of_ne hy]
        exact h.not_link y z
    · rw [hnode]
      intro y z j hy hz
      by_cases hyx : y = x <;> by_cases hzx : z = x
      · rw [hyx, hzx]
      · obtain rfl : i = j := by simpa [hyx] using hy
        rw [Function.update_of_ne hzx] at hz
        exact absurd hz (hunused z)
      · obtain rfl : i = j := by simpa [hzx] using hz
        rw [Function.update_of_ne hyx] at hy
        exact absurd hy (hunused y)
      · rw [Function.update_of_ne hyx] at hy
        rw [Function.update_of_ne hzx] at hz
        exact h.unique y z j hy hz

omit [DecidableEq E] [DecidableEq I] in
theorem Plain.sameFile_iff (h : t.Plain) : t.SameFile e x ↔ e = x := by
  constructor
  · rintro (htarget | ⟨i, he, hx⟩)
    · rw [h.target, h.target] at htarget
      exact Option.some.inj htarget
    · obtain ⟨e', he', hfile⟩ := inode_eq_some_iff.mp he
      obtain ⟨x', hx', hfile'⟩ := inode_eq_some_iff.mp hx
      rw [h.target] at he' hx'
      obtain rfl := Option.some.inj he'
      obtain rfl := Option.some.inj hx'
      exact h.unique e x i hfile hfile'
  · rintro rfl
    exact .inl rfl

omit [DecidableEq I] in
/-- Removing an entry does not change what is read at another that is no link. -/
theorem read_unlink_of_ne (h : ∀ y, t.node e ≠ some (.link y)) (hne : e ≠ x) :
    (t.unlink x).read e = t.read e := by
  have hnode : (t.unlink x).node e = t.node e := Function.update_of_ne hne _ _
  have htarget : t.target e = some e := follow_of_not_link h maxLinks
  have htarget' : (t.unlink x).target e = some e :=
    follow_of_not_link (hnode ▸ h) maxLinks
  simp only [read, inode, htarget, htarget', hnode]
  rfl

/-! ## A file to be read later -/

variable {data : List Byte}

theorem holds_save (hf : ∀ c, f c = data) : (t.save i e f).Holds e data := by
  intro j hj
  rw [save, inode_modify] at hj
  rw [save, content_modify_self hj, hf]

theorem Holds.save (h : t.Holds e data) (hunused : t.Unused i) (hother : ¬ t.SameFile e x) :
    (t.save i x f).Holds e data := by
  intro j hj
  rw [Tree.save, inode_modify] at hj
  obtain hj | ⟨-, htarget⟩ := inode_of_create hj
  · have hji : j ≠ i := fun h => hunused.inode_ne e (h ▸ hj)
    have hx : (t.create i x).inode x ≠ some j := by
      intro hx
      obtain hx | ⟨hx, -⟩ := inode_of_create hx
      · exact hother (.inr ⟨j, hj, hx⟩)
      · exact hji hx
    rw [Tree.save, content_modify_of_ne hx, content_create hji]
    exact h j hj
  · exact absurd (.inl htarget) hother

omit [DecidableEq I] in
theorem Holds.unlink (h : t.Holds e data) (x : E) : (t.unlink x).Holds e data :=
  fun i hi => h i (inode_of_unlink hi)

/-! ## A file that is removed again -/

/-- A file created at an entry that named nothing, and unlinked there, leaves an inode that no
entry names. -/
theorem save_unlink_of_absent (h : t.node e = none) :
    (t.save i e f).unlink e = { t with content := Function.update t.content i (f []) } := by
  have htarget : t.target e = some e := follow_of_not_link (by simp [h]) maxLinks
  have hcreate : t.create i e = { node := Function.update t.node e (some (.file i)),
                                  content := Function.update t.content i [] } := by
    simp only [create, htarget, h]
  have hinode : (t.create i e).inode e = some i := by
    rw [inode_eq_some_iff]
    exact ⟨e, target_create.trans htarget, by simp [hcreate]⟩
  have hback : Function.update (Function.update t.node e (some (.file i))) e none = t.node := by
    rw [Function.update_idem, ← h, Function.update_eq_self]
  rw [save, modify, hinode]
  simp only [unlink, hcreate, hback, Function.update_self, Function.update_idem]

/-- The same entries exist, and reading them gives the same. -/
def Unchanged (t t' : Tree E I) : Prop :=
  ∀ e, ((t'.node e).isSome ↔ (t.node e).isSome) ∧ t'.read e = t.read e

/-- Writing and unlinking a file changes nothing exactly if nothing was there before. -/
theorem unchanged_save_unlink_iff (hunused : t.Unused i) :
    t.Unchanged ((t.save i e f).unlink e) ↔ t.node e = none := by
  constructor
  · intro h
    obtain ⟨hnode, -⟩ := h e
    simpa [unlink] using hnode
  · intro h y
    rw [save_unlink_of_absent h]
    refine ⟨Iff.rfl, ?_⟩
    change (t.inode y).map (Function.update t.content i (f [])) = (t.inode y).map t.content
    cases hy : t.inode y with
    | none => rfl
    | some j =>
      have hji : j ≠ i := fun h => hunused.inode_ne y (h ▸ hy)
      simp [hji]

end

end Tree

end CSem
