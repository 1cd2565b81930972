import CgiFileStore.Lib.DirTree
import CgiFileStore.Lib.Integer
import CgiFileStore.Lib.Transition

/-!
# Directories for the log files: make_log.c

`make_path` tests the directories of a log file from the top until one is missing and makes that
one and those below it, up to the first `mkdir` that fails. Any number of calls for one module and
day, interleaved at these tests and `mkdir` calls. The main result says for which runs every call
that has returned leaves a directory that the log file can be created in.
-/

namespace CgiFileStore

open CSem Transition

/-- `tm_year + 1900`, `tm_mon + 1` and `tm_mday`. -/
structure Date where
  year : Nat
  mon : Nat
  mday : Nat

/-- `%04d` and `%02d`. -/
def decimal (width n : Nat) : List Byte := (ascii (toString n)).leftpad width 48

/-! ## The paths -/

def topDir : Path := ascii "."

def secondDir : Path := ascii "./logs"

def thirdDir (moduleName : List Byte) : Path := secondDir ++ slash :: moduleName

def yDir (moduleName : List Byte) (now : Date) : Path :=
  thirdDir moduleName ++ slash :: (decimal 4 now.year ++ [slash])

def mDir (moduleName : List Byte) (now : Date) : Path :=
  yDir moduleName now ++ slash :: (decimal 2 now.mon ++ [slash])

def dDir (moduleName : List Byte) (now : Date) : Path :=
  mDir moduleName now ++ slash :: (decimal 2 now.mday ++ [slash])

/-- `path`, of which `snprintf` writes at most 1023 bytes. -/
def logPath (moduleName procName : List Byte) (now : Date) : Path :=
  (ascii "./logs/" ++ moduleName ++ slash :: (decimal 4 now.year ++ slash :: (decimal 2 now.mon ++
    slash :: (procName ++ ascii "-" ++ decimal 2 now.mday ++ ascii ".log")))).take 1023

/-- What the calls share: the longest of the texts that `sprintf` writes fits its array. -/
structure LogTarget where
  moduleName : EntryName
  now : Date
  fits : (dDir moduleName.bytes now).length < 1024

/-- The directories below the top one, in the order in which they are tested. -/
def LogTarget.below (k : LogTarget) : List Path :=
  [secondDir, thirdDir k.moduleName.bytes, yDir k.moduleName.bytes k.now,
    mDir k.moduleName.bytes k.now]

/-! ## The calls -/

/-- Where a call is: in front of `access` or of `mkdir` for a directory, with the directories that
follow, or behind its `return`. -/
inductive Call
  | access (dir : Path) (rest : List Path)
  | mkdir (dir : Path) (rest : List Path)
  | returned
  deriving DecidableEq

/-- The next step of a call. The five branches of the source differ in where `mkdir` begins. -/
def Call.step (t : DirTree) : Call → DirTree × Call
  | .access dir rest =>
    if t.access dir then
      match rest with
      | [] => (t, .returned)
      | dir :: rest => (t, .access dir rest)
    else (t, .mkdir dir rest)
  | .mkdir dir rest =>
    match t.mkdir dir with
    | none => (t, .returned)
    | some t =>
      match rest with
      | [] => (t, .returned)
      | dir :: rest => (t, .mkdir dir rest)
  | .returned => (t, .returned)

/-- `make_path` as it is called. -/
def makePath (k : LogTarget) : Call := .access topDir k.below

/-- The directories and the calls, one for each process. -/
structure LogDirs (P : Type) where
  tree : DirTree
  call : P → Call

section

variable {P : Type} {k : LogTarget}

def LogDirs.initial (k : LogTarget) (tree : DirTree) : LogDirs P where
  tree := tree
  call := fun _ => makePath k

variable [DecidableEq P]

/-- A step of process `p`. -/
def LogDirs.step (s : LogDirs P) (p : P) : LogDirs P where
  tree := ((s.call p).step s.tree).1
  call := Function.update s.call p ((s.call p).step s.tree).2

/-- The state behind the steps of a schedule. -/
def LogDirs.run (s : LogDirs P) (schedule : List P) : LogDirs P := schedule.foldl LogDirs.step s

/-- Whenever a call has returned, its log file can be created. -/
def LogDirs.Arrived (k : LogTarget) (procName : P → EntryName) (s : LogDirs P) : Prop :=
  ∀ p, s.call p = .returned →
    s.tree.canCreate (logPath k.moduleName.bytes (procName p).bytes k.now) = true

/-- A directory that process `p` is about to make has not been made by another one, or the month
directory is there. -/
def LogDirs.Unhindered (k : LogTarget) (s : LogDirs P) (p : P) : Prop :=
  ∀ dir rest, s.call p = .mkdir dir rest →
    s.tree.access dir = false ∨ s.tree.access (mDir k.moduleName.bytes k.now) = true

end

/-! ## The names on the paths -/

section

variable {k : LogTarget} {width n : Nat} {c : Byte}

theorem isDigit_of_mem_padded (h : c ∈ decimal width n) : isDigit c = true := by
  rw [decimal, List.leftpad, List.mem_append] at h
  rcases h with hpad | htext
  · rw [List.eq_of_mem_replicate hpad]
    decide
  · exact isDigit_of_mem_decimal htext

theorem slash_notMem_decimal (width n : Nat) : slash ∉ decimal width n := by
  intro h
  exact absurd (isDigit_of_mem_padded h) (by decide)

theorem pathNames_decimal (hwidth : 0 < width) :
    pathNames (decimal width n) = [decimal width n] := by
  apply pathNames_name (slash_notMem_decimal width n)
  · intro hnil
    have hlen := congrArg List.length hnil
    rw [decimal, List.length_leftpad, List.length_nil] at hlen
    omega
  · intro hdot
    have hmem : (46 : Byte) ∈ decimal width n := by
      rw [hdot]
      decide
    exact absurd (isDigit_of_mem_padded hmem) (by decide)

theorem pathNames_entryName (name : EntryName) : pathNames name.bytes = [name.bytes] :=
  pathNames_name name.slash_notMem name.ne_nil name.ne_dot

theorem pathNames_thirdDir (k : LogTarget) :
    pathNames (thirdDir k.moduleName.bytes) = [ascii "logs", k.moduleName.bytes] := by
  rw [thirdDir, pathNames_append, pathNames_entryName]
  rfl

theorem pathNames_yDir (k : LogTarget) :
    pathNames (yDir k.moduleName.bytes k.now) =
      [ascii "logs", k.moduleName.bytes, decimal 4 k.now.year] := by
  rw [yDir, pathNames_append, pathNames_thirdDir, pathNames_append, pathNames_decimal (by decide)]
  rfl

theorem pathNames_mDir (k : LogTarget) :
    pathNames (mDir k.moduleName.bytes k.now) =
      [ascii "logs", k.moduleName.bytes, decimal 4 k.now.year, decimal 2 k.now.mon] := by
  rw [mDir, pathNames_append, pathNames_yDir, pathNames_append, pathNames_decimal (by decide)]
  rfl

/-- `path` in front of its last slash. -/
def monthPath (moduleName : List Byte) (now : Date) : Path :=
  ascii "./logs/" ++ moduleName ++ slash :: (decimal 4 now.year ++ slash :: decimal 2 now.mon)

theorem pathNames_monthPath (k : LogTarget) :
    pathNames (monthPath k.moduleName.bytes k.now) =
      pathNames (mDir k.moduleName.bytes k.now) := by
  have hlogs : ascii "./logs/" = secondDir ++ slash :: [] := rfl
  rw [pathNames_mDir, monthPath, pathNames_append, pathNames_append, hlogs, List.append_assoc,
    List.cons_append, List.nil_append, pathNames_append, pathNames_entryName,
    pathNames_decimal (by decide), pathNames_decimal (by decide)]
  rfl

/-- `snprintf` cuts the path behind the month directory, if at all. -/
theorem logPath_eq (k : LogTarget) (procName : List Byte) :
    ∃ n, logPath k.moduleName.bytes procName k.now = monthPath k.moduleName.bytes k.now ++
      slash :: (procName ++ ascii "-" ++ decimal 2 k.now.mday ++ ascii ".log").take n := by
  have hroom : (monthPath k.moduleName.bytes k.now ++ [slash]).length ≤ 1023 := by
    have hfits := k.fits
    have hlogs : secondDir.length = 6 ∧ (ascii "./logs/").length = 7 := by decide
    simp only [dDir, mDir, yDir, thirdDir, List.length_append, List.length_cons] at hfits
    simp only [monthPath, List.length_append, List.length_cons, List.length_nil]
    omega
  refine ⟨1023 - (monthPath k.moduleName.bytes k.now ++ [slash]).length, ?_⟩
  calc logPath k.moduleName.bytes procName k.now
      = ((monthPath k.moduleName.bytes k.now ++ [slash]) ++
          (procName ++ ascii "-" ++ decimal 2 k.now.mday ++ ascii ".log")).take 1023 := by
        simp [logPath, monthPath]
    _ = _ := by
        rw [List.take_append, List.take_of_length_le hroom, List.append_assoc]
        rfl

/-- The log file can be created if and only if the month directory is there. -/
theorem canCreate_logPath (t : DirTree) (k : LogTarget) (procName : EntryName) :
    t.canCreate (logPath k.moduleName.bytes procName.bytes k.now) =
      t.access (mDir k.moduleName.bytes k.now) := by
  obtain ⟨n, hpath⟩ := logPath_eq k procName.bytes
  have hname : slash ∉ (procName.bytes ++ ascii "-" ++ decimal 2 k.now.mday ++
      ascii ".log").take n := by
    intro hmem
    have h := List.mem_of_mem_take hmem
    simp only [List.mem_append, procName.slash_notMem, slash_notMem_decimal, or_false,
      false_or] at h
    exact absurd h (by decide)
  rw [DirTree.canCreate, hpath, dirOf_append hname, pathNames_monthPath, DirTree.access]

end

/-! ## The steps of a call -/

/-- Every directory in front of the one that a call is at exists. -/
def Placed (k : LogTarget) (t : DirTree) : Call → Prop
  | .access dir rest | .mkdir dir rest =>
    ∃ passed, passed ++ dir :: rest = topDir :: k.below ∧ ∀ d ∈ passed, t.access d = true
  | .returned => True

section

variable {k : LogTarget} {t t' : DirTree} {c : Call} {dir : Path} {rest passed : List Path}

theorem placed_makePath (k : LogTarget) (t : DirTree) : Placed k t (makePath k) :=
  ⟨[], rfl, by simp⟩

theorem Placed.mono (hsub : t.dirs ⊆ t'.dirs) (h : Placed k t c) : Placed k t' c := by
  cases c with
  | returned => trivial
  | access dir rest | mkdir dir rest =>
    obtain ⟨passed, hdirs, hpassed⟩ := h
    exact ⟨passed, hdirs, fun d hd => DirTree.access_mono hsub (hpassed d hd)⟩

/-- Each directory is in the one that is tested before it. -/
theorem dirs_isChain (k : LogTarget) : (topDir :: k.below).IsChain fun d d' =>
    (pathNames d').dropLast = pathNames d := by
  have hsecond : pathNames secondDir = [ascii "logs"] := rfl
  simp [LogTarget.below, pathNames_thirdDir, pathNames_yDir, pathNames_mDir, hsecond,
    show pathNames topDir = [] from rfl]

theorem dropLast_next {d : Path} (hdirs : passed ++ d :: dir :: rest = topDir :: k.below) :
    (pathNames dir).dropLast = pathNames d := by
  have hchain := dirs_isChain k
  rw [← hdirs] at hchain
  exact (List.isChain_append_cons_cons.mp hchain).2.1

theorem parent_mem (hdirs : passed ++ dir :: rest = topDir :: k.below)
    (hpassed : ∀ d ∈ passed, t.access d = true) : (pathNames dir).dropLast ∈ t.dirs := by
  obtain rfl | ⟨passed, d, rfl⟩ := List.eq_nil_or_concat passed
  · obtain rfl : dir = topDir := (List.cons.inj hdirs).1
    exact t.root
  · rw [List.concat_append] at hdirs
    have hd := hpassed d (by simp)
    rw [DirTree.access, decide_eq_true_eq] at hd
    rwa [dropLast_next hdirs]

/-- The last directory is the month directory. -/
theorem eq_mDir_of_last (hdirs : passed ++ [dir] = topDir :: k.below) :
    dir = mDir k.moduleName.bytes k.now := by
  have hlast := congrArg List.getLast? hdirs
  rw [List.getLast?_concat] at hlast
  exact Option.some.inj hlast

theorem placed_next {dir' : Path} (hdirs : passed ++ dir :: dir' :: rest = topDir :: k.below)
    (hpassed : ∀ d ∈ passed, t.access d = true) (hdir : t.access dir = true) :
    ∃ passed', passed' ++ dir' :: rest = topDir :: k.below ∧
      ∀ d ∈ passed', t.access d = true := by
  refine ⟨passed ++ [dir], by rw [← hdirs, ← List.append_cons], fun d hd => ?_⟩
  rcases List.mem_append.mp hd with hd | hd
  · exact hpassed d hd
  · rwa [List.mem_singleton.mp hd]

/-- What a step can do: no directory goes away, and a call returns when the month directory is
there, or from a `mkdir` for a directory that there is already. -/
theorem step_placed (h : Placed k t c) :
    t.dirs ⊆ (c.step t).1.dirs ∧ Placed k (c.step t).1 (c.step t).2 ∧
      ((c.step t).2 = .returned → c = .returned ∨
        (c.step t).1.access (mDir k.moduleName.bytes k.now) = true ∨
          ∃ dir rest, c = .mkdir dir rest ∧ t.access dir = true) := by
  cases c with
  | returned => exact ⟨subset_rfl, trivial, fun _ => .inl rfl⟩
  | access dir rest =>
    obtain ⟨passed, hdirs, hpassed⟩ := h
    dsimp only [Call.step]
    split_ifs with hdir
    · cases rest with
      | nil => exact ⟨subset_rfl, trivial, fun _ => .inr (.inl (eq_mDir_of_last hdirs ▸ hdir))⟩
      | cons dir' rest => exact ⟨subset_rfl, placed_next hdirs hpassed hdir, by simp⟩
    · exact ⟨subset_rfl, ⟨passed, hdirs, hpassed⟩, by simp⟩
  | mkdir dir rest =>
    obtain ⟨passed, hdirs, hpassed⟩ := h
    dsimp only [Call.step]
    cases hmk : t.mkdir dir with
    | none =>
      refine ⟨subset_rfl, trivial, fun _ => .inr (.inr ⟨dir, rest, rfl, ?_⟩)⟩
      by_contra hdir
      obtain ⟨t', ht'⟩ := DirTree.mkdir_isSome (Bool.eq_false_iff.mpr hdir)
        (parent_mem hdirs hpassed)
      rw [hmk] at ht'
      cases ht'
    | some t' =>
      have hsub := DirTree.subset_of_mkdir hmk
      have hdir := DirTree.access_of_mkdir hmk
      cases rest with
      | nil => exact ⟨hsub, trivial, fun _ => .inr (.inl (eq_mDir_of_last hdirs ▸ hdir))⟩
      | cons dir' rest =>
        have hpassed' := fun d hd => DirTree.access_mono hsub (hpassed d hd)
        exact ⟨hsub, placed_next hdirs hpassed' hdir, by simp⟩

end

/-! ## The runs -/

section

variable {P : Type} [DecidableEq P] {k : LogTarget} {procName : P → EntryName} {s : LogDirs P}

@[simp] theorem tree_step (s : LogDirs P) (p : P) :
    (s.step p).tree = ((s.call p).step s.tree).1 := rfl

@[simp] theorem call_step_self (s : LogDirs P) (p : P) :
    (s.step p).call p = ((s.call p).step s.tree).2 := Function.update_self p _ s.call

theorem call_step_of_ne {p q : P} (h : q ≠ p) : (s.step p).call q = s.call q :=
  Function.update_of_ne h _ s.call

theorem run_append_singleton (s : LogDirs P) (schedule : List P) (p : P) :
    s.run (schedule ++ [p]) = (s.run schedule).step p := by
  simp [LogDirs.run]

/-- The states along a schedule are a run of the step relation. -/
theorem run_isRun (s : LogDirs P) (schedule : List P) :
    Run s (fun s p s' => s' = s.step p) schedule.reverse (s.run schedule) := by
  induction schedule using List.reverseRecOn with
  | nil => exact .nil
  | append_singleton schedule p ih =>
    rw [List.reverse_append, run_append_singleton]
    exact ih.cons rfl

def LogDirs.AllPlaced (k : LogTarget) (s : LogDirs P) : Prop := ∀ q, Placed k s.tree (s.call q)

theorem allPlaced_step (h : s.AllPlaced k) (p : P) : (s.step p).AllPlaced k := by
  obtain ⟨hsub, hplaced, -⟩ := step_placed (h p)
  intro q
  by_cases hq : q = p
  · rw [hq, tree_step, call_step_self]
    exact hplaced
  · rw [tree_step, call_step_of_ne hq]
    exact (h q).mono hsub

theorem allPlaced_run (tree : DirTree) (schedule : List P) :
    ((LogDirs.initial k tree).run schedule).AllPlaced k := by
  refine (run_isRun (LogDirs.initial k tree) schedule).invariant ?_ ?_
  · exact fun _ => placed_makePath k tree
  · rintro s p s' h rfl
    exact allPlaced_step h p

/-- A step that is not hindered keeps the log files of the calls that have returned. -/
theorem arrived_step (hplaced : s.AllPlaced k) (h : s.Arrived k procName) {p : P}
    (hfree : s.Unhindered k p) : (s.step p).Arrived k procName := by
  obtain ⟨hsub, -, hreturn⟩ := step_placed (hplaced p)
  intro q hq
  rw [canCreate_logPath]
  have hstay : s.call q = .returned →
      (s.step p).tree.access (mDir k.moduleName.bytes k.now) = true := by
    intro hreturned
    have hthere := h q hreturned
    rw [canCreate_logPath] at hthere
    exact DirTree.access_mono hsub hthere
  by_cases hqp : q = p
  · subst hqp
    rw [call_step_self] at hq
    rcases hreturn hq with hreturned | hthere | ⟨dir, rest, hcall, hdir⟩
    · exact hstay hreturned
    · exact hthere
    · rcases hfree dir rest hcall with hnew | hthere
      · rw [hdir] at hnew
        cases hnew
      · exact DirTree.access_mono hsub hthere
  · rw [call_step_of_ne hqp] at hq
    exact hstay hq

theorem arrived_run {tree : DirTree} {schedule : List P}
    (hfree : ∀ before p, before ++ [p] <+: schedule →
      ((LogDirs.initial k tree).run before).Unhindered k p) :
    ((LogDirs.initial k tree).run schedule).Arrived k procName := by
  induction schedule using List.reverseRecOn with
  | nil => exact fun _ hcall => by cases hcall
  | append_singleton schedule p ih =>
    rw [run_append_singleton]
    refine arrived_step (allPlaced_run tree schedule) (ih ?_) (hfree schedule p List.prefix_rfl)
    intro before q hbefore
    exact hfree before q (hbefore.trans (List.prefix_append schedule [p]))

/-- A hindered `mkdir` ends its call, and the log file cannot be created. -/
theorem not_arrived_step {p : P} (hfree : ¬ s.Unhindered k p) :
    ¬ (s.step p).Arrived k procName := by
  intro h
  apply hfree
  intro dir rest hcall
  by_contra hhindered
  obtain ⟨hdir, hmonth⟩ := not_or.mp hhindered
  have hstep : (s.call p).step s.tree = (s.tree, .returned) := by
    rw [hcall, Call.step, DirTree.mkdir_of_access (Bool.eq_true_of_not_eq_false hdir)]
  have hthere := h p (by rw [call_step_self, hstep])
  rw [canCreate_logPath, tree_step, hstep] at hthere
  exact hmonth hthere

end

/-! ## Calls that are not interrupted -/

/-- A bound on the steps that a call still makes. -/
def Call.left : Call → Nat
  | .access _ rest => rest.length + 2
  | .mkdir _ rest => rest.length + 1
  | .returned => 0

theorem left_step (t : DirTree) (c : Call) : (c.step t).2.left ≤ c.left - 1 := by
  cases c with
  | returned => exact le_rfl
  | access dir rest =>
    dsimp only [Call.step]
    split_ifs
    · cases rest <;> simp [Call.left]
    · simp [Call.left]
  | mkdir dir rest =>
    dsimp only [Call.step]
    cases t.mkdir dir with
    | none => simp [Call.left]
    | some t' => cases rest <;> simp [Call.left]

/-- A directory that a call has found missing, or whose parent it has just made, is missing while
no other call makes a step. -/
theorem step_missing {k : LogTarget} {t : DirTree} {c : Call} (hplaced : Placed k t c)
    (hmissing : ∀ dir rest, c = .mkdir dir rest → t.access dir = false) (dir : Path)
    (rest : List Path) (hnext : (c.step t).2 = .mkdir dir rest) :
    (c.step t).1.access dir = false := by
  cases c with
  | returned => cases hnext
  | access d ds =>
    dsimp only [Call.step] at hnext ⊢
    split_ifs at hnext ⊢ with hd
    · cases ds <;> cases hnext
    · cases hnext
      exact Bool.eq_false_iff.mpr hd
  | mkdir d ds =>
    obtain ⟨passed, hdirs, -⟩ := hplaced
    have hd := hmissing d ds rfl
    dsimp only [Call.step] at hnext ⊢
    cases hmk : t.mkdir d with
    | none =>
      rw [hmk] at hnext
      cases hnext
    | some t' =>
      rw [hmk] at hnext
      cases ds with
      | nil => cases hnext
      | cons dir' rest' =>
        cases hnext
        have hparent := dropLast_next hdirs
        rw [DirTree.access, decide_eq_false_iff_not] at hd ⊢
        rw [DirTree.dirs_of_mkdir hmk, Finset.mem_insert, not_or, ← hparent]
        refine ⟨fun hself => ?_, fun hmem => hd (hparent ▸ t.parent _ hmem)⟩
        have hnil : pathNames dir = [] := by
          have hlen := congrArg List.length hself
          rw [List.length_dropLast] at hlen
          exact List.eq_nil_of_length_eq_zero (by omega)
        rw [← hparent, hnil] at hd
        exact hd t.root

section

variable {P : Type} [DecidableEq P] {k : LogTarget}

/-- A call makes at most six steps. -/
theorem makePath_returns (tree : DirTree) (schedule : List P) (p : P) (h : 6 ≤ schedule.count p) :
    ((LogDirs.initial k tree).run schedule).call p = .returned := by
  have hleft : ∀ before : List P,
      (((LogDirs.initial k tree).run before).call p).left ≤ 6 - before.count p := by
    intro before
    induction before using List.reverseRecOn with
    | nil => exact le_rfl
    | append_singleton before q ih =>
      rw [run_append_singleton, List.count_append, List.count_singleton]
      by_cases hq : q = p
      · subst hq
        have := left_step ((LogDirs.initial k tree).run before).tree
          (((LogDirs.initial k tree).run before).call q)
        rw [call_step_self, if_pos (by simp)]
        omega
      · rw [call_step_of_ne (Ne.symm hq), if_neg (by simpa using hq)]
        exact ih
  have hzero := hleft schedule
  rw [Nat.sub_eq_zero_of_le h, Nat.le_zero] at hzero
  cases hcall : ((LogDirs.initial k tree).run schedule).call p with
  | returned => rfl
  | access dir rest | mkdir dir rest =>
    rw [hcall] at hzero
    cases hzero

/-- A call that no other one interrupts leaves the directory of its log file. -/
theorem makePath_alone (tree : DirTree) (procName : P → EntryName) (p : P) (n : Nat) :
    ((LogDirs.initial k tree).run (List.replicate n p)).Arrived k procName := by
  have halone : ∀ n dir rest,
      ((LogDirs.initial k tree).run (List.replicate n p)).call p = .mkdir dir rest →
        ((LogDirs.initial k tree).run (List.replicate n p)).tree.access dir = false := by
    intro n
    induction n with
    | zero => exact fun _ _ hcall => by cases hcall
    | succ n ih =>
      rw [List.replicate_succ', run_append_singleton, tree_step, call_step_self]
      exact step_missing (allPlaced_run tree _ p) ih
  apply arrived_run
  intro before q hbefore dir rest hcall
  have hall : ∀ x ∈ before ++ [q], x = p := fun x hx =>
    List.eq_of_mem_replicate (hbefore.subset hx)
  obtain rfl : q = p := hall q (by simp)
  have hbefore : before = List.replicate before.length q :=
    List.eq_replicate_of_mem fun x hx => hall x (by simp [hx])
  rw [hbefore] at hcall ⊢
  exact .inl (halone before.length dir rest hcall)

end

/-! ## Calls that interrupt each other -/

/-- Every call that returns in a run leaves the directory of its log file, if and only if no call
meets, while the month directory is missing, a directory at its `mkdir` that another call has made
since. -/
theorem makePath_arrived_iff {P : Type} [DecidableEq P] (k : LogTarget) (procName : P → EntryName)
    (tree : DirTree) (schedule : List P) :
    (∀ before, before <+: schedule →
      ((LogDirs.initial k tree).run before).Arrived k procName) ↔
    ∀ before p, before ++ [p] <+: schedule →
      ((LogDirs.initial k tree).run before).Unhindered k p := by
  constructor
  · intro h before p hbefore
    by_contra hhindered
    have harrived := h _ hbefore
    rw [run_append_singleton] at harrived
    exact not_arrived_step hhindered harrived
  · intro h before hbefore
    exact arrived_run fun start p hstart => h start p (hstart.trans hbefore)

/-- What the upload worker logs to on some day. -/
def echoTarget : LogTarget where
  moduleName :=
    { bytes := ascii "11"
      nul_free := by decide
      slash_notMem := by decide
      ne_nil := by decide
      ne_dot := by decide
      ne_dotdot := by decide }
  now := { year := 2024, mon := 5, mday := 17 }
  fits := by decide +kernel

def echoProc : EntryName where
  bytes := ascii "12"
  nul_free := by decide
  slash_notMem := by decide
  ne_nil := by decide
  ne_dot := by decide
  ne_dotdot := by decide

/-- Two calls find `./logs` missing. The one that comes second at `mkdir` returns with no month
directory there. -/
theorem makePath_arrived_race :
    let tree : DirTree := ⟨{[]}, by decide, by decide⟩
    ¬ ((LogDirs.initial echoTarget tree).run [false, false, true, true, true, false]).Arrived
      echoTarget fun _ => echoProc := by
  intro tree h
  exact absurd (h false (by decide +kernel)) (by decide +kernel)

end CgiFileStore
