import CgiFileStore.Data.RoundTrip
import CgiFileStore.System.Workers

/-!
# View counts

The list gets the record of an upload before the sorted set gets its score, and a lister that
asks in between prints a negative view count. The main result says for which runs no
negative count is printed.
-/

namespace CgiFileStore

open CSem Redis Transition

/-! ## Rows and their ids -/

/-- A text that starts with the id of an upload. -/
def StartsWithId (ids : List FileId) (text : List Byte) : Prop :=
  ∃ fileId ∈ ids, fileId.bytes.length ≤ 1022 ∧ ∃ rest, text = fileId.bytes ++ delimiter :: rest

theorem StartsWithId.mono {ids ids' : List FileId} (h : ids ⊆ ids') {text : List Byte}
    (htext : StartsWithId ids text) : StartsWithId ids' text := by
  obtain ⟨fileId, hmem, hrest⟩ := htext
  exact ⟨fileId, h hmem, hrest⟩

/-- What is copied of an element to its row starts with the id, too. -/
theorem startsWithId_row {ids : List FileId} {e : List Byte} (he : StartsWithId ids e)
    (rest : List Byte) : StartsWithId ids (padTo 1023 (cstring e) ++ rest) := by
  obtain ⟨fileId, hmem, hlen, tail, rfl⟩ := he
  have hd : 0 ∉ fileId.bytes ++ [delimiter] := by
    simpa [delimiter] using fileId.nul_free
  have hfit : (fileId.bytes ++ [delimiter]).length ≤ 1023 := by
    rw [List.length_append, List.length_singleton]
    omega
  obtain ⟨t, ht⟩ : ∃ t, padTo 1023 (cstring (fileId.bytes ++ delimiter :: tail)) =
      fileId.bytes ++ [delimiter] ++ t := by
    rw [List.append_cons, cstring_append_of_notMem hd, padTo, List.take_append,
      List.take_of_length_le hfit, List.append_assoc]
    exact ⟨_, rfl⟩
  exact ⟨fileId, hmem, hlen, t ++ rest, by rw [ht]; simp⟩

/-- The id that the lister takes from a row. -/
def rowId (prev : Byte) (line : List Byte) : List Byte :=
  if prev = backslash then [] else line.takeWhile (· ≠ delimiter)

theorem takeWhile_fileId (fileId : FileId) (rest : List Byte) :
    (fileId.bytes ++ delimiter :: rest).takeWhile (· ≠ delimiter) = fileId.bytes := by
  rw [List.takeWhile_append_of_pos]
  · simp
  · intro c hc
    simp only [ne_eq, decide_eq_true_eq]
    rintro rfl
    exact fileId.delimiter_notMem hc

theorem readRow_id {ids : List FileId} {prev : Byte} {line : List Byte} {fields fields' : Fields}
    {row : Row} (hline : StartsWithId ids line)
    (h : readRow prev line fields = .ok (fields', row)) : row.id = rowId prev line := by
  obtain ⟨fileId, -, hlen, rest, rfl⟩ := hline
  obtain ⟨⟨buf, hbuf, hread⟩, -⟩ := readRow_columns h
  obtain ⟨t, rfl⟩ := columnInto_first_eq_ok hlen hbuf
  have h0 : 0 ∉ firstColumn prev fileId.bytes := fun hmem =>
    fileId.nul_free ((firstColumn_isPrefix prev fileId.bytes).subset hmem)
  rw [readString_append_zero h0, Except.ok.injEq,
    firstColumn_of_notMem fileId.delimiter_notMem fileId.backslash_notMem] at hread
  rw [rowId, takeWhile_fileId, hread]

/-! ## Uploads between their two commands -/

section

variable {S U L : Type}

/-- The record of the upload has been pushed and its score not yet counted. -/
def Pending (s : System S U L) (fileId : FileId) : Prop := ∃ u, s.uploader u = .pushed fileId

/-- Both commands of the upload with this id have been carried out. -/
def Counted (s : System S U L) (m : List Byte) : Prop :=
  ∃ fileId ∈ s.ids, fileId.bytes = m ∧ ¬ Pending s fileId

/-- Every row of a page starts with the id of an upload. -/
def RowsListed (ids : List FileId) (page : RangeList) : Prop :=
  ∀ i prev line, i < page.getNum.toNat → rowAt page.values i = .ok (prev, line) →
    StartsWithId ids line

theorem RowsListed.mono {ids ids' : List FileId} {page : RangeList} (h : ids ⊆ ids')
    (hpage : RowsListed ids page) : RowsListed ids' page :=
  fun i prev line hi hrow => (hpage i prev line hi hrow).mono h

/-- What holds in every state of every interleaving. -/
structure Consistent [Score S] (s : System S U L) : Prop where
  list : HoldsList s.store fileInfoList
  zset : HoldsZset s.store fileHotZset
  elements : ∀ e ∈ listAt s.store fileInfoList, StartsWithId s.ids e
  pending_mem : ∀ fileId, Pending s fileId → fileId ∈ s.ids
  pending_unique : ∀ u v fileId, s.uploader u = .pushed fileId → s.uploader v = .pushed fileId →
    u = v
  counted : ∀ m, Counted s m → scoreAt s.store fileHotZset m = some (Score.incr Score.zero)
  uncounted : ∀ m, ¬ Counted s m → scoreAt s.store fileHotZset m = none
  rows : ∀ l page i fields, s.lister l = .listing page i fields →
    i < page.getNum.toNat ∧ RowsListed s.ids page

theorem initial_consistent [Score S] : Consistent (System.initial : System S U L) where
  list := .inl rfl
  zset := .inl rfl
  elements := by simp [System.initial, listAt, emptyStore]
  pending_mem := by simp [Pending, System.initial]
  pending_unique := by simp [System.initial]
  counted := by simp [Counted, System.initial]
  uncounted := fun _ _ => rfl
  rows := by simp [System.initial]

/-! ## What the steps do to the uploads -/

/-- A push puts the record, which starts with the id, in front of the list. -/
theorem pushFile_eq_ok {fileId : FileId} {fileUrl fileName createTime user : CStr} {ret : Int}
    {st st' : Store S} (hlist : HoldsList st fileInfoList)
    (h : pushFile .serve fileId.array fileUrl.array fileName.array createTime user st =
      .ok (ret, st')) :
    ∃ value, st' = pushed st fileInfoList value ∧ StartsWithId [fileId] value := by
  obtain ⟨buf, hbuf, h⟩ := bind_eq_ok.mp h
  obtain ⟨value, hvalue, h⟩ := bind_eq_ok.mp h
  have hfits : RecordFits fileId.bytes fileUrl.bytes fileName.bytes createTime.bytes
      user.bytes := by
    by_contra hlong
    exact makeRecord_ne_ok fileId.readString_array fileUrl.readString_array
      fileName.readString_array hlong buf hbuf
  have hrecord := zero_notMem_record createTime user fileId.nul_free fileUrl.nul_free
    fileName.nul_free
  rw [makeRecord_eq fileId.readString_array fileUrl.readString_array fileName.readString_array
    hfits, Except.ok.injEq] at hbuf
  rw [← hbuf, readString_append_zeros hrecord (Nat.sub_pos_of_lt hfits.2), Except.ok.injEq]
    at hvalue
  rw [ropListPush_applied ⟨rfl, hlist⟩, Except.ok.injEq, Prod.mk.injEq] at h
  have hlen := hfits.2
  refine ⟨value, h.2.symm, fileId, List.mem_singleton_self _, ?_, ?_⟩
  · simp only [record, recordFields, List.flatten_cons, List.length_append, List.length_cons]
      at hlen
    omega
  · rw [← hvalue, record, recordFields]
    simp only [List.flatten_cons, List.append_assoc, List.cons_append, List.nil_append]
    exact ⟨_, rfl⟩

section

variable {s t : System S U L} {u : U} {fileId : FileId}

/-- Nothing has been counted for the id of an upload between its two commands. -/
theorem not_counted_of_pushed (hpushed : s.uploader u = .pushed fileId) :
    ¬ Counted s fileId.bytes := by
  rintro ⟨other, -, hm, hnot⟩
  obtain rfl : other = fileId := FileId.ext hm
  exact hnot ⟨u, hpushed⟩

variable [DecidableEq U]

theorem pending_pushed_iff (hidle : s.uploader u = .idle)
    (h : t.uploader = Function.update s.uploader u (.pushed fileId)) (other : FileId) :
    Pending t other ↔ other = fileId ∨ Pending s other := by
  simp only [Pending, h, Function.update_apply]
  constructor
  · rintro ⟨v, hv⟩
    split_ifs at hv
    · exact .inl (Uploader.pushed.inj hv).symm
    · exact .inr ⟨v, hv⟩
  · rintro (rfl | ⟨v, hv⟩)
    · exact ⟨u, if_pos rfl⟩
    · have hne : v ≠ u := by
        rintro rfl
        rw [hidle] at hv
        cases hv
      exact ⟨v, by rw [if_neg hne, hv]⟩

/-- A push counts no upload. -/
theorem counted_pushed_iff (hidle : s.uploader u = .idle)
    (hfresh : fileId ∉ s.ids) (hids : t.ids = fileId :: s.ids)
    (h : t.uploader = Function.update s.uploader u (.pushed fileId)) (m : List Byte) :
    Counted t m ↔ Counted s m := by
  simp only [Counted, hids, pending_pushed_iff hidle h, not_or]
  constructor
  · rintro ⟨other, hmem, hm, hne, hnot⟩
    exact ⟨other, (List.mem_cons.mp hmem).resolve_left hne, hm, hnot⟩
  · rintro ⟨other, hmem, hm, hnot⟩
    refine ⟨other, List.mem_cons_of_mem _ hmem, hm, ?_, hnot⟩
    rintro rfl
    exact hfresh hmem

variable [Score S]

theorem pending_idle_iff (hs : Consistent s) (hpushed : s.uploader u = .pushed fileId)
    (h : t.uploader = Function.update s.uploader u .idle) (other : FileId) :
    Pending t other ↔ Pending s other ∧ other ≠ fileId := by
  simp only [Pending, h, Function.update_apply]
  constructor
  · rintro ⟨v, hv⟩
    split_ifs at hv with hvu
    refine ⟨⟨v, hv⟩, ?_⟩
    rintro rfl
    exact hvu (hs.pending_unique v u _ hv hpushed)
  · rintro ⟨⟨v, hv⟩, hne⟩
    have hvu : v ≠ u := by
      rintro rfl
      exact hne (Uploader.pushed.inj (hv.symm.trans hpushed))
    exact ⟨v, by rw [if_neg hvu, hv]⟩

/-- The second command of an upload counts this one. -/
theorem counted_idle_iff (hs : Consistent s) (hpushed : s.uploader u = .pushed fileId)
    (hids : t.ids = s.ids) (h : t.uploader = Function.update s.uploader u .idle)
    (m : List Byte) : Counted t m ↔ m = fileId.bytes ∨ Counted s m := by
  simp only [Counted, hids, pending_idle_iff hs hpushed h, not_and_or, not_not]
  constructor
  · rintro ⟨other, hmem, rfl, hnot | rfl⟩
    · exact .inr ⟨other, hmem, rfl, hnot⟩
    · exact .inl rfl
  · rintro (rfl | ⟨other, hmem, hm, hnot⟩)
    · exact ⟨fileId, hs.pending_mem _ ⟨u, hpushed⟩, rfl, .inr rfl⟩
    · exact ⟨other, hmem, hm, .inl hnot⟩

end

variable [Score S]

theorem countFile_eq_ok {fileId : FileId} {ret : Int} {st st' : Store S}
    (hzset : HoldsZset st fileHotZset)
    (h : countFile .serve fileId.array st = .ok (ret, st')) :
    st' = counted st fileHotZset fileId.bytes := by
  rw [countFile, fileId.readString_array, ok_bind, ropZsetIncrement_applied ⟨rfl, hzset⟩,
    Except.ok.injEq, Prod.mk.injEq] at h
  exact h.2.symm

/-! ## The rows of a page -/

variable {s : System S U L}

/-- The rows that are copied from the list start with ids of uploads. -/
theorem pageRows_listed {alloc : Allocator} {fromId count endId : Int} {page : RangeList}
    (hs : Consistent s) (hend : pageEnd fromId count = .ok endId)
    (h : pageRows alloc .serve fromId endId count s.store = .ok page) :
    RowsListed s.ids page := by
  intro i prev line hi hrow
  obtain ⟨-, hint, rfl⟩ := pageEnd_eq_ok.mp hend
  have hlen := length_copiedRows (listAt s.store fileInfoList) fromId hint
  rw [← getNum_pageRows alloc s.store fromId _ h] at hlen
  have hget := List.getElem?_eq_getElem (hlen ▸ hi)
  obtain ⟨rest, rfl⟩ := rowAt_pageRows alloc s.store fromId _ h hget hrow
  refine startsWithId_row (hs.elements _ ?_) rest
  -- what is copied is a part of the list
  exact List.mem_of_mem_drop (List.mem_of_mem_take (List.mem_of_mem_take (List.getElem_mem _)))

/-! ## The view count of a row -/

/-- The row in front of a lister that asks for a score is one whose id has been counted. -/
def Calm (s : System S U L) (e : Event U L) : Prop :=
  match e with
  | .score l =>
    match s.lister l with
    | .listing page i _ => ∀ prev line, rowAt page.values i = .ok (prev, line) →
      Counted s (rowId prev line)
    | .idle => True
  | _ => True

/-- The view count is 0 for a counted id and -2 for any other. -/
theorem itemAt_pv {page : RangeList} {i : Nat} {fields fields' : Fields} {item : Item} {l : L}
    (hs : Consistent s) (hlisting : s.lister l = .listing page i fields)
    (h : itemAt .serve page.values i fields s.store = .ok (fields', item)) :
    0 ≤ item.pv ↔ Calm s (.score l : Event U L) := by
  obtain ⟨hi, hpage⟩ := hs.rows l page i fields hlisting
  obtain ⟨prev, line, row, score, pv, hrow, hread, hscore, hpv, rfl⟩ := itemAt_eq_ok.mp h
  have hid := readRow_id (hpage i prev line hi hrow) hread
  obtain ⟨-, rfl⟩ := toChecked_eq_ok.mp hpv
  have hcalm : Calm s (.score l : Event U L) ↔ Counted s (rowId prev line) := by
    simp only [Calm, hlisting, hrow, Except.ok.injEq, Prod.mk.injEq]
    constructor
    · intro h
      exact h prev line ⟨rfl, rfl⟩
    · rintro h _ _ ⟨rfl, rfl⟩
      exact h
  rw [hid] at hscore
  rw [hcalm]
  by_cases hcounted : Counted s (rowId prev line)
  · have hone : atoi (ascii "1") = 1 := by decide
    rw [ropZsetGetScore_serve (hs.counted _ hcounted), Score.text_one, hone, Except.ok.injEq]
      at hscore
    simp [hcounted, ← hscore]
  · rw [ropZsetGetScore_absent (hs.uncounted _ hcounted), Except.ok.injEq] at hscore
    simp [hcounted, ← hscore]

/-! ## Every interleaving is consistent -/

variable [DecidableEq U] [DecidableEq L]

omit [DecidableEq L] in
theorem push_consistent {u : U} {fileId : FileId} {value : List Byte} (hs : Consistent s)
    (hidle : s.uploader u = .idle) (hfresh : fileId ∉ s.ids)
    (hvalue : StartsWithId [fileId] value) :
    Consistent { s with
      store := pushed s.store fileInfoList value
      uploader := Function.update s.uploader u (.pushed fileId)
      ids := fileId :: s.ids } := by
  have hscore : ∀ m, scoreAt (pushed s.store fileInfoList value) fileHotZset m =
      scoreAt s.store fileHotZset m := fun m => by
    rw [scoreAt, pushed_of_ne _ fileHotZset_ne_fileInfoList, ← scoreAt]
  have hcounted := counted_pushed_iff (t := { s with
    store := pushed s.store fileInfoList value
    uploader := Function.update s.uploader u (.pushed fileId)
    ids := fileId :: s.ids }) hidle hfresh rfl rfl
  have hmono : s.ids ⊆ fileId :: s.ids := List.subset_cons_self _ _
  constructor
  case list => exact holdsList_pushed s.store fileInfoList value
  case zset => simpa [HoldsZset, pushed_of_ne _ fileHotZset_ne_fileInfoList] using hs.zset
  case elements =>
    intro e he
    rw [listAt_pushed] at he
    obtain rfl | he := List.mem_cons.mp he
    · exact hvalue.mono (List.cons_subset_cons _ (List.nil_subset _))
    · exact (hs.elements e he).mono hmono
  case pending_mem =>
    intro other hother
    obtain rfl | hother := (pending_pushed_iff hidle rfl other).mp hother
    · exact List.mem_cons_self
    · exact hmono (hs.pending_mem other hother)
  case pending_unique =>
    -- the new upload is pending at `u` only, because its id is fresh
    have honly : ∀ v, Function.update s.uploader u (.pushed fileId) v = .pushed fileId → v = u := by
      intro v hv
      by_contra hne
      rw [Function.update_of_ne hne] at hv
      exact hfresh (hs.pending_mem fileId ⟨v, hv⟩)
    have hold : ∀ v other, other ≠ fileId →
        Function.update s.uploader u (.pushed fileId) v = .pushed other →
          s.uploader v = .pushed other := by
      intro v other hother hv
      rw [Function.update_apply] at hv
      split_ifs at hv
      · exact absurd (Uploader.pushed.inj hv).symm hother
      · exact hv
    intro v w other hv hw
    by_cases hother : other = fileId
    · rw [honly v (hother ▸ hv), honly w (hother ▸ hw)]
    · exact hs.pending_unique v w other (hold v other hother hv) (hold w other hother hw)
  case counted =>
    intro m hm
    rw [hscore]
    exact hs.counted m ((hcounted m).mp hm)
  case uncounted =>
    intro m hm
    rw [hscore]
    exact hs.uncounted m (mt (hcounted m).mpr hm)
  case rows =>
    intro l page i fields hlister
    obtain ⟨hi, hpage⟩ := hs.rows l page i fields hlister
    exact ⟨hi, hpage.mono hmono⟩

omit [DecidableEq L] in
theorem count_consistent {u : U} {fileId : FileId} (hs : Consistent s)
    (hpushed : s.uploader u = .pushed fileId) :
    Consistent { s with
      store := counted s.store fileHotZset fileId.bytes
      uploader := Function.update s.uploader u .idle } := by
  have hne : fileInfoList ≠ fileHotZset := fileHotZset_ne_fileInfoList.symm
  have hfirst : scoreAt s.store fileHotZset fileId.bytes = none :=
    hs.uncounted _ (not_counted_of_pushed hpushed)
  have hcounted := counted_idle_iff (t := { s with
    store := counted s.store fileHotZset fileId.bytes
    uploader := Function.update s.uploader u .idle }) hs hpushed rfl rfl
  have hpending := pending_idle_iff (t := { s with
    store := counted s.store fileHotZset fileId.bytes
    uploader := Function.update s.uploader u .idle }) hs hpushed rfl
  constructor
  case list => simpa [HoldsList, counted_of_ne _ hne] using hs.list
  case zset => exact holdsZset_counted s.store fileHotZset fileId.bytes
  case elements => simpa [listAt, counted_of_ne _ hne] using hs.elements
  case pending_mem => exact fun other hother => hs.pending_mem other ((hpending other).mp hother).1
  case pending_unique =>
    have hold : ∀ v other, Function.update s.uploader u .idle v = .pushed other →
        s.uploader v = .pushed other := by
      intro v other hv
      rw [Function.update_apply] at hv
      split_ifs at hv
      exact hv
    exact fun v w other hv hw => hs.pending_unique v w other (hold v other hv) (hold w other hw)
  case counted =>
    intro m hm
    rw [scoreAt_counted]
    split
    · rw [incremented, hfirst, Option.getD_none]
    · next hne => exact hs.counted m (((hcounted m).mp hm).resolve_left hne)
  case uncounted =>
    intro m hm
    rw [hcounted, not_or] at hm
    rw [scoreAt_counted, if_neg hm.1]
    exact hs.uncounted m hm.2
  case rows => exact hs.rows

omit [DecidableEq U] in
/-- A lister goes on to a row of a page whose rows are listed, or stops. -/
theorem lister_consistent {l : L} {page : RangeList} {i : Nat} {fields : Fields}
    (hs : Consistent s) (hpage : RowsListed s.ids page) (items : List Item) :
    Consistent { s with
      lister := Function.update s.lister l (Lister.next page i fields)
      items := items } := by
  refine ⟨hs.list, hs.zset, hs.elements, hs.pending_mem, hs.pending_unique, hs.counted,
    hs.uncounted, ?_⟩
  intro l' page' i' fields' hlister
  by_cases hl : l' = l
  · simp only [hl, Function.update_self, Lister.next] at hlister
    split_ifs at hlister with hi
    obtain ⟨rfl, rfl, rfl⟩ := Lister.listing.inj hlister
    exact ⟨hi, hpage⟩
  · simp only [Function.update_of_ne hl] at hlister
    exact hs.rows l' page' i' fields' hlister

theorem step_consistent {e : Event U L} {s' : System S U L} (hs : Consistent s)
    (h : Step s e s') : Consistent s' := by
  cases h with
  | push hidle hfresh hrun =>
    obtain ⟨value, rfl, hvalue⟩ := pushFile_eq_ok hs.list hrun
    exact push_consistent hs hidle hfresh hvalue
  | count hpushed hrun =>
    obtain rfl := countFile_eq_ok hs.zset hrun
    exact count_consistent hs hpushed
  | range hidle hend hrun => exact lister_consistent hs (pageRows_listed hs hend hrun) s.items
  | score hlisting hrun => exact lister_consistent hs (hs.rows _ _ _ _ hlisting).2 _

theorem consistent_of_run {history : List (Event U L)}
    (hrun : Run System.initial Step history s) : Consistent s :=
  hrun.invariant initial_consistent fun _ _ _ => step_consistent

/-! ## The view counts that are printed -/

def CalmStep (s : System S U L) (e : Event U L) (s' : System S U L) : Prop :=
  Step s e s' ∧ Calm s e

/-- A step keeps the items printed so far, and the item it adds is not negative exactly if
the step is calm. -/
theorem step_items {e : Event U L} {s' : System S U L} (hs : Consistent s) (h : Step s e s') :
    (∀ item ∈ s'.items, 0 ≤ item.pv) ↔ (∀ item ∈ s.items, 0 ≤ item.pv) ∧ Calm s e := by
  cases h with
  | push hidle hfresh hrun => simp [Calm]
  | count hpushed hrun => simp [Calm]
  | range hidle hend hrun => simp [Calm]
  | score hlisting hrun => rw [List.forall_mem_cons, itemAt_pv hs hlisting hrun, and_comm]

/-- In any interleaving, no negative view count is printed exactly if every step is calm: no
lister asks for the score of an id before the second command of its upload. -/
theorem pv_nonneg_iff (history : List (Event U L)) (s : System S U L)
    (hrun : Run System.initial Step history s) :
    (∀ item ∈ s.items, 0 ≤ item.pv) ↔ Run System.initial CalmStep history s := by
  constructor
  · intro hitems
    induction hrun with
    | nil => exact .nil
    | cons hbefore hstep ih =>
      obtain ⟨hold, hcalm⟩ := (step_items (consistent_of_run hbefore) hstep).mp hitems
      exact (ih hold).cons ⟨hstep, hcalm⟩
  · intro hcalm
    clear hrun
    induction hcalm with
    | nil => simp [System.initial]
    | cons hbefore hstep ih =>
      have hs := consistent_of_run (hbefore.mono fun _ _ _ h => h.1)
      exact (step_items hs hstep.1).mpr ⟨ih, hstep.2⟩

end

/-! ## One uploader and one lister -/

def sampleId : FileId where
  toCStr := plainUpload.fileId
  delimiter_notMem := by decide
  backslash_notMem := by decide

/-- The list with the record of the upload in it. -/
def pushedStore : Store Nat := pushed (emptyStore Nat) fileInfoList plainUpload.value

def samplePush : Event Unit Unit :=
  .push () sampleId plainUpload.fileUrl plainUpload.fileName plainUpload.createTime zhao

def sampleRange : Event Unit Unit := .range () .zeroed 0 2

/-- The state between the two commands of the upload. -/
def afterPush : System Nat Unit Unit where
  store := pushedStore
  uploader := Function.update (fun _ => .idle) () (.pushed sampleId)
  lister := fun _ => .idle
  ids := [sampleId]
  items := []

/-- The state behind the second one. -/
def afterCount : System Nat Unit Unit where
  store := counted pushedStore fileHotZset sampleId.bytes
  uploader := Function.update afterPush.uploader () .idle
  lister := fun _ => .idle
  ids := [sampleId]
  items := []

theorem run_samplePush : Run System.initial Step [samplePush] afterPush := by
  have hrun : pushFile .serve sampleId.array plainUpload.fileUrl.array plainUpload.fileName.array
      plainUpload.createTime zhao (emptyStore Nat) = .ok (0, pushedStore) :=
    pushFile_applied sampleId.readString_array plainUpload.fileUrl.readString_array
      plainUpload.fileName.readString_array plainUpload.recordFits ⟨rfl, .inl rfl⟩
  exact .single (.push rfl List.not_mem_nil hrun)

theorem run_sampleCount : Run System.initial Step [.count (), samplePush] afterCount := by
  have hrun : countFile .serve sampleId.array pushedStore =
      .ok (-1, counted pushedStore fileHotZset sampleId.bytes) := by
    rw [countFile, sampleId.readString_array, ok_bind, ropZsetIncrement_applied ⟨rfl, .inl rfl⟩]
    rfl
  exact run_samplePush.cons (.count rfl hrun)

def samplePage : RangeList where
  retn := 0
  getNum := 1
  values := some { before := 0, bytes := padTo 1023 plainUpload.value ++ zeros 1025 }

theorem run_samplePage (s : System Nat Unit Unit) (pv : Int) (hidle : s.lister () = .idle)
    (hpage : pageRows .zeroed .serve 0 1 2 s.store = .ok samplePage)
    (hitem : (itemAt .serve samplePage.values 0 Fields.initial s.store).map (fun r => r.2.pv) =
      .ok pv) :
    ∃ s', Run s Step [.score (), sampleRange] s' ∧
      s'.items.map Item.pv = pv :: s.items.map Item.pv := by
  obtain ⟨⟨fields, item⟩, hrun, rfl⟩ := map_eq_ok.mp hitem
  have hend : pageEnd 0 2 = .ok 1 := by decide +kernel
  have hlisting : Function.update s.lister () (Lister.next samplePage 0 Fields.initial) () =
      .listing samplePage 0 Fields.initial := by
    rw [Function.update_self, Lister.next, if_pos (by decide)]
  have hrange := Run.single (Step.range hidle hend hpage)
  exact ⟨_, hrange.cons (.score hlisting hrun), rfl⟩

/-- A lister that asks behind both commands. -/
theorem pv_nonneg_iff_counted :
    ∃ s : System Nat Unit Unit,
      Run System.initial Step [.score (), sampleRange, .count (), samplePush] s ∧
        s.items.map Item.pv = [0] ∧
        ((∀ item ∈ s.items, 0 ≤ item.pv) ↔
          Run System.initial CalmStep [.score (), sampleRange, .count (), samplePush] s) := by
  obtain ⟨s, hlist, hitems⟩ := run_samplePage afterCount 0 rfl (by decide +kernel)
    (by decide +kernel)
  have hrun := run_sampleCount.append hlist
  exact ⟨s, hrun, hitems, pv_nonneg_iff _ s hrun⟩

/-- A lister that asks between the two commands prints -2. -/
theorem pv_negative :
    ∃ (history : List (Event Unit Unit)) (s : System Nat Unit Unit),
      Run System.initial Step history s ∧ ∃ item ∈ s.items, item.pv = -2 := by
  obtain ⟨s, hlist, hitems⟩ := run_samplePage afterPush (-2) rfl (by decide +kernel)
    (by decide +kernel)
  have hmem : (-2 : Int) ∈ s.items.map Item.pv := hitems ▸ List.mem_cons_self
  obtain ⟨item, hitem, hpv⟩ := List.mem_map.mp hmem
  exact ⟨_, s, run_samplePush.append hlist, item, hitem, hpv⟩

end CgiFileStore
