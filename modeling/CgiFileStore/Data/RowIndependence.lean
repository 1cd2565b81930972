import CgiFileStore.Data.ListingText

/-!
# Rows and the records of other rows

A column that a record does not have shows what the rows before have left in its array, and a
line feed in the name of a file takes the columns behind it from the record. The main result
says which rows of a page depend on no record but their own.
-/

namespace CgiFileStore

open CSem Search Redis

/-- The strings of a stored file, all short enough for the arrays that they reach. The name may
hold line feeds and any number of `|`. -/
structure StoredRecord where
  fileId : CStr
  fileUrl : CStr
  fileName : CStr
  createTime : CStr
  user : CStr
  plain : ∀ s ∈ [fileId, fileUrl, createTime, user],
    s.bytes ≠ [] ∧ delimiter ∉ s.bytes ∧ newline ∉ s.bytes ∧ backslash ∉ s.bytes
  quote_notMem : quote ∉ fileName.bytes
  fileName_end : lastByte delimiter fileName.bytes ≠ backslash
  fits : RecordFits fileId.bytes fileUrl.bytes fileName.bytes createTime.bytes user.bytes
  kept : (record fileId.bytes fileUrl.bytes fileName.bytes createTime.bytes user.bytes).length <
    1023
  length_fileId : fileId.bytes.length < 128
  columns : ColumnsFit 0
    (record fileId.bytes fileUrl.bytes fileName.bytes createTime.bytes user.bytes)

namespace StoredRecord

variable (r : StoredRecord)

/-- The value that is pushed. -/
def value : List Byte :=
  record r.fileId.bytes r.fileUrl.bytes r.fileName.bytes r.createTime.bytes r.user.bytes

/-- The value is what the uploader builds from the strings. -/
theorem makeRecord_value :
    (makeRecord r.fileId.array r.fileUrl.array r.fileName.array r.createTime r.user >>=
      readString) = .ok r.value := by
  rw [makeRecord_eq r.fileId.readString_array r.fileUrl.readString_array
    r.fileName.readString_array r.fits, ok_bind]
  exact readString_append_zeros (zero_notMem_record r.createTime r.user r.fileId.nul_free
    r.fileUrl.nul_free r.fileName.nul_free) (Nat.sub_pos_of_lt r.fits.2)

theorem zero_notMem_value : 0 ∉ r.value :=
  zero_notMem_record r.createTime r.user r.fileId.nul_free r.fileUrl.nul_free r.fileName.nul_free

/-- The name leaves the record its five columns: it has no line feed, or two `|` that separate
in front of the first one. -/
def Complete : Prop :=
  newline ∉ r.fileName.bytes ∨
    3 ≤ (splitFields delimiter (r.fileName.bytes.takeWhile (· ≠ newline))).length

theorem closed_of_mem {s : CStr} (hs : s ∈ [r.fileId, r.fileUrl, r.createTime, r.user])
    (prev : Byte) : Closed prev s.bytes := by
  obtain ⟨hne, hd, hn, hb⟩ := r.plain s hs
  exact closed_of_notMem hne hd hn hb

theorem newline_mem_value_iff : newline ∈ r.value ↔ newline ∈ r.fileName.bytes :=
  newline_mem_record_iff fun s hs => (r.plain s hs).2.2.1

theorem value_eq : r.value = delimited [r.fileId.bytes, r.fileUrl.bytes] ++
    (r.fileName.bytes ++ delimiter :: (delimited [r.createTime.bytes, r.user.bytes] ++
      suffixOf r.fileName.bytes)) := by
  simp [value, record, recordFields, delimited]

theorem allClosed_front (prev : Byte) : AllClosed prev [r.fileId.bytes, r.fileUrl.bytes] :=
  ⟨r.closed_of_mem (by simp) prev, r.closed_of_mem (by simp) delimiter, trivial⟩

/-- Without a line feed all fields of the record are columns, but for the suffix. -/
theorem columnsOf_value_of_notMem (h : newline ∉ r.fileName.bytes) (prev : Byte) :
    columnsOf prev r.value = [r.fileId.bytes, r.fileUrl.bytes] ++
      (splitFields delimiter r.fileName.bytes ++ ([r.createTime.bytes, r.user.bytes] ++
        (splitFields delimiter (suffixOf r.fileName.bytes)).dropLast)) := by
  have hback : AllClosed delimiter [r.createTime.bytes, r.user.bytes] :=
    ⟨r.closed_of_mem (by simp) delimiter, r.closed_of_mem (by simp) delimiter, trivial⟩
  have hfront : frontByte prev [r.fileId.bytes, r.fileUrl.bytes] = delimiter := rfl
  have hmid : frontByte delimiter [r.createTime.bytes, r.user.bytes] = delimiter := rfl
  rw [columnsOf, if_neg (mt r.newline_mem_value_iff.mp h), value_eq,
    splitFields_delimited (r.allClosed_front prev), hfront, splitFields_append r.fileName_end,
    splitFields_delimited hback, hmid, ← List.append_assoc, ← List.append_assoc,
    List.dropLast_append_of_ne_nil (splitFields_ne_nil _ _)]
  simp only [List.append_assoc]

/-- A line feed ends the columns in the name. -/
theorem columnsOf_value_of_mem (h : newline ∈ r.fileName.bytes) (prev : Byte) :
    columnsOf prev r.value = [r.fileId.bytes, r.fileUrl.bytes] ++
      splitFields delimiter (r.fileName.bytes.takeWhile (· ≠ newline)) := by
  obtain ⟨a, b, hname, ha⟩ := List.eq_append_cons_of_mem h
  have htake : r.fileName.bytes.takeWhile (· ≠ newline) = a := by
    rw [hname, takeWhile_append_newline ha]
  have hfront : newline ∉ delimited [r.fileId.bytes, r.fileUrl.bytes] ++ a := by
    have hid := (r.plain r.fileId (by simp)).2.2.1
    have hurl := (r.plain r.fileUrl (by simp)).2.2.1
    have hd : newline ≠ delimiter := by decide
    simp [delimited, hid, hurl, ha, hd]
  have hvalue : ∃ rest, r.value = delimited [r.fileId.bytes, r.fileUrl.bytes] ++ a ++
      newline :: rest := by
    refine ⟨b ++ delimiter :: (delimited [r.createTime.bytes, r.user.bytes] ++
      suffixOf r.fileName.bytes), ?_⟩
    rw [value_eq]
    nth_rewrite 1 [hname]
    simp only [List.append_assoc, List.cons_append]
  obtain ⟨rest, hvalue⟩ := hvalue
  rw [hvalue, columnsOf_append_newline hfront, splitFields_delimited (r.allClosed_front prev),
    htake]
  rfl

theorem columnsOf_value_prev (prev : Byte) : columnsOf prev r.value = columnsOf 0 r.value := by
  by_cases h : newline ∈ r.fileName.bytes
  · rw [r.columnsOf_value_of_mem h, r.columnsOf_value_of_mem h]
  · rw [r.columnsOf_value_of_notMem h, r.columnsOf_value_of_notMem h]

/-- A complete name is one that leaves the record five columns. -/
theorem complete_iff : r.Complete ↔ 5 ≤ (columnsOf 0 r.value).length := by
  have hpos := List.length_pos_iff.mpr (splitFields_ne_nil delimiter r.fileName.bytes)
  by_cases h : newline ∈ r.fileName.bytes
  · rw [Complete, or_iff_right (not_not_intro h), r.columnsOf_value_of_mem h, List.length_append]
    simp only [List.length_cons, List.length_nil]
    omega
  · rw [Complete, or_iff_left_of_imp fun _ => h, r.columnsOf_value_of_notMem h]
    simp only [h, not_false_eq_true, true_iff, List.length_append, List.length_cons,
      List.length_nil]
    omega

theorem columnsFit (prev : Byte) : ColumnsFit prev r.value := by
  obtain ⟨hends, hurl, hname, htime, huser⟩ := r.columns
  rw [← value, ← r.columnsOf_value_prev prev] at *
  exact ⟨hends, hurl, hname, htime, huser⟩

/-- The row of a record, whatever the rows before have left in the arrays. -/
theorem readRow_value {prev : Byte} {rest : List Byte} {fields : Fields} (hready : fields.Ready) :
    ∃ fields', readRow prev (r.value ++ rest) fields =
      .ok (fields', rowOf prev r.fileId.bytes r.value fields) := by
  obtain ⟨tail, hvalue⟩ : ∃ tail, r.value = r.fileId.bytes ++ delimiter :: tail :=
    exists_record_eq _ _ _ _ _
  have hkept : r.value.length < 1023 := r.kept
  have hfirst : (firstColumn prev r.fileId.bytes).length < 128 :=
    (firstColumn_isPrefix prev _).length_le.trans_lt r.length_fileId
  exact readRow_of_columnsFit rest hready r.zero_notMem_value hvalue (by omega) hfirst
    (r.columnsFit prev)

end StoredRecord

/-- The strings that a row takes from its record. -/
def Row.columns (row : Row) : List (List Byte) :=
  [row.id, row.titleM, row.titleS, row.descrip, row.url]

theorem columns_rowOf {prev : Byte} {fileId value : List Byte} (fields fields' : Fields)
    (h : 5 ≤ (columnsOf prev value).length) :
    (rowOf prev fileId value fields).columns = (rowOf prev fileId value fields').columns := by
  have hget : ∀ k < 5, ∀ s t : List Byte, (columnsOf prev value)[k]?.getD s =
      (columnsOf prev value)[k]?.getD t := by
    intro k hk s t
    rw [List.getElem?_eq_getElem (by omega), Option.getD_some, Option.getD_some]
  simp only [Row.columns, rowOf, List.cons.injEq, true_and, and_true]
  exact ⟨hget 2 (by decide) _ _, hget 4 (by decide) _ _, hget 3 (by decide) _ _,
    hget 1 (by decide) _ _⟩

/-! ## Pages of records -/

/-- The list can be changed so that the page copies another value in one place. -/
theorem exists_copiedRows_set (l : List (List Byte)) (fromId endId : Int) (k : Nat)
    (v : List Byte) :
    ∃ l', copiedRows l' fromId endId = (copiedRows l fromId endId).set k v := by
  have hrange : ∃ l', lrange l' fromId endId = (lrange l fromId endId).set k v := by
    refine ⟨l.set ((if fromId < 0 then max (fromId + l.length) 0 else fromId).toNat + k) v, ?_⟩
    simp only [lrange, List.length_set]
    rw [← List.set_drop, List.take_set]
  obtain ⟨l', hl'⟩ := hrange
  exact ⟨l', by rw [copiedRows, copiedRows, hl', List.length_set, List.take_set]⟩

section

variable {S : Type} [Score S] {env : ListEnv} {st st' : Store S} {fromId count : Int}
  {rs rs' : List StoredRecord} {page page' : RangeList} {items items' : List Item}

/-- The records are the ones that a page copies. -/
def PageHolds (st : Store S) (fromId count : Int) (rs : List StoredRecord) : Prop :=
  copiedRows (listAt st fileInfoList) fromId (fromId + count - 1) = rs.map StoredRecord.value

/-- A page of records, and the items that it is listed as. -/
structure Listed (env : ListEnv) (st : Store S) (fromId count : Int) (rs : List StoredRecord)
    (page : RangeList) (items : List Item) : Prop where
  holds : PageHolds st fromId count rs
  rows : pageRows env.alloc .serve fromId (fromId + count - 1) count st = .ok page
  items : itemLoop env st page.values rs.length 0 Fields.initial = .ok items

/-- A page with a row has been served. -/
theorem range_eq_serve (h : listedItems env fromId count st = .ok items) (hne : items ≠ []) :
    env.range = .serve := by
  obtain ⟨endId, -, h⟩ := bind_eq_ok.mp h
  obtain ⟨page, hpage, h⟩ := bind_eq_ok.mp h
  obtain ⟨size, -, hpage⟩ := bind_eq_ok.mp hpage
  cases hrange : env.range with
  | serve => rfl
  | refuse message =>
    have hcount : maxCount 0 endId = 0 := if_neg (Nat.not_lt_zero _)
    rw [hrange] at hpage
    simp only [ropRangeList, redisCommand, Reply.elements, List.length_nil, hcount] at hpage
    obtain ⟨values, -, hpage⟩ := bind_eq_ok.mp hpage
    obtain rfl := Except.ok.inj hpage
    exact absurd (Except.ok.inj h).symm hne
  | lost =>
    rw [hrange] at hpage
    cases hpage

theorem listed_of_listedItems (hrange : env.range = .serve) (hholds : PageHolds st fromId count rs)
    (h : listedItems env fromId count st = .ok items) :
    ∃ page, Listed env st fromId count rs page items := by
  obtain ⟨endId, hend, h⟩ := bind_eq_ok.mp h
  obtain ⟨-, hint, rfl⟩ := pageEnd_eq_ok.mp hend
  obtain ⟨page, hpage, h⟩ := bind_eq_ok.mp h
  rw [hrange] at hpage
  have hlen := length_copiedRows (listAt st fileInfoList) fromId hint
  rw [hholds, List.length_map, ← getNum_pageRows env.alloc st fromId _ hpage] at hlen
  exact ⟨page, hholds, hpage, hlen ▸ h⟩

theorem Listed.listedItems (h : Listed env st fromId count rs page items)
    (hrange : env.range = .serve) {endId : Int} (hend : pageEnd fromId count = .ok endId) :
    listedItems env fromId count st = .ok items := by
  obtain ⟨-, hint, rfl⟩ := pageEnd_eq_ok.mp hend
  have hlen := length_copiedRows (listAt st fileInfoList) fromId hint
  rw [h.holds, List.length_map, ← getNum_pageRows env.alloc st fromId _ h.rows] at hlen
  rw [CgiFileStore.listedItems, hend, ok_bind, hrange, h.rows, ok_bind, ← hlen, h.items]

omit [Score S] in
/-- Where the loop finds a record of the page. -/
theorem PageHolds.rowAt (hholds : PageHolds st fromId count rs)
    (hrows : pageRows env.alloc .serve fromId (fromId + count - 1) count st = .ok page) {i : Nat}
    {r : StoredRecord} (hr : rs[i]? = some r) :
    ∃ b prev rest, env.alloc.malloc (toSize (count * 1024)) = some b ∧
      b.prev (i * valuesIdSize) = .ok prev ∧
        CgiFileStore.rowAt page.values i = .ok (prev, r.value ++ rest) := by
  have hvalue : (copiedRows (listAt st fileInfoList) fromId (fromId + count - 1))[i]? =
      some r.value := by
    rw [hholds, List.getElem?_map, hr]
    rfl
  exact rowAt_value env.alloc st fromId _ hrows hvalue r.zero_notMem_value
    (r.kept.le.trans (by decide))

/-- The round of a record on a page that is listed. -/
theorem Listed.round (h : Listed env st fromId count rs page items) {i : Nat} {r : StoredRecord}
    (hr : rs[i]? = some r) :
    ∃ b prev fields fields' item, env.alloc.malloc (toSize (count * 1024)) = some b ∧
      b.prev (i * valuesIdSize) = .ok prev ∧ fieldsAt env st page.values i = .ok fields ∧
        itemAt (env.score i) page.values i fields st = .ok (fields', item) ∧
          items[i]? = some item ∧ item.toRow = rowOf prev r.fileId.bytes r.value fields := by
  have hi : i < items.length := by
    rw [length_itemLoop h.items]
    exact (List.getElem?_eq_some_iff.mp hr).1
  obtain ⟨b, prev, rest, hb, hprev, hrow⟩ := h.holds.rowAt h.rows hr
  obtain ⟨fields, fields', hfields, hround⟩ := itemLoop_getElem h.items
    (List.getElem?_eq_getElem hi)
  rw [Nat.zero_add] at hround
  obtain ⟨prev', line', hrow', hread⟩ := itemAt_readRow hround
  rw [hrow, Except.ok.injEq, Prod.mk.injEq] at hrow'
  obtain ⟨rfl, rfl⟩ := hrow'
  obtain ⟨fields'', hshown⟩ := r.readRow_value (fieldsAt_ready hfields)
  rw [hshown, Except.ok.injEq, Prod.mk.injEq] at hread
  exact ⟨b, prev, fields, fields', _, hb, hprev, hfields, hround, List.getElem?_eq_getElem hi,
    hread.2.symm⟩

/-- A row that has all its columns, or no row before it, shows its own record. -/
theorem Listed.columns_eq (h : Listed env st fromId count rs page items)
    (h' : Listed env st' fromId count rs' page' items') {i : Nat} {r : StoredRecord}
    (hr : rs[i]? = some r) (hr' : rs'[i]? = some r) (hown : i = 0 ∨ r.Complete) :
    (items'[i]?).map (·.toRow.columns) = (items[i]?).map (·.toRow.columns) := by
  obtain ⟨b, prev, fields, _, item, hb, hprev, hfields, -, hitem, hrow⟩ := h.round hr
  obtain ⟨b', prev', fields', _, item', hb', hprev', hfields', -, hitem', hrow'⟩ := h'.round hr'
  obtain rfl : b = b' := Option.some.inj (hb.symm.trans hb')
  obtain rfl : prev = prev' := Except.ok.inj (hprev.symm.trans hprev')
  rw [hitem, hitem', Option.map_some, Option.map_some, hrow, hrow', Option.some.injEq]
  rcases hown with rfl | hcomplete
  · obtain rfl : Fields.initial = fields := Except.ok.inj hfields
    obtain rfl : Fields.initial = fields' := Except.ok.inj hfields'
    rfl
  · apply columns_rowOf
    rw [r.columnsOf_value_prev prev]
    exact r.complete_iff.mp hcomplete

/-! ## Another record on the page -/

theorem Listed.isInt_count (h : Listed env st fromId count rs page items) :
    IsInt (count * 1024) :=
  isInt_of_pageRows env.alloc st fromId _ h.rows

/-- Another record with the same id can take the place of a record of a page: the page is
listed all the same. -/
theorem Listed.exists_set (h : Listed env st fromId count rs page items) {k : Nat}
    {old : StoredRecord} (hold : rs[k]? = some old) (new : StoredRecord)
    (hid : new.fileId = old.fileId) :
    ∃ (st' : Store S) (page' : RangeList) (items' : List Item),
      Listed env st' fromId count (rs.set k new) page' items' := by
  obtain ⟨l', hl'⟩ := exists_copiedRows_set (listAt st fileInfoList) fromId (fromId + count - 1) k
    new.value
  let st' : Store S := Function.update st fileInfoList (some (.list l'))
  have hlist : listAt st' fileInfoList = l' := by
    simp only [listAt, st', Function.update_self]
  have hholds : PageHolds st' fromId count (rs.set k new) := by
    rw [PageHolds, hlist, hl', h.holds, List.map_set]
  have hlen : (copiedRows (listAt st' fileInfoList) fromId (fromId + count - 1)).length =
      (copiedRows (listAt st fileInfoList) fromId (fromId + count - 1)).length := by
    rw [hlist, hl', List.length_set]
  have hzset : st' fileHotZset = st fileHotZset :=
    Function.update_of_ne fileHotZset_ne_fileInfoList _ _
  obtain ⟨page', hpage'⟩ : ∃ page',
      pageRows env.alloc .serve fromId (fromId + count - 1) count st' = .ok page' := by
    have hok := (pageRows_isOk_iff env.alloc st fromId _ h.isInt_count).mp ⟨page, h.rows⟩
    rw [pageRows_isOk_iff env.alloc st' fromId _ h.isInt_count, hlen, ← List.length_eq_zero_iff,
      hlen, List.length_eq_zero_iff]
    exact hok
  have hround : ∀ j < rs.length, ∀ fields1 : Fields, fields1.Ready → ∃ fields2 item,
      itemAt (env.score (0 + j)) page'.values (0 + j) fields1 st' = .ok (fields2, item) ∧ True := by
    intro j hj fields1 hready
    obtain ⟨r, hr⟩ : ∃ r, rs[j]? = some r := ⟨_, List.getElem?_eq_getElem hj⟩
    obtain ⟨r', hr', hsame⟩ : ∃ r', (rs.set k new)[j]? = some r' ∧ r'.fileId = r.fileId := by
      by_cases hk : k = j
      · subst hk
        rw [hold, Option.some.injEq] at hr
        exact ⟨new, List.getElem?_set_self hj, hid.trans (congrArg _ hr)⟩
      · exact ⟨r, by rw [List.getElem?_set_ne hk, hr], rfl⟩
    obtain ⟨b, prev, fields, fields', item, hb, hprev, -, hround, -, hrow⟩ := h.round hr
    obtain ⟨b', prev', rest, hb', hprev', hrow'⟩ := hholds.rowAt hpage' hr'
    obtain rfl : b = b' := Option.some.inj (hb.symm.trans hb')
    obtain rfl : prev = prev' := Except.ok.inj (hprev.symm.trans hprev')
    obtain ⟨fields2, hread⟩ := r'.readRow_value hready
    obtain ⟨_, _, row, score, pv, -, -, hscore, hpv, rfl⟩ := itemAt_eq_ok.mp hround
    have hrowId : row.id = (rowOf prev r'.fileId.bytes r'.value fields1).id := by
      have hid : row.id = firstColumn prev r.fileId.bytes := congrArg Row.id hrow
      rw [hid, ← hsame]
      rfl
    rw [← ropZsetGetScore_congr hzset, hrowId] at hscore
    rw [Nat.zero_add]
    exact ⟨fields2, _, itemAt_eq_ok.mpr ⟨_, _, _, score, pv, hrow', hread, hscore, hpv, rfl⟩,
      trivial⟩
  obtain ⟨items', hitems', -, -⟩ := itemLoop_of_rounds Fields.initial_ready hround
  exact ⟨st', page', items', hholds, hpage', by rwa [List.length_set]⟩

/-! ## A row that misses a column -/

/-- A row without a column for the user shows the user of the row before. -/
theorem Listed.titleS_eq (h : Listed env st fromId count rs page items) {k : Nat}
    {r : StoredRecord} {before item : Item} (hr : rs[k + 1]? = some r) (hodd : ¬ r.Complete)
    (hbefore : items[k]? = some before) (hitem : items[k + 1]? = some item) :
    item.titleS = before.titleS := by
  obtain ⟨b, prev, fields, fields', item', -, -, hfields, -, hitem', hrow⟩ := h.round hr
  obtain rfl : item = item' := Option.some.inj (hitem.symm.trans hitem')
  -- the arrays that the row starts with are the ones that the row before has read into
  obtain ⟨fields1, fields2, hafter, hround⟩ := itemLoop_getElem h.items hbefore
  have hsucc := fieldsAfter_succ hafter hround
  obtain rfl : fields2 = fields := Except.ok.inj (hsucc.symm.trans hfields)
  obtain ⟨prev', line, -, hread⟩ := itemAt_readRow hround
  have hready := fieldsAfter_ready Fields.initial_ready hafter
  obtain ⟨-, -, ⟨-, huser⟩, -⟩ := readRow_inv hready.toSized hread
  obtain ⟨-, huser⟩ := readString_eq_ok huser
  have hmissing : (columnsOf prev r.value)[4]? = none := by
    have hlen := mt r.complete_iff.mpr hodd
    rw [r.columnsOf_value_prev prev, List.getElem?_eq_none_iff]
    omega
  calc item.titleS
      = (rowOf prev r.fileId.bytes r.value fields2).titleS := congrArg Row.titleS hrow
    _ = cstring fields2.user := by simp only [rowOf, hmissing, Option.getD_none]
    _ = before.titleS := huser.symm

/-- An upload with a readable name, as a record. -/
def Upload.stored (u : Upload) (hname : u.NameReadable) : StoredRecord where
  fileId := u.fileId
  fileUrl := u.fileUrl
  fileName := u.fileName
  createTime := u.createTime
  user := u.user
  plain := u.plain
  quote_notMem := u.quote_notMem
  fileName_end := hname.2
  fits := u.recordFits
  kept := u.length_value.trans_lt (by decide)
  length_fileId := u.length_fileId
  columns := Upload.columnsFit_value hname 0

theorem StoredRecord.length_fileUrl (r : StoredRecord) : r.fileUrl.bytes.length < 256 := by
  refine r.columns.fileUrl _ ?_
  rw [← value]
  by_cases h : newline ∈ r.fileName.bytes
  · rw [r.columnsOf_value_of_mem h]
    rfl
  · rw [r.columnsOf_value_of_notMem h]
    rfl

/-- Some other user has stored the file, under another name and at another time. -/
theorem StoredRecord.exists_other_user (r : StoredRecord) (shown : List Byte) :
    ∃ (u : Upload) (_ : u.NameReadable), u.fileId = r.fileId ∧ u.user.bytes ≠ shown := by
  obtain ⟨user, hplain, hlen, hne⟩ : ∃ user : CStr,
      (user.bytes ≠ [] ∧ delimiter ∉ user.bytes ∧ newline ∉ user.bytes ∧
        backslash ∉ user.bytes) ∧ user.bytes.length < 128 ∧ user.bytes ≠ shown := by
    by_cases h : ascii "a" = shown
    · exact ⟨⟨ascii "b", by decide⟩, by decide, by decide, by rw [← h]; decide⟩
    · exact ⟨⟨ascii "a", by decide⟩, by decide, by decide, h⟩
  let u : Upload :=
    { fileId := r.fileId
      fileUrl := r.fileUrl
      fileName := ⟨ascii "n", by decide⟩
      createTime := ⟨ascii "t", by decide⟩
      user
      plain := by
        intro s hs
        simp only [List.mem_cons, List.not_mem_nil, or_false] at hs
        obtain rfl | rfl | rfl | rfl := hs
        · exact r.plain _ (by simp)
        · exact r.plain _ (by simp)
        · decide
        · exact hplain
      fileName_ne_nil := by decide
      quote_notMem := by decide
      length_fileId := r.length_fileId
      length_fileUrl := r.length_fileUrl
      length_fileName := by decide
      length_createTime := by decide
      length_user := hlen
      length_suffix := by decide }
  exact ⟨u, (by decide : Closed delimiter (ascii "n")), rfl, hne⟩

/-- A record that is not complete shows the user of the record before, whoever that is. -/
theorem Listed.exists_columns_ne (h : Listed env st fromId count rs page items) {k : Nat}
    {r : StoredRecord} (hr : rs[k + 1]? = some r) (hodd : ¬ r.Complete) (item : Item) :
    ∃ (st' : Store S) (rs' : List StoredRecord) (page' : RangeList) (items' : List Item),
      Listed env st' fromId count rs' page' items' ∧ rs'[k + 1]? = some r ∧
        (items'[k + 1]?).map (·.toRow.columns) ≠ some item.toRow.columns := by
  have hk : k + 1 < rs.length := (List.getElem?_eq_some_iff.mp hr).1
  obtain ⟨old, hold⟩ : ∃ old, rs[k]? = some old := ⟨_, List.getElem?_eq_getElem (by omega)⟩
  obtain ⟨u, hname, hid, hne⟩ := old.exists_other_user item.titleS
  obtain ⟨st', page', items', h'⟩ := h.exists_set hold (u.stored hname) hid
  have hr' : (rs.set k (u.stored hname))[k + 1]? = some r := by
    rw [List.getElem?_set_ne (by omega), hr]
  have hu : (rs.set k (u.stored hname))[k]? = some (u.stored hname) :=
    List.getElem?_set_self (by omega)
  refine ⟨st', _, page', items', h', hr', ?_⟩
  obtain ⟨b, prev, fields, _, before, -, -, -, -, hbefore, hrow⟩ := h'.round hu
  obtain ⟨_, _, _, _, after, -, -, -, -, hafter, -⟩ := h'.round hr'
  obtain ⟨more, hcols⟩ := Upload.columnsOf_value hname prev
  have hshown : before.titleS = u.user.bytes := by
    have hvalue : (u.stored hname).value = u.value := rfl
    rw [hrow, hvalue]
    simp only [rowOf, hcols]
    rfl
  rw [hafter, Option.map_some, ne_eq, Option.some.injEq]
  intro hsame
  have htitle : after.titleS = item.titleS := by
    simp only [Row.columns, List.cons.injEq] at hsame
    exact hsame.2.2.1
  exact hne (hshown.symm.trans ((h'.titleS_eq hr' hodd hbefore hafter).symm.trans htitle))

end

/-! ## Rows that depend on their own record only -/

/-- A row that is listed depends on no record but its own exactly when it is the first of its
page, or its record is complete. -/
theorem row_independent_iff {S : Type} [Score S] (env : ListEnv) (st : Store S)
    (fromId count : Int) (rs : List StoredRecord) (items : List Item) (i : Nat) (r : StoredRecord)
    (item : Item) (hholds : PageHolds st fromId count rs)
    (hlisted : listedItems env fromId count st = .ok items) (hr : rs[i]? = some r)
    (hitem : items[i]? = some item) :
    (∀ (st' : Store S) (rs' : List StoredRecord) (items' : List Item),
        PageHolds st' fromId count rs' → rs'[i]? = some r →
          listedItems env fromId count st' = .ok items' →
            (items'[i]?).map (·.toRow.columns) = some item.toRow.columns) ↔
      i = 0 ∨ r.Complete := by
  have hne : items ≠ [] := by
    rintro rfl
    cases hitem
  have hrange := range_eq_serve hlisted hne
  obtain ⟨page, h⟩ := listed_of_listedItems hrange hholds hlisted
  constructor
  · intro hall
    by_contra hown
    rw [not_or] at hown
    obtain ⟨k, rfl⟩ := Nat.exists_eq_succ_of_ne_zero hown.1
    obtain ⟨st', rs', page', items', h', hr', hother⟩ := h.exists_columns_ne hr hown.2 item
    obtain ⟨endId, hend, -⟩ := bind_eq_ok.mp hlisted
    exact hother (hall st' rs' items' h'.holds hr' (h'.listedItems hrange hend))
  · intro hown st' rs' items' hholds' hr' hlisted'
    obtain ⟨page', h'⟩ := listed_of_listedItems hrange hholds' hlisted'
    rw [h.columns_eq h' hr hr' hown, hitem, Option.map_some]

/-- The record of the upload of `a.c`. -/
def plainRecord : StoredRecord :=
  plainUpload.stored (by decide : Closed delimiter plainUpload.fileName.bytes)

theorem row_independent_second :
    (∀ (st' : Store Nat) (rs' : List StoredRecord) (items' : List Item),
        PageHolds st' 0 3 rs' → rs'[1]? = some plainRecord →
          listedItems servedListing 0 3 st' = .ok items' →
            (items'[1]?).map (·.toRow.columns) =
              some (plainUpload.shownItem (holding 2 plainUpload) 0).toRow.columns) ↔
      1 = 0 ∨ plainRecord.Complete :=
  row_independent_iff servedListing (holding 2 plainUpload) 0 3 [plainRecord, plainRecord]
    (List.replicate 2 (plainUpload.shownItem (holding 2 plainUpload) 0)) 1 plainRecord
    (plainUpload.shownItem (holding 2 plainUpload) 0) (by unfold PageHolds; decide +kernel)
    (by decide +kernel) rfl rfl

/-- Two uploads to an empty server, the first with a line feed in its name: whoever makes the
second one is shown as the user of both. -/
theorem row_independent_newline :
    let name : CStr := ⟨ascii "a\nb.c", by decide⟩
    let store (name user : CStr) (st : Store Nat) :=
      (fileMsgStoreToRedis
        { connected := true
          allocated := true
          createTime := plainUpload.createTime
          push := .serve
          count := .serve }
        plainUpload.fileId.array plainUpload.fileUrl.array name.array user st).map Prod.snd
    let shown (user : CStr) :=
      (store name zhao (emptyStore Nat) >>= store plainUpload.fileName user >>=
        listedItems servedListing 0 3).map fun items => items.map (·.titleS)
    shown ⟨ascii "a", by decide⟩ = .ok [ascii "a", ascii "a"] ∧
      shown ⟨ascii "b", by decide⟩ = .ok [ascii "b", ascii "b"] := by
  decide +kernel

end CgiFileStore
