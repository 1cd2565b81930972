import CgiFileStore.Data.Paging
import CgiFileStore.Data.RowColumns
import CgiFileStore.Echo.Store

/-!
# From the uploader's record to the lister's row

The uploader joins five strings and a suffix with `|` and escapes nothing. The lister ends a
column at a `|` that does not stand behind a backslash, and at a line feed. The main result
says for which file names the row read back is the upload.
-/

namespace CgiFileStore

open CSem Search Redis

/-! ## The record -/

theorem record_eq_append (fileId fileUrl fileName createTime user : List Byte) :
    record fileId fileUrl fileName createTime user =
      fileId ++ delimiter :: (fileUrl ++ delimiter :: (fileName ++ delimiter :: createTime)) ++
        delimiter :: (user ++ delimiter :: suffixOf fileName) := by
  simp [record, recordFields]

theorem exists_record_eq (fileId fileUrl fileName createTime user : List Byte) :
    ∃ more, record fileId fileUrl fileName createTime user = fileId ++ delimiter :: more := by
  rw [record_eq_append, List.append_assoc]
  exact ⟨_, rfl⟩

/-- A line feed of a record that has none in its other fields is one of the name. -/
theorem newline_mem_record_iff {fileId fileUrl fileName createTime user : CStr}
    (h : ∀ s ∈ [fileId, fileUrl, createTime, user], newline ∉ s.bytes) :
    newline ∈ record fileId.bytes fileUrl.bytes fileName.bytes createTime.bytes user.bytes ↔
      newline ∈ fileName.bytes := by
  have hid := h fileId (by simp)
  have hurl := h fileUrl (by simp)
  have htime := h createTime (by simp)
  have huser := h user (by simp)
  have hsuffix : newline ∈ suffixOf fileName.bytes → newline ∈ fileName.bytes := fun hmem =>
    (mem_of_mem_suffixOf hmem).resolve_right (by decide)
  have hd : newline ≠ delimiter := by decide
  simp only [record_eq_append, List.mem_append, List.mem_cons, hid, hurl, htime, huser, hd,
    false_or, or_false]
  exact or_iff_left_of_imp hsuffix

/-! ## Uploads -/

/-- The strings of an upload, each short enough for the arrays it is copied into. -/
structure Upload where
  fileId : CStr
  fileUrl : CStr
  fileName : CStr
  createTime : CStr
  user : CStr
  plain : ∀ s ∈ [fileId, fileUrl, createTime, user],
    s.bytes ≠ [] ∧ delimiter ∉ s.bytes ∧ newline ∉ s.bytes ∧ backslash ∉ s.bytes
  fileName_ne_nil : fileName.bytes ≠ []
  quote_notMem : quote ∉ fileName.bytes
  length_fileId : fileId.bytes.length < 128
  length_fileUrl : fileUrl.bytes.length < 256
  length_fileName : fileName.bytes.length < 128
  length_createTime : createTime.bytes.length < 64
  length_user : user.bytes.length < 128
  length_suffix : (suffixOf fileName.bytes).length < 32

namespace Upload

variable (u : Upload)

/-- The value that is pushed. -/
def value : List Byte :=
  record u.fileId.bytes u.fileUrl.bytes u.fileName.bytes u.createTime.bytes u.user.bytes

/-- The row shows the strings of the upload. -/
structure Decoded (row : Row) : Prop where
  id : row.id = u.fileId.bytes
  url : row.url = u.fileUrl.bytes
  name : row.titleM = u.fileName.bytes
  time : row.descrip = u.createTime.bytes
  user : row.titleS = u.user.bytes

/-- A file name that the column reader does not cut or extend: it has no line feed, a
backslash in front of each of its `|`, and none at its end. -/
def NameReadable : Prop := Closed delimiter u.fileName.bytes

theorem closed_of_mem {s : CStr} (hs : s ∈ [u.fileId, u.fileUrl, u.createTime, u.user])
    (prev : Byte) : Closed prev s.bytes := by
  obtain ⟨hne, hd, hn, hb⟩ := u.plain s hs
  exact closed_of_notMem hne hd hn hb

theorem length_value : u.value.length ≤ 735 := by
  have h1 := u.length_fileId
  have h2 := u.length_fileUrl
  have h3 := u.length_fileName
  have h4 := u.length_createTime
  have h5 := u.length_user
  have h6 := u.length_suffix
  simp only [value, record, recordFields, List.flatten_cons, List.flatten_nil, List.length_append,
    List.length_cons, List.length_nil]
  omega

theorem recordFits :
    RecordFits u.fileId.bytes u.fileUrl.bytes u.fileName.bytes u.createTime.bytes u.user.bytes := by
  have hlen := u.length_value
  have hsuffix := u.length_suffix
  rw [value] at hlen
  exact ⟨by omega, by omega⟩

theorem zero_notMem_value : 0 ∉ u.value :=
  zero_notMem_record u.createTime u.user u.fileId.nul_free u.fileUrl.nul_free u.fileName.nul_free

/-- `makeRecord` builds the value, for arrays that hold the strings of the upload. -/
theorem makeRecord_value {v : List Byte}
    (h : (makeRecord u.fileId.array u.fileUrl.array u.fileName.array u.createTime u.user >>=
      readString) = .ok v) : v = u.value := by
  have hread := readString_append_zeros u.zero_notMem_value (Nat.sub_pos_of_lt u.recordFits.2)
  rw [makeRecord_eq u.fileId.readString_array u.fileUrl.readString_array
    u.fileName.readString_array u.recordFits, ok_bind] at h
  exact Except.ok.inj (h.symm.trans hread)

/-- The row of the value starts with the value. -/
theorem line_eq {line rest : List Byte} (h : line = padTo 1023 (cstring u.value) ++ rest) :
    ∃ tail, line = u.value ++ tail := by
  rw [padTo_cstring u.zero_notMem_value (u.length_value.trans (by decide)), List.append_assoc] at h
  exact ⟨_, h⟩

theorem value_eq_delimited :
    u.value = delimited [u.fileId.bytes, u.fileUrl.bytes, u.fileName.bytes, u.createTime.bytes,
      u.user.bytes] ++ suffixOf u.fileName.bytes := by
  simp [value, record, recordFields, delimited]

section

variable {u} {prev : Byte} {line tail : List Byte} {fields : Fields}

theorem allClosed_of_readable (hname : u.NameReadable) (prev : Byte) :
    AllClosed prev [u.fileId.bytes, u.fileUrl.bytes, u.fileName.bytes, u.createTime.bytes,
      u.user.bytes] :=
  ⟨u.closed_of_mem (by simp) prev, u.closed_of_mem (by simp) delimiter, hname,
    u.closed_of_mem (by simp) delimiter, u.closed_of_mem (by simp) delimiter, trivial⟩

theorem newline_notMem_value (hname : u.NameReadable) : newline ∉ u.value := by
  rw [value, newline_mem_record_iff fun s hs => (u.plain s hs).2.2.1]
  exact newline_notMem_of_unbroken hname.1

/-- The columns of an upload with a readable name are its strings. -/
theorem columnsOf_value (hname : u.NameReadable) (prev : Byte) :
    ∃ more, columnsOf prev u.value = [u.fileId.bytes, u.fileUrl.bytes, u.fileName.bytes,
      u.createTime.bytes, u.user.bytes] ++ more := by
  refine ⟨(splitFields delimiter (suffixOf u.fileName.bytes)).dropLast, ?_⟩
  rw [columnsOf, if_neg (newline_notMem_value hname), value_eq_delimited,
    splitFields_delimited (allClosed_of_readable hname prev),
    List.dropLast_append_of_ne_nil (splitFields_ne_nil _ _)]
  rfl

/-- Behind any byte but a backslash, the row of an upload with a readable name is decoded. -/
theorem decoded_of_readable (hprev : prev ≠ backslash) (hname : u.NameReadable)
    (hfields : fields.Sized) (hline : line = u.value ++ tail) :
    ∃ fields' row, readRow prev line fields = .ok (fields', row) ∧ u.Decoded row := by
  obtain ⟨more, hcols⟩ := columnsOf_value hname prev
  obtain ⟨rest, hvalue⟩ : ∃ rest, u.value = u.fileId.bytes ++ delimiter :: rest :=
    exists_record_eq ..
  obtain ⟨-, hd, -, hb⟩ := u.plain u.fileId (by simp)
  have hshort : u.value.length ≤ 1022 := u.length_value.trans (by decide)
  have hcolumn : ∀ (col : Nat) {f buf : List Byte} (_ : 2 ≤ col)
      (_ : (columnsOf prev u.value)[col - 1]? = some f) (_ : f.length < buf.length),
      ∃ t, columnInto prev line col buf = .ok (f ++ 0 :: t) := by
    intro col f buf hcol hget hfit
    rw [hline, columnInto_getElem hcol hget hshort, if_pos hfit]
    exact ⟨_, rfl⟩
  have c1 : ∃ t, columnInto prev line 1 fields.fileId = .ok (u.fileId.bytes ++ 0 :: t) := by
    have hfit : u.fileId.bytes.length < fields.fileId.length := by
      rw [hfields.fileId]
      exact u.length_fileId
    have hlen : u.fileId.bytes.length ≤ 1022 := u.length_fileId.le.trans (by decide)
    rw [hline, hvalue, List.append_assoc, List.cons_append, columnInto_firstColumn prev hlen,
      firstColumn_of_notMem hd hb, if_neg hprev, if_pos hfit]
    exact ⟨_, rfl⟩
  have c2 := hcolumn 2 (by decide) (hcols ▸ rfl) (hfields.fileUrl ▸ u.length_fileUrl)
  have c3 := hcolumn 3 (by decide) (hcols ▸ rfl) (hfields.filename ▸ u.length_fileName)
  have c4 := hcolumn 4 (by decide) (hcols ▸ rfl) (hfields.createTime ▸ u.length_createTime)
  have c5 := hcolumn 5 (by decide) (hcols ▸ rfl) (hfields.user ▸ u.length_user)
  obtain ⟨fields', hrow⟩ := readRow_eq hfields c1 c3 c5 c4 c2 ⟨u.fileId.nul_free,
    u.fileName.nul_free, u.user.nul_free, u.createTime.nul_free, u.fileUrl.nul_free⟩
    u.length_suffix
  exact ⟨fields', _, hrow, rfl, rfl, rfl, rfl, rfl⟩

/-- A decoded row does not stand behind a backslash. -/
theorem prev_of_decoded {fields' : Fields} {row : Row}
    (hline : line = u.value ++ tail) (hrow : readRow prev line fields = .ok (fields', row))
    (hdec : u.Decoded row) : prev ≠ backslash := by
  rintro rfl
  obtain ⟨hne, hd, -, hb⟩ := u.plain u.fileId (by simp)
  obtain ⟨⟨buf, hbuf, hread⟩, -⟩ := readRow_columns hrow
  obtain ⟨rest, hvalue⟩ : ∃ rest, u.value = u.fileId.bytes ++ delimiter :: rest :=
    exists_record_eq ..
  rw [hline, hvalue, List.append_assoc, List.cons_append] at hbuf
  obtain ⟨t, rfl⟩ := columnInto_first_eq_ok (u.length_fileId.le.trans (by decide)) hbuf
  -- the column is empty but the id is not
  rw [firstColumn_of_notMem hd hb, if_pos rfl, hdec.id,
    readString_append_zero (s := []) List.not_mem_nil t, Except.ok.injEq] at hread
  exact hne hread.symm

/-- A decoded row has a readable name: any other is cut at its first break, or extended over
the delimiter behind it. -/
theorem readable_of_decoded {fields' : Fields} {row : Row}
    (hline : line = u.value ++ tail) (hrow : readRow prev line fields = .ok (fields', row))
    (hdec : u.Decoded row) : u.NameReadable := by
  have hid := u.closed_of_mem (s := u.fileId) (by simp) prev
  have hurl := u.closed_of_mem (s := u.fileUrl) (by simp) delimiter
  have hall2 : AllClosed prev [u.fileId.bytes, u.fileUrl.bytes] := ⟨hid, hurl, trivial⟩
  have hlen := u.length_fileName
  obtain ⟨-, buf, hbuf, hread⟩ := readRow_columns hrow
  rw [hdec.name] at hread
  by_cases hquiet : Unbroken delimiter u.fileName.bytes
  · refine ⟨hquiet, fun hlast => ?_⟩
    have htime := u.closed_of_mem (s := u.createTime) (by simp) delimiter
    have hlong := closed_append_delimiter hquiet hlast htime
    obtain ⟨t, rfl⟩ := columnInto_eq_ok hall2 (by simp) hlong.1 (.inl ⟨rfl, hlong.2⟩) rfl
      ⟨_, by rw [hline, value_eq_delimited]; simp [delimited]; rfl⟩ hbuf
    have h0 : 0 ∉ (u.fileName.bytes ++ delimiter :: u.createTime.bytes).take 1022 := by
      intro h
      have := List.mem_of_mem_take h
      simp [u.fileName.nul_free, u.createTime.nul_free, delimiter] at this
    rw [readString_append_zero h0, Except.ok.injEq] at hread
    have := congrArg List.length hread
    simp only [List.length_take, List.length_append, List.length_cons] at this
    omega
  · exfalso
    obtain ⟨a, c, b, hname, ha, hc⟩ := exists_break hquiet
    obtain ⟨t, rfl⟩ := columnInto_eq_ok hall2 (by simp) ha hc rfl
      ⟨_, by rw [hline, value_eq_delimited, hname]; simp [delimited]; rfl⟩ hbuf
    have h0 : 0 ∉ a.take 1022 := by
      intro h
      exact u.fileName.nul_free (hname ▸ List.mem_append_left _ (List.mem_of_mem_take h))
    rw [readString_append_zero h0, Except.ok.injEq] at hread
    have := congrArg List.length (hread.trans hname)
    simp only [List.length_take, List.length_append, List.length_cons] at this
    omega

end

end Upload

/-- On a page that holds the value built for an upload, the row of that value shows the
strings of the upload exactly if it does not stand behind a backslash and the file name is
readable. -/
theorem readRow_record_iff {S : Type} (u : Upload) (alloc : Allocator) (st : Store S)
    (fromId endId count : Int) (page : RangeList) (i : Nat) (v : List Byte) (prev : Byte)
    (line : List Byte) (fields : Fields)
    (hbuild : (makeRecord u.fileId.array u.fileUrl.array u.fileName.array u.createTime u.user >>=
      readString) = .ok v)
    (hpage : pageRows alloc .serve fromId endId count st = .ok page)
    (hvalue : (copiedRows (listAt st fileInfoList) fromId endId)[i]? = some v)
    (hrow : rowAt page.values i = .ok (prev, line)) (hfields : fields.Sized) :
    (∃ fields' row, readRow prev line fields = .ok (fields', row) ∧ u.Decoded row) ↔
      prev ≠ backslash ∧ u.NameReadable := by
  obtain rfl := u.makeRecord_value hbuild
  obtain ⟨rest, hrest⟩ := rowAt_pageRows alloc st fromId endId hpage hvalue hrow
  obtain ⟨tail, hline⟩ := u.line_eq hrest
  constructor
  · rintro ⟨fields', row, hread, hdec⟩
    exact ⟨Upload.prev_of_decoded hline hread hdec, Upload.readable_of_decoded hline hread hdec⟩
  · rintro ⟨hprev, hname⟩
    exact Upload.decoded_of_readable hprev hname hfields hline

/-- An upload of the file `a.c`. -/
def plainUpload : Upload where
  fileId := ⟨ascii "g/1.c", by decide⟩
  fileUrl := ⟨ascii "http://h/g/1.c", by decide⟩
  fileName := ⟨ascii "a.c", by decide⟩
  createTime := ⟨ascii "2024-01-01 00:00:00", by decide⟩
  user := zhao
  plain := by decide
  fileName_ne_nil := by decide
  quote_notMem := by decide
  length_fileId := by decide
  length_fileUrl := by decide
  length_fileName := by decide
  length_createTime := by decide
  length_user := by decide
  length_suffix := by decide

theorem readRow_record_plain :
    (∃ fields' row, readRow 0 (padTo 1023 plainUpload.value ++ zeros 1025) Fields.initial =
        .ok (fields', row) ∧ plainUpload.Decoded row) ↔
      (0 : Byte) ≠ backslash ∧ plainUpload.NameReadable :=
  readRow_record_iff plainUpload Allocator.zeroed
    (pushed (emptyStore Nat) fileInfoList plainUpload.value) 0 1 2
    { retn := 0
      getNum := 1
      values := some { before := 0, bytes := padTo 1023 plainUpload.value ++ zeros 1025 } }
    0 plainUpload.value 0 _ Fields.initial (by decide +kernel) (by decide +kernel)
    (by decide +kernel) (by decide +kernel) Fields.initial_sized

/-- An upload of the file `a|b`. -/
def pipeUpload : Upload where
  fileId := ⟨ascii "g/1", by decide⟩
  fileUrl := ⟨ascii "http://h/g/1", by decide⟩
  fileName := ⟨ascii "a|b", by decide⟩
  createTime := ⟨ascii "2024-01-01 00:00:00", by decide⟩
  user := zhao
  plain := by decide
  fileName_ne_nil := by decide
  quote_notMem := by decide
  length_fileId := by decide
  length_fileUrl := by decide
  length_fileName := by decide
  length_createTime := by decide
  length_user := by decide
  length_suffix := by decide

/-- The row of `a|b` shows the name `a`, and the rest of the name as the time. -/
theorem readRow_record_pipe :
    (do
      let buf ← makeRecord pipeUpload.fileId.array pipeUpload.fileUrl.array
        pipeUpload.fileName.array pipeUpload.createTime pipeUpload.user
      let value ← readString buf
      let page ← pageRows Allocator.zeroed .serve 0 1 2
        (pushed (emptyStore Nat) fileInfoList value)
      let (prev, line) ← rowAt page.values 0
      let (_, row) ← readRow prev line Fields.initial
      return (row.titleM, row.descrip)) = .ok (ascii "a", ascii "b") ∧
      ascii "a" ≠ pipeUpload.fileName.bytes := by
  decide +kernel

end CgiFileStore
