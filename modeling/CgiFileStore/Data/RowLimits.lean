import CgiFileStore.Data.Splitter
import CgiFileStore.Data.RoundTrip
import CgiFileStore.Data.RowLoop

/-!
# The sizes of the row

The uploader joins strings that it has room for, and the lister copies each column into an
array of its own, none of which is as large as the reader of columns is told. The main result
says for which uploads both stay inside their arrays.
-/

namespace CgiFileStore

open CSem Search Redis

/-! ## The columns of a record -/

/-- The columns of a value fit the arrays that they are copied into, and there are enough of
them, or a line feed ends the search for the others. -/
structure ColumnsFit (prev : Byte) (value : List Byte) : Prop where
  ends : newline ∈ value ∨ 5 ≤ (columnsOf prev value).length
  fileUrl : ∀ f, (columnsOf prev value)[1]? = some f → f.length < 256
  filename : ∀ f, (columnsOf prev value)[2]? = some f →
    f.length < 128 ∧ (suffixOf f).length < 32
  createTime : ∀ f, (columnsOf prev value)[3]? = some f → f.length < 64
  user : ∀ f, (columnsOf prev value)[4]? = some f → f.length < 128

/-- What `strftime` writes for `%Y-%m-%d %H:%M:%S`. -/
structure IsTimestamp (t : List Byte) : Prop where
  ne_nil : t ≠ []
  length_le : t.length ≤ 26
  digits : ∀ c ∈ t, isDigit c = true ∨ c ∈ ascii "-: "

theorem IsTimestamp.notMem {t : List Byte} (h : IsTimestamp t) {c : Byte}
    (hdigit : isDigit c = false) (hc : c ∉ ascii "-: ") : c ∉ t := by
  intro hmem
  rcases h.digits c hmem with hd | hd
  · rw [hd] at hdigit
    cases hdigit
  · exact hc hd

/-- The time and the user end a column each. -/
theorem two_le_columnsOf_record (prev : Byte) {fileId fileUrl fileName createTime : List Byte}
    (htime : IsTimestamp createTime)
    (hline : newline ∉ record fileId fileUrl fileName createTime zhao.bytes) :
    2 ≤ (columnsOf prev (record fileId fileUrl fileName createTime zhao.bytes)).length := by
  have hb : backslash ∉ createTime := htime.notMem (by decide) (by decide)
  have hlast : lastByte prev (fileId ++ delimiter :: (fileUrl ++ delimiter ::
      (fileName ++ delimiter :: createTime))) ≠ backslash := by
    simp only [lastByte_append, lastByte]
    exact fun h => hb (h ▸ lastByte_mem htime.ne_nil)
  have huser : lastByte delimiter zhao.bytes ≠ backslash := by decide
  have hpos : ∀ p s, 0 < (splitFields p s).length := fun p s =>
    List.length_pos_iff.mpr (splitFields_ne_nil p s)
  rw [columnsOf, if_neg hline, record_eq_append, splitFields_append hlast,
    splitFields_append huser, List.length_dropLast, List.length_append, List.length_append]
  have h1 := hpos prev (fileId ++ delimiter :: (fileUrl ++ delimiter ::
    (fileName ++ delimiter :: createTime)))
  have h2 := hpos delimiter zhao.bytes
  have h3 := hpos delimiter (suffixOf fileName)
  omega

theorem length_record (fileId fileUrl fileName createTime user : List Byte) :
    (record fileId fileUrl fileName createTime user).length =
      fileId.length + fileUrl.length + fileName.length + createTime.length + user.length + 5 +
        (suffixOf fileName).length := by
  rw [record_eq_append]
  simp only [List.length_append, List.length_cons]
  omega

/-! ## Rows that are read -/

section

variable {prev : Byte} {value s more rest : List Byte} {fields : Fields} {n : Nat}

/-- A row that is read has found columns that fit. -/
theorem columnsFit_of_readRow (hready : fields.Ready) (h0 : 0 ∉ value)
    (hn : value.length + n = 1023) (hzeros : 128 ≤ n)
    (hmany : newline ∈ value ∨ 2 ≤ (columnsOf prev value).length) {r : Fields × Row}
    (h : readRow prev (value ++ (zeros n ++ rest)) fields = .ok r) : ColumnsFit prev value := by
  obtain ⟨-, hname, huser, htime, hurl, hsuffix⟩ := readRow_inv hready.toSized h
  have hfits : ∀ (col : Nat) {f buf buf' : List Byte}, 2 ≤ col →
      columnInto prev (value ++ (zeros n ++ rest)) col buf = .ok buf' →
      (columnsOf prev value)[col - 1]? = some f →
        f.length < buf.length ∧ ∃ t, buf' = f ++ 0 :: t := by
    intro col f buf buf' hcol hinto hget
    rw [columnInto_getElem hcol hget (by omega)] at hinto
    split_ifs at hinto with hfit
    exact ⟨hfit, _, (Except.ok.inj hinto).symm⟩
  refine ⟨?_, ?_, ?_, ?_, ?_⟩
  · by_contra hends
    obtain ⟨hline, hlen⟩ := not_or.mp hends
    have htwo := hmany.resolve_left hline
    have hrun : ∀ (col : Nat) {buf buf' : List Byte}, 2 ≤ col → buf.length ≤ 128 →
        columnInto prev (value ++ (zeros n ++ rest)) col buf = .ok buf' →
        (columnsOf prev value).length + 1 ≠ col := fun col _ _ hcol hbuf hinto hcount =>
      columnInto_runOn hcol hline hcount (hbuf.trans hzeros) (by omega) _ hinto
    have h3 := hrun 3 (by decide) hready.filename.le hname.1
    have h4 := hrun 4 (by decide) (by rw [hready.createTime]; decide) htime.1
    have h5 := hrun 5 (by decide) hready.user.le huser.1
    omega
  · intro f hget
    exact hready.fileUrl ▸ (hfits 2 (by decide) hurl.1 hget).1
  · intro f hget
    obtain ⟨hlt, t, hbuf⟩ := hfits 3 (by decide) hname.1 hget
    have hf0 : 0 ∉ f := fun hf =>
      h0 ((sublist_of_mem_columnsOf (List.mem_of_getElem? hget)).subset hf)
    have hread := hname.2
    rw [hbuf, readString_append_zero hf0, Except.ok.injEq] at hread
    exact ⟨hready.filename ▸ hlt, hread ▸ hsuffix⟩
  · intro f hget
    exact hready.createTime ▸ (hfits 4 (by decide) htime.1 hget).1
  · intro f hget
    exact hready.user ▸ (hfits 5 (by decide) huser.1 hget).1

/-- The strings of a row: a column that the value does not have shows what is in its array. -/
def rowOf (prev : Byte) (fileId value : List Byte) (fields : Fields) : Row :=
  let name := (columnsOf prev value)[2]?.getD (cstring fields.filename)
  { id := firstColumn prev fileId
    titleM := name
    titleS := (columnsOf prev value)[4]?.getD (cstring fields.user)
    descrip := (columnsOf prev value)[3]?.getD (cstring fields.createTime)
    picurlM := picurlOf name
    url := (columnsOf prev value)[1]?.getD (cstring fields.fileUrl) }

theorem columnInto_fileId (prev : Byte) (rest : List Byte) (hready : fields.Ready)
    (hvalue : value = s ++ delimiter :: more) (hshort : value.length ≤ 1022) :
    columnInto prev (value ++ rest) 1 fields.fileId =
      if (firstColumn prev s).length < 128 then
        .ok (firstColumn prev s ++ 0 :: fields.fileId.drop ((firstColumn prev s).length + 1))
      else .error .write := by
  have hlen := congrArg List.length hvalue
  rw [List.length_append, List.length_cons] at hlen
  have hline : value ++ rest = s ++ delimiter :: (more ++ rest) := by
    rw [hvalue]
    simp
  rw [hline, columnInto_firstColumn prev (by omega), hready.fileId]

/-- A row whose columns fit is read, whatever stands behind its value. -/
theorem readRow_of_columnsFit (rest : List Byte) (hready : fields.Ready) (h0 : 0 ∉ value)
    (hvalue : value = s ++ delimiter :: more) (hshort : value.length ≤ 1022)
    (hfirst : (firstColumn prev s).length < 128) (hfit : ColumnsFit prev value) :
    ∃ fields', readRow prev (value ++ rest) fields = .ok (fields', rowOf prev s value fields) := by
  have hid := columnInto_fileId prev rest hready hvalue hshort
  rw [if_pos hfirst] at hid
  have hs0 : 0 ∉ firstColumn prev s := fun h =>
    h0 (hvalue ▸ List.mem_append_left _ ((firstColumn_isPrefix prev s).subset h))
  have hends : ∀ {col}, col ≤ 5 → newline ∈ value ∨ col ≤ (columnsOf prev value).length :=
    fun hcol => hfit.ends.imp_right hcol.trans
  have hstring : ∀ (col : Nat) {buf : List Byte} (_ : 2 ≤ col ∧ col ≤ 5) (_ : 0 ∈ buf)
      (_ : ∀ f, (columnsOf prev value)[col - 1]? = some f → f.length < buf.length), _ :=
    fun col buf hcol hbuf =>
      @columnInto_string prev value rest buf col hcol.1 h0 hshort hbuf (hends hcol.2)
  obtain ⟨t2, hurl, hurl0⟩ := hstring 2 (by decide)
    (hready.terminated fields.fileUrl (by simp)) (by rw [hready.fileUrl]; exact hfit.fileUrl)
  obtain ⟨t3, hname, hname0⟩ := hstring 3 (by decide)
    (hready.terminated fields.filename (by simp))
    (by rw [hready.filename]; exact fun f hf => (hfit.filename f hf).1)
  obtain ⟨t4, htime, htime0⟩ := hstring 4 (by decide)
    (hready.terminated fields.createTime (by simp))
    (by rw [hready.createTime]; exact hfit.createTime)
  obtain ⟨t5, huser, huser0⟩ := hstring 5 (by decide)
    (hready.terminated fields.user (by simp)) (by rw [hready.user]; exact hfit.user)
  have hsuffix : (suffixOf ((columnsOf prev value)[2]?.getD (cstring fields.filename))).length <
      32 := by
    cases hget : (columnsOf prev value)[2]? with
    | none => exact hready.shortSuffix
    | some f => exact (hfit.filename f hget).2
  exact readRow_eq hready.toSized ⟨_, hid⟩ ⟨_, hname⟩ ⟨_, huser⟩ ⟨_, htime⟩ ⟨_, hurl⟩
    ⟨hs0, hname0, huser0, htime0, hurl0⟩ hsuffix

/-- A row is read exactly if its columns fit. -/
theorem readRow_isOk_iff (hready : fields.Ready) (h0 : 0 ∉ value)
    (hvalue : value = s ++ delimiter :: more) (hn : value.length + n = 1023) (hzeros : 128 ≤ n)
    (hmany : newline ∈ value ∨ 2 ≤ (columnsOf prev value).length) :
    (∃ r, readRow prev (value ++ (zeros n ++ rest)) fields = .ok r) ↔
      (firstColumn prev s).length < 128 ∧ ColumnsFit prev value := by
  constructor
  · rintro ⟨r, h⟩
    refine ⟨?_, columnsFit_of_readRow hready h0 hn hzeros hmany h⟩
    obtain ⟨hrow, -⟩ := readRow_inv hready.toSized h
    by_contra hlong
    rw [columnInto_fileId prev _ hready hvalue (by omega), if_neg hlong] at hrow
    cases hrow.1
  · rintro ⟨hfirst, hfit⟩
    obtain ⟨fields', h⟩ := readRow_of_columnsFit _ hready h0 hvalue (by omega) hfirst hfit
    exact ⟨_, h⟩

end

/-- An upload is stored without an overrun, in a record that is kept whole, and the row of its
record is then read without an overrun, exactly if the suffix of the name and the columns of
the record fit the arrays of both programs. -/
theorem stored_and_listed_iff {S : Type} [Score S] (fileId fileUrl fileName createTime : CStr)
    (hid : fileId.bytes.length ≤ 255) (hurl : fileUrl.bytes.length ≤ 255)
    (hname : fileName.bytes.length ≤ 254) (htime : IsTimestamp createTime.bytes)
    (env : ListEnv) (st : Store S) (fromId endId count : Int) (page : RangeList) (i : Nat)
    (prev : Byte) (line : List Byte) (fields : Fields)
    (hpage : pageRows env.alloc .serve fromId endId count st = .ok page)
    (hvalue : (copiedRows (listAt st fileInfoList) fromId endId)[i]? =
      some (record fileId.bytes fileUrl.bytes fileName.bytes createTime.bytes zhao.bytes))
    (hrow : rowAt page.values i = .ok (prev, line))
    (hfields : fieldsAt env st page.values i = .ok fields) :
    ((∃ buf v, makeRecord fileId.array fileUrl.array fileName.array createTime zhao = .ok buf ∧
        readString buf = .ok v ∧ v.length < 1023) ∧
      ∃ r, readRow prev line fields = .ok r) ↔
      (suffixOf fileName.bytes).length < 64 ∧
        (firstColumn prev fileId.bytes).length < 128 ∧
        ColumnsFit prev
          (record fileId.bytes fileUrl.bytes fileName.bytes createTime.bytes zhao.bytes) := by
  have hready := fieldsAt_ready hfields
  have h0 := zero_notMem_record createTime zhao fileId.nul_free fileUrl.nul_free fileName.nul_free
  have hmany : newline ∈ record fileId.bytes fileUrl.bytes fileName.bytes createTime.bytes
      zhao.bytes ∨ _ :=
    or_iff_not_imp_left.mpr (two_le_columnsOf_record prev htime)
  have hlen := length_record fileId.bytes fileUrl.bytes fileName.bytes createTime.bytes zhao.bytes
  have hzhao : zhao.bytes.length = 4 := by decide
  have htime26 := htime.length_le
  obtain ⟨rest, hline⟩ := rowAt_pageRows env.alloc st fromId endId hpage hvalue hrow
  obtain ⟨more, hsplit⟩ := exists_record_eq fileId.bytes fileUrl.bytes fileName.bytes
    createTime.bytes zhao.bytes
  by_cases hsuffix : (suffixOf fileName.bytes).length < 64
  · have hfits : RecordFits fileId.bytes fileUrl.bytes fileName.bytes createTime.bytes zhao.bytes :=
      ⟨hsuffix, by omega⟩
    have hmake := makeRecord_eq fileId.readString_array fileUrl.readString_array
      fileName.readString_array hfits
    have hread := readString_append_zeros h0 (Nat.sub_pos_of_lt hfits.2)
    generalize record fileId.bytes fileUrl.bytes fileName.bytes createTime.bytes zhao.bytes = v at *
    have hrow : line = v ++ (zeros (1023 - v.length) ++ rest) := by
      rw [hline, padTo_cstring h0 (by omega), List.append_assoc]
    rw [hrow, readRow_isOk_iff hready h0 hsplit (by omega) (by omega) hmany]
    constructor
    · rintro ⟨-, hfit⟩
      exact ⟨hsuffix, hfit⟩
    · rintro ⟨-, hfit⟩
      exact ⟨⟨_, v, hmake, hread, by omega⟩, hfit⟩
  · constructor
    · rintro ⟨⟨buf, v, hmake, -, -⟩, -⟩
      exact absurd hmake (makeRecord_ne_ok fileId.readString_array fileUrl.readString_array
        fileName.readString_array (fun hfits => hsuffix hfits.1) buf)
    · rintro ⟨hshort, -⟩
      exact absurd hshort hsuffix

/-- Calls that are all granted, and blocks of zeros. -/
def servedListing : ListEnv where
  connected := true
  alloc := Allocator.zeroed
  range := .serve
  score := fun _ => .serve
  print := fun _ => []
  callocated := true

theorem stored_and_listed_plain :
    ((∃ buf v, makeRecord plainUpload.fileId.array plainUpload.fileUrl.array
          plainUpload.fileName.array plainUpload.createTime zhao = .ok buf ∧
        readString buf = .ok v ∧ v.length < 1023) ∧
      ∃ r, readRow 0 (padTo 1023 plainUpload.value ++ zeros 1025) Fields.initial = .ok r) ↔
      (suffixOf plainUpload.fileName.bytes).length < 64 ∧
        (firstColumn 0 plainUpload.fileId.bytes).length < 128 ∧ ColumnsFit 0 plainUpload.value :=
  stored_and_listed_iff plainUpload.fileId plainUpload.fileUrl plainUpload.fileName
    plainUpload.createTime (by decide) (by decide) (by decide)
    ⟨by decide, by decide, by decide +kernel⟩ servedListing
    (pushed (emptyStore Nat) fileInfoList plainUpload.value) 0 1 2
    { retn := 0
      getNum := 1
      values := some { before := 0, bytes := padTo 1023 plainUpload.value ++ zeros 1025 } }
    0 0 _ Fields.initial (by decide +kernel) (by decide +kernel) (by decide +kernel) rfl

/-- A name of 128 bytes is stored, and overruns the array for the name when it is listed. -/
theorem stored_and_listed_long :
    let name : CStr := ⟨List.replicate 128 97, by simp⟩
    let env : StoreEnv :=
      { connected := true
        allocated := true
        createTime := plainUpload.createTime
        push := .serve
        count := .serve }
    let stored := fileMsgStoreToRedis env plainUpload.fileId.array plainUpload.fileUrl.array
      name.array zhao (emptyStore Nat)
    stored.map Prod.fst = .ok 0 ∧
      (stored >>= fun r => fileListToJsonPrint servedListing 0 2 r.2) = .error .write := by
  decide +kernel

end CgiFileStore
