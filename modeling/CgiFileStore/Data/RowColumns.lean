import CgiFileStore.Data.DataOp
import CgiFileStore.Data.Splitter
import CgiFileStore.Redis.RangeRows

/-!
# The columns of a row

The columns of a value that stands in front of other bytes, what `columnInto` does for each of
them, and the rest of a row once its columns are known: `readRow_eq` gives the strings of the
row, `readRow_columns` goes back from a row to its columns.
-/

namespace CgiFileStore

open CSem Search Redis

/-- The sizes of the local arrays. -/
structure Fields.Sized (fields : Fields) : Prop where
  filename : fields.filename.length = 128
  createTime : fields.createTime.length = 64
  picurl : fields.picurl.length = 128
  suffix : fields.suffix.length = 32
  picName : fields.picName.length = 64
  fileUrl : fields.fileUrl.length = 256
  fileId : fields.fileId.length = 128
  user : fields.user.length = 128

theorem Fields.initial_sized : Fields.initial.Sized := by
  constructor <;> exact length_zeros _

/-! ## The columns of a value -/

/-- The columns of `value` that end inside it, when it stands behind the byte `prev`. -/
def columnsOf (prev : Byte) (value : List Byte) : List (List Byte) :=
  if newline ∈ value then splitFields prev (value.takeWhile (· ≠ newline))
  else (splitFields prev value).dropLast

theorem takeWhile_append_newline {text : List Byte} (h : newline ∉ text) (rest : List Byte) :
    (text ++ newline :: rest).takeWhile (· ≠ newline) = text := by
  rw [List.takeWhile_append_of_pos, List.takeWhile_cons_of_neg (by simp), List.append_nil]
  intro c hc
  exact decide_eq_true fun heq => h (heq ▸ hc)

theorem columnsOf_append_newline {prev : Byte} {text : List Byte} (h : newline ∉ text)
    (rest : List Byte) : columnsOf prev (text ++ newline :: rest) = splitFields prev text := by
  rw [columnsOf, if_pos (by simp), takeWhile_append_newline h]

/-- The first column: it ends in front of a `|`, and behind a backslash. -/
def firstColumn : Byte → List Byte → List Byte
  | _, [] => []
  | prev, c :: cs => if c ≠ delimiter ∧ prev ≠ backslash then c :: firstColumn c cs else []

theorem firstColEnd_eq (prev : Byte) (s rest : List Byte) (pos : Nat) :
    firstColEnd prev (s ++ delimiter :: rest) pos = .ok (pos + (firstColumn prev s).length) ∧
      ∃ t, s ++ delimiter :: rest = firstColumn prev s ++ t := by
  induction s generalizing prev pos with
  | nil => exact ⟨by simp [firstColEnd, firstColumn], _, rfl⟩
  | cons c cs ih =>
    obtain ⟨hend, t, ht⟩ := ih c (pos + 1)
    rw [List.cons_append, firstColEnd, firstColumn]
    split_ifs
    · refine ⟨?_, t, by rw [ht, List.cons_append]⟩
      rw [hend, List.length_cons, Nat.add_assoc, Nat.add_comm 1]
    · exact ⟨rfl, _, rfl⟩

theorem firstColumn_isPrefix (prev : Byte) (s : List Byte) : firstColumn prev s <+: s := by
  induction s generalizing prev with
  | nil => exact List.nil_prefix
  | cons c cs ih =>
    rw [firstColumn]
    split_ifs
    · exact List.cons_prefix_cons.mpr ⟨rfl, ih c⟩
    · exact List.nil_prefix

theorem firstColumn_of_notMem {prev : Byte} {s : List Byte} (hd : delimiter ∉ s)
    (hb : backslash ∉ s) : firstColumn prev s = if prev = backslash then [] else s := by
  induction s generalizing prev with
  | nil => simp [firstColumn]
  | cons c cs ih =>
    rw [List.mem_cons, not_or] at hd hb
    rw [firstColumn, ih hd.2 hb.2, if_neg (Ne.symm hb.1)]
    split_ifs with h1 h2 h2
    · exact absurd h2 h1.2
    · rfl
    · rfl
    · exact absurd ⟨Ne.symm hd.1, h2⟩ h1

theorem sublist_of_mem_columnsOf {prev : Byte} {value f : List Byte}
    (h : f ∈ columnsOf prev value) : f.Sublist value := by
  rw [columnsOf] at h
  split_ifs at h
  · exact (sublist_of_mem_splitFields h).trans (List.takeWhile_sublist _)
  · exact sublist_of_mem_splitFields (List.mem_of_mem_dropLast h)

section

variable {prev : Byte} {value rest buf line : List Byte} {f : List Byte}

/-- A column is copied with a NUL if the array has room for it. -/
theorem copyColumn_short_field {a b : List Byte} (hshort : f.length ≤ 1022) :
    copyColumn (a ++ (f ++ b)) a.length (a.length + f.length) buf 1022 false =
      if f.length < buf.length then .ok (f ++ 0 :: buf.drop (f.length + 1))
      else .error .write := by
  have htake : f.take (1022 : Int).toNat = f := List.take_of_length_le hshort
  rw [copyColumn_plain (by decide), htake]

theorem columnInto_one (line : List Byte) :
    columnInto prev line 1 buf =
      (firstColEnd prev line 0 >>= fun pos => copyColumn line 0 pos buf 1022 false) := by
  have hmax : toChecked ((valuesIdSize : Int) - 1 - 1) = .ok 1022 := rfl
  simp only [columnInto, getValueByCol, hmax, ok_bind]
  rw [if_neg (by decide), if_pos trivial]
  simp only [bind_assoc, pure_bind, Option.getD_some, bind_pure]

theorem columnInto_firstColumn (prev : Byte) {s : List Byte} (hshort : s.length ≤ 1022)
    (rest buf : List Byte) :
    columnInto prev (s ++ delimiter :: rest) 1 buf =
      if (firstColumn prev s).length < buf.length then
        .ok (firstColumn prev s ++ 0 :: buf.drop ((firstColumn prev s).length + 1))
      else .error .write := by
  obtain ⟨hend, t, ht⟩ := firstColEnd_eq prev s rest 0
  have hcopy : copyColumn ([] ++ (firstColumn prev s ++ t)) 0 (0 + (firstColumn prev s).length) buf
      1022 false = _ :=
    copyColumn_short_field ((firstColumn_isPrefix prev s).length_le.trans hshort)
  rw [List.nil_append, ← ht] at hcopy
  rw [columnInto_one, hend, ok_bind, hcopy]

theorem columnInto_first_eq_ok {s r : List Byte} (hshort : s.length ≤ 1022)
    (h : columnInto prev (s ++ delimiter :: rest) 1 buf = .ok r) :
    ∃ t, r = firstColumn prev s ++ 0 :: t := by
  rw [columnInto_firstColumn prev hshort] at h
  split_ifs at h
  exact ⟨_, (Except.ok.inj h).symm⟩

theorem columnInto_of_two_le {col : Int} (hcol : 2 ≤ col) :
    columnInto prev line col buf = (colEnd col prev line 0 0 0 >>= fun range =>
      match range with
      | none => .ok buf
      | some (valueHead, pos) => copyColumn line valueHead pos buf 1022 false) := by
  have hmax : toChecked ((valuesIdSize : Int) - 1 - 1) = .ok 1022 := rfl
  simp only [columnInto, getValueByCol, hmax, ok_bind]
  rw [if_neg (by omega), if_neg (by omega)]
  cases colEnd col prev line 0 0 0 with
  | error e => rfl
  | ok range =>
    cases range with
    | none => rfl
    | some range => simp only [ok_bind, bind_assoc, pure_bind, Option.getD_some, bind_pure]

/-- A column that ends inside the value is found whatever follows. -/
theorem colEnd_getElem {col : Nat} (hcol : 1 ≤ col)
    (hget : (columnsOf prev value)[col - 1]? = some f) (rest : List Byte) :
    ∃ a b, value ++ rest = a ++ (f ++ b) ∧
      colEnd col prev (value ++ rest) 0 0 0 = .ok (some (a.length, a.length + f.length)) := by
  by_cases hline : newline ∈ value
  · obtain ⟨text, more, rfl, htext⟩ := List.eq_append_cons_of_mem hline
    rw [columnsOf_append_newline htext] at hget
    have h := colEnd_splitFields prev htext (more ++ rest) hcol
    rw [hget] at h
    simpa using h
  · obtain ⟨fields, g, hsplit, hvalue, hclosed, -⟩ := splitFields_spec prev hline
    rw [columnsOf, if_neg hline, hsplit, List.dropLast_concat] at hget
    rw [hvalue, List.append_assoc]
    exact colEnd_field hclosed hcol hget (g ++ rest)

/-- Behind the last column of a line the loop ends without one. -/
theorem colEnd_getElem_none {col : Nat} (hcol : 1 ≤ col) (hline : newline ∈ value)
    (hget : (columnsOf prev value)[col - 1]? = none) (rest : List Byte) :
    colEnd col prev (value ++ rest) 0 0 0 = .ok none := by
  obtain ⟨text, more, rfl, htext⟩ := List.eq_append_cons_of_mem hline
  rw [columnsOf_append_newline htext] at hget
  have hend := colEnd_splitFields prev htext (more ++ rest) hcol
  rw [hget] at hend
  rwa [List.append_assoc, List.cons_append]

/-- A column that ends inside the value is copied. -/
theorem columnInto_getElem {col : Nat} (hcol : 2 ≤ col)
    (hget : (columnsOf prev value)[col - 1]? = some f) (hshort : value.length ≤ 1022) :
    columnInto prev (value ++ rest) col buf =
      if f.length < buf.length then .ok (f ++ 0 :: buf.drop (f.length + 1))
      else .error .write := by
  have hf : f.length ≤ 1022 :=
    (sublist_of_mem_columnsOf (List.mem_of_getElem? hget)).length_le.trans hshort
  obtain ⟨a, b, hwhole, hend⟩ := colEnd_getElem (by omega) hget rest
  rw [columnInto_of_two_le (by omega), hend, ok_bind, hwhole]
  exact copyColumn_short_field hf

/-- Behind the last column of a line nothing is copied. -/
theorem columnInto_none {col : Nat} (hcol : 2 ≤ col) (hline : newline ∈ value)
    (hget : (columnsOf prev value)[col - 1]? = none) :
    columnInto prev (value ++ rest) col buf = .ok buf := by
  rw [columnInto_of_two_le (by omega), colEnd_getElem_none (by omega) hline hget, ok_bind]

/-- Once the loop is in the column, it does not leave it without an end. -/
theorem colEnd_last {col tmpCol : Int} (hcol : tmpCol + 1 = col) {pos valueHead : Nat}
    {r : Option (Nat × Nat)} (h : colEnd col prev line pos valueHead tmpCol = .ok r) :
    ∃ p, pos ≤ p ∧ r = some (valueHead, p) := by
  induction line generalizing prev pos with
  | nil => cases h
  | cons c cs ih =>
    rw [colEnd, if_pos hcol] at h
    split_ifs at h
    · exact ⟨pos, le_rfl, (Except.ok.inj h).symm⟩
    · obtain ⟨p, hp, hr⟩ := ih h
      exact ⟨p, by omega, hr⟩

/-- A copy inside the array is shorter than the array. -/
theorem length_lt_of_copyColumn {valueHead pos : Nat} {r : List Byte} (hpos : valueHead ≤ pos)
    (h : copyColumn line valueHead pos buf 1022 false = .ok r) :
    pos - valueHead < buf.length ∨ 1022 < buf.length := by
  simp only [copyColumn, Bool.false_eq_true, if_false] at h
  generalize hlen : (if ((pos : Int) - valueHead - 0) > 1022 then (1022 : Int)
    else (pos : Int) - valueHead - 0) = len at h
  split_ifs at h with hneg
  · obtain ⟨copied, hcopy, hstore⟩ := bind_eq_ok.mp h
    have hlt := (store_eq_ok.mp hstore).1
    rw [length_memcpy hcopy] at hlt
    split_ifs at hlen <;> omega

/-- The column behind the last `|` of a value without a line feed takes in the zeros behind
the value, which no array has room for. -/
theorem columnInto_runOn {n col : Nat} (hcol : 2 ≤ col) (hline : newline ∉ value)
    (hcount : (columnsOf prev value).length + 1 = col) (hbuf : buf.length ≤ n)
    (hmax : buf.length ≤ 1022) (r : List Byte) :
    columnInto prev (value ++ (zeros n ++ rest)) col buf ≠ .ok r := by
  intro h
  obtain ⟨fields, g, hsplit, hvalue, hclosed, hlast⟩ := splitFields_spec prev hline
  rw [columnsOf, if_neg hline, hsplit, List.dropLast_concat] at hcount
  have hzeros : Unbroken (frontByte prev fields) (g ++ zeros n) := by
    apply unbroken_append hlast
    apply unbroken_of_notMem <;> simp [zeros, delimiter, newline]
  have hwhole : value ++ (zeros n ++ rest) = delimited fields ++ (g ++ zeros n ++ rest) := by
    rw [hvalue]
    simp only [List.append_assoc]
  rw [columnInto_of_two_le (by omega)] at h
  obtain ⟨range, hrange, h⟩ := bind_eq_ok.mp h
  rw [hwhole, colEnd_delimited hclosed _ _ (by omega), colEnd_unbroken hzeros] at hrange
  obtain ⟨p, hp, rfl⟩ := colEnd_last (by omega) hrange
  have hlen := length_lt_of_copyColumn (by omega) h
  rw [List.length_append, length_zeros] at hp
  omega

/-- The string that is in the array behind a column: the column, or the string that was there
before if the line has no such column. -/
theorem columnInto_string {col : Nat} (hcol : 2 ≤ col) (h0 : 0 ∉ value)
    (hshort : value.length ≤ 1022) (hbuf : 0 ∈ buf)
    (hends : newline ∈ value ∨ col ≤ (columnsOf prev value).length)
    (hfit : ∀ f, (columnsOf prev value)[col - 1]? = some f → f.length < buf.length) :
    ∃ t, columnInto prev (value ++ rest) col buf =
        .ok ((columnsOf prev value)[col - 1]?.getD (cstring buf) ++ 0 :: t) ∧
      0 ∉ (columnsOf prev value)[col - 1]?.getD (cstring buf) := by
  cases hget : (columnsOf prev value)[col - 1]? with
  | some f =>
    have hsub := sublist_of_mem_columnsOf (List.mem_of_getElem? hget)
    rw [columnInto_getElem hcol hget hshort, if_pos (hfit f hget)]
    exact ⟨_, rfl, fun h => h0 (hsub.subset h)⟩
  | none =>
    have hline : newline ∈ value := by
      rcases hends with hline | hlen
      · exact hline
      · rw [List.getElem?_eq_none_iff] at hget
        omega
    obtain ⟨t, ht⟩ := eq_cstring_append hbuf
    rw [columnInto_none hcol hline hget, Option.getD_none]
    exact ⟨t, congrArg _ ht, zero_notMem_cstring buf⟩

end

/-! ## Columns behind closed fields -/

section

variable {prev c : Byte} {f rest value : List Byte} {fields : List (List Byte)}

/-- A column behind closed fields is written up to 1022 bytes, with a NUL. -/
theorem columnInto_column (hne : fields ≠ []) (hfields : AllClosed prev fields)
    (hf : Unbroken delimiter f)
    (hc : (c = delimiter ∧ lastByte delimiter f ≠ backslash) ∨ c = newline)
    {col : Int} (hcol : col = fields.length + 1) :
    columnInto prev (delimited fields ++ (f ++ c :: rest)) col value =
      (memcpy value 0 (f.take 1022) >>= fun value => store value (f.take 1022).length 0) := by
  have hfront : frontByte prev fields = delimiter := if_neg hne
  have hpos := List.length_pos_iff.mpr hne
  have hend := colEnd_column hfields (by rwa [hfront]) (by rwa [hfront]) rest 0 0
  rw [Int.zero_add, ← hcol, Nat.zero_add] at hend
  rw [columnInto_of_two_le (by omega), hend, ok_bind]
  exact copyColumn_eq (by decide)

/-- What is left in the array when the copy of a column does not fault. -/
theorem columnInto_eq_ok {r line : List Byte} (hfields : AllClosed prev fields) (hne : fields ≠ [])
    (hf : Unbroken delimiter f)
    (hc : (c = delimiter ∧ lastByte delimiter f ≠ backslash) ∨ c = newline)
    {col : Int} (hcol : col = fields.length + 1)
    (hline : ∃ rest, line = delimited fields ++ (f ++ c :: rest))
    (h : columnInto prev line col value = .ok r) : ∃ t, r = f.take 1022 ++ 0 :: t := by
  obtain ⟨rest, rfl⟩ := hline
  rw [columnInto_column hne hfields hf hc hcol] at h
  rw [memcpy_store (length_lt_of_memcpy_store h), Except.ok.injEq] at h
  exact ⟨_, h.symm⟩

end

/-! ## The rest of a row -/

/-- The URL of the picture of a file. -/
def picurlOf (name : List Byte) : List Byte :=
  ascii "http://192.168.21.91" ++ ascii "/static/file_png/" ++ (suffixOf name ++ ascii ".png")

section

variable {prev : Byte} {line : List Byte} {fields : Fields} {id name user time url : List Byte}

theorem length_host : (ascii "http://192.168.21.91").length = 20 := by decide

theorem length_dir : (ascii "/static/file_png/").length = 17 := by decide

theorem length_png : (ascii ".png").length = 4 := by decide

theorem length_picurlOf (name : List Byte) :
    (picurlOf name).length = 41 + (suffixOf name).length := by
  simp only [picurlOf, List.length_append, length_host, length_dir, length_png]
  omega

theorem zero_notMem_picurlOf (h : 0 ∉ name) : 0 ∉ picurlOf name := by
  have hbase : 0 ∉ ascii "http://192.168.21.91" ++ ascii "/static/file_png/" := by decide
  have hpng : 0 ∉ ascii ".png" := by decide
  simp only [picurlOf, List.mem_append, not_or] at hbase ⊢
  exact ⟨hbase, zero_notMem_suffixOf h, hpng⟩

/-- The three appends to the cleared array. -/
theorem picurl_eq {buf : List Byte} (hbuf : buf.length = 128)
    (hsuffix : (suffixOf name).length < 32) :
    memset0 buf 128 = .ok (zeros 128) ∧
      strcat (zeros 128) (ascii "http://192.168.21.91") =
        .ok (ascii "http://192.168.21.91" ++ zeros 108) ∧
      strcat (ascii "http://192.168.21.91" ++ zeros 108) (ascii "/static/file_png/") =
        .ok (ascii "http://192.168.21.91" ++ ascii "/static/file_png/" ++ zeros 91) ∧
      strcat (ascii "http://192.168.21.91" ++ ascii "/static/file_png/" ++ zeros 91)
        (suffixOf name ++ ascii ".png") =
          .ok (picurlOf name ++ zeros (128 - (picurlOf name).length)) := by
  have hpng : (suffixOf name ++ ascii ".png").length = (suffixOf name).length + 4 := by
    rw [List.length_append, length_png]
  refine ⟨?_, ?_, ?_, ?_⟩
  · rw [memset0, memcpy_zero (by simp [hbuf]), length_zeros, List.drop_eq_nil_of_le hbuf.le,
      List.append_nil]
  · have h := strcat_zeros (s := []) (k := 128) List.not_mem_nil
      (by decide : (ascii "http://192.168.21.91").length < 128)
    rwa [List.nil_append, List.nil_append, length_host] at h
  · rw [strcat_zeros (by decide) (by decide), length_dir]
  · rw [strcat_zeros (by decide) (by omega), picurlOf, hpng, ← picurlOf, length_picurlOf]
    congr 3
    omega

/-- The strings of a row whose columns fit. -/
theorem readRow_eq (hsized : fields.Sized)
    (hid : ∃ t, columnInto prev line 1 fields.fileId = .ok (id ++ 0 :: t))
    (hname : ∃ t, columnInto prev line 3 fields.filename = .ok (name ++ 0 :: t))
    (huser : ∃ t, columnInto prev line 5 fields.user = .ok (user ++ 0 :: t))
    (htime : ∃ t, columnInto prev line 4 fields.createTime = .ok (time ++ 0 :: t))
    (hurl : ∃ t, columnInto prev line 2 fields.fileUrl = .ok (url ++ 0 :: t))
    (h0 : 0 ∉ id ∧ 0 ∉ name ∧ 0 ∉ user ∧ 0 ∉ time ∧ 0 ∉ url)
    (hsuffix : (suffixOf name).length < 32) :
    ∃ fields', readRow prev line fields = .ok (fields',
      { id, titleM := name, titleS := user, descrip := time, picurlM := picurlOf name, url }) := by
  obtain ⟨t1, hid⟩ := hid
  obtain ⟨t2, hname⟩ := hname
  obtain ⟨t3, huser⟩ := huser
  obtain ⟨t4, htime⟩ := htime
  obtain ⟨t5, hurl⟩ := hurl
  obtain ⟨hid0, hname0, huser0, htime0, hurl0⟩ := h0
  have hpng : 0 ∉ suffixOf name ++ ascii ".png" := by
    have h : 0 ∉ ascii ".png" := by decide
    simp [zero_notMem_suffixOf hname0, h]
  have hget : getFileSuffix (name ++ 0 :: t2) fields.suffix =
      .ok (suffixOf name ++ 0 :: fields.suffix.drop ((suffixOf name).length + 1)) :=
    copySuffix_eq hname0 (by rw [hsized.suffix]; exact hsuffix) (by simp only [intMax]; omega)
  have hlen : (suffixOf name ++ ascii ".png" ++ [0]).length = (suffixOf name).length + 5 := by
    rw [List.length_append, List.length_append, length_png, List.length_singleton]
  have hprint : sprintfPng fields.picName (suffixOf name) =
      .ok (suffixOf name ++ ascii ".png" ++ 0 :: fields.picName.drop
        ((suffixOf name).length + 5)) := by
    rw [sprintfPng, memcpy_zero (by rw [hlen, hsized.picName]; omega), hlen]
    simp
  obtain ⟨hp1, hp2, hp3, hp4⟩ := picurl_eq hsized.picurl hsuffix
  have hread := readString_append_zeros (zero_notMem_picurlOf hname0)
    (Nat.sub_pos_of_lt (by rw [length_picurlOf]; omega : (picurlOf name).length < 128))
  simp only [readRow, hid, hname, huser, htime, hurl, hget, hprint, hp1, hp2, hp3, hp4, hread,
    readString_append_zero hid0, readString_append_zero hname0, readString_append_zero huser0,
    readString_append_zero htime0, readString_append_zero hurl0, readString_append_zero hpng,
    readString_append_zero (zero_notMem_suffixOf hname0), ok_bind, pure_eq_ok]
  exact ⟨_, rfl⟩

/-- The columns that a row has been read from. -/
theorem readRow_columns {fields' : Fields} {row : Row}
    (h : readRow prev line fields = .ok (fields', row)) :
    (∃ buf, columnInto prev line 1 fields.fileId = .ok buf ∧ readString buf = .ok row.id) ∧
      ∃ buf, columnInto prev line 3 fields.filename = .ok buf ∧
        readString buf = .ok row.titleM := by
  obtain ⟨fileId, hfileId, h⟩ := bind_eq_ok.mp h
  obtain ⟨id, hid, h⟩ := bind_eq_ok.mp h
  obtain ⟨filename, hfilename, h⟩ := bind_eq_ok.mp h
  obtain ⟨titleM, htitleM, h⟩ := bind_eq_ok.mp h
  have hrow : row.id = id ∧ row.titleM = titleM := by
    iterate 15 obtain ⟨_, -, h⟩ := bind_eq_ok.mp h
    simp only [pure_eq_ok, Except.ok.injEq, Prod.mk.injEq] at h
    rw [← h.2]
    exact ⟨rfl, rfl⟩
  exact ⟨⟨fileId, hfileId, hrow.1 ▸ hid⟩, filename, hfilename, hrow.2 ▸ htitleM⟩

theorem length_columnInto {col : Int} {value r : List Byte}
    (h : columnInto prev line col value = .ok r) : r.length = value.length := by
  obtain ⟨result, hresult, h⟩ := bind_eq_ok.mp h
  obtain rfl : result.getD value = r := by simpa using h
  exact length_getValueByCol hresult

/-- A row leaves the local arrays with their sizes. -/
theorem readRow_sized {fields' : Fields} {row : Row} (hfields : fields.Sized)
    (h : readRow prev line fields = .ok (fields', row)) : fields'.Sized := by
  obtain ⟨fileId, hfileId, h⟩ := bind_eq_ok.mp h
  obtain ⟨_, -, h⟩ := bind_eq_ok.mp h
  obtain ⟨filename, hfilename, h⟩ := bind_eq_ok.mp h
  obtain ⟨_, -, h⟩ := bind_eq_ok.mp h
  obtain ⟨user, huser, h⟩ := bind_eq_ok.mp h
  obtain ⟨_, -, h⟩ := bind_eq_ok.mp h
  obtain ⟨createTime, hcreateTime, h⟩ := bind_eq_ok.mp h
  obtain ⟨_, -, h⟩ := bind_eq_ok.mp h
  obtain ⟨picurl1, hpicurl1, h⟩ := bind_eq_ok.mp h
  obtain ⟨picurl2, hpicurl2, h⟩ := bind_eq_ok.mp h
  obtain ⟨picurl3, hpicurl3, h⟩ := bind_eq_ok.mp h
  obtain ⟨suffix, hsuffix, h⟩ := bind_eq_ok.mp h
  obtain ⟨_, -, h⟩ := bind_eq_ok.mp h
  obtain ⟨picName, hpicName, h⟩ := bind_eq_ok.mp h
  obtain ⟨_, -, h⟩ := bind_eq_ok.mp h
  obtain ⟨picurl4, hpicurl4, h⟩ := bind_eq_ok.mp h
  obtain ⟨_, -, h⟩ := bind_eq_ok.mp h
  obtain ⟨fileUrl, hfileUrl, h⟩ := bind_eq_ok.mp h
  obtain ⟨_, -, h⟩ := bind_eq_ok.mp h
  simp only [pure_eq_ok, Except.ok.injEq, Prod.mk.injEq] at h
  rw [← h.1]
  constructor
  · exact (length_columnInto hfilename).trans hfields.filename
  · exact (length_columnInto hcreateTime).trans hfields.createTime
  · exact (length_strcat hpicurl4).trans ((length_strcat hpicurl3).trans
      ((length_strcat hpicurl2).trans ((length_memcpy hpicurl1).trans hfields.picurl)))
  · exact (length_copySuffix hsuffix).trans hfields.suffix
  · exact (length_memcpy hpicName).trans hfields.picName
  · exact (length_columnInto hfileUrl).trans hfields.fileUrl
  · exact (length_columnInto hfileId).trans hfields.fileId
  · exact (length_columnInto huser).trans hfields.user

end

/-! ## The round of a row -/

section

variable {S : Type} [Score S] {st : Store S} {values : Option Block} {fate : Fate} {i : Nat}
  {fields fields' : Fields} {item : Item}

/-- What a round has read and asked for. -/
theorem itemAt_eq_ok : itemAt fate values i fields st = .ok (fields', item) ↔
    ∃ prev line row score pv, rowAt values i = .ok (prev, line) ∧
      readRow prev line fields = .ok (fields', row) ∧
        ropZsetGetScore fate fileHotZset row.id st = .ok score ∧
          toChecked (score - 1) = .ok pv ∧ item = { row with kind := 2, pv, hot := 0 } := by
  constructor
  · intro h
    obtain ⟨⟨prev, line⟩, hrow, h⟩ := bind_eq_ok.mp h
    obtain ⟨⟨fields1, row⟩, hread, h⟩ := bind_eq_ok.mp h
    obtain ⟨score, hscore, h⟩ := bind_eq_ok.mp h
    obtain ⟨pv, hpv, h⟩ := bind_eq_ok.mp h
    simp only [pure_eq_ok, Except.ok.injEq, Prod.mk.injEq] at h
    obtain ⟨rfl, rfl⟩ := h
    exact ⟨prev, line, row, score, pv, hrow, hread, hscore, hpv, rfl⟩
  · rintro ⟨prev, line, row, score, pv, hrow, hread, hscore, hpv, rfl⟩
    simp only [itemAt, hrow, hread, hscore, hpv, ok_bind, pure_eq_ok]

/-- The row that a round has read. -/
theorem itemAt_readRow (h : itemAt fate values i fields st = .ok (fields', item)) :
    ∃ prev line, rowAt values i = .ok (prev, line) ∧
      readRow prev line fields = .ok (fields', item.toRow) := by
  obtain ⟨prev, line, row, score, pv, hrow, hread, -, -, rfl⟩ := itemAt_eq_ok.mp h
  exact ⟨prev, line, hrow, hread⟩

end

end CgiFileStore
