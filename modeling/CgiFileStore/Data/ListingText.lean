import CgiFileStore.Data.RowLimits
import CgiFileStore.Json.Item

/-!
# The text of a listing

`file_list_to_json_print` passes the text of the whole page through the message buffer of the
log, of 4096 bytes, and then through the block that is returned, of 10240. The main result says
for which pages it comes out whole.
-/

namespace CgiFileStore

open CSem Search Redis Json

/-! ## The items of a page -/

section

variable (d : Doubles)

/-- `item` as the row loop builds it, where `cJSON_CreateNumber` stores both values. -/
def itemTree (item : Item) : JsonItem d.Double :=
  .object [(ascii "id", .string item.id), (ascii "kind", .number item.kind (d.ofInt item.kind)),
    (ascii "title_m", .string item.titleM), (ascii "title_s", .string item.titleS),
    (ascii "descrip", .string item.descrip), (ascii "picurl_m", .string item.picurlM),
    (ascii "url", .string item.url), (ascii "pv", .number item.pv (d.ofInt item.pv)),
    (ascii "hot", .number item.hot (d.ofInt item.hot))]

/-- `root`. -/
def listingTree (items : List Item) : JsonItem d.Double :=
  .object [(ascii "games", .array (items.map (itemTree d)))]

def listingText (items : List Item) : List Byte := cJSONPrint d (listingTree d items)

/-- The numbers of an item are values of `int`. -/
def Item.HasInts (item : Item) : Prop := IsInt item.kind ∧ IsInt item.pv ∧ IsInt item.hot

/-- The bytes of an item and of the separator behind it. -/
def itemTextLength (item : Item) : Nat :=
  142 + escapedLength item.id + (sprintfInt item.kind).length + escapedLength item.titleM +
    escapedLength item.titleS + escapedLength item.descrip + escapedLength item.picurlM +
    escapedLength item.url + (sprintfInt item.pv).length + (sprintfInt item.hot).length

theorem printValue_itemTree {item : Item} (h : item.HasInts) :
    (printValue d true 2 (itemTree d item)).length + 2 = itemTextLength item := by
  obtain ⟨hkind, hpv, hhot⟩ := h
  rw [itemTree, printValue, printMembers_eq_map, length_printObject 2 (by simp)]
  have h1 : (printStringPtr (ascii "id")).length = 4 := by decide
  have h2 : (printStringPtr (ascii "kind")).length = 6 := by decide
  have h3 : (printStringPtr (ascii "title_m")).length = 9 := by decide
  have h4 : (printStringPtr (ascii "title_s")).length = 9 := by decide
  have h5 : (printStringPtr (ascii "descrip")).length = 9 := by decide
  have h6 : (printStringPtr (ascii "picurl_m")).length = 10 := by decide
  have h7 : (printStringPtr (ascii "url")).length = 5 := by decide
  have h8 : (printStringPtr (ascii "pv")).length = 4 := by decide
  have h9 : (printStringPtr (ascii "hot")).length = 5 := by decide
  simp only [List.map_cons, List.map_nil, List.sum_cons, List.sum_nil, printValue, h1, h2, h3, h4,
    h5, h6, h7, h8, h9, length_printStringPtr, printNumber_ofInt hkind, printNumber_ofInt hpv,
    printNumber_ofInt hhot, itemTextLength]
  omega

theorem zero_notMem_listingText (items : List Item) : 0 ∉ listingText d items :=
  zero_notMem_printValue (listingTree d items) true 0

theorem length_listingText_nil : (listingText d []).length = 16 :=
  (by decide : (printObject true 0 [(printStringPtr (ascii "games"), ascii "[]")]).length = 16)

theorem length_listingText {items : List Item} (h : items ≠ []) (hints : ∀ i ∈ items, i.HasInts) :
    (listingText d items).length = 14 + (items.map itemTextLength).sum := by
  have hgames : (printStringPtr (ascii "games")).length = 7 := by decide
  have hitem : items.map ((fun e : List Byte => e.length + 2) ∘ (printValue d true 2 ∘ itemTree d)) =
      items.map itemTextLength :=
    List.map_congr_left fun i hi => printValue_itemTree d (hints i hi)
  rw [listingText, cJSONPrint, listingTree, printValue, printMembers_eq_map,
    length_printObject 0 (by simp)]
  simp only [List.map_cons, List.map_nil, List.sum_cons, List.sum_nil, hgames, printValue,
    printEntries_eq_map, List.map_map]
  rw [length_printArray (by simpa using h), List.map_map, hitem]
  omega

end

/-! ## The two buffers -/

theorem memcpy_text {text : List Byte} {n : Nat} :
    memcpy (zeros n) 0 (text ++ [0]) =
      if text.length < n then .ok (text ++ 0 :: zeros (n - (text.length + 1)))
      else .error .write := by
  have hlen : (text ++ [0]).length = text.length + 1 := by simp
  split_ifs with hfit
  · rw [memcpy_zero (by rw [hlen, length_zeros]; exact hfit), hlen]
    simp [zeros]
  · rw [memcpy, if_neg (by rw [hlen, length_zeros]; omega)]

/-- The text comes out whole if it fits the smaller one of the two buffers. -/
theorem copied_intact_iff {text : List Byte} (h0 : 0 ∉ text) :
    (∃ buf, (logText text >>= fun _ => (memcpy (zeros 10240) 0 (text ++ [0])).map some) =
        .ok (some buf) ∧ readString buf = .ok text) ↔ text.length ≤ 4095 := by
  rw [logText, memcpy_text, memcpy_text]
  by_cases hshort : text.length < 4096
  · rw [if_pos hshort, if_pos (by omega), ok_bind]
    have hread := readString_append_zero h0 (zeros (10240 - (text.length + 1)))
    exact ⟨fun _ => by omega, fun _ => ⟨_, rfl, hread⟩⟩
  · rw [if_neg hshort]
    constructor
    · rintro ⟨buf, h, -⟩
      cases h
    · intro h
      omega

section

variable {S : Type} [Score S] {env : ListEnv} {st : Store S} {fromId endId count : Int}
  {page : RangeList} {items : List Item}

/-- Once its rows are read, a page is returned through the two buffers. -/
theorem fileListToJsonPrint_eq (hconn : env.connected = true) (hcalloc : env.callocated = true)
    (hend : pageEnd fromId count = .ok endId)
    (hpage : pageRows env.alloc env.range fromId endId count st = .ok page)
    (hretn : 0 ≤ page.retn)
    (hitems : itemLoop env st page.values page.getNum.toNat 0 Fields.initial = .ok items) :
    fileListToJsonPrint env fromId count st = (logText (env.print items) >>= fun _ =>
      (memcpy (zeros 10240) 0 (env.print items ++ [0])).map some) := by
  simp only [fileListToJsonPrint, hend, hpage, hitems, ok_bind, hconn, hcalloc, Bool.true_eq_false,
    if_false, if_neg (not_lt.mpr hretn)]
  cases memcpy (zeros 10240) 0 (env.print items ++ [0]) <;> rfl

omit [Score S] in
/-- A page of a key that holds a list, or does not exist, is reported as read. -/
theorem retn_pageRows {alloc : Allocator} (hlist : HoldsList st fileInfoList)
    (hpage : pageRows alloc .serve fromId endId count st = .ok page) : page.retn = 0 := by
  obtain ⟨size, -, hpage⟩ := bind_eq_ok.mp hpage
  have hreply : ∃ l, lrangeCmd fileInfoList fromId endId st = (.array l, st) := by
    rcases hlist with h | ⟨l, h⟩
    · exact ⟨[], by simp only [lrangeCmd, h]⟩
    · exact ⟨lrange l fromId endId, by simp only [lrangeCmd, h]⟩
  obtain ⟨l, hreply⟩ := hreply
  simp only [ropRangeList, redisCommand, hreply] at hpage
  obtain ⟨values, -, hpage⟩ := bind_eq_ok.mp hpage
  rw [← Except.ok.inj hpage]

/-- What `rop_zset_get_score` returns for a member. -/
def scoreOf (st : Store S) (member : List Byte) : Int :=
  match scoreAt st fileHotZset member with
  | some s => atoi (Score.text s)
  | none => -1

theorem ropZsetGetScore_eq (st : Store S) (member : List Byte) :
    ropZsetGetScore .serve fileHotZset member st = .ok (scoreOf st member) := by
  unfold scoreOf
  cases h : scoreAt st fileHotZset member with
  | none => exact ropZsetGetScore_absent h
  | some s => exact ropZsetGetScore_serve h

theorem toChecked_pv {member : List Byte} (h : intMin < scoreOf st member) :
    toChecked (scoreOf st member - 1) = .ok (scoreOf st member - 1) := by
  have hint : IsInt (scoreOf st member) := by
    unfold scoreOf
    split
    · exact isInt_wrapInt _
    · decide
  apply toChecked_of_isInt
  simp only [IsInt, intMin, intMax] at h hint ⊢
  omega

/-- The byte in front of row `i`. -/
def frontOf (values : Option Block) (i : Nat) : Byte :=
  match rowAt values i with
  | .ok (prev, _) => prev
  | .error _ => 0

end

/-! ## Pages of uploads -/

namespace Upload

variable (u : Upload) {S : Type} [Score S]

/-- The item of an upload whose row stands behind the byte `prev`. -/
def shownItem (st : Store S) (prev : Byte) : Item where
  id := firstColumn prev u.fileId.bytes
  titleM := u.fileName.bytes
  titleS := u.user.bytes
  descrip := u.createTime.bytes
  picurlM := picurlOf u.fileName.bytes
  url := u.fileUrl.bytes
  kind := 2
  pv := scoreOf st (firstColumn prev u.fileId.bytes) - 1
  hot := 0

/-- The bytes that the upload takes in the text of a page. -/
def textLength (st : Store S) (prev : Byte) : Nat :=
  185 + escapedLength (firstColumn prev u.fileId.bytes) + escapedLength u.fileName.bytes +
    escapedLength u.user.bytes + escapedLength u.createTime.bytes +
    escapedLength (suffixOf u.fileName.bytes) + escapedLength u.fileUrl.bytes +
    (sprintfInt (scoreOf st (firstColumn prev u.fileId.bytes) - 1)).length

theorem itemTextLength_shownItem (st : Store S) (prev : Byte) :
    itemTextLength (u.shownItem st prev) = u.textLength st prev := by
  have hkind : (sprintfInt 2).length = 1 := by decide
  have hhot : (sprintfInt 0).length = 1 := by decide
  have hpicurl : escapedLength (picurlOf u.fileName.bytes) =
      41 + escapedLength (suffixOf u.fileName.bytes) := by
    have hhost : escapedLength (ascii "http://192.168.21.91") = 20 := by decide
    have hdir : escapedLength (ascii "/static/file_png/") = 17 := by decide
    have hpng : escapedLength (ascii ".png") = 4 := by decide
    simp only [picurlOf, escapedLength, List.map_append, List.sum_append] at hhost hdir hpng ⊢
    omega
  simp only [itemTextLength, shownItem, textLength, hkind, hhot, hpicurl]
  omega

variable {u}

theorem columnsFit_value (hname : u.NameReadable) (prev : Byte) : ColumnsFit prev u.value := by
  obtain ⟨more, hcols⟩ := columnsOf_value hname prev
  constructor
  · right
    rw [hcols, List.length_append]
    exact Nat.le_add_right 5 _
  all_goals
    intro f hf
    rw [hcols] at hf
    obtain rfl := Option.some.inj hf
  · exact u.length_fileUrl
  · exact ⟨u.length_fileName, u.length_suffix⟩
  · exact u.length_createTime
  · exact u.length_user

/-- The round of an upload with a readable name. -/
theorem itemAt_value {st : Store S} {values : Option Block} {i : Nat} {prev : Byte}
    {rest : List Byte} {fields : Fields} (hname : u.NameReadable)
    (hviews : ∀ id, intMin < scoreOf st id) (hfields : fields.Ready)
    (hrow : rowAt values i = .ok (prev, u.value ++ rest)) :
    ∃ fields', itemAt .serve values i fields st = .ok (fields', u.shownItem st prev) := by
  obtain ⟨more, hcols⟩ := columnsOf_value hname prev
  obtain ⟨tail, hvalue⟩ : ∃ tail, u.value = u.fileId.bytes ++ delimiter :: tail :=
    exists_record_eq _ _ _ _ _
  have hlen := u.length_value
  have hfirst : (firstColumn prev u.fileId.bytes).length < 128 :=
    (firstColumn_isPrefix prev _).length_le.trans_lt u.length_fileId
  obtain ⟨fields', hread⟩ := readRow_of_columnsFit rest hfields u.zero_notMem_value
    hvalue (by omega) hfirst (columnsFit_value hname prev)
  have hshown : rowOf prev u.fileId.bytes u.value fields = (u.shownItem st prev).toRow := by
    simp only [rowOf, hcols]
    rfl
  rw [hshown] at hread
  exact ⟨fields', itemAt_eq_ok.mpr ⟨prev, _, _, _, _, hrow, hread, ropZsetGetScore_eq st _,
    toChecked_pv (hviews _), rfl⟩⟩

/-- Each string but the id takes at least a byte. -/
theorem le_textLength (u : Upload) (st : Store S) (prev : Byte) : 191 ≤ u.textLength st prev := by
  have hname := one_le_escapedLength u.fileName_ne_nil
  have huser := one_le_escapedLength (u.plain u.user (by simp)).1
  have htime := one_le_escapedLength (u.plain u.createTime (by simp)).1
  have hurl := one_le_escapedLength (u.plain u.fileUrl (by simp)).1
  have hsuffix := one_le_escapedLength (suffixOf_ne_nil u.fileName.bytes)
  have hpv := one_le_length_sprintfInt (scoreOf st (firstColumn prev u.fileId.bytes) - 1)
  rw [textLength]
  omega

theorem hasInts_shownItem (u : Upload) {st : Store S} (hviews : ∀ id, intMin < scoreOf st id)
    (prev : Byte) : (u.shownItem st prev).HasInts :=
  ⟨(by decide : IsInt 2), (toChecked_eq_ok.mp (toChecked_pv (hviews _))).1, (by decide : IsInt 0)⟩

end Upload

/-- The items that a page of uploads shows. -/
def shownItems {S : Type} [Score S] (st : Store S) (values : Option Block) (us : List Upload) :
    List Item :=
  us.mapIdx fun i u => u.shownItem st (frontOf values i)

section

variable {S : Type} [Score S] {env : ListEnv} {st : Store S} {fromId endId count : Int}
  {page : RangeList} {us : List Upload}

/-- The row loop on a page of uploads with readable names. -/
theorem itemLoop_uploads (hscore : ∀ i, env.score i = .serve) (hend : IsInt endId)
    (hpage : pageRows env.alloc .serve fromId endId count st = .ok page)
    (hrows : copiedRows (listAt st fileInfoList) fromId endId = us.map Upload.value)
    (hnames : ∀ u ∈ us, u.NameReadable) (hviews : ∀ id, intMin < scoreOf st id) :
    itemLoop env st page.values page.getNum.toNat 0 Fields.initial =
      .ok (shownItems st page.values us) := by
  have hlen : page.getNum.toNat = us.length := by
    have h := length_copiedRows (listAt st fileInfoList) fromId hend
    rw [hrows, List.length_map] at h
    rw [getNum_pageRows env.alloc st fromId endId hpage, h]
  have hround : ∀ k < us.length, ∀ fields1 : Fields, fields1.Ready → ∃ fields2 item,
      itemAt (env.score (0 + k)) page.values (0 + k) fields1 st = .ok (fields2, item) ∧
        (shownItems st page.values us)[k]? = some item := by
    intro k hk fields1 hready
    have hvalue : (copiedRows (listAt st fileInfoList) fromId endId)[k]? = some us[k].value := by
      rw [hrows, List.getElem?_map, List.getElem?_eq_getElem hk]
      rfl
    obtain ⟨b, prev, rest, -, -, hrow⟩ := rowAt_value env.alloc st fromId endId hpage hvalue
      us[k].zero_notMem_value (us[k].length_value.trans (by decide))
    have hfront : frontOf page.values k = prev := by
      rw [frontOf, hrow]
    obtain ⟨fields2, hitem⟩ := Upload.itemAt_value (hnames us[k] (List.getElem_mem hk)) hviews
      hready hrow
    refine ⟨fields2, us[k].shownItem st prev, ?_, ?_⟩
    · rw [Nat.zero_add, hscore]
      exact hitem
    · rw [shownItems, List.getElem?_mapIdx, List.getElem?_eq_getElem hk, Option.map_some, hfront]
  obtain ⟨items, hitems, hcount, hall⟩ := itemLoop_of_rounds Fields.initial_ready hround
  have heq : items = shownItems st page.values us := by
    apply List.ext_getElem?
    intro k
    cases hget : items[k]? with
    | some item => exact (hall k item hget).symm
    | none =>
      rw [List.getElem?_eq_none_iff] at hget
      rw [List.getElem?_eq_none]
      rw [shownItems, List.length_mapIdx]
      omega
  rw [hlen, hitems, heq]

theorem length_shownItems (d : Doubles) (values : Option Block) (hne : us ≠ [])
    (hviews : ∀ id, intMin < scoreOf st id) :
    (listingText d (shownItems st values us)).length =
      14 + (us.mapIdx fun i u => u.textLength st (frontOf values i)).sum := by
  have hints : ∀ item ∈ shownItems st values us, item.HasInts := by
    intro item hitem
    obtain ⟨i, hi, rfl⟩ := List.mem_mapIdx.mp hitem
    exact us[i].hasInts_shownItem hviews _
  have hmap : (shownItems st values us).map itemTextLength =
      us.mapIdx fun i u => u.textLength st (frontOf values i) := by
    apply List.ext_getElem?
    intro i
    simp only [shownItems, List.getElem?_map, List.getElem?_mapIdx, Option.map_map,
      Function.comp_def, Upload.itemTextLength_shownItem]
  rw [length_listingText d (by simpa [shownItems] using hne) hints, hmap]

/-- What becomes of the text of a page of uploads with readable names. -/
theorem fileListToJsonPrint_uploads (d : Doubles)
    (hcalls : env.connected = true ∧ env.callocated = true)
    (hserve : env.range = .serve ∧ ∀ i, env.score i = .serve) (hprint : env.print = listingText d)
    (hend : pageEnd fromId count = .ok endId)
    (hpage : pageRows env.alloc .serve fromId endId count st = .ok page)
    (hlist : HoldsList st fileInfoList)
    (hrows : copiedRows (listAt st fileInfoList) fromId endId = us.map Upload.value)
    (hnames : ∀ u ∈ us, u.NameReadable) (hviews : ∀ id, intMin < scoreOf st id) :
    fileListToJsonPrint env fromId count st =
      (logText (listingText d (shownItems st page.values us)) >>= fun _ =>
        (memcpy (zeros 10240) 0 (listingText d (shownItems st page.values us) ++ [0])).map some) := by
  have hint : IsInt endId := by
    obtain ⟨-, hint, rfl⟩ := pageEnd_eq_ok.mp hend
    exact hint
  have hitems := itemLoop_uploads hserve.2 hint hpage hrows hnames hviews
  rw [fileListToJsonPrint_eq hcalls.1 hcalls.2 hend (hserve.1 ▸ hpage)
    (retn_pageRows hlist hpage).ge hitems, hprint]

/-- A page of twenty-two rows is too long whatever its strings are. -/
theorem length_shownItems_many (d : Doubles) (values : Option Block) (hmany : 22 ≤ us.length)
    (hviews : ∀ id, intMin < scoreOf st id) :
    4096 ≤ (listingText d (shownItems st values us)).length := by
  have hne : us ≠ [] := by
    rintro rfl
    simp at hmany
  rw [length_shownItems d values hne hviews]
  have hsum := List.card_nsmul_le_sum (us.mapIdx fun i u => u.textLength st (frontOf values i)) 191
    (by
      intro n hn
      obtain ⟨i, hi, rfl⟩ := List.mem_mapIdx.mp hn
      exact us[i].le_textLength st _)
  rw [List.length_mapIdx, smul_eq_mul] at hsum
  omega

end

/-- A page of uploads with readable names is returned as cJSON prints it exactly if the strings
of the page are short enough together. -/
theorem listing_intact_iff {S : Type} [Score S] (d : Doubles) (env : ListEnv) (st : Store S)
    (fromId endId count : Int) (page : RangeList) (us : List Upload)
    (hcalls : env.connected = true ∧ env.callocated = true)
    (hserve : env.range = .serve ∧ ∀ i, env.score i = .serve) (hprint : env.print = listingText d)
    (hend : pageEnd fromId count = .ok endId)
    (hpage : pageRows env.alloc .serve fromId endId count st = .ok page)
    (hlist : HoldsList st fileInfoList)
    (hrows : copiedRows (listAt st fileInfoList) fromId endId = us.map Upload.value)
    (hnames : ∀ u ∈ us, u.NameReadable) (hviews : ∀ id, intMin < scoreOf st id) :
    (∃ buf, fileListToJsonPrint env fromId count st = .ok (some buf) ∧
        readString buf = .ok (listingText d (shownItems st page.values us))) ↔
      us = [] ∨
        14 + (us.mapIdx fun i u => u.textLength st (frontOf page.values i)).sum ≤ 4095 := by
  rw [fileListToJsonPrint_uploads d hcalls hserve hprint hend hpage hlist hrows hnames hviews,
    copied_intact_iff (zero_notMem_listingText d _)]
  by_cases hnil : us = []
  · have hempty : (listingText d []).length = 16 := length_listingText_nil d
    simp [hnil, shownItems, hempty]
  · rw [length_shownItems d page.values hnil hviews, or_iff_right hnil]

/-- A server that holds the values of `n` uploads. -/
def holding (n : Nat) (u : Upload) : Store Nat :=
  Function.update (emptyStore Nat) fileInfoList (some (.list (List.replicate n u.value)))

theorem holdsList_holding (n : Nat) (u : Upload) : HoldsList (holding n u) fileInfoList :=
  .inr ⟨_, Function.update_self ..⟩

theorem listing_intact_plain :
    let values : Option Block :=
      some { before := 0, bytes := padTo 1023 plainUpload.value ++ zeros 1025 }
    (∃ buf, fileListToJsonPrint { servedListing with print := listingText Doubles.rational } 0 2
          (holding 1 plainUpload) = .ok (some buf) ∧
        readString buf =
          .ok (listingText Doubles.rational
            (shownItems (holding 1 plainUpload) values [plainUpload]))) ↔
      [plainUpload] = [] ∨ 14 + ([plainUpload].mapIdx fun i u =>
        u.textLength (holding 1 plainUpload) (frontOf values i)).sum ≤ 4095 :=
  listing_intact_iff Doubles.rational
    { servedListing with print := listingText Doubles.rational } (holding 1 plainUpload) 0 1 2
    { retn := 0
      getNum := 1
      values := some { before := 0, bytes := padTo 1023 plainUpload.value ++ zeros 1025 } }
    [plainUpload] ⟨rfl, rfl⟩ ⟨rfl, fun _ => rfl⟩ rfl rfl (by decide +kernel)
    (holdsList_holding 1 plainUpload) (by decide +kernel)
    (List.forall_mem_singleton.mpr (by decide : Closed delimiter plainUpload.fileName.bytes))
    fun _ => (by decide : intMin < -1)

/-- The text of twenty-two uploads of `a.c` runs over the message buffer of the log. -/
theorem listing_intact_many :
    fileListToJsonPrint { servedListing with print := listingText Doubles.rational } 0 23
      (holding 22 plainUpload) = .error .write := by
  have hcopied : copiedRows (listAt (holding 22 plainUpload) fileInfoList) 0 22 =
      (List.replicate 22 plainUpload).map Upload.value := by
    decide +kernel
  have hsize : IsInt (23 * 1024) := by decide
  obtain ⟨page, hpage⟩ :=
    (pageRows_isOk_iff Allocator.zeroed (holding 22 plainUpload) 0 22 hsize).mpr
      (.inr ⟨rfl, by rw [hcopied, List.length_map, List.length_replicate]; decide⟩)
  have hmany : 22 ≤ (List.replicate 22 plainUpload).length := List.length_replicate.ge
  have hviews : ∀ id, intMin < scoreOf (holding 22 plainUpload) id := fun _ =>
    (by decide : intMin < -1)
  have hlong := length_shownItems_many Doubles.rational page.values hmany hviews
  have hend : pageEnd 0 23 = .ok 22 := by decide
  have hnames : ∀ u ∈ List.replicate 22 plainUpload, u.NameReadable := by
    intro u hu
    rw [List.eq_of_mem_replicate hu]
    exact (by decide : Closed delimiter plainUpload.fileName.bytes)
  have hrun : fileListToJsonPrint { servedListing with print := listingText Doubles.rational } 0 23
      (holding 22 plainUpload) = _ :=
    fileListToJsonPrint_uploads Doubles.rational ⟨rfl, rfl⟩ ⟨rfl, fun _ => rfl⟩ rfl hend hpage
      (holdsList_holding 22 plainUpload) hcopied hnames hviews
  rw [hrun, logText, memcpy_text, if_neg (by omega)]
  rfl

end CgiFileStore
