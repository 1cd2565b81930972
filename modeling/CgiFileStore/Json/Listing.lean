import CgiFileStore.Data.ListingText
import CgiFileStore.Json.RoundTrip

/-!
# The listing as its reader sees it

Whatever text `file_list_to_json_print` returns, `cJSON_Parse` makes of it the tree that was
printed. A reader that looks the fields up by their names finds the columns of the uploads of the
page.
-/

namespace CgiFileStore

open CSem Search Redis

namespace Json

variable {D : Type}

/-! ## Looking up children -/

/-- `tolower` of the C locale. -/
def toLower (c : Byte) : Byte := if 65 ≤ c ∧ c ≤ 90 then c + 32 else c

/-- `cJSON_strcasecmp` on two strings, which end at a NUL. -/
def cJSONStrcasecmp : List Byte → List Byte → Int
  | [], [] => 0
  | [], c2 :: _ => -(toLower c2).toNat
  | c1 :: _, [] => (toLower c1).toNat
  | c1 :: s1, c2 :: s2 =>
    if toLower c1 = toLower c2 then cJSONStrcasecmp s1 s2
    else (toLower c1).toNat - (toLower c2).toNat

/-- `cJSON_GetArraySize`. -/
def cJSONGetArraySize : JsonItem D → Nat
  | .array children => children.length
  | .object children => children.length
  | _ => 0

/-- `cJSON_GetArrayItem`, which takes a negative number for the first child. -/
def cJSONGetArrayItem (item : Int) : JsonItem D → Option (JsonItem D)
  | .array children => children[item.toNat]?
  | .object children => (children[item.toNat]?).map Prod.snd
  | _ => none

/-- `cJSON_GetObjectItem`. The children of an array have no names. -/
def cJSONGetObjectItem (string : List Byte) : JsonItem D → Option (JsonItem D)
  | .object children => (children.find? fun c => cJSONStrcasecmp c.1 string = 0).map Prod.snd
  | _ => none

theorem cJSONStrcasecmp_self (s : List Byte) : cJSONStrcasecmp s s = 0 := by
  induction s with
  | nil => rfl
  | cons c s ih => rw [cJSONStrcasecmp, if_pos rfl, ih]

/-- Where no two names are the same but for case, every child is found by its name. -/
theorem cJSONGetObjectItem_mem {children : List (List Byte × JsonItem D)}
    (hnames : children.Pairwise fun c c' => cJSONStrcasecmp c.1 c'.1 ≠ 0)
    {c : List Byte × JsonItem D} (hc : c ∈ children) :
    cJSONGetObjectItem c.1 (.object children) = some c.2 := by
  rw [cJSONGetObjectItem]
  induction children with
  | nil => cases hc
  | cons x children ih =>
    obtain ⟨hx, hrest⟩ := List.pairwise_cons.mp hnames
    obtain rfl | hc := List.mem_cons.mp hc
    · rw [List.find?_cons_of_pos (by simp [cJSONStrcasecmp_self]), Option.map_some]
    · rw [List.find?_cons_of_neg (by simpa using hx c hc)]
      exact ih hrest hc

end Json

open Json

/-! ## Reading a page -/

/-- The strings of a row. -/
def Row.strings (row : Row) : List (List Byte) :=
  [row.id, row.titleM, row.titleS, row.descrip, row.picurlM, row.url]

/-- What an item must be to come back from its text. -/
def Item.Plain (item : Item) : Prop := (∀ s ∈ item.toRow.strings, 0 ∉ s) ∧ item.HasInts

theorem isExact_itemTree (d : Doubles) {item : Item} (h : item.Plain) :
    IsExact d (itemTree d item) := by
  obtain ⟨hstrings, hkind, hpv, hhot⟩ := h
  simp only [Row.strings, List.mem_cons, List.not_mem_nil, or_false, forall_eq_or_imp,
    forall_eq] at hstrings
  obtain ⟨hid, htitleM, htitleS, hdescrip, hpicurl, hurl⟩ := hstrings
  refine .object _ ?_ ?_
  all_goals simp only [List.mem_cons, List.not_mem_nil, or_false, forall_eq_or_imp, forall_eq]
  · decide
  · exact ⟨.string _ hid, .number _ hkind, .string _ htitleM, .string _ htitleS,
      .string _ hdescrip, .string _ hpicurl, .string _ hurl, .number _ hpv, .number _ hhot⟩

theorem isExact_listingTree (d : Doubles) {items : List Item} (h : ∀ item ∈ items, item.Plain) :
    IsExact d (listingTree d items) := by
  refine .object _ ?_ ?_
  all_goals simp only [List.mem_cons, List.not_mem_nil, or_false, forall_eq]
  · decide
  · refine .array _ fun t ht => ?_
    obtain ⟨item, hitem, rfl⟩ := List.mem_map.mp ht
    exact isExact_itemTree d (h item hitem)

/-- A text that the listing returns is parsed to the tree that was printed. -/
theorem cJSONParse_listingText {d : Doubles} {alloc : Allocator} (hgrants : Grants alloc)
    {items : List Item} (h : ∀ item ∈ items, item.Plain)
    (hlen : (listingText d items).length < 2 ^ 31) (beyond : List Byte) :
    cJSONParse d alloc (listingText d items ++ 0 :: beyond) = .ok (listingTree d items) := by
  have hparse := cJSONParseWithOpts_printed hgrants (isExact_listingTree d h) true 0 hlen false beyond
  exact congrArg (· >>= fun p => .ok p.1) hparse

/-- Each field of an item is found by its name. -/
theorem cJSONGetObjectItem_itemTree (d : Doubles) (item : Item) :
    ∀ c ∈ [(ascii "id", JsonItem.string item.id),
        (ascii "kind", .number item.kind (d.ofInt item.kind)),
        (ascii "title_m", .string item.titleM), (ascii "title_s", .string item.titleS),
        (ascii "descrip", .string item.descrip), (ascii "picurl_m", .string item.picurlM),
        (ascii "url", .string item.url), (ascii "pv", .number item.pv (d.ofInt item.pv)),
        (ascii "hot", .number item.hot (d.ofInt item.hot))],
      cJSONGetObjectItem c.1 (itemTree d item) = some c.2 := by
  intro c hc
  refine cJSONGetObjectItem_mem ?_ hc
  have hnames : ([ascii "id", ascii "kind", ascii "title_m", ascii "title_s", ascii "descrip",
      ascii "picurl_m", ascii "url", ascii "pv", ascii "hot"].Pairwise fun s s' =>
        cJSONStrcasecmp s s' ≠ 0) := by
    decide
  refine (List.pairwise_map (f := Prod.fst)
    (R := fun s s' : List Byte => cJSONStrcasecmp s s' ≠ 0)).mp ?_
  exact hnames

theorem Upload.zero_notMem_shownItem {S : Type} [Score S] (u : Upload) (st : Store S) (prev : Byte) :
    ∀ s ∈ (u.shownItem st prev).toRow.strings, 0 ∉ s := by
  have hid : 0 ∉ firstColumn prev u.fileId.bytes := fun h =>
    u.fileId.nul_free ((firstColumn_isPrefix prev _).subset h)
  simp only [Row.strings, shownItem, List.mem_cons, List.not_mem_nil, or_false]
  rintro s (rfl | rfl | rfl | rfl | rfl | rfl)
  · exact hid
  · exact u.fileName.nul_free
  · exact u.user.nul_free
  · exact u.createTime.nul_free
  · exact zero_notMem_picurlOf u.fileName.nul_free
  · exact u.fileUrl.nul_free

theorem plain_shownItem {S : Type} [Score S] (u : Upload) {st : Store S} (prev : Byte)
    (hviews : ∀ id, intMin < scoreOf st id) : (u.shownItem st prev).Plain :=
  ⟨u.zero_notMem_shownItem st prev, u.hasInts_shownItem hviews prev⟩

/-- A reader of a short enough page of uploads finds as many items as there are uploads, and in
each of them the columns of the upload and its views under their names. -/
theorem listing_read_back {S : Type} [Score S] (env : ListEnv) (st : Store S)
    (fromId endId count : Int) (page : RangeList) (us : List Upload) (d : Doubles)
    (alloc : Allocator) (hgrants : Grants alloc)
    (hcalls : env.connected = true ∧ env.callocated = true)
    (hserve : env.range = .serve ∧ ∀ i, env.score i = .serve) (hprint : env.print = listingText d)
    (hend : pageEnd fromId count = .ok endId)
    (hpage : pageRows env.alloc .serve fromId endId count st = .ok page)
    (hlist : HoldsList st fileInfoList)
    (hrows : copiedRows (listAt st fileInfoList) fromId endId = us.map Upload.value)
    (hnames : ∀ u ∈ us, u.NameReadable) (hviews : ∀ id, intMin < scoreOf st id)
    (hshort : us = [] ∨
      14 + (us.mapIdx fun i u => u.textLength st (frontOf page.values i)).sum ≤ 4095) :
    ∃ buf root games, fileListToJsonPrint env fromId count st = .ok (some buf) ∧
      cJSONParse d alloc buf = .ok root ∧ cJSONGetObjectItem (ascii "games") root = some games ∧
      cJSONGetArraySize games = us.length ∧
      ∀ (i : Nat) (u : Upload), us[i]? = some u →
        let id := firstColumn (frontOf page.values i) u.fileId.bytes
        ∃ item, cJSONGetArrayItem i games = some item ∧
          ∀ c ∈ [(ascii "id", JsonItem.string id), (ascii "title_m", .string u.fileName.bytes),
              (ascii "title_s", .string u.user.bytes), (ascii "descrip", .string u.createTime.bytes),
              (ascii "url", .string u.fileUrl.bytes),
              (ascii "pv", .number (scoreOf st id - 1) (d.ofInt (scoreOf st id - 1)))],
            cJSONGetObjectItem c.1 item = some c.2 := by
  have hplain : ∀ item ∈ shownItems st page.values us, item.Plain := by
    intro item hitem
    obtain ⟨i, hi, rfl⟩ := List.mem_mapIdx.mp hitem
    exact plain_shownItem us[i] _ hviews
  have hlen : (listingText d (shownItems st page.values us)).length ≤ 4095 := by
    have hempty := length_listingText_nil d
    by_cases hnil : us = []
    · simp [hnil, shownItems, hempty]
    · rw [length_shownItems d page.values hnil hviews]
      exact hshort.resolve_left hnil
  have hlist := fileListToJsonPrint_uploads d hcalls hserve hprint hend hpage hlist hrows hnames hviews
  rw [logText, memcpy_text, memcpy_text, if_pos (by omega), if_pos (by omega), ok_bind] at hlist
  refine ⟨_, _, .array ((shownItems st page.values us).map (itemTree d)), hlist,
    cJSONParse_listingText hgrants hplain (by omega) _, rfl, ?_, ?_⟩
  · simp [cJSONGetArraySize, shownItems]
  · intro i u hu
    have hitem : ((shownItems st page.values us).map (itemTree d))[i]? =
        some (itemTree d (u.shownItem st (frontOf page.values i))) := by
      rw [List.getElem?_map, shownItems, List.getElem?_mapIdx, hu]
      rfl
    refine ⟨_, hitem, fun c hc => ?_⟩
    refine cJSONGetObjectItem_itemTree d (u.shownItem st (frontOf page.values i)) c ?_
    simp only [List.mem_cons, List.not_mem_nil, or_false] at hc ⊢
    rcases hc with rfl | rfl | rfl | rfl | rfl | rfl <;> simp [Upload.shownItem]

/-- The page of one upload of `a.c`. -/
theorem listing_read_back_plain :
    ∃ buf root games,
      fileListToJsonPrint { servedListing with print := listingText Doubles.rational } 0 2
          (holding 1 plainUpload) =
        .ok (some buf) ∧
      cJSONParse Doubles.rational Allocator.zeroed buf = .ok root ∧
      cJSONGetObjectItem (ascii "games") root = some games ∧ cJSONGetArraySize games = 1 ∧
      ∀ (i : Nat) (u : Upload), [plainUpload][i]? = some u →
        let values : Option Block :=
          some { before := 0, bytes := padTo 1023 plainUpload.value ++ zeros 1025 }
        let id := firstColumn (frontOf values i) u.fileId.bytes
        let pv := scoreOf (holding 1 plainUpload) id - 1
        ∃ item, cJSONGetArrayItem i games = some item ∧
          ∀ c ∈ [(ascii "id", JsonItem.string id), (ascii "title_m", .string u.fileName.bytes),
              (ascii "title_s", .string u.user.bytes), (ascii "descrip", .string u.createTime.bytes),
              (ascii "url", .string u.fileUrl.bytes),
              (ascii "pv", .number pv (Doubles.rational.ofInt pv))],
            cJSONGetObjectItem c.1 item = some c.2 :=
  listing_read_back { servedListing with print := listingText Doubles.rational }
    (holding 1 plainUpload) 0 1 2
    { retn := 0
      getNum := 1
      values := some { before := 0, bytes := padTo 1023 plainUpload.value ++ zeros 1025 } }
    [plainUpload] Doubles.rational Allocator.zeroed grants_zeroed ⟨rfl, rfl⟩ ⟨rfl, fun _ => rfl⟩
    rfl rfl (by decide +kernel) (holdsList_holding 1 plainUpload) (by decide +kernel)
    (List.forall_mem_singleton.mpr (by decide : Closed delimiter plainUpload.fileName.bytes))
    (fun _ => (by decide : intMin < -1)) (.inr (by decide +kernel))

end CgiFileStore
