import CgiFileStore.System.ViewCounts

/-!
# Looking through the listing while others upload

A client that goes on with the row behind the last one it was shown. Uploads in between move the
records to later positions, never to earlier ones, so no record that was there when the client
began is missed.
-/

namespace CgiFileStore

open CSem Redis Transition

/-- The position that the client asks for next, and the ids it has been shown. -/
structure Browser where
  next : Nat
  shown : List (List Byte)

def Browser.initial : Browser where
  next := 0
  shown := []

/-- No block holds a backslash that was there before. -/
def Clean (alloc : Allocator) : Prop :=
  ∀ n b, alloc.malloc n = some b → backslash ∉ b.before :: b.bytes

variable {S U L : Type} [Score S] [DecidableEq U] [DecidableEq L]

/-- The steps of the system with a client that asks the lister `l` for `count` rows at a time. -/
inductive BrowseStep (l : L) (count : Int) :
    System S U L × Browser → Event U L → System S U L × Browser → Prop
  | page {s : System S U L} {b : Browser} {alloc : Allocator} {endId : Int} {page : RangeList}
      (clean : Clean alloc) (idle : s.lister l = .idle) (last : pageEnd b.next count = .ok endId)
      (run : pageRows alloc .serve b.next endId count s.store = .ok page) :
      BrowseStep l count (s, b) (.range l alloc b.next count)
        ({ s with lister := Function.update s.lister l (Lister.next page 0 Fields.initial) },
          { b with next := b.next + page.getNum.toNat })
  | row {s s' : System S U L} {b : Browser} {item : Item} (step : Step s (.score l) s')
      (items : s'.items = item :: s.items) :
      BrowseStep l count (s, b) (.score l) (s', { b with shown := item.id :: b.shown })
  | other {s s' : System S U L} {b : Browser} {e : Event U L} (step : Step s e s')
      (others : e ≠ .score l ∧ ∀ alloc fromId n, e ≠ .range l alloc fromId n) :
      BrowseStep l count (s, b) e (s', b)

variable {s s' : System S U L} {l : L} {count : Int} {b b' : Browser}

/-- The client adds nothing to what the system can do. -/
theorem BrowseStep.step {e : Event U L} (h : BrowseStep l count (s, b) e (s', b')) : Step s e s' := by
  cases h with
  | page clean idle last run => exact .range idle last run
  | row step items => exact step
  | other step others => exact step

/-! ## Records and ids -/

/-- The records stand in the list in the order of the uploads. -/
def Recorded (s : System S U L) : Prop :=
  List.Forall₂ (fun fileId e => StartsWithId [fileId] e) s.ids (listAt s.store fileInfoList)

theorem step_recorded {e : Event U L} (hs : Consistent s) (hrec : Recorded s) (h : Step s e s') :
    Recorded s' := by
  cases h with
  | push hidle hfresh hrun =>
    obtain ⟨value, rfl, hvalue⟩ := pushFile_eq_ok hs.list hrun
    rw [Recorded, listAt_pushed]
    exact .cons hvalue hrec
  | count hpushed hrun =>
    obtain rfl := countFile_eq_ok hs.zset hrun
    simpa [Recorded, listAt, counted_of_ne _ fileHotZset_ne_fileInfoList.symm] using hrec
  | range hidle hend hrun => exact hrec
  | score hlisting hrun => exact hrec

/-- Uploads only add ids, in front. -/
theorem step_ids {e : Event U L} (h : Step s e s') :
    s'.ids = s.ids ∨ ∃ fileId, fileId ∉ s.ids ∧ s'.ids = fileId :: s.ids := by
  cases h with
  | push hidle hfresh hrun => exact .inr ⟨_, hfresh, rfl⟩
  | count hpushed hrun => exact .inl rfl
  | range hidle hend hrun => exact .inl rfl
  | score hlisting hrun => exact .inl rfl

/-- Another event leaves the lister where it is. -/
theorem step_lister {e : Event U L} (h : Step s e s')
    (hother : e ≠ .score l ∧ ∀ alloc fromId n, e ≠ .range l alloc fromId n) :
    s'.lister l = s.lister l := by
  cases h with
  | push hidle hfresh hrun => rfl
  | count hpushed hrun => rfl
  | range hidle hend hrun =>
    refine Function.update_of_ne ?_ _ _
    rintro rfl
    exact hother.2 _ _ _ rfl
  | score hlisting hrun =>
    refine Function.update_of_ne ?_ _ _
    rintro rfl
    exact hother.1 rfl

/-! ## The rows of a page -/

/-- Row `k` of the page shows the id. -/
def ShowsId (page : RangeList) (k : Nat) (fileId : FileId) : Prop :=
  ∃ prev line, rowAt page.values k = .ok (prev, line) ∧ prev ≠ backslash ∧
    StartsWithId [fileId] line

theorem getElem?_copiedRows {list : List (List Byte)} {fromId k : Nat}
    (hend : 0 ≤ (fromId + count - 1 : Int))
    (hk : k < (copiedRows list fromId (fromId + count - 1)).length) :
    (copiedRows list fromId (fromId + count - 1))[k]? = list[fromId + k]? := by
  rw [copiedRows, List.length_take] at hk
  rw [copiedRows, List.getElem?_take_of_lt (by omega)]
  rw [lrange_of_nonneg _ (Int.natCast_nonneg _) hend] at hk ⊢
  rw [List.length_take] at hk
  rw [List.getElem?_take_of_lt (by omega), List.getElem?_drop, Int.toNat_natCast]

theorem prev_ne_backslash {alloc : Allocator} (h : Clean alloc) {n off : Nat} {block : Block}
    {prev : Byte} (hb : alloc.malloc n = some block) (hprev : block.prev off = .ok prev) :
    prev ≠ backslash := by
  have hmem : prev ∈ block.before :: block.bytes := by
    cases off with
    | zero =>
      obtain rfl := Except.ok.inj hprev
      exact List.mem_cons_self
    | succ off =>
      rw [Block.prev, load] at hprev
      split at hprev
      · next c hc =>
        obtain rfl := Except.ok.inj hprev
        exact List.mem_cons_of_mem _ (List.mem_of_getElem? hc)
      · cases hprev
  rintro rfl
  exact h n block hb hmem

omit [Score S] [DecidableEq U] [DecidableEq L] in
/-- Row `k` of a page from `fromId` on shows upload number `fromId + k`. -/
theorem showsId_pageRows {alloc : Allocator} (hclean : Clean alloc) (hs : Recorded s)
    {fromId k : Nat} {endId : Int} (hcount : 0 < count)
    (hend : pageEnd fromId count = .ok endId) {page : RangeList}
    (hpage : pageRows alloc .serve fromId endId count s.store = .ok page)
    (hk : k < page.getNum.toNat) {fileId : FileId} (hid : s.ids[fromId + k]? = some fileId) :
    ShowsId page k fileId := by
  obtain ⟨-, hint, rfl⟩ := pageEnd_eq_ok.mp hend
  have hlen := length_copiedRows (listAt s.store fileInfoList) fromId hint
  rw [← getNum_pageRows alloc s.store fromId _ hpage] at hlen
  rw [← hlen] at hk
  obtain ⟨hlt, rfl⟩ := List.getElem?_eq_some_iff.mp hid
  have hlt' : fromId + k < (listAt s.store fileInfoList).length := hs.length_eq ▸ hlt
  have hrecord := hs.get hlt hlt'
  have hvalue := getElem?_copiedRows (by omega) hk
  rw [List.getElem?_eq_getElem hlt'] at hvalue
  obtain ⟨block, prev, line, hb, hprev, hrow⟩ :=
    exists_rowAt_pageRows alloc s.store fromId _ hpage hk
  obtain ⟨rest, rfl⟩ := rowAt_pageRows alloc s.store fromId _ hpage hvalue hrow
  exact ⟨prev, _, hrow, prev_ne_backslash hclean hb hprev, startsWithId_row hrecord rest⟩

/-- The item of a row has the id that the row shows. -/
theorem id_of_itemAt {page : RangeList} {i : Nat} {fields fields' : Fields} {item : Item}
    {fileId : FileId} {st : Store S} (hid : ShowsId page i fileId)
    (h : itemAt .serve page.values i fields st = .ok (fields', item)) : item.id = fileId.bytes := by
  obtain ⟨prev, line, hrow, hprev, hline⟩ := hid
  obtain ⟨prev', line', row, score, pv, hrow', hread, -, -, rfl⟩ := itemAt_eq_ok.mp h
  obtain ⟨rfl, rfl⟩ := Prod.mk.inj (Except.ok.inj (hrow.symm.trans hrow'))
  have hrowId := readRow_id hline hread
  obtain ⟨other, hmem, -, rest, rfl⟩ := hline
  obtain rfl := List.mem_singleton.mp hmem
  rw [rowId, if_neg hprev, takeWhile_fileId] at hrowId
  exact hrowId

/-! ## What has been passed -/

/-- The lister is at a row in front of one that shows the id. -/
def Ahead (l : L) (s : System S U L) (fileId : FileId) : Prop :=
  ∃ page i fields k, s.lister l = .listing page i fields ∧ i ≤ k ∧ k < page.getNum.toNat ∧
    ShowsId page k fileId

/-- What holds whenever the client has begun with the uploads `ids`. -/
structure Browsed (l : L) (ids : List FileId) (s : System S U L) (b : Browser) : Prop where
  consistent : Consistent s
  recorded : Recorded s
  old : ids <:+ s.ids
  passed : ∀ j fileId, s.ids[j]? = some fileId → j < b.next → fileId ∈ ids →
    fileId.bytes ∈ b.shown ∨ Ahead l s fileId

theorem page_browsed {ids : List FileId} {alloc : Allocator} {endId : Int} {page : RangeList}
    (hs : Browsed l ids s b) (hcount : 0 < count) (hclean : Clean alloc) (hidle : s.lister l = .idle)
    (hend : pageEnd b.next count = .ok endId)
    (hpage : pageRows alloc .serve b.next endId count s.store = .ok page) :
    Browsed l ids
      { s with lister := Function.update s.lister l (Lister.next page 0 Fields.initial) }
      { b with next := b.next + page.getNum.toNat } where
  consistent := step_consistent hs.consistent (.range hidle hend hpage)
  recorded := hs.recorded
  old := hs.old
  passed j fileId hj hlt hold := by
    obtain hbefore | hge := Nat.lt_or_ge j b.next
    · -- the rows of the pages before have all been shown
      refine .inl ((hs.passed j fileId hj hbefore hold).resolve_right ?_)
      rintro ⟨page', i, fields, k, hlisting, -⟩
      rw [hidle] at hlisting
      cases hlisting
    · have hk : j - b.next < page.getNum.toNat := by
        dsimp only at hlt
        omega
      rw [← Nat.add_sub_cancel' hge] at hj
      refine .inr ⟨page, 0, Fields.initial, j - b.next, ?_, Nat.zero_le _, hk,
        showsId_pageRows hclean hs.recorded hcount hend hpage hk hj⟩
      dsimp only
      rw [Function.update_self, Lister.next, if_pos (Nat.zero_lt_of_lt hk)]

theorem row_browsed {ids : List FileId} {item : Item} (hs : Browsed l ids s b)
    (h : Step s (.score l) s') (hitems : s'.items = item :: s.items) :
    Browsed l ids s' { b with shown := item.id :: b.shown } := by
  refine ⟨step_consistent hs.consistent h, step_recorded hs.consistent hs.recorded h, ?_, ?_⟩
  · cases h with
    | score hlisting hrun => exact hs.old
  intro j fileId hj hlt hold
  cases h with
  | @score _ page i fields fields' item' hlisting hrun =>
    obtain rfl : item' = item := (List.cons.inj hitems).1
    obtain hshown | ⟨page', i', fields'', k, hahead, hik, hk, hid⟩ := hs.passed j fileId hj hlt hold
    · exact .inl (List.mem_cons_of_mem _ hshown)
    · obtain ⟨rfl, rfl, rfl⟩ := Lister.listing.inj (hlisting.symm.trans hahead)
      obtain rfl | hlater := Nat.eq_or_lt_of_le hik
      · exact .inl (id_of_itemAt hid hrun ▸ List.mem_cons_self)
      · refine .inr ⟨page, i + 1, fields', k, ?_, hlater, hk, hid⟩
        dsimp only
        rw [Function.update_self, Lister.next, if_pos (by omega)]

theorem other_browsed {ids : List FileId} {e : Event U L} (hs : Browsed l ids s b)
    (h : Step s e s') (hother : e ≠ .score l ∧ ∀ alloc fromId n, e ≠ .range l alloc fromId n) :
    Browsed l ids s' b := by
  have hsub := hs.old.subset
  have hlister := step_lister h hother
  have hkept : ∀ fileId, fileId.bytes ∈ b.shown ∨ Ahead l s fileId →
      fileId.bytes ∈ b.shown ∨ Ahead l s' fileId := by
    intro fileId hpassed
    simpa only [Ahead, hlister] using hpassed
  refine ⟨step_consistent hs.consistent h, step_recorded hs.consistent hs.recorded h, ?_, ?_⟩
  · obtain hids | ⟨fileId, -, hids⟩ := step_ids h
    · exact hids ▸ hs.old
    · exact hids ▸ hs.old.trans (List.suffix_cons fileId s.ids)
  intro j fileId hj hlt hold
  obtain hids | ⟨new, hfresh, hids⟩ := step_ids h
  · exact hkept fileId (hs.passed j fileId (hids ▸ hj) hlt hold)
  · rw [hids] at hj
    cases j with
    | zero =>
      obtain rfl : new = fileId := by simpa using hj
      exact absurd (hsub hold) hfresh
    | succ j => exact hkept fileId (hs.passed j fileId (by simpa using hj) (by omega) hold)

theorem browseStep_browsed {ids : List FileId} {e : Event U L} (hcount : 0 < count)
    (hs : Browsed l ids s b) (h : BrowseStep l count (s, b) e (s', b')) : Browsed l ids s' b' := by
  cases h with
  | page clean idle last run => exact page_browsed hs hcount clean idle last run
  | row step items => exact row_browsed hs step items
  | other step others => exact other_browsed hs step others

theorem recorded_of_run {history : List (Event U L)} (hrun : Run System.initial Step history s) :
    Recorded s := by
  have hs := @Run.invariant _ _ _ _ (fun s => Consistent s ∧ Recorded s) _ _ hrun
    ⟨initial_consistent, .nil⟩
    fun _ _ _ h hstep => ⟨step_consistent h.1 hstep, step_recorded h.1 h.2 hstep⟩
  exact hs.2

theorem browsed_of_run {before history : List (Event U L)} {s₀ : System S U L} (hcount : 0 < count)
    (hbefore : Run System.initial Step before s₀)
    (hrun : Run (s₀, Browser.initial) (BrowseStep l count) history (s, b)) :
    Browsed l s₀.ids s b := by
  have hinit : Browsed l s₀.ids s₀ Browser.initial :=
    ⟨consistent_of_run hbefore, recorded_of_run hbefore, List.suffix_refl _,
      fun j fileId _ hlt => absurd hlt (Nat.not_lt_zero j)⟩
  exact @Run.invariant _ _ _ _ (fun p => Browsed l s₀.ids p.1 p.2) _ _ hrun hinit
    fun _ _ _ hs hstep => browseStep_browsed hcount hs hstep

omit [Score S] in
/-- Two rows or more are asked for and none is copied: the page begins behind the list. -/
theorem length_le_of_empty {alloc : Allocator} {st : Store S} {fromId : Nat} {endId : Int}
    {page : RangeList} (hcount : 2 ≤ count) (hend : pageEnd fromId count = .ok endId)
    (hpage : pageRows alloc .serve fromId endId count st = .ok page) (hempty : page.getNum = 0) :
    (listAt st fileInfoList).length ≤ fromId := by
  obtain ⟨-, hint, rfl⟩ := pageEnd_eq_ok.mp hend
  have hlen := length_copiedRows (listAt st fileInfoList) fromId hint
  rw [← getNum_pageRows alloc st fromId _ hpage, hempty] at hlen
  have hsize := isInt_of_pageRows alloc st fromId _ hpage
  simp only [IsInt, intMin, intMax] at hsize
  obtain hone | hnil := (copiedRows_eq_nil_iff (by omega) (by omega) hint).mp
    (List.length_eq_zero_iff.mp hlen)
  · omega
  · rw [lrange_of_nonneg _ (Int.natCast_nonneg _) (by omega), List.take_eq_nil_iff,
      List.drop_eq_nil_iff, Int.toNat_natCast] at hnil
    exact hnil.resolve_left (by omega)

/-- A client that asks for two rows or more at a time, goes on behind the rows it was shown and
ends at an empty page has seen the id of every file that was uploaded before it began, whatever
is uploaded in the meantime. -/
theorem browse_complete (l : L) (count : Int) (hcount : 2 ≤ count)
    (before history : List (Event U L)) (s₀ s : System S U L) (b : Browser)
    (hbefore : Run System.initial Step before s₀)
    (hrun : Run (s₀, Browser.initial) (BrowseStep l count) history (s, b))
    (hidle : s.lister l = .idle) (alloc : Allocator) (endId : Int) (page : RangeList)
    (hend : pageEnd b.next count = .ok endId)
    (hpage : pageRows alloc .serve b.next endId count s.store = .ok page)
    (hempty : page.getNum = 0) :
    ∀ fileId ∈ s₀.ids, fileId.bytes ∈ b.shown := by
  have hs := browsed_of_run (by omega) hbefore hrun
  have hall : s.ids.length ≤ b.next :=
    hs.recorded.length_eq ▸ length_le_of_empty hcount hend hpage hempty
  intro fileId hold
  obtain ⟨j, hj⟩ := List.mem_iff_getElem?.mp (hs.old.subset hold)
  have hlt : j < b.next := (List.getElem?_eq_some_iff.mp hj).1.trans_le hall
  refine (hs.passed j fileId hj hlt hold).resolve_right ?_
  rintro ⟨page', i, fields, k, hlisting, -⟩
  rw [hidle] at hlisting
  cases hlisting

/-! ## Without uploads in between -/

/-- The rows of its page that the lister has not shown. -/
def remaining (l : L) (s : System S U L) : Nat :=
  match s.lister l with
  | .idle => 0
  | .listing page i _ => page.getNum.toNat - i

/-- The ids that have been shown are the first ones of the list, and the rows of the page go on
there. -/
structure InOrder (l : L) (s : System S U L) (b : Browser) : Prop where
  shown : b.shown.reverse = (s.ids.take b.shown.length).map fun fileId => fileId.bytes
  next : b.shown.length + remaining l s = b.next
  inside : b.next ≤ s.ids.length
  ahead : ∀ page i fields, s.lister l = .listing page i fields → ∀ k fileId, i ≤ k →
    k < page.getNum.toNat → s.ids[b.shown.length + (k - i)]? = some fileId → ShowsId page k fileId

omit [Score S] [DecidableEq U] in
theorem page_inOrder {alloc : Allocator} {endId : Int} {page : RangeList} (hrec : Recorded s)
    (h : InOrder l s b) (hcount : 0 < count) (hclean : Clean alloc) (hidle : s.lister l = .idle)
    (hend : pageEnd b.next count = .ok endId)
    (hpage : pageRows alloc .serve b.next endId count s.store = .ok page) :
    InOrder l { s with lister := Function.update s.lister l (Lister.next page 0 Fields.initial) }
      { b with next := b.next + page.getNum.toNat } := by
  have hshown : b.shown.length = b.next := by
    have hnext := h.next
    rwa [remaining, hidle] at hnext
  have hnext : remaining l
      { s with lister := Function.update s.lister l (Lister.next page 0 Fields.initial) } =
        page.getNum.toNat := by
    simp only [remaining, Function.update_self, Lister.next]
    split_ifs with hpos
    · rfl
    · exact (Nat.eq_zero_of_not_pos hpos).symm
  refine ⟨h.shown, by rw [hnext, ← hshown], ?_, ?_⟩
  · obtain ⟨-, hint, rfl⟩ := pageEnd_eq_ok.mp hend
    have hlen := length_copiedRows (listAt s.store fileInfoList) b.next hint
    rw [← getNum_pageRows alloc s.store b.next _ hpage, copiedRows,
      lrange_of_nonneg _ (Int.natCast_nonneg _) (by omega), List.length_take, List.length_take,
      List.length_drop, Int.toNat_natCast, ← hrec.length_eq] at hlen
    have hinside := h.inside
    dsimp only
    omega
  · intro page' i fields hlisting k fileId hik hk hid
    simp only [Function.update_self, Lister.next] at hlisting
    split_ifs at hlisting
    obtain ⟨rfl, rfl, rfl⟩ := Lister.listing.inj hlisting
    rw [hshown, Nat.sub_zero] at hid
    exact showsId_pageRows hclean hrec hcount hend hpage hk hid

theorem row_inOrder {item : Item} (hs : Consistent s) (h : InOrder l s b)
    (hstep : Step s (.score l) s') (hitems : s'.items = item :: s.items) :
    InOrder l s' { b with shown := item.id :: b.shown } := by
  cases hstep with
  | @score _ page i fields fields' item' hlisting hrun =>
    obtain rfl : item' = item := (List.cons.inj hitems).1
    obtain ⟨hi, -⟩ := hs.rows l page i fields hlisting
    have hremaining : remaining l s = page.getNum.toNat - i := by rw [remaining, hlisting]
    have hlt : b.shown.length < s.ids.length := by
      have hnext := h.next
      have hinside := h.inside
      omega
    have hget := List.getElem?_eq_getElem hlt
    have hid : item'.id = s.ids[b.shown.length].bytes :=
      id_of_itemAt (h.ahead page i fields hlisting i _ le_rfl hi (by rw [Nat.sub_self]; exact hget))
        hrun
    have hnext : remaining l
        { s with
          lister := Function.update s.lister l (Lister.next page (i + 1) fields')
          items := item' :: s.items } = page.getNum.toNat - (i + 1) := by
      simp only [remaining, Function.update_self, Lister.next]
      split_ifs with hlast
      · rfl
      · exact (Nat.sub_eq_zero_of_le (Nat.le_of_not_lt hlast)).symm
    constructor
    case shown =>
      rw [List.reverse_cons, h.shown, List.length_cons, List.take_add_one, hget, hid,
        List.map_append]
      rfl
    case next =>
      rw [hnext, List.length_cons, ← h.next, hremaining]
      omega
    case inside => exact h.inside
    case ahead =>
      intro page' i' fields'' hlisting' k fileId hik hk hj
      simp only [Function.update_self, Lister.next] at hlisting'
      split_ifs at hlisting'
      obtain ⟨rfl, rfl, rfl⟩ := Lister.listing.inj hlisting'
      refine h.ahead page i fields hlisting k fileId (by omega) hk ?_
      rw [List.length_cons] at hj
      rw [← hj]
      congr 1
      omega

/-- Steps that add no upload keep the order. -/
theorem browseStep_inOrder {ids : List FileId} {e : Event U L} (hcount : 0 < count)
    (hs : Browsed l ids s b) (h : InOrder l s b) (hstep : BrowseStep l count (s, b) e (s', b'))
    (hquiet : s'.ids = s.ids) : InOrder l s' b' := by
  cases hstep with
  | page clean idle last run => exact page_inOrder hs.recorded h hcount clean idle last run
  | row step items => exact row_inOrder hs.consistent h step items
  | other step others =>
    have hlister := step_lister step others
    refine ⟨hquiet ▸ h.shown, ?_, hquiet ▸ h.inside, ?_⟩
    · simpa only [remaining, hlister] using h.next
    · simpa only [hlister, hquiet] using h.ahead

theorem inOrder_of_run {before history : List (Event U L)} {s₀ : System S U L} (hcount : 0 < count)
    (hbefore : Run System.initial Step before s₀) (hstart : s₀.lister l = .idle)
    (hrun : Run (s₀, Browser.initial) (BrowseStep l count) history (s, b))
    (hquiet : s.ids = s₀.ids) : InOrder l s b := by
  generalize hp : (s, b) = p at hrun
  induction hrun generalizing s b with
  | nil =>
    obtain ⟨rfl, rfl⟩ := Prod.mk.inj hp
    refine ⟨rfl, ?_, Nat.zero_le _, ?_⟩
    · rw [remaining, hstart]
      rfl
    · intro page i fields hlisting
      rw [hstart] at hlisting
      cases hlisting
  | @cons history p e p' hrun hstep ih =>
    obtain ⟨s₁, b₁⟩ := p
    subst hp
    have hs := browsed_of_run hcount hbefore hrun
    have hids : s.ids = s₁.ids := by
      obtain hsame | ⟨fileId, -, hnew⟩ := step_ids hstep.step
      · exact hsame
      · -- an id more would not go away again
        have hle := hs.old.length_le
        rw [← hquiet, hnew, List.length_cons] at hle
        omega
    exact browseStep_inOrder hcount hs (ih (hids.symm.trans hquiet) rfl) hstep hids

/-- If nothing is uploaded in the meantime, the client is shown every upload exactly once, the
latest first. -/
theorem browse_exact (l : L) (count : Int) (hcount : 2 ≤ count)
    (before history : List (Event U L)) (s₀ s : System S U L) (b : Browser)
    (hbefore : Run System.initial Step before s₀) (hstart : s₀.lister l = .idle)
    (hrun : Run (s₀, Browser.initial) (BrowseStep l count) history (s, b))
    (hidle : s.lister l = .idle) (hquiet : s.ids = s₀.ids)
    (alloc : Allocator) (endId : Int) (page : RangeList) (hend : pageEnd b.next count = .ok endId)
    (hpage : pageRows alloc .serve b.next endId count s.store = .ok page)
    (hempty : page.getNum = 0) :
    b.shown.reverse = s₀.ids.map fun fileId => fileId.bytes := by
  have hs := browsed_of_run (by omega) hbefore hrun
  have hall : s.ids.length ≤ b.next :=
    hs.recorded.length_eq ▸ length_le_of_empty hcount hend hpage hempty
  have h := inOrder_of_run (by omega) hbefore hstart hrun hquiet
  have hnext : b.shown.length = b.next := by
    have hnext := h.next
    rwa [remaining, hidle] at hnext
  rw [h.shown, hnext, List.take_of_length_le hall, hquiet]

/-! ## Whole uploads and whole pages -/

section

variable (l) (count)

/-- The client waits while others work. -/
theorem browse_of_others {history : List (Event U L)} (h : Run s Step history s')
    (hothers : ∀ e ∈ history, e ≠ .score l ∧ ∀ alloc fromId n, e ≠ .range l alloc fromId n) :
    Run (s, b) (BrowseStep l count) history (s', b) := by
  induction h with
  | nil => exact .nil
  | cons _ hstep ih =>
    rw [List.forall_mem_cons] at hothers
    exact (ih hothers.2).cons (.other hstep hothers.1)

/-- The rows of a page, one behind the other, move only the lister and what has been shown. -/
theorem browse_rows {env : ListEnv} {page : RangeList} {n i : Nat} {fields : Fields}
    {items : List Item} (hserve : ∀ i, env.score i = .serve)
    (hlister : s.lister l = Lister.next page i fields) (hn : i + n = page.getNum.toNat)
    (h : itemLoop env s.store page.values n i fields = .ok items) :
    ∃ s' b', Run (s, b) (BrowseStep l count) (List.replicate n (.score l)) (s', b') ∧
      s'.lister l = .idle ∧ s'.store = s.store ∧ s'.uploader = s.uploader ∧ s'.ids = s.ids ∧
      b'.next = b.next := by
  induction n generalizing s b i fields items with
  | zero =>
    rw [Lister.next, if_neg (by omega)] at hlister
    exact ⟨s, b, .nil, hlister, rfl, rfl, rfl, rfl⟩
  | succ n ih =>
    obtain ⟨⟨fields', item⟩, hitem, h⟩ := bind_eq_ok.mp h
    obtain ⟨rest, hrest, -⟩ := bind_eq_ok.mp h
    rw [Lister.next, if_pos (by omega)] at hlister
    have hstep : BrowseStep l count (s, b) (.score l) _ :=
      .row (.score hlister (hserve i ▸ hitem)) rfl
    obtain ⟨s', b', hrun, hafter⟩ := ih (s := { s with
        lister := Function.update s.lister l (Lister.next page (i + 1) fields')
        items := item :: s.items }) (b := { b with shown := item.id :: b.shown })
      (Function.update_self l _ _) (by omega) hrest
    refine ⟨s', b', ?_, hafter⟩
    rw [List.replicate_succ']
    exact (Run.single hstep).append hrun

/-- The number of rows that `fileListToJsonPrint` makes items of. -/
def pageLength (env : ListEnv) (fromId endId count : Int) (st : Store S) : Checked Nat := do
  let page ← pageRows env.alloc .serve fromId endId count st
  let _ ← itemLoop env st page.values page.getNum.toNat 0 Fields.initial
  return page.getNum.toNat

/-- The client looks at a page of `n` rows. -/
theorem browse_page (env : ListEnv) (endId : Int) (n : Nat) (hserve : ∀ i, env.score i = .serve)
    (hclean : Clean env.alloc) (hidle : s.lister l = .idle) (hend : pageEnd b.next count = .ok endId)
    (hpage : pageLength env b.next endId count s.store = .ok n) :
    ∃ s' b', Run (s, b) (BrowseStep l count)
        (List.replicate n (.score l) ++ [.range l env.alloc b.next count]) (s', b') ∧
      s'.lister l = .idle ∧ s'.store = s.store ∧ s'.uploader = s.uploader ∧ s'.ids = s.ids ∧
      b'.next = b.next + n := by
  obtain ⟨page, hrows, hpage⟩ := bind_eq_ok.mp hpage
  obtain ⟨items, hitems, hpage⟩ := bind_eq_ok.mp hpage
  obtain rfl := Except.ok.inj hpage
  have hrange : BrowseStep l count (s, b) (.range l env.alloc b.next count) _ :=
    .page hclean hidle hend hrows
  obtain ⟨s', b', hrun, hafter⟩ := browse_rows l count
    (b := { b with next := b.next + page.getNum.toNat })
    (s := { s with lister := Function.update s.lister l (Lister.next page 0 Fields.initial) })
    hserve (Function.update_self l _ _) (Nat.zero_add _) hitems
  exact ⟨s', b', (Run.single hrange).append hrun, hafter⟩

end

/-- A new file is uploaded, and both commands are carried out. -/
theorem run_upload (u : U) (fileId : FileId) (fileUrl fileName createTime user : CStr)
    (hs : Consistent s) (hidle : s.uploader u = .idle) (hfresh : fileId ∉ s.ids)
    (hfits : RecordFits fileId.bytes fileUrl.bytes fileName.bytes createTime.bytes user.bytes) :
    Run s Step [.count u, .push u fileId fileUrl fileName createTime user]
      { s with
        store := counted (pushed s.store fileInfoList
          (record fileId.bytes fileUrl.bytes fileName.bytes createTime.bytes user.bytes))
            fileHotZset fileId.bytes
        ids := fileId :: s.ids } := by
  let env : StoreEnv :=
    { connected := true
      allocated := true
      createTime := createTime
      push := .serve
      count := .serve }
  have happlied : BothApplied env s.store := ⟨⟨rfl, rfl⟩, ⟨rfl, hs.list⟩, ⟨rfl, hs.zset⟩⟩
  have hcall := fileMsgStoreToRedis_applied fileId.readString_array fileUrl.readString_array
    fileName.readString_array hfits happlied
  exact run_fileMsgStoreToRedis hidle hfresh ⟨rfl, rfl⟩ ⟨rfl, rfl⟩ hcall

/-! ## Two uploads -/

def secondId : FileId where
  toCStr := ⟨ascii "g/2.c", by decide⟩
  delimiter_notMem := by decide
  backslash_notMem := by decide

def thirdId : FileId where
  toCStr := ⟨ascii "g/3.c", by decide⟩
  delimiter_notMem := by decide
  backslash_notMem := by decide

/-- The keys behind uploads with these ids, the latest in front. -/
def uploadedStore : List FileId → Store Nat
  | [] => emptyStore Nat
  | fileId :: ids =>
    counted (pushed (uploadedStore ids) fileInfoList
      (record fileId.bytes plainUpload.fileUrl.bytes plainUpload.fileName.bytes
        plainUpload.createTime.bytes zhao.bytes)) fileHotZset fileId.bytes

def uploadedState (ids : List FileId) : System Nat Unit Unit where
  store := uploadedStore ids
  uploader := fun _ => .idle
  lister := fun _ => .idle
  ids := ids
  items := []

theorem run_uploadedState {ids : List FileId} (hnodup : ids.Nodup)
    (hfits : ∀ fileId ∈ ids, RecordFits fileId.bytes plainUpload.fileUrl.bytes
      plainUpload.fileName.bytes plainUpload.createTime.bytes zhao.bytes) :
    ∃ history, Run System.initial Step history (uploadedState ids) := by
  induction ids with
  | nil => exact ⟨[], .nil⟩
  | cons fileId ids ih =>
    rw [List.nodup_cons] at hnodup
    rw [List.forall_mem_cons] at hfits
    obtain ⟨history, hrun⟩ := ih hnodup.2 hfits.2
    exact ⟨_, hrun.append (run_upload () fileId _ _ _ _ (consistent_of_run hrun) rfl hnodup.1 hfits.1)⟩

theorem exists_run_two :
    ∃ history, Run System.initial Step history (uploadedState [secondId, sampleId]) :=
  run_uploadedState (.of_map (fun fileId => fileId.bytes) (by decide +kernel)) (by decide +kernel)

theorem clean_zeroed : Clean Allocator.zeroed := by
  intro n b hb
  simp only [Allocator.zeroed] at hb
  split_ifs at hb
  obtain rfl := Option.some.inj hb
  simp [backslash, zeros]

/-- What the client is served. -/
def servedList : ListEnv where
  connected := true
  alloc := .zeroed
  range := .serve
  score := fun _ => .serve
  print := fun _ => []
  callocated := true

/-- The first page shows one of the two files. -/
theorem exists_firstPage :
    ∃ (history : List (Event Unit Unit)) (s : System Nat Unit Unit) (b : Browser),
      Run (uploadedState [secondId, sampleId], Browser.initial) (BrowseStep () 2) history (s, b) ∧
        s.lister () = .idle ∧ s.store = uploadedStore [secondId, sampleId] ∧
        s.uploader = (fun _ => .idle) ∧ s.ids = [secondId, sampleId] ∧ b.next = 1 := by
  obtain ⟨s, b, hrun, hafter⟩ := browse_page () 2 servedList 1 1
    (b := Browser.initial) (s := uploadedState [secondId, sampleId]) (fun _ => rfl) clean_zeroed rfl
    (by decide +kernel) (by decide +kernel)
  exact ⟨_, s, b, hrun, hafter⟩

/-- A third file is uploaded between the two pages, and the second page shows one file again. -/
theorem browse_complete_two :
    ∃ (history : List (Event Unit Unit)) (s : System Nat Unit Unit) (b : Browser),
      Run (uploadedState [secondId, sampleId], Browser.initial) (BrowseStep () 2) history (s, b) ∧
        s.ids = [thirdId, secondId, sampleId] ∧
        ∀ fileId ∈ [secondId, sampleId], fileId.bytes ∈ b.shown := by
  obtain ⟨before, hbefore⟩ := exists_run_two
  obtain ⟨first, s, b, hfirst, hidle, hstore, huploader, hids, hnext⟩ := exists_firstPage
  have hs := (browsed_of_run (by decide) hbefore hfirst).consistent
  have hfresh : thirdId ∉ [secondId, sampleId] := fun hmem =>
    absurd (List.mem_map_of_mem (f := fun fileId => fileId.bytes) hmem) (by decide +kernel)
  have hlength : pageLength servedList 1 2 2 (uploadedStore [thirdId, secondId, sampleId]) =
      .ok 2 := by
    decide +kernel
  have hupload := run_upload () thirdId plainUpload.fileUrl plainUpload.fileName
    plainUpload.createTime zhao hs (by rw [huploader]) (hids ▸ hfresh) (by decide +kernel)
  have hothers := browse_of_others () 2 (b := b) hupload (by simp)
  rw [hstore, hids] at hothers
  obtain ⟨s', b', hsecond, hidle', hstore', -, hids', hnext'⟩ :=
    browse_page () 2 servedList 2 2 (b := b)
      (s := { s with
        store := uploadedStore [thirdId, secondId, sampleId]
        ids := [thirdId, secondId, sampleId] })
      (fun _ => rfl) clean_zeroed hidle (hnext ▸ by decide +kernel) (hnext ▸ hlength)
  have hrun := (hfirst.append hothers).append hsecond
  have hbehind : (pageRows .zeroed .serve 3 4 2 (uploadedStore [thirdId, secondId, sampleId])).map
      RangeList.getNum = .ok 0 := by decide +kernel
  obtain ⟨page, hpage, hempty⟩ := map_eq_ok.mp hbehind
  rw [hnext] at hnext'
  exact ⟨_, s', b', hrun, hids', browse_complete () 2 le_rfl before _ _ s' b' hbefore hrun hidle'
    .zeroed 4 page (by rw [hnext']; decide +kernel) (by rw [hnext', hstore']; exact hpage) hempty⟩

/-- The two files are shown on two pages. -/
theorem browse_exact_two :
    ∃ (history : List (Event Unit Unit)) (s : System Nat Unit Unit) (b : Browser),
      Run (uploadedState [secondId, sampleId], Browser.initial) (BrowseStep () 2) history (s, b) ∧
        b.shown.reverse = [secondId.bytes, sampleId.bytes] := by
  obtain ⟨before, hbefore⟩ := exists_run_two
  obtain ⟨first, s, b, hfirst, hidle, hstore, -, hids, hnext⟩ := exists_firstPage
  have hlength : pageLength servedList 1 2 2 (uploadedStore [secondId, sampleId]) = .ok 1 := by
    decide +kernel
  obtain ⟨s', b', hsecond, hidle', hstore', -, hids', hnext'⟩ :=
    browse_page () 2 servedList 2 1 (b := b) (s := s) (fun _ => rfl) clean_zeroed hidle
      (hnext ▸ by decide +kernel)
      (by rw [hnext, hstore]; exact hlength)
  have hrun := hfirst.append hsecond
  have hbehind : (pageRows .zeroed .serve 2 3 2 (uploadedStore [secondId, sampleId])).map
      RangeList.getNum = .ok 0 := by decide +kernel
  obtain ⟨page, hpage, hempty⟩ := map_eq_ok.mp hbehind
  rw [hnext] at hnext'
  exact ⟨_, s', b', hrun, browse_exact () 2 le_rfl before _ _ s' b' hbefore rfl hrun hidle'
    (hids'.trans hids) .zeroed 3 page (by rw [hnext']; decide +kernel)
    (by rw [hnext', hstore', hstore]; exact hpage) hempty⟩

end CgiFileStore
