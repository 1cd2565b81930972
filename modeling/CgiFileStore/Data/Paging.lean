import CgiFileStore.Data.DataOp
import CgiFileStore.Redis.RangeRows

/-!
# Pages of the listing

A page is asked for by `fromId` and `count`. The main results give the pairs for which the
rows copied fit the rows allocated, and those for which the page is the slice of the list
that was asked for.
-/

namespace CgiFileStore

open CSem Redis

/-! ## What a page copies -/

/-- The elements that are copied from the list `l`. -/
def copiedRows (l : List (List Byte)) (fromId endId : Int) : List (List Byte) :=
  (lrange l fromId endId).take (maxCount (lrange l fromId endId).length endId).toNat

theorem pageEnd_eq_ok {fromId count endId : Int} :
    pageEnd fromId count = .ok endId ↔
      IsInt (fromId + count) ∧ IsInt (fromId + count - 1) ∧ endId = fromId + count - 1 := by
  simp only [pageEnd, bind_eq_ok, toChecked_eq_ok]
  constructor
  · rintro ⟨sum, ⟨hsum, rfl⟩, hend⟩
    exact ⟨hsum, hend⟩
  · rintro ⟨hsum, hend⟩
    exact ⟨_, ⟨hsum, rfl⟩, hend⟩

theorem pageEnd_of_sum {fromId count : Int} (hlow : -2147483648 < fromId + count)
    (hhigh : fromId + count ≤ 2147483647) :
    pageEnd fromId count = .ok (fromId + count - 1) ∧ IsInt (fromId + count - 1) := by
  have hsum : IsInt (fromId + count) := ⟨hlow.le, hhigh⟩
  have hint : IsInt (fromId + count - 1) := by
    simp only [IsInt, intMin, intMax]
    omega
  exact ⟨pageEnd_eq_ok.mpr ⟨hsum, hint, rfl⟩, hint⟩

theorem maxCount_le {n : Nat} {count : Int} (h : IsInt count) : maxCount n count ≤ n := by
  simp only [IsInt, intMin, intMax] at h
  unfold maxCount
  split
  · next hgt =>
    obtain hneg | hpos := lt_or_ge count 0
    · omega
    · rw [toSize_of_nonneg hpos (by omega)] at hgt
      omega
  · exact wrapInt_natCast_le n

theorem length_copiedRows (l : List (List Byte)) (fromId : Int) {endId : Int} (h : IsInt endId) :
    (copiedRows l fromId endId).length =
      (maxCount (lrange l fromId endId).length endId).toNat := by
  have := maxCount_le (n := (lrange l fromId endId).length) h
  rw [copiedRows, List.length_take]
  omega

section

variable {S : Type} (alloc : Allocator) (st : Store S) (fromId endId : Int) {count : Int}

/-- A page is the copy of its rows into the block that was allocated. -/
theorem pageRows_serve (hsize : IsInt (count * 1024)) :
    ∃ retn, pageRows alloc .serve fromId endId count st =
      (copyRows (alloc.malloc (toSize (count * 1024))) 0
        (copiedRows (listAt st fileInfoList) fromId endId)).map fun values =>
          { retn
            getNum := maxCount (lrange (listAt st fileInfoList) fromId endId).length endId
            values } := by
  have hmul : count * (valuesIdSize : Int) = count * 1024 := rfl
  obtain ⟨retn, h⟩ := ropRangeList_serve st fileInfoList fromId endId
    (alloc.malloc (toSize (count * 1024)))
  refine ⟨retn, ?_⟩
  rw [pageRows, hmul, toChecked_of_isInt hsize, ok_bind, h, copiedRows]

theorem isInt_of_pageRows {page : RangeList}
    (h : pageRows alloc .serve fromId endId count st = .ok page) : IsInt (count * 1024) := by
  obtain ⟨size, hsize, -⟩ := bind_eq_ok.mp h
  exact (toChecked_eq_ok.mp hsize).1

variable {alloc}

/-- The block that was asked for, which is never granted for a negative number of rows. -/
theorem length_block (hsize : IsInt (count * 1024)) {b : Block}
    (hb : alloc.malloc (toSize (count * 1024)) = some b) : b.bytes.length = count.toNat * 1024 := by
  simp only [IsInt, intMin, intMax] at hsize
  obtain hneg | hpos := lt_or_ge count 0
  · have hhuge : 2 ^ 63 ≤ toSize (count * 1024) := by
      rw [toSize_of_neg (by omega) (by omega)]
      omega
    rw [alloc.malloc_huge _ hhuge] at hb
    cases hb
  · rw [alloc.length_of_malloc _ b hb, toSize_of_nonneg (by omega) (by omega)]
    omega

variable (alloc)

theorem pageRows_isOk_iff (hsize : IsInt (count * 1024)) :
    (∃ page, pageRows alloc .serve fromId endId count st = .ok page) ↔
      copiedRows (listAt st fileInfoList) fromId endId = [] ∨
        (alloc.malloc (toSize (count * 1024))).isSome ∧
          (copiedRows (listAt st fileInfoList) fromId endId).length ≤ count.toNat := by
  obtain ⟨retn, hpage⟩ := pageRows_serve alloc st fromId endId hsize
  have hmap : (∃ page, pageRows alloc .serve fromId endId count st = .ok page) ↔
      ∃ values, copyRows (alloc.malloc (toSize (count * 1024))) 0
        (copiedRows (listAt st fileInfoList) fromId endId) = .ok values := by
    simp only [hpage, map_eq_ok]
    constructor
    · rintro ⟨page, values, hvalues, -⟩
      exact ⟨values, hvalues⟩
    · rintro ⟨values, hvalues⟩
      exact ⟨_, values, hvalues, rfl⟩
  rw [hmap]
  cases hb : alloc.malloc (toSize (count * 1024)) with
  | none => simp [copyRows_none_isOk_iff]
  | some b =>
    rw [copyRows_isOk_iff (length_block hsize hb)]
    constructor
    · intro h
      exact .inr ⟨rfl, h⟩
    · rintro (h | ⟨-, h⟩)
      · simp [h]
      · exact h

theorem getNum_pageRows {page : RangeList}
    (h : pageRows alloc .serve fromId endId count st = .ok page) :
    page.getNum = maxCount (lrange (listAt st fileInfoList) fromId endId).length endId := by
  obtain ⟨retn, hpage⟩ :=
    pageRows_serve alloc st fromId endId (isInt_of_pageRows alloc st fromId endId h)
  rw [hpage] at h
  obtain ⟨values, -, rfl⟩ := map_eq_ok.mp h
  rfl

/-- A page with a row fills the block that was allocated for it. -/
theorem values_pageRows {page : RangeList}
    (hpage : pageRows alloc .serve fromId endId count st = .ok page)
    (hne : copiedRows (listAt st fileInfoList) fromId endId ≠ []) :
    ∃ b, alloc.malloc (toSize (count * 1024)) = some b ∧
      (copiedRows (listAt st fileInfoList) fromId endId).length * 1024 ≤ b.bytes.length ∧
        page.values = some
          { before := b.before
            bytes := filledRows (copiedRows (listAt st fileInfoList) fromId endId) b.bytes } := by
  have hsize := isInt_of_pageRows alloc st fromId endId hpage
  obtain ⟨hsome, hle⟩ :=
    ((pageRows_isOk_iff alloc st fromId endId hsize).mp ⟨page, hpage⟩).resolve_left hne
  obtain ⟨b, hb⟩ := Option.isSome_iff_exists.mp hsome
  have hfit : (copiedRows (listAt st fileInfoList) fromId endId).length * 1024 ≤
      b.bytes.length := by
    rw [length_block hsize hb]
    exact Nat.mul_le_mul_right 1024 hle
  obtain ⟨retn, hrun⟩ := pageRows_serve alloc st fromId endId hsize
  rw [hpage, hb, copyRows_eq hfit] at hrun
  obtain rfl := Except.ok.inj hrun
  exact ⟨b, hb, hfit, rfl⟩

/-- Row `i` of a page starts with element `i` of what was copied. -/
theorem rowAt_pageRows {page : RangeList} {i : Nat} {value line : List Byte} {prev : Byte}
    (hpage : pageRows alloc .serve fromId endId count st = .ok page)
    (hvalue : (copiedRows (listAt st fileInfoList) fromId endId)[i]? = some value)
    (hrow : rowAt page.values i = .ok (prev, line)) :
    ∃ rest, line = padTo 1023 (cstring value) ++ rest := by
  have hne : copiedRows (listAt st fileInfoList) fromId endId ≠ [] := by
    intro hnil
    simp [hnil] at hvalue
  obtain ⟨b, -, hfit, hvalues⟩ := values_pageRows alloc st fromId endId hpage hne
  rw [hvalues] at hrow
  obtain ⟨p, -, hline⟩ := bind_eq_ok.mp hrow
  obtain ⟨-, rfl⟩ : p = prev ∧ _ = line := by simpa using hline
  exact drop_filledRows hfit hvalue

/-- The byte in front of a row is one that the allocation has left there. -/
theorem exists_rowAt_pageRows {page : RangeList} {i : Nat}
    (hpage : pageRows alloc .serve fromId endId count st = .ok page)
    (hi : i < (copiedRows (listAt st fileInfoList) fromId endId).length) :
    ∃ b prev line, alloc.malloc (toSize (count * 1024)) = some b ∧
      b.prev (i * valuesIdSize) = .ok prev ∧ rowAt page.values i = .ok (prev, line) := by
  have hne : copiedRows (listAt st fileInfoList) fromId endId ≠ [] :=
    List.length_pos_iff.mp (by omega)
  obtain ⟨b, hb, hfit, hvalues⟩ := values_pageRows alloc st fromId endId hpage hne
  rw [hvalues]
  generalize copiedRows (listAt st fileInfoList) fromId endId = es at *
  cases i with
  | zero => exact ⟨b, b.before, _, hb, rfl, rfl⟩
  | succ i =>
    have hidx : (i + 1) * valuesIdSize = i * 1024 + 1023 + 1 := by
      rw [valuesIdSize_eq]
      omega
    have hlast := getElem?_filledRows_last hfit (Nat.lt_of_succ_lt hi)
    have hin : i * 1024 + 1023 < b.bytes.length := by
      have := Nat.mul_le_mul_right 1024 hi
      omega
    rw [List.getElem?_eq_getElem hin] at hlast
    refine ⟨b, b.bytes[i * 1024 + 1023], (filledRows es b.bytes).drop (i * 1024 + 1023 + 1), hb,
      ?_, ?_⟩
    · rw [hidx]
      simp only [Block.prev, load, List.getElem?_eq_getElem hin]
    · simp only [rowAt, hidx, Block.prev, load, hlast, ok_bind, pure_eq_ok]

/-- A value that a row can hold is found there, with its NULs. -/
theorem rowAt_value {page : RangeList} {i : Nat} {value : List Byte}
    (hpage : pageRows alloc .serve fromId endId count st = .ok page)
    (hvalue : (copiedRows (listAt st fileInfoList) fromId endId)[i]? = some value)
    (h0 : 0 ∉ value) (hshort : value.length ≤ 1023) :
    ∃ b prev rest, alloc.malloc (toSize (count * 1024)) = some b ∧
      b.prev (i * valuesIdSize) = .ok prev ∧
        rowAt page.values i = .ok (prev, value ++ rest) := by
  obtain ⟨b, prev, line, hb, hprev, hrow⟩ := exists_rowAt_pageRows alloc st fromId endId hpage
    (List.getElem?_eq_some_iff.mp hvalue).1
  obtain ⟨rest, hline⟩ := rowAt_pageRows alloc st fromId endId hpage hvalue hrow
  rw [padTo_cstring h0 hshort, List.append_assoc] at hline
  exact ⟨b, prev, _, hb, hprev, hline ▸ hrow⟩

end

/-! ## Which rows are in range -/

section

variable {l : List (List Byte)} {fromId count : Int}

/-- At least one row asked for: no more rows are copied. -/
theorem length_copiedRows_le (hcount : 0 < count) (hint : IsInt (fromId + count - 1)) :
    (copiedRows l fromId (fromId + count - 1)).length ≤ count.toNat := by
  have hlen := length_lrange l fromId (fromId + count - 1)
  rw [length_copiedRows l fromId hint]
  simp only [IsInt, intMin, intMax] at hint
  generalize (lrange l fromId (fromId + count - 1)).length = n at hlen ⊢
  have hwrap := wrapInt_natCast_le n
  unfold maxCount
  obtain hneg | hnonneg := lt_or_ge (fromId + count - 1) 0
  · -- both ends of the range count from the end of the list
    rw [if_pos hneg, if_pos (by omega)] at hlen
    split <;> omega
  · rw [if_neg (by omega)] at hlen
    rw [toSize_of_nonneg hnonneg (by omega)]
    split at hlen <;> split <;> omega

/-- Rows asked for: none is copied when none is in range, or when the end index is 0, which
is the bound on the rows as well. -/
theorem copiedRows_eq_nil_iff (hcount : 0 < count) (hlt : count < 2 ^ 21)
    (hint : IsInt (fromId + count - 1)) :
    copiedRows l fromId (fromId + count - 1) = [] ↔
      fromId + count = 1 ∨ lrange l fromId (fromId + count - 1) = [] := by
  have hlen := length_lrange l fromId (fromId + count - 1)
  rw [← List.length_eq_zero_iff, ← List.length_eq_zero_iff, length_copiedRows l fromId hint]
  simp only [IsInt, intMin, intMax] at hint
  generalize (lrange l fromId (fromId + count - 1)).length = n at hlen ⊢
  have hwrap : n ≤ 2 ^ 31 - 1 → wrapInt n = n := fun h =>
    wrapInt_of_isInt ⟨by simp only [intMin]; omega, by simp only [intMax]; omega⟩
  unfold maxCount
  obtain hneg | hnonneg := lt_or_ge (fromId + count - 1) 0
  · rw [if_pos hneg, if_pos (by omega)] at hlen
    rw [toSize_of_neg hneg (by omega), if_neg (by omega), hwrap (by omega)]
    omega
  · rw [if_neg (by omega)] at hlen
    rw [toSize_of_nonneg hnonneg (by omega)]
    split at hlen <;> split <;> omega

/-- A range that ends before the first element asked for, counted from the end of the list,
but still reaches over elements, and over a number of them that is positive as an `int`. -/
def RangeWraps (n : Nat) (fromId count : Int) : Prop :=
  (0 ≤ fromId ∧ fromId ≤ -count ∧ -count < n) ∧ n < 2 ^ 64 + fromId ∧ 0 < wrapInt (n + count)

/-- A negative end index is as a `size_t` no bound on the rows. -/
theorem maxCount_pos_iff {n : Nat} {count : Int} (hneg : count < 0) (hint : IsInt count) :
    0 < maxCount n count ↔ (n : Int) ≤ count + 2 ^ 64 ∧ 0 < wrapInt n := by
  simp only [IsInt, intMin, intMax] at hint
  rw [maxCount, toSize_of_neg hneg (by omega)]
  split <;> omega

/-- No row asked for: a row is copied only when the range, whose end counts from the end of
the list, reaches over the positions from `fromId` on. -/
theorem copiedRows_ne_nil_iff (hcount : count ≤ 0) (hint : IsInt (fromId + count - 1)) :
    copiedRows l fromId (fromId + count - 1) ≠ [] ↔ RangeWraps l.length fromId count := by
  have hlen := length_lrange l fromId (fromId + count - 1)
  have hcopied := length_copiedRows l fromId hint
  have hreach : 0 < (lrange l fromId (fromId + count - 1)).length ↔
      0 ≤ fromId ∧ fromId ≤ -count ∧ -count < l.length := by
    split at hlen <;> split at hlen <;> omega
  rw [← List.length_pos_iff, hcopied, RangeWraps]
  by_cases h : 0 ≤ fromId ∧ fromId ≤ -count ∧ -count < l.length
  · have hsum : ((lrange l fromId (fromId + count - 1)).length : Int) = l.length + count := by
      rw [if_pos (by omega), if_neg (by omega)] at hlen
      omega
    have hpos := maxCount_pos_iff (n := (lrange l fromId (fromId + count - 1)).length)
      (by omega) hint
    rw [hsum] at hpos
    rw [Int.lt_toNat, Nat.cast_zero, hpos, and_iff_right h]
    refine and_congr_left' ?_
    omega
  · have hzero : (lrange l fromId (fromId + count - 1)).length = 0 :=
      Nat.eq_zero_of_not_pos (mt hreach.mp h)
    have hmax : maxCount 0 (fromId + count - 1) = 0 := by
      rw [maxCount, if_neg (Nat.not_lt_zero _)]
      rfl
    rw [hzero, hmax]
    simp [h]

end

/-! ## The row buffer -/

section

variable {S : Type}

/-- The rows of 1024 bytes that are allocated for a page. -/
def allocatedRows (alloc : Allocator) (count : Int) : Nat :=
  match alloc.malloc (toSize (count * 1024)) with
  | none => 0
  | some b => b.bytes.length / 1024

/-- No computation of the page overflows, no row is copied to an address outside the block,
and the rows copied are at most the rows allocated. -/
def RowsFit (alloc : Allocator) (st : Store S) (fromId count : Int) : Prop :=
  ∃ endId page, pageEnd fromId count = .ok endId ∧
    pageRows alloc .serve fromId endId count st = .ok page ∧
      page.getNum ≤ allocatedRows alloc count

theorem allocatedRows_eq {alloc : Allocator} {count : Int} (hsize : IsInt (count * 1024))
    (h : (alloc.malloc (toSize (count * 1024))).isSome) :
    allocatedRows alloc count = count.toNat := by
  obtain ⟨b, hb⟩ := Option.isSome_iff_exists.mp h
  simp only [allocatedRows, hb, length_block hsize hb]
  omega

theorem rowsFit_iff (alloc : Allocator) (st : Store S) (fromId count : Int) :
    RowsFit alloc st fromId count ↔
      (intMin < fromId + count ∧ fromId + count ≤ intMax) ∧ (-2 ^ 21 ≤ count ∧ count < 2 ^ 21) ∧
        if 0 < count then
          (alloc.malloc (toSize (count * 1024))).isSome ∨ fromId + count = 1 ∨
            lrange (listAt st fileInfoList) fromId (fromId + count - 1) = []
        else ¬ RangeWraps (listAt st fileInfoList).length fromId count := by
  constructor
  · rintro ⟨endId, page, hend, hpage, -⟩
    obtain ⟨hsum, hint, rfl⟩ := pageEnd_eq_ok.mp hend
    have hsize := isInt_of_pageRows alloc st fromId _ hpage
    have hok := (pageRows_isOk_iff alloc st fromId _ hsize).mp ⟨page, hpage⟩
    have hbounds := And.intro hsum (And.intro hint hsize)
    simp only [IsInt, intMin, intMax] at hbounds ⊢
    refine ⟨by omega, by omega, ?_⟩
    split
    · next hcount =>
      obtain hnil | ⟨hsome, -⟩ := hok
      · exact .inr ((copiedRows_eq_nil_iff hcount (by omega) hint).mp hnil)
      · exact .inl hsome
    · next hcount =>
      intro hwraps
      have hne := (copiedRows_ne_nil_iff (by omega) hint).mpr hwraps
      have hlen := List.length_pos_iff.mpr hne
      obtain hnil | ⟨-, hle⟩ := hok
      · exact hne hnil
      · omega
  · rintro ⟨hsum, hcount, hrange⟩
    simp only [intMin, intMax] at hsum
    obtain ⟨hend, hint⟩ : pageEnd fromId count = _ ∧ _ := pageEnd_of_sum (by omega) (by omega)
    have hsize : IsInt (count * 1024) := by
      simp only [IsInt, intMin, intMax]
      omega
    have hcopied : copiedRows (listAt st fileInfoList) fromId (fromId + count - 1) = [] ∨
        (alloc.malloc (toSize (count * 1024))).isSome ∧
          (copiedRows (listAt st fileInfoList) fromId (fromId + count - 1)).length ≤
            count.toNat := by
      split at hrange
      · next hpos =>
        obtain hsome | hnil := hrange
        · exact .inr ⟨hsome, length_copiedRows_le hpos hint⟩
        · exact .inl ((copiedRows_eq_nil_iff hpos hcount.2 hint).mpr hnil)
      · next hpos =>
        left
        by_contra hne
        exact hrange ((copiedRows_ne_nil_iff (by omega) hint).mp hne)
    obtain ⟨page, hpage⟩ := (pageRows_isOk_iff alloc st fromId _ hsize).mpr hcopied
    refine ⟨_, page, hend, hpage, ?_⟩
    have hgetNum := getNum_pageRows alloc st fromId _ hpage
    have hlen := length_copiedRows (listAt st fileInfoList) fromId hint
    rw [← hgetNum] at hlen
    obtain hnil | ⟨hsome, hle⟩ := hcopied
    · rw [hnil, List.length_nil] at hlen
      omega
    · rw [allocatedRows_eq hsize hsome]
      omega

end

/-- `fromId=0&count=0` on a list of one element: the end index is -1, the whole list is in
range, and no row is allocated. -/
theorem rowsFit_zero_zero :
    let st := pushed (emptyStore Nat) fileInfoList (ascii "a")
    (pageRows Allocator.zeroed .serve 0 (-1) 0 st).map RangeList.getNum = .error .write ∧
      ¬ RowsFit Allocator.zeroed st 0 0 := by
  intro st
  have hpage : (pageRows Allocator.zeroed .serve 0 (-1) 0 st).map RangeList.getNum =
      .error .write := by decide +kernel
  refine ⟨hpage, ?_⟩
  rintro ⟨endId, page, hend, hrun, -⟩
  obtain ⟨-, -, rfl⟩ := pageEnd_eq_ok.mp hend
  rw [show (0 + 0 - 1 : Int) = -1 from rfl] at hrun
  rw [hrun] at hpage
  cases hpage

/-! ## The content of a page -/

section

variable {S : Type}

/-- The elements at the positions `fromId` to `fromId + count - 1` that exist. -/
def slice (l : List (List Byte)) (fromId count : Int) : List (List Byte) :=
  (l.drop fromId.toNat).take count.toNat

/-- The rows of a page as strings. -/
def pageStrings (alloc : Allocator) (st : Store S) (fromId count : Int) :
    Checked (List (List Byte)) := do
  let endId ← pageEnd fromId count
  let page ← pageRows alloc .serve fromId endId count st
  page.rows

/-- The rows of the page are the elements asked for, in order. -/
def PageExact (alloc : Allocator) (st : Store S) (fromId count : Int) : Prop :=
  pageStrings alloc st fromId count = .ok (slice (listAt st fileInfoList) fromId count)

/-- The block is granted and every element of the page can be read back from its row. -/
def PageKept (alloc : Allocator) (es : List (List Byte)) (count : Int) : Prop :=
  ∃ b, alloc.malloc (toSize (count * 1024)) = some b ∧
    ∀ i (h : i < es.length), Kept es[i] b.bytes[i * 1024 + 1023]?

/-- For a range that starts inside the list, `LRANGE` selects the slice. -/
theorem lrange_eq_slice (l : List (List Byte)) {fromId count : Int} (hfrom : 0 ≤ fromId)
    (hcount : 1 ≤ count) : lrange l fromId (fromId + count - 1) = slice l fromId count := by
  rw [lrange_of_nonneg l hfrom (by omega), slice]
  congr 1
  omega

/-- A full first page is the one page whose last row is cut off. -/
theorem maxCount_slice_iff (l : List (List Byte)) {fromId count : Int} (hfrom : 0 ≤ fromId)
    (hcount : 1 ≤ count) (hint : IsInt (fromId + count - 1)) :
    (maxCount (slice l fromId count).length (fromId + count - 1)).toNat =
        (slice l fromId count).length ↔
      0 < fromId ∨ (l.length : Int) < count := by
  have hlen : (slice l fromId count).length = min count.toNat (l.length - fromId.toNat) := by
    simp only [slice, List.length_take, List.length_drop]
  simp only [IsInt, intMin, intMax] at hint
  generalize (slice l fromId count).length = n at hlen ⊢
  rw [maxCount, toSize_of_nonneg (by omega) (by omega)]
  split
  · omega
  · rw [wrapInt_of_isInt (by simp only [IsInt, intMin, intMax]; omega)]
    omega

/-- When no row is cut off, the page copies the slice. -/
theorem copiedRows_eq_slice (l : List (List Byte)) {fromId count : Int} (hfrom : 0 ≤ fromId)
    (hcount : 1 ≤ count) (hfull : (maxCount (slice l fromId count).length
      (fromId + count - 1)).toNat = (slice l fromId count).length) :
    copiedRows l fromId (fromId + count - 1) = slice l fromId count := by
  rw [copiedRows, lrange_eq_slice l hfrom hcount, hfull, List.take_length]

theorem length_slice_le (l : List (List Byte)) (fromId count : Int) :
    (slice l fromId count).length ≤ count.toNat := by
  simp only [slice, List.length_take]
  omega

/-- A page is exact exactly if the sum and the size stay in their bounds, the page is not a
full first page, and its elements survive the copy into their rows. -/
theorem pageExact_iff (alloc : Allocator) (st : Store S) (fromId count : Int) (hfrom : 0 ≤ fromId)
    (hcount : 1 ≤ count) :
    PageExact alloc st fromId count ↔
      (fromId + count ≤ intMax ∧ count < 2 ^ 21) ∧
        (0 < fromId ∨ (listAt st fileInfoList).length < count) ∧
          (slice (listAt st fileInfoList) fromId count = [] ∨
            PageKept alloc (slice (listAt st fileInfoList) fromId count) count) := by
  have hrange := lrange_eq_slice (listAt st fileInfoList) hfrom hcount
  have hle := length_slice_le (listAt st fileInfoList) fromId count
  constructor
  · intro h
    obtain ⟨endId, hend, h⟩ := bind_eq_ok.mp h
    obtain ⟨page, hpage, hrows⟩ := bind_eq_ok.mp h
    obtain ⟨hsum, hint, rfl⟩ := pageEnd_eq_ok.mp hend
    have hsize := isInt_of_pageRows alloc st fromId _ hpage
    have hfull := RangeList.length_rows hrows
    rw [getNum_pageRows alloc st fromId _ hpage, hrange] at hfull
    refine ⟨?_, (maxCount_slice_iff _ hfrom hcount hint).mp hfull.symm, ?_⟩
    · simp only [IsInt, intMin, intMax] at hsum hsize ⊢
      omega
    · obtain ⟨retn, hrun⟩ := pageRows_serve alloc st fromId (fromId + count - 1) hsize
      rw [hpage, copiedRows_eq_slice _ hfrom hcount hfull.symm, hrange, eq_comm, map_eq_ok] at hrun
      obtain ⟨values, hvalues, rfl⟩ := hrun
      cases hb : alloc.malloc (toSize (count * 1024)) with
      | none =>
        rw [hb] at hvalues
        exact .inl (copyRows_none_isOk_iff.mp ⟨_, hvalues⟩)
      | some b =>
        have hfit : (slice (listAt st fileInfoList) fromId count).length * 1024 ≤
            b.bytes.length := by
          rw [length_block hsize hb]
          exact Nat.mul_le_mul_right 1024 hle
        rw [hb, copyRows_eq hfit, Except.ok.injEq] at hvalues
        rw [← hvalues, RangeList.rows_filled_iff hfull.symm hfit] at hrows
        exact .inr ⟨b, hb, (allKept_iff _).mp hrows⟩
  · rintro ⟨⟨hsum, hbound⟩, hfirst, hkept⟩
    simp only [intMax] at hsum
    obtain ⟨hend, hint⟩ : pageEnd fromId count = _ ∧ _ := pageEnd_of_sum (by omega) (by omega)
    have hsize : IsInt (count * 1024) := by
      simp only [IsInt, intMin, intMax]
      omega
    have hfull := (maxCount_slice_iff _ hfrom hcount hint).mpr hfirst
    obtain ⟨retn, hrun⟩ := pageRows_serve alloc st fromId (fromId + count - 1) hsize
    rw [copiedRows_eq_slice _ hfrom hcount hfull, hrange] at hrun
    rw [PageExact, pageStrings, hend, ok_bind, hrun]
    obtain hnil | ⟨b, hb, hkept⟩ := hkept
    · rw [hnil] at hfull ⊢
      simp only [copyRows_nil, Except.map, ok_bind]
      exact RangeList.rows_of_zero hfull
    · have hfit : (slice (listAt st fileInfoList) fromId count).length * 1024 ≤
          b.bytes.length := by
        rw [length_block hsize hb]
        exact Nat.mul_le_mul_right 1024 hle
      rw [hb, copyRows_eq hfit]
      exact (RangeList.rows_filled_iff hfull hfit retn).mpr ((allKept_iff _).mpr hkept)

/-- The second page of size one of a list of two. -/
theorem pageExact_second :
    let st := pushed (pushed (emptyStore Nat) fileInfoList (ascii "b")) fileInfoList (ascii "a")
    PageExact Allocator.zeroed st 1 1 ↔
      ((1 : Int) + 1 ≤ intMax ∧ (1 : Int) < 2 ^ 21) ∧
        ((0 : Int) < 1 ∨ (listAt st fileInfoList).length < (1 : Int)) ∧
          (slice (listAt st fileInfoList) 1 1 = [] ∨
            PageKept Allocator.zeroed (slice (listAt st fileInfoList) 1 1) 1) :=
  pageExact_iff Allocator.zeroed _ 1 1 (by decide) (by decide)

/-- The first page of size one of a list of one element is empty. -/
theorem pageStrings_first :
    let st := pushed (emptyStore Nat) fileInfoList (ascii "a")
    pageStrings Allocator.zeroed st 0 1 = .ok [] ∧
      ¬ PageExact Allocator.zeroed st 0 1 := by
  intro st
  have hrows : pageStrings Allocator.zeroed st 0 1 = .ok [] := by decide +kernel
  refine ⟨hrows, fun h => ?_⟩
  have hslice : slice (listAt st fileInfoList) 0 1 = [ascii "a"] := by decide +kernel
  rw [PageExact, hrows, hslice] at h
  cases h

/-! ## Successive pages -/

/-- The rows of the pages of the sizes `counts`, from position `fromId` on. -/
def pagesFrom (alloc : Allocator) (st : Store S) :
    Int → List Int → Checked (List (List Byte))
  | _, [] => .ok []
  | fromId, count :: counts => do
    let rows ← pageStrings alloc st fromId count
    let rest ← pagesFrom alloc st (fromId + count) counts
    return rows ++ rest

theorem slice_append (l : List (List Byte)) {fromId count count' : Int} (hfrom : 0 ≤ fromId)
    (hcount : 0 ≤ count) (hcount' : 0 ≤ count') :
    slice l fromId count ++ slice l (fromId + count) count' = slice l fromId (count + count') := by
  have hstart : (fromId + count).toNat = fromId.toNat + count.toNat := by omega
  have hsum : (count + count').toNat = count.toNat + count'.toNat := by omega
  rw [slice, slice, slice, hstart, hsum, List.take_add, List.drop_drop]

/-- Exact pages concatenate to the slice that they cover together. -/
theorem pagesFrom_eq (alloc : Allocator) (st : Store S) {counts : List Int} {fromId : Int}
    (hfrom : 0 ≤ fromId) (hcounts : ∀ c ∈ counts, 0 ≤ c)
    (hexact : ∀ done c left, counts = done ++ c :: left →
      PageExact alloc st (fromId + done.sum) c) :
    pagesFrom alloc st fromId counts = .ok (slice (listAt st fileInfoList) fromId counts.sum) := by
  induction counts generalizing fromId with
  | nil => simp [pagesFrom, slice]
  | cons c cs ih =>
    have hc : 0 ≤ c := hcounts c (by simp)
    have hcs : ∀ d ∈ cs, 0 ≤ d := fun d hd => hcounts d (by simp [hd])
    have hpage : PageExact alloc st fromId c := by simpa using hexact [] c cs rfl
    have hrest : pagesFrom alloc st (fromId + c) cs =
        .ok (slice (listAt st fileInfoList) (fromId + c) cs.sum) := by
      refine ih (by omega) hcs fun done d left h => ?_
      have hd := hexact (c :: done) d left (by rw [h, List.cons_append])
      rwa [List.sum_cons, ← Int.add_assoc] at hd
    rw [PageExact] at hpage
    rw [pagesFrom, hpage, ok_bind, hrest, ok_bind, pure_eq_ok,
      slice_append _ hfrom hc (List.sum_nonneg hcs), List.sum_cons]

/-- Exact pages from the start that cover the list concatenate to the list. -/
theorem pagesFrom_whole (alloc : Allocator) (st : Store S) {counts : List Int}
    (hcounts : ∀ c ∈ counts, 0 ≤ c)
    (hexact : ∀ done c left, counts = done ++ c :: left → PageExact alloc st done.sum c)
    (hcover : (listAt st fileInfoList).length ≤ counts.sum) :
    pagesFrom alloc st 0 counts = .ok (listAt st fileInfoList) := by
  rw [pagesFrom_eq alloc st le_rfl hcounts (by simpa using hexact), slice, Int.toNat_zero,
    List.drop_zero, List.take_of_length_le (by omega)]

end

end CgiFileStore
