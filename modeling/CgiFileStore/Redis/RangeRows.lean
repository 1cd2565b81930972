import CgiFileStore.Redis.RedisOp

/-!
# The rows of rop_range_list

The copy loop writes each element into a row of its own. `filledRows` says what the block
holds afterwards, `copyRows_isOk_iff` when the loop stays inside it, and
`readRows_filledRows_iff` when reading the rows as strings gives the elements back.
-/

namespace CgiFileStore

open CSem Redis

/-- The block from its first written row on, after the elements have been copied. The last
byte of each row is not written. -/
def filledRows : List (List Byte) → List Byte → List Byte
  | [], bytes => bytes
  | e :: es, bytes =>
    padTo 1023 (cstring e) ++ (bytes.drop 1023).take 1 ++ filledRows es (bytes.drop 1024)

theorem valuesIdSize_eq : valuesIdSize = 1024 := rfl

/-! ## The copy loop -/

section

variable {b : Block} {i : Nat} {es : List (List Byte)}

/-- The loop on a block that consists of `i` rows and the rows to be written. -/
theorem copyRows_append {before : Byte} (done bytes : List Byte) (hdone : done.length = i * 1024)
    (hfit : es.length * 1024 ≤ bytes.length) :
    copyRows (some { before, bytes := done ++ bytes }) i es =
      .ok (some { before, bytes := done ++ filledRows es bytes }) := by
  induction es generalizing done bytes i with
  | nil => rfl
  | cons e es ih =>
    simp only [List.length_cons] at hfit
    obtain ⟨row, last, rest, rfl, hrow⟩ : ∃ row last rest,
        bytes = row ++ last :: rest ∧ row.length = 1023 := by
      refine ⟨bytes.take 1023, bytes[1023], bytes.drop 1024, ?_, ?_⟩
      · rw [← List.drop_eq_getElem_cons, List.take_append_drop]
      · rw [List.length_take]
        omega
    have hleft : es.length * 1024 ≤ rest.length := by
      rw [List.length_append, List.length_cons] at hfit
      linarith
    have hwrite : strncpy (done ++ (row ++ last :: rest)) (i * valuesIdSize) (e ++ [0])
        (valuesIdSize - 1) = .ok (done ++ (padTo 1023 (cstring e) ++ last :: rest)) := by
      rw [strncpy_string, memcpy, valuesIdSize_eq, ← hdone, length_padTo,
        if_pos (by simp only [List.length_append]; omega), ← List.drop_drop, List.drop_left,
        List.drop_left' hrow, List.take_left, List.append_assoc]
    have hfilled : filledRows (e :: es) (row ++ last :: rest) =
        padTo 1023 (cstring e) ++ last :: filledRows es rest := by
      have hrest : (row ++ last :: rest).drop 1024 = rest := by
        rw [List.append_cons]
        exact List.drop_left' (by simp only [List.length_append, List.length_singleton]; omega)
      rw [filledRows, List.drop_left' hrow, hrest]
      simp
    have hdone' : (done ++ (padTo 1023 (cstring e) ++ [last])).length = (i + 1) * 1024 := by
      rw [List.length_append, List.length_append, length_padTo, List.length_singleton]
      omega
    have hnext := ih (done ++ (padTo 1023 (cstring e) ++ [last])) rest hdone' hleft
    rw [copyRows]
    simp only [hwrite, ok_bind, hfilled]
    simpa using hnext

theorem copyRows_eq (hfit : es.length * 1024 ≤ b.bytes.length) :
    copyRows (some b) 0 es = .ok (some { b with bytes := filledRows es b.bytes }) :=
  copyRows_append [] b.bytes (Nat.zero_mul 1024).symm hfit

/-- A loop that stays inside a block of `m` rows has copied no row beyond it. -/
theorem copyRows_le {m : Nat} {r : Option Block} (hm : b.bytes.length = m * 1024)
    (hr : copyRows (some b) i es = .ok r) : es = [] ∨ i + es.length ≤ m := by
  induction es generalizing b i with
  | nil => exact .inl rfl
  | cons e es ih =>
    obtain ⟨bytes, hbytes, hrest⟩ := bind_eq_ok.mp hr
    rw [strncpy_string] at hbytes
    have hfit := (memcpy_eq_ok.mp hbytes).1
    simp only [length_padTo, valuesIdSize_eq] at hfit
    have hlen := length_memcpy hbytes
    have hstep := ih (hlen.trans hm) hrest
    right
    rw [List.length_cons]
    obtain rfl | hle := hstep
    · rw [List.length_nil]
      omega
    · omega

theorem copyRows_isOk_iff {m : Nat} (hm : b.bytes.length = m * 1024) :
    (∃ r, copyRows (some b) 0 es = .ok r) ↔ es.length ≤ m := by
  constructor
  · rintro ⟨r, hr⟩
    obtain rfl | hle := copyRows_le hm hr
    · simp
    · omega
  · intro hle
    exact ⟨_, copyRows_eq (by omega)⟩

@[simp] theorem copyRows_nil (values : Option Block) : copyRows values i [] = .ok values := by
  cases values <;> rfl

theorem copyRows_none_isOk_iff : (∃ r, copyRows none i es = .ok r) ↔ es = [] := by
  cases es <;> simp [copyRows]

end

theorem drop_filledRows_succ {e : List Byte} {es : List (List Byte)} {bytes : List Byte}
    (hfit : 1023 < bytes.length) :
    (filledRows (e :: es) bytes).drop 1024 = filledRows es (bytes.drop 1024) := by
  have hrow : (padTo 1023 (cstring e) ++ (bytes.drop 1023).take 1).length = 1024 := by
    simp only [List.length_append, length_padTo, List.length_take, List.length_drop]
    omega
  rw [filledRows, List.drop_left' hrow]

/-- Where row `i` starts, element `i` stands. -/
theorem drop_filledRows {es : List (List Byte)} {bytes e : List Byte} {i : Nat}
    (hfit : es.length * 1024 ≤ bytes.length) (he : es[i]? = some e) :
    ∃ rest, (filledRows es bytes).drop (i * 1024) = padTo 1023 (cstring e) ++ rest := by
  induction es generalizing bytes i with
  | nil => simp at he
  | cons d ds ih =>
    simp only [List.length_cons] at hfit
    cases i with
    | zero =>
      obtain rfl : d = e := by simpa using he
      rw [Nat.zero_mul, List.drop_zero, filledRows, List.append_assoc]
      exact ⟨_, rfl⟩
    | succ i =>
      have hleft : ds.length * 1024 ≤ (bytes.drop 1024).length := by
        rw [List.length_drop]
        exact Nat.le_sub_of_add_le (by linarith)
      rw [Nat.succ_mul, Nat.add_comm, ← List.drop_drop, drop_filledRows_succ (by linarith)]
      exact ih hleft (by simpa using he)

/-- The last byte of a row is the one that was in the block. -/
theorem getElem?_filledRows_last {es : List (List Byte)} {bytes : List Byte} {i : Nat}
    (hfit : es.length * 1024 ≤ bytes.length) (hi : i < es.length) :
    (filledRows es bytes)[i * 1024 + 1023]? = bytes[i * 1024 + 1023]? := by
  induction es generalizing bytes i with
  | nil => cases hi
  | cons d ds ih =>
    simp only [List.length_cons] at hfit hi
    cases i with
    | zero =>
      have hlast : 1023 < bytes.length := by linarith
      have hpad : (padTo 1023 (cstring d)).length = 1023 := length_padTo _ _
      rw [filledRows, List.append_assoc, Nat.zero_mul, Nat.zero_add,
        List.getElem?_append_right hpad.le, hpad, Nat.sub_self, List.drop_eq_getElem_cons hlast,
        List.getElem?_eq_getElem hlast]
      rfl
    | succ i =>
      have hleft : ds.length * 1024 ≤ (bytes.drop 1024).length := by
        rw [List.length_drop]
        exact Nat.le_sub_of_add_le (by linarith)
      have hidx : (i + 1) * 1024 + 1023 = 1024 + (i * 1024 + 1023) := by omega
      have hdrop : ∀ l : List Byte, l[1024 + (i * 1024 + 1023)]? =
          (l.drop 1024)[i * 1024 + 1023]? := fun l => List.getElem?_drop.symm
      rw [hidx, hdrop, hdrop, drop_filledRows_succ (by linarith)]
      exact ih hleft (Nat.lt_of_succ_lt_succ hi)

/-! ## Reading the rows -/

/-- The first `n` rows of a block as strings, none of which may leave its row. -/
def readRows : Nat → List Byte → Checked (List (List Byte))
  | 0, _ => .ok []
  | n + 1, bytes => do
    let s ← readString (bytes.take 1024)
    let rest ← readRows n (bytes.drop 1024)
    return s :: rest

/-- The element can be read back from its row, whose last byte is `last`. -/
def Kept (e : List Byte) (last : Option Byte) : Prop :=
  0 ∉ e ∧ (e.length ≤ 1022 ∨ e.length = 1023 ∧ last = some 0)

def AllKept : List (List Byte) → List Byte → Prop
  | [], _ => True
  | e :: es, bytes => Kept e bytes[1023]? ∧ AllKept es (bytes.drop 1024)

theorem allKept_iff {es : List (List Byte)} (bytes : List Byte) :
    AllKept es bytes ↔ ∀ i (h : i < es.length), Kept es[i] bytes[i * 1024 + 1023]? := by
  have hidx : ∀ i, 1024 + (i * 1024 + 1023) = (i + 1) * 1024 + 1023 := by omega
  induction es generalizing bytes with
  | nil => simp [AllKept]
  | cons e es ih =>
    constructor
    · rintro ⟨h, hs⟩ i hi
      cases i with
      | zero => exact h
      | succ i =>
        have hnext := (ih _).mp hs i (Nat.lt_of_succ_lt_succ hi)
        rwa [List.getElem?_drop, hidx i] at hnext
    · intro h
      refine ⟨h 0 (Nat.succ_pos _), (ih _).mpr fun i hi => ?_⟩
      have hnext := h (i + 1) (Nat.succ_lt_succ hi)
      rw [← hidx i] at hnext
      rwa [List.getElem?_drop]

theorem readString_row_iff {e : List Byte} {last : Byte} :
    readString (padTo 1023 (cstring e) ++ [last]) = .ok e ↔ Kept e (some last) := by
  constructor
  · intro h
    have h0 := zero_notMem_of_readString h
    obtain ⟨t, ht⟩ := eq_append_of_readString h
    have hlen := congrArg List.length ht
    simp only [List.length_append, length_padTo, List.length_cons, List.length_nil] at hlen
    refine ⟨h0, ?_⟩
    obtain hlt | hge := Nat.lt_or_ge e.length 1023
    · exact .inl (by omega)
    · -- the element fills the row, so the byte behind it is its NUL
      have hnil : t = [] := List.length_eq_zero_iff.mp (by omega)
      rw [hnil] at ht
      exact .inr ⟨by omega, congrArg some (by simpa using (List.append_inj' ht rfl).2)⟩
  · rintro ⟨h0, hlen⟩
    rw [cstring_eq_self h0, padTo, List.take_of_length_le (by omega), List.append_assoc]
    obtain hlen | ⟨hlen, hlast⟩ := hlen
    · obtain ⟨k, hk⟩ : ∃ k, 1023 - e.length = k + 1 := ⟨1022 - e.length, by omega⟩
      rw [hk]
      exact readString_append_zero h0 (zeros k ++ [last])
    · have hzero : last = 0 := by simpa using hlast
      rw [hlen, Nat.sub_self, hzero]
      exact readString_append_zero h0 []

/-- Reading the rows gives the elements back exactly if all of them are kept. -/
theorem readRows_filledRows_iff {es : List (List Byte)} {bytes : List Byte}
    (hfit : es.length * 1024 ≤ bytes.length) :
    readRows es.length (filledRows es bytes) = .ok es ↔ AllKept es bytes := by
  induction es generalizing bytes with
  | nil => simp [readRows, AllKept]
  | cons e es ih =>
    simp only [List.length_cons] at hfit
    have hlast : 1023 < bytes.length := by linarith
    have hrow : (padTo 1023 (cstring e) ++ (bytes.drop 1023).take 1).length = 1024 := by
      simp only [List.length_append, length_padTo, List.length_take, List.length_drop]
      omega
    have hone : (bytes.drop 1023).take 1 = [bytes[1023]] := by
      rw [List.drop_eq_getElem_cons hlast, List.take_succ_cons, List.take_zero]
    have hleft : es.length * 1024 ≤ (bytes.drop 1024).length := by
      rw [List.length_drop]
      exact Nat.le_sub_of_add_le (by linarith)
    rw [List.length_cons, readRows, filledRows, List.take_left' hrow, List.drop_left' hrow, AllKept,
      ← ih hleft, hone, List.getElem?_eq_getElem hlast, ← readString_row_iff]
    constructor
    · intro h
      obtain ⟨s, hs, h⟩ := bind_eq_ok.mp h
      obtain ⟨ss, hss, h⟩ := bind_eq_ok.mp h
      obtain ⟨rfl, rfl⟩ : s = e ∧ ss = es := by simpa using h
      exact ⟨hs, hss⟩
    · rintro ⟨hs, hss⟩
      rw [hs, ok_bind, hss, ok_bind, pure_eq_ok]

theorem length_readRows {n : Nat} {bytes : List Byte} {rows : List (List Byte)}
    (h : readRows n bytes = .ok rows) : rows.length = n := by
  induction n generalizing bytes rows with
  | zero => simp_all [readRows]
  | succ n ih =>
    obtain ⟨s, -, h⟩ := bind_eq_ok.mp h
    obtain ⟨ss, hss, h⟩ := bind_eq_ok.mp h
    obtain rfl : s :: ss = rows := by simpa using h
    rw [List.length_cons, ih hss]

/-- The rows of a page, read as strings. A page without rows needs no block. -/
def RangeList.rows (page : RangeList) : Checked (List (List Byte)) :=
  match page.getNum.toNat, page.values with
  | 0, _ => .ok []
  | _ + 1, none => .error .null
  | n + 1, some b => readRows (n + 1) b.bytes

theorem RangeList.rows_of_zero {page : RangeList} (h : page.getNum.toNat = 0) :
    page.rows = .ok [] := by
  simp [RangeList.rows, h]

theorem RangeList.length_rows {page : RangeList} {rows : List (List Byte)}
    (h : page.rows = .ok rows) : rows.length = page.getNum.toNat := by
  unfold RangeList.rows at h
  split at h
  · next hn => simp [← Except.ok.inj h, hn]
  · cases h
  · next hn _ => rw [length_readRows h, hn]

/-- The rows of a page whose elements have been copied into `b`. -/
theorem RangeList.rows_filled_iff {es : List (List Byte)} {b : Block} {getNum : Int}
    (hn : getNum.toNat = es.length) (hfit : es.length * 1024 ≤ b.bytes.length) (retn : Int) :
    RangeList.rows
        { retn, getNum, values := some { b with bytes := filledRows es b.bytes } } = .ok es ↔
      AllKept es b.bytes := by
  rw [← readRows_filledRows_iff hfit]
  cases es with
  | nil => simp [RangeList.rows, hn, readRows]
  | cons e es => simp only [RangeList.rows, hn, List.length_cons]

end CgiFileStore
