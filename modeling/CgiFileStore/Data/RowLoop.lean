import CgiFileStore.Data.Paging
import CgiFileStore.Data.RowColumns

/-!
# The row loop

The local arrays are shared by the rows, and a column that a row does not have leaves what the
rows before have put there. `Fields.Ready` is what every row leaves behind; the rest takes a
run of the loop apart into its rounds, and puts one together.
-/

namespace CgiFileStore

open CSem Search Redis

/-! ## The local arrays from row to row -/

/-- The local arrays hold strings, and the suffix of the name is short. -/
structure Fields.Ready (fields : Fields) : Prop extends fields.Sized where
  terminated : ∀ buf ∈ [fields.fileId, fields.filename, fields.user, fields.createTime,
    fields.fileUrl], 0 ∈ buf
  shortSuffix : (suffixOf (cstring fields.filename)).length < 32

theorem Fields.initial_ready : Fields.initial.Ready where
  toSized := Fields.initial_sized
  terminated := by
    intro buf hbuf
    simp only [List.mem_cons, List.not_mem_nil, or_false] at hbuf
    rcases hbuf with rfl | rfl | rfl | rfl | rfl <;>
      exact List.mem_replicate.mpr ⟨by decide, rfl⟩
  shortSuffix := by decide

section

variable {prev : Byte} {line : List Byte} {fields fields' : Fields} {row : Row}

theorem zero_mem_of_readString {m s : List Byte} (h : readString m = .ok s) : 0 ∈ m := by
  obtain ⟨t, rfl⟩ := eq_append_of_readString h
  simp

/-- What a row that is read has copied into the arrays. -/
theorem readRow_inv (hfields : fields.Sized)
    (h : readRow prev line fields = .ok (fields', row)) :
    (columnInto prev line 1 fields.fileId = .ok fields'.fileId ∧
      readString fields'.fileId = .ok row.id) ∧
    (columnInto prev line 3 fields.filename = .ok fields'.filename ∧
      readString fields'.filename = .ok row.titleM) ∧
    (columnInto prev line 5 fields.user = .ok fields'.user ∧
      readString fields'.user = .ok row.titleS) ∧
    (columnInto prev line 4 fields.createTime = .ok fields'.createTime ∧
      readString fields'.createTime = .ok row.descrip) ∧
    (columnInto prev line 2 fields.fileUrl = .ok fields'.fileUrl ∧
      readString fields'.fileUrl = .ok row.url) ∧
    (suffixOf row.titleM).length < 32 := by
  obtain ⟨fileId, hfileId, h⟩ := bind_eq_ok.mp h
  obtain ⟨id, hid, h⟩ := bind_eq_ok.mp h
  obtain ⟨filename, hfilename, h⟩ := bind_eq_ok.mp h
  obtain ⟨titleM, htitleM, h⟩ := bind_eq_ok.mp h
  obtain ⟨user, huser, h⟩ := bind_eq_ok.mp h
  obtain ⟨titleS, htitleS, h⟩ := bind_eq_ok.mp h
  obtain ⟨createTime, hcreateTime, h⟩ := bind_eq_ok.mp h
  obtain ⟨descrip, hdescrip, h⟩ := bind_eq_ok.mp h
  obtain ⟨picurl1, -, h⟩ := bind_eq_ok.mp h
  obtain ⟨picurl2, -, h⟩ := bind_eq_ok.mp h
  obtain ⟨picurl3, -, h⟩ := bind_eq_ok.mp h
  obtain ⟨suffixBuf, hsuffix, h⟩ := bind_eq_ok.mp h
  obtain ⟨suffix, -, h⟩ := bind_eq_ok.mp h
  obtain ⟨picNameBuf, -, h⟩ := bind_eq_ok.mp h
  obtain ⟨picName, -, h⟩ := bind_eq_ok.mp h
  obtain ⟨picurl4, -, h⟩ := bind_eq_ok.mp h
  obtain ⟨picurlM, -, h⟩ := bind_eq_ok.mp h
  obtain ⟨fileUrl, hfileUrl, h⟩ := bind_eq_ok.mp h
  obtain ⟨url, hurl, h⟩ := bind_eq_ok.mp h
  simp only [pure_eq_ok, Except.ok.injEq, Prod.mk.injEq] at h
  obtain ⟨rfl, rfl⟩ := h
  refine ⟨⟨hfileId, hid⟩, ⟨hfilename, htitleM⟩, ⟨huser, htitleS⟩, ⟨hcreateTime, hdescrip⟩,
    ⟨hfileUrl, hurl⟩, ?_⟩
  have hsize := (length_columnInto hfilename).trans hfields.filename
  obtain ⟨t, rfl⟩ := eq_append_of_readString htitleM
  by_contra hlong
  rw [not_lt] at hlong
  have hint : ((suffixOf titleM).length : Int) ≤ intMax := by
    have hle := length_suffixOf_le titleM
    simp only [List.length_append, List.length_cons] at hsize
    simp only [intMax]
    omega
  exact copySuffix_overrun (zero_notMem_of_readString htitleM)
    (by rwa [hfields.suffix]) hint suffixBuf hsuffix

theorem readRow_ready (hfields : fields.Sized)
    (h : readRow prev line fields = .ok (fields', row)) : fields'.Ready := by
  obtain ⟨hid, hname, huser, htime, hurl, hsuffix⟩ := readRow_inv hfields h
  refine ⟨readRow_sized hfields h, ?_, ?_⟩
  · intro buf hbuf
    simp only [List.mem_cons, List.not_mem_nil, or_false] at hbuf
    rcases hbuf with rfl | rfl | rfl | rfl | rfl
    · exact zero_mem_of_readString hid.2
    · exact zero_mem_of_readString hname.2
    · exact zero_mem_of_readString huser.2
    · exact zero_mem_of_readString htime.2
    · exact zero_mem_of_readString hurl.2
  · obtain ⟨t, ht⟩ := eq_append_of_readString hname.2
    rwa [ht, cstring_append_zero (zero_notMem_of_readString hname.2)]

end

section

variable {S : Type} [Score S] {env : ListEnv} {st : Store S} {values : Option Block}

/-- The local arrays after `n` rounds of the row loop. -/
def fieldsAfter (env : ListEnv) (st : Store S) (values : Option Block) :
    Nat → Nat → Fields → Checked Fields
  | 0, _, fields => .ok fields
  | n + 1, i, fields => do
    let (fields, _) ← itemAt (env.score i) values i fields st
    fieldsAfter env st values n (i + 1) fields

/-- The local arrays when row `i` is started. -/
def fieldsAt (env : ListEnv) (st : Store S) (values : Option Block) (i : Nat) : Checked Fields :=
  fieldsAfter env st values i 0 Fields.initial

theorem fieldsAfter_ready {n i : Nat} {fields fields' : Fields} (hfields : fields.Ready)
    (h : fieldsAfter env st values n i fields = .ok fields') : fields'.Ready := by
  induction n generalizing i fields with
  | zero =>
    obtain rfl := Except.ok.inj h
    exact hfields
  | succ n ih =>
    obtain ⟨⟨fields1, item⟩, hitem, h⟩ := bind_eq_ok.mp h
    obtain ⟨prev, line, -, hread⟩ := itemAt_readRow hitem
    exact ih (readRow_ready hfields.toSized hread) h

theorem fieldsAt_ready {i : Nat} {fields : Fields}
    (h : fieldsAt env st values i = .ok fields) : fields.Ready :=
  fieldsAfter_ready Fields.initial_ready h

/-- The rounds of a loop that ends, one by one. -/
theorem itemLoop_getElem {n i k : Nat} {fields : Fields} {items : List Item} {item : Item}
    (h : itemLoop env st values n i fields = .ok items) (hitem : items[k]? = some item) :
    ∃ fields1 fields2, fieldsAfter env st values k i fields = .ok fields1 ∧
      itemAt (env.score (i + k)) values (i + k) fields1 st = .ok (fields2, item) := by
  induction n generalizing i k fields items with
  | zero =>
    obtain rfl := Except.ok.inj h
    cases hitem
  | succ n ih =>
    obtain ⟨⟨fields1, item1⟩, hround, h⟩ := bind_eq_ok.mp h
    obtain ⟨rest, hrest, h⟩ := bind_eq_ok.mp h
    obtain rfl := Except.ok.inj h
    cases k with
    | zero =>
      obtain rfl : item1 = item := by simpa using hitem
      exact ⟨fields, fields1, rfl, hround⟩
    | succ k =>
      obtain ⟨fields2, fields3, hafter, hat⟩ := ih hrest hitem
      refine ⟨fields2, fields3, ?_, ?_⟩
      · rw [fieldsAfter, hround, ok_bind]
        exact hafter
      · rwa [Nat.add_comm k, ← Nat.add_assoc]

theorem fieldsAfter_succ {n i : Nat} {fields fields1 fields2 : Fields} {item : Item}
    (h : fieldsAfter env st values n i fields = .ok fields1)
    (hround : itemAt (env.score (i + n)) values (i + n) fields1 st = .ok (fields2, item)) :
    fieldsAfter env st values (n + 1) i fields = .ok fields2 := by
  induction n generalizing i fields with
  | zero =>
    obtain rfl := Except.ok.inj h
    rw [Nat.add_zero] at hround
    rw [fieldsAfter, hround]
    rfl
  | succ n ih =>
    obtain ⟨⟨fields3, item3⟩, hfirst, h⟩ := bind_eq_ok.mp h
    have hidx : i + (n + 1) = i + 1 + n := by omega
    rw [hidx] at hround
    rw [fieldsAfter, hfirst, ok_bind]
    exact ih h hround

theorem length_itemLoop {n i : Nat} {fields : Fields} {items : List Item}
    (h : itemLoop env st values n i fields = .ok items) : items.length = n := by
  induction n generalizing i fields items with
  | zero =>
    obtain rfl := Except.ok.inj h
    rfl
  | succ n ih =>
    obtain ⟨⟨fields1, item⟩, -, h⟩ := bind_eq_ok.mp h
    obtain ⟨rest, hrest, h⟩ := bind_eq_ok.mp h
    obtain rfl := Except.ok.inj h
    rw [List.length_cons, ih hrest]

/-- A loop whose rounds all go through whatever the rounds before have left in the arrays. -/
theorem itemLoop_of_rounds {Q : Nat → Item → Prop} {n i : Nat} {fields : Fields}
    (hfields : fields.Ready)
    (hround : ∀ k < n, ∀ fields1 : Fields, fields1.Ready →
      ∃ fields2 item, itemAt (env.score (i + k)) values (i + k) fields1 st = .ok (fields2, item) ∧
        Q k item) :
    ∃ items, itemLoop env st values n i fields = .ok items ∧ items.length = n ∧
      ∀ k item, items[k]? = some item → Q k item := by
  induction n generalizing i fields Q with
  | zero => exact ⟨[], rfl, rfl, by simp⟩
  | succ n ih =>
    obtain ⟨fields1, item, hitem, hq⟩ := hround 0 (Nat.succ_pos n) fields hfields
    obtain ⟨prev, line, -, hread⟩ := itemAt_readRow hitem
    have hready := readRow_ready hfields.toSized hread
    obtain ⟨items, hloop, hlen, hall⟩ := @ih (fun k => Q (k + 1)) (i + 1) fields1 hready
      fun k hk fields2 hfields2 => by
        have hidx : i + 1 + k = i + (k + 1) := by omega
        rw [hidx]
        exact hround (k + 1) (Nat.succ_lt_succ hk) fields2 hfields2
    refine ⟨item :: items, ?_, by rw [List.length_cons, hlen], ?_⟩
    · rw [itemLoop]
      rw [Nat.add_zero] at hitem
      rw [hitem, ok_bind]
      simp only [hloop, ok_bind, pure_eq_ok]
    · intro k x hx
      cases k with
      | zero =>
        obtain rfl : item = x := by simpa using hx
        exact hq
      | succ k => exact hall k x (by simpa using hx)

/-- The items of a page, as they are handed to cJSON. -/
def listedItems (env : ListEnv) (fromId count : Int) (st : Store S) : Checked (List Item) := do
  let endId ← pageEnd fromId count
  let page ← pageRows env.alloc env.range fromId endId count st
  itemLoop env st page.values page.getNum.toNat 0 Fields.initial

/-- A text that is returned is the text of the items. -/
theorem fileListToJsonPrint_eq_ok {fromId count : Int} {buf : List Byte}
    (h : fileListToJsonPrint env fromId count st = .ok (some buf)) :
    ∃ items, listedItems env fromId count st = .ok items ∧
      memcpy (zeros 10240) 0 (env.print items ++ [0]) = .ok buf := by
  obtain ⟨endId, hend, h⟩ := bind_eq_ok.mp h
  split at h
  · cases h
  · obtain ⟨page, hpage, h⟩ := bind_eq_ok.mp h
    split at h
    · cases h
    · obtain ⟨items, hitems, h⟩ := bind_eq_ok.mp h
      obtain ⟨logged, -, h⟩ := bind_eq_ok.mp h
      split at h
      · cases h
      · obtain ⟨out, hout, h⟩ := bind_eq_ok.mp h
        obtain rfl : out = buf := by simpa using h
        refine ⟨items, ?_, hout⟩
        simp only [listedItems, hend, hpage, hitems, ok_bind]

end

end CgiFileStore
