import CgiFileStore.Data.RowColumns

/-!
# The two loops of the column reader

`get_value_by_col` has a loop of its own for the first column. `columnLoop` is the loop for the
other ones, which can be started for the first column as well. The two stop at different bytes,
so they are compared here, and then both are asked when they stay inside a row.
-/

namespace CgiFileStore

open CSem

/-- The loop for the columns from the second on, and the copy behind it; `maxLen` does not count
the NUL any more. -/
def columnLoop (prev : Byte) (line : List Byte) (col : Int) (value : List Byte) (maxLen : Int)
    (withQuote : Bool) : Checked (Option (List Byte)) := do
  match ← colEnd col prev line 0 0 0 with
  | none => return none
  | some (valueHead, pos) =>
    let value ← copyColumn line valueHead pos value maxLen withQuote
    return some value

section

variable {prev : Byte} {line value : List Byte} {col maxLen : Int} {withQuote : Bool}

theorem toChecked_pred (hmax : 1 ≤ maxLen) (hint : IsInt maxLen) :
    toChecked (maxLen - 1) = .ok (maxLen - 1) := by
  apply toChecked_of_isInt
  simp only [IsInt, intMin, intMax] at hint ⊢
  omega

theorem getValueByCol_one (hmax : 1 ≤ maxLen) (hint : IsInt maxLen) :
    getValueByCol prev line 1 value maxLen withQuote = (firstColEnd prev line 0 >>= fun pos =>
      (copyColumn line 0 pos value (maxLen - 1) withQuote).map some) := by
  simp only [getValueByCol, toChecked_pred hmax hint, ok_bind]
  rw [if_neg (by decide), if_pos trivial]
  rfl

theorem getValueByCol_eq_columnLoop (hcol : 2 ≤ col) (hmax : 1 ≤ maxLen) (hint : IsInt maxLen) :
    getValueByCol prev line col value maxLen withQuote =
      columnLoop prev line col value (maxLen - 1) withQuote := by
  simp only [getValueByCol, toChecked_pred hmax hint, ok_bind]
  rw [if_neg (by omega), if_neg (by omega)]
  rfl

end

/-! ## Where the loop for the first column stops -/

/-- The loop for the first column finds a `|`, or a byte behind a backslash. -/
def FirstStops (prev : Byte) (line : List Byte) : Prop :=
  (prev = backslash ∧ line ≠ []) ∨ delimiter ∈ line ∨ backslash ∈ line.dropLast

instance (prev : Byte) (line : List Byte) : Decidable (FirstStops prev line) :=
  inferInstanceAs (Decidable (_ ∨ _))

theorem firstStops_nil (prev : Byte) : ¬ FirstStops prev [] := by simp [FirstStops]

theorem firstStops_cons (prev c : Byte) (cs : List Byte) :
    FirstStops prev (c :: cs) ↔ (c = delimiter ∨ prev = backslash) ∨ FirstStops c cs := by
  cases cs <;> grind [FirstStops]

theorem firstColEnd_eq_if (prev : Byte) (line : List Byte) (pos : Nat) :
    firstColEnd prev line pos =
      if FirstStops prev line then .ok (pos + (firstColumn prev line).length)
      else .error .read := by
  induction line generalizing prev pos with
  | nil => rw [firstColEnd, if_neg (firstStops_nil prev)]
  | cons c cs ih =>
    rw [firstColEnd, firstColumn, ih]
    by_cases hc : c ≠ delimiter ∧ prev ≠ backslash
    · have hstops : FirstStops prev (c :: cs) ↔ FirstStops c cs := by
        rw [firstStops_cons, or_iff_right (by grind)]
      rw [if_pos hc, if_pos hc, if_congr hstops rfl rfl]
      grind
    · have hstops : FirstStops prev (c :: cs) := (firstStops_cons prev c cs).mpr (.inl (by grind))
      rw [if_neg hc, if_neg hc, if_pos hstops]
      rfl

theorem firstColumn_append {prev : Byte} {s : List Byte}
    (h : prev = backslash ∨ delimiter ∈ s ∨ backslash ∈ s) (t : List Byte) :
    firstColumn prev (s ++ t) = firstColumn prev s := by
  induction s generalizing prev with
  | nil =>
    obtain rfl : prev = backslash := by simpa using h
    cases t <;> simp [firstColumn]
  | cons c cs ih =>
    rw [List.cons_append, firstColumn, firstColumn]
    split_ifs with hc
    · rw [ih (by grind)]
    · rfl

/-! ## The first column of the two loops -/

/-- The bytes in front of the first `|` that does not stand behind a backslash. -/
def firstField : Byte → List Byte → List Byte
  | _, [] => []
  | prev, c :: cs => if c = delimiter ∧ prev ≠ backslash then [] else c :: firstField c cs

theorem splitFields_head (prev : Byte) (text : List Byte) :
    (splitFields prev text)[0]? = some (firstField prev text) := by
  induction text generalizing prev with
  | nil => rfl
  | cons c cs ih =>
    rw [splitFields, firstField]
    split_ifs
    · rfl
    · cases h : splitFields c cs with
      | nil => exact absurd h (splitFields_ne_nil c cs)
      | cons f fs => simpa [h] using ih c

theorem firstField_isPrefix (prev : Byte) (s : List Byte) : firstField prev s <+: s := by
  induction s generalizing prev with
  | nil => exact List.nil_prefix
  | cons c cs ih =>
    rw [firstField]
    split_ifs
    · exact List.nil_prefix
    · exact List.cons_prefix_cons.mpr ⟨rfl, ih c⟩

/-- A byte that neither of the loops stops at. -/
def isPlain (c : Byte) : Bool := c ≠ delimiter && c ≠ backslash

section

variable {prev : Byte} {s : List Byte}

theorem lastByte_plain (hprev : prev ≠ backslash) (hs : ∀ c ∈ s, isPlain c) :
    lastByte prev s ≠ backslash := by
  cases s with
  | nil => exact hprev
  | cons c cs =>
    have hlast := hs (lastByte prev (c :: cs)) (lastByte_mem (List.cons_ne_nil c cs))
    simp only [isPlain, Bool.and_eq_true, decide_eq_true_eq] at hlast
    exact hlast.2

theorem firstColumn_plain (hprev : prev ≠ backslash) (hs : ∀ c ∈ s, isPlain c) (t : List Byte) :
    firstColumn prev (s ++ t) = s ++ firstColumn (lastByte prev s) t := by
  induction s generalizing prev with
  | nil => rfl
  | cons c cs ih =>
    have hc : c ≠ delimiter ∧ c ≠ backslash := by simpa [isPlain] using hs c List.mem_cons_self
    rw [List.cons_append, firstColumn, if_pos ⟨hc.1, hprev⟩,
      ih hc.2 fun d hd => hs d (List.mem_cons_of_mem _ hd)]
    rfl

theorem firstField_plain (hs : ∀ c ∈ s, isPlain c) (t : List Byte) :
    firstField prev (s ++ t) = s ++ firstField (lastByte prev s) t := by
  induction s generalizing prev with
  | nil => rfl
  | cons c cs ih =>
    have hc : c ≠ delimiter ∧ c ≠ backslash := by simpa [isPlain] using hs c List.mem_cons_self
    rw [List.cons_append, firstField, if_neg fun h => hc.1 h.1,
      ih fun d hd => hs d (List.mem_cons_of_mem _ hd)]
    rfl

end

/-- The general loop, started for the first column. -/
theorem colEnd_one {prev : Byte} {text : List Byte} (hline : newline ∉ text) (rest : List Byte)
    (pos valueHead : Nat) :
    colEnd 1 prev (text ++ newline :: rest) pos valueHead 0 =
      .ok (some (valueHead, pos + (firstField prev text).length)) := by
  induction text generalizing prev pos with
  | nil => simp [colEnd, firstField]
  | cons c cs ih =>
    rw [List.mem_cons, not_or] at hline
    rw [List.cons_append, colEnd, firstField]
    by_cases hc : c = delimiter ∧ prev ≠ backslash
    · rw [if_pos (.inl hc), if_pos (by decide), if_pos hc]
      rfl
    · rw [if_neg (not_or.mpr ⟨hc, Ne.symm hline.1⟩), ih hline.2, if_neg hc, List.length_cons]
      grind

/-- The copy of a column at the start of the line. -/
theorem copyColumn_head {f line value : List Byte} {maxLen : Int} (hf : f <+: line)
    (hmax : 0 ≤ maxLen) :
    copyColumn line 0 f.length value maxLen false =
      let stored := f.take maxLen.toNat
      if stored.length < value.length then
        .ok (stored ++ 0 :: value.drop (stored.length + 1))
      else .error .write := by
  obtain ⟨t, rfl⟩ := hf
  have hcopy : copyColumn ([] ++ (f ++ t)) 0 (0 + f.length) value maxLen false = _ :=
    copyColumn_plain hmax
  rwa [Nat.zero_add] at hcopy

theorem columnLoop_one {prev : Byte} {text value : List Byte} (hline : newline ∉ text)
    (rest : List Byte) {maxLen : Int} (hmax : 0 ≤ maxLen) {kept : List Byte}
    (hkept : kept = (firstField prev text).take maxLen.toNat) (hfit : kept.length < value.length) :
    columnLoop prev (text ++ newline :: rest) 1 value maxLen false =
      .ok (some (kept ++ 0 :: value.drop (kept.length + 1))) := by
  have hprefix := (firstField_isPrefix prev text).trans (List.prefix_append text (newline :: rest))
  rw [columnLoop, colEnd_one hline, ok_bind, Nat.zero_add]
  dsimp only
  rw [copyColumn_head hprefix hmax, ← hkept]
  simp only [if_pos hfit]
  rfl

/-- The bytes in front of the NUL can be seen in the array, so both loops must keep the same. -/
theorem kept_eq_of_stored {text rest p q u v : List Byte} (h0 : 0 ∉ text)
    (hp : p <+: text ++ newline :: rest) (hq : q <+: text) (h : p ++ 0 :: u = q ++ 0 :: v) :
    p = q := by
  have hcstring := congrArg cstring h
  rw [cstring_append_zero (fun hmem => h0 (hq.subset hmem)), cstring_append_zero_any] at hcstring
  by_cases hp0 : 0 ∈ p
  · -- then the string of the line ends inside `p`, and that is behind the line feed
    obtain ⟨t, ht⟩ := hp
    have hwhole : cstring (text ++ newline :: rest) = q := by
      rw [← ht, cstring_append_of_mem hp0, hcstring]
    have hlong : text.length < (cstring (text ++ newline :: rest)).length := by
      rw [cstring_append_of_notMem h0, List.length_append]
      simp [cstring, newline]
    have hshort := hq.length_le
    rw [hwhole] at hlong
    omega
  · rwa [cstring_eq_self hp0] at hcstring

/-- The first `|` or backslash of the text is a `|`, or the last byte of the text, or no byte
behind it would be kept; and if there is none, the text fills the room and the other loop
finds an end in what follows the line. -/
def FirstAgrees (text rest : List Byte) (room : Nat) : Prop :=
  match text.dropWhile isPlain with
  | [] => room ≤ text.length ∧ (delimiter ∈ rest ∨ backslash ∈ rest.dropLast)
  | c :: b => c = delimiter ∨ b = [] ∨ room ≤ (text.takeWhile isPlain).length + 1

section

variable {prev : Byte} {a b rest : List Byte} {room : Nat}

/-- A line without `|` and backslash is left by the loop for the first column. -/
theorem first_plain (hprev : prev ≠ backslash) (ha : ∀ c ∈ a, isPlain c) :
    (FirstStops prev (a ++ newline :: rest) ∧
      (firstColumn prev (a ++ newline :: rest)).take room = (firstField prev a).take room) ↔
        room ≤ a.length ∧ (delimiter ∈ rest ∨ backslash ∈ rest.dropLast) := by
  have hlast := lastByte_plain hprev ha
  have hd : delimiter ∉ a := fun h => by simpa [isPlain] using ha _ h
  have hb : backslash ∉ a := fun h => by simpa [isPlain] using ha _ h
  have hnl : newline ≠ delimiter ∧ newline ≠ backslash := by decide
  have hfield : firstField prev a = a := by
    have h : firstField prev (a ++ []) = a ++ firstField (lastByte prev a) [] :=
      firstField_plain ha []
    rwa [List.append_nil, firstField, List.append_nil] at h
  have hcolumn : firstColumn prev (a ++ newline :: rest) =
      a ++ newline :: firstColumn newline rest := by
    rw [firstColumn_plain hprev ha, firstColumn, if_pos ⟨hnl.1, hlast⟩]
  have hstops : FirstStops prev (a ++ newline :: rest) ↔
      delimiter ∈ rest ∨ backslash ∈ rest.dropLast := by
    rw [FirstStops, List.dropLast_append_of_ne_nil (List.cons_ne_nil _ _)]
    cases rest <;> grind
  have htake : (a ++ newline :: firstColumn newline rest).take room = a.take room ↔
      room ≤ a.length := by
    constructor
    · intro h
      have hlen := congrArg List.length h
      simp only [List.length_take, List.length_append, List.length_cons] at hlen
      omega
    · exact fun h => List.take_append_of_le_length h
  rw [hstops, hcolumn, hfield, htake, and_comm]

/-- Behind a first `|` both loops stop at once. -/
theorem first_delimiter (hprev : prev ≠ backslash) (ha : ∀ c ∈ a, isPlain c) (t : List Byte) :
    firstColumn prev (a ++ delimiter :: t) = a ∧ firstField prev (a ++ delimiter :: b) = a := by
  have hlast := lastByte_plain hprev ha
  rw [firstColumn_plain hprev ha, firstField_plain ha, firstColumn, firstField,
    if_neg (fun h => h.1 rfl), if_pos ⟨rfl, hlast⟩]
  simp

/-- Behind a first backslash the loop for the first column stops, and the other one only at
the end of the line. -/
theorem first_backslash (hprev : prev ≠ backslash) (ha : ∀ c ∈ a, isPlain c) {t : List Byte} :
    (firstColumn prev (a ++ backslash :: t)).take room =
      (firstField prev (a ++ backslash :: b)).take room ↔ b = [] ∨ room ≤ a.length + 1 := by
  have hlast := lastByte_plain hprev ha
  have hcolumn : firstColumn prev (a ++ backslash :: t) = a ++ [backslash] := by
    rw [firstColumn_plain hprev ha, firstColumn, if_pos ⟨by decide, hlast⟩]
    cases t <;> simp [firstColumn]
  have hfield : firstField prev (a ++ backslash :: b) =
      a ++ [backslash] ++ firstField backslash b := by
    rw [firstField_plain ha, firstField, if_neg (fun h => absurd h.1 (by decide)),
      List.append_assoc]
    rfl
  rw [hcolumn, hfield]
  cases b with
  | nil => simp [firstField]
  | cons d b =>
    rw [firstField, if_neg (fun h => h.2 rfl)]
    constructor
    · intro h
      have hlen := congrArg List.length h
      simp only [List.length_take, List.length_append, List.length_cons, List.length_nil] at hlen
      exact .inr (by omega)
    · rintro (h | h)
      · cases h
      · exact (List.take_append_of_le_length (by simpa using h)).symm

theorem firstAgrees_iff (hprev : prev ≠ backslash) (text rest : List Byte) (room : Nat) :
    FirstAgrees text rest room ↔ FirstStops prev (text ++ newline :: rest) ∧
      (firstColumn prev (text ++ newline :: rest)).take room =
        (firstField prev text).take room := by
  have hplain : ∀ c ∈ text.takeWhile isPlain, isPlain c := fun c hc => List.mem_takeWhile_imp hc
  have htext := List.takeWhile_append_dropWhile (p := isPlain) (l := text)
  rw [FirstAgrees]
  cases hd : text.dropWhile isPlain with
  | nil =>
    rw [hd, List.append_nil] at htext
    rw [htext] at hplain
    exact (first_plain hprev hplain).symm
  | cons c b =>
    have hc : c = delimiter ∨ c = backslash := by
      have h := List.head_dropWhile_not isPlain (l := text) (by rw [hd]; exact List.cons_ne_nil _ _)
      simp only [hd, List.head_cons] at h
      simpa [isPlain, or_iff_not_imp_left] using h
    rw [hd] at htext
    generalize text.takeWhile isPlain = a at hplain htext
    subst htext
    rw [List.append_assoc, List.cons_append]
    have hstops : FirstStops prev (a ++ c :: (b ++ newline :: rest)) := by
      rw [FirstStops]
      rcases hc with rfl | rfl
      · exact .inr (.inl (by simp))
      · rw [List.dropLast_append_of_ne_nil (List.cons_ne_nil _ _),
          List.dropLast_cons_of_ne_nil (by simp)]
        exact .inr (.inr (by simp))
    rcases hc with rfl | rfl
    · obtain ⟨h1, h2⟩ := first_delimiter (b := b) hprev hplain (b ++ newline :: rest)
      simp [hstops, h1, h2]
    · have hne : backslash ≠ delimiter := by decide
      simp only [hstops, first_backslash hprev hplain, hne, true_and, false_or]

end

/-- For a line that does not stand behind a backslash the two loops store the same first column
exactly if what ends it is a `|`, as far as it is kept. -/
theorem getValueByCol_first_iff {prev : Byte} (hprev : prev ≠ backslash) {text : List Byte}
    (hline : newline ∉ text) (h0 : 0 ∉ text) (rest value : List Byte) {maxLen : Int}
    (hmax : 1 ≤ maxLen) (hint : IsInt maxLen) {kept : List Byte}
    (hkept : kept = (firstField prev text).take (maxLen - 1).toNat)
    (hfit : kept.length < value.length) :
    (getValueByCol prev (text ++ newline :: rest) 1 value maxLen false =
        columnLoop prev (text ++ newline :: rest) 1 value (maxLen - 1) false ∧
      columnLoop prev (text ++ newline :: rest) 1 value (maxLen - 1) false =
        .ok (some (kept ++ 0 :: value.drop (kept.length + 1)))) ↔
      FirstAgrees text rest (maxLen - 1).toNat := by
  have hgeneral := columnLoop_one hline rest (by omega : 0 ≤ maxLen - 1) hkept hfit
  have hprefix := firstColumn_isPrefix prev (text ++ newline :: rest)
  have hstored : kept <+: text := by
    rw [hkept]
    exact (List.take_prefix _ _).trans (firstField_isPrefix prev text)
  rw [hgeneral, getValueByCol_one hmax hint, firstColEnd_eq_if, Nat.zero_add,
    firstAgrees_iff hprev, ← hkept]
  constructor
  · rintro ⟨h, -⟩
    obtain ⟨pos, hpos, h⟩ := bind_eq_ok.mp h
    split_ifs at hpos with hstops
    obtain ⟨stored, hcopy, hsome⟩ := map_eq_ok.mp h
    rw [← Except.ok.inj hpos, copyColumn_head hprefix (by omega)] at hcopy
    dsimp only at hcopy
    split_ifs at hcopy
    rw [← Except.ok.inj hcopy, Option.some.injEq] at hsome
    exact ⟨hstops, kept_eq_of_stored h0 ((List.take_prefix _ _).trans hprefix) hstored hsome⟩
  · rintro ⟨hstops, htake⟩
    refine ⟨?_, rfl⟩
    rw [if_pos hstops, ok_bind, copyColumn_head hprefix (by omega), htake]
    simp only [if_pos hfit]
    rfl

/-- A line whose first column is ended by a `|`. -/
theorem getValueByCol_first_delimiter :
    getValueByCol 0 (ascii "ab|c" ++ newline :: [0]) 1 (zeros 8) 8 false =
        columnLoop 0 (ascii "ab|c" ++ newline :: [0]) 1 (zeros 8) 7 false ∧
      columnLoop 0 (ascii "ab|c" ++ newline :: [0]) 1 (zeros 8) 7 false =
        .ok (some (ascii "ab" ++ 0 :: zeros 5)) :=
  (getValueByCol_first_iff (by decide) (by decide) (by decide) [0] (zeros 8) (by decide)
    (by decide) (by decide : ascii "ab" = _) (by decide)).mpr (.inl rfl)

/-- An escaped separator: one loop keeps `a\`, the other one `a\|b`. -/
theorem getValueByCol_first_escaped :
    getValueByCol 0 (ascii "a\\|b|c" ++ newline :: [0]) 1 (zeros 8) 8 false ≠
      columnLoop 0 (ascii "a\\|b|c" ++ newline :: [0]) 1 (zeros 8) 7 false := by
  decide

/-! ## Rows that both loops stay inside -/

/-- The copy of a column into an array with more than `maxLen` bytes needs a field with room
for the quotes. -/
theorem copyColumn_isOk_iff {a f b value : List Byte} {maxLen : Int} {withQuote : Bool}
    (hmax : 0 ≤ maxLen) (hvalue : maxLen < value.length) :
    (∃ r, copyColumn (a ++ (f ++ b)) a.length (a.length + f.length) value maxLen withQuote =
      .ok r) ↔ (withQuote = true → 2 ≤ f.length) := by
  have hfit : ∀ g : List Byte, (g.take maxLen.toNat).length < value.length := by
    intro g
    rw [List.length_take]
    omega
  cases withQuote with
  | false =>
    rw [copyColumn_plain hmax]
    simp only [if_pos (hfit f)]
    simp
  | true =>
    by_cases hf : f.length < 2
    · rw [copyColumn_short hmax hf]
      simp [hf]
    · rw [copyColumn_quoted hmax (not_lt.mp hf)]
      simp only [if_pos (hfit (unquoted f))]
      simpa using not_lt.mp hf

/-- A row that ends in front of the column has no byte that could end it. -/
theorem colEnd_runOff {prev : Byte} {s : List Byte} {col : Nat} (hcol : 2 ≤ col)
    (hline : newline ∉ s) (hget : (columnsOf prev s)[col - 1]? = none) :
    colEnd col prev (s ++ [0]) 0 0 0 = .error .read := by
  obtain ⟨fields, g, hsplit, hs, hclosed, hlast⟩ := splitFields_spec prev hline
  rw [columnsOf, if_neg hline, hsplit, List.dropLast_concat, List.getElem?_eq_none_iff] at hget
  have hzero : Unbroken (frontByte prev fields) (g ++ [0]) := by
    apply unbroken_append hlast
    apply unbroken_of_notMem <;> simp [delimiter, newline]
  have hfault : ∀ (pos valueHead : Nat) (tmpCol : Int),
      colEnd col (frontByte prev fields) (g ++ [0]) pos valueHead tmpCol = .error .read := by
    intro pos valueHead tmpCol
    have hend := @colEnd_unbroken _ _ [] hzero col pos valueHead tmpCol
    rwa [List.append_nil] at hend
  rw [hs, List.append_assoc, colEnd_delimited hclosed _ _ (by omega), hfault]

/-- The first column ends inside the row with a `|` or a backslash, a later one with its
delimiter, or the row has a line feed; and a column read with quotes has at least two bytes. -/
def Extractable (prev : Byte) (row : List Byte) (col : Int) (withQuote : Bool) : Prop :=
  if col = 1 then
    (prev = backslash ∨ delimiter ∈ row ∨ backslash ∈ row) ∧
      (withQuote = true → 2 ≤ (firstColumn prev row).length)
  else
    (newline ∈ row ∨ col ≤ (columnsOf prev row).length) ∧
      (withQuote = true → ∀ f ∈ (columnsOf prev row)[col.toNat - 1]?, 2 ≤ f.length)

instance (prev : Byte) (row : List Byte) (col : Int) (withQuote : Bool) :
    Decidable (Extractable prev row col withQuote) :=
  inferInstanceAs (Decidable (ite _ _ _))

section

variable {prev : Byte} {row value : List Byte} {maxLen : Int} {withQuote : Bool}

theorem firstStops_row (prev : Byte) (row : List Byte) : FirstStops prev (row ++ [0]) ↔
    prev = backslash ∨ delimiter ∈ row ∨ backslash ∈ row := by
  simp [FirstStops, delimiter]

theorem first_isOk_iff (hmax : 1 ≤ maxLen) (hint : IsInt maxLen)
    (hvalue : maxLen - 1 < value.length) :
    (∃ r, getValueByCol prev (row ++ [0]) 1 value maxLen withQuote = .ok r) ↔
      Extractable prev row 1 withQuote := by
  have hrow := firstStops_row prev row
  rw [getValueByCol_one hmax hint, firstColEnd_eq_if, Extractable, if_pos rfl, ← hrow]
  by_cases hstops : FirstStops prev (row ++ [0])
  · obtain ⟨t, ht⟩ := firstColumn_isPrefix prev row
    have hcopy : (∃ r, copyColumn ([] ++ (firstColumn prev row ++ (t ++ [0]))) 0
        (0 + (firstColumn prev row).length) value (maxLen - 1) withQuote = .ok r) ↔ _ :=
      copyColumn_isOk_iff (by omega) hvalue
    rw [List.nil_append, ← List.append_assoc, ht] at hcopy
    rw [firstColumn_append (hrow.mp hstops), if_pos hstops, ok_bind, and_iff_right hstops, ← hcopy]
    simp [map_eq_ok]
  · rw [if_neg hstops, error_bind]
    simp [hstops]

theorem column_isOk_iff {col : Nat} (hcol : 2 ≤ col) (hmax : 1 ≤ maxLen) (hint : IsInt maxLen)
    (hvalue : maxLen - 1 < value.length) :
    (∃ r, getValueByCol prev (row ++ [0]) col value maxLen withQuote = .ok r) ↔
      Extractable prev row col withQuote := by
  have hne : (col : Int) ≠ 1 := by omega
  rw [getValueByCol_eq_columnLoop (by omega) hmax hint, columnLoop, Extractable, if_neg hne,
    Int.toNat_natCast]
  cases hget : (columnsOf prev row)[col - 1]? with
  | some f =>
    have hle : (col : Int) ≤ (columnsOf prev row).length := by
      have hlt := (List.getElem?_eq_some_iff.mp hget).1
      omega
    obtain ⟨a, b, hwhole, hend⟩ := colEnd_getElem (by omega) hget [0]
    rw [hend, hwhole, ok_bind]
    have hcopy : (∃ r, copyColumn (a ++ (f ++ b)) a.length (a.length + f.length) value (maxLen - 1)
        withQuote = .ok r) ↔ _ :=
      copyColumn_isOk_iff (by omega) hvalue
    simp only [hle, or_true, true_and, Option.mem_def, Option.some.injEq, forall_eq', ← hcopy]
    constructor
    · rintro ⟨r, hr⟩
      obtain ⟨stored, hstored, -⟩ := bind_eq_ok.mp hr
      exact ⟨stored, hstored⟩
    · rintro ⟨stored, hstored⟩
      exact ⟨some stored, bind_eq_ok.mpr ⟨stored, hstored, rfl⟩⟩
  | none =>
    have hgt : ¬ (col : Int) ≤ (columnsOf prev row).length := by
      rw [List.getElem?_eq_none_iff] at hget
      omega
    by_cases hline : newline ∈ row
    · rw [colEnd_getElem_none (by omega) hline hget, ok_bind]
      simp [hline]
    · rw [colEnd_runOff hcol hline hget, error_bind]
      simp [hline, hgt]

end

/-- A column of a NUL-terminated row is read inside the row and written inside an array of
`maxLen` bytes exactly if it is extractable. -/
theorem getValueByCol_inside_iff (prev : Byte) (row : CStr) {col maxLen : Int} (hcol : 1 ≤ col)
    (hmax : 1 ≤ maxLen) (hint : IsInt maxLen) {value : List Byte} (hvalue : value.length = maxLen)
    (withQuote : Bool) :
    (∃ r, getValueByCol prev row.array col value maxLen withQuote = .ok r) ↔
      Extractable prev row.bytes col withQuote := by
  have hroom : maxLen - 1 < value.length := by omega
  obtain rfl | hcol := hcol.eq_or_lt
  · exact first_isOk_iff hmax hint hroom
  · obtain ⟨n, rfl⟩ := Int.eq_ofNat_of_zero_le (by omega : 0 ≤ col)
    exact column_isOk_iff (by omega) hmax hint hroom

/-- The second column of a row with two columns and a line feed, read without its quotes. -/
theorem getValueByCol_inside_quoted :
    ∃ r, getValueByCol 0 (CStr.mk (ascii "1|'c'\n") (by decide)).array 2 (zeros 8) 8 true =
      .ok r :=
  (getValueByCol_inside_iff 0 ⟨ascii "1|'c'\n", by decide⟩ (by decide) (by decide) (by decide)
    rfl true).mpr (by decide)

/-- A row without a separator is left by the loop for the first column. -/
theorem getValueByCol_inside_missing :
    ¬ ∃ r, getValueByCol 0 (CStr.mk (ascii "abc\n") (by decide)).array 1 (zeros 8) 8 false =
      .ok r := by
  rintro ⟨r, hr⟩
  have hfault : getValueByCol 0 (CStr.mk (ascii "abc\n") (by decide)).array 1 (zeros 8) 8 false =
      .error .read := by
    decide
  rw [hfault] at hr
  cases hr

end CgiFileStore
