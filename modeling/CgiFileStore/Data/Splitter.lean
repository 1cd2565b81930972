import CgiFileStore.Data.UtilCgi

/-!
# Columns as fields of a split

`splitFields` cuts a text at each `|` that does not stand behind a backslash. The main result
says that `get_value_by_col` stores the field of that split, for every column but the first.
-/

namespace CgiFileStore

open CSem Redis

/-! ## The split -/

/-- The fields of a text that stands behind the byte `prev`. -/
def splitFields : Byte → List Byte → List (List Byte)
  | _, [] => [[]]
  | prev, c :: cs =>
    if c = delimiter ∧ prev ≠ backslash then [] :: splitFields c cs
    else (splitFields c cs).modifyHead (c :: ·)

/-- The fields of a text that does not stand behind a backslash. -/
def fieldsOf (text : List Byte) : List (List Byte) := splitFields 0 text

theorem splitFields_eq_fieldsOf {prev : Byte} (h : prev ≠ backslash) (text : List Byte) :
    splitFields prev text = fieldsOf text := by
  have h0 : (0 : Byte) ≠ backslash := by decide
  cases text with
  | nil => rfl
  | cons c cs => simp [fieldsOf, splitFields, h, h0]

theorem splitFields_ne_nil (prev : Byte) (text : List Byte) : splitFields prev text ≠ [] := by
  cases text with
  | nil => simp [splitFields]
  | cons c cs =>
    have ih := splitFields_ne_nil c cs
    unfold splitFields
    split_ifs
    · simp
    · cases h : splitFields c cs with
      | nil => exact absurd h ih
      | cons f fs => simp

/-- A delimiter that does not stand behind a backslash separates what is in front of it. -/
theorem splitFields_append {prev : Byte} {s : List Byte} (h : lastByte prev s ≠ backslash)
    (rest : List Byte) :
    splitFields prev (s ++ delimiter :: rest) =
      splitFields prev s ++ splitFields delimiter rest := by
  induction s generalizing prev with
  | nil => simp [splitFields, show prev ≠ backslash from h]
  | cons c cs ih =>
    rw [List.cons_append, splitFields, splitFields, ih h]
    split_ifs
    · rfl
    · cases hc : splitFields c cs with
      | nil => exact absurd hc (splitFields_ne_nil c cs)
      | cons f fs => rfl

theorem splitFields_unbroken {prev : Byte} {s : List Byte} (h : Unbroken prev s) :
    splitFields prev s = [s] := by
  induction s generalizing prev with
  | nil => rfl
  | cons c cs ih => rw [splitFields, if_neg h.1.1, ih h.2, List.modifyHead_cons]

/-- Closed fields are cut off one by one. -/
theorem splitFields_delimited {prev : Byte} {fields : List (List Byte)}
    (h : AllClosed prev fields) (rest : List Byte) :
    splitFields prev (delimited fields ++ rest) =
      fields ++ splitFields (frontByte prev fields) rest := by
  induction fields generalizing prev with
  | nil => rfl
  | cons g gs ih =>
    have hline : delimited (g :: gs) ++ rest = g ++ delimiter :: (delimited gs ++ rest) := by
      simp [delimited]
    have hfront : frontByte delimiter gs = frontByte prev (g :: gs) := by simp [frontByte]
    rw [hline, splitFields_append h.1.2, splitFields_unbroken h.1.1, ih h.2, hfront]
    rfl

theorem sublist_of_mem_splitFields {prev : Byte} {s f : List Byte} (h : f ∈ splitFields prev s) :
    f.Sublist s := by
  induction s generalizing prev f with
  | nil =>
    obtain rfl : f = [] := by simpa [splitFields] using h
    exact List.Sublist.refl []
  | cons c cs ih =>
    rw [splitFields] at h
    split_ifs at h
    · rcases List.mem_cons.mp h with rfl | h
      · exact List.nil_sublist _
      · exact (ih h).cons c
    · cases hcs : splitFields c cs with
      | nil => exact absurd hcs (splitFields_ne_nil c cs)
      | cons g gs =>
        rw [hcs, List.modifyHead_cons] at h
        rcases List.mem_cons.mp h with rfl | h
        · exact (ih (hcs ▸ List.mem_cons_self)).cons_cons c
        · exact (ih (hcs ▸ List.mem_cons_of_mem g h)).cons c

/-- The fields, all but the last one with the delimiter behind it, make up the text. -/
theorem splitFields_spec (prev : Byte) {text : List Byte} (h : newline ∉ text) :
    ∃ fields f, splitFields prev text = fields ++ [f] ∧ text = delimited fields ++ f ∧
      AllClosed prev fields ∧ Unbroken (frontByte prev fields) f := by
  induction text generalizing prev with
  | nil => exact ⟨[], [], rfl, rfl, trivial, trivial⟩
  | cons c cs ih =>
    simp only [List.mem_cons, not_or] at h
    obtain ⟨fields, f, hsplit, htext, hclosed, hlast⟩ := ih c h.2
    rw [splitFields, hsplit]
    split_ifs with hc
    · obtain ⟨rfl, hprev⟩ := hc
      have hfront : frontByte delimiter fields = frontByte prev ([] :: fields) := by
        simp [frontByte]
      refine ⟨[] :: fields, f, rfl, ?_, ⟨⟨trivial, hprev⟩, hclosed⟩, hfront ▸ hlast⟩
      rw [htext]
      simp [delimited]
    · have hstart : ¬ (c = delimiter ∧ prev ≠ backslash) ∧ c ≠ newline := ⟨hc, Ne.symm h.1⟩
      cases fields with
      | nil => exact ⟨[], c :: f, rfl, by rw [htext]; rfl, trivial, hstart, hlast⟩
      | cons g gs =>
        refine ⟨(c :: g) :: gs, f, rfl, by rw [htext]; rfl, ⟨⟨⟨hstart, ?_⟩, ?_⟩, ?_⟩, ?_⟩
        · exact hclosed.1.1
        · exact hclosed.1.2
        · exact hclosed.2
        · exact hlast

/-! ## The columns behind the first one -/

/-- A line with fewer columns ends before the column is found. -/
theorem colEnd_none {prev : Byte} {fields : List (List Byte)} {f : List Byte}
    (hfields : AllClosed prev fields) (hf : Unbroken (frontByte prev fields) f)
    (rest : List Byte) (pos : Nat) {col tmpCol : Int} (hcol : tmpCol + fields.length + 1 < col) :
    colEnd col prev (delimited fields ++ (f ++ newline :: rest)) pos pos tmpCol = .ok none := by
  rw [colEnd_delimited hfields _ _ (by omega), colEnd_unbroken hf, colEnd, if_pos (.inr rfl),
    if_neg (by omega), if_pos rfl]

/-- A part of a list of closed fields is closed behind the fields in front of it. -/
theorem allClosed_append {prev : Byte} {fs gs : List (List Byte)} :
    AllClosed prev (fs ++ gs) ↔ AllClosed prev fs ∧ AllClosed (frontByte prev fs) gs := by
  induction fs generalizing prev with
  | nil => simp [AllClosed, frontByte]
  | cons f fs ih =>
    have hfront : frontByte delimiter fs = frontByte prev (f :: fs) := by simp [frontByte]
    rw [List.cons_append, AllClosed, AllClosed, ih, hfront, and_assoc]

/-- A column with a delimiter behind it is found whatever follows. -/
theorem colEnd_field {prev : Byte} {fields : List (List Byte)} {f : List Byte} {col : Nat}
    (hfields : AllClosed prev fields) (hcol : 1 ≤ col) (hget : fields[col - 1]? = some f)
    (rest : List Byte) :
    ∃ a b, delimited fields ++ rest = a ++ (f ++ b) ∧
      colEnd col prev (delimited fields ++ rest) 0 0 0 =
        .ok (some (a.length, a.length + f.length)) := by
  obtain ⟨hlt, rfl⟩ := List.getElem?_eq_some_iff.mp hget
  have hsplit : fields = fields.take (col - 1) ++ fields[col - 1] :: fields.drop col := by
    have hsucc : col - 1 + 1 = col := by omega
    have hdrop := List.drop_eq_getElem_cons hlt
    rw [hsucc] at hdrop
    rw [← hdrop, List.take_append_drop]
  have hlen : ((fields.take (col - 1)).length : Int) = col - 1 := by
    rw [List.length_take]
    omega
  generalize fields.take (col - 1) = before at hsplit hlen
  generalize fields.drop col = behind at hsplit
  generalize fields[col - 1] = f at hsplit ⊢
  subst hsplit
  obtain ⟨hbefore, hf, -⟩ := allClosed_append.mp hfields
  have hwhole : delimited (before ++ f :: behind) ++ rest =
      delimited before ++ (f ++ delimiter :: (delimited behind ++ rest)) := by
    simp [delimited]
  have hend := colEnd_column hbefore hf.1 (.inl ⟨rfl, hf.2⟩) (delimited behind ++ rest) 0 0
  have hcol' : (0 : Int) + before.length + 1 = col := by omega
  rw [hcol', Nat.zero_add] at hend
  exact ⟨_, _, hwhole, by rw [hwhole, hend]⟩

/-- In front of a line feed the loop finds the fields of the split, and none behind the
last one. -/
theorem colEnd_splitFields (prev : Byte) {text : List Byte} (hline : newline ∉ text)
    (rest : List Byte) {col : Nat} (hcol : 1 ≤ col) :
    match (splitFields prev text)[col - 1]? with
    | none => colEnd col prev (text ++ newline :: rest) 0 0 0 = .ok none
    | some f => ∃ a b, text ++ newline :: rest = a ++ (f ++ b) ∧
        colEnd col prev (text ++ newline :: rest) 0 0 0 =
          .ok (some (a.length, a.length + f.length)) := by
  obtain ⟨fields, f, hsplit, htext, hclosed, hlast⟩ := splitFields_spec prev hline
  have hassoc : text ++ newline :: rest = delimited fields ++ (f ++ newline :: rest) := by
    rw [htext, List.append_assoc]
  rw [hsplit, hassoc]
  rcases lt_trichotomy (col - 1) fields.length with hlt | heq | hgt
  · rw [List.getElem?_append_left hlt, List.getElem?_eq_getElem hlt]
    exact colEnd_field hclosed hcol (List.getElem?_eq_getElem hlt) _
  · -- the field in front of the line feed
    rw [heq, List.getElem?_concat_length]
    have hend := colEnd_column hclosed hlast (.inr rfl) rest 0 0
    have hcol' : (0 : Int) + fields.length + 1 = col := by omega
    rw [hcol', Nat.zero_add] at hend
    exact ⟨_, _, rfl, hend⟩
  · rw [List.getElem?_eq_none (by simp; omega)]
    exact colEnd_none hclosed hlast rest 0 (by omega)

/-! ## The bytes that are stored -/

/-- The field without its first and its last byte. -/
def unquoted (f : List Byte) : List Byte := f.tail.dropLast

theorem eq_unquoted {f : List Byte} (hf : 2 ≤ f.length) :
    ∃ c d, f = c :: (unquoted f ++ [d]) := by
  obtain ⟨c, cs, rfl⟩ := List.exists_cons_of_length_pos (by omega : 0 < f.length)
  have hne : cs ≠ [] := by
    rintro rfl
    simp at hf
  exact ⟨c, cs.getLast hne, by rw [unquoted, List.tail_cons, List.dropLast_append_getLast]⟩

theorem length_unquoted (f : List Byte) : (unquoted f).length = f.length - 2 := by
  rw [unquoted, List.length_dropLast, List.length_tail]
  omega

section

variable {a f rest value : List Byte} {maxLen : Int}

theorem copyColumn_plain (hmax : 0 ≤ maxLen) :
    copyColumn (a ++ (f ++ rest)) a.length (a.length + f.length) value maxLen false =
      let stored := f.take maxLen.toNat
      if stored.length < value.length then
        .ok (stored ++ 0 :: value.drop (stored.length + 1))
      else .error .write := by
  rw [copyColumn_eq hmax]
  dsimp only
  split_ifs with hfit
  · exact memcpy_store hfit
  · exact memcpy_store_overrun (not_lt.mp hfit)

/-- The copy of a field in quotes is the copy of what stands between them. -/
theorem copyColumn_quoted (hmax : 0 ≤ maxLen) (hf : 2 ≤ f.length) :
    copyColumn (a ++ (f ++ rest)) a.length (a.length + f.length) value maxLen true =
      let stored := (unquoted f).take maxLen.toNat
      if stored.length < value.length then
        .ok (stored ++ 0 :: value.drop (stored.length + 1))
      else .error .write := by
  have hshift : copyColumn (a ++ (f ++ rest)) a.length (a.length + f.length) value maxLen true =
      copyColumn (a ++ (f ++ rest)) (a.length + 1) (a.length + 1 + (unquoted f).length) value maxLen
        false := by
    have hpos : ((a.length + f.length : Nat) : Int) - a.length - 2 =
        ((a.length + 1 + (unquoted f).length : Nat) : Int) - (a.length + 1 : Nat) - 0 := by
      rw [length_unquoted]
      omega
    simp only [copyColumn, if_true, Bool.false_eq_true, if_false, hpos]
  obtain ⟨c, d, hquotes⟩ := eq_unquoted hf
  have hinner : a ++ (f ++ rest) = (a ++ [c]) ++ (unquoted f ++ d :: rest) := by
    nth_rewrite 1 [hquotes]
    simp
  have hcopy : copyColumn (a ++ [c] ++ (unquoted f ++ d :: rest)) (a ++ [c]).length
      ((a ++ [c]).length + (unquoted f).length) value maxLen false = _ :=
    copyColumn_plain hmax
  rw [List.length_append, List.length_singleton, ← hinner] at hcopy
  rw [hshift, hcopy]

/-- A field without room for two quotes has a negative length. -/
theorem copyColumn_short (hmax : 0 ≤ maxLen) (hf : f.length < 2) :
    copyColumn (a ++ (f ++ rest)) a.length (a.length + f.length) value maxLen true =
      .error .write := by
  have hneg : ((a.length + f.length : Nat) : Int) - a.length - 2 < 0 := by omega
  have hle : ¬ ((a.length + f.length : Nat) : Int) - a.length - 2 > maxLen := by omega
  simp only [copyColumn, if_true, if_neg hle, if_pos hneg]
  rfl

end

/-- `get_value_by_col` for a line that does not stand behind a backslash, and any column but
the first: it stores what there is room for of the field of the split, or writes nothing if
there are fewer fields. -/
theorem getValueByCol_eq {prev : Byte} (hprev : prev ≠ backslash) {text : List Byte}
    (hline : newline ∉ text) (rest value : List Byte) {col maxLen : Int} (hcol : 2 ≤ col)
    (hmax : 1 ≤ maxLen) (hint : IsInt maxLen) (withQuote : Bool) :
    getValueByCol prev (text ++ newline :: rest) col value maxLen withQuote =
      match (fieldsOf text)[col.toNat - 1]? with
      | none => .ok none
      | some f =>
        if withQuote = true ∧ f.length < 2 then .error .write
        else
          let stored := (if withQuote = true then unquoted f else f).take (maxLen - 1).toNat
          if stored.length < value.length then
            .ok (some (stored ++ 0 :: value.drop (stored.length + 1)))
          else .error .write := by
  have hmax' : toChecked (maxLen - 1) = .ok (maxLen - 1) := by
    apply toChecked_of_isInt
    simp only [IsInt, intMin, intMax] at hint ⊢
    omega
  obtain ⟨n, rfl⟩ := Int.eq_ofNat_of_zero_le (by omega : 0 ≤ col)
  have hend := colEnd_splitFields prev hline rest (by omega : 1 ≤ n)
  rw [splitFields_eq_fieldsOf hprev] at hend
  simp only [getValueByCol, hmax', ok_bind, Int.toNat_natCast]
  rw [if_neg (by omega), if_neg (by omega)]
  cases hget : (fieldsOf text)[n - 1]? with
  | none =>
    rw [hget] at hend
    rw [hend]
    rfl
  | some f =>
    rw [hget] at hend
    obtain ⟨a, b, hwhole, hend⟩ := hend
    rw [hend, hwhole]
    simp only [ok_bind]
    cases withQuote with
    | false =>
      rw [copyColumn_plain (by omega)]
      simp only [Bool.false_eq_true, false_and, if_false]
      split_ifs <;> rfl
    | true =>
      simp only [true_and, if_true]
      split_ifs with hshort hfit
      · rw [copyColumn_short (by omega) hshort]
        rfl
      · rw [copyColumn_quoted (by omega) (not_lt.mp hshort)]
        simp only [if_pos hfit]
        rfl
      · rw [copyColumn_quoted (by omega) (not_lt.mp hshort)]
        simp only [if_neg hfit]
        rfl

/-- The third field of a line with an escaped separator, without its quotes. -/
theorem getValueByCol_quoted :
    getValueByCol 0 (ascii "1|a\\|b|'c'" ++ newline :: []) 3 (zeros 8) 4 true =
      .ok (some (ascii "c" ++ 0 :: zeros 6)) :=
  getValueByCol_eq (by decide) (by decide) [] (zeros 8) (by decide) (by decide) (by decide) true

end CgiFileStore
