import CgiFileStore.Lib.Integer

/-!
# The name of the host

`cgi_init` of util_cgi.c reads a file over the array that holds the name of the host and trims
the string that is then in the array with `trim_space`. The copy of `trim_space` moves a string
inside its array; it is taken byte by byte from the front. The two main results say for which
strings `trim_space` is `strip`, and which names of the host are replaced.
-/

namespace CgiFileStore

open CSem

/-- `HOST_NAME_LEN`. -/
def hostNameLen : Nat := 128

/-- `g_host_name` as the program starts with it. -/
def initialHostName : List Byte := padTo hostNameLen (ascii "http://192.168.2.102")

/-- `str[j]`, with the byte in front of the array. -/
def loadAt (before : Byte) (str : List Byte) (j : Int) : Checked Byte :=
  if j = -1 then .ok before else if j < 0 then .error .read else load str j.toNat

/-- `while (isspace(str[i]) && str[i] != '\0') i++`. -/
def skipBlanks : List Byte → Int → Checked Int
  | [], _ => .error .read
  | c :: cs, i => do
    if isSpace c ∧ c ≠ 0 then
      let i ← toChecked (i + 1)
      skipBlanks cs i
    else return i

/-- `while (isspace(str[j]) && j > i) j--`, where at most `n` places lie between `i` and `j`. -/
def trimEnd (before : Byte) (str : List Byte) (i : Int) : Nat → Int → Checked Int
  | 0, j => do
    let _ ← loadAt before str j
    return j
  | n + 1, j => do
    let c ← loadAt before str j
    if isSpace c ∧ j > i then trimEnd before str i n (j - 1) else return j

/-- `strncpy(buf + dst, buf + src, n)` inside one array. -/
def strncpyInside : Nat → List Byte → Nat → Nat → Checked (List Byte)
  | 0, buf, _, _ => .ok buf
  | n + 1, buf, dst, src => do
    let c ← load buf src
    if c = 0 then memcpy buf dst (zeros (n + 1))
    else
      let buf ← store buf dst c
      strncpyInside n buf (dst + 1) (src + 1)

def trimSpace (before : Byte) (inbuf : List Byte) : Checked (List Byte) := do
  let len ← strlen inbuf
  let j := wrapInt (len - 1)
  let i ← skipBlanks inbuf 0
  let j ← trimEnd before inbuf i (j - i).toNat j
  let count ← toChecked (j - i)
  let count ← toChecked (count + 1)
  let inbuf ← strncpyInside (toSize count) inbuf 0 i.toNat
  if count < 0 then .error .write else store inbuf count.toNat 0

/-- `cgi_init`, with the array and the byte in front of it; the file is none if it cannot be
opened, and is read in full otherwise. -/
def cgiInit (before : Byte) (gHostName : List Byte) (file : Option (List Byte)) :
    Checked (List Byte) := do
  match file with
  | none => return gHostName
  | some content =>
    let len := wrapInt content.length
    let gHostName ← memcpy gHostName 0 (content.take (toSize len))
    trimSpace before gHostName

/-- A string without the white space at its ends. -/
def strip (s : List Byte) : List Byte := (s.dropWhile isSpace).rdropWhile isSpace

/-! ## Strings and their blanks -/

section

variable {s t : List Byte}

/-- What is kept of `s` is `u ++ [c]`, between the white space in front and at the back. -/
structure StripsTo (s front u : List Byte) (c : Byte) (back : List Byte) : Prop where
  split : s = front ++ (u ++ c :: back)
  strip_eq : strip s = u ++ [c]
  front_isSpace : ∀ b ∈ front, isSpace b
  back_isSpace : ∀ b ∈ back, isSpace b
  last : isSpace c = false
  first : ∀ d ds, u ++ c :: back = d :: ds → isSpace d = false

/-- Either all of a string is white space, or what is left of it has no white space at its
ends. -/
theorem strip_cases (s : List Byte) :
    (strip s = [] ∧ ∀ c ∈ s, isSpace c) ∨ ∃ front u c back, StripsTo s front u c back := by
  by_cases hs : s.dropWhile isSpace = []
  · exact .inl ⟨by simp [strip, hs], List.dropWhile_eq_nil_iff.mp hs⟩
  · have hhead := List.head_dropWhile_not isSpace hs
    have hne : strip s ≠ [] := by
      intro h
      have hall := List.rdropWhile_eq_nil_iff.mp h _ (List.head_mem hs)
      rw [hhead] at hall
      cases hall
    have hlast := List.rdropWhile_last_not isSpace _ hne
    have hsplit : (strip s).dropLast ++ [(strip s).getLast hne] = strip s :=
      List.dropLast_append_getLast hne
    have hback : s.dropWhile isSpace = (strip s).dropLast ++ (strip s).getLast hne ::
        (s.dropWhile isSpace).rtakeWhile isSpace := by
      rw [← List.concat_append, List.concat_eq_append, hsplit]
      exact (List.rdropWhile_append_rtakeWhile ..).symm
    refine .inr ⟨s.takeWhile isSpace, (strip s).dropLast, (strip s).getLast hne,
      (s.dropWhile isSpace).rtakeWhile isSpace,
      { split := ?_
        strip_eq := hsplit.symm
        front_isSpace := fun b hb => List.mem_takeWhile_imp hb
        back_isSpace := fun b hb => List.mem_rtakeWhile_imp hb
        last := Bool.not_eq_true _ ▸ hlast
        first := fun d ds hd => ?_ }⟩
    · rw [← hback, List.takeWhile_append_dropWhile]
    · have hfirst := List.head?_dropWhile_not isSpace s
      rw [hback, hd] at hfirst
      exact hfirst

/-- Only white space is taken away. -/
theorem countP_strip (s : List Byte) :
    (strip s).countP (fun c => !isSpace c) = s.countP fun c => !isSpace c := by
  have hblank : ∀ l : List Byte, (∀ c ∈ l, isSpace c) → l.countP (fun c => !isSpace c) = 0 := by
    intro l hl
    rw [List.countP_eq_zero]
    intro c hc
    simp [hl c hc]
  rcases strip_cases s with ⟨hstrip, hall⟩ | ⟨front, u, c, back, h⟩
  · rw [hstrip, hblank s hall]
    rfl
  · rw [h.strip_eq, h.split]
    simp [List.countP_append, List.countP_cons, hblank front h.front_isSpace,
      hblank back h.back_isSpace]

/-- Text behind a string matters unless it is white space. -/
theorem strip_append_eq_iff (s t : List Byte) :
    strip (s ++ t) = strip s ↔ ∀ c ∈ t, isSpace c := by
  constructor
  · intro h c hc
    have hcount := countP_strip (s ++ t)
    rw [h, countP_strip, List.countP_append] at hcount
    have hzero : t.countP (fun c => !isSpace c) = 0 := by omega
    have := List.countP_eq_zero.mp hzero c hc
    simpa using this
  · intro h
    have hnil : t.dropWhile isSpace = [] := List.dropWhile_eq_nil_iff.mpr h
    have hright : ((s.dropWhile isSpace) ++ t).rdropWhile isSpace =
        (s.dropWhile isSpace).rdropWhile isSpace := by
      rw [List.rdropWhile, List.reverse_append, List.dropWhile_append_of_pos, List.rdropWhile]
      exact fun c hc => h c (List.mem_reverse.mp hc)
    rw [strip, List.dropWhile_append]
    split_ifs with hempty
    · rw [strip, List.isEmpty_iff.mp hempty, hnil]
    · exact hright

theorem mem_of_mem_strip {s : List Byte} {c : Byte} (h : c ∈ strip s) : c ∈ s :=
  (List.dropWhile_suffix _).subset ((List.rdropWhile_prefix _ _).subset h)

theorem strip_strip (s : List Byte) : strip (strip s) = strip s := by
  rcases strip_cases s with ⟨hstrip, -⟩ | ⟨front, u, c, back, h⟩
  · rw [hstrip]
    rfl
  · have hhead : (u ++ [c]).dropWhile isSpace = u ++ [c] := by
      cases u with
      | nil => simp [h.last]
      | cons d ds => simp [h.first d (ds ++ c :: back) (by simp)]
    rw [h.strip_eq, strip, hhead, List.rdropWhile_concat_neg _ _ _ (by simp [h.last])]

section

variable {front u back : List Byte} {c : Byte}

theorem StripsTo.takeWhile_eq (h : StripsTo s front u c back) : s.takeWhile isSpace = front := by
  obtain ⟨d, ds, hd⟩ := List.exists_cons_of_ne_nil
    (List.append_ne_nil_of_right_ne_nil u (List.cons_ne_nil c back))
  rw [h.split, List.takeWhile_append_of_pos h.front_isSpace, hd]
  simp [h.first d ds hd]

theorem StripsTo.rtakeWhile_eq (h : StripsTo s front u c back) : s.rtakeWhile isSpace = back := by
  have hrev : ∀ b ∈ back.reverse, isSpace b = true := fun b hb =>
    h.back_isSpace b (List.mem_reverse.mp hb)
  rw [h.split, ← List.append_assoc, List.rtakeWhile, List.reverse_append, List.reverse_cons,
    List.append_assoc, List.takeWhile_append_of_pos hrev]
  simp [h.last]

theorem StripsTo.length_eq (h : StripsTo s front u c back) :
    s.length = front.length + (u.length + (back.length + 1)) := by
  rw [h.split, List.length_append, List.length_append, List.length_cons]

end

/-- The bytes that are kept lie between the blanks at the two ends. -/
theorem length_strip (s : List Byte) :
    strip s = [] ∧ s.takeWhile isSpace = s ∧ s.rtakeWhile isSpace = s ∨
      (s.takeWhile isSpace).length + (strip s).length + (s.rtakeWhile isSpace).length =
        s.length := by
  rcases strip_cases s with ⟨hstrip, hall⟩ | ⟨front, u, c, back, h⟩
  · exact .inl ⟨hstrip, List.takeWhile_eq_self_iff.mpr hall, List.rtakeWhile_eq_self_iff.mpr hall⟩
  · right
    rw [h.takeWhile_eq, h.rtakeWhile_eq, h.strip_eq, h.length_eq, List.length_append,
      List.length_singleton]
    omega

/-- The first byte that is kept and the last one have indices that the `int` cursors of
`trimSpace` reach from the two ends, and an `int` can count what is kept. -/
def TrimFits (s : List Byte) : Prop :=
  ((s.takeWhile isSpace).length : Int) ≤ intMax ∧
    (s.length : Int) - (s.takeWhile isSpace).length - (s.rtakeWhile isSpace).length ≤ intMax ∧
      (s.length : Int) - (s.rtakeWhile isSpace).length - 1 ≤ wrapInt ((s.length : Int) - 1)

instance (s : List Byte) : Decidable (TrimFits s) := inferInstanceAs (Decidable (_ ∧ _))

theorem wrapInt_length_sub_one (hlen : (s.length : Int) ≤ intMax) :
    wrapInt ((s.length : Int) - 1) = s.length - 1 :=
  wrapInt_of_isInt ⟨by simp only [intMin]; omega, by omega⟩

theorem trimFits_of_length_le (hlen : (s.length : Int) ≤ intMax) : TrimFits s := by
  have hle := (List.takeWhile_prefix isSpace (l := s)).length_le
  rw [TrimFits, wrapInt_length_sub_one hlen]
  exact ⟨by omega, by omega, by omega⟩

theorem TrimFits.length_strip_le (h : TrimFits s) : ((strip s).length : Int) ≤ intMax := by
  obtain ⟨-, hcount, -⟩ := h
  rcases length_strip s with ⟨hnil, -⟩ | hsum
  · rw [hnil]
    decide
  · omega

end

/-! ## The loops of trim_space -/

section

variable {front back u w : List Byte} {c d : Byte}

theorem skipBlanks_append (hfront : ∀ b ∈ front, isSpace b) (hd : isSpace d = false)
    (r : List Byte) {i : Int} (hi : 0 ≤ i) (hmax : i + front.length ≤ intMax) :
    skipBlanks (front ++ d :: r) i = .ok (i + front.length) := by
  induction front generalizing i with
  | nil => simp [skipBlanks, hd]
  | cons b bs ih =>
    have hb : isSpace b ∧ b ≠ 0 := by
      refine ⟨hfront b List.mem_cons_self, ?_⟩
      rintro rfl
      exact absurd (hfront 0 List.mem_cons_self) (by decide)
    rw [List.length_cons] at hmax
    push_cast at hmax
    have hint : IsInt (i + 1) := ⟨by simp only [intMin]; omega, by omega⟩
    rw [List.cons_append, skipBlanks, if_pos hb, toChecked_of_isInt hint, ok_bind,
      ih (fun b hb => hfront b (List.mem_cons_of_mem _ hb)) (by omega) (by omega),
      List.length_cons]
    push_cast
    rw [Int.add_assoc, Int.add_comm 1]

theorem loadAt_left (before c : Byte) (s r : List Byte) :
    loadAt before (s ++ c :: r) s.length = .ok c := by
  rw [loadAt, if_neg (by omega), if_neg (by omega), Int.toNat_natCast, load_left]

/-- The scan from the end stops at the last byte that is no white space. -/
theorem trimEnd_append (before : Byte) (hc : isSpace c = false) (hback : ∀ b ∈ back, isSpace b)
    {i : Nat} (hi : i ≤ w.length) (r : List Byte) :
    trimEnd before (w ++ c :: (back ++ r)) i (w.length + back.length - i)
      ((w.length + back.length : Nat) : Int) = .ok w.length := by
  induction back using List.reverseRecOn generalizing r with
  | nil =>
    have hload := loadAt_left before c w r
    cases w.length - i <;> simp [trimEnd, hload, hc]
  | append_singleton bs b ih =>
    have hb : isSpace b := hback b (by simp)
    have hload := loadAt_left before b (w ++ c :: bs) r
    have hlength : (w ++ c :: bs).length = w.length + (bs ++ [b]).length := by
      simp
    have hstring : w ++ c :: (bs ++ [b] ++ r) = w ++ c :: bs ++ b :: r := by simp
    have hcount : w.length + (bs ++ [b]).length - i = (w.length + bs.length - i) + 1 := by
      simp
      omega
    have hprev : ((w.length + (bs ++ [b]).length : Nat) : Int) - 1 =
        (w.length + bs.length : Nat) := by
      simp
      omega
    rw [hlength] at hload
    rw [hcount, trimEnd, hstring, hload, ok_bind, if_pos ⟨hb, by simp; omega⟩, hprev, ← hstring]
    have hrest := ih (fun b hb => hback b (by simp [hb])) (b :: r)
    simpa using hrest

/-- The string moves to the front, over what is there; behind it nothing changes. -/
theorem strncpyInside_append (hu : 0 ∉ u) (v w r : List Byte) :
    strncpyInside u.length (v ++ (w ++ (u ++ r))) v.length (v.length + w.length) =
      .ok (v ++ u ++ (w ++ (u ++ r)).drop u.length) := by
  induction u generalizing v w with
  | nil => simp [strncpyInside]
  | cons c cs ih =>
    rw [List.mem_cons, not_or] at hu
    have hload : load (v ++ (w ++ (c :: cs ++ r))) (v.length + w.length) = .ok c := by
      have h := load_left (v ++ w) (cs ++ r) c
      simpa using h
    -- the byte takes the place of the first byte in front of the string, or its own
    obtain ⟨w', hstore, hlength, hdrop⟩ :
        ∃ w', store (v ++ (w ++ (c :: cs ++ r))) v.length c = .ok (v ++ [c] ++ (w' ++ (cs ++ r))) ∧
          w'.length = w.length ∧
            (w' ++ (cs ++ r)).drop cs.length = (w ++ (c :: cs ++ r)).drop (cs.length + 1) := by
      cases w with
      | nil => exact ⟨[], by simpa using store_left v (cs ++ r) c c, rfl, by simp⟩
      | cons x xs =>
        exact ⟨xs ++ [c], by simpa using store_left v (xs ++ c :: cs ++ r) x c, by simp, by simp⟩
    have hcopy := ih hu.2 (v ++ [c]) w'
    have hnext : (v ++ [c]).length + w'.length = v.length + w.length + 1 := by
      simp
      omega
    rw [hnext, List.length_append, List.length_singleton] at hcopy
    rw [List.length_cons, strncpyInside, hload, ok_bind, if_neg (Ne.symm hu.1), hstore, ok_bind,
      hcopy, hdrop]
    simp

end

/-- The last byte of a string can be read, and of an empty one the byte in front of the array. -/
theorem loadAt_last (before : Byte) (s r : List Byte) :
    ∃ c, loadAt before (s ++ r) ((s.length : Int) - 1) = .ok c := by
  obtain rfl | ⟨w, c, rfl⟩ := List.eq_nil_or_concat s
  · exact ⟨before, rfl⟩
  · refine ⟨c, ?_⟩
    have hload := loadAt_left before c w r
    simpa using hload

/-- In a string of white space the two scans meet behind it, and nothing is copied. -/
theorem trimSpace_blanks (before : Byte) {s : List Byte} (hall : ∀ c ∈ s, isSpace c)
    (hlen : (s.length : Int) ≤ intMax) (rest : List Byte) :
    trimSpace before (s ++ 0 :: rest) = store (s ++ 0 :: rest) 0 0 := by
  have hs : 0 ∉ s := fun h => absurd (hall 0 h) (by decide)
  have hstrlen : strlen (s ++ 0 :: rest) = .ok s.length := by
    rw [strlen, readString_append_zero hs]
    rfl
  have hskip := skipBlanks_append hall (by decide : isSpace 0 = false) rest le_rfl (by omega)
  have hend : trimEnd before (s ++ 0 :: rest) s.length 0 (s.length - 1) =
      .ok ((s.length : Int) - 1) := by
    obtain ⟨c, hload⟩ := loadAt_last before s (0 :: rest)
    rw [trimEnd, hload]
    rfl
  have hfuel : ((s.length : Int) - 1 - s.length).toNat = 0 := by omega
  have hdiff : (s.length : Int) - 1 - s.length = -1 := by omega
  rw [trimSpace, hstrlen, ok_bind, wrapInt_length_sub_one hlen, hskip, ok_bind, Int.zero_add,
    hfuel, hend, ok_bind, hdiff]
  rfl

section

variable {s : List Byte}

theorem StripsTo.skipBlanks_eq (h : StripsTo s front u c back)
    (hleft : (front.length : Int) ≤ intMax) (rest : List Byte) :
    skipBlanks (s ++ 0 :: rest) 0 = .ok front.length := by
  obtain ⟨d, ds, hd⟩ := List.exists_cons_of_ne_nil
    (List.append_ne_nil_of_right_ne_nil u (List.cons_ne_nil c back))
  have hskip := skipBlanks_append h.front_isSpace (h.first d ds hd) (ds ++ 0 :: rest) le_rfl
    (by omega)
  rw [← List.cons_append, ← hd] at hskip
  simpa [h.split] using hskip

/-- The scan from the end starts at the last byte that is kept or behind it. -/
theorem StripsTo.trimEnd_eq (h : StripsTo s front u c back)
    (hright : (s.length : Int) - back.length - 1 ≤ wrapInt ((s.length : Int) - 1)) (before : Byte)
    (rest : List Byte) :
    trimEnd before (s ++ 0 :: rest) front.length
        (wrapInt ((s.length : Int) - 1) - front.length).toNat (wrapInt ((s.length : Int) - 1)) =
      .ok ((front ++ u).length : Int) := by
  have hsum := h.length_eq
  have hle : wrapInt ((s.length : Int) - 1) ≤ s.length - 1 := by
    have h := wrapInt_natCast_le (s.length - 1)
    rwa [Nat.cast_sub (by omega)] at h
  obtain ⟨k, hk, hlast⟩ : ∃ k, k ≤ back.length ∧
      wrapInt ((s.length : Int) - 1) = ((front ++ u).length + k : Nat) := by
    refine ⟨(wrapInt ((s.length : Int) - 1) - (front ++ u).length).toNat, ?_, ?_⟩
    all_goals
      rw [List.length_append]
      omega
  have hblanks : (back.take k).length = k := List.length_take_of_le hk
  have hstring : front ++ u ++ c :: (back.take k ++ (back.drop k ++ 0 :: rest)) =
      s ++ 0 :: rest := by
    rw [← List.append_assoc (back.take k), List.take_append_drop, h.split]
    simp
  have hfuel : (((front ++ u).length + k : Nat) - (front.length : Int)).toNat =
      (front ++ u).length + k - front.length := by
    omega
  have hpassed : ∀ b ∈ back.take k, isSpace b := fun b hb =>
    h.back_isSpace b (List.mem_of_mem_take hb)
  have hend := trimEnd_append before h.last hpassed (w := front ++ u) (i := front.length) (by simp)
    (back.drop k ++ 0 :: rest)
  rw [hblanks, hstring] at hend
  rw [hlast, hfuel, hend]

/-- What is kept moves over the white space in front. -/
theorem StripsTo.strncpyInside_eq (h : StripsTo s front u c back) (hs : 0 ∉ s) (rest : List Byte) :
    strncpyInside (strip s).length (s ++ 0 :: rest) 0 front.length =
      .ok (strip s ++ (s ++ 0 :: rest).drop (strip s).length) := by
  have hzero : 0 ∉ strip s := fun hmem => hs (mem_of_mem_strip hmem)
  have hcopy := strncpyInside_append hzero [] front (back ++ 0 :: rest)
  have hsrc : front ++ (strip s ++ (back ++ 0 :: rest)) = s ++ 0 :: rest := by
    rw [h.strip_eq, h.split]
    simp
  rwa [List.length_nil, Nat.zero_add, List.nil_append, List.nil_append, hsrc] at hcopy

theorem StripsTo.trimSpace_eq (h : StripsTo s front u c back) (hs : 0 ∉ s) (hfits : TrimFits s)
    (before : Byte) (rest : List Byte) :
    trimSpace before (s ++ 0 :: rest) =
      store (strip s ++ (s ++ 0 :: rest).drop (strip s).length) (strip s).length 0 := by
  have hstrlen : strlen (s ++ 0 :: rest) = .ok s.length := by
    rw [strlen, readString_append_zero hs]
    rfl
  obtain ⟨hleft, hcount, hright⟩ := hfits
  rw [h.takeWhile_eq] at hleft hcount
  rw [h.rtakeWhile_eq] at hcount hright
  have hsum := h.length_eq
  have hkept : (strip s).length = u.length + 1 := by
    rw [h.strip_eq, List.length_append, List.length_singleton]
  have hdiff : toChecked (((front ++ u).length : Int) - front.length) = .ok (u.length : Int) := by
    rw [List.length_append]
    exact toChecked_eq_ok.mpr ⟨⟨by simp only [intMin]; omega, by omega⟩, by omega⟩
  have hlength : toChecked ((u.length : Int) + 1) = .ok ((strip s).length : Int) :=
    toChecked_eq_ok.mpr ⟨⟨by simp only [intMin]; omega, by omega⟩, by omega⟩
  have htoSize : toSize ((strip s).length : Int) = (strip s).length := by
    simp only [intMax] at hcount
    rw [toSize_of_nonneg (by omega) (by omega), Int.toNat_natCast]
  rw [trimSpace, hstrlen, ok_bind, h.skipBlanks_eq hleft, ok_bind, h.trimEnd_eq hright, ok_bind,
    hdiff, ok_bind, hlength, ok_bind, htoSize, Int.toNat_natCast, h.strncpyInside_eq hs, ok_bind,
    if_neg (by omega), Int.toNat_natCast]

end

/-- A string is stripped in place, and nothing behind the stripped string changes. -/
theorem trimSpace_eq (before : Byte) {s : List Byte} (hs : 0 ∉ s) (hfits : TrimFits s)
    (rest : List Byte) :
    trimSpace before (s ++ 0 :: rest) =
      .ok (strip s ++ 0 :: (s ++ 0 :: rest).drop ((strip s).length + 1)) := by
  rcases strip_cases s with ⟨hstrip, hall⟩ | ⟨front, u, c, back, h⟩
  · have hlen := hfits.1
    rw [List.takeWhile_eq_self_iff.mpr hall] at hlen
    obtain ⟨b, bs, hbs⟩ := List.exists_cons_of_ne_nil
      (List.append_ne_nil_of_right_ne_nil s (List.cons_ne_nil 0 rest))
    rw [trimSpace_blanks before hall hlen, hstrip, hbs]
    rfl
  · have hsum := h.length_eq
    have hkept := congrArg List.length h.strip_eq
    have hroom : (strip s).length < (s ++ 0 :: rest).length := by
      simp only [List.length_append, List.length_cons, List.length_nil] at hkept ⊢
      omega
    rw [h.trimSpace_eq hs hfits, List.drop_eq_getElem_cons hroom, store_left]

/-! ## What a call that ends has done -/

theorem skipBlanks_eq_ok {m : List Byte} {i k : Int} (hi : i ≤ intMax)
    (h : skipBlanks m i = .ok k) : k = i + (m.takeWhile isSpace).length ∧ k ≤ intMax := by
  induction m generalizing i with
  | nil => cases h
  | cons c cs ih =>
    rw [skipBlanks] at h
    split_ifs at h with hc
    · obtain ⟨j, hj, h⟩ := bind_eq_ok.mp h
      obtain ⟨hint, rfl⟩ := toChecked_eq_ok.mp hj
      obtain ⟨hk, hmax⟩ := ih hint.2 h
      refine ⟨?_, hmax⟩
      rw [hk, List.takeWhile_cons_of_pos hc.1, List.length_cons]
      push_cast
      omega
    · obtain rfl : i = k := by simpa using h
      have hnot : ¬ isSpace c = true := by
        intro hspace
        refine hc ⟨hspace, ?_⟩
        rintro rfl
        exact absurd hspace (by decide)
      rw [List.takeWhile_cons_of_neg hnot]
      exact ⟨by simp, hi⟩

theorem trimEnd_le {before : Byte} {m : List Byte} {i j k : Int} {n : Nat}
    (h : trimEnd before m i n j = .ok k) : k ≤ j := by
  induction n generalizing j with
  | zero =>
    obtain ⟨c, -, h⟩ := bind_eq_ok.mp h
    obtain rfl : j = k := by simpa using h
    exact le_rfl
  | succ n ih =>
    obtain ⟨c, -, h⟩ := bind_eq_ok.mp h
    split_ifs at h
    · have := ih h
      omega
    · obtain rfl : j = k := by simpa using h
      exact le_rfl

/-- If the stripped string is left, the cursors have reached its ends. -/
theorem trimFits_of_trimSpace {before : Byte} {s rest r : List Byte} (hs : 0 ∉ s)
    (h : trimSpace before (s ++ 0 :: rest) = .ok r) (hread : readString r = .ok (strip s)) :
    TrimFits s := by
  obtain ⟨len, hlen, h⟩ := bind_eq_ok.mp h
  obtain rfl : s.length = len := by
    rw [strlen, readString_append_zero hs] at hlen
    exact Except.ok.inj hlen
  obtain ⟨i, hi, h⟩ := bind_eq_ok.mp h
  obtain ⟨j, hj, h⟩ := bind_eq_ok.mp h
  obtain ⟨diff, hdiff, h⟩ := bind_eq_ok.mp h
  obtain ⟨count, hcount, h⟩ := bind_eq_ok.mp h
  obtain ⟨buf, -, h⟩ := bind_eq_ok.mp h
  split_ifs at h with hneg
  have hkept := length_le_of_store h hread
  obtain ⟨-, rfl⟩ := toChecked_eq_ok.mp hdiff
  obtain ⟨⟨-, hmax⟩, rfl⟩ := toChecked_eq_ok.mp hcount
  have hend := trimEnd_le hj
  have htake : (s ++ 0 :: rest).takeWhile isSpace = s.takeWhile isSpace := by
    rw [List.takeWhile_append]
    split_ifs with hall
    · rw [List.takeWhile_cons_of_neg (by decide), List.append_nil]
      exact ((List.takeWhile_prefix isSpace).eq_of_length hall).symm
    · rfl
  obtain ⟨hfront, hfrontMax⟩ := skipBlanks_eq_ok (by decide) hi
  rw [htake] at hfront
  rw [TrimFits]
  rcases length_strip s with ⟨-, hleft, hright⟩ | hsum
  · rw [hleft] at hfront ⊢
    rw [hright]
    exact ⟨by omega, by omega, by omega⟩
  · exact ⟨by omega, by omega, by omega⟩

/-- The stripped string stays, and a second call changes nothing, exactly if the `int` cursors
reach the ends of what is kept. -/
theorem trimSpace_strip_iff (before : Byte) (inbuf : CStr) (rest : List Byte) :
    (∃ r, trimSpace before (inbuf.bytes ++ 0 :: rest) = .ok r ∧
      readString r = .ok (strip inbuf.bytes) ∧
        ∀ before', trimSpace before' r = .ok r) ↔ TrimFits inbuf.bytes := by
  constructor
  · rintro ⟨r, hr, hread, -⟩
    exact trimFits_of_trimSpace inbuf.nul_free hr hread
  · intro hfits
    have hzero : 0 ∉ strip inbuf.bytes := fun h => inbuf.nul_free (mem_of_mem_strip h)
    refine ⟨_, trimSpace_eq before inbuf.nul_free hfits rest, readString_append_zero hzero _, ?_⟩
    intro before'
    have hsecond := trimSpace_eq before' hzero (trimFits_of_length_le hfits.length_strip_le)
      ((inbuf.bytes ++ 0 :: rest).drop ((strip inbuf.bytes).length + 1))
    have hbehind (t t' : List Byte) : (t ++ 0 :: t').drop (t.length + 1) = t' := by simp
    rwa [strip_strip, hbehind] at hsecond

/-- Blanks around two words. -/
theorem trimSpace_strip_words (before : Byte) :
    ∃ r, trimSpace before (ascii " \ta b \n" ++ 0 :: [0]) = .ok r ∧
      readString r = .ok (strip (ascii " \ta b \n")) ∧
        ∀ before', trimSpace before' r = .ok r :=
  (trimSpace_strip_iff before ⟨ascii " \ta b \n", by decide⟩ [0]).mpr (by decide)

theorem TrimFits.length_le {s : List Byte} (h : TrimFits s) (hs : ∀ c ∈ s, isSpace c = false) :
    (s.length : Int) ≤ intMax := by
  have hnone : ∀ t : List Byte, (∀ c ∈ t, isSpace c = false) → t.takeWhile isSpace = [] := by
    intro t ht
    cases t with
    | nil => rfl
    | cons c cs => simp [ht c List.mem_cons_self]
  have hleft := hnone s hs
  have hright := hnone s.reverse fun c hc => hs c (List.mem_reverse.mp hc)
  obtain ⟨-, hcount, -⟩ := h
  rw [List.rtakeWhile, hleft, hright, List.reverse_nil, List.length_nil] at hcount
  omega

/-- A string of 2 GiB without blanks does not stay as it is. -/
theorem trimSpace_strip_huge :
    ¬ ∃ r, trimSpace 0 ((letters (2147483647 + 1)).bytes ++ 0 :: []) = .ok r ∧
      readString r = .ok (strip (letters (2147483647 + 1)).bytes) ∧
        ∀ before', trimSpace before' r = .ok r := by
  rintro ⟨r, hr, hread, -⟩
  have hfits := trimFits_of_trimSpace (letters _).nul_free hr hread
  have hlen := hfits.length_le fun c hc => by
    rw [letters, List.mem_replicate] at hc
    rw [hc.2]
    decide
  rw [length_letters] at hlen
  exact absurd hlen (by decide)

/-! ## Loading the name -/

section

variable {before : Byte} {gHostName : List Byte} {content : CStr}

/-- The bytes of the file stand in front of what is left of the old array. -/
theorem cgiInit_eq (hlen : gHostName.length = hostNameLen)
    (hfits : content.bytes.length < hostNameLen) :
    cgiInit before gHostName (some content.bytes) =
      trimSpace before (content.bytes ++ gHostName.drop content.bytes.length) := by
  simp only [hostNameLen] at hlen hfits
  have hint : IsInt content.bytes.length :=
    ⟨by simp only [intMin]; omega, by simp only [intMax]; omega⟩
  have hsize : toSize (wrapInt content.bytes.length) = content.bytes.length := by
    rw [wrapInt_of_isInt hint, toSize_of_nonneg (by omega) (by omega), Int.toNat_natCast]
  rw [cgiInit, hsize, List.take_length, memcpy_zero (by omega), ok_bind]

/-- The string that is trimmed is the content with the string that is left behind it. -/
theorem cgiInit_string (hlen : gHostName.length = hostNameLen)
    (hfits : content.bytes.length < hostNameLen)
    (hleft : 0 ∈ gHostName.drop content.bytes.length) :
    ∃ r, cgiInit before gHostName (some content.bytes) = .ok r ∧ readString r =
      .ok (strip (content.bytes ++ cstring (gHostName.drop content.bytes.length))) := by
  obtain ⟨rest, hrest⟩ := eq_cstring_append hleft
  have hzero : 0 ∉ content.bytes ++ cstring (gHostName.drop content.bytes.length) := by
    rw [List.mem_append, not_or]
    exact ⟨content.nul_free, zero_notMem_cstring _⟩
  have hlength := congrArg List.length hrest
  rw [List.length_append, List.length_cons, List.length_drop] at hlength
  obtain ⟨rest', htrim⟩ : ∃ rest', trimSpace before
      (content.bytes ++ cstring (gHostName.drop content.bytes.length) ++ 0 :: rest) =
        .ok (strip (content.bytes ++ cstring (gHostName.drop content.bytes.length)) ++
          0 :: rest') := by
    refine ⟨_, trimSpace_eq before hzero (trimFits_of_length_le ?_) rest⟩
    rw [List.length_append]
    simp only [hostNameLen] at hlen
    simp only [intMax]
    omega
  refine ⟨_, ?_, readString_append_zero (fun h => hzero (mem_of_mem_strip h)) rest'⟩
  rw [cgiInit_eq hlen hfits, ← htrim, List.append_assoc, ← hrest]

end

/-- The new name replaces the old one exactly if the array has a NUL behind the bytes of the file
and nothing but white space in front of that NUL. -/
theorem cgiInit_replaces_iff (before : Byte) (gHostName : List Byte)
    (hlen : gHostName.length = hostNameLen) (content : CStr)
    (hfits : content.bytes.length < hostNameLen) :
    (∃ r, cgiInit before gHostName (some content.bytes) = .ok r ∧
      readString r = .ok (strip content.bytes)) ↔
      0 ∈ gHostName.drop content.bytes.length ∧
        ∀ c ∈ cstring (gHostName.drop content.bytes.length), isSpace c := by
  by_cases hleft : 0 ∈ gHostName.drop content.bytes.length
  · obtain ⟨r, hr, hstring⟩ : ∃ r, cgiInit before gHostName (some content.bytes) = .ok r ∧ _ :=
      cgiInit_string hlen hfits hleft
    rw [and_iff_right hleft, ← strip_append_eq_iff content.bytes]
    constructor
    · rintro ⟨r', hr', hstring'⟩
      obtain rfl := Except.ok.inj (hr.symm.trans hr')
      exact Except.ok.inj (hstring.symm.trans hstring')
    · exact fun h => ⟨r, hr, h ▸ hstring⟩
  · refine iff_of_false ?_ fun h => hleft h.1
    rintro ⟨r, hr, -⟩
    have hzero : 0 ∉ content.bytes ++ gHostName.drop content.bytes.length := by
      rw [List.mem_append, not_or]
      exact ⟨content.nul_free, hleft⟩
    rw [cgiInit_eq hlen hfits, trimSpace, strlen, readString, if_neg hzero] at hr
    cases hr

/-- A name with a line end, over a shorter one. -/
theorem cgiInit_replaces_longer :
    ∃ r, cgiInit 0 (ascii "ab" ++ zeros 126) (some (ascii "http\n")) = .ok r ∧
      readString r = .ok (strip (ascii "http\n")) :=
  (cgiInit_replaces_iff 0 (ascii "ab" ++ zeros 126) (by simp [hostNameLen, ascii])
    ⟨ascii "http\n", by decide⟩ (by decide)).mpr
    ⟨by decide +kernel, by decide +kernel⟩

def shorterName : CStr := ⟨ascii "http://h", by decide⟩

/-- A shorter name, read over the one in the program: the end of the old name is left. -/
theorem cgiInit_replaces_shorter :
    ¬ ∃ r, cgiInit 0 initialHostName (some shorterName.bytes) = .ok r ∧
      readString r = .ok (strip shorterName.bytes) := by
  rintro ⟨r, hr, hstring⟩
  obtain ⟨r', hr', hstring'⟩ : ∃ r,
      cgiInit 0 initialHostName (some shorterName.bytes) = .ok r ∧ _ :=
    cgiInit_string (by decide +kernel) (by decide) (by decide +kernel)
  obtain rfl := Except.ok.inj (hr'.symm.trans hr)
  rw [hstring'] at hstring
  have hblank := (strip_append_eq_iff _ _).mp (Except.ok.inj hstring)
  exact absurd hblank (by decide +kernel)

end CgiFileStore
