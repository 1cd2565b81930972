import CgiFileStore.Common.Memstr

/-!
# The suffix of a file name

The uploader's `file_suffix_get` and the lister's `get_file_suffix` have the same body: a
scan to the end of the name, a scan back to a dot or to the first byte, and a copy. The
test of `file_name` against NULL is left out, both callers pass an array.
-/

namespace CgiFileStore

open CSem Search

def dot : Byte := 46

/-- `while (*k != '.' && k != p) k--`. -/
def dotBack (name : List Byte) : Nat → Checked Nat
  | 0 => do
    let _ ← load name 0
    return 0
  | k + 1 => do
    if (← load name (k + 1)) = dot then return k + 1
    else dotBack name k

def nullSuffix : List Byte := ascii "null"

/-- The common body of the two suffix functions: the bytes left in `suffix`. -/
def copySuffix (fileName suffix : List Byte) : Checked (List Byte) := do
  let q ← strlen fileName
  let k ← dotBack fileName q
  if (← load fileName k) = dot then
    let len := wrapInt ((q : Int) - (k + 1))
    if len ≠ 0 then
      let suffix ← strncpy suffix 0 (fileName.drop (k + 1)) (toSize len)
      if len < 0 then .error .write else store suffix len.toNat 0
    else strncpy suffix 0 (nullSuffix ++ [0]) 5
  else strncpy suffix 0 (nullSuffix ++ [0]) 5

/-- `file_suffix_get` of echo_op.c. -/
def fileSuffixGet (fileName suffix : List Byte) : Checked (List Byte) :=
  copySuffix fileName suffix

/-- `get_file_suffix` of util_cgi.c. -/
def getFileSuffix (fileName suffix : List Byte) : Checked (List Byte) :=
  copySuffix fileName suffix

theorem length_copySuffix {fileName suffix r : List Byte} (h : copySuffix fileName suffix = .ok r) :
    r.length = suffix.length := by
  obtain ⟨q, -, h⟩ := bind_eq_ok.mp h
  obtain ⟨k, -, h⟩ := bind_eq_ok.mp h
  obtain ⟨c, -, h⟩ := bind_eq_ok.mp h
  split at h
  · dsimp only at h
    split at h
    · obtain ⟨buf, hbuf, h⟩ := bind_eq_ok.mp h
      split at h
      · cases h
      · rw [length_store h, length_strncpy hbuf]
    · exact length_strncpy h
  · exact length_strncpy h

/-! ## What they compute -/

/-- The text after the last dot if there is one and it is not empty, else `null`. -/
def suffixOf (name : List Byte) : List Byte :=
  let tail := (name.reverse.takeWhile (· ≠ dot)).reverse
  if dot ∈ name ∧ tail ≠ [] then tail else nullSuffix

theorem suffixOf_ne_nil (name : List Byte) : suffixOf name ≠ [] := by
  simp only [suffixOf]
  split
  · next h => exact h.2
  · decide

theorem mem_of_mem_suffixOf {name : List Byte} {c : Byte} (h : c ∈ suffixOf name) :
    c ∈ name ∨ c ∈ nullSuffix := by
  simp only [suffixOf] at h
  split at h
  · rw [List.mem_reverse] at h
    exact .inl (List.mem_reverse.mp (List.takeWhile_subset _ h))
  · exact .inr h

theorem zero_notMem_suffixOf {name : List Byte} (h : 0 ∉ name) : 0 ∉ suffixOf name := by
  intro h0
  rcases mem_of_mem_suffixOf h0 with hname | hnull
  · exact h hname
  · exact absurd hnull (by decide)

theorem length_suffixOf_le (name : List Byte) : (suffixOf name).length ≤ max name.length 4 := by
  simp only [suffixOf]
  split
  · have := (List.takeWhile_prefix (· ≠ dot) (l := name.reverse)).length_le
    simp only [List.length_reverse] at this ⊢
    exact le_max_of_le_left this
  · exact le_max_right _ _

theorem exists_append_of_dot_mem {name : List Byte} (h : dot ∈ name) :
    ∃ stem, name = stem ++ dot :: (name.reverse.takeWhile (· ≠ dot)).reverse := by
  induction name using List.reverseRecOn with
  | nil => simp at h
  | append_singleton xs x ih =>
    by_cases hx : x = dot
    · exact ⟨xs, by simp [hx]⟩
    · obtain ⟨stem, hstem⟩ := ih (by simpa [Ne.symm hx] using h)
      refine ⟨stem, ?_⟩
      conv_lhs => rw [hstem]
      simp [hx]

theorem dot_notMem_tail (name : List Byte) :
    dot ∉ (name.reverse.takeWhile (· ≠ dot)).reverse := by
  intro h
  rw [List.mem_reverse] at h
  simpa using List.mem_takeWhile_imp h

/-- The scan back passes over bytes that are no dots. -/
theorem dotBack_append {stem tail rest : List Byte} (htail : dot ∉ tail) :
    dotBack (stem ++ dot :: tail ++ rest) (stem.length + tail.length) =
      .ok stem.length := by
  induction tail using List.reverseRecOn generalizing rest with
  | nil =>
    cases hs : stem.length with
    | zero => simp [List.length_eq_zero_iff.mp hs, dotBack, load]
    | succ n =>
      have hget : load (stem ++ dot :: rest) (n + 1) = .ok dot := by
        simp [load, ← hs]
      simp [dotBack, hget]
  | append_singleton ys y ih =>
    have hy : y ≠ dot := fun h => htail (by simp [h])
    have hget : load (stem ++ dot :: (ys ++ [y]) ++ rest) (stem.length + ys.length + 1) =
        .ok y := by
      rw [show stem ++ dot :: (ys ++ [y]) ++ rest = (stem ++ dot :: ys) ++ (y :: rest) by simp]
      simp [load, Nat.add_assoc]
    have hlen : stem.length + (ys ++ [y]).length = stem.length + ys.length + 1 := by
      simp [Nat.add_assoc]
    have hassoc : stem ++ dot :: (ys ++ [y]) ++ rest = stem ++ dot :: ys ++ (y :: rest) := by
      simp
    rw [hlen, dotBack, hget, ok_bind, if_neg hy, hassoc]
    exact ih (fun h => htail (by simp [h]))

/-- Without a dot the scan back ends at the first byte. -/
theorem dotBack_of_notMem {m : List Byte} {k : Nat} (h : dot ∉ m.take (k + 1))
    (hk : k < m.length) : dotBack m k = .ok 0 := by
  induction k with
  | zero => simp [dotBack, load_eq_getElem hk]
  | succ k ih =>
    have hne : m[k + 1] ≠ dot := by
      rintro heq
      exact h (heq ▸ List.mem_take_iff_getElem.mpr ⟨k + 1, by omega, rfl⟩)
    have hsub : dot ∉ m.take (k + 1) := fun hmem =>
      h (List.take_subset_take_left m (by omega) hmem)
    rw [dotBack, load_eq_getElem hk, ok_bind, if_neg hne]
    exact ih hsub (by omega)

theorem strncpy_null {out : List Byte} (h : 4 < out.length) :
    strncpy out 0 (nullSuffix ++ [0]) 5 = .ok (nullSuffix ++ 0 :: out.drop 5) := by
  have h5 : padTo 5 (cstring nullSuffix) = nullSuffix ++ [0] := rfl
  have hlen : (nullSuffix ++ [0]).length = 5 := rfl
  rw [strncpy_string, h5, memcpy_zero (by omega), hlen]
  simp

theorem copySuffix_of_notMem {name rest out : List Byte} (h0 : 0 ∉ name) (hdot : dot ∉ name) :
    copySuffix (name ++ 0 :: rest) out = strncpy out 0 (nullSuffix ++ [0]) 5 := by
  have hz : (0 : Byte) ≠ dot := by decide
  have hlen : strlen (name ++ 0 :: rest) = .ok name.length := by
    simp [strlen, readString_append_zero h0, Except.map]
  have hback : dotBack (name ++ 0 :: rest) name.length = .ok 0 := by
    refine dotBack_of_notMem ?_ (by simp)
    rw [List.take_length_add_append]
    simpa using ⟨hdot, hz.symm⟩
  obtain ⟨c, hc, hne⟩ : ∃ c, load (name ++ 0 :: rest) 0 = .ok c ∧ c ≠ dot := by
    cases name with
    | nil => exact ⟨0, rfl, hz⟩
    | cons c cs => exact ⟨c, rfl, fun h => hdot (by simp [h])⟩
  simp [copySuffix, hlen, hback, hc, hne]

theorem copySuffix_of_dot {stem tail rest out : List Byte} (h0 : 0 ∉ stem ++ dot :: tail)
    (hdot : dot ∉ tail) :
    copySuffix (stem ++ dot :: tail ++ 0 :: rest) out =
      if wrapInt tail.length = 0 then strncpy out 0 (nullSuffix ++ [0]) 5
      else strncpy out 0 (tail ++ 0 :: rest) (toSize (wrapInt tail.length)) >>= fun out =>
        if wrapInt tail.length < 0 then .error .write
        else store out (wrapInt tail.length).toNat 0 := by
  have hz : (0 : Byte) ≠ dot := by decide
  have hlen : strlen (stem ++ dot :: tail ++ 0 :: rest) =
      .ok (stem ++ dot :: tail).length := by
    simp only [strlen, readString_append_zero h0, Except.map]
  have hback : dotBack (stem ++ dot :: tail ++ 0 :: rest) (stem ++ dot :: tail).length =
      .ok stem.length := by
    have hassoc : stem ++ dot :: tail ++ 0 :: rest = stem ++ dot :: (tail ++ [0]) ++ rest := by
      simp
    have hq : (stem ++ dot :: tail).length = stem.length + (tail ++ [0]).length := by simp
    rw [hassoc, hq]
    exact dotBack_append (by simpa using ⟨hdot, hz.symm⟩)
  have hload : load (stem ++ dot :: tail ++ 0 :: rest) stem.length = .ok dot := by
    simp [load]
  have hn : ((stem ++ dot :: tail).length : Int) - (stem.length + 1) = tail.length := by
    simp
  have hdrop : (stem ++ dot :: tail ++ 0 :: rest).drop (stem.length + 1) =
      tail ++ 0 :: rest := by simp
  rw [copySuffix, hlen, ok_bind, hback, ok_bind, hload, ok_bind, if_pos rfl, hn, hdrop]
  generalize wrapInt tail.length = len
  by_cases hzero : len = 0 <;> simp [hzero]

/-- A tail that an `int` can measure. -/
theorem copySuffix_of_dot_le {stem tail rest out : List Byte} (h0 : 0 ∉ stem ++ dot :: tail)
    (hdot : dot ∉ tail) (hint : (tail.length : Int) ≤ intMax) :
    copySuffix (stem ++ dot :: tail ++ 0 :: rest) out =
      if tail = [] then strncpy out 0 (nullSuffix ++ [0]) 5
      else strncpy out 0 (tail ++ 0 :: rest) tail.length >>= fun out =>
        store out tail.length 0 := by
  have hwrap : wrapInt tail.length = tail.length :=
    wrapInt_of_isInt ⟨by simp only [intMin]; omega, hint⟩
  have hsize : toSize (tail.length : Int) = tail.length := by
    simp only [intMax] at hint
    rw [toSize_of_nonneg (by omega) (by omega), Int.toNat_natCast]
  have hneg : ¬ ((tail.length : Int) < 0) := by omega
  have hzero : (tail.length : Int) = 0 ↔ tail = [] := by simp
  simp only [copySuffix_of_dot h0 hdot, hwrap, hsize, hzero, hneg, if_false, Int.toNat_natCast]

/-- Both functions leave the suffix of the name, NUL-terminated, when it fits. -/
theorem copySuffix_eq {name rest out : List Byte} (h0 : 0 ∉ name)
    (hfit : (suffixOf name).length < out.length)
    (hint : ((suffixOf name).length : Int) ≤ intMax) :
    copySuffix (name ++ 0 :: rest) out =
      .ok (suffixOf name ++ 0 :: out.drop ((suffixOf name).length + 1)) := by
  by_cases hdot : dot ∈ name
  · obtain ⟨stem, hstem⟩ := exists_append_of_dot_mem hdot
    have htail := dot_notMem_tail name
    unfold suffixOf at hfit hint ⊢
    generalize (name.reverse.takeWhile (· ≠ dot)).reverse = tail at hstem htail hfit hint ⊢
    subst hstem
    by_cases ht : tail = []
    · simp only [ht, ne_eq, not_true_eq_false, and_false, if_false] at h0 hdot hfit ⊢
      rw [copySuffix_of_dot_le h0 List.not_mem_nil (by decide), if_pos rfl]
      exact strncpy_null hfit
    · simp only [hdot, ht, ne_eq, not_false_eq_true, and_self, if_true] at hfit hint ⊢
      rw [copySuffix_of_dot_le h0 htail hint, if_neg ht]
      exact strncpy_store (fun h => h0 (by simp [h])) hfit
  · simp only [suffixOf, hdot, false_and, if_false] at hfit ⊢
    rw [copySuffix_of_notMem h0 hdot]
    exact strncpy_null hfit

/-- A suffix that does not fit is written over the end of the array. -/
theorem copySuffix_overrun {name rest out : List Byte} (h0 : 0 ∉ name)
    (hfit : out.length ≤ (suffixOf name).length)
    (hint : ((suffixOf name).length : Int) ≤ intMax) (r : List Byte) :
    copySuffix (name ++ 0 :: rest) out ≠ .ok r := by
  have hnull : out.length ≤ 4 → strncpy out 0 (nullSuffix ++ [0]) 5 ≠ .ok r := by
    intro h hr
    have h5 : padTo 5 (cstring nullSuffix) = nullSuffix ++ [0] := rfl
    have hlen : (nullSuffix ++ [0]).length = 5 := rfl
    rw [strncpy_string, h5] at hr
    have := (memcpy_eq_ok.mp hr).1
    omega
  by_cases hdot : dot ∈ name
  · obtain ⟨stem, hstem⟩ := exists_append_of_dot_mem hdot
    have htail := dot_notMem_tail name
    unfold suffixOf at hfit hint
    generalize (name.reverse.takeWhile (· ≠ dot)).reverse = tail at hstem htail hfit hint
    subst hstem
    by_cases ht : tail = []
    · simp only [ht, ne_eq, not_true_eq_false, and_false, if_false] at h0 hdot hfit ⊢
      rw [copySuffix_of_dot_le h0 List.not_mem_nil (by decide), if_pos rfl]
      exact hnull hfit
    · simp only [hdot, ht, ne_eq, not_false_eq_true, and_self, if_true] at hfit hint ⊢
      rw [copySuffix_of_dot_le h0 htail hint, if_neg ht]
      intro hr
      have hlt := length_lt_of_strncpy_store hr
      omega
  · simp only [suffixOf, hdot, false_and, if_false] at hfit
    rw [copySuffix_of_notMem h0 hdot]
    exact hnull hfit

/-- A suffix that no `int` can measure is never left whole. -/
theorem copySuffix_huge {name rest out r : List Byte} (h0 : 0 ∉ name)
    (hint : intMax < (suffixOf name).length) (hfit : (suffixOf name).length < out.length)
    (h : copySuffix (name ++ 0 :: rest) out = .ok r) :
    readString r ≠ .ok (suffixOf name) := by
  intro hread
  have hnull : (suffixOf name).length ≠ 4 := by
    simp only [intMax] at hint
    omega
  have hsuffix : suffixOf name ≠ nullSuffix := fun h => hnull (congrArg List.length h)
  have hdot : dot ∈ name := by
    by_contra hdot
    exact hsuffix (by simp [suffixOf, hdot])
  obtain ⟨stem, hstem⟩ := exists_append_of_dot_mem hdot
  have htail := dot_notMem_tail name
  have heq : suffixOf name = (name.reverse.takeWhile (· ≠ dot)).reverse := by
    simp only [suffixOf] at hsuffix ⊢
    split_ifs at hsuffix ⊢
    · rfl
    · exact absurd rfl hsuffix
  rw [← heq] at hstem htail
  generalize suffixOf name = tail at hstem htail hint hfit hread hsuffix
  subst hstem
  have hwrap := wrapInt_add_le hint
  rw [copySuffix_of_dot h0 htail] at h
  by_cases hzero : wrapInt tail.length = 0
  · simp only [intMax] at hint
    rw [if_pos hzero, strncpy_null (by omega), Except.ok.injEq] at h
    rw [← h, readString_append_zero (by decide), Except.ok.injEq] at hread
    exact hsuffix hread.symm
  · rw [if_neg hzero] at h
    obtain ⟨buf, -, h⟩ := bind_eq_ok.mp h
    split_ifs at h
    have := length_le_of_store h hread
    omega

/-- Each of the two functions leaves the suffix of every name, reading nothing behind its NUL, if
and only if an `int` can measure it. -/
theorem fileSuffixGet_getFileSuffix_iff (fileName : CStr) (suffix : List Byte)
    (hfit : (suffixOf fileName.bytes).length < suffix.length) :
    (∃ r, fileSuffixGet fileName.array suffix = .ok r ∧
      getFileSuffix fileName.array suffix = .ok r ∧
        readString r = .ok (suffixOf fileName.bytes)) ↔
      ((suffixOf fileName.bytes).length : Int) ≤ intMax := by
  constructor
  · rintro ⟨r, hr, -, hread⟩
    by_contra hint
    exact copySuffix_huge fileName.nul_free (not_le.mp hint) hfit hr hread
  · intro hint
    have hr : copySuffix fileName.array suffix = _ := copySuffix_eq fileName.nul_free hfit hint
    exact ⟨_, hr, hr, readString_append_zero (zero_notMem_suffixOf fileName.nul_free) _⟩

/-- Two dots, the first of them in front. -/
theorem fileSuffixGet_hidden :
    let fileName : CStr := ⟨ascii ".a.png", by decide⟩
    ∃ r, fileSuffixGet fileName.array (zeros 8) = .ok r ∧
      getFileSuffix fileName.array (zeros 8) = .ok r ∧
        readString r = .ok (suffixOf fileName.bytes) :=
  (fileSuffixGet_getFileSuffix_iff ⟨ascii ".a.png", by decide⟩ (zeros 8) (by decide)).mpr
    (by decide)

/-- A dot and `n` letters. -/
def dotLetters (n : Nat) : CStr := ⟨dot :: (letters n).bytes, by simp [dot, letters]⟩

theorem suffixOf_dotLetters {n : Nat} (h : 0 < n) :
    suffixOf (dotLetters n).bytes = (letters n).bytes := by
  have hdot : ∀ c ∈ (letters n).bytes.reverse, decide (c ≠ dot) = true := by
    simp [letters, dot]
  have htail : (((dotLetters n).bytes).reverse.takeWhile (· ≠ dot)).reverse =
      (letters n).bytes := by
    rw [dotLetters, List.reverse_cons, List.takeWhile_append_of_pos hdot]
    simp
  have hne : (letters n).bytes ≠ [] := List.ne_nil_of_length_pos (by rwa [length_letters])
  rw [suffixOf, htail, if_pos ⟨List.mem_cons_self, hne⟩]

/-- A suffix of 2 GiB is not copied whole. -/
theorem fileSuffixGet_huge :
    ¬ ∃ r, fileSuffixGet (dotLetters (2147483647 + 1)).array (zeros (2147483647 + 2)) = .ok r ∧
      readString r = .ok (suffixOf (dotLetters (2147483647 + 1)).bytes) := by
  rintro ⟨r, hr, hread⟩
  have hlen : (suffixOf (dotLetters (2147483647 + 1)).bytes).length = 2147483647 + 1 := by
    rw [suffixOf_dotLetters (Nat.succ_pos _), length_letters]
  refine copySuffix_huge (dotLetters _).nul_free ?_ ?_ hr hread
  · rw [hlen]
    decide
  · rw [hlen, length_zeros]
    omega

end CgiFileStore
