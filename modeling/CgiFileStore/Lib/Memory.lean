import CgiFileStore.Lib.Search

/-!
# C objects as byte lists

An array object is the list of its bytes, a pointer into it is an offset, and every
access outside the object is a `Fault`. A computation that may leave the defined
behaviour of C returns `Checked`. The string functions of the standard library are given
by what they do on an object: they look at bytes up to the first NUL, and fault when the
object ends before the answer is known.

`Local` says that a computation reads nothing after the object it was given: enlarging
the object does not change a result that was reached without a fault.
-/

namespace CSem

open Search

abbrev Byte := UInt8

/-- The ways in which a run leaves the defined behaviour of C. -/
inductive Fault
  | read
  | write
  | null
  | overflow
  deriving DecidableEq, Repr

abbrev Checked (α : Type) := Except Fault α

variable {α β : Type}

@[simp] theorem ok_bind (a : α) (f : α → Checked β) : (Except.ok a >>= f) = f a := rfl

@[simp] theorem error_bind (e : Fault) (f : α → Checked β) :
    ((Except.error e : Checked α) >>= f) = .error e := rfl

@[simp] theorem pure_eq_ok (a : α) : (pure a : Checked α) = .ok a := rfl

theorem bind_eq_ok {x : Checked α} {f : α → Checked β} {b : β} :
    (x >>= f) = .ok b ↔ ∃ a, x = .ok a ∧ f a = .ok b := by
  cases x <;> simp

theorem map_eq_ok {x : Checked α} {f : α → β} {b : β} :
    x.map f = .ok b ↔ ∃ a, x = .ok a ∧ f a = b := by
  cases x <;> simp [Except.map]

/-! ## Strings -/

/-- The bytes of an ASCII literal. -/
def ascii (s : String) : List Byte := s.toList.map fun c => UInt8.ofNat c.toNat

def zeros (n : Nat) : List Byte := List.replicate n 0

@[simp] theorem length_zeros (n : Nat) : (zeros n).length = n := by simp [zeros]

/-- The bytes before the first NUL. -/
def cstring (m : List Byte) : List Byte := m.takeWhile (· ≠ 0)

theorem zero_notMem_cstring (m : List Byte) : 0 ∉ cstring m := by
  intro h
  simpa using List.mem_takeWhile_imp h

theorem cstring_append_zero {s : List Byte} (h : 0 ∉ s) (t : List Byte) :
    cstring (s ++ 0 :: t) = s := by
  rw [cstring, List.takeWhile_append_of_pos]
  · simp
  · intro a ha
    simp only [ne_eq, decide_eq_true_eq]
    rintro rfl
    exact h ha

theorem cstring_eq_self {s : List Byte} (h : 0 ∉ s) : cstring s = s := by
  rw [cstring, List.takeWhile_eq_self_iff]
  intro a ha
  simp only [ne_eq, decide_eq_true_eq]
  rintro rfl
  exact h ha

theorem cstring_isPrefix (m : List Byte) : cstring m <+: m := List.takeWhile_prefix _

/-- An object with a NUL is its string, the NUL, and what lies behind. -/
theorem eq_cstring_append {m : List Byte} (h : 0 ∈ m) :
    ∃ t, m = cstring m ++ 0 :: t := by
  induction m with
  | nil => simp at h
  | cons c cs ih =>
    by_cases hc : c = 0
    · exact ⟨cs, by simp [cstring, hc]⟩
    · obtain ⟨t, ht⟩ := ih (by simpa [Ne.symm hc] using h)
      refine ⟨t, ?_⟩
      conv_lhs => rw [ht]
      simp [cstring, hc]

theorem cstring_append_of_mem {m : List Byte} (h : 0 ∈ m) (t : List Byte) :
    cstring (m ++ t) = cstring m := by
  obtain ⟨u, hu⟩ := eq_cstring_append h
  conv_lhs => rw [hu, List.append_assoc, List.cons_append]
  exact cstring_append_zero (zero_notMem_cstring m) _

theorem cstring_append_of_notMem {s : List Byte} (h : 0 ∉ s) (t : List Byte) :
    cstring (s ++ t) = s ++ cstring t := by
  rw [cstring, List.takeWhile_append_of_pos]
  · rfl
  · intro a ha
    simp only [ne_eq, decide_eq_true_eq]
    rintro rfl
    exact h ha

/-- A pointer moved inside the string points to the rest of it. -/
theorem cstring_drop {m : List Byte} {k : Nat} (h : k ≤ (cstring m).length) :
    cstring (m.drop k) = (cstring m).drop k := by
  induction m generalizing k with
  | nil => simp [cstring]
  | cons c cs ih =>
    cases k with
    | zero => simp
    | succ k =>
      by_cases hc : c = 0
      · simp [cstring, hc] at h
      · have hcons : cstring (c :: cs) = c :: cstring cs := by simp [cstring, hc]
        rw [hcons] at h ⊢
        exact ih (by simpa using h)

theorem zero_mem_drop {m : List Byte} {k : Nat} (h0 : 0 ∈ m) (h : k ≤ (cstring m).length) :
    0 ∈ m.drop k := by
  obtain ⟨t, ht⟩ := eq_cstring_append h0
  rw [ht, List.drop_append_of_le_length h]
  simp

/-- The string of a body is not changed by its terminating NUL. -/
theorem cstring_append_zero_any (m t : List Byte) : cstring (m ++ 0 :: t) = cstring m := by
  by_cases h : 0 ∈ m
  · exact cstring_append_of_mem h _
  · rw [cstring_append_zero h, cstring_eq_self h]

/-- The C string at the start of an object. -/
def readString (m : List Byte) : Checked (List Byte) :=
  if 0 ∈ m then .ok (cstring m) else .error .read

theorem readString_append_zero {s : List Byte} (h : 0 ∉ s) (t : List Byte) :
    readString (s ++ 0 :: t) = .ok s := by
  simp [readString, cstring_append_zero h]

theorem readString_append_zero_any (s t : List Byte) :
    readString (s ++ 0 :: t) = .ok (cstring s) := by
  simp [readString, cstring_append_zero_any]

theorem readString_append_zeros {s : List Byte} (h : 0 ∉ s) {n : Nat} (hn : 0 < n) :
    readString (s ++ zeros n) = .ok s := by
  obtain ⟨k, rfl⟩ := Nat.exists_eq_succ_of_ne_zero hn.ne'
  exact readString_append_zero h (zeros k)

theorem readString_eq_ok {m s : List Byte} (h : readString m = .ok s) :
    0 ∈ m ∧ s = cstring m := by
  unfold readString at h
  split at h
  · next h0 => exact ⟨h0, by simpa using h.symm⟩
  · cases h

theorem zero_notMem_of_readString {m s : List Byte} (h : readString m = .ok s) : 0 ∉ s := by
  obtain ⟨-, rfl⟩ := readString_eq_ok h
  exact zero_notMem_cstring m

theorem eq_append_of_readString {m s : List Byte} (h : readString m = .ok s) :
    ∃ t, m = s ++ 0 :: t := by
  obtain ⟨h0, rfl⟩ := readString_eq_ok h
  exact eq_cstring_append h0

def strlen (m : List Byte) : Checked Nat := (readString m).map List.length

/-- A NUL-terminated string, by the bytes before the NUL. -/
structure CStr where
  bytes : List Byte
  nul_free : 0 ∉ bytes

/-- The string in an array of its own. -/
def CStr.array (s : CStr) : List Byte := s.bytes ++ [0]

/-- A string of `n` letters. -/
def letters (n : Nat) : CStr := ⟨List.replicate n 97, by simp⟩

theorem length_letters (n : Nat) : (letters n).bytes.length = n :=
  List.length_replicate

@[simp] theorem CStr.readString_array (s : CStr) : readString s.array = .ok s.bytes :=
  readString_append_zero s.nul_free []

/-- `strchr`: the offset of the first `c` of the string. -/
def strchr (m : List Byte) (c : Byte) : Checked (Option Nat) :=
  match firstOcc [c] (cstring m) with
  | some i => .ok (some i)
  | none => if 0 ∈ m then .ok none else .error .read

/-- `strstr`: the offset of the first occurrence of `needle` in the string. -/
def strstr (m needle : List Byte) : Checked (Option Nat) :=
  match firstOcc needle (cstring m) with
  | some i => .ok (some i)
  | none => if 0 ∈ m then .ok none else .error .read

theorem strchr_eq_strstr (m : List Byte) (c : Byte) : strchr m c = strstr m [c] := rfl

theorem strstr_of_mem {m : List Byte} (h : 0 ∈ m) (needle : List Byte) :
    strstr m needle = .ok (firstOcc needle (cstring m)) := by
  unfold strstr
  cases firstOcc needle (cstring m) <;> simp [h]

/-- On an object without a NUL the search must succeed inside it. -/
theorem strstr_of_notMem {m : List Byte} (h : 0 ∉ m) (needle : List Byte) :
    strstr m needle = match firstOcc needle m with
      | some i => .ok (some i)
      | none => .error .read := by
  unfold strstr
  rw [cstring_eq_self h]
  cases firstOcc needle m <;> simp [h]

theorem strstr_some {m needle : List Byte} {i : Nat}
    (h : firstOcc needle (cstring m) = some i) : strstr m needle = .ok (some i) := by
  simp [strstr, h]

theorem strstr_eq_ok_some {m needle : List Byte} {i : Nat} (h : strstr m needle = .ok (some i)) :
    firstOcc needle (cstring m) = some i := by
  unfold strstr at h
  split at h
  · next j hj => simpa [hj] using h
  · split_ifs at h
    · simp at h

/-! ## Accesses -/

/-- `buf[i]`. -/
def load (buf : List Byte) (i : Nat) : Checked Byte :=
  match buf[i]? with
  | some b => .ok b
  | none => .error .read

/-- `buf[i] = c`. -/
def store (buf : List Byte) (i : Nat) (c : Byte) : Checked (List Byte) :=
  if i < buf.length then .ok (buf.set i c) else .error .write

/-- `memcpy(dst + off, bytes, n)` for the `n` bytes given. -/
def memcpy (dst : List Byte) (off : Nat) (bytes : List Byte) : Checked (List Byte) :=
  if off + bytes.length ≤ dst.length then
    .ok (dst.take off ++ bytes ++ dst.drop (off + bytes.length))
  else .error .write

/-- The first `n` bytes of the string `s`, filled up with NULs. -/
def padTo (n : Nat) (s : List Byte) : List Byte := s.take n ++ zeros (n - s.length)

/-- `strncpy(dst + off, src, n)`. -/
def strncpy (dst : List Byte) (off : Nat) (src : List Byte) (n : Nat) : Checked (List Byte) :=
  if src.length < n ∧ 0 ∉ src then .error .read
  else memcpy dst off (padTo n (cstring (src.take n)))

/-- `strcat(dst, s)` for the string `s`. -/
def strcat (dst s : List Byte) : Checked (List Byte) := do
  let n ← strlen dst
  memcpy dst n (s ++ [0])

/-- `memset(buf, 0, n)`. -/
def memset0 (buf : List Byte) (n : Nat) : Checked (List Byte) := memcpy buf 0 (zeros n)

/-- `memcmp(p, q, n) == 0`, which may look at all `n` bytes of both objects. -/
def memEq (p q : List Byte) (n : Nat) : Checked Bool :=
  if n ≤ p.length ∧ n ≤ q.length then .ok (p.take n == q.take n) else .error .read

theorem memset0_eq_ok {buf buf' : List Byte} {n : Nat} :
    memset0 buf n = .ok buf' ↔ n ≤ buf.length ∧ buf' = zeros n ++ buf.drop n := by
  unfold memset0 memcpy
  split <;> simp_all [eq_comm]

theorem store_eq_ok {buf buf' : List Byte} {i : Nat} {c : Byte} :
    store buf i c = .ok buf' ↔ i < buf.length ∧ buf' = buf.set i c := by
  unfold store
  split <;> simp_all [eq_comm]

theorem store_of_lt {buf : List Byte} {i : Nat} {c : Byte} (h : i < buf.length) :
    store buf i c = .ok (buf.set i c) := by
  simp [store, h]

theorem memcpy_eq_ok {dst bytes dst' : List Byte} {off : Nat} :
    memcpy dst off bytes = .ok dst' ↔
      off + bytes.length ≤ dst.length ∧
        dst' = dst.take off ++ bytes ++ dst.drop (off + bytes.length) := by
  unfold memcpy
  split <;> simp_all [eq_comm]

theorem memcpy_zero {dst bytes : List Byte} (h : bytes.length ≤ dst.length) :
    memcpy dst 0 bytes = .ok (bytes ++ dst.drop bytes.length) := by
  simp [memcpy, h]

/-- Writing behind what is in front. -/
theorem memcpy_left {s t r : List Byte} (h : t.length ≤ r.length) :
    memcpy (s ++ r) s.length t = .ok (s ++ t ++ r.drop t.length) := by
  rw [memcpy, if_pos (by rw [List.length_append]; omega), List.take_left, List.drop_append,
    List.drop_eq_nil_of_le (by omega), Nat.add_sub_cancel_left, List.nil_append]

/-- The string of an array ends where a NUL is stored, or before. -/
theorem length_le_of_store {buf r s : List Byte} {i : Nat} (h : store buf i 0 = .ok r)
    (hs : readString r = .ok s) : s.length ≤ i := by
  obtain ⟨hi, rfl⟩ := store_eq_ok.mp h
  obtain ⟨-, rfl⟩ := readString_eq_ok hs
  by_contra hlt
  have hget := (cstring_isPrefix (buf.set i 0)).getElem (not_le.mp hlt)
  rw [List.getElem_set_self] at hget
  exact zero_notMem_cstring _ (hget ▸ List.getElem_mem _)

theorem store_left (s r : List Byte) (c d : Byte) :
    store (s ++ c :: r) s.length d = .ok (s ++ d :: r) := by
  rw [store_of_lt (by simp), List.set_append_right _ _ le_rfl, Nat.sub_self, List.set_cons_zero]

theorem load_left (s r : List Byte) (c : Byte) : load (s ++ c :: r) s.length = .ok c := by
  simp [load]

theorem length_memcpy {dst bytes dst' : List Byte} {off : Nat}
    (h : memcpy dst off bytes = .ok dst') : dst'.length = dst.length := by
  obtain ⟨hle, rfl⟩ := memcpy_eq_ok.mp h
  simp
  omega

theorem length_store {buf buf' : List Byte} {i : Nat} {c : Byte} (h : store buf i c = .ok buf') :
    buf'.length = buf.length := by
  rw [(store_eq_ok.mp h).2, List.length_set]

theorem length_strncpy {dst src dst' : List Byte} {off n : Nat}
    (h : strncpy dst off src n = .ok dst') : dst'.length = dst.length := by
  unfold strncpy at h
  split at h
  · cases h
  · exact length_memcpy h

theorem length_strcat {dst s dst' : List Byte} (h : strcat dst s = .ok dst') :
    dst'.length = dst.length := by
  obtain ⟨n, -, h⟩ := bind_eq_ok.mp h
  exact length_memcpy h

@[simp] theorem length_padTo (n : Nat) (s : List Byte) : (padTo n s).length = n := by
  simp [padTo]
  omega

/-- Copying bytes to the start of an array and storing a NUL behind them. -/
theorem memcpy_store {bytes dst : List Byte} (h : bytes.length < dst.length) :
    (memcpy dst 0 bytes >>= fun buf => store buf bytes.length 0) =
      .ok (bytes ++ 0 :: dst.drop (bytes.length + 1)) := by
  rw [memcpy_zero h.le, ok_bind, store_of_lt (by simp; omega), List.set_append_right _ _ le_rfl,
    Nat.sub_self, List.drop_eq_getElem_cons h, List.set_cons_zero]

theorem memcpy_store_overrun {bytes dst : List Byte} (h : dst.length ≤ bytes.length) :
    (memcpy dst 0 bytes >>= fun buf => store buf bytes.length 0) = .error .write := by
  obtain hlt | heq := h.lt_or_eq
  · rw [memcpy, if_neg (by omega), error_bind]
  · rw [memcpy_zero heq.ge, ok_bind, store, if_neg]
    simp only [List.length_append, List.length_drop]
    omega

theorem length_lt_of_memcpy_store {bytes dst r : List Byte}
    (h : (memcpy dst 0 bytes >>= fun buf => store buf bytes.length 0) = .ok r) :
    bytes.length < dst.length := by
  obtain ⟨buf, hbuf, hstore⟩ := bind_eq_ok.mp h
  exact length_memcpy hbuf ▸ (store_eq_ok.mp hstore).1

/-- Copying the `n` bytes before a NUL, the way the sources call `strncpy`. -/
theorem strncpy_take {dst src : List Byte} {n : Nat} (hn : n ≤ src.length)
    (h0 : 0 ∉ src.take n) (hd : n ≤ dst.length) :
    strncpy dst 0 src n = .ok (src.take n ++ dst.drop n) := by
  have hpad : padTo n (cstring (src.take n)) = src.take n := by
    simp [cstring_eq_self h0, padTo, zeros, List.take_take, hn]
  simp [strncpy, Nat.not_lt.mpr hn, hpad, memcpy, hn, hd]

/-- Copying the string `s` with `strncpy` and storing a NUL behind it. -/
theorem strncpy_store {s rest out : List Byte} (h0 : 0 ∉ s) (hlen : s.length < out.length) :
    (strncpy out 0 (s ++ rest) s.length >>= fun out => store out s.length 0) =
      .ok (s ++ 0 :: out.drop (s.length + 1)) := by
  rw [strncpy_take (by simp) (by simpa using h0) hlen.le, ok_bind, store_of_lt (by simp; omega),
    List.take_left, List.set_append_right _ _ le_rfl, Nat.sub_self,
    List.drop_eq_getElem_cons hlen, List.set_cons_zero]

theorem strncpy_store_overrun {s rest out : List Byte} (h0 : 0 ∉ s)
    (hlen : out.length ≤ s.length) :
    (strncpy out 0 (s ++ rest) s.length >>= fun out => store out s.length 0) =
      .error .write := by
  obtain hlt | heq := hlen.lt_or_eq
  · have hmem : ¬ (0 + (padTo s.length (cstring ((s ++ rest).take s.length))).length ≤
        out.length) := by
      rw [length_padTo]
      omega
    rw [strncpy, if_neg (by simp), memcpy, if_neg hmem, error_bind]
  · rw [strncpy_take (by simp) (by simpa using h0) (by omega), ok_bind, store, if_neg]
    simp only [List.take_left, List.length_append, List.length_drop]
    omega

theorem length_lt_of_strncpy_store {dst src r : List Byte} {n i : Nat} {c : Byte}
    (h : (strncpy dst 0 src n >>= fun buf => store buf i c) = .ok r) : i < dst.length := by
  obtain ⟨buf, hbuf, hstore⟩ := bind_eq_ok.mp h
  exact length_strncpy hbuf ▸ (store_eq_ok.mp hstore).1

/-- Appending to a string kept in a zero-filled array. -/
theorem strcat_zeros {s t : List Byte} {k : Nat} (hs : 0 ∉ s) (ht : t.length < k) :
    strcat (s ++ zeros k) t = .ok (s ++ t ++ zeros (k - t.length)) := by
  obtain ⟨j, rfl⟩ : ∃ j, k = t.length + (j + 1) := ⟨k - t.length - 1, by omega⟩
  have hz : zeros (t.length + (j + 1)) = 0 :: zeros (t.length + j) := rfl
  have hlen : strlen (s ++ zeros (t.length + (j + 1))) = .ok s.length := by
    simp [strlen, hz, readString_append_zero hs, Except.map]
  simp only [strcat, hlen, ok_bind, memcpy]
  rw [if_pos (by simp), Nat.add_sub_cancel_left]
  simp [zeros, List.replicate_succ]
  omega

theorem strcat_zeros_full {s t : List Byte} {k : Nat} (hs : 0 ∉ s) (hk : 0 < k)
    (ht : k ≤ t.length) : strcat (s ++ zeros k) t = .error .write := by
  obtain ⟨j, rfl⟩ : ∃ j, k = j + 1 := ⟨k - 1, by omega⟩
  have hz : zeros (j + 1) = 0 :: zeros j := rfl
  have hlen : strlen (s ++ zeros (j + 1)) = .ok s.length := by
    simp [strlen, hz, readString_append_zero hs, Except.map]
  simp only [strcat, hlen, ok_bind, memcpy]
  rw [if_neg (by simp; omega)]

/-- A chain of `strcat` calls on a zero-filled array, where every piece must leave room for
the NUL. -/
theorem foldlM_strcat (ts : List (List Byte)) {s : List Byte} {k : Nat} (hs : 0 ∉ s) (hk : 0 < k)
    (ht : ∀ t ∈ ts, 0 ∉ t) :
    ts.foldlM strcat (s ++ zeros k) =
      if ts.flatten.length < k then .ok (s ++ ts.flatten ++ zeros (k - ts.flatten.length))
      else .error .write := by
  induction ts generalizing s k with
  | nil => simp [hk]
  | cons t ts ih =>
    rw [List.foldlM_cons]
    obtain hlt | hge := Nat.lt_or_ge t.length k
    · have hst : 0 ∉ s ++ t := by simpa [hs] using ht t (by simp)
      rw [strcat_zeros hs hlt, ok_bind, ih hst (by omega) fun u hu => ht u (by simp [hu])]
      have hiff : ts.flatten.length < k - t.length ↔ t.length + ts.flatten.length < k := by omega
      simp only [List.flatten_cons, List.length_append, List.append_assoc, Nat.sub_add_eq, hiff]
    · rw [strcat_zeros_full hs hk hge, error_bind, if_neg]
      simp only [List.flatten_cons, List.length_append]
      omega

theorem cstring_take (m : List Byte) (n : Nat) : cstring (m.take n) = (cstring m).take n := by
  induction m generalizing n with
  | nil => simp [cstring]
  | cons c cs ih =>
    cases n with
    | zero => simp [cstring]
    | succ n =>
      by_cases hc : c = 0
      · simp [cstring, hc]
      · simpa [cstring, hc] using ih n

theorem padTo_cstring {s : List Byte} {n : Nat} (h0 : 0 ∉ s) (hlen : s.length ≤ n) :
    padTo n (cstring s) = s ++ zeros (n - s.length) := by
  rw [cstring_eq_self h0, padTo, List.take_of_length_le hlen]

theorem padTo_take (n : Nat) (s : List Byte) : padTo n (s.take n) = padTo n s := by
  simp only [padTo, List.take_take, Nat.min_self, List.length_take]
  congr 2
  omega

/-- A text that is copied into a cleared array can be read back as a string if its string is
shorter than the array. -/
theorem readString_padTo (n : Nat) (s : List Byte) :
    readString (padTo n s) = if (cstring s).length < n then .ok (cstring s) else .error .read := by
  have hle := (cstring_isPrefix s).length_le
  by_cases h0 : 0 ∈ s
  · obtain ⟨t, ht⟩ := eq_cstring_append h0
    split_ifs with hlt
    · obtain ⟨k, hk⟩ : ∃ k, n - (cstring s).length = k + 1 := ⟨n - (cstring s).length - 1, by omega⟩
      have hpad : padTo n s = cstring s ++ 0 :: (t.take k ++ zeros (n - s.length)) := by
        conv_lhs => rw [padTo, ht, List.take_append, hk, List.take_of_length_le hlt.le, ← ht]
        simp
      rw [hpad, readString_append_zero (zero_notMem_cstring s)]
    · have hpad : padTo n s = (cstring s).take n := by
        rw [padTo, Nat.sub_eq_zero_of_le (by omega)]
        conv_lhs => rw [ht, List.take_append_of_le_length (by omega)]
        simp [zeros]
      rw [hpad, readString, if_neg fun h => zero_notMem_cstring s (List.mem_of_mem_take h)]
  · rw [cstring_eq_self h0]
    split_ifs with hlt
    · rw [padTo, List.take_of_length_le hlt.le, readString_append_zeros h0 (by omega)]
    · rw [padTo, Nat.sub_eq_zero_of_le (by omega), readString, if_neg]
      simpa [zeros] using fun h => h0 (List.mem_of_mem_take h)

/-- `strncpy` from a string that ends right behind its bytes. -/
theorem strncpy_string (dst : List Byte) (off : Nat) (s : List Byte) (n : Nat) :
    strncpy dst off (s ++ [0]) n = memcpy dst off (padTo n (cstring s)) := by
  simp [strncpy, cstring_take, padTo_take, cstring_append_zero_any]

/-! ## Heap blocks -/

/-- A block of the heap as the program can see it: its bytes, and the byte in front. -/
structure Block where
  before : Byte
  bytes : List Byte
  deriving DecidableEq

/-- The byte in front of offset `off` of the block. -/
def Block.prev (b : Block) (off : Nat) : Checked Byte :=
  match off with
  | 0 => .ok b.before
  | off + 1 => load b.bytes off

/-- The outcomes of `malloc`. A block has the size asked for and any content; a size
above `PTRDIFF_MAX` is never granted. -/
structure Allocator where
  malloc : Nat → Option Block
  length_of_malloc : ∀ n b, malloc n = some b → b.bytes.length = n
  malloc_huge : ∀ n, 2 ^ 63 ≤ n → malloc n = none

/-- Every block that can be granted is granted, filled with NULs. -/
def Allocator.zeroed : Allocator where
  malloc n := if n < 2 ^ 63 then some { before := 0, bytes := zeros n } else none
  length_of_malloc n b h := by
    split at h
    · simp [← Option.some.inj h]
    · cases h
  malloc_huge n h := if_neg (Nat.not_lt.mpr h)

theorem zeroed_grants (n : Nat) (h : n < 2 ^ 32) : (Allocator.zeroed.malloc n).isSome := by
  have hsize : n < 2 ^ 63 := h.trans (by decide)
  simp only [Allocator.zeroed, if_pos hsize, Option.isSome_some]

/-! ## Locality -/

/-- A result reached on an object is the result on every larger object. -/
def Local (f : List Byte → Checked α) : Prop :=
  ∀ m r, f m = .ok r → ∀ t, f (m ++ t) = .ok r

theorem Local.const (x : Checked α) : Local fun _ => x := fun _ _ h _ => h

theorem Local.bind {f : List Byte → Checked α} {g : α → List Byte → Checked β}
    (hf : Local f) (hg : ∀ a, Local (g a)) : Local fun m => f m >>= fun a => g a m := by
  intro m r h t
  obtain ⟨a, ha, hb⟩ := bind_eq_ok.mp h
  exact bind_eq_ok.mpr ⟨a, hf m a ha t, hg a m r hb t⟩

/-- A pointer moved forward inside the object. A function that needs at least one byte
cannot succeed behind the end of the object. -/
theorem Local.drop {f : List Byte → Checked α} (hf : Local f) (h0 : ∀ r, f [] ≠ .ok r)
    (k : Nat) : Local fun m => f (m.drop k) := by
  intro m r h t
  dsimp only at h ⊢
  obtain hk | hk := le_or_gt k m.length
  · have := hf _ r h t
    rwa [← List.drop_append_of_le_length hk] at this
  · rw [List.drop_eq_nil_of_le hk.le] at h
    exact absurd h (h0 r)

theorem local_strstr (needle : List Byte) : Local fun m => strstr m needle := by
  intro m r h t
  dsimp only at h ⊢
  by_cases h0 : 0 ∈ m
  · rw [strstr_of_mem h0] at h
    rw [strstr_of_mem (by simp [h0]), cstring_append_of_mem h0]
    exact h
  · rw [strstr_of_notMem h0] at h
    cases hf : firstOcc needle m with
    | none => simp [hf] at h
    | some i =>
      have hr : r = some i := by simpa [hf] using h.symm
      rw [hr]
      apply strstr_some
      rw [cstring_append_of_notMem h0]
      exact firstOcc_append hf _

theorem local_strncpy (dst : List Byte) (off n : Nat) :
    Local fun src => strncpy dst off src n := by
  intro m r h t
  dsimp only [strncpy] at h ⊢
  split at h
  · cases h
  · next hm =>
    have hm' : m.length < n → 0 ∈ m := by simpa using hm
    rw [if_neg (by
      rintro ⟨hlt, h0⟩
      have hn : m.length < n := by
        simp only [List.length_append] at hlt
        omega
      exact h0 (by simp [hm' hn]))]
    obtain hn | hn := Nat.lt_or_ge m.length n
    · have h0 : 0 ∈ m := hm' hn
      rw [cstring_take] at h ⊢
      rwa [cstring_append_of_mem h0]
    · rwa [List.take_append_of_le_length hn]

theorem strstr_nil_ne_ok {needle : List Byte} (h : needle ≠ []) (r : Option Nat) :
    strstr [] needle ≠ .ok r := by
  simp [strstr, cstring, firstOcc, h]

/-- The outcome on this object is the one on every larger object, be it a fault. -/
def Settled (f : List Byte → Checked α) (m : List Byte) : Prop := ∀ t, f (m ++ t) = f m

section

variable {f : List Byte → Checked α} {m : List Byte}

theorem Settled.const (x : Checked α) (m : List Byte) : Settled (fun _ => x) m := fun _ => rfl

theorem Settled.bind {g : α → List Byte → Checked β} (hf : Settled f m)
    (hg : ∀ a, f m = .ok a → Settled (g a) m) : Settled (fun m => f m >>= fun a => g a m) m := by
  intro t
  dsimp only
  rw [hf t]
  cases h : f m with
  | error e => rfl
  | ok a => exact hg a h t

theorem Settled.drop {k : Nat} (hf : Settled f (m.drop k)) (hk : k ≤ m.length) :
    Settled (fun m => f (m.drop k)) m := by
  intro t
  dsimp only
  rw [List.drop_append_of_le_length hk, hf t]

/-- A search is settled by a NUL or by what it looks for. -/
theorem settled_strstr {needle : List Byte} (h : 0 ∈ m ∨ needle <:+: m) :
    Settled (fun m => strstr m needle) m := by
  intro t
  dsimp only
  by_cases h0 : 0 ∈ m
  · rw [strstr_of_mem h0, strstr_of_mem (List.mem_append_left t h0), cstring_append_of_mem h0]
  · obtain ⟨i, hi⟩ := Option.isSome_iff_exists.mp (firstOcc_isSome_iff.mpr (h.resolve_left h0))
    have htext : firstOcc needle (cstring m) = some i := by rwa [cstring_eq_self h0]
    have hlong : firstOcc needle (cstring (m ++ t)) = some i := by
      rw [cstring_append_of_notMem h0]
      exact firstOcc_append hi _
    rw [strstr_some htext, strstr_some hlong]

theorem settled_strncpy (dst : List Byte) (off : Nat) {n : Nat} (hn : n ≤ m.length) :
    Settled (fun src => strncpy dst off src n) m := by
  intro t
  have hlong : ¬ (m ++ t).length < n := by
    rw [List.length_append]
    omega
  simp only [strncpy, hlong, Nat.not_lt.mpr hn, false_and, if_false,
    List.take_append_of_le_length hn]

end

end CSem
