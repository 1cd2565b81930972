import CgiFileStore.Lib.Integer

/-!
# memstr

The bounded search in binary data. echo_op.c and util_cgi.c each carry a copy with the
same body. `memstr_eq` says what it computes: the leftmost occurrence that ends within the
length given.
-/

namespace CgiFileStore

open CSem Search

/-- The loop of `memstr` with `n` rounds left, at `cur = full_data + i`. -/
def memstrLoop (fullData substr : List Byte) (sublen : Nat) : Nat → Nat → Checked (Option Nat)
  | 0, _ => .ok none
  | n + 1, i => do
    if (← load fullData i) = (← load substr 0) then
      if ← memEq (fullData.drop i) substr sublen then return some i
      else memstrLoop fullData substr sublen n (i + 1)
    else memstrLoop fullData substr sublen n (i + 1)

/-- `memstr`: the result is an offset from `full_data`, or none for NULL. -/
def memstr (fullData : Option (List Byte)) (fullDataLen : Int) (substr : Option (List Byte)) :
    Checked (Option Nat) :=
  match fullData, substr with
  | some fullData, some substr =>
    if fullDataLen ≤ 0 then .ok none
    else do
      if (← load substr 0) = 0 then return none
      else
        let sublen := wrapInt (← strlen substr)
        let diff ← toChecked (fullDataLen - sublen)
        let lastPossible ← toChecked (diff + 1)
        memstrLoop fullData substr (toSize sublen) lastPossible.toNat 0
  | _, _ => .ok none

/-- The copy in util_cgi.c. -/
def UtilCgi.memstr (fullData : Option (List Byte)) (fullDataLen : Int)
    (substr : Option (List Byte)) : Checked (Option Nat) :=
  CgiFileStore.memstr fullData fullDataLen substr

theorem load_eq_getElem {m : List Byte} {i : Nat} (h : i < m.length) : load m i = .ok m[i] := by
  simp [load, h]

/-- With the rounds left that remain for positions up to `n - s.length`, the loop finds the
leftmost occurrence from position `i` on. -/
theorem memstrLoop_eq {m sub s : List Byte} {x : Byte} {t : List Byte} (hsub : sub = s ++ t)
    (hs : s = x :: s.tail) {n : Nat} (hn : n ≤ m.length) (k i : Nat)
    (hk : i + k + s.length = n + 1 ∨ k = 0 ∧ n < i + s.length) :
    memstrLoop m sub s.length k i = .ok ((firstOcc s ((m.take n).drop i)).map (· + i)) := by
  have hpos : 0 < s.length := by rw [hs]; simp
  induction k generalizing i with
  | zero =>
    have hshort : firstOcc s ((m.take n).drop i) = none := by
      rw [firstOcc_eq_none_iff]
      intro h
      have := h.length_le
      simp at this
      omega
    simp [memstrLoop, hshort]
  | succ k ih =>
    have hi : i < n := by omega
    have hcons : (m.take n).drop i = m[i] :: (m.take n).drop (i + 1) := by
      rw [List.drop_eq_getElem_cons (by simp; omega)]
      simp
    have h0 : load sub 0 = .ok x := by rw [hsub, hs]; rfl
    have heq : memEq (m.drop i) sub s.length = .ok ((m.drop i).take s.length == s) := by
      rw [memEq, if_pos ⟨by simp; omega, by simp [hsub]⟩, hsub, List.take_left]
    -- an occurrence at `i` is what the two tests look for
    have hpre : s <+: (m.take n).drop i ↔ (m.drop i).take s.length = s := by
      rw [List.drop_take, List.prefix_take_iff, List.prefix_iff_eq_take]
      constructor
      · rintro ⟨h, -⟩
        exact h.symm
      · intro h
        exact ⟨h.symm, by omega⟩
    simp only [memstrLoop, load_eq_getElem (hi.trans_le hn), h0, ok_bind, heq]
    by_cases hp : s <+: (m.take n).drop i
    · have hfirst : m[i] = x := by
        rw [hcons, hs] at hp
        exact (List.cons_prefix_cons.mp hp).1.symm
      simp [hfirst, hpre.mp hp, firstOcc_of_isPrefix hp]
    · have hne : ((m.drop i).take s.length == s) = false := by
        simpa using fun h => hp (hpre.mpr h)
      have hrest := ih (i + 1) (Or.inl (by omega))
      rw [hcons, firstOcc_cons_of_not_isPrefix (hcons ▸ hp)]
      simp only [hne, Bool.false_eq_true, if_false, hrest, ite_self, Option.map_map]
      simp [Function.comp_def, Nat.add_comm, Nat.add_left_comm]

/-- `memstr` finds the leftmost occurrence of a non-empty string that ends within the
first `n` bytes. -/
theorem memstr_eq {m sub s : List Byte} (hsub : readString sub = .ok s) (hs : s ≠ [])
    (hmax : (s.length : Int) ≤ intMax) {n : Int} (hn0 : 0 < n) (hn : n ≤ m.length)
    (hint : n ≤ intMax) :
    memstr (some m) n (some sub) = .ok (firstOcc s (m.take n.toNat)) := by
  obtain ⟨h0, rfl⟩ := readString_eq_ok hsub
  obtain ⟨t, ht⟩ := eq_cstring_append h0
  obtain ⟨x, xs, hx⟩ := List.exists_cons_of_ne_nil hs
  have hx0 : x ≠ 0 := by
    rintro rfl
    exact zero_notMem_cstring sub (by rw [hx]; simp)
  have hload : load sub 0 = .ok x := by
    rw [ht, hx]
    rfl
  have hlen : strlen sub = .ok (cstring sub).length := by simp [strlen, hsub, Except.map]
  simp only [intMax] at hmax hint
  have hwrap : wrapInt ((cstring sub).length : Int) = (cstring sub).length :=
    wrapInt_of_isInt ⟨by simp only [intMin]; omega, by simp only [intMax]; omega⟩
  have hsize : toSize ((cstring sub).length : Int) = (cstring sub).length := by
    rw [toSize_of_nonneg (by omega) (by omega)]
    simp
  have h1 : toChecked (n - (cstring sub).length) = .ok (n - (cstring sub).length) :=
    toChecked_of_isInt ⟨by simp only [intMin]; omega, by simp only [intMax]; omega⟩
  have hpos : 0 < (cstring sub).length := List.length_pos_iff.mpr hs
  have h2 : toChecked (n - (cstring sub).length + 1) = .ok (n - (cstring sub).length + 1) :=
    toChecked_of_isInt ⟨by simp only [intMin]; omega, by simp only [intMax]; omega⟩
  simp only [memstr, Int.not_le.mpr hn0, if_false, hload, ok_bind, hx0, hlen, hwrap, h1, h2,
    hsize]
  rw [memstrLoop_eq ht (by rw [hx]; rfl) (n := n.toNat) (by omega) _ _ (by omega)]
  simp

theorem memstr_of_nonpos {m sub : List Byte} {n : Int} (hn : n ≤ 0) :
    memstr (some m) n (some sub) = .ok none := by
  simp [memstr, hn]

theorem memstr_of_nil {m sub : List Byte} (hsub : readString sub = .ok []) (n : Int) :
    memstr (some m) n (some sub) = .ok none := by
  obtain ⟨h0, hs⟩ := readString_eq_ok hsub
  obtain ⟨t, ht⟩ := eq_cstring_append h0
  have hload : load sub 0 = .ok 0 := by
    rw [ht, ← hs]
    rfl
  simp [memstr, hload]

/-- What the loop finds starts inside the object. -/
theorem memstrLoop_lt {m sub : List Byte} {sublen n i p : Nat}
    (h : memstrLoop m sub sublen n i = .ok (some p)) : p < m.length := by
  induction n generalizing i with
  | zero => simp [memstrLoop] at h
  | succ n ih =>
    obtain ⟨c, hc, h⟩ := bind_eq_ok.mp h
    have hlt : i < m.length := by
      by_contra hge
      simp [load, List.getElem?_eq_none (not_lt.mp hge)] at hc
    obtain ⟨x, -, h⟩ := bind_eq_ok.mp h
    split_ifs at h
    · obtain ⟨same, -, h⟩ := bind_eq_ok.mp h
      split_ifs at h
      · obtain rfl : i = p := by simpa using h
        exact hlt
      · exact ih h
    · exact ih h

theorem memstr_lt {m sub : List Byte} {n : Int} {p : Nat}
    (h : memstr (some m) n (some sub) = .ok (some p)) : p < m.length := by
  unfold memstr at h
  dsimp only at h
  split_ifs at h
  · simp at h
  · obtain ⟨c, -, h⟩ := bind_eq_ok.mp h
    split_ifs at h
    · simp at h
    · obtain ⟨sublen, -, h⟩ := bind_eq_ok.mp h
      obtain ⟨diff, -, h⟩ := bind_eq_ok.mp h
      obtain ⟨lastPossible, -, h⟩ := bind_eq_ok.mp h
      exact memstrLoop_lt h

/-! ## The first occurrence -/

/-- The bytes of `s` stand at offset `i` of `m` and end within the first `n` bytes. -/
def OccursAt (s m : List Byte) (n : Int) (i : Nat) : Prop :=
  (i : Int) + s.length ≤ n ∧ s <+: m.drop i

instance (s m : List Byte) (n : Int) (i : Nat) : Decidable (OccursAt s m n i) :=
  inferInstanceAs (Decidable (_ ∧ _))

section

variable {m s substr : List Byte} {n : Int}

theorem prefix_drop_take_iff (hs : s ≠ []) (hn : 0 < n) (i : Nat) :
    s <+: (m.take n.toNat).drop i ↔ OccursAt s m n i := by
  have hpos : 0 < s.length := List.length_pos_iff.mpr hs
  rw [OccursAt, List.drop_take, List.prefix_take_iff]
  constructor
  · rintro ⟨hp, hlen⟩
    exact ⟨by omega, hp⟩
  · rintro ⟨hlen, hp⟩
    exact ⟨hp, by omega⟩

theorem firstOcc_take_eq_some_iff (hs : s ≠ []) (hn : 0 < n) (i : Nat) :
    firstOcc s (m.take n.toNat) = some i ↔
      OccursAt s m n i ∧ ∀ j < i, ¬ OccursAt s m n j := by
  simp only [firstOcc_eq_some_iff, prefix_drop_take_iff hs hn, and_iff_right_iff_imp]
  rintro ⟨⟨hlen, hp⟩, -⟩
  have := hp.length_le
  have hpos : 0 < s.length := List.length_pos_iff.mpr hs
  simp only [List.length_drop] at this
  simp only [List.length_take]
  omega

theorem firstOcc_take_eq_none_iff (hs : s ≠ []) (hn : 0 < n) :
    firstOcc s (m.take n.toNat) = none ↔ ∀ i, ¬ OccursAt s m n i := by
  constructor
  · intro hnone i hi
    rw [firstOcc_eq_none_iff] at hnone
    have hp := (prefix_drop_take_iff hs hn i).mpr hi
    exact hnone (hp.isInfix.trans (List.drop_suffix i _).isInfix)
  · intro hno
    cases hr : firstOcc s (m.take n.toNat) with
    | none => rfl
    | some i => exact absurd ((firstOcc_take_eq_some_iff hs hn i).mp hr).1 (hno i)

/-- Nothing behind the first `n` bytes is read. -/
theorem memstr_take (hsub : readString substr = .ok s) (hmax : (s.length : Int) ≤ intMax)
    (hn : n ≤ m.length) (hint : n ≤ intMax) :
    memstr (some (m.take n.toNat)) n (some substr) = memstr (some m) n (some substr) := by
  obtain hneg | hpos := le_or_gt n 0
  · rw [memstr_of_nonpos hneg, memstr_of_nonpos hneg]
  · by_cases hs : s = []
    · subst hs
      rw [memstr_of_nil hsub, memstr_of_nil hsub]
    · have hlen : n ≤ (m.take n.toNat).length := by
        rw [List.length_take]
        omega
      rw [memstr_eq hsub hs hmax hpos hlen hint, memstr_eq hsub hs hmax hpos hn hint,
        List.take_take, Nat.min_self]

end

/-- Both copies find the first occurrence that ends within the length given, and the same on the
object cut there, so nothing behind it is read. -/
theorem memstr_first (fullData substr s : List Byte) (n : Int)
    (hsub : readString substr = .ok s) (hmax : (s.length : Int) ≤ intMax) (hint : IsInt n)
    (hn : n ≤ fullData.length) :
    ∃ r, memstr (some fullData) n (some substr) = .ok r ∧
      UtilCgi.memstr (some fullData) n (some substr) = .ok r ∧
      memstr (some (fullData.take n.toNat)) n (some substr) = .ok r ∧
      UtilCgi.memstr (some (fullData.take n.toNat)) n (some substr) = .ok r ∧
      (∀ i, r = some i ↔ (s ≠ [] ∧ OccursAt s fullData n i) ∧
        ∀ j < i, ¬ OccursAt s fullData n j) ∧
      (r = none ↔ s = [] ∨ n ≤ 0 ∨ ∀ i, ¬ OccursAt s fullData n i) := by
  simp only [UtilCgi.memstr, memstr_take hsub hmax hn hint.2]
  obtain hneg | hpos := le_or_gt n 0
  · have hr : memstr (some fullData) n (some substr) = .ok none := memstr_of_nonpos hneg
    refine ⟨none, hr, hr, hr, hr, fun i => ?_, by simp [hneg]⟩
    have hnot : ¬ (s ≠ [] ∧ OccursAt s fullData n i) := by
      rintro ⟨hs, hlen, -⟩
      have := List.length_pos_iff.mpr hs
      omega
    simp [hnot]
  · by_cases hs : s = []
    · have hr : memstr (some fullData) n (some substr) = .ok none := memstr_of_nil (hs ▸ hsub) n
      exact ⟨none, hr, hr, hr, hr, by simp [hs], by simp [hs]⟩
    · have hr := memstr_eq hsub hs hmax hpos hn hint.2
      refine ⟨_, hr, hr, hr, hr, fun i => ?_, ?_⟩
      · rw [firstOcc_take_eq_some_iff hs hpos, and_iff_right hs]
      · rw [firstOcc_take_eq_none_iff hs hpos, or_iff_right hs, or_iff_right (by omega)]

/-- A match behind a NUL and a near miss, in front of one that ends behind the length given. -/
theorem memstr_first_binary :
    memstr (some [97, 0, 97, 98, 97, 98]) 5 (some [97, 98, 0]) = .ok (some 2) ∧
      UtilCgi.memstr (some [97, 0, 97, 98, 97, 98]) 5 (some [97, 98, 0]) = .ok (some 2) := by
  obtain ⟨r, hr, hcopy, -, -, hsome, -⟩ :=
    memstr_first [97, 0, 97, 98, 97, 98] [97, 98, 0] [97, 98] 5 (by decide) (by decide) (by decide)
      (by decide)
  obtain rfl := (hsome 2).mpr ⟨by decide, by decide⟩
  exact ⟨hr, hcopy⟩

end CgiFileStore
