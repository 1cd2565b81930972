import Mathlib

/-!
# Leftmost occurrences of a pattern

`firstOcc p s` is the offset of the leftmost place where `p` occurs in `s`. The
two characterizations, `firstOcc_eq_some_iff` and `firstOcc_eq_none_iff`, are enough to
replace any hand-written search loop. The remaining rules locate the occurrence in a list
that was built by concatenation, which is how the texts searched by a parser arise.
-/

namespace Search

variable {α : Type*}

section

variable [DecidableEq α]

/-- Offset of the leftmost occurrence of `p`, if there is one. -/
def firstOcc (p : List α) : List α → Option Nat
  | [] => if p = [] then some 0 else none
  | x :: xs => if p <+: x :: xs then some 0 else (firstOcc p xs).map (· + 1)

/-! ## What the search means -/

theorem firstOcc_of_isPrefix {p s : List α} (h : p <+: s) : firstOcc p s = some 0 := by
  cases s with
  | nil => simp [firstOcc, List.prefix_nil.mp h]
  | cons x xs => simp [firstOcc, h]

theorem firstOcc_cons_of_not_isPrefix {p xs : List α} {x : α} (h : ¬ p <+: x :: xs) :
    firstOcc p (x :: xs) = (firstOcc p xs).map (· + 1) := by
  simp [firstOcc, h]

/-- The offset found is an occurrence and no smaller offset is one. -/
theorem firstOcc_eq_some_iff {p s : List α} {i : Nat} :
    firstOcc p s = some i ↔
      i ≤ s.length ∧ p <+: s.drop i ∧ ∀ j < i, ¬ p <+: s.drop j := by
  induction s generalizing i with
  | nil =>
    by_cases hp : p = []
    · cases i <;> simp [firstOcc, hp]
    · simp [firstOcc, hp, List.prefix_nil]
  | cons x xs ih =>
    by_cases hp : p <+: x :: xs
    · rw [firstOcc_of_isPrefix hp]
      constructor
      · rintro h
        obtain rfl : 0 = i := by simpa using h
        exact ⟨by simp, hp, by simp⟩
      · rintro ⟨-, -, hmin⟩
        have : i = 0 := by
          by_contra hi
          exact hmin 0 (by omega) hp
        rw [this]
    · rw [firstOcc_cons_of_not_isPrefix hp]
      cases i with
      | zero => simp [hp]
      | succ i =>
        have hshift : (∀ j < i + 1, ¬ p <+: (x :: xs).drop j) ↔
            ∀ j < i, ¬ p <+: xs.drop j := by
          constructor
          · intro h j hj
            simpa using h (j + 1) (by omega)
          · intro h j hj
            cases j with
            | zero => simpa using hp
            | succ j => simpa using h j (by omega)
        rw [hshift]
        simp [ih]

theorem firstOcc_eq_none_iff {p s : List α} : firstOcc p s = none ↔ ¬ p <:+: s := by
  induction s with
  | nil => simp [firstOcc, List.infix_nil]
  | cons x xs ih =>
    by_cases hp : p <+: x :: xs
    · simp [firstOcc_of_isPrefix hp, hp.isInfix]
    · simp [firstOcc_cons_of_not_isPrefix hp, ih, List.infix_cons_iff, hp]

theorem firstOcc_isSome_iff {p s : List α} : (firstOcc p s).isSome ↔ p <:+: s := by
  rw [← not_iff_not, ← firstOcc_eq_none_iff]
  simp

/-- The occurrence found lies inside the text. -/
theorem firstOcc_add_length_le {p s : List α} {i : Nat} (h : firstOcc p s = some i) :
    i + p.length ≤ s.length := by
  obtain ⟨hi, hp, -⟩ := firstOcc_eq_some_iff.mp h
  have := hp.length_le
  simp only [List.length_drop] at this
  omega

theorem firstOcc_isPrefix {p s : List α} {i : Nat} (h : firstOcc p s = some i) :
    p <+: s.drop i := (firstOcc_eq_some_iff.mp h).2.1

/-- What starts with `p` occurs from the leftmost `p` on. -/
theorem infix_drop_of_firstOcc {p q s : List α} {i : Nat} (h : firstOcc p s = some i)
    (hpq : p ++ q <:+: s) : p ++ q <:+: s.drop i := by
  obtain ⟨j, hj⟩ := Option.isSome_iff_exists.mp (firstOcc_isSome_iff.mpr hpq)
  obtain ⟨-, -, hmin⟩ := firstOcc_eq_some_iff.mp h
  have hij : i ≤ j := by
    by_contra hlt
    exact hmin j (by omega) ((List.prefix_append p q).trans (firstOcc_isPrefix hj))
  have hdrop : s.drop j = (s.drop i).drop (j - i) := by
    rw [List.drop_drop, Nat.add_sub_cancel' hij]
  exact (hdrop ▸ firstOcc_isPrefix hj).isInfix.trans (List.drop_suffix _ _).isInfix

/-! ## Searching a concatenation -/

/-- Text after the occurrence does not move it. -/
theorem firstOcc_append {p s : List α} {i : Nat} (h : firstOcc p s = some i) (t : List α) :
    firstOcc p (s ++ t) = some i := by
  obtain ⟨hi, hp, hmin⟩ := firstOcc_eq_some_iff.mp h
  refine firstOcc_eq_some_iff.mpr ⟨by simp; omega, ?_, ?_⟩
  · rw [List.drop_append_of_le_length hi]
    exact hp.trans (List.prefix_append _ _)
  · intro j hj hpj
    have hlen := firstOcc_add_length_le h
    rw [List.drop_append_of_le_length (by omega),
      List.isPrefix_append_of_length (by simp only [List.length_drop]; omega)] at hpj
    exact hmin j hj hpj

/-- A text splits at the leftmost occurrence of a pattern. -/
theorem exists_leftmost {p s : List α} (hp : p ≠ []) (h : p <:+: s) :
    ∃ u v, s = u ++ p ++ v ∧ ¬ p <:+: u ++ p.dropLast := by
  obtain ⟨i, hi⟩ := Option.isSome_iff_exists.mp (firstOcc_isSome_iff.mpr h)
  obtain ⟨v, hv⟩ := firstOcc_isPrefix hi
  have hs : s = s.take i ++ p ++ v := by
    rw [List.append_assoc, hv, List.take_append_drop]
  refine ⟨s.take i, v, hs, fun hearly => ?_⟩
  obtain ⟨j, hj⟩ := Option.isSome_iff_exists.mp (firstOcc_isSome_iff.mpr hearly)
  have hlen := firstOcc_add_length_le hj
  have hpos := List.length_pos_iff.mpr hp
  have hsplit : s = s.take i ++ p.dropLast ++ (p.getLast hp :: v) := by
    have hlast := List.dropLast_append_getLast hp
    rw [← List.singleton_append (l := v), ← List.append_assoc, List.append_assoc (s.take i), hlast]
    exact hs
  have hsame := firstOcc_append hj (p.getLast hp :: v)
  rw [← hsplit, hi] at hsame
  obtain rfl := Option.some.inj hsame
  rw [List.length_append, List.length_dropLast, List.length_take] at hlen
  omega

/-- A pattern starting with `x` is not found in a part of the text without `x`. -/
theorem firstOcc_cons_append {x : α} {p s : List α} (hx : x ∉ s) (t : List α) :
    firstOcc (x :: p) (s ++ t) = (firstOcc (x :: p) t).map (· + s.length) := by
  induction s with
  | nil => simp
  | cons y ys ih =>
    have hne : x ≠ y := fun h => hx (by simp [h])
    have hp : ¬ x :: p <+: y :: (ys ++ t) := by simp [List.cons_prefix_cons, hne]
    rw [List.cons_append, firstOcc_cons_of_not_isPrefix hp, ih (fun h => hx (by simp [h])),
      Option.map_map]
    simp [Function.comp_def, Nat.add_assoc]

omit [DecidableEq α] in
/-- A pattern without `x` cannot straddle an `x` of the text. -/
theorem prefix_append_cons {x : α} {p s t : List α} (hx : x ∉ p) :
    p <+: s ++ x :: t ↔ p <+: s := by
  refine ⟨fun h => ?_, fun h => h.trans (List.prefix_append _ _)⟩
  obtain hle | hlt := le_or_gt p.length s.length
  · exact (List.isPrefix_append_of_length hle).mp h
  · -- the pattern would reach over the separator
    exfalso
    have hget := h.getElem (i := s.length) hlt
    simp only [List.getElem_append_right (Nat.le_refl s.length), Nat.sub_self,
      List.getElem_cons_zero] at hget
    exact hx (hget ▸ List.getElem_mem hlt)

/-- The search skips a separator that the pattern does not contain. -/
theorem firstOcc_append_cons {x : α} {p s : List α} (hx : x ∉ p) (h : firstOcc p s = none)
    (t : List α) :
    firstOcc p (s ++ x :: t) = (firstOcc p t).map (· + (s.length + 1)) := by
  induction s with
  | nil =>
    have hne : p ≠ [] := by rintro rfl; simp [firstOcc] at h
    have hp : ¬ p <+: x :: t := by
      intro hp
      exact hne (List.prefix_nil.mp ((prefix_append_cons (s := []) hx).mp hp))
    simp [firstOcc_cons_of_not_isPrefix hp]
  | cons y ys ih =>
    have hp : ¬ p <+: y :: ys := by
      intro hp
      simp [firstOcc_of_isPrefix hp] at h
    have hys : firstOcc p ys = none := by
      simpa [firstOcc_cons_of_not_isPrefix hp] using h
    have hp' : ¬ p <+: y :: (ys ++ x :: t) := by
      intro h'
      exact hp ((prefix_append_cons (s := y :: ys) hx).mp h')
    rw [List.cons_append, firstOcc_cons_of_not_isPrefix hp', ih hys, Option.map_map]
    simp [Function.comp_def, Nat.add_assoc]

/-! ## Replacing occurrences -/

/-- The text with `r` in the place of each leftmost occurrence of `p`; the search goes on behind
the occurrence. There are no occurrences of an empty `p` to replace. -/
def replaceAll (p r : List α) : List α → List α
  | [] => []
  | x :: xs =>
    if p ≠ [] ∧ p <+: x :: xs then r ++ replaceAll p r ((x :: xs).drop p.length)
    else x :: replaceAll p r xs
termination_by s => s.length
decreasing_by
  · next h =>
    have := List.length_pos_of_ne_nil h.1
    simp only [List.length_drop, List.length_cons]
    omega
  · simp

theorem replaceAll_nil (p r : List α) : replaceAll p r [] = [] := by rw [replaceAll]

theorem replaceAll_of_isPrefix {p s : List α} (hp : p ≠ []) (h : p <+: s) (r : List α) :
    replaceAll p r s = r ++ replaceAll p r (s.drop p.length) := by
  cases s with
  | nil => exact absurd (List.prefix_nil.mp h) hp
  | cons x xs => rw [replaceAll, if_pos ⟨hp, h⟩]

theorem replaceAll_cons_of_not {p xs : List α} {x : α} (h : ¬ (p ≠ [] ∧ p <+: x :: xs))
    (r : List α) : replaceAll p r (x :: xs) = x :: replaceAll p r xs := by
  rw [replaceAll, if_neg h]

theorem replaceAll_empty (r s : List α) : replaceAll [] r s = s := by
  induction s with
  | nil => exact replaceAll_nil [] r
  | cons x xs ih => rw [replaceAll_cons_of_not (by simp), ih]

theorem notMem_replaceAll {x : α} {p r s : List α} (hr : x ∉ r) (hs : x ∉ s) :
    x ∉ replaceAll p r s := by
  fun_induction replaceAll p r s with
  | case1 => exact hs
  | case2 y ys hy ih =>
    rw [List.mem_append, not_or]
    exact ⟨hr, ih fun h => hs (List.mem_of_mem_drop h)⟩
  | case3 y ys hy ih =>
    rw [List.mem_cons, not_or] at hs ⊢
    exact ⟨hs.1, ih hs.2⟩

theorem length_le_replaceAll {p r : List α} (h : p.length ≤ r.length) (s : List α) :
    s.length ≤ (replaceAll p r s).length := by
  fun_induction replaceAll p r s with
  | case1 => exact le_rfl
  | case2 x xs hx ih =>
    rw [List.length_append]
    rw [List.length_drop] at ih
    omega
  | case3 x xs hx ih =>
    rw [List.length_cons, List.length_cons]
    exact Nat.succ_le_succ ih

end

/-! ## Joined texts -/

/-- Texts joined behind a separator are texts that each follow a separator. -/
theorem append_intercalate_eq_flatMap (sep : List α) {texts : List (List α)} (h : texts ≠ []) :
    sep ++ sep.intercalate texts = texts.flatMap (sep ++ ·) := by
  induction texts with
  | nil => exact absurd rfl h
  | cons s ss ih =>
    by_cases hss : ss = []
    · simp [hss]
    · rw [List.intercalate_cons_of_ne_nil hss, List.flatMap_cons, ← ih hss]
      simp

theorem intercalate_cons_eq (sep s : List α) (ss : List (List α)) :
    sep.intercalate (s :: ss) = s ++ ss.flatMap (sep ++ ·) := by
  by_cases hss : ss = []
  · simp [hss]
  · rw [List.intercalate_cons_of_ne_nil hss, List.append_assoc,
      append_intercalate_eq_flatMap sep hss]

/-- The texts in front of one of the joined texts, each with its separator. -/
theorem intercalate_append_cons (sep s : List α) (front back : List (List α)) :
    sep.intercalate (front ++ s :: back) =
      front.flatMap (· ++ sep) ++ (s ++ back.flatMap (sep ++ ·)) := by
  induction front with
  | nil => simp [intercalate_cons_eq]
  | cons t ts ih =>
    rw [List.cons_append, List.intercalate_cons_of_ne_nil (by simp), ih]
    simp

theorem notMem_intercalate {x : α} {sep : List α} {texts : List (List α)} (hsep : x ∉ sep)
    (htexts : ∀ s ∈ texts, x ∉ s) : x ∉ sep.intercalate texts := by
  induction texts with
  | nil => simp
  | cons s ss ih =>
    by_cases hnil : ss = []
    · simpa [hnil] using htexts
    · rw [List.intercalate_cons_of_ne_nil hnil]
      simp only [List.mem_append, not_or]
      exact ⟨⟨htexts s List.mem_cons_self, hsep⟩,
        ih fun t ht => htexts t (List.mem_cons_of_mem s ht)⟩

end Search
