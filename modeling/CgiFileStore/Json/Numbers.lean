import CgiFileStore.Json.Strings

/-!
# Numbers

`NumberText` is a number as JSON writes it. `parse_number` reads all of it, and computes the value
from its digits in the order of the source.
-/

namespace CgiFileStore.Json

open CSem

/-- Decimal digits. -/
def IsDigits (ds : List Byte) : Prop := ∀ c ∈ ds, isDigit c = true

/-- The exponent of a number. -/
structure Exponent where
  mark : Byte
  sign : Option Byte
  digits : List Byte
  isMark : mark = 101 ∨ mark = 69
  isSign : ∀ c ∈ sign, c = 43 ∨ c = 45
  isDigits : IsDigits digits
  nonempty : digits ≠ []

/-- A number. Without digits in front of the point it is written with a `0` there. -/
structure NumberText where
  negative : Bool
  integer : List Byte
  fraction : List Byte
  exponent : Option Exponent
  isInteger : IsDigits integer
  noLeadingZero : ∀ c ∈ integer.head?, c ≠ 48
  isFraction : IsDigits fraction

namespace Exponent

def bytes (e : Exponent) : List Byte := e.mark :: (e.sign.toList ++ e.digits)

/-- The digits as a number. -/
def magnitude (e : Exponent) : Int := e.digits.foldl (fun n c => n * 10 + digit c) 0

def value (e : Exponent) : Int := e.magnitude * if e.sign = some 45 then -1 else 1

end Exponent

namespace NumberText

variable (t : NumberText)

def bytes : List Byte :=
  (if t.negative then [45] else []) ++ (if t.integer = [] then [48] else t.integer) ++
    (if t.fraction = [] then [] else 46 :: t.fraction) ++
    (t.exponent.map Exponent.bytes).getD []

/-- The digits of the fraction change `n` and `scale`. -/
def fractionStep (d : Doubles) (p : d.Double × d.Double) (c : Byte) : d.Double × d.Double :=
  (addDigit d p.1 c, d.sub p.2 (d.ofInt 1))

/-- What the source computes from the number. -/
def value (d : Doubles) : d.Double :=
  let p := t.fraction.foldl (fractionStep d) (t.integer.foldl (addDigit d) (d.ofInt 0), d.ofInt 0)
  scaled d (d.ofInt (if t.negative then -1 else 1)) p.1 p.2 ((t.exponent.map Exponent.value).getD 0)

/-- The exponent fits an `int`. -/
def ExponentFits : Prop := ∀ e ∈ t.exponent, e.magnitude ≤ intMax

end NumberText

/-! ## Loops over digits -/

theorem digit_nonneg {c : Byte} (h : isDigit c = true) : 0 ≤ digit c ∧ digit c ≤ 9 := by
  simp only [isDigit, Bool.and_eq_true, decide_eq_true_eq, UInt8.le_iff_toNat_le,
    UInt8.reduceToNat] at h
  simp only [digit]
  omega

section

variable {α : Type} {ds : List Byte} {c : Byte}

theorem digitLoop_stop (f : α → Byte → Parse α) (a : α) (hc : isDigit c = false)
    (rest : List Byte) : digitLoop f a (c :: rest) = .ok (a, c :: rest) := by
  rw [digitLoop, if_neg (by simp [hc])]

/-- A loop over digits folds its body over them. -/
theorem digitLoop_digits (g : α → Byte → α) (a : α) (hds : IsDigits ds) (hc : isDigit c = false)
    (rest : List Byte) :
    digitLoop (fun a c => .ok (g a c)) a (ds ++ c :: rest) = .ok (ds.foldl g a, c :: rest) := by
  induction ds generalizing a with
  | nil => exact digitLoop_stop _ a hc rest
  | cons x ds ih =>
    rw [List.cons_append, digitLoop, if_pos (hds x List.mem_cons_self), parse_ok_bind,
      ih _ fun y hy => hds y (List.mem_cons_of_mem _ hy), List.foldl_cons]

theorem foldl_digits_ge (hds : IsDigits ds) {n : Int} (hn : 0 ≤ n) :
    n ≤ ds.foldl (fun n c => n * 10 + digit c) n := by
  induction ds generalizing n with
  | nil => exact le_rfl
  | cons x ds ih =>
    have hx := digit_nonneg (hds x List.mem_cons_self)
    have h := ih (fun y hy => hds y (List.mem_cons_of_mem _ hy)) (n := n * 10 + digit x) (by omega)
    rw [List.foldl_cons]
    omega

theorem addExponentDigit_ok {n : Int} (hc : isDigit c = true) (hn : 0 ≤ n)
    (h : n * 10 + digit c ≤ intMax) : addExponentDigit n c = .ok (n * 10 + digit c) := by
  have hd := digit_nonneg hc
  have hten : IsInt (n * 10) := by
    simp only [IsInt, intMin]
    omega
  have hsum : IsInt (n * 10 + digit c) := by
    simp only [IsInt, intMin]
    omega
  rw [addExponentDigit, toChecked_of_isInt hten, checked_ok, parse_ok_bind,
    toChecked_of_isInt hsum, checked_ok]

/-- The digits of an exponent are added up if their number fits. -/
theorem digitLoop_exponent (hds : IsDigits ds) (hc : isDigit c = false) (rest : List Byte) {n : Int}
    (hn : 0 ≤ n) (hmax : ds.foldl (fun n c => n * 10 + digit c) n ≤ intMax) :
    digitLoop addExponentDigit n (ds ++ c :: rest) =
      .ok (ds.foldl (fun n c => n * 10 + digit c) n, c :: rest) := by
  induction ds generalizing n with
  | nil => exact digitLoop_stop _ n hc rest
  | cons x ds ih =>
    have hx := hds x List.mem_cons_self
    have hrest : IsDigits ds := fun y hy => hds y (List.mem_cons_of_mem _ hy)
    have hpos : 0 ≤ n * 10 + digit x := by
      have := digit_nonneg hx
      omega
    rw [List.foldl_cons] at hmax
    have hle := (foldl_digits_ge hrest hpos).trans hmax
    rw [List.cons_append, digitLoop, if_pos hx, addExponentDigit_ok hx hn hle, parse_ok_bind,
      ih hrest hpos hmax, List.foldl_cons]

end

/-! ## Reading a number -/

/-- A byte that no number goes on with. -/
def IsEnd (c : Byte) : Prop := c ≤ 32 ∨ c = 44 ∨ c = 93 ∨ c = 125

/-- The text goes on with such a byte. -/
def Ends (rest : List Byte) : Prop := ∃ c r, rest = c :: r ∧ IsEnd c

theorem IsEnd.not_number {c : Byte} (h : IsEnd c) :
    isDigit c = false ∧ c ≠ 46 ∧ c ≠ 101 ∧ c ≠ 69 := by
  have hall : ∀ x : Fin 256, (UInt8.ofFin x ≤ 32 ∨ UInt8.ofFin x = 44 ∨ UInt8.ofFin x = 93 ∨
      UInt8.ofFin x = 125) → isDigit (UInt8.ofFin x) = false ∧ UInt8.ofFin x ≠ 46 ∧
        UInt8.ofFin x ≠ 101 ∧ UInt8.ofFin x ≠ 69 := by
    decide +kernel
  exact hall c.toFin h

section

variable (d : Doubles) {c : Byte} (rest : List Byte)

theorem parseSign_eq (negative : Bool) (hc : c ≠ 45) :
    parseSign d ((if negative then [45] else []) ++ c :: rest) =
      .ok (d.ofInt (if negative then -1 else 1), c :: rest) := by
  cases negative
  · simp [parseSign, hc]
  · simp [parseSign]

theorem parseInteger_eq {integer : List Byte} (hdigits : IsDigits integer)
    (hzero : ∀ x ∈ integer.head?, x ≠ 48) (hc : isDigit c = false) :
    parseInteger d ((if integer = [] then [48] else integer) ++ c :: rest) =
      .ok (integer.foldl (addDigit d) (d.ofInt 0), c :: rest) := by
  cases integer with
  | nil =>
    have hrange : ¬ (49 ≤ c ∧ c ≤ 57) := by
      simp only [isDigit, Bool.and_eq_false_iff, decide_eq_false_iff_not] at hc
      rintro ⟨h1, h2⟩
      exact hc.elim (fun h => h (UInt8.le_trans (by decide) h1)) fun h => h h2
    simp [parseInteger, hrange]
  | cons x xs =>
    have hx : x ≠ 48 := hzero x rfl
    have hrange : 49 ≤ x ∧ x ≤ 57 := by
      have h := hdigits x List.mem_cons_self
      simp only [isDigit, Bool.and_eq_true, decide_eq_true_eq, UInt8.le_iff_toNat_le] at h
      have hne : x.toNat ≠ 48 := fun h => hx (UInt8.toNat_inj.mp h)
      simp only [UInt8.le_iff_toNat_le, UInt8.reduceToNat] at h ⊢
      omega
    rw [if_neg (List.cons_ne_nil x xs), List.cons_append, parseInteger, deref_cons, parse_ok_bind]
    dsimp only
    rw [if_neg hx, deref_cons, parse_ok_bind, if_pos hrange, ← List.cons_append,
      digitLoop_digits (addDigit d) _ hdigits hc]

theorem parseFraction_eq (n : d.Double) {fraction : List Byte} (hdigits : IsDigits fraction)
    (hc : isDigit c = false) (hpoint : c ≠ 46) :
    parseFraction d n ((if fraction = [] then [] else 46 :: fraction) ++ c :: rest) =
      .ok (fraction.foldl (NumberText.fractionStep d) (n, d.ofInt 0), c :: rest) := by
  cases fraction with
  | nil => simp [parseFraction, hpoint]
  | cons x xs =>
    have hx := hdigits x List.mem_cons_self
    rw [if_neg (List.cons_ne_nil x xs), List.cons_append, parseFraction, deref_cons,
      parse_ok_bind, if_pos rfl, List.tail_cons, List.cons_append, deref_cons, parse_ok_bind,
      if_pos hx, ← List.cons_append]
    exact digitLoop_digits (NumberText.fractionStep d) _ hdigits hc rest

theorem parseExponent_eq {exponent : Option Exponent} (hc : isDigit c = false)
    (hmark : c ≠ 101 ∧ c ≠ 69) (hfits : ∀ e ∈ exponent, e.magnitude ≤ intMax) :
    parseExponent ((exponent.map Exponent.bytes).getD [] ++ c :: rest) =
      .ok ((exponent.map Exponent.value).getD 0, c :: rest) := by
  cases exponent with
  | none => simp [parseExponent, hmark]
  | some e =>
    have hloop := digitLoop_exponent e.isDigits hc rest le_rfl (hfits e rfl)
    obtain ⟨x, xs, hds⟩ := List.exists_cons_of_ne_nil e.nonempty
    have hx : x ≠ 43 ∧ x ≠ 45 := by
      have h := e.isDigits x (hds ▸ List.mem_cons_self)
      constructor <;> rintro rfl <;> revert h <;> decide
    simp only [Option.map_some, Option.getD_some, Exponent.bytes, List.cons_append, parseExponent,
      deref_cons, parse_ok_bind, if_pos e.isMark, List.tail_cons]
    cases hsign : e.sign with
    | none =>
      simp only [Option.toList_none, List.nil_append]
      conv_lhs => rw [hds]
      simp only [List.cons_append, deref_cons, parse_ok_bind, if_neg hx.1, if_neg hx.2]
      rw [← List.cons_append, ← hds, hloop]
      simp [Exponent.value, Exponent.magnitude, hsign]
    | some s =>
      obtain rfl | rfl := e.isSign s hsign
      · simp only [Option.toList_some, List.cons_append, List.nil_append, deref_cons,
          parse_ok_bind, if_true, List.tail_cons, hloop]
        simp [Exponent.value, Exponent.magnitude, hsign]
      · have hplus : (45 : Byte) ≠ 43 := by decide
        simp only [Option.toList_some, List.cons_append, List.nil_append, deref_cons,
          parse_ok_bind, if_neg hplus, if_true, List.tail_cons, hloop]
        simp [Exponent.value, Exponent.magnitude, hsign]

end

/-- `parse_number` reads all of a number that ends there. -/
theorem parseNumber_eq (d : Doubles) (t : NumberText) (hfits : t.ExponentFits) {rest : List Byte}
    (hends : Ends rest) :
    parseNumber d (t.bytes ++ rest) =
      match d.toInt (t.value d) with
      | some valueint => .ok (.number valueint (t.value d), rest)
      | none => .error (.fault .overflow) := by
  obtain ⟨c, r, rfl, hc⟩ := hends
  obtain ⟨hdigit, hpoint, hmark⟩ := hc.not_number
  -- what follows the digits in front of the point and behind it
  obtain ⟨c2, r2, htail2, hdigit2, hpoint2⟩ : ∃ c2 r2,
      (t.exponent.map Exponent.bytes).getD [] ++ c :: r = c2 :: r2 ∧
        isDigit c2 = false ∧ c2 ≠ 46 := by
    cases t.exponent with
    | none => exact ⟨c, r, rfl, hdigit, hpoint⟩
    | some e =>
      refine ⟨e.mark, _, rfl, ?_⟩
      obtain h | h := e.isMark <;> rw [h] <;> decide
  obtain ⟨c1, r1, htail1, hdigit1⟩ : ∃ c1 r1,
      (if t.fraction = [] then [] else 46 :: t.fraction) ++ c2 :: r2 = c1 :: r1 ∧
        isDigit c1 = false := by
    by_cases hnil : t.fraction = []
    · exact ⟨c2, r2, by rw [if_pos hnil]; rfl, hdigit2⟩
    · exact ⟨46, _, by rw [if_neg hnil]; rfl, by decide⟩
  obtain ⟨c0, r0, htail0, hsign⟩ : ∃ c0 r0,
      (if t.integer = [] then [48] else t.integer) ++ c1 :: r1 = c0 :: r0 ∧ c0 ≠ 45 := by
    by_cases hnil : t.integer = []
    · exact ⟨48, _, by rw [if_pos hnil]; rfl, by decide⟩
    · obtain ⟨x, xs, hx⟩ := List.exists_cons_of_ne_nil hnil
      refine ⟨x, xs ++ c1 :: r1, by rw [if_neg hnil, hx]; rfl, ?_⟩
      rintro rfl
      exact absurd (t.isInteger 45 (hx ▸ List.mem_cons_self)) (by decide)
  have hbytes : t.bytes ++ c :: r = (if t.negative then [45] else []) ++ c0 :: r0 := by
    simp only [NumberText.bytes, List.append_assoc, htail2, htail1, htail0]
  rw [hbytes, parseNumber, parseSign_eq d r0 t.negative hsign, parse_ok_bind]
  dsimp only
  rw [← htail0, parseInteger_eq d r1 t.isInteger t.noLeadingZero hdigit1, parse_ok_bind]
  dsimp only
  rw [← htail1, parseFraction_eq d r2 _ t.isFraction hdigit2 hpoint2, parse_ok_bind]
  dsimp only
  rw [← htail2, parseExponent_eq r hdigit hmark hfits, parse_ok_bind]
  rfl

/-! ## Integers -/

/-- The last digit of a number, and the others. -/
theorem decimal_eq (n : Nat) :
    ascii (toString n) = (if n < 10 then [] else ascii (toString (n / 10))) ++
      [UInt8.ofNat (48 + n % 10)] := by
  have hbytes : ∀ m, ascii (toString m) =
      (Nat.toDigits 10 m).map fun c => UInt8.ofNat c.toNat := by
    intro m
    rw [← Nat.toList_repr]
    rfl
  have hchar : ∀ m < 10, UInt8.ofNat (Nat.digitChar m).toNat = UInt8.ofNat (48 + m) := by
    decide
  rw [hbytes, Nat.toDigits_eq_if (by decide)]
  split_ifs with hn
  · rw [Nat.mod_eq_of_lt hn, List.map_singleton, hchar n hn]
    rfl
  · rw [List.map_append, List.map_singleton, hchar _ (Nat.mod_lt n (by decide)), hbytes]

theorem digit_ofNat {k : Nat} (h : k < 10) : digit (UInt8.ofNat (48 + k)) = k := by
  have hall : ∀ k < 10, digit (UInt8.ofNat (48 + k)) = k := by decide
  exact hall k h

theorem isDigits_decimal (n : Nat) : IsDigits (ascii (toString n)) :=
  fun _ h => isDigit_of_mem_decimal h

/-- A positive number is not written with a `0` in front. -/
theorem head?_decimal {n : Nat} (hn : 0 < n) : ∀ c ∈ (ascii (toString n)).head?, c ≠ 48 := by
  induction n using Nat.strongRecOn with
  | _ n ih =>
    rw [decimal_eq]
    split_ifs with hlt
    · have hall : ∀ k < 10, 0 < k → UInt8.ofNat (48 + k % 10) ≠ 48 := by decide
      intro c hc
      obtain rfl := Option.some.inj hc
      exact hall n hlt hn
    · rw [List.head?_append]
      have h := ih (n / 10) (by omega) (by omega)
      cases hhead : (ascii (toString (n / 10))).head? with
      | some c =>
        rw [hhead] at h
        exact h
      | none =>
        rw [List.head?_eq_none_iff, decimal_eq] at hhead
        simp at hhead

section

variable (d : Doubles)

theorem addDigit_ofInt {m : Int} {c : Byte} (hm : 0 ≤ m) (hc : 0 ≤ digit c)
    (h : m * 10 + digit c ≤ 2 ^ 53) : addDigit d (d.ofInt m) c = d.ofInt (m * 10 + digit c) := by
  have hmul : d.mul (d.ofInt m) (d.ofInt 10) = d.ofInt (m * 10) :=
    d.mul_ofRat m 10 (by omega) (by decide) (by omega) (.inl ⟨hm, by decide⟩)
  rw [addDigit, hmul]
  exact d.add_ofRat (m * 10) (digit c) (by omega) (by omega) (by omega)

theorem foldl_addDigit_decimal {n : Nat} (hn : n ≤ 2 ^ 53) :
    (ascii (toString n)).foldl (addDigit d) (d.ofInt 0) = d.ofInt n := by
  induction n using Nat.strongRecOn with
  | _ n ih =>
    have hlast := digit_ofNat (Nat.mod_lt n (by decide : 0 < 10))
    rw [decimal_eq, List.foldl_append, List.foldl_cons, List.foldl_nil]
    split_ifs with hlt
    · rw [List.foldl_nil, addDigit_ofInt d le_rfl (by omega) (by omega), hlast]
      congr 1
      omega
    · rw [ih (n / 10) (by omega) (by omega), addDigit_ofInt d (by omega) (by omega) (by omega),
        hlast]
      congr 1
      omega

end

/-- An `int` as `%d` prints it. -/
def intText (z : Int) : NumberText where
  negative := decide (z < 0)
  integer := if z = 0 then [] else ascii (toString z.natAbs)
  fraction := []
  exponent := none
  isInteger := by
    split_ifs
    · simp [IsDigits]
    · exact isDigits_decimal _
  noLeadingZero := by
    split_ifs with h
    · simp
    · exact head?_decimal (Int.natAbs_pos.mpr h)
  isFraction := by simp [IsDigits]

theorem decimal_ne_nil (n : Nat) : ascii (toString n) ≠ [] := by
  rw [decimal_eq]
  simp

theorem bytes_intText (z : Int) : (intText z).bytes = sprintfInt z := by
  by_cases h0 : z = 0
  · subst h0
    decide +kernel
  · have hne := decimal_ne_nil z.natAbs
    simp only [NumberText.bytes, intText, if_neg h0, if_neg hne, if_true, Option.map_none,
      Option.getD_none, List.append_nil, sprintfInt, decide_eq_true_eq]
    split_ifs <;> rfl

theorem value_intText (d : Doubles) {z : Int} (h : IsInt z) : (intText z).value d = d.ofInt z := by
  simp only [IsInt, intMin, intMax] at h
  have hn : (intText z).integer.foldl (addDigit d) (d.ofInt 0) = d.ofInt z.natAbs := by
    by_cases h0 : z = 0
    · subst h0
      rfl
    · simp only [intText, if_neg h0]
      exact foldl_addDigit_decimal d (by omega)
  have hscale : d.pow (d.ofInt 10) (d.add (d.ofInt 0) (d.ofInt 0)) = d.ofInt 1 := by
    have hadd : d.add (d.ofInt 0) (d.ofInt 0) = d.ofInt 0 :=
      d.add_ofRat 0 0 (by decide) (by decide) (by decide)
    rw [hadd, Doubles.ofInt, Doubles.ofInt, Int.cast_zero]
    have hone := d.pow_zero (d.ofRat (10 : Int))
    rwa [← Int.cast_one] at hone
  have hsign : d.mul (d.ofInt (if z < 0 then -1 else 1)) (d.ofInt z.natAbs) = d.ofInt z := by
    have hmul := d.mul_ofRat (if z < 0 then -1 else 1) z.natAbs (by split_ifs <;> decide) (by omega)
      (by split_ifs <;> omega) (by split_ifs <;> omega)
    have hz : (if z < 0 then -1 else 1) * (z.natAbs : Int) = z := by split_ifs <;> omega
    rwa [hz] at hmul
  have hone : d.mul (d.ofInt z) (d.ofInt 1) = d.ofInt z := by
    have hmul := d.mul_ofRat z 1 (by omega) (by decide) (by omega) (by omega)
    rwa [Int.mul_one] at hmul
  have hvalue : (intText z).value d = scaled d (d.ofInt (if z < 0 then -1 else 1))
      ((intText z).integer.foldl (addDigit d) (d.ofInt 0)) (d.ofInt 0) 0 := by
    simp [NumberText.value, intText]
  rw [hvalue, hn, scaled, hscale, hsign, hone]

end CgiFileStore.Json
