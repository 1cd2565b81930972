import CgiFileStore.Lib.Memory

/-!
# The integer types of the target

`int` has 32 bits and `size_t` has 64. Arithmetic on `int` is done on `Int` and checked
for overflow; conversions between the types wrap. `atoi` and `strtol` are those of the C
library on a 64-bit target, where `atoi` is `strtol` converted to `int`.
-/

namespace CSem

def intMin : Int := -2147483648
def intMax : Int := 2147483647

/-- The values of type `int`. -/
def IsInt (z : Int) : Prop := intMin ≤ z ∧ z ≤ intMax

instance (z : Int) : Decidable (IsInt z) := inferInstanceAs (Decidable (_ ∧ _))

/-- The result of an operation of type `int`. -/
def toChecked (z : Int) : Checked Int := if IsInt z then .ok z else .error .overflow

/-- Conversion to `int`. -/
def wrapInt (z : Int) : Int := Int.bmod z (2 ^ 32)

/-- Conversion to `size_t`. -/
def toSize (z : Int) : Nat := (z % 2 ^ 64).toNat

theorem toChecked_eq_ok {z r : Int} : toChecked z = .ok r ↔ IsInt z ∧ r = z := by
  unfold toChecked
  split <;> simp_all [eq_comm]

theorem toChecked_of_isInt {z : Int} (h : IsInt z) : toChecked z = .ok z := by
  simp [toChecked, h]

theorem wrapInt_of_isInt {z : Int} (h : IsInt z) : wrapInt z = z := by
  simp only [IsInt, intMin, intMax] at h
  unfold wrapInt
  rw [Int.bmod_eq_of_le (by omega) (by omega)]

theorem isInt_wrapInt (z : Int) : IsInt (wrapInt z) := by
  have h1 := Int.le_bmod (x := z) (m := 2 ^ 32) (by decide)
  have h2 := Int.bmod_lt (x := z) (m := 2 ^ 32) (by decide)
  simp only [IsInt, intMin, intMax, wrapInt]
  omega

theorem wrapInt_natCast_le (n : Nat) : wrapInt n ≤ n := by
  rw [wrapInt, Int.bmod_def]
  split <;> omega

/-- The conversion of a larger length to `int` loses a multiple of 4 GiB. -/
theorem wrapInt_add_le {n : Nat} (h : intMax < n) : wrapInt n + 2 ^ 32 ≤ n := by
  have hmod : (2 ^ 32 : Int) ∣ n - wrapInt n := Int.dvd_self_sub_bmod
  have hint := (isInt_wrapInt n).2
  obtain ⟨k, hk⟩ := hmod
  have hpos : 0 < k := by
    by_contra hk0
    nlinarith
  nlinarith

theorem toSize_of_nonneg {z : Int} (h : 0 ≤ z) (hz : z < 2 ^ 64) : toSize z = z.toNat := by
  unfold toSize
  rw [Int.emod_eq_of_lt h hz]

theorem toSize_of_neg {z : Int} (h : z < 0) (hz : -2 ^ 64 ≤ z) :
    toSize z = (z + 2 ^ 64).toNat := by
  unfold toSize
  rw [← Int.add_emod_right, Int.emod_eq_of_lt (by omega) (by omega)]

/-! ## Reading numbers -/

/-- White space of the C locale. -/
def isSpace (c : Byte) : Bool := c = 32 || (9 ≤ c && c ≤ 13)

def isDigit (c : Byte) : Bool := 48 ≤ c && c ≤ 57

theorem isDigit_of_mem_decimal {n : Nat} {c : Byte} (h : c ∈ ascii (toString n)) :
    isDigit c = true := by
  simp only [ascii, List.mem_map] at h
  obtain ⟨ch, hch, rfl⟩ := h
  have hdigit : ch.isDigit = true := by
    apply Nat.isDigit_of_mem_toDigits (b := 10) (by decide) le_rfl
    rwa [← Nat.toList_repr]
  obtain ⟨hlow, hhigh⟩ := Char.isDigit_iff_toNat.mp hdigit
  have hlow48 : 48 ≤ ch.toNat := hlow
  have hhigh57 : ch.toNat ≤ 57 := hhigh
  have hnat : (UInt8.ofNat ch.toNat).toNat = ch.toNat := by
    rw [UInt8.toNat_ofNat', Nat.mod_eq_of_lt (by omega)]
  simp only [isDigit, Bool.and_eq_true, decide_eq_true_eq, UInt8.le_iff_toNat_le, hnat]
  exact ⟨hlow48, hhigh57⟩

/-- The value of the decimal digits at the start of a string. -/
def digitsValue (s : List Byte) : Nat :=
  (s.takeWhile isDigit).foldl (fun n c => 10 * n + (c.toNat - 48)) 0

/-- `strtol(s, NULL, 10)`, which saturates. -/
def strtol (s : List Byte) : Int :=
  let v : Int := match s.dropWhile isSpace with
    | 45 :: ds => -(digitsValue ds : Int)
    | 43 :: ds => digitsValue ds
    | ds => digitsValue ds
  max (-2 ^ 63) (min v (2 ^ 63 - 1))

def atoi (s : List Byte) : Int := wrapInt (strtol s)

example : atoi (ascii " -12&") = -12 := by decide

end CSem
