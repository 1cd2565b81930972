import CgiFileStore.Lib.Integer
import Mathlib.Data.Rat.Floor

/-!
# The items of cJSON.c and their text

The whole item type of cJSON, with what `print_value` makes of an item, formatted or not. Here
allocations succeed, and the lengths that the source keeps in an `int` have no bound: a text of
`2 ^ 31` bytes or more is not modelled.
-/

namespace CgiFileStore.Json

open CSem

/-! ## The type `double` -/

/-- The conversions `%.0f`, `%e` and `%f`. -/
inductive FloatFormat
  | fixed0
  | exponent
  | fixed6
  deriving DecidableEq

/-- `double` as cJSON.c uses it. Integers up to `2 ^ 53` are exact, but for the sign of a zero. -/
structure Doubles where
  Double : Type
  /-- The value nearest to a rational number. -/
  ofRat : ℚ → Double
  add : Double → Double → Double
  sub : Double → Double → Double
  mul : Double → Double → Double
  pow : Double → Double → Double
  fabs : Double → Double
  floor : Double → Double
  eq : Double → Double → Bool
  le : Double → Double → Bool
  lt : Double → Double → Bool
  /-- The conversion to `int`, which is undefined for a value that does not fit. -/
  toInt : Double → Option Int
  sprintf : FloatFormat → Double → List Byte
  add_ofRat : ∀ a b : Int, a.natAbs ≤ 2 ^ 53 → b.natAbs ≤ 2 ^ 53 → (a + b).natAbs ≤ 2 ^ 53 →
    add (ofRat a) (ofRat b) = ofRat ((a + b : Int) : ℚ)
  sub_ofRat : ∀ a b : Int, a.natAbs ≤ 2 ^ 53 → b.natAbs ≤ 2 ^ 53 → (a - b).natAbs ≤ 2 ^ 53 →
    sub (ofRat a) (ofRat b) = ofRat ((a - b : Int) : ℚ)
  mul_ofRat : ∀ a b : Int, a.natAbs ≤ 2 ^ 53 → b.natAbs ≤ 2 ^ 53 → (a * b).natAbs ≤ 2 ^ 53 →
    (0 ≤ a ∧ 0 ≤ b ∨ a * b ≠ 0) → mul (ofRat a) (ofRat b) = ofRat ((a * b : Int) : ℚ)
  pow_zero : ∀ x, pow x (ofRat 0) = ofRat 1
  fabs_ofRat : ∀ a : Int, a.natAbs ≤ 2 ^ 53 → fabs (ofRat a) = ofRat ((a.natAbs : Int) : ℚ)
  eq_ofRat : ∀ a b : Int, a.natAbs ≤ 2 ^ 53 → b.natAbs ≤ 2 ^ 53 →
    eq (ofRat a) (ofRat b) = decide (a = b)
  le_ofRat : ∀ p q : ℚ, p ≤ q → le (ofRat p) (ofRat q) = true
  toInt_ofRat : ∀ a : Int, IsInt a → toInt (ofRat a) = some a
  isInt_of_toInt : ∀ x z, toInt x = some z → IsInt z
  length_sprintf : ∀ fmt x, (fmt = .fixed0 → lt (fabs x) (ofRat (10 ^ 60)) = true) →
    (fmt = .fixed6 → lt (ofRat (10 ^ 9)) (fabs x) = false) → (sprintf fmt x).length < 64
  mem_sprintf : ∀ fmt x, ∀ c ∈ sprintf fmt x, isDigit c = true ∨ c ∈ ascii "+-.einfa"

/-- Conversion from `int`, and the constants of the source that are integers. -/
def Doubles.ofInt (d : Doubles) (z : Int) : d.Double := d.ofRat z

/-- `DBL_EPSILON`. -/
def Doubles.epsilon (d : Doubles) : d.Double := d.ofRat (1 / 2 ^ 52)

/-- `sprintf` with `%d`. -/
def sprintfInt (n : Int) : List Byte :=
  if n < 0 then ascii "-" ++ ascii (toString n.natAbs) else ascii (toString n.natAbs)

theorem mem_sprintfInt {z : Int} {c : Byte} (h : c ∈ sprintfInt z) :
    isDigit c = true ∨ c ∈ ascii "-" := by
  unfold sprintfInt at h
  split_ifs at h
  · obtain h | h := List.mem_append.mp h
    · exact .inr h
    · exact .inl (isDigit_of_mem_decimal h)
  · exact .inl (isDigit_of_mem_decimal h)

/-- A value that fits is printed by `%.0f` of its integer part, as far as 63 bytes go. -/
def rationalText (x : ℚ) : List Byte := (sprintfInt ⌊x⌋).take 63

/-- Exact arithmetic instead of `double`. -/
def Doubles.rational : Doubles where
  Double := ℚ
  ofRat := id
  add := (· + ·)
  sub := (· - ·)
  mul := (· * ·)
  pow x y := if y.den = 1 then x ^ y.num else 1
  fabs x := |x|
  floor x := ⌊x⌋
  eq x y := decide (x = y)
  le x y := decide (x ≤ y)
  lt x y := decide (x < y)
  toInt x := if IsInt (x.num.tdiv x.den) then some (x.num.tdiv x.den) else none
  sprintf _ x := rationalText x
  add_ofRat a b _ _ _ := (Int.cast_add a b).symm
  sub_ofRat a b _ _ _ := (Int.cast_sub a b).symm
  mul_ofRat a b _ _ _ _ := (Int.cast_mul a b).symm
  pow_zero x := by simp
  fabs_ofRat a _ := by simp
  eq_ofRat a b _ _ := by simp
  le_ofRat p q h := by simpa using h
  toInt_ofRat a h := by simp [h]
  isInt_of_toInt x z h := by
    split at h
    · next hint => exact Option.some.inj h ▸ hint
    · cases h
  length_sprintf _ x _ _ := by
    rw [rationalText, List.length_take]
    omega
  mem_sprintf _ x c hc := by
    obtain h | h := mem_sprintfInt (List.mem_of_mem_take hc)
    · exact .inl h
    · right
      obtain rfl : c = 45 := by simpa [ascii] using h
      decide

/-! ## Items -/

/-- An item, by its type and the fields that count for the type. Children of an object have
a name. -/
inductive JsonItem (Double : Type) where
  | null
  | bool (b : Bool)
  | number (valueint : Int) (valuedouble : Double)
  | string (valuestring : List Byte)
  | array (children : List (JsonItem Double))
  | object (children : List (List Byte × JsonItem Double))

/-- A property that items have if their children have it. -/
theorem JsonItem.induct {Double : Type} {motive : JsonItem Double → Prop} (null : motive .null)
    (bool : ∀ b, motive (.bool b)) (number : ∀ z x, motive (.number z x))
    (string : ∀ s, motive (.string s))
    (array : ∀ children, (∀ c ∈ children, motive c) → motive (.array children))
    (object : ∀ children, (∀ c ∈ children, motive c.2) → motive (.object children))
    (item : JsonItem Double) : motive item :=
  @JsonItem.rec Double motive (fun children => ∀ c ∈ children, motive c)
    (fun children => ∀ c ∈ children, motive c.2) (fun child => motive child.2)
    null bool number string array object (by simp)
    (fun _ _ h hs => List.forall_mem_cons.mpr ⟨h, hs⟩) (by simp)
    (fun _ _ h hs => List.forall_mem_cons.mpr ⟨h, hs⟩) (fun _ _ h => h) item

/-! ## Printing -/

/-- A digit of `%x`. -/
def hexDigit (n : Byte) : Byte := if n < 10 then 48 + n else 87 + n

/-- The bytes that are printed for a byte of a string. -/
def escaped (c : Byte) : List Byte :=
  if 31 < c ∧ c ≠ 34 ∧ c ≠ 92 then [c]
  else if c = 92 then ascii "\\\\"
  else if c = 34 then ascii "\\\""
  else if c = 8 then ascii "\\b"
  else if c = 12 then ascii "\\f"
  else if c = 10 then ascii "\\n"
  else if c = 13 then ascii "\\r"
  else if c = 9 then ascii "\\t"
  else ascii "\\u00" ++ [hexDigit (c / 16), hexDigit (c % 16)]

/-- `print_string_ptr`. A string without special bytes is copied at once there. -/
def printStringPtr (s : List Byte) : List Byte := ascii "\"" ++ s.flatMap escaped ++ ascii "\""

def tabs (n : Nat) : List Byte := List.replicate n 9

section

variable (d : Doubles)

/-- `print_number`. -/
def printNumber (valueint : Int) (valuedouble : d.Double) : List Byte :=
  if d.eq valuedouble (d.ofInt 0) then ascii "0"
  else if d.le (d.fabs (d.sub (d.ofInt valueint) valuedouble)) d.epsilon ∧
      d.le valuedouble (d.ofInt intMax) ∧ d.le (d.ofInt intMin) valuedouble then
    sprintfInt valueint
  else if d.le (d.fabs (d.sub (d.floor valuedouble) valuedouble)) d.epsilon ∧
      d.lt (d.fabs valuedouble) (d.ofRat (10 ^ 60)) then d.sprintf .fixed0 valuedouble
  else if d.lt (d.fabs valuedouble) (d.ofRat (1 / 10 ^ 6)) ∨
      d.lt (d.ofRat (10 ^ 9)) (d.fabs valuedouble) then d.sprintf .exponent valuedouble
  else d.sprintf .fixed6 valuedouble

/-- The bytes that `fmt` adds. -/
def onlyFmt (fmt : Bool) (bytes : List Byte) : List Byte := if fmt then bytes else []

/-- `print_array` behind the printing of its entries. -/
def printArray (fmt : Bool) (entries : List (List Byte)) : List Byte :=
  if entries = [] then ascii "[]"
  else ascii "[" ++ (ascii "," ++ onlyFmt fmt (ascii " ")).intercalate entries ++ ascii "]"

/-- A member of an object: its name, and its value. -/
def printMember (fmt : Bool) (depth : Nat) (member : List Byte × List Byte) : List Byte :=
  onlyFmt fmt (tabs depth) ++ member.1 ++ (ascii ":" ++ onlyFmt fmt (ascii "\t")) ++ member.2

/-- `print_object` behind the printing of its names and entries. -/
def printObject (fmt : Bool) (depth : Nat) (members : List (List Byte × List Byte)) : List Byte :=
  if members = [] then
    ascii "\x7b" ++ onlyFmt fmt (ascii "\n" ++ tabs (depth - 1)) ++ ascii "\x7d"
  else
    ascii "\x7b" ++ onlyFmt fmt (ascii "\n") ++
      (ascii "," ++ onlyFmt fmt (ascii "\n")).intercalate
        (members.map (printMember fmt (depth + 1))) ++
      onlyFmt fmt (ascii "\n" ++ tabs depth) ++ ascii "\x7d"

mutual

/-- `print_value`. -/
def printValue (fmt : Bool) (depth : Nat) : JsonItem d.Double → List Byte
  | .null => ascii "null"
  | .bool false => ascii "false"
  | .bool true => ascii "true"
  | .number valueint valuedouble => printNumber d valueint valuedouble
  | .string valuestring => printStringPtr valuestring
  | .array children => printArray fmt (printEntries fmt (depth + 1) children)
  | .object children => printObject fmt depth (printMembers fmt (depth + 1) children)

def printEntries (fmt : Bool) (depth : Nat) : List (JsonItem d.Double) → List (List Byte)
  | [] => []
  | child :: children => printValue fmt depth child :: printEntries fmt depth children

def printNamed (fmt : Bool) (depth : Nat) :
    List Byte × JsonItem d.Double → List Byte × List Byte
  | (string, child) => (printStringPtr string, printValue fmt depth child)

def printMembers (fmt : Bool) (depth : Nat) :
    List (List Byte × JsonItem d.Double) → List (List Byte × List Byte)
  | [] => []
  | child :: children => printNamed fmt depth child :: printMembers fmt depth children

end

/-- `cJSON_Print`. -/
def cJSONPrint (item : JsonItem d.Double) : List Byte := printValue d true 0 item

/-- `cJSON_PrintUnformatted`. -/
def cJSONPrintUnformatted (item : JsonItem d.Double) : List Byte := printValue d false 0 item

end

variable {d : Doubles}

theorem printEntries_eq_map (fmt : Bool) (depth : Nat) (children : List (JsonItem d.Double)) :
    printEntries d fmt depth children = children.map (printValue d fmt depth) := by
  induction children with
  | nil => rfl
  | cons child children ih => rw [printEntries, ih, List.map_cons]

theorem printMembers_eq_map (fmt : Bool) (depth : Nat)
    (children : List (List Byte × JsonItem d.Double)) :
    printMembers d fmt depth children =
      children.map fun child => (printStringPtr child.1, printValue d fmt depth child.2) := by
  induction children with
  | nil => rfl
  | cons child children ih =>
    obtain ⟨string, item⟩ := child
    rw [printMembers, ih, List.map_cons, printNamed]

/-- An integer is printed by `%d`. -/
theorem printNumber_ofInt {z : Int} (h : IsInt z) :
    printNumber d z (d.ofInt z) = sprintfInt z := by
  have hz := h
  simp only [IsInt, intMin, intMax] at hz
  have heq : d.eq (d.ofInt z) (d.ofInt 0) = decide (z = 0) :=
    d.eq_ofRat z 0 (by omega) (by decide)
  unfold printNumber
  rw [heq]
  by_cases h0 : z = 0
  · rw [h0]
    rfl
  · have hsub : d.sub (d.ofInt z) (d.ofInt z) = d.ofInt 0 := by
      have h := d.sub_ofRat z z (by omega) (by omega) (by omega)
      rwa [Int.sub_self] at h
    have hfabs : d.fabs (d.ofInt 0) = d.ofInt 0 := d.fabs_ofRat 0 (by decide)
    have hepsilon : d.le (d.ofInt 0) d.epsilon = true := d.le_ofRat _ _ (by norm_num)
    have hmax : d.le (d.ofInt z) (d.ofInt intMax) = true :=
      d.le_ofRat _ _ (by exact_mod_cast h.2)
    have hmin : d.le (d.ofInt intMin) (d.ofInt z) = true :=
      d.le_ofRat _ _ (by exact_mod_cast h.1)
    rw [hsub, hfabs, hepsilon, hmax, hmin]
    simp [h0]

/-! ## Lengths -/

theorem length_intercalate (sep : List Byte) {entries : List (List Byte)} (h : entries ≠ []) :
    (sep.intercalate entries).length + sep.length =
      (entries.map fun e => e.length + sep.length).sum := by
  induction entries with
  | nil => exact absurd rfl h
  | cons e es ih =>
    cases es with
    | nil => simp
    | cons d ds =>
      rw [List.intercalate_cons_cons, List.map_cons, List.sum_cons, ← ih (by simp)]
      simp only [List.length_append]
      omega

theorem length_printArray {entries : List (List Byte)} (h : entries ≠ []) :
    (printArray true entries).length = (entries.map fun e => e.length + 2).sum := by
  have hlen := length_intercalate (ascii "," ++ onlyFmt true (ascii " ")) h
  have hsep : (ascii "," ++ onlyFmt true (ascii " ")).length = 2 := by decide
  have hopen : (ascii "[").length = 1 := by decide
  have hclose : (ascii "]").length = 1 := by decide
  rw [hsep] at hlen
  rw [printArray, if_neg h, ← hlen, List.length_append, List.length_append, hopen, hclose]
  omega

theorem length_tabs (depth : Nat) : (tabs depth).length = depth := List.length_replicate

theorem length_printMember (depth : Nat) (member : List Byte × List Byte) :
    (printMember true depth member).length = depth + member.1.length + member.2.length + 2 := by
  have hcolon : (ascii ":" ++ onlyFmt true (ascii "\t")).length = 2 := by decide
  rw [printMember, List.length_append, List.length_append, List.length_append, hcolon, onlyFmt,
    if_pos rfl, length_tabs]
  omega

theorem length_printObject (depth : Nat) {members : List (List Byte × List Byte)}
    (h : members ≠ []) :
    (printObject true depth members).length =
      depth + 2 + (members.map fun e => depth + e.1.length + e.2.length + 5).sum := by
  have hlen := length_intercalate (ascii "," ++ onlyFmt true (ascii "\n"))
    (mt List.map_eq_nil_iff.mp h : members.map (printMember true (depth + 1)) ≠ [])
  have hsep : (ascii "," ++ onlyFmt true (ascii "\n")).length = 2 := by decide
  have hopen : (ascii "\x7b" ++ onlyFmt true (ascii "\n")).length = 2 := by decide
  have hend : (onlyFmt true (ascii "\n" ++ tabs depth)).length = depth + 1 := by
    rw [onlyFmt, if_pos rfl, List.length_append, length_tabs, Nat.add_comm]
    rfl
  have hclose : (ascii "\x7d").length = 1 := by decide
  have hmember : ((fun e : List Byte => e.length + 2) ∘ printMember true (depth + 1)) =
      fun e : List Byte × List Byte => depth + e.1.length + e.2.length + 5 := by
    funext e
    rw [Function.comp_apply, length_printMember]
    omega
  rw [hsep, List.map_map, hmember] at hlen
  rw [printObject, if_neg h, ← hlen]
  simp only [List.length_append] at hopen hend ⊢
  omega

/-- The number of bytes that a string takes between its quotes. -/
def escapedLength (s : List Byte) : Nat := (s.map fun c => (escaped c).length).sum

theorem one_le_escapedLength {s : List Byte} (h : s ≠ []) : 1 ≤ escapedLength s := by
  obtain ⟨c, cs, rfl⟩ := List.exists_cons_of_ne_nil h
  have hpos : 1 ≤ (escaped c).length := by
    unfold escaped
    split_ifs <;> simp [ascii]
  rw [escapedLength, List.map_cons, List.sum_cons]
  omega

theorem one_le_length_sprintfInt (n : Int) : 1 ≤ (sprintfInt n).length := by
  have hpos : 1 ≤ (ascii (toString n.natAbs)).length := by
    have hdigits : (toString n.natAbs).toList = Nat.toDigits 10 n.natAbs := Nat.toList_repr
    rw [ascii, List.length_map, hdigits]
    exact Nat.length_toDigits_pos
  unfold sprintfInt
  split_ifs
  · rw [List.length_append]
    omega
  · exact hpos

theorem length_printStringPtr (s : List Byte) :
    (printStringPtr s).length = escapedLength s + 2 := by
  have hquote : (ascii "\"").length = 1 := by decide
  simp only [printStringPtr, escapedLength, List.length_append, List.length_flatMap, hquote]
  omega

/-! ## No NUL is printed -/

theorem zero_notMem_printStringPtr (s : List Byte) : 0 ∉ printStringPtr s := by
  have hall : ∀ c : Fin 256, 0 ∉ escaped (UInt8.ofFin c) := by decide +kernel
  simp only [printStringPtr, List.mem_append, List.mem_flatMap, not_or, not_exists, not_and]
  exact ⟨⟨by decide, fun c _ => hall c.toFin⟩, by decide⟩

theorem zero_notMem_printNumber (z : Int) (x : d.Double) : 0 ∉ printNumber d z x := by
  have hsprintf : ∀ fmt, 0 ∉ d.sprintf fmt x := fun fmt hmem => by
    obtain h | h := d.mem_sprintf fmt x 0 hmem
    · exact absurd h (by decide)
    · exact absurd h (by decide)
  have hint : 0 ∉ sprintfInt z := fun hmem => by
    obtain h | h := mem_sprintfInt hmem
    · exact absurd h (by decide)
    · exact absurd h (by decide)
  unfold printNumber
  split_ifs
  · decide
  · exact hint
  all_goals exact hsprintf _

theorem zero_notMem_onlyFmt {fmt : Bool} {bytes : List Byte} (h : 0 ∉ bytes) :
    0 ∉ onlyFmt fmt bytes := by
  unfold onlyFmt
  split_ifs
  · exact h
  · exact List.not_mem_nil

theorem zero_notMem_tabs (n : Nat) : 0 ∉ tabs n := by
  simp [tabs]

theorem zero_notMem_intercalate {sep : List Byte} {entries : List (List Byte)} (hsep : 0 ∉ sep)
    (h : ∀ e ∈ entries, 0 ∉ e) : 0 ∉ sep.intercalate entries := by
  induction entries with
  | nil => simp
  | cons e es ih =>
    cases es with
    | nil => simpa using h
    | cons d ds =>
      rw [List.intercalate_cons_cons]
      simp only [List.mem_append, not_or]
      exact ⟨⟨h e List.mem_cons_self, hsep⟩, ih fun x hx => h x (List.mem_cons_of_mem e hx)⟩

theorem zero_notMem_printArray {fmt : Bool} {entries : List (List Byte)}
    (h : ∀ e ∈ entries, 0 ∉ e) : 0 ∉ printArray fmt entries := by
  have hopen : 0 ∉ ascii "[" := by decide
  have hclose : 0 ∉ ascii "]" := by decide
  have hcomma : 0 ∉ ascii "," ++ onlyFmt fmt (ascii " ") := by cases fmt <;> decide
  unfold printArray
  split_ifs
  · decide
  · simp only [List.mem_append, not_or] at hcomma ⊢
    exact ⟨⟨hopen, zero_notMem_intercalate (by simpa using hcomma) h⟩, hclose⟩

theorem zero_notMem_printObject {fmt : Bool} {depth : Nat} {members : List (List Byte × List Byte)}
    (h : ∀ e ∈ members, 0 ∉ e.1 ∧ 0 ∉ e.2) : 0 ∉ printObject fmt depth members := by
  have hopen : 0 ∉ ascii "\x7b" := by decide
  have hclose : 0 ∉ ascii "\x7d" := by decide
  have hcomma : 0 ∉ ascii "," ++ onlyFmt fmt (ascii "\n") := by cases fmt <;> decide
  have hcolon : 0 ∉ ascii ":" ++ onlyFmt fmt (ascii "\t") := by cases fmt <;> decide
  have hline : ∀ n, 0 ∉ onlyFmt fmt (ascii "\n" ++ tabs n) := fun n =>
    zero_notMem_onlyFmt (by simp [tabs, ascii])
  have hmember : ∀ e ∈ members.map (printMember fmt (depth + 1)), 0 ∉ e := by
    intro line hmem
    obtain ⟨e, he, rfl⟩ := List.mem_map.mp hmem
    rw [printMember, List.mem_append, List.mem_append, List.mem_append, not_or, not_or, not_or]
    exact ⟨⟨⟨zero_notMem_onlyFmt (zero_notMem_tabs _), (h e he).1⟩, hcolon⟩, (h e he).2⟩
  unfold printObject
  split_ifs
  · rw [List.mem_append, List.mem_append, not_or, not_or]
    exact ⟨⟨hopen, hline _⟩, hclose⟩
  · rw [List.mem_append, List.mem_append, List.mem_append, List.mem_append, not_or, not_or, not_or,
      not_or]
    exact ⟨⟨⟨⟨hopen, zero_notMem_onlyFmt (by decide)⟩, zero_notMem_intercalate hcomma hmember⟩,
      hline _⟩, hclose⟩

theorem zero_notMem_printValue (item : JsonItem d.Double) (fmt : Bool) (depth : Nat) :
    0 ∉ printValue d fmt depth item := by
  induction item using JsonItem.induct generalizing depth with
  | null => exact (by decide : 0 ∉ ascii "null")
  | bool b => cases b <;> rw [printValue] <;> decide
  | number z x => exact zero_notMem_printNumber z x
  | string s => exact zero_notMem_printStringPtr s
  | array children ih =>
    rw [printValue, printEntries_eq_map]
    refine zero_notMem_printArray fun e he => ?_
    obtain ⟨c, hc, rfl⟩ := List.mem_map.mp he
    exact ih c hc (depth + 1)
  | object children ih =>
    rw [printValue, printMembers_eq_map]
    refine zero_notMem_printObject fun e he => ?_
    obtain ⟨c, hc, rfl⟩ := List.mem_map.mp he
    exact ⟨zero_notMem_printStringPtr c.1, ih c hc (depth + 1)⟩

end CgiFileStore.Json
