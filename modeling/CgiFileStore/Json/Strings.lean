import CgiFileStore.Json.Parse

/-!
# String literals

The inside of a literal whose escapes are complete is a list of pieces, and `decode` says what
they stand for. On such a literal the two loops of `parse_string` agree about where it ends, and
the block that was allocated after the first is large enough for the second.
-/

namespace CgiFileStore.Json

open CSem

/-! ## The monad -/

section

variable {α β : Type} {f : α → Parse β} {x : Parse α} {a : α} {b : β} {s : Stop}

@[simp] theorem parse_ok_bind : (Except.ok a >>= f) = f a := rfl

@[simp] theorem parse_error_bind : ((Except.error s : Parse α) >>= f) = .error s := rfl

@[simp] theorem parse_pure : (pure a : Parse α) = .ok a := rfl

theorem parse_bind_eq_ok : (x >>= f) = .ok b ↔ ∃ a, x = .ok a ∧ f a = .ok b := by
  cases x <;> simp

@[simp] theorem checked_ok : checked (.ok a) = .ok a := rfl

@[simp] theorem checked_error (e : Fault) : checked (.error e : Checked α) = .error (.fault e) := rfl

@[simp] theorem deref_cons (c : Byte) (rest : List Byte) : deref (c :: rest) = .ok c := rfl

end

/-- Counting up by one in an `int`. -/
theorem checked_toChecked_add_one {len : Int} (h : 0 ≤ len) :
    checked (toChecked (len + 1)) =
      if len + 1 ≤ intMax then .ok (len + 1) else .error (.fault .overflow) := by
  by_cases hmax : len + 1 ≤ intMax
  · have hint : IsInt (len + 1) := ⟨by simp only [intMin]; omega, hmax⟩
    rw [toChecked_of_isInt hint, if_pos hmax, checked_ok]
  · rw [toChecked, if_neg fun h => hmax h.2, if_neg hmax, checked_error]

/-! ## Pieces -/

/-- A byte that stands for itself in a literal. -/
def IsPlain (c : Byte) : Prop := c ≠ 0 ∧ c ≠ 34 ∧ c ≠ 92

instance (c : Byte) : Decidable (IsPlain c) := inferInstanceAs (Decidable (_ ∧ _))

/-- The four bytes behind `\u`, which need not be digits. -/
structure Hex4 where
  c1 : Byte
  c2 : Byte
  c3 : Byte
  c4 : Byte
  plain : IsPlain c1 ∧ IsPlain c2 ∧ IsPlain c3 ∧ IsPlain c4

def Hex4.bytes (u : Hex4) : List Byte := [u.c1, u.c2, u.c3, u.c4]

def Hex4.value (u : Hex4) : Nat := parseHex4 u.c1 u.c2 u.c3 u.c4

/-- What a literal is made of. -/
inductive Piece
  | plain (c : Byte) (h : IsPlain c)
  | escape (c : Byte) (h : c ≠ 0 ∧ c ≠ 117)
  | unicode (u : Hex4)

namespace Piece

def bytes : Piece → List Byte
  | plain c _ => [c]
  | escape c _ => [92, c]
  | unicode u => [92, 117] ++ u.bytes

/-- How much the piece counts in `len`. -/
def counted : Piece → Nat
  | plain .. => 1
  | escape .. => 1
  | unicode .. => 5

end Piece

/-- The bytes between the quotes. -/
def pieceBytes (ps : List Piece) : List Byte := ps.flatMap Piece.bytes

def countedLength (ps : List Piece) : Nat := (ps.map Piece.counted).sum

def IsLowSurrogate (uc : Nat) : Prop := 0xDC00 ≤ uc ∧ uc ≤ 0xDFFF

def IsHighSurrogate (uc : Nat) : Prop := 0xD800 ≤ uc ∧ uc ≤ 0xDBFF

instance (uc : Nat) : Decidable (IsLowSurrogate uc) := inferInstanceAs (Decidable (_ ∧ _))

instance (uc : Nat) : Decidable (IsHighSurrogate uc) := inferInstanceAs (Decidable (_ ∧ _))

/-- What a literal stands for. A surrogate without its other half and a `\u` that is no code
stand for nothing; a high surrogate takes the next `\u` along. -/
def decode : List Piece → List Byte
  | [] => []
  | .plain c _ :: ps => c :: decode ps
  | .escape c _ :: ps => unescaped c :: decode ps
  | .unicode u :: ps =>
    if IsLowSurrogate u.value ∨ u.value = 0 then decode ps
    else if IsHighSurrogate u.value then
      match ps with
      | .unicode u2 :: ps =>
        if IsLowSurrogate u2.value then utf8Bytes (surrogatePair u.value u2.value) ++ decode ps
        else decode ps
      | ps => decode ps
    else utf8Bytes u.value ++ decode ps

/-! ## Code points -/

theorem hexValue_lt {c : Byte} {n : Nat} (h : hexValue c = some n) : n < 16 := by
  unfold hexValue at h
  split_ifs at h with hdigit hupper hlower
  all_goals
    obtain rfl := Option.some.inj h
    simp only [UInt8.le_iff_toNat_le, UInt8.reduceToNat] at *
    omega

theorem parseHex4_lt (c1 c2 c3 c4 : Byte) : parseHex4 c1 c2 c3 c4 < 0x10000 := by
  unfold parseHex4
  split
  · next h1 h2 h3 h4 =>
    have := hexValue_lt h1
    have := hexValue_lt h2
    have := hexValue_lt h3
    have := hexValue_lt h4
    simp only [Nat.shiftLeft_eq]
    omega
  · decide

theorem Hex4.value_lt (u : Hex4) : u.value < 0x10000 := parseHex4_lt u.c1 u.c2 u.c3 u.c4

theorem length_utf8Fill (len n uc : Nat) (bytes : List Byte) :
    (utf8Fill len n uc bytes).length = n + 1 + bytes.length := by
  induction n generalizing uc bytes with
  | zero => simp [utf8Fill]; omega
  | succ n ih => rw [utf8Fill, ih, List.length_cons]; omega

theorem length_utf8Bytes_le (uc : Nat) : (utf8Bytes uc).length ≤ 4 := by
  simp only [utf8Bytes, length_utf8Fill, List.length_nil]
  split_ifs <;> omega

theorem length_utf8Bytes_le_three {uc : Nat} (h : uc < 0x10000) : (utf8Bytes uc).length ≤ 3 := by
  simp only [utf8Bytes, length_utf8Fill, List.length_nil]
  split_ifs <;> omega

/-- A continuation byte of UTF-8. -/
theorem continuation_byte (uc : Nat) :
    UInt8.ofNat ((uc ||| 0x80) &&& 0xBF) = UInt8.ofNat (uc % 64 + 0x80) := by
  have hall : ∀ x : Fin 256, (UInt8.ofFin x ||| 0x80) &&& 0xBF = UInt8.ofFin x % 64 + 0x80 := by
    decide +kernel
  have hx : (UInt8.ofNat uc ||| 0x80) &&& 0xBF = UInt8.ofNat uc % 64 + 0x80 :=
    hall (UInt8.ofNat uc).toFin
  have hmod : UInt8.ofNat uc % 64 = UInt8.ofNat (uc % 64) := by
    rw [← UInt8.ofNat_mod_size (x := uc)]
    have h := UInt8.ofNat_mod (a := uc % 2 ^ 8) (b := 64) (Nat.mod_lt _ (by decide)) (by decide)
    rw [Nat.mod_mod_of_dvd uc (by decide : 64 ∣ 2 ^ 8)] at h
    exact h.symm
  rw [UInt8.ofNat_add, ← hmod, UInt8.ofNat_and, UInt8.ofNat_or]
  exact hx

/-- The mark of a first byte lies above the bits of the code point. -/
theorem first_byte {x mark n : Nat} (hx : x < 2 ^ n) (hmark : mark % 2 ^ n = 0) :
    x ||| mark = x + mark := by
  obtain ⟨k, rfl⟩ := Nat.dvd_of_mod_eq_zero hmark
  rw [Nat.or_comm, ← Nat.two_pow_add_eq_or_of_lt hx, Nat.add_comm]

/-- The bytes stored for a code point are its UTF-8. -/
theorem utf8Bytes_eq (c : Char) : utf8Bytes c.val.toNat = String.utf8EncodeChar c := by
  have hlt : c.val.toNat < 0x110000 := by
    have h := c.valid
    simp only [UInt32.isValidChar, Nat.isValidChar] at h
    omega
  unfold utf8Bytes String.utf8EncodeChar
  generalize c.val.toNat = v at hlt
  by_cases h1 : v < 0x80
  · have hle : v ≤ 0x7f := by omega
    simp [h1, hle, utf8Fill, firstByteMark]
  by_cases h2 : v < 0x800
  · have hmark : v / 64 ||| 0xC0 = v / 64 % 0x20 + 0xC0 := by
      rw [Nat.mod_eq_of_lt (by omega), first_byte (n := 5) (by omega) (by decide)]
    have hle1 : ¬ v ≤ 0x7f := by omega
    have hle2 : v ≤ 0x7ff := by omega
    simp only [h1, h2, hle1, hle2, if_true, if_false, utf8Fill, firstByteMark, continuation_byte,
      Nat.shiftRight_eq_div_pow]
    exact congrArg (UInt8.ofNat · :: _) hmark
  by_cases h3 : v < 0x10000
  · have hmark : v / 64 / 64 ||| 0xE0 = v / 4096 % 0x10 + 0xE0 := by
      rw [Nat.div_div_eq_div_mul, Nat.mod_eq_of_lt (by omega),
        first_byte (n := 4) (by omega) (by decide)]
    have hle1 : ¬ v ≤ 0x7f := by omega
    have hle2 : ¬ v ≤ 0x7ff := by omega
    have hle3 : v ≤ 0xffff := by omega
    simp only [h1, h2, h3, hle1, hle2, hle3, if_true, if_false, utf8Fill, firstByteMark,
      continuation_byte, Nat.shiftRight_eq_div_pow]
    exact congrArg (UInt8.ofNat · :: _) hmark
  · have hmark : v / 64 / 64 / 64 ||| 0xF0 = v / 262144 % 0x08 + 0xF0 := by
      rw [Nat.div_div_eq_div_mul, Nat.div_div_eq_div_mul, Nat.mod_eq_of_lt (by omega),
        first_byte (n := 3) (by omega) (by decide)]
    have hdiv : v / 64 / 64 = v / 4096 := Nat.div_div_eq_div_mul ..
    have hle1 : ¬ v ≤ 0x7f := by omega
    have hle2 : ¬ v ≤ 0x7ff := by omega
    have hle3 : ¬ v ≤ 0xffff := by omega
    simp only [h1, h2, h3, hle1, hle2, hle3, if_false, utf8Fill, firstByteMark, continuation_byte,
      Nat.shiftRight_eq_div_pow]
    rw [← hdiv]
    exact congrArg (UInt8.ofNat · :: _) hmark

theorem exists_char {uc : Nat} (h : uc < 0xD800 ∨ 0xDFFF < uc ∧ uc < 0x110000) :
    ∃ c : Char, c.val.toNat = uc :=
  ⟨Char.ofNatAux uc h, rfl⟩

theorem zero_notMem_utf8EncodeChar {c : Char} (h : c.val.toNat ≠ 0) :
    0 ∉ String.utf8EncodeChar c := by
  unfold String.utf8EncodeChar
  generalize c.val.toNat = v at h
  have hbyte : ∀ x, x % 256 ≠ 0 → (0 : Byte) ≠ UInt8.ofNat x := by
    intro x hx h0
    apply hx
    simpa using congrArg UInt8.toNat h0.symm
  dsimp only
  split_ifs
  all_goals simp only [List.mem_cons, List.not_mem_nil, or_false, not_or]
  · exact hbyte _ (by omega)
  · exact ⟨hbyte _ (by omega), hbyte _ (by omega)⟩
  · exact ⟨hbyte _ (by omega), hbyte _ (by omega), hbyte _ (by omega)⟩
  · exact ⟨hbyte _ (by omega), hbyte _ (by omega), hbyte _ (by omega), hbyte _ (by omega)⟩

theorem zero_notMem_utf8Bytes {uc : Nat} (h0 : uc ≠ 0)
    (h : uc < 0xD800 ∨ 0xDFFF < uc ∧ uc < 0x110000) : 0 ∉ utf8Bytes uc := by
  obtain ⟨c, rfl⟩ := exists_char h
  rw [utf8Bytes_eq]
  exact zero_notMem_utf8EncodeChar h0

/-- The halves of a surrogate pair carry ten bits each. -/
theorem surrogatePair_eq {uc uc2 : Nat} (h : IsHighSurrogate uc) (h2 : IsLowSurrogate uc2) :
    surrogatePair uc uc2 = 0x10000 + (uc - 0xD800) * 1024 + (uc2 - 0xDC00) := by
  obtain ⟨x, rfl⟩ := Nat.exists_eq_add_of_le h.1
  obtain ⟨y, rfl⟩ := Nat.exists_eq_add_of_le h2.1
  have hx : x < 1024 := by have := h.2; omega
  have hy : y < 1024 := by have := h2.2; omega
  have hmask : ∀ n, n &&& 0x3FF = n % 1024 := fun n => Nat.and_two_pow_sub_one_eq_mod n 10
  have hor : x <<< 10 ||| y = x * 1024 + y := by
    rw [Nat.shiftLeft_eq, Nat.mul_comm, ← Nat.two_pow_add_eq_or_of_lt (i := 10) hy]
  have hx' : (0xD800 + x) % 1024 = x := by omega
  have hy' : (0xDC00 + y) % 1024 = y := by omega
  rw [surrogatePair, hmask, hmask, hx', hy', hor, Nat.add_sub_cancel_left,
    Nat.add_sub_cancel_left, Nat.add_assoc]

theorem unescaped_ne_zero {c : Byte} (h : c ≠ 0) : unescaped c ≠ 0 := by
  unfold unescaped
  split_ifs <;> first | decide | exact h

/-- A literal with complete escapes has no NUL in it. -/
theorem zero_notMem_decode (ps : List Piece) : 0 ∉ decode ps := by
  fun_induction decode ps with
  | case1 => simp
  | case2 c h ps ih =>
    rw [List.mem_cons, not_or]
    exact ⟨h.1.symm, ih⟩
  | case3 c h ps ih =>
    rw [List.mem_cons, not_or]
    exact ⟨(unescaped_ne_zero h.1).symm, ih⟩
  | case4 u ps hbad ih => exact ih
  | case5 u hbad hhigh u2 ps hlow ih =>
    rw [List.mem_append, not_or]
    refine ⟨zero_notMem_utf8Bytes ?_ ?_, ih⟩
    all_goals
      rw [surrogatePair_eq hhigh hlow]
      simp only [IsHighSurrogate, IsLowSurrogate] at hhigh hlow
      omega
  | case6 u hbad hhigh u2 ps hlow ih => exact ih
  | case7 u hbad hhigh ps hps ih => exact ih
  | case8 u ps hbad hhigh ih =>
    have hlt := u.value_lt
    rw [List.mem_append, not_or]
    simp only [IsHighSurrogate, IsLowSurrogate] at hbad hhigh
    exact ⟨zero_notMem_utf8Bytes (by omega) (by omega), ih⟩

/-! ## The loops of `parse_string` -/

@[simp] theorem pieceBytes_cons (p : Piece) (ps : List Piece) :
    pieceBytes (p :: ps) = p.bytes ++ pieceBytes ps := rfl

@[simp] theorem countedLength_cons (p : Piece) (ps : List Piece) :
    countedLength (p :: ps) = p.counted + countedLength ps := by
  simp [countedLength]

/-- The block is large enough for what the literal stands for. -/
theorem length_decode_le (ps : List Piece) : (decode ps).length ≤ countedLength ps := by
  fun_induction decode ps with
  | case1 => simp
  | case2 c h ps ih =>
    rw [List.length_cons, countedLength_cons, Piece.counted]
    omega
  | case3 c h ps ih =>
    rw [List.length_cons, countedLength_cons, Piece.counted]
    omega
  | case4 u ps hbad ih =>
    rw [countedLength_cons]
    omega
  | case5 u hbad hhigh u2 ps hlow ih =>
    have hle := length_utf8Bytes_le (surrogatePair u.value u2.value)
    rw [List.length_append, countedLength_cons, countedLength_cons, Piece.counted, Piece.counted]
    omega
  | case6 u hbad hhigh u2 ps hlow ih =>
    rw [countedLength_cons, countedLength_cons]
    omega
  | case7 u hbad hhigh ps hps ih =>
    rw [countedLength_cons]
    omega
  | case8 u ps hbad hhigh ih =>
    have hle := length_utf8Bytes_le_three u.value_lt
    rw [List.length_append, countedLength_cons, Piece.counted]
    omega

theorem put_of_le {size : Nat} {out bytes : List Byte} (h : out.length + bytes.length ≤ size) :
    put size out bytes = .ok (out ++ bytes) := if_pos h

theorem stringBytes_close {size n : Nat} {close : Byte} (h : close = 34 ∨ close = 0)
    (rest out : List Byte) :
    stringBytes size (n + 1) (close :: rest) out = .ok (out, close :: rest) := by
  rw [stringBytes, deref_cons, parse_ok_bind, if_pos h]
  rfl

theorem stringBytes_plain {size n : Nat} {c : Byte} {ptr out : List Byte} (h : IsPlain c)
    (hroom : out.length < size) :
    stringBytes size (n + 1) (c :: ptr) out = stringBytes size n ptr (out ++ [c]) := by
  have hclose : ¬ (c = 34 ∨ c = 0) := not_or.mpr ⟨h.2.1, h.1⟩
  rw [stringBytes, deref_cons, parse_ok_bind, if_neg hclose, if_pos h.2.2, put_of_le hroom,
    parse_ok_bind, List.tail_cons]

theorem stringBytes_escape {size n : Nat} {e : Byte} {ptr ptr' bytes out : List Byte}
    (he : escapeBytes e ptr = .ok (bytes, ptr')) (hroom : out.length + bytes.length ≤ size) :
    stringBytes size (n + 1) (92 :: e :: ptr) out = stringBytes size n ptr' (out ++ bytes) := by
  have hclose : ¬ ((92 : Byte) = 34 ∨ (92 : Byte) = 0) := by decide
  rw [stringBytes, deref_cons, parse_ok_bind, if_neg hclose, if_neg (not_not.mpr rfl)]
  simp only [List.tail_cons, deref_cons, parse_ok_bind, he, put_of_le hroom]

theorem escapeBytes_unicode (u : Hex4) (ptr : List Byte) :
    escapeBytes 117 (u.bytes ++ ptr) =
      if IsLowSurrogate u.value ∨ u.value = 0 then .ok ([], ptr)
      else if IsHighSurrogate u.value then secondHalf u.value ptr
      else .ok (utf8Bytes u.value, ptr) := by
  rw [escapeBytes, if_pos rfl]
  rfl

theorem secondHalf_unicode (uc : Nat) (u : Hex4) (ptr : List Byte) :
    secondHalf uc (92 :: 117 :: (u.bytes ++ ptr)) =
      .ok (if IsLowSurrogate u.value then utf8Bytes (surrogatePair uc u.value) else [], ptr) := by
  have hiff : u.value < 0xDC00 ∨ 0xDFFF < u.value ↔ ¬ IsLowSurrogate u.value := by
    simp only [IsLowSurrogate]
    omega
  have hcode : secondHalf uc (92 :: 117 :: (u.bytes ++ ptr)) =
      if u.value < 0xDC00 ∨ 0xDFFF < u.value then .ok ([], ptr)
      else .ok (utf8Bytes (surrogatePair uc u.value), ptr) := rfl
  rw [hcode]
  simp only [hiff]
  split_ifs <;> rfl

/-- A high surrogate that no `\u` follows stands for nothing. -/
theorem secondHalf_lone {ps : List Piece} {close : Byte} (hclose : close = 34 ∨ close = 0)
    (h : ∀ u ps', ps = .unicode u :: ps' → False) (uc : Nat) (rest : List Byte) :
    secondHalf uc (pieceBytes ps ++ close :: rest) = .ok ([], pieceBytes ps ++ close :: rest) := by
  cases ps with
  | nil =>
    have h92 : close ≠ 92 := by rintro rfl; revert hclose; decide
    simp [secondHalf, pieceBytes, h92]
  | cons p ps =>
    cases p with
    | plain c hc => simp [secondHalf, Piece.bytes, hc.2.2]
    | escape c hc => simp [secondHalf, Piece.bytes, hc.2]
    | unicode u => exact (h u ps rfl).elim

/-- The second loop stops where the literal ends, with what it stands for. -/
theorem stringBytes_pieces {size n : Nat} {ps : List Piece} {close : Byte} {out : List Byte}
    (hclose : close = 34 ∨ close = 0) (hroom : out.length + (decode ps).length ≤ size)
    (hn : (pieceBytes ps).length < n) (rest : List Byte) :
    stringBytes size n (pieceBytes ps ++ close :: rest) out =
      .ok (out ++ decode ps, close :: rest) := by
  fun_induction decode ps generalizing out n with
  | case1 =>
    obtain ⟨n, rfl⟩ := Nat.exists_eq_succ_of_ne_zero (Nat.ne_of_gt hn)
    rw [List.append_nil]
    exact stringBytes_close hclose rest out
  | case2 c h ps ih =>
    obtain ⟨n, rfl⟩ := Nat.exists_eq_succ_of_ne_zero (Nat.ne_zero_of_lt hn)
    simp only [pieceBytes_cons, Piece.bytes, List.length_cons, List.cons_append,
      List.nil_append] at hn hroom ⊢
    rw [stringBytes_plain h (by omega), ih (by simp; omega) (by omega)]
    simp
  | case3 e h ps ih =>
    obtain ⟨n, rfl⟩ := Nat.exists_eq_succ_of_ne_zero (Nat.ne_zero_of_lt hn)
    simp only [pieceBytes_cons, Piece.bytes, List.length_cons, List.cons_append,
      List.nil_append] at hn hroom ⊢
    have he : escapeBytes e (pieceBytes ps ++ close :: rest) =
        .ok ([unescaped e], pieceBytes ps ++ close :: rest) := if_neg h.2
    rw [stringBytes_escape he (by simp; omega), ih (by simp; omega) (by omega)]
    simp
  | case4 u ps hbad ih =>
    obtain ⟨n, rfl⟩ := Nat.exists_eq_succ_of_ne_zero (Nat.ne_zero_of_lt hn)
    simp only [pieceBytes_cons, Piece.bytes, List.length_append, List.length_cons,
      List.cons_append, List.nil_append, List.append_assoc] at hn hroom ⊢
    rw [stringBytes_escape (by rw [escapeBytes_unicode, if_pos hbad]) (by simp; omega),
      ih (by simp; omega) (by omega), List.append_nil]
  | case5 u hbad hhigh u2 ps hlow ih =>
    obtain ⟨n, rfl⟩ := Nat.exists_eq_succ_of_ne_zero (Nat.ne_zero_of_lt hn)
    simp only [pieceBytes_cons, Piece.bytes, List.length_append, List.length_cons,
      List.cons_append, List.nil_append, List.append_assoc] at hn hroom ⊢
    rw [stringBytes_escape (by rw [escapeBytes_unicode, if_neg hbad, if_pos hhigh,
      secondHalf_unicode, if_pos hlow]) (by omega), ih (by simp; omega) (by omega),
      List.append_assoc]
  | case6 u hbad hhigh u2 ps hlow ih =>
    obtain ⟨n, rfl⟩ := Nat.exists_eq_succ_of_ne_zero (Nat.ne_zero_of_lt hn)
    simp only [pieceBytes_cons, Piece.bytes, List.length_append, List.length_cons,
      List.cons_append, List.nil_append, List.append_assoc] at hn hroom ⊢
    rw [stringBytes_escape (by rw [escapeBytes_unicode, if_neg hbad, if_pos hhigh,
      secondHalf_unicode, if_neg hlow]) (by simp; omega), ih (by simp; omega) (by omega),
      List.append_nil]
  | case7 u hbad hhigh ps hps ih =>
    obtain ⟨n, rfl⟩ := Nat.exists_eq_succ_of_ne_zero (Nat.ne_zero_of_lt hn)
    simp only [pieceBytes_cons, Piece.bytes, List.length_append, List.length_cons,
      List.cons_append, List.nil_append, List.append_assoc] at hn hroom ⊢
    rw [stringBytes_escape (by rw [escapeBytes_unicode, if_neg hbad, if_pos hhigh,
      secondHalf_lone hclose hps]) (by simp; omega), ih (by simp; omega) (by omega),
      List.append_nil]
  | case8 u ps hbad hhigh ih =>
    obtain ⟨n, rfl⟩ := Nat.exists_eq_succ_of_ne_zero (Nat.ne_zero_of_lt hn)
    simp only [pieceBytes_cons, Piece.bytes, List.length_append, List.length_cons,
      List.cons_append, List.nil_append, List.append_assoc] at hn hroom ⊢
    rw [stringBytes_escape (by rw [escapeBytes_unicode, if_neg hbad, if_neg hhigh]) (by omega),
      ih (by simp; omega) (by omega), List.append_assoc]

/-- The first loop at a byte that is no backslash. -/
theorem stringLength_plain {c : Byte} (h : IsPlain c) (ptr : List Byte) (len : Int) :
    stringLength (c :: ptr) len =
      (checked (toChecked (len + 1)) >>= fun len => stringLength ptr len) := by
  have hclose : ¬ (c = 34 ∨ c = 0) := not_or.mpr ⟨h.2.1, h.1⟩
  rw [stringLength.eq_def]
  simp only [if_neg hclose, if_neg h.2.2]

theorem stringLength_escape (e : Byte) (ptr : List Byte) (len : Int) :
    stringLength (92 :: e :: ptr) len =
      (checked (toChecked (len + 1)) >>= fun len => stringLength ptr len) := by
  have hclose : ¬ ((92 : Byte) = 34 ∨ (92 : Byte) = 0) := by decide
  rw [stringLength.eq_def]
  simp only [if_neg hclose, if_true]

/-- The first loop gets from `m` to `ptr` and counts `k` more, if an `int` can. -/
def Counts (k : Nat) (m ptr : List Byte) : Prop :=
  ∀ len : Int, 0 ≤ len → len ≤ intMax → stringLength m len =
    if len + k ≤ intMax then stringLength ptr (len + k) else .error (.fault .overflow)

theorem Counts.refl (m : List Byte) : Counts 0 m m := by
  intro len _ hmax
  rw [Nat.cast_zero, Int.add_zero, if_pos hmax]

theorem Counts.step {k : Nat} {m m' ptr : List Byte} (h : Counts k m' ptr)
    (hstep : ∀ len, stringLength m len =
      (checked (toChecked (len + 1)) >>= fun len => stringLength m' len)) :
    Counts (k + 1) m ptr := by
  intro len hlen hmax
  have hsum : len + 1 + k = len + (k + 1 : Nat) := by push_cast; omega
  rw [hstep, checked_toChecked_add_one hlen, ← hsum]
  by_cases hone : len + 1 ≤ intMax
  · rw [if_pos hone, parse_ok_bind, h (len + 1) (by omega) hone]
  · rw [if_neg hone, parse_error_bind, if_neg (by omega)]

theorem Counts.trans {j k : Nat} {m m' ptr : List Byte} (h : Counts j m m') (h' : Counts k m' ptr) :
    Counts (j + k) m ptr := by
  intro len hlen hmax
  have hsum : len + j + k = len + (j + k : Nat) := by push_cast; omega
  rw [h len hlen hmax, ← hsum]
  by_cases hj : len + j ≤ intMax
  · rw [if_pos hj, h' (len + j) (by omega) hj]
  · rw [if_neg hj, if_neg (by omega)]

theorem counts_piece (p : Piece) (ptr : List Byte) : Counts p.counted (p.bytes ++ ptr) ptr := by
  cases p with
  | plain c h => exact (Counts.refl ptr).step (stringLength_plain h ptr)
  | escape c h => exact (Counts.refl ptr).step (stringLength_escape c ptr)
  | unicode u =>
    obtain ⟨h1, h2, h3, h4⟩ := u.plain
    exact ((((Counts.refl ptr).step (stringLength_plain h4 _)).step (stringLength_plain h3 _)).step
      (stringLength_plain h2 _)).step (stringLength_plain h1 _) |>.step (stringLength_escape 117 _)

theorem counts_pieces (ps : List Piece) (ptr : List Byte) :
    Counts (countedLength ps) (pieceBytes ps ++ ptr) ptr := by
  induction ps with
  | nil => exact Counts.refl ptr
  | cons p ps ih =>
    rw [pieceBytes_cons, countedLength_cons, List.append_assoc]
    exact (counts_piece p _).trans ih

/-- `parse_string` on a literal with complete escapes. -/
theorem parseString_pieces (alloc : Allocator) (ps : List Piece) {close : Byte}
    (hclose : close = 34 ∨ close = 0) (rest : List Byte) :
    parseString alloc (34 :: (pieceBytes ps ++ close :: rest)) =
      if countedLength ps < intMax then
        if (alloc.malloc (countedLength ps + 1)).isNone then .error (.failed none)
        else .ok (decode ps, if close = 34 then rest else close :: rest)
      else .error (.fault .overflow) := by
  have hlength := counts_pieces ps (close :: rest) 0 le_rfl (by decide)
  have hstop : ∀ len : Int, stringLength (close :: rest) len = .ok len := fun len => by
    rw [stringLength, if_pos hclose]
  rw [Int.zero_add, hstop] at hlength
  rw [parseString, deref_cons, parse_ok_bind, if_neg (not_not.mpr rfl), List.tail_cons, hlength]
  by_cases hcount : (countedLength ps : Int) ≤ intMax
  · rw [if_pos hcount, parse_ok_bind, checked_toChecked_add_one (by omega)]
    by_cases hsize : (countedLength ps : Int) + 1 ≤ intMax
    · have hnat : ((countedLength ps : Int) + 1).toNat = countedLength ps + 1 := by omega
      rw [if_pos hsize, if_pos (by omega), parse_ok_bind, hnat]
      by_cases hnone : (alloc.malloc (countedLength ps + 1)).isNone
      · rw [if_pos hnone, if_pos hnone]
      · have hroom := length_decode_le ps
        rw [if_neg hnone, if_neg hnone, stringBytes_pieces hclose (by simp; omega) (by simp),
          parse_ok_bind, List.nil_append]
        dsimp only
        rw [put_of_le (by simp; omega), parse_ok_bind, cstring_append_zero (zero_notMem_decode ps)]
        rfl
    · rw [if_neg hsize, if_neg (by omega), parse_error_bind]
  · rw [if_neg hcount, if_neg (by omega), parse_error_bind]

/-! ## Unicode -/

end CgiFileStore.Json
