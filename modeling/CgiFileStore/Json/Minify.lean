import CgiFileStore.Json.RoundTrip

/-!
# cJSON_Minify

The function works in place, with a pointer that writes behind a pointer that reads. `Minifies`
says which bytes stay, and in front of the reading pointer the buffer holds them. A text keeps its
item, and the formatted text of an item becomes its unformatted text.
-/

namespace CgiFileStore.Json

open CSem

/-! ## The source -/

/-- `*into++=*json++`, without the steps of the pointers. -/
def copyByte (buf : List Byte) (into json : Nat) : Checked (List Byte) := do
  let c ← load buf json
  store buf into c

/-- `while (*json && *json!='\n') json++`, for at most `n` rounds. -/
def lineEnd (buf : List Byte) : Nat → Nat → Checked Nat
  | 0, _ => .error .read
  | n + 1, json => do
    let c ← load buf json
    if c ≠ 0 ∧ c ≠ 10 then lineEnd buf n (json + 1) else return json

/-- `while (*json && !(*json=='*' && json[1]=='/')) json++`. -/
def commentEnd (buf : List Byte) : Nat → Nat → Checked Nat
  | 0, _ => .error .read
  | n + 1, json => do
    let c ← load buf json
    if c = 0 then return json
    else if c = 42 then
      if (← load buf (json + 1)) = 47 then return json
      else commentEnd buf n (json + 1)
    else commentEnd buf n (json + 1)

/-- The loop over the inside of a literal. -/
def minifyLiteral : Nat → List Byte → Nat → Nat → Checked (List Byte × Nat × Nat)
  | 0, _, _, _ => .error .read
  | n + 1, buf, into, json => do
    let c ← load buf json
    if c = 0 ∨ c = 34 then return (buf, into, json)
    else if c = 92 then
      let buf ← copyByte buf into json
      let buf ← copyByte buf (into + 1) (json + 1)
      minifyLiteral n buf (into + 2) (json + 2)
    else
      let buf ← copyByte buf into json
      minifyLiteral n buf (into + 1) (json + 1)

def minifyLoop : Nat → List Byte → Nat → Nat → Checked (List Byte)
  | 0, _, _, _ => .error .read
  | n + 1, buf, into, json => do
    let c ← load buf json
    if c = 0 then store buf into 0
    else if c = 32 ∨ c = 9 ∨ c = 13 ∨ c = 10 then minifyLoop n buf into (json + 1)
    else
      let c1 ← if c = 47 then load buf (json + 1) else .ok 0
      if c = 47 ∧ c1 = 47 then
        let json ← lineEnd buf buf.length json
        minifyLoop n buf into json
      else if c = 47 ∧ c1 = 42 then
        let json ← commentEnd buf buf.length json
        minifyLoop n buf into (json + 2)
      else if c = 34 then
        let buf ← copyByte buf into json
        let (buf, into, json) ← minifyLiteral n buf (into + 1) (json + 1)
        let buf ← copyByte buf into json
        minifyLoop n buf (into + 1) (json + 1)
      else
        let buf ← copyByte buf into json
        minifyLoop n buf (into + 1) (json + 1)

/-- `cJSON_Minify`. -/
def cJSONMinify (json : List Byte) : Checked (List Byte) := minifyLoop json.length json 0 0

/-! ## What stays -/

/-- The inside of a literal. -/
inductive Inside : List Byte → Prop
  | nil : Inside []
  | plain (c) {w} (hc : IsPlain c) (h : Inside w) : Inside (c :: w)
  | escape (e) {w} (he : e ≠ 0) (h : Inside w) : Inside (92 :: e :: w)

/-- No `*/` ends in front of the last `*`. -/
def IsComment (body : List Byte) : Prop := 0 ∉ body ∧ ¬ ascii "*/" <:+: body ++ ascii "*"

/-- The string `t` is what stays of `s`: all but the blanks outside of literals, and the comments.
All literals and block comments are closed; the `/` of `/*/` opens the comment and closes it. -/
inductive Minifies : List Byte → List Byte → Prop
  | nil : Minifies [] []
  | blank (c) {s t} (hc : IsBlank c) (h : Minifies s t) : Minifies (c :: s) t
  | byte (c) {s t} (hc : c ≠ 0 ∧ ¬ IsBlank c ∧ c ≠ 34 ∧ c ≠ 47) (h : Minifies s t) :
      Minifies (c :: s) (c :: t)
  | slash {s t} (hs : s.head? ≠ some 47 ∧ s.head? ≠ some 42) (h : Minifies s t) :
      Minifies (47 :: s) (47 :: t)
  | line (body) {s t} (hbody : 0 ∉ body ∧ 10 ∉ body) (hs : s = [] ∨ ∃ r, s = 10 :: r)
      (h : Minifies s t) : Minifies (47 :: 47 :: (body ++ s)) t
  | comment (body) {s t} (hbody : IsComment body) (hstar : (body ++ ascii "*").head? = some 42)
      (h : Minifies s t) : Minifies (47 :: (body ++ (ascii "*/" ++ s))) t
  | literal (w) {s t} (hw : Inside w) (h : Minifies s t) :
      Minifies (34 :: (w ++ 34 :: s)) (34 :: (w ++ 34 :: t))

/-! ## The pointers -/

section

variable {out gap rest body s : List Byte} {n : Nat}

theorem load_split (out gap rest : List Byte) (c : Byte) :
    load (out ++ gap ++ c :: rest) (out.length + gap.length) = .ok c := by
  rw [← List.length_append]
  exact load_left (out ++ gap) rest c

theorem load_split_next (out gap rest : List Byte) (c e : Byte) :
    load (out ++ gap ++ c :: e :: rest) (out.length + gap.length + 1) = .ok e := by
  have h := load_split out (gap ++ [c]) rest e
  simp only [List.append_assoc, List.cons_append, List.nil_append, List.length_append,
    List.length_singleton] at h ⊢
  exact h

/-- The gap once the bytes `w` are copied: the last of the bytes in front of the reading pointer,
which nothing was written over. -/
def shifted (gap w : List Byte) : List Byte := (gap ++ w).drop w.length

@[simp]
theorem length_shifted (gap w : List Byte) : (shifted gap w).length = gap.length := by
  simp [shifted]

theorem shifted_nil (gap : List Byte) : shifted gap [] = gap := List.append_nil gap

theorem shifted_append (gap w rest : List Byte) :
    shifted gap w ++ rest = (gap ++ (w ++ rest)).drop w.length := by
  have hlen : w.length ≤ (gap ++ w).length := by simp
  rw [shifted, ← List.append_assoc, List.drop_append_of_le_length hlen]

theorem shifted_shifted (gap w w' : List Byte) :
    shifted (shifted gap w) w' = shifted gap (w ++ w') := by
  rw [shifted, shifted_append, List.drop_drop, shifted, List.length_append]

/-- A copied byte comes behind the bytes that were written. -/
theorem copyByte_split (out gap rest : List Byte) (c : Byte) :
    copyByte (out ++ gap ++ c :: rest) out.length (out.length + gap.length) =
      .ok (out ++ [c] ++ shifted gap [c] ++ rest) := by
  rw [copyByte, load_split, ok_bind, List.append_assoc]
  cases gap with
  | nil => simpa [shifted] using store_left out rest c c
  | cons g gap => simpa [shifted] using store_left out (gap ++ c :: rest) g c

/-- A line comment ends at the line feed or at the end of the string. -/
theorem lineEnd_split {c : Byte} (hbody : 0 ∉ body ∧ 10 ∉ body) (hc : c = 0 ∨ c = 10)
    (hn : body.length < n) (out rest : List Byte) :
    lineEnd (out ++ (body ++ c :: rest)) n out.length = .ok (out.length + body.length) := by
  obtain ⟨n, rfl⟩ := Nat.exists_eq_succ_of_ne_zero (Nat.ne_zero_of_lt hn)
  induction body generalizing out n with
  | nil =>
    have hstop : ¬ (c ≠ 0 ∧ c ≠ 10) := fun h => hc.elim h.1 h.2
    rw [List.nil_append, lineEnd, load_left, ok_bind, if_neg hstop]
    rfl
  | cons x body ih =>
    simp only [List.mem_cons, not_or] at hbody
    obtain ⟨n, rfl⟩ := Nat.exists_eq_succ_of_ne_zero (Nat.ne_zero_of_lt (Nat.lt_of_succ_lt_succ hn))
    have h := ih ⟨hbody.1.2, hbody.2.2⟩ (out ++ [x]) n (Nat.lt_of_succ_lt_succ hn)
    rw [List.cons_append, lineEnd, load_left, ok_bind,
      if_pos ⟨Ne.symm hbody.1.1, Ne.symm hbody.2.1⟩]
    simp only [List.append_assoc, List.cons_append, List.nil_append, List.length_append,
      List.length_singleton] at h
    rw [h, List.length_cons]
    congr 1
    omega

/-- A comment ends at its first `*/`, or at the end of the string. -/
theorem commentEnd_split (hbody : IsComment body)
    (hrest : (∃ r, rest = 0 :: r) ∨ ∃ r, rest = 42 :: 47 :: r) (hn : body.length < n)
    (out : List Byte) :
    commentEnd (out ++ (body ++ rest)) n out.length = .ok (out.length + body.length) := by
  obtain ⟨n, rfl⟩ := Nat.exists_eq_succ_of_ne_zero (Nat.ne_zero_of_lt hn)
  induction body generalizing out n with
  | nil =>
    obtain ⟨r, rfl⟩ | ⟨r, rfl⟩ := hrest
    · rw [List.nil_append, commentEnd, load_left, ok_bind, if_pos rfl]
      rfl
    · have hnext : load (out ++ 42 :: 47 :: r) (out.length + 1) = .ok 47 := by
        simpa using load_split_next out [] r 42 47
      rw [List.nil_append, commentEnd, load_left, ok_bind, if_neg (by decide), if_pos rfl, hnext,
        ok_bind, if_pos rfl]
      rfl
  | cons x body ih =>
    obtain ⟨h0, hend⟩ := hbody
    rw [List.mem_cons, not_or] at h0
    rw [List.cons_append, List.infix_cons_iff, not_or] at hend
    obtain ⟨n, rfl⟩ := Nat.exists_eq_succ_of_ne_zero (Nat.ne_zero_of_lt (Nat.lt_of_succ_lt_succ hn))
    have h := ih ⟨h0.2, hend.2⟩ (out ++ [x]) n (Nat.lt_of_succ_lt_succ hn)
    simp only [List.append_assoc, List.cons_append, List.nil_append, List.length_append,
      List.length_singleton] at h
    have hstep : .ok (out.length + (x :: body).length) =
        commentEnd (out ++ x :: (body ++ rest)) (n + 1) (out.length + 1) := by
      rw [h, List.length_cons]
      congr 1
      omega
    rw [List.cons_append, commentEnd, load_left, ok_bind, if_neg (Ne.symm h0.1), hstep]
    split_ifs with hx
    · obtain ⟨y, r, hy, hne⟩ : ∃ y r, body ++ rest = y :: r ∧ y ≠ 47 := by
        cases body with
        | nil => obtain ⟨r, rfl⟩ | ⟨r, rfl⟩ := hrest <;> exact ⟨_, _, rfl, by decide⟩
        | cons y body =>
          refine ⟨y, body ++ rest, rfl, ?_⟩
          rintro rfl
          exact hend.1 ⟨body ++ ascii "*", by rw [hx]; rfl⟩
      have hnext : load (out ++ x :: (body ++ rest)) (out.length + 1) = .ok y := by
        rw [hy]
        simpa using load_split_next out [] r x y
      rw [hnext, ok_bind, if_neg hne]
    · rfl

end

/-! ## The loops -/

theorem minifyLiteral_plain {c : Byte} (h : IsPlain c) (n : Nat) (out gap rest : List Byte) :
    minifyLiteral (n + 1) (out ++ gap ++ c :: rest) out.length (out.length + gap.length) =
      minifyLiteral n (out ++ [c] ++ shifted gap [c] ++ rest) (out ++ [c]).length
        ((out ++ [c]).length + (shifted gap [c]).length) := by
  have hclose : ¬ (c = 0 ∨ c = 34) := not_or.mpr ⟨h.1, h.2.1⟩
  rw [minifyLiteral, load_split, ok_bind, if_neg hclose, if_neg h.2.2, copyByte_split, ok_bind,
    length_shifted, List.length_append, List.length_singleton]
  congr 1
  omega

theorem minifyLiteral_escape (e : Byte) (n : Nat) (out gap rest : List Byte) :
    minifyLiteral (n + 1) (out ++ gap ++ 92 :: e :: rest) out.length (out.length + gap.length) =
      minifyLiteral n (out ++ [92, e] ++ shifted gap [92, e] ++ rest) (out ++ [92, e]).length
        ((out ++ [92, e]).length + (shifted gap [92, e]).length) := by
  have hcopy := copyByte_split (out ++ [92]) (shifted gap [92]) rest e
  rw [length_shifted, List.length_append, List.length_singleton, shifted_shifted] at hcopy
  have hindex : out.length + 1 + gap.length = out.length + gap.length + 1 := by omega
  rw [hindex] at hcopy
  rw [minifyLiteral, load_split, ok_bind, if_neg (by decide), if_pos rfl, copyByte_split, ok_bind,
    hcopy, ok_bind, length_shifted, List.length_append]
  simp only [List.append_assoc, List.cons_append, List.nil_append, List.length_cons,
    List.length_nil]
  congr 1
  omega

/-- The loop over a literal copies the bytes `w`, whatever follows them. -/
def Copies (w : List Byte) : Prop :=
  ∀ (n : Nat) (out gap rest : List Byte), ∃ m : Nat, n ≤ m ∧
    minifyLiteral (n + w.length) (out ++ gap ++ (w ++ rest)) out.length (out.length + gap.length) =
      minifyLiteral m (out ++ w ++ shifted gap w ++ rest) (out ++ w).length
        ((out ++ w).length + (shifted gap w).length)

theorem copies_nil : Copies [] := fun n out gap rest =>
  ⟨n, le_rfl, by rw [List.append_nil, shifted_nil]; rfl⟩

theorem copies_plain {c : Byte} (h : IsPlain c) : Copies [c] := fun n out gap rest =>
  ⟨n, le_rfl, minifyLiteral_plain h n out gap rest⟩

theorem copies_escape (e : Byte) : Copies [92, e] := fun n out gap rest =>
  ⟨n + 1, Nat.le_succ n, minifyLiteral_escape e (n + 1) out gap rest⟩

theorem Copies.append {w w' : List Byte} (h : Copies w) (h' : Copies w') : Copies (w ++ w') := by
  intro n out gap rest
  obtain ⟨m, hm, heq1⟩ := h (n + w'.length) out gap (w' ++ rest)
  obtain ⟨k, rfl⟩ := Nat.exists_eq_add_of_le hm
  obtain ⟨m', hm', heq2⟩ := h' (n + k) (out ++ w) (shifted gap w) rest
  refine ⟨m', by omega, ?_⟩
  have hfuel : n + (w ++ w').length = n + w'.length + w.length := by
    rw [List.length_append]
    omega
  have hfuel' : n + w'.length + k = n + k + w'.length := by omega
  rw [hfuel, List.append_assoc w, heq1, hfuel', heq2, List.append_assoc out, shifted_shifted]

theorem copies_inside {w : List Byte} (h : Inside w) : Copies w := by
  induction h with
  | nil => exact copies_nil
  | plain c hc h ih => exact (copies_plain hc).append ih
  | escape e he h ih => exact (copies_escape e).append ih

/-- The inside of a literal is copied, up to the quote or the end of the string. -/
theorem minifyLiteral_inside {w : List Byte} (h : Inside w) {close : Byte}
    (hclose : close = 0 ∨ close = 34) {n : Nat} (hn : w.length < n) (out gap rest : List Byte) :
    minifyLiteral n (out ++ gap ++ (w ++ close :: rest)) out.length (out.length + gap.length) =
      .ok (out ++ w ++ shifted gap w ++ close :: rest, (out ++ w).length,
        (out ++ w).length + (shifted gap w).length) := by
  obtain ⟨m, hm, heq⟩ := copies_inside h (n - w.length) out gap (close :: rest)
  obtain ⟨m, rfl⟩ : ∃ k, m = k + 1 := ⟨m - 1, by omega⟩
  rw [Nat.sub_add_cancel hn.le] at heq
  rw [heq, minifyLiteral, load_split, ok_bind, if_pos hclose]
  rfl

/-! ## Rounds -/

theorem minifyLoop_nil (n : Nat) (out gap beyond : List Byte) :
    minifyLoop (n + 1) (out ++ gap ++ 0 :: beyond) out.length (out.length + gap.length) =
      .ok (out ++ 0 :: (shifted gap [0] ++ beyond)) := by
  rw [minifyLoop, load_split, ok_bind, if_pos rfl, List.append_assoc]
  cases gap with
  | nil => exact store_left out beyond 0 0
  | cons g gap => simpa [shifted] using store_left out (gap ++ 0 :: beyond) g 0

theorem minifyLoop_blank {c : Byte} (h : IsBlank c) (n : Nat) (out gap rest : List Byte) :
    minifyLoop (n + 1) (out ++ gap ++ c :: rest) out.length (out.length + gap.length) =
      minifyLoop n (out ++ (gap ++ [c]) ++ rest) out.length (out.length + (gap ++ [c]).length) := by
  have h0 : c ≠ 0 := h.skipped.1
  have hblank : c = 32 ∨ c = 9 ∨ c = 13 ∨ c = 10 := by
    simp only [IsBlank] at h
    tauto
  rw [minifyLoop, load_split, ok_bind, if_neg h0, if_pos hblank, List.length_append,
    List.length_singleton]
  simp [Nat.add_assoc]

theorem minifyLoop_byte {c : Byte} (hc : c ≠ 0 ∧ ¬ IsBlank c ∧ c ≠ 34 ∧ c ≠ 47) (n : Nat)
    (out gap rest : List Byte) :
    minifyLoop (n + 1) (out ++ gap ++ c :: rest) out.length (out.length + gap.length) =
      minifyLoop n (out ++ [c] ++ shifted gap [c] ++ rest) (out ++ [c]).length
        ((out ++ [c]).length + (shifted gap [c]).length) := by
  obtain ⟨h0, hblank, h34, h47⟩ := hc
  have hblank : ¬ (c = 32 ∨ c = 9 ∨ c = 13 ∨ c = 10) := by
    simp only [IsBlank] at hblank
    tauto
  have hline : ∀ x, ¬ (c = 47 ∧ x) := fun x h => h47 h.1
  rw [minifyLoop, load_split, ok_bind, if_neg h0, if_neg hblank, if_neg h47, ok_bind]
  dsimp only
  rw [if_neg (hline _), if_neg (hline _), if_neg h34, copyByte_split, ok_bind,
    length_shifted, List.length_append, List.length_singleton]
  congr 1
  omega

theorem minifyLoop_line {body : List Byte} {c : Byte} (hbody : 0 ∉ body ∧ 10 ∉ body)
    (hc : c = 0 ∨ c = 10) (n : Nat) (out gap rest : List Byte) :
    minifyLoop (n + 1) (out ++ gap ++ 47 :: 47 :: (body ++ c :: rest)) out.length
        (out.length + gap.length) =
      minifyLoop n (out ++ (gap ++ 47 :: 47 :: body) ++ c :: rest) out.length
        (out.length + (gap ++ 47 :: 47 :: body).length) := by
  have hslashes : 0 ∉ 47 :: 47 :: body ∧ 10 ∉ 47 :: 47 :: body := by simp [hbody]
  have hlong : (47 :: 47 :: body).length <
      (out ++ gap ++ 47 :: 47 :: (body ++ c :: rest)).length := by
    simp
    omega
  have hend := lineEnd_split hslashes hc hlong (out ++ gap) rest
  rw [@List.length_append _ out gap] at hend
  rw [minifyLoop, load_split, ok_bind, if_neg (by decide), if_neg (by decide), if_pos rfl,
    load_split_next, ok_bind]
  dsimp only
  rw [if_pos ⟨rfl, rfl⟩]
  simp only [List.cons_append] at hend
  rw [hend, ok_bind]
  simp only [List.append_assoc, List.cons_append, List.length_append, Nat.add_assoc]

/-- A block comment is passed, and two bytes more: its `*/`, or the end of the string and the byte
behind it. -/
theorem minifyLoop_comment {body rest : List Byte} (hbody : IsComment body)
    (hstar : (body ++ rest).head? = some 42)
    (hrest : (∃ r, rest = 0 :: r) ∨ ∃ r, rest = 42 :: 47 :: r) (n : Nat) (out gap : List Byte) :
    minifyLoop (n + 1) (out ++ gap ++ 47 :: (body ++ rest)) out.length (out.length + gap.length) =
      minifyLoop n (out ++ gap ++ 47 :: (body ++ rest)) out.length
        (out.length + gap.length + body.length + 3) := by
  have hopen : IsComment (47 :: body) := by
    obtain ⟨h0, hend⟩ := hbody
    refine ⟨by simp [h0], ?_⟩
    rw [List.cons_append, List.infix_cons_iff, not_or]
    exact ⟨fun h => absurd (List.cons_prefix_cons.mp h).1 (by decide), hend⟩
  have hlong : (47 :: body).length < (out ++ gap ++ 47 :: (body ++ rest)).length := by
    have hpos : 0 < rest.length := by obtain ⟨r, rfl⟩ | ⟨r, rfl⟩ := hrest <;> simp
    simp
    omega
  have hcomment := commentEnd_split hopen hrest hlong (out ++ gap)
  rw [@List.length_append _ out gap, List.cons_append, List.length_cons] at hcomment
  obtain ⟨r, hr⟩ := List.head?_eq_some_iff.mp hstar
  have hnext : load (out ++ gap ++ 47 :: (body ++ rest)) (out.length + gap.length + 1) = .ok 42 := by
    rw [hr]
    exact load_split_next out gap r 47 42
  rw [minifyLoop, load_split, ok_bind, if_neg (by decide), if_neg (by decide), if_pos rfl, hnext,
    ok_bind]
  dsimp only
  rw [if_neg (by decide), if_pos ⟨rfl, rfl⟩, hcomment, ok_bind]
  rfl

theorem minifyLoop_closed {body : List Byte} (hbody : IsComment body)
    (hstar : (body ++ ascii "*").head? = some 42) (n : Nat) (out gap rest : List Byte) :
    minifyLoop (n + 1) (out ++ gap ++ 47 :: (body ++ (ascii "*/" ++ rest))) out.length
        (out.length + gap.length) =
      minifyLoop n (out ++ (gap ++ 47 :: (body ++ ascii "*/")) ++ rest) out.length
        (out.length + (gap ++ 47 :: (body ++ ascii "*/")).length) := by
  have hopen : (body ++ (ascii "*/" ++ rest)).head? = some 42 := by
    cases body with
    | nil => rfl
    | cons c body => exact hstar
  have hbuf : out ++ (gap ++ 47 :: (body ++ ascii "*/")) ++ rest =
      out ++ gap ++ 47 :: (body ++ (ascii "*/" ++ rest)) := by simp
  have hindex : out.length + (gap ++ 47 :: (body ++ ascii "*/")).length =
      out.length + gap.length + body.length + 3 := by
    simp [ascii]
    omega
  rw [hbuf, hindex]
  exact minifyLoop_comment hbody hopen (.inr ⟨rest, rfl⟩) n out gap

/-- A slash that opens no comment is copied. -/
theorem minifyLoop_slash {c : Byte} (hc : c ≠ 47 ∧ c ≠ 42) (n : Nat) (out gap rest : List Byte) :
    minifyLoop (n + 1) (out ++ gap ++ 47 :: c :: rest) out.length (out.length + gap.length) =
      minifyLoop n (out ++ [47] ++ shifted gap [47] ++ c :: rest) (out ++ [47]).length
        ((out ++ [47]).length + (shifted gap [47]).length) := by
  rw [minifyLoop, load_split, ok_bind, if_neg (by decide), if_neg (by decide), if_pos rfl,
    load_split_next, ok_bind]
  dsimp only
  rw [if_neg fun h => hc.1 h.2, if_neg fun h => hc.2 h.2, if_neg (by decide), copyByte_split,
    ok_bind, length_shifted, List.length_append, List.length_singleton]
  congr 1
  omega

theorem minifyLoop_quote (n : Nat) (out gap rest : List Byte) :
    minifyLoop (n + 1) (out ++ gap ++ 34 :: rest) out.length (out.length + gap.length) =
      minifyLiteral n (out ++ [34] ++ shifted gap [34] ++ rest) (out ++ [34]).length
          ((out ++ [34]).length + (shifted gap [34]).length) >>= fun p =>
        copyByte p.1 p.2.1 p.2.2 >>= fun buf => minifyLoop n buf (p.2.1 + 1) (p.2.2 + 1) := by
  have hindex : out.length + 1 + gap.length = out.length + gap.length + 1 := by omega
  rw [minifyLoop, load_split, ok_bind, if_neg (by decide), if_neg (by decide),
    if_neg (by decide), ok_bind]
  dsimp only
  rw [if_neg (by decide), if_neg (by decide), if_pos rfl, copyByte_split, ok_bind,
    length_shifted, List.length_append, List.length_singleton, hindex]

/-- A literal is copied with its quotes; without the second one, the NUL is copied instead. -/
theorem minifyLoop_literal {w : List Byte} (h : Inside w) {close : Byte}
    (hclose : close = 0 ∨ close = 34) {n : Nat} (hn : w.length < n) (out gap rest : List Byte) :
    minifyLoop (n + 1) (out ++ gap ++ 34 :: (w ++ close :: rest)) out.length
        (out.length + gap.length) =
      minifyLoop n (out ++ 34 :: (w ++ [close]) ++ shifted gap (34 :: (w ++ [close])) ++ rest)
        (out ++ 34 :: (w ++ [close])).length
        ((out ++ 34 :: (w ++ [close])).length + (shifted gap (34 :: (w ++ [close]))).length) := by
  have hinside := minifyLiteral_inside h hclose hn (out ++ [34]) (shifted gap [34]) rest
  have hbuf : out ++ [34] ++ w ++ [close] = out ++ 34 :: (w ++ [close]) := by simp
  have hgap : shifted (shifted (shifted gap [34]) w) [close] =
      shifted gap (34 :: (w ++ [close])) := by
    rw [shifted_shifted, shifted_shifted]
    rfl
  rw [minifyLoop_quote, hinside, ok_bind]
  dsimp only
  rw [copyByte_split, ok_bind, hgap, length_shifted, length_shifted, length_shifted, ← hbuf,
    @List.length_append _ _ [close], List.length_singleton]
  congr 1
  omega

/-! ## The whole string -/

theorem Minifies.length_le {s t : List Byte} (h : Minifies s t) : t.length ≤ s.length := by
  induction h <;> grind

/-- The string goes on behind the bytes `out`, and the reading pointer is a gap ahead of them. Of
the gap and the string stays what the terminator and the bytes in front of it do not cover. -/
theorem minifyLoop_minifies {s t : List Byte} (h : Minifies s t) {n : Nat} (hn : s.length < n)
    (out gap beyond : List Byte) :
    minifyLoop n (out ++ gap ++ (s ++ 0 :: beyond)) out.length (out.length + gap.length) =
      .ok (out ++ t ++ 0 :: (gap ++ (s ++ 0 :: beyond)).drop (t.length + 1)) := by
  induction h generalizing n out gap with
  | nil =>
    obtain ⟨n, rfl⟩ := Nat.exists_eq_succ_of_ne_zero (Nat.ne_zero_of_lt hn)
    rw [List.nil_append, minifyLoop_nil, shifted_append, List.append_nil]
    rfl
  | blank c hc h ih =>
    obtain ⟨n, rfl⟩ := Nat.exists_eq_succ_of_ne_zero (Nat.ne_zero_of_lt hn)
    rw [List.length_cons] at hn
    rw [List.cons_append, minifyLoop_blank hc, ih (Nat.lt_of_succ_lt_succ hn), List.append_assoc gap]
    rfl
  | @byte c s t hc h ih =>
    obtain ⟨n, rfl⟩ := Nat.exists_eq_succ_of_ne_zero (Nat.ne_zero_of_lt hn)
    rw [List.length_cons] at hn
    rw [List.cons_append, minifyLoop_byte hc, ih (Nat.lt_of_succ_lt_succ hn), shifted_append,
      List.drop_drop, List.append_assoc out, List.length_singleton, Nat.add_comm 1]
    rfl
  | @line body s t hbody hs h ih =>
    obtain ⟨n, rfl⟩ := Nat.exists_eq_succ_of_ne_zero (Nat.ne_zero_of_lt hn)
    have hlen : (47 :: 47 :: (body ++ s)).length = body.length + s.length + 2 := by simp
    rw [hlen] at hn
    have hloop := ih (n := n) (by omega) out (gap ++ 47 :: 47 :: body)
    obtain ⟨c, r, hc, hstop⟩ : ∃ c r, (c = 0 ∨ c = 10) ∧ s ++ 0 :: beyond = c :: r := by
      obtain rfl | ⟨r, rfl⟩ := hs
      · exact ⟨0, beyond, .inl rfl, rfl⟩
      · exact ⟨10, r ++ 0 :: beyond, .inr rfl, rfl⟩
    rw [hstop] at hloop
    rw [List.cons_append, List.cons_append, List.append_assoc body, hstop,
      minifyLoop_line hbody hc, hloop, List.append_assoc gap]
    rfl
  | @slash s t hs h ih =>
    obtain ⟨n, rfl⟩ := Nat.exists_eq_succ_of_ne_zero (Nat.ne_zero_of_lt hn)
    rw [List.length_cons] at hn
    have hloop := ih (Nat.lt_of_succ_lt_succ hn) (out ++ [47]) (shifted gap [47])
    obtain ⟨c, r, hc, hstop⟩ : ∃ c r, (c ≠ 47 ∧ c ≠ 42) ∧ s ++ 0 :: beyond = c :: r := by
      cases s with
      | nil => exact ⟨0, beyond, by decide, rfl⟩
      | cons c s => exact ⟨c, s ++ 0 :: beyond, by simpa using hs, rfl⟩
    rw [hstop] at hloop
    rw [List.cons_append, hstop, minifyLoop_slash hc, hloop, shifted_append, List.drop_drop,
      List.append_assoc out, List.length_singleton, Nat.add_comm 1]
    rfl
  | @comment body s t hbody hstar h ih =>
    obtain ⟨n, rfl⟩ := Nat.exists_eq_succ_of_ne_zero (Nat.ne_zero_of_lt hn)
    have hlen : (47 :: (body ++ (ascii "*/" ++ s))).length = body.length + s.length + 3 := by
      simp [ascii]
      omega
    have hsplit : 47 :: (body ++ (ascii "*/" ++ s)) ++ 0 :: beyond =
        47 :: (body ++ (ascii "*/" ++ (s ++ 0 :: beyond))) := by simp
    rw [hlen] at hn
    rw [hsplit, minifyLoop_closed hbody hstar, ih (by omega)]
    simp
  | @literal w s t hw h ih =>
    obtain ⟨n, rfl⟩ := Nat.exists_eq_succ_of_ne_zero (Nat.ne_zero_of_lt hn)
    have hlen : (34 :: (w ++ 34 :: s)).length = w.length + s.length + 2 := by
      simp
      omega
    have hsplit : 34 :: (w ++ 34 :: s) ++ 0 :: beyond = 34 :: (w ++ 34 :: (s ++ 0 :: beyond)) := by
      simp
    rw [hlen] at hn
    rw [hsplit, minifyLoop_literal hw (.inr rfl) (by omega), ih (by omega), shifted_append,
      List.drop_drop]
    simp [Nat.add_comm, Nat.add_left_comm]

/-- In place of a string stands what stays of it, and behind the terminator stand the bytes that
stood there. -/
theorem cJSONMinify_minifies {s t : List Byte} (h : Minifies s t) (beyond : List Byte) :
    cJSONMinify (s ++ 0 :: beyond) =
      .ok (t ++ 0 :: ((s ++ [0]).drop (t.length + 1) ++ beyond)) := by
  have hlong : s.length < (s ++ 0 :: beyond).length := by simp
  have hcover : t.length + 1 ≤ (s ++ [0]).length := by
    rw [List.length_append, List.length_singleton]
    exact Nat.succ_le_succ h.length_le
  have hloop := minifyLoop_minifies h hlong [] [] beyond
  have hsplit : s ++ 0 :: beyond = s ++ [0] ++ beyond := by simp
  rw [List.nil_append, List.nil_append, List.nil_append, hsplit,
    List.drop_append_of_le_length hcover, ← hsplit] at hloop
  exact hloop

theorem exists_cJSONMinify {s t : List Byte} (h : Minifies s t) (beyond : List Byte) :
    ∃ junk : List Byte, junk.length + t.length = s.length ∧
      cJSONMinify (s ++ 0 :: beyond) = .ok (t ++ 0 :: (junk ++ beyond)) := by
  have hle := h.length_le
  refine ⟨(s ++ [0]).drop (t.length + 1), ?_, cJSONMinify_minifies h beyond⟩
  rw [List.length_drop, List.length_append, List.length_singleton]
  omega

/-! ## Strings that are not closed -/

theorem load_outside {buf : List Byte} {i : Nat} (h : buf.length ≤ i) : load buf i = .error .read := by
  rw [load, List.getElem?_eq_none h]

theorem minifyLoop_outside (n into : Nat) {buf : List Byte} {json : Nat} (h : buf.length ≤ json) :
    minifyLoop n buf into json = .error .read := by
  cases n with
  | zero => rfl
  | succ n => rw [minifyLoop, load_outside h, error_bind]

/-- How the inside of a literal can go on: to a quote, or to the end of the string. -/
theorem exists_inside {s : List Byte} (h0 : 0 ∉ s) :
    (∃ w r, Inside w ∧ s = w ++ 34 :: r) ∨ Inside s ∨ ∃ w, Inside w ∧ s = w ++ [92] := by
  induction hlen : s.length using Nat.strong_induction_on generalizing s with
  | _ n ih =>
    cases s with
    | nil => exact .inr (.inl .nil)
    | cons c s =>
      rw [List.mem_cons, not_or] at h0
      rw [List.length_cons] at hlen
      by_cases hquote : c = 34
      · exact .inl ⟨[], s, .nil, by rw [hquote]; rfl⟩
      by_cases hescape : c = 92
      · subst hescape
        cases s with
        | nil => exact .inr (.inr ⟨[], .nil, rfl⟩)
        | cons e s =>
          rw [List.mem_cons, not_or] at h0
          rw [List.length_cons] at hlen
          have hcons : ∀ {w}, Inside w → Inside (92 :: e :: w) := .escape e (Ne.symm h0.2.1)
          obtain ⟨w, r, hw, rfl⟩ | hw | ⟨w, hw, rfl⟩ := ih s.length (by omega) h0.2.2 rfl
          · exact .inl ⟨92 :: e :: w, r, hcons hw, rfl⟩
          · exact .inr (.inl (hcons hw))
          · exact .inr (.inr ⟨92 :: e :: w, hcons hw, rfl⟩)
      · have hcons : ∀ {w}, Inside w → Inside (c :: w) := .plain c ⟨Ne.symm h0.1, hquote, hescape⟩
        obtain ⟨w, r, hw, rfl⟩ | hw | ⟨w, hw, rfl⟩ := ih s.length (by omega) h0.2 rfl
        · exact .inl ⟨c :: w, r, hcons hw, rfl⟩
        · exact .inr (.inl (hcons hw))
        · exact .inr (.inr ⟨c :: w, hcons hw, rfl⟩)

/-- Behind an open literal the loop reads past the end of the string. -/
theorem minifyLoop_open {w : List Byte} (h : Inside w) {n : Nat} (hn : w.length < n)
    (out gap : List Byte) :
    minifyLoop (n + 1) (out ++ gap ++ 34 :: (w ++ [0])) out.length (out.length + gap.length) =
      .error .read := by
  rw [minifyLoop_literal h (.inl rfl) hn out gap []]
  exact minifyLoop_outside n _ (by rw [List.append_nil, List.length_append])

/-- So it does where a backslash takes the NUL along. -/
theorem minifyLoop_backslash {w : List Byte} (h : Inside w) {n : Nat} (hn : w.length + 1 < n)
    (out gap : List Byte) :
    minifyLoop (n + 1) (out ++ gap ++ 34 :: (w ++ [92] ++ [0])) out.length
        (out.length + gap.length) = .error .read := by
  have hcopies : Copies (w ++ [92, 0]) := (copies_inside h).append (copies_escape 0)
  obtain ⟨m, -, hround⟩ := hcopies (n - (w.length + 2)) (out ++ [34]) (shifted gap [34]) []
  have hfuel : n - (w.length + 2) + (w ++ [92, 0]).length = n := by
    rw [List.length_append, List.length_cons, List.length_singleton]
    omega
  have hend : ∀ gap' : List Byte, minifyLiteral m (out ++ [34] ++ (w ++ [92, 0]) ++ gap' ++ [])
      (out ++ [34] ++ (w ++ [92, 0])).length
      ((out ++ [34] ++ (w ++ [92, 0])).length + gap'.length) = .error .read := by
    intro gap'
    cases m with
    | zero => rfl
    | succ m =>
      rw [minifyLiteral, load_outside (by rw [List.append_nil, List.length_append]), error_bind]
  rw [hfuel, List.append_nil, hend] at hround
  rw [minifyLoop_quote, List.append_assoc w]
  simp only [List.cons_append, List.nil_append]
  rw [hround, error_bind]

/-- The loop goes outside of the buffer from the string `s` on, however many rounds it may make. -/
def Leaves (s : List Byte) : Prop :=
  ∀ (n : Nat) (out gap : List Byte), s.length < n →
    minifyLoop n (out ++ gap ++ (s ++ [0])) out.length (out.length + gap.length) = .error .read

/-- What a round does in front of `s`, whatever follows. -/
theorem Leaves.round {w s : List Byte} (h : Leaves s) (hw : w ≠ [])
    (hround : ∀ (n : Nat) (out gap : List Byte), w.length ≤ n → ∃ out' gap' : List Byte,
      minifyLoop (n + 1) (out ++ gap ++ (w ++ (s ++ [0]))) out.length (out.length + gap.length) =
        minifyLoop n (out' ++ gap' ++ (s ++ [0])) out'.length (out'.length + gap'.length)) :
    Leaves (w ++ s) := by
  intro n out gap hn
  have hpos := List.length_pos_iff.mpr hw
  rw [List.length_append] at hn
  obtain ⟨n, rfl⟩ : ∃ m, n = m + 1 := ⟨n - 1, by omega⟩
  obtain ⟨out', gap', heq⟩ := hround n out gap (by omega)
  rw [List.append_assoc w, heq]
  exact h n out' gap' (by omega)

/-- A block comment without its end leads two bytes past the NUL. -/
theorem leaves_comment {s : List Byte} (h : IsComment s) (hstar : s.head? = some 42) :
    Leaves (47 :: s) := by
  intro n out gap hn
  obtain ⟨n, rfl⟩ := Nat.exists_eq_succ_of_ne_zero (Nat.ne_zero_of_lt hn)
  rw [List.cons_append, minifyLoop_comment h (by simp [hstar]) (.inl ⟨[], rfl⟩)]
  exact minifyLoop_outside n _ (by simp; omega)

section

variable {s : List Byte} (h0 : 0 ∉ s) (ih : ∀ r, r <:+ s → (∃ t, Minifies r t) ∨ Leaves r)
include h0 ih

theorem quote_or_leaves : (∃ t, Minifies (34 :: s) t) ∨ Leaves (34 :: s) := by
  obtain ⟨w, r, hw, rfl⟩ | hw | ⟨w, hw, rfl⟩ := exists_inside h0
  · have hr := ih r ⟨w ++ [34], by simp⟩
    refine hr.imp (fun ⟨t, ht⟩ => ⟨_, .literal w hw ht⟩) fun hr => ?_
    have hleaves : Leaves (34 :: (w ++ [34]) ++ r) := by
      refine hr.round (by simp) fun n out gap hn => ?_
      rw [List.length_cons, List.length_append] at hn
      have heq := minifyLoop_literal hw (.inr rfl) (n := n) (by omega) out gap (r ++ [0])
      have hsplit : 34 :: (w ++ [34]) ++ (r ++ [0]) = 34 :: (w ++ 34 :: (r ++ [0])) := by simp
      exact ⟨_, _, hsplit ▸ heq⟩
    simpa using hleaves
  · right
    intro n out gap hn
    rw [List.length_cons] at hn
    obtain ⟨n, rfl⟩ : ∃ m, n = m + 1 := ⟨n - 1, by omega⟩
    exact minifyLoop_open hw (by omega) out gap
  · right
    intro n out gap hn
    rw [List.length_cons, List.length_append, List.length_singleton] at hn
    obtain ⟨n, rfl⟩ : ∃ m, n = m + 1 := ⟨n - 1, by omega⟩
    exact minifyLoop_backslash hw (by omega) out gap

theorem slash_or_leaves : (∃ t, Minifies (47 :: s) t) ∨ Leaves (47 :: s) := by
  by_cases hline : s.head? = some 47
  · obtain ⟨r, rfl⟩ := List.head?_eq_some_iff.mp hline
    rw [List.mem_cons, not_or] at h0
    -- the line goes on to a line feed or to the end of the string
    obtain ⟨body, r', hbody, hr', rfl⟩ : ∃ body r', 10 ∉ body ∧ (r' = [] ∨ ∃ v, r' = 10 :: v) ∧
        r = body ++ r' := by
      by_cases hmem : 10 ∈ r
      · obtain ⟨body, v, rfl, hbody⟩ := List.eq_append_cons_of_mem hmem
        exact ⟨body, 10 :: v, hbody, .inr ⟨v, rfl⟩, rfl⟩
      · exact ⟨r, [], hmem, .inl rfl, (List.append_nil r).symm⟩
    have hnul : 0 ∉ body ∧ 10 ∉ body := ⟨fun h => h0.2 (List.mem_append_left _ h), hbody⟩
    have hr := ih r' ⟨47 :: body, rfl⟩
    refine hr.imp (fun ⟨t, ht⟩ => ⟨t, .line body hnul hr' ht⟩) fun hr => ?_
    refine hr.round (w := 47 :: 47 :: body) (by simp) fun n out gap _ => ?_
    obtain ⟨c, v, hc, hstop⟩ : ∃ c v, (c = 0 ∨ c = 10) ∧ r' ++ [0] = c :: v := by
      obtain rfl | ⟨v, rfl⟩ := hr'
      · exact ⟨0, [], .inl rfl, rfl⟩
      · exact ⟨10, v ++ [0], .inr rfl, rfl⟩
    rw [hstop]
    exact ⟨out, _, minifyLoop_line hnul hc n out gap v⟩
  by_cases hstar : s.head? = some 42
  · by_cases hend : ascii "*/" <:+: s
    · obtain ⟨body, r, hs, hfirst⟩ := Search.exists_leftmost (by decide) hend
      rw [List.append_assoc] at hs
      have hbody : IsComment body := by
        refine ⟨fun h => h0 ?_, hfirst⟩
        rw [hs]
        exact List.mem_append_left _ h
      have hopen : (body ++ ascii "*").head? = some 42 := by
        rw [hs] at hstar
        cases body with
        | nil => rfl
        | cons c body => exact hstar
      have hr := ih r ⟨body ++ ascii "*/", by rw [hs, List.append_assoc]⟩
      rw [hs]
      refine hr.imp (fun ⟨t, ht⟩ => ⟨t, .comment body hbody hopen ht⟩) fun hr => ?_
      have hleaves : Leaves (47 :: (body ++ ascii "*/") ++ r) :=
        hr.round (by simp) fun n out gap _ => ⟨out, gap ++ 47 :: (body ++ ascii "*/"), by
          simpa using minifyLoop_closed hbody hopen n out gap (r ++ [0])⟩
      simpa using hleaves
    · have hlast : ¬ ascii "*/" <:+: s ++ ascii "*" := by
        intro h
        obtain hsuffix | hinfix := List.infix_concat_iff.mp h
        · obtain hnil | ⟨t, ht, -⟩ := List.suffix_concat_iff.mp hsuffix
          · cases hnil
          · have hbyte := congrArg List.getLast? ht
            rw [List.getLast?_concat] at hbyte
            exact absurd hbyte (by decide)
        · exact hend hinfix
      exact .inr (leaves_comment ⟨h0, hlast⟩ hstar)
  · have hs := ih s (List.suffix_refl s)
    refine hs.imp (fun ⟨t, ht⟩ => ⟨47 :: t, .slash ⟨hline, hstar⟩ ht⟩) fun hs => ?_
    refine hs.round (w := [47]) (by simp) fun n out gap _ => ?_
    obtain ⟨c, v, hc, hstop⟩ : ∃ c v, (c ≠ 47 ∧ c ≠ 42) ∧ s ++ [0] = c :: v := by
      cases s with
      | nil => exact ⟨0, [], by decide, rfl⟩
      | cons c s =>
        exact ⟨c, s ++ [0], ⟨fun h => hline (by rw [h]; rfl), fun h => hstar (by rw [h]; rfl)⟩, rfl⟩
    have hround := minifyLoop_slash hc n out gap v
    rw [hstop]
    exact ⟨_, _, hround⟩

end

theorem minifies_or_leaves {s : List Byte} (h0 : 0 ∉ s) :
    ∀ r, r <:+ s → (∃ t, Minifies r t) ∨ Leaves r := by
  induction s with
  | nil =>
    intro r hr
    rw [List.suffix_nil.mp hr]
    exact .inl ⟨[], .nil⟩
  | cons c s ih =>
    intro r hr
    rw [List.mem_cons, not_or] at h0
    obtain rfl | hr := List.suffix_cons_iff.mp hr
    · have hs := ih h0.2 s (List.suffix_refl s)
      by_cases hblank : IsBlank c
      · refine hs.imp (fun ⟨t, ht⟩ => ⟨t, .blank c hblank ht⟩) fun hs => ?_
        exact hs.round (w := [c]) (by simp) fun n out gap _ =>
          ⟨out, gap ++ [c], minifyLoop_blank hblank n out gap (s ++ [0])⟩
      by_cases hquote : c = 34
      · exact hquote ▸ quote_or_leaves h0.2 (ih h0.2)
      by_cases hslash : c = 47
      · exact hslash ▸ slash_or_leaves h0.2 (ih h0.2)
      have hbyte : c ≠ 0 ∧ ¬ IsBlank c ∧ c ≠ 34 ∧ c ≠ 47 := ⟨Ne.symm h0.1, hblank, hquote, hslash⟩
      refine hs.imp (fun ⟨t, ht⟩ => ⟨c :: t, .byte c hbyte ht⟩) fun hs => ?_
      exact hs.round (w := [c]) (by simp) fun n out gap _ =>
        ⟨out ++ [c], shifted gap [c], minifyLoop_byte hbyte n out gap (s ++ [0])⟩
    · exact ih h0.2 r hr

/-- `cJSON_Minify` stays inside the block of its string exactly if the literals and the block
comments in it are closed. Then it leaves what `Minifies` says, with a terminator, and behind that
the bytes that stood there. -/
theorem cJSONMinify_eq (s : List Byte) (h0 : 0 ∉ s) :
    (∀ t, Minifies s t → t.length ≤ s.length ∧
        cJSONMinify (s ++ [0]) = .ok (t ++ 0 :: (s ++ [0]).drop (t.length + 1))) ∧
      ((¬ ∃ t, Minifies s t) → ∀ n, s.length < n → minifyLoop n (s ++ [0]) 0 0 = .error .read) := by
  refine ⟨fun t ht => ⟨ht.length_le, ?_⟩, fun hopen n hn => ?_⟩
  · simpa using cJSONMinify_minifies ht []
  · have hleaves := (minifies_or_leaves h0 s (List.suffix_refl s)).resolve_left hopen
    exact hleaves n [] [] hn

/-- A literal with an escaped quote, and a comment that is closed as soon as it is opened. -/
theorem cJSONMinify_eq_open :
    (∀ t, Minifies (ascii "\"\\\"\" /*/") t → t.length ≤ 8 ∧
        cJSONMinify (ascii "\"\\\"\" /*/" ++ [0]) =
          .ok (t ++ 0 :: (ascii "\"\\\"\" /*/" ++ [0]).drop (t.length + 1))) ∧
      ((¬ ∃ t, Minifies (ascii "\"\\\"\" /*/") t) → ∀ n, 8 < n →
        minifyLoop n (ascii "\"\\\"\" /*/" ++ [0]) 0 0 = .error .read) :=
  cJSONMinify_eq _ (by decide +kernel)

example : (cJSONMinify (ascii "[1, /* two */ \"a b\"] // end" ++ [0])).map cstring =
    .ok (ascii "[1,\"a b\"]") := by
  decide +kernel

/-! ## Texts -/

/-- The part `w` of a string shrinks to `w'`, whatever follows it. -/
def Shrinks (w w' : List Byte) : Prop :=
  ∀ s t, Minifies s t → Minifies (w ++ s) (w' ++ t)

theorem Shrinks.minifies {w w' : List Byte} (h : Shrinks w w') : Minifies w w' := by
  simpa using h [] [] .nil

theorem shrinks_nil : Shrinks [] [] := fun _ _ h => h

theorem Shrinks.append {w w' v v' : List Byte} (h : Shrinks w w') (h' : Shrinks v v') :
    Shrinks (w ++ v) (w' ++ v') := fun s t hs => by
  rw [List.append_assoc, List.append_assoc]
  exact h _ _ (h' s t hs)

theorem shrinks_blank {c : Byte} (h : IsBlank c) : Shrinks [c] [] := fun _ _ => .blank c h

theorem shrinks_space {ws : List Byte} (h : IsSpace ws) : Shrinks ws [] := by
  induction ws with
  | nil => exact shrinks_nil
  | cons c ws ih =>
    exact (shrinks_blank (h c List.mem_cons_self)).append
      (ih fun x hx => h x (List.mem_cons_of_mem _ hx))

/-- Bytes that `cJSON_Minify` copies one by one. -/
def IsKept (c : Byte) : Prop := c ≠ 0 ∧ ¬ IsBlank c ∧ c ≠ 34 ∧ c ≠ 47

instance (c : Byte) : Decidable (IsKept c) := inferInstanceAs (Decidable (_ ∧ _))

theorem shrinks_byte {c : Byte} (h : IsKept c) : Shrinks [c] [c] := fun _ _ => .byte c h

theorem shrinks_kept {w : List Byte} (h : ∀ c ∈ w, IsKept c) : Shrinks w w := by
  induction w with
  | nil => exact shrinks_nil
  | cons c w ih =>
    exact (shrinks_byte (h c List.mem_cons_self)).append
      (ih fun x hx => h x (List.mem_cons_of_mem _ hx))

theorem inside_pieces (ps : List Piece) : Inside (pieceBytes ps) := by
  induction ps with
  | nil => exact .nil
  | cons p ps ih =>
    rw [pieceBytes_cons]
    cases p with
    | plain c h => exact .plain c h ih
    | escape e h => exact .escape e h.1 ih
    | unicode u =>
      obtain ⟨h1, h2, h3, h4⟩ := u.plain
      exact .escape 117 (by decide) (.plain _ h1 (.plain _ h2 (.plain _ h3 (.plain _ h4 ih))))

theorem shrinks_quoted (ps : List Piece) : Shrinks (quoted ps) (quoted ps) := fun s t h => by
  simpa [quoted] using Minifies.literal (pieceBytes ps) (inside_pieces ps) h

theorem shrinks_intercalate {α : Type} {sep sep' : List Byte} (hsep : Shrinks sep sep')
    {f g : α → List Byte} {xs : List α} (h : ∀ x ∈ xs, Shrinks (f x) (g x)) :
    Shrinks (sep.intercalate (xs.map f)) (sep'.intercalate (xs.map g)) := by
  induction xs with
  | nil => exact shrinks_nil
  | cons x xs ih =>
    have hx := h x List.mem_cons_self
    cases xs with
    | nil => simpa using hx
    | cons y xs =>
      have hrest := ih fun z hz => h z (List.mem_cons_of_mem _ hz)
      simp only [List.map_cons, List.intercalate_cons_cons] at hrest ⊢
      exact (hx.append hsep).append hrest

theorem shrinks_block {opening close : Byte} (hopening : IsKept opening) (hclose : IsKept close)
    (blank : Space) {α : Type} {f g : α → List Byte} {xs : List α}
    (h : ∀ x ∈ xs, Shrinks (f x) (g x)) :
    Shrinks (block opening close blank (xs.map f)) (block opening close noSpace (xs.map g)) := by
  have hcomma : Shrinks [44] [44] := shrinks_byte (by decide)
  have hinside := (shrinks_space blank.2).append (shrinks_intercalate hcomma h)
  exact (shrinks_byte hopening).append (hinside.append (shrinks_byte hclose))

theorem isKept_of_isDigit {c : Byte} (h : isDigit c = true) : IsKept c := by
  simp only [isDigit, Bool.and_eq_true, decide_eq_true_eq] at h
  simp only [IsKept, IsBlank]
  grind

theorem isKept_bytes (t : NumberText) : ∀ c ∈ t.bytes, IsKept c := by
  have hdigits : ∀ {ds}, IsDigits ds → ∀ c ∈ ds, IsKept c := fun h c hc =>
    isKept_of_isDigit (h c hc)
  have hexponent : ∀ e : Exponent, ∀ c ∈ e.bytes, IsKept c := by
    intro e c hc
    simp only [Exponent.bytes, List.mem_cons, List.mem_append, Option.mem_toList] at hc
    rcases hc with rfl | hc | hc
    · obtain h | h := e.isMark <;> rw [h] <;> decide
    · obtain rfl | rfl := e.isSign c hc <;> decide
    · exact hdigits e.isDigits c hc
  intro c hc
  simp only [NumberText.bytes, List.mem_append] at hc
  rcases hc with ((hc | hc) | hc) | hc
  · split_ifs at hc
    · obtain rfl := List.mem_singleton.mp hc
      decide
    · cases hc
  · split_ifs at hc
    · obtain rfl := List.mem_singleton.mp hc
      decide
    · exact hdigits t.isInteger c hc
  · split_ifs at hc
    · cases hc
    · obtain rfl | hc := List.mem_cons.mp hc
      · decide
      · exact hdigits t.isFraction c hc
  · cases he : t.exponent with
    | none => simp [he] at hc
    | some e => exact hexponent e c (by simpa [he] using hc)

/-- Of a text stays a text of the same item, of which everything stays. -/
theorem exists_shrinks {d : Doubles} {item : JsonItem d.Double} {t : List Byte}
    (h : Text d item t) : ∃ t', Shrinks t t' ∧ Shrinks t' t' ∧ Text d item t' := by
  have hself : ∀ {item : JsonItem d.Double} {t : List Byte}, Text d item t → Shrinks t t →
      ∃ t', Shrinks t t' ∧ Shrinks t' t' ∧ Text d item t' := fun h hs => ⟨_, hs, hs, h⟩
  induction h with
  | null => exact hself .null (shrinks_kept (by decide +kernel))
  | false => exact hself .false (shrinks_kept (by decide +kernel))
  | true => exact hself .true (shrinks_kept (by decide +kernel))
  | number t valueint hfits hint =>
    exact hself (.number t valueint hfits hint) (shrinks_kept (isKept_bytes t))
  | string ps => exact hself (.string ps) (shrinks_quoted ps)
  | array blank chunks h ih =>
    choose! text hshrinks hkept htext using ih
    let bare (e : Chunk (JsonItem d.Double)) : Chunk (JsonItem d.Double) :=
      ⟨noSpace, e.value, text e, noSpace⟩
    have hchunk : ∀ e ∈ chunks, Shrinks e.bytes (bare e).bytes := by
      intro e he
      have hbytes := ((shrinks_space e.before.2).append (hshrinks e he)).append
        (shrinks_space e.after.2)
      exact hbytes
    have hbare : ∀ e ∈ chunks, Shrinks (bare e).bytes (bare e).bytes := fun e he => by
      simpa [bare, Chunk.bytes, noSpace] using hkept e he
    have harray := Text.array (d := d) noSpace (chunks.map bare) (by simpa [bare] using htext)
    rw [List.map_map, List.map_map] at harray
    exact ⟨_, shrinks_block (by decide) (by decide) blank hchunk,
      shrinks_block (by decide) (by decide) noSpace hbare, harray⟩
  | object blank members h ih =>
    choose! text hshrinks hkept htext using ih
    let bare (e : Chunk (Name × JsonItem d.Double)) : Chunk (Name × JsonItem d.Double) :=
      ⟨noSpace, (⟨e.value.1.pieces, noSpace, noSpace⟩, e.value.2), text e, noSpace⟩
    have hcolon : Shrinks [58] [58] := shrinks_byte (by decide)
    have hname : ∀ n : Name,
        Shrinks (Chunk.nameBytes n) (Chunk.nameBytes ⟨n.pieces, noSpace, noSpace⟩) := fun n =>
      ((shrinks_quoted n.pieces).append (shrinks_space n.before.2)).append
        (hcolon.append (shrinks_space n.after.2))
    have hchunk : ∀ e ∈ members, Shrinks e.named.bytes (bare e).named.bytes := fun e he =>
      ((shrinks_space e.before.2).append ((hname e.value.1).append (hshrinks e he))).append
        (shrinks_space e.after.2)
    have hbare : ∀ e ∈ members, Shrinks (bare e).named.bytes (bare e).named.bytes := fun e he =>
      ((shrinks_space noSpace.2).append ((hname _).append (hkept e he))).append
        (shrinks_space noSpace.2)
    have hobject := Text.object (d := d) noSpace (members.map bare) (by simpa [bare] using htext)
    rw [List.map_map, List.map_map] at hobject
    exact ⟨_, shrinks_block (by decide) (by decide) blank hchunk,
      shrinks_block (by decide) (by decide) noSpace hbare, hobject⟩

/-- `cJSON_Minify` leaves in place of a text a text of the same item, which it would not change
again. It fits in front of what stands behind the text, and is parsed to the item. -/
theorem cJSONMinify_text (d : Doubles) (alloc : Allocator) (hgrants : Grants alloc)
    (item : JsonItem d.Double) (t : List Byte) (h : Text d item t) (hlen : t.length < 2 ^ 31)
    (before after : Space) (beyond : List Byte) :
    ∃ t' junk : List Byte,
      cJSONMinify (before.1 ++ t ++ (after.1 ++ 0 :: beyond)) =
          .ok (t' ++ 0 :: (junk ++ beyond)) ∧
        t'.length + junk.length = before.1.length + t.length + after.1.length ∧
        cJSONMinify (t' ++ 0 :: (junk ++ beyond)) = .ok (t' ++ 0 :: (junk ++ beyond)) ∧
        cJSONParseWithOpts d alloc true (t' ++ 0 :: (junk ++ beyond)) =
          .ok (item, 0 :: (junk ++ beyond)) := by
  obtain ⟨t', hshrinks, hkept, htext⟩ := exists_shrinks h
  have hall := ((shrinks_space before.2).append hshrinks).append (shrinks_space after.2)
  obtain ⟨junk, hjunk, hminify⟩ := exists_cJSONMinify hall.minifies beyond
  simp only [List.nil_append, List.append_nil, List.append_assoc, List.length_append] at hjunk hminify
  obtain ⟨nothing, hnothing, hagain⟩ := exists_cJSONMinify hkept.minifies (junk ++ beyond)
  obtain rfl : nothing = [] := List.length_eq_zero_iff.mp (by omega)
  have hshort : t'.length < 2 ^ 31 := hshrinks.minifies.length_le.trans_lt hlen
  have hparse := parse_text d hgrants htext hshort noSpace
    ⟨0, junk ++ beyond, rfl, .inl (by decide)⟩
  refine ⟨t', junk, ?_, by omega, hagain, cJSONParseWithOpts_true hparse rfl⟩
  rw [List.append_assoc, hminify]

theorem cJSONMinify_text_object :
    ∃ t' junk : List Byte,
      cJSONMinify (ascii "\x7b \"a b\" :\tnull\x7d" ++ ([10] ++ [0])) = .ok (t' ++ 0 :: (junk ++ [])) ∧
        t'.length + junk.length = 16 ∧
        cJSONMinify (t' ++ 0 :: (junk ++ [])) = .ok (t' ++ 0 :: (junk ++ [])) ∧
        cJSONParseWithOpts Doubles.rational Allocator.zeroed true (t' ++ 0 :: (junk ++ [])) =
          .ok (.object [(ascii "a b", .null)], 0 :: (junk ++ [])) :=
  cJSONMinify_text Doubles.rational Allocator.zeroed grants_zeroed _ _
    (.object noSpace [⟨oneBlank 32 (by decide),
      (⟨[.plain 97 (by decide), .plain 32 (by decide), .plain 98 (by decide)],
        oneBlank 32 (by decide), oneBlank 9 (by decide)⟩, .null), ascii "null", noSpace⟩]
      (by
        simp only [List.mem_cons, List.not_mem_nil, or_false, forall_eq]
        exact .null))
    (by decide) noSpace (oneBlank 10 (by decide)) []

/-! ## Printed texts -/

theorem isKept_of_mem {c : Byte} (h : isDigit c = true ∨ c ∈ ascii "+-.einfa") : IsKept c := by
  obtain h | h := h
  · exact isKept_of_isDigit h
  · have hall : ∀ c ∈ ascii "+-.einfa", IsKept c := by decide +kernel
    exact hall c h

theorem shrinks_printNumber (d : Doubles) (valueint : Int) (valuedouble : d.Double) :
    Shrinks (printNumber d valueint valuedouble) (printNumber d valueint valuedouble) := by
  have hsprintf : ∀ fmt, Shrinks (d.sprintf fmt valuedouble) (d.sprintf fmt valuedouble) :=
    fun fmt => shrinks_kept fun c hc => isKept_of_mem (d.mem_sprintf fmt valuedouble c hc)
  unfold printNumber
  split_ifs
  · exact shrinks_kept (by decide +kernel)
  · refine shrinks_kept fun c hc => isKept_of_mem ((mem_sprintfInt hc).imp id fun h => ?_)
    obtain rfl : c = 45 := by simpa [ascii] using h
    decide
  all_goals exact hsprintf _

theorem shrinks_printStringPtr (s : List Byte) :
    Shrinks (printStringPtr s) (printStringPtr s) := by
  obtain ⟨ps, hps, -⟩ := exists_pieces s
  exact hps ▸ shrinks_quoted ps

theorem shrinks_tabs (depth : Nat) : Shrinks (tabs depth) [] :=
  shrinks_space fun _ hc => .inr (.inl (List.eq_of_mem_replicate hc))

theorem shrinks_printArray {α : Type} {children : List α} {f g : α → List Byte}
    (h : ∀ c ∈ children, Shrinks (f c) (g c)) :
    Shrinks (printArray true (children.map f)) (printArray false (children.map g)) := by
  by_cases hnil : children = []
  · subst hnil
    exact shrinks_kept (w := ascii "[]") (by decide +kernel)
  · have hcomma : Shrinks (ascii "," ++ ascii " ") (ascii ",") :=
      (shrinks_byte (by decide)).append (shrinks_blank (by decide))
    rw [printArray, printArray, if_neg (mt List.map_eq_nil_iff.mp hnil),
      if_neg (mt List.map_eq_nil_iff.mp hnil)]
    exact ((shrinks_byte (by decide)).append (shrinks_intercalate hcomma h)).append
      (shrinks_byte (by decide))

theorem shrinks_printObject {α : Type} {children : List α} {f g : α → List Byte × List Byte}
    (depth depth' : Nat) (hname : ∀ c ∈ children, Shrinks (f c).1 (g c).1)
    (h : ∀ c ∈ children, Shrinks (f c).2 (g c).2) :
    Shrinks (printObject true depth (children.map f)) (printObject false depth' (children.map g)) := by
  have hopen : Shrinks (ascii "\x7b") (ascii "\x7b") := shrinks_byte (by decide)
  have hclose : Shrinks (ascii "\x7d") (ascii "\x7d") := shrinks_byte (by decide)
  have hline : Shrinks (ascii "\n") [] := shrinks_blank (by decide)
  by_cases hnil : children = []
  · subst hnil
    exact (hopen.append (hline.append (shrinks_tabs (depth - 1)))).append hclose
  · have hcomma : Shrinks (ascii "," ++ ascii "\n") (ascii ",") :=
      (shrinks_byte (by decide)).append hline
    have hcolon : Shrinks (ascii ":" ++ ascii "\t") (ascii ":") :=
      (shrinks_byte (by decide)).append (shrinks_blank (by decide))
    have hmember : ∀ c ∈ children,
        Shrinks (printMember true (depth + 1) (f c)) (printMember false (depth' + 1) (g c)) :=
      fun c hc => (((shrinks_tabs (depth + 1)).append (hname c hc)).append hcolon).append (h c hc)
    rw [printObject, printObject, if_neg (mt List.map_eq_nil_iff.mp hnil),
      if_neg (mt List.map_eq_nil_iff.mp hnil), List.map_map, List.map_map]
    exact (((hopen.append hline).append (shrinks_intercalate hcomma hmember)).append
      (hline.append (shrinks_tabs depth))).append hclose

/-- Without the formatting, the depth makes no difference. -/
theorem shrinks_printValue {d : Doubles} (item : JsonItem d.Double) (depth depth' : Nat) :
    Shrinks (printValue d true depth item) (printValue d false depth' item) := by
  induction item using JsonItem.induct generalizing depth depth' with
  | null => exact shrinks_kept (w := ascii "null") (by decide +kernel)
  | bool b =>
    cases b with
    | false => exact shrinks_kept (w := ascii "false") (by decide +kernel)
    | true => exact shrinks_kept (w := ascii "true") (by decide +kernel)
  | number z x => exact shrinks_printNumber d z x
  | string s => exact shrinks_printStringPtr s
  | array children ih =>
    rw [printValue, printValue, printEntries_eq_map, printEntries_eq_map]
    exact shrinks_printArray fun c hc => ih c hc (depth + 1) (depth' + 1)
  | object children ih =>
    rw [printValue, printValue, printMembers_eq_map, printMembers_eq_map]
    exact shrinks_printObject depth depth' (fun c _ => shrinks_printStringPtr c.1)
      fun c hc => ih c hc (depth + 1) (depth' + 1)

/-- Of what `cJSON_Print` returns, `cJSON_Minify` leaves what `cJSON_PrintUnformatted` returns. -/
theorem cJSONMinify_cJSONPrint (d : Doubles) (item : JsonItem d.Double) (beyond : List Byte) :
    ∃ junk : List Byte,
      (cJSONPrintUnformatted d item).length + junk.length = (cJSONPrint d item).length ∧
        cJSONMinify (cJSONPrint d item ++ 0 :: beyond) =
          .ok (cJSONPrintUnformatted d item ++ 0 :: (junk ++ beyond)) := by
  obtain ⟨junk, hjunk, hminify⟩ :=
    exists_cJSONMinify (shrinks_printValue item 0 0).minifies beyond
  exact ⟨junk, by rw [Nat.add_comm]; exact hjunk, hminify⟩

end CgiFileStore.Json
