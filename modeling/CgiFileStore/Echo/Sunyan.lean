import CgiFileStore.Echo.EchoOp
import CgiFileStore.Lib.Matcher

/-!
# The streaming extractor: echo_sunyan.c

`main` of echo_sunyan.c reads a body byte by byte. Up to the first CRLF CRLF it looks for that,
behind it for the delimiter line, and writes what is neither to a.txt. The delimiter is looked for
with a `Matcher`. The main result says for which announced lengths the bytes written for the first
request are the content of the upload.
-/

namespace CgiFileStore

open CSem Search

/-- The variables of `main`, and the bytes written to a.txt. -/
structure Sunyan where
  tmp : List Byte
  j : Nat
  flag : Bool
  doit : Bool
  buf2 : List Byte
  tmp2 : List Byte
  j2 : Nat
  flag2 : Bool
  doit2 : Bool
  len2 : Int
  file : List Byte

/-- The variables as the process starts with them. -/
def Sunyan.initial : Sunyan where
  tmp := zeros 5
  j := 0
  flag := false
  doit := false
  buf2 := 10 :: ascii "------" ++ zeros 121
  tmp2 := zeros 128
  j2 := 0
  flag2 := false
  doit2 := false
  len2 := 0
  file := []

structure SunyanRequest where
  contentLength : Option CStr
  contentType : Option CStr
  stdin : List Byte

/-- `len`, the `int` of what `strtol` returns. -/
def SunyanRequest.len (req : SunyanRequest) : Int :=
  match req.contentLength with
  | some s => wrapInt (strtol s.bytes)
  | none => 0

/-- `if (flag == 1)` in front of the blank line: the fourth byte is compared. -/
def collectByte (ch : Byte) (s : Sunyan) : Checked Sunyan :=
  if s.flag then do
    let tmp ← store s.tmp s.j ch
    let j := s.j + 1
    if j = 4 then
      if (← readString tmp) = crlf ++ crlf then return { s with tmp, j, doit := true }
      else return { s with tmp, j, flag := false }
    else return { s with tmp, j }
  else .ok s

/-- The branch of a byte in front of the blank line. -/
def headerByte (ch : Byte) (s : Sunyan) : Checked Sunyan := do
  let s ← collectByte ch s
  if ch = 13 ∧ s.flag = false then
    let tmp ← store s.tmp 0 ch
    return { s with tmp, j := 1, flag := true }
  else return s

/-- The branch of a byte behind the blank line; `printf` reads `tmp2` as a string. -/
def contentByte (ch : Byte) (s : Sunyan) : Checked Sunyan := do
  if s.doit2 then return s
  else if s.flag2 then
    let tmp2 ← store s.tmp2 s.j2 ch
    let j2 := s.j2 + 1
    if (← load s.buf2 s.j2) = (← load tmp2 s.j2) then
      if s.len2 = j2 then
        return { s with tmp2, j2, doit2 := true, len2 := wrapInt s.file.length }
      else return { s with tmp2, j2 }
    else
      let file := s.file ++ tmp2.take j2
      let _ ← readString tmp2
      let tmp2 ← memset0 tmp2 128
      return { s with tmp2, j2 := 0, flag2 := false, file }
  else if ch = 10 then
    let tmp2 ← store s.tmp2 0 ch
    return { s with tmp2, j2 := 1, flag2 := true }
  else return { s with file := s.file ++ [ch], flag2 := false }

/-- The body of the `for` loop. -/
def sunyanByte (s : Sunyan) (ch : Byte) : Checked Sunyan :=
  if s.doit then contentByte ch s else headerByte ch s

/-- `for (i = 0; i < len; i++)` with `n` rounds left; the input may end before. -/
def sunyanLoop : Nat → List Byte → Sunyan → Checked Sunyan
  | 0, _, s => .ok s
  | _ + 1, [], s => .ok s
  | n + 1, ch :: stdin, s => do
    let s ← sunyanByte s ch
    sunyanLoop n stdin s

/-- One round of the `while` loop. -/
def sunyanRequest (req : SunyanRequest) (s : Sunyan) : Checked Sunyan := do
  if req.len ≤ 0 then return s
  else
    match req.contentType with
    | none => .error .null
    | some contentType =>
      match ← strstr contentType.array (ascii "WebKitFormBoundary") with
      | none => .error .null
      | some i =>
        let p ← readString (contentType.array.drop i)
        let buf2 ← strcat s.buf2 p
        let len2 ← strlen buf2
        sunyanLoop req.len.toNat req.stdin { s with buf2, len2 := wrapInt len2 }

/-! ## In front of the blank line -/

/-- The lines of a header, each with its line end, and the blank line. -/
def headerText (lines : List (List Byte)) : List Byte := (lines.map (· ++ crlf)).flatten ++ crlf

def IsHeaderLine (line : List Byte) : Prop := line ≠ [] ∧ 13 ∉ line ∧ 10 ∉ line

instance (line : List Byte) : Decidable (IsHeaderLine line) :=
  inferInstanceAs (Decidable (_ ∧ _))

theorem sunyanLoop_eq (n : Nat) (stdin : List Byte) (s : Sunyan) :
    sunyanLoop n stdin s = (stdin.take n).foldlM sunyanByte s := by
  induction n generalizing stdin s with
  | zero => rfl
  | succ n ih =>
    cases stdin with
    | nil => rfl
    | cons ch stdin =>
      rw [sunyanLoop, List.take_succ_cons, List.foldlM_cons]
      simp only [ih]

/-- The state with other values of the variables that look for CRLF CRLF. -/
def Sunyan.at (s : Sunyan) (tmp : List Byte) (j : Nat) (flag : Bool) : Sunyan :=
  { s with tmp, j, flag }

/-- The state behind the header. -/
def Sunyan.headerEnd (s : Sunyan) : Sunyan :=
  { s with tmp := [13, 10, 13, 10, 0], j := 4, flag := true, doit := true }

section

variable {s : Sunyan} {a b c x y : Byte} {u tmp : List Byte} {j : Nat}

theorem sunyanByte_other (hdoit : s.doit = false) (hx : x ≠ 13) :
    sunyanByte (s.at tmp j false) x = .ok (s.at tmp j false) := by
  simp [sunyanByte, headerByte, collectByte, Sunyan.at, hdoit, hx]

theorem sunyanByte_cr (hdoit : s.doit = false) :
    sunyanByte (s.at (a :: u) j false) 13 = .ok (s.at (13 :: u) 1 true) := by
  simp [sunyanByte, headerByte, collectByte, Sunyan.at, hdoit, store]

theorem sunyanByte_lf (hdoit : s.doit = false) :
    sunyanByte (s.at [13, a, b, c, 0] 1 true) 10 = .ok (s.at [13, 10, b, c, 0] 2 true) := by
  simp [sunyanByte, headerByte, collectByte, Sunyan.at, hdoit, store]

theorem sunyanByte_third (hdoit : s.doit = false) :
    sunyanByte (s.at [13, 10, b, c, 0] 2 true) x = .ok (s.at [13, 10, x, c, 0] 3 true) := by
  simp [sunyanByte, headerByte, collectByte, Sunyan.at, hdoit, store]

/-- The fourth byte, if the third one was no CR. A CR is taken for the start of a line end. -/
theorem sunyanByte_fourth (hdoit : s.doit = false) (hx : x ≠ 13) :
    sunyanByte (s.at [13, 10, x, b, 0] 3 true) y =
      .ok (if y = 13 then s.at [13, 10, x, 13, 0] 1 true else s.at [13, 10, x, y, 0] 4 false) := by
  have hread : readString [13, 10, x, y, 0] = .ok (cstring [13, 10, x, y, 0]) :=
    if_pos (by simp)
  have hne : cstring [13, 10, x, y, 0] ≠ crlf ++ crlf := by
    intro h
    have hle := cstring_isPrefix [13, 10, x, y, 0]
    rw [h] at hle
    simp [crlf] at hle
    exact hx hle.1.symm
  have hstore : store [13, 10, x, b, 0] 3 y = .ok [13, 10, x, y, 0] := rfl
  by_cases hy : y = 13
  · subst hy
    simp [sunyanByte, headerByte, collectByte, Sunyan.at, hdoit, hread, hne, store]
  · simp [sunyanByte, headerByte, collectByte, Sunyan.at, hdoit, hstore, hread, hne, hy]

/-- The second LF of CRLF CRLF. -/
theorem sunyanByte_blank (hdoit : s.doit = false) :
    sunyanByte (s.at [13, 10, 13, b, 0] 3 true) 10 = .ok s.headerEnd := by
  have hread : readString [13, 10, 13, 10, 0] = .ok (crlf ++ crlf) := rfl
  simp [sunyanByte, headerByte, collectByte, Sunyan.at, Sunyan.headerEnd, hdoit, hread, store]

/-- Without a CR nothing begins. -/
theorem foldlM_skip (hdoit : s.doit = false) (hu : 13 ∉ u) :
    u.foldlM sunyanByte (s.at tmp j false) = .ok (s.at tmp j false) := by
  induction u with
  | nil => rfl
  | cons x u ih =>
    rw [List.mem_cons, not_or] at hu
    rw [List.foldlM_cons, sunyanByte_other hdoit (Ne.symm hu.1), ok_bind, ih hu.2]

theorem foldlM_crlf (hdoit : s.doit = false) :
    crlf.foldlM sunyanByte (s.at [x, a, b, c, 0] j false) =
      .ok (s.at [13, 10, b, c, 0] 2 true) := by
  rw [crlf, List.foldlM_cons, sunyanByte_cr hdoit, ok_bind, List.foldlM_cons, sunyanByte_lf hdoit]
  rfl

/-- A line that is not empty leads from the end of one line to the end of the next. -/
theorem foldlM_nextLine (hdoit : s.doit = false) (hu : IsHeaderLine u) :
    ∃ b' c', (u ++ crlf).foldlM sunyanByte (s.at [13, 10, b, c, 0] 2 true) =
      .ok (s.at [13, 10, b', c', 0] 2 true) := by
  obtain ⟨hne, hcr, -⟩ := hu
  obtain ⟨x, u, rfl⟩ := List.exists_cons_of_ne_nil hne
  rw [List.mem_cons, not_or] at hcr
  rw [List.cons_append, List.foldlM_cons, sunyanByte_third hdoit, ok_bind]
  cases u with
  | nil =>
    -- the CR of the line is the fourth byte
    refine ⟨x, 13, ?_⟩
    rw [List.nil_append, crlf, List.foldlM_cons, sunyanByte_fourth hdoit (Ne.symm hcr.1),
      if_pos rfl, ok_bind, List.foldlM_cons, sunyanByte_lf hdoit]
    rfl
  | cons y u =>
    rw [List.mem_cons, not_or] at hcr
    refine ⟨x, y, ?_⟩
    rw [List.cons_append, List.foldlM_cons, sunyanByte_fourth hdoit (Ne.symm hcr.1),
      if_neg (Ne.symm hcr.2.1), ok_bind, List.foldlM_append, foldlM_skip hdoit hcr.2.2, ok_bind,
      foldlM_crlf hdoit]

theorem foldlM_nextLines (hdoit : s.doit = false) {lines : List (List Byte)}
    (hlines : ∀ line ∈ lines, IsHeaderLine line) :
    ∃ b' c', (lines.map (· ++ crlf)).flatten.foldlM sunyanByte (s.at [13, 10, b, c, 0] 2 true) =
      .ok (s.at [13, 10, b', c', 0] 2 true) := by
  induction lines generalizing b c with
  | nil => exact ⟨b, c, rfl⟩
  | cons line lines ih =>
    obtain ⟨b₁, c₁, hline⟩ := foldlM_nextLine (b := b) (c := c) hdoit (hlines line (by simp))
    obtain ⟨b₂, c₂, hrest⟩ := ih (b := b₁) (c := c₁) fun l hl => hlines l (by simp [hl])
    refine ⟨b₂, c₂, ?_⟩
    rw [List.map_cons, List.flatten_cons, List.foldlM_append, hline, ok_bind, hrest]

theorem foldlM_header (hdoit : s.doit = false) {lines : List (List Byte)} (hne : lines ≠ [])
    (hlines : ∀ line ∈ lines, IsHeaderLine line) :
    (headerText lines).foldlM sunyanByte (s.at (zeros 5) 0 false) = .ok s.headerEnd := by
  obtain ⟨line, lines, rfl⟩ := List.exists_cons_of_ne_nil hne
  have hzeros : zeros 5 = [0, 0, 0, 0, 0] := rfl
  obtain ⟨b, c, hnext⟩ := foldlM_nextLines (b := 0) (c := 0) hdoit
    fun l hl => hlines l (List.mem_cons_of_mem line hl)
  rw [headerText, List.map_cons, List.flatten_cons, List.append_assoc, List.append_assoc,
    List.foldlM_append, foldlM_skip hdoit (hlines line (by simp)).2.1, ok_bind,
    List.foldlM_append, hzeros, foldlM_crlf hdoit, ok_bind, List.foldlM_append, hnext, ok_bind,
    crlf, List.foldlM_cons, sunyanByte_third hdoit, ok_bind, List.foldlM_cons,
    sunyanByte_blank hdoit]
  rfl

end

/-! ## Behind the blank line -/

/-- The variables of `main` hold what the matcher for the delimiter `d` holds. -/
structure Simulates (d : List Byte) (s : Sunyan) (m : Matcher Byte) : Prop where
  doit : s.doit = true
  buf2 : s.buf2 = d ++ zeros (128 - d.length)
  file : s.file = m.passed
  doit2 : s.doit2 = m.closed
  len2 : m.closed = false → s.len2 = d.length
  j2 : m.closed = false → s.j2 = m.held
  flag2 : m.closed = false → s.flag2 = decide (0 < m.held)
  tmp2 : m.closed = false → s.tmp2 = d.take m.held ++ zeros (128 - m.held)
  held_lt : m.closed = false → m.held < d.length

section

variable {d : List Byte} {s : Sunyan} {m : Matcher Byte}

theorem zeros_sub {k : Nat} (hk : k < 128) : zeros (128 - k) = 0 :: zeros (128 - (k + 1)) := by
  rw [zeros, zeros, ← List.replicate_succ]
  congr 1
  omega

theorem contentByte_begin (hdoit2 : s.doit2 = false) (hflag2 : s.flag2 = false) {tmp2 : List Byte}
    (hstore : store s.tmp2 0 10 = .ok tmp2) :
    contentByte 10 s = .ok { s with tmp2, j2 := 1, flag2 := true } := by
  simp [contentByte, hdoit2, hflag2, hstore]

theorem contentByte_plain (hdoit2 : s.doit2 = false) (hflag2 : s.flag2 = false) {x : Byte}
    (hx : x ≠ 10) :
    contentByte x s = .ok { s with file := s.file ++ [x], flag2 := false } := by
  simp [contentByte, hdoit2, hflag2, hx]

theorem contentByte_match (hdoit2 : s.doit2 = false) (hflag2 : s.flag2 = true) {x : Byte}
    {tmp2 : List Byte} (hstore : store s.tmp2 s.j2 x = .ok tmp2)
    (hbuf2 : load s.buf2 s.j2 = .ok x) (htmp2 : load tmp2 s.j2 = .ok x) :
    contentByte x s = .ok
      (if s.len2 = (s.j2 + 1 : Nat) then
        { s with tmp2, j2 := s.j2 + 1, doit2 := true, len2 := wrapInt s.file.length }
      else { s with tmp2, j2 := s.j2 + 1 }) := by
  simp only [contentByte, hdoit2, hflag2, hstore, hbuf2, htmp2, ok_bind, Bool.false_eq_true,
    if_false, if_true, pure_eq_ok]
  split_ifs <;> rfl

theorem contentByte_mismatch (hdoit2 : s.doit2 = false) (hflag2 : s.flag2 = true) {x y : Byte}
    {tmp2 t : List Byte} (hstore : store s.tmp2 s.j2 x = .ok tmp2)
    (hbuf2 : load s.buf2 s.j2 = .ok y) (htmp2 : load tmp2 s.j2 = .ok x) (hne : y ≠ x)
    (hread : readString tmp2 = .ok t) (hsize : tmp2.length = 128) :
    contentByte x s = .ok
      { s with
        tmp2 := zeros 128
        j2 := 0
        flag2 := false
        file := s.file ++ tmp2.take (s.j2 + 1) } := by
  have hclear : memset0 tmp2 128 = .ok (zeros 128) := by
    rw [memset0_eq_ok, List.drop_eq_nil_of_le hsize.le, List.append_nil]
    exact ⟨hsize.ge, rfl⟩
  simp only [contentByte, hdoit2, hflag2, hstore, hbuf2, htmp2, ok_bind, Bool.false_eq_true,
    if_false, if_true, pure_eq_ok, hne, hread, hclear]

theorem take_hold {k : Nat} {x : Byte} (hx : d[k]? = some x) (t : List Byte) :
    d.take k ++ x :: t = d.take (k + 1) ++ t := by
  rw [List.take_add_one, hx, List.append_assoc]
  rfl

/-- One more byte of the delimiter is held back. -/
theorem Simulates.hold (h : Simulates d s m) (hclosed : m.closed = false)
    (hlt : m.held + 1 < d.length) {tmp2 : List Byte} {j2 : Nat} {flag2 : Bool}
    (htmp2 : tmp2 = d.take (m.held + 1) ++ zeros (128 - (m.held + 1))) (hj2 : j2 = m.held + 1)
    (hflag2 : flag2 = true) :
    Simulates d { s with tmp2, j2, flag2 } { m with held := m.held + 1 } where
  doit := h.doit
  buf2 := h.buf2
  file := h.file
  doit2 := h.doit2
  len2 := fun _ => h.len2 hclosed
  j2 := fun _ => hj2
  flag2 := fun _ => by simp [hflag2]
  tmp2 := fun _ => htmp2
  held_lt := fun _ => hlt

/-- What is held back and the byte that does not match are written. -/
theorem Simulates.pass (h : Simulates d s m) (hclosed : m.closed = false) {x : Byte}
    {tmp2 file : List Byte} {j2 : Nat} (htmp2 : tmp2 = zeros 128) (hj2 : j2 = 0)
    (hfile : file = s.file ++ d.take m.held ++ [x]) :
    Simulates d { s with tmp2, j2, flag2 := false, file }
      { m with passed := m.passed ++ d.take m.held ++ [x], held := 0 } where
  doit := h.doit
  buf2 := h.buf2
  file := by rw [hfile, h.file]
  doit2 := h.doit2
  len2 := fun _ => h.len2 hclosed
  j2 := fun _ => hj2
  flag2 := fun _ => rfl
  tmp2 := fun _ => htmp2
  held_lt := fun _ => (Nat.zero_le m.held).trans_lt (h.held_lt hclosed)

/-- The delimiter has been read. -/
theorem Simulates.close (h : Simulates d s m) {tmp2 : List Byte} {j2 : Nat} {len2 : Int} :
    Simulates d { s with tmp2, j2, doit2 := true, len2 } { m with closed := true } where
  doit := h.doit
  buf2 := h.buf2
  file := h.file
  doit2 := rfl
  len2 := fun hopen => by cases hopen
  j2 := fun hopen => by cases hopen
  flag2 := fun hopen => by cases hopen
  tmp2 := fun hopen => by cases hopen
  held_lt := fun hopen => by cases hopen

/-- The byte that is read goes behind what is held back. -/
theorem Simulates.store_tmp2 (h : Simulates d s m) (hclosed : m.closed = false)
    (hmax : d.length ≤ 126) (x : Byte) :
    store s.tmp2 s.j2 x = .ok (d.take m.held ++ x :: zeros (128 - (m.held + 1))) := by
  have hk := h.held_lt hclosed
  have hstore := store_left (d.take m.held) (zeros (128 - (m.held + 1))) 0 x
  rw [h.tmp2 hclosed, h.j2 hclosed]
  rwa [List.length_take_of_le hk.le, ← zeros_sub (by omega)] at hstore

theorem Simulates.load_tmp2 (h : Simulates d s m) (hclosed : m.closed = false) (x : Byte)
    (t : List Byte) : load (d.take m.held ++ x :: t) s.j2 = .ok x := by
  have hload := load_left (d.take m.held) t x
  rw [h.j2 hclosed]
  rwa [List.length_take_of_le (h.held_lt hclosed).le] at hload

theorem Simulates.load_buf2 (h : Simulates d s m) (hclosed : m.closed = false) {x : Byte}
    (hx : d[m.held]? = some x) : load s.buf2 s.j2 = .ok x := by
  rw [h.buf2, h.j2 hclosed, load, List.getElem?_append_left (h.held_lt hclosed), hx]

/-- A step while nothing is held back: an LF begins the delimiter, another byte is written. -/
theorem simulates_first (hhead : d.head? = some 10) (htwo : 1 < d.length) (hmax : d.length ≤ 126)
    (h : Simulates d s m) (hclosed : m.closed = false) (hzero : m.held = 0) (x : Byte) :
    ∃ s', contentByte x s = .ok s' ∧ Simulates d s' (m.step d x) := by
  have hfirst : d[m.held]? = some 10 := by rw [hzero, ← List.head?_eq_getElem?, hhead]
  have hopen := h.doit2.trans hclosed
  have hflag : s.flag2 = false := by simpa [hzero] using h.flag2 hclosed
  have hj : s.j2 = 0 := (h.j2 hclosed).trans hzero
  rw [Matcher.step, if_neg (by simp [hclosed]), hfirst]
  by_cases hx : x = 10
  · subst hx
    have hstore := h.store_tmp2 hclosed hmax 10
    rw [hj, take_hold hfirst] at hstore
    rw [if_pos rfl, if_neg (by omega)]
    exact ⟨_, contentByte_begin hopen hflag hstore,
      h.hold hclosed (by omega) rfl (by rw [hzero]) rfl⟩
  · have htmp : s.tmp2 = zeros 128 := by
      have h := h.tmp2 hclosed
      rwa [hzero, List.take_zero, List.nil_append] at h
    rw [if_neg fun heq => hx (Option.some.inj heq).symm]
    refine ⟨_, contentByte_plain hopen hflag hx, h.pass hclosed htmp hj ?_⟩
    rw [hzero, List.take_zero, List.append_nil]

/-- A step while the start of the delimiter is held back. -/
theorem simulates_held (hmax : d.length ≤ 126) (h : Simulates d s m) (hclosed : m.closed = false)
    (hpos : 0 < m.held) (x : Byte) :
    ∃ s', contentByte x s = .ok s' ∧ Simulates d s' (m.step d x) := by
  have hk := h.held_lt hclosed
  have hopen := h.doit2.trans hclosed
  have hflag : s.flag2 = true := by simpa [hpos] using h.flag2 hclosed
  have hstore := h.store_tmp2 hclosed hmax x
  have hload := h.load_tmp2 hclosed x (zeros (128 - (m.held + 1)))
  rw [Matcher.step, if_neg (by simp [hclosed])]
  by_cases hx : d[m.held]? = some x
  · rw [take_hold hx] at hstore hload
    have hlast : s.len2 = (s.j2 + 1 : Nat) ↔ m.held + 1 = d.length := by
      rw [h.len2 hclosed, h.j2 hclosed]
      omega
    rw [if_pos hx]
    refine ⟨_, contentByte_match hopen hflag hstore (h.load_buf2 hclosed hx) hload, ?_⟩
    simp only [hlast]
    split_ifs with hend
    · exact h.close
    · exact h.hold hclosed (by omega) rfl (by rw [h.j2 hclosed]) hflag
  · have hdelim := h.load_buf2 hclosed (List.getElem?_eq_getElem hk)
    have hne : d[m.held] ≠ x := fun heq => hx (heq ▸ List.getElem?_eq_getElem hk)
    have hread := readString_append_zero_any (d.take m.held ++ [x]) (zeros (128 - (m.held + 2)))
    rw [← zeros_sub (by omega), ← List.append_cons] at hread
    have hlen : (d.take m.held).length = m.held := List.length_take_of_le hk.le
    have hsize : (d.take m.held ++ x :: zeros (128 - (m.held + 1))).length = 128 := by
      rw [List.length_append, hlen, List.length_cons, length_zeros]
      omega
    have htake : (d.take m.held ++ x :: zeros (128 - (m.held + 1))).take (s.j2 + 1) =
        d.take m.held ++ [x] := by
      rw [List.append_cons]
      refine List.take_left' ?_
      rw [List.length_append, hlen, List.length_singleton, h.j2 hclosed]
    rw [if_neg hx]
    refine ⟨_, contentByte_mismatch hopen hflag hstore hdelim hload hne hread hsize, ?_⟩
    rw [htake]
    exact h.pass hclosed rfl rfl (List.append_assoc ..).symm

/-- A step of the extractor behind the blank line is a step of the matcher. -/
theorem sunyanByte_simulates (hhead : d.head? = some 10) (htwo : 1 < d.length)
    (hmax : d.length ≤ 126) (h : Simulates d s m) (x : Byte) :
    ∃ s', sunyanByte s x = .ok s' ∧ Simulates d s' (m.step d x) := by
  rw [sunyanByte, if_pos h.doit]
  cases hclosed : m.closed with
  | true =>
    rw [Matcher.step_of_closed hclosed]
    exact ⟨s, by rw [contentByte, if_pos (h.doit2.trans hclosed)]; rfl, h⟩
  | false =>
    obtain hzero | hpos := Nat.eq_zero_or_pos m.held
    · exact simulates_first hhead htwo hmax h hclosed hzero x
    · exact simulates_held hmax h hclosed hpos x

theorem foldlM_simulates (hhead : d.head? = some 10) (htwo : 1 < d.length)
    (hmax : d.length ≤ 126) (h : Simulates d s m) (u : List Byte) :
    ∃ s', u.foldlM sunyanByte s = .ok s' ∧ Simulates d s' (m.run d u) := by
  induction u generalizing s m with
  | nil => exact ⟨s, rfl, h⟩
  | cons x u ih =>
    obtain ⟨s₁, hstep, h₁⟩ := sunyanByte_simulates hhead htwo hmax h x
    obtain ⟨s₂, hrun, h₂⟩ := ih h₁
    exact ⟨s₂, by rw [List.foldlM_cons, hstep, ok_bind, hrun], h₂⟩

end

/-! ## The first request -/

/-- A request that announces no positive length is not read. -/
theorem sunyanRequest_unread {req : SunyanRequest} (h : req.len ≤ 0) (s : Sunyan) :
    sunyanRequest req s = .ok s := if_pos h

/-- The delimiter line behind the CR: `p` is what is taken from the content type. -/
def sunyanDelimiter (p : List Byte) : List Byte := 10 :: ascii "------" ++ p

section

variable {s s' : Sunyan} {x : Byte} {u p : List Byte}

theorem file_headerByte (h : headerByte x s = .ok s') : s'.file = s.file := by
  obtain ⟨s₁, h₁, h⟩ := bind_eq_ok.mp h
  have hfirst : s₁.file = s.file := by
    unfold collectByte at h₁
    split_ifs at h₁
    · obtain ⟨tmp, -, h₁⟩ := bind_eq_ok.mp h₁
      dsimp only at h₁
      split_ifs at h₁
      · obtain ⟨t, -, h₁⟩ := bind_eq_ok.mp h₁
        split_ifs at h₁ <;> (cases h₁; rfl)
      · cases h₁
        rfl
    · cases h₁
      rfl
  split_ifs at h
  · obtain ⟨tmp, -, h⟩ := bind_eq_ok.mp h
    cases h
    exact hfirst
  · cases h
    exact hfirst

theorem file_contentByte (h : contentByte x s = .ok s') : s.file <+: s'.file := by
  unfold contentByte at h
  split_ifs at h
  · cases h
    exact List.prefix_rfl
  · obtain ⟨tmp2, -, h⟩ := bind_eq_ok.mp h
    obtain ⟨y, -, h⟩ := bind_eq_ok.mp h
    obtain ⟨z, -, h⟩ := bind_eq_ok.mp h
    dsimp only at h
    split_ifs at h
    · cases h
      exact List.prefix_rfl
    · cases h
      exact List.prefix_rfl
    · obtain ⟨t, -, h⟩ := bind_eq_ok.mp h
      obtain ⟨tmp2', -, h⟩ := bind_eq_ok.mp h
      cases h
      exact List.prefix_append _ _
  · obtain ⟨tmp2, -, h⟩ := bind_eq_ok.mp h
    cases h
    exact List.prefix_rfl
  · cases h
    exact List.prefix_append _ _

/-- What is written stays written. -/
theorem file_foldlM (h : u.foldlM sunyanByte s = .ok s') : s.file <+: s'.file := by
  induction u generalizing s with
  | nil =>
    obtain rfl := Except.ok.inj h
    exact List.prefix_rfl
  | cons x u ih =>
    obtain ⟨s₁, hstep, hrest⟩ := bind_eq_ok.mp h
    refine List.IsPrefix.trans ?_ (ih hrest)
    rw [sunyanByte] at hstep
    split_ifs at hstep
    · exact file_contentByte hstep
    · exact (file_headerByte hstep).symm ▸ List.prefix_rfl

end

section

variable {contentType : CStr} {p : List Byte} {i : Nat}

/-- The state in front of the first byte. -/
def Sunyan.ready (p : List Byte) : Sunyan :=
  { Sunyan.initial with
    buf2 := sunyanDelimiter p ++ zeros (128 - (sunyanDelimiter p).length)
    len2 := (sunyanDelimiter p).length }

theorem length_sunyanDelimiter (p : List Byte) : (sunyanDelimiter p).length = p.length + 7 := by
  have hdashes : (ascii "------").length = 6 := rfl
  rw [sunyanDelimiter, List.length_append, List.length_cons, hdashes]
  omega

theorem sunyanRequest_first {req : SunyanRequest} (htype : req.contentType = some contentType)
    (hocc : firstOcc (ascii "WebKitFormBoundary") contentType.bytes = some i)
    (hp : contentType.bytes.drop i = p) (hmax : p.length ≤ 119) (hlen : 0 < req.len) :
    sunyanRequest req Sunyan.initial =
      (req.stdin.take req.len.toNat).foldlM sunyanByte (Sunyan.ready p) := by
  have hi := firstOcc_add_length_le hocc
  have hzero : 0 ∉ p := fun h => contentType.nul_free (List.mem_of_mem_drop (hp ▸ h))
  have hstrstr : strstr contentType.array (ascii "WebKitFormBoundary") = .ok (some i) :=
    strstr_some (by rwa [CStr.array, cstring_append_zero contentType.nul_free])
  have hread : readString (contentType.array.drop i) = .ok p := by
    rw [CStr.array, List.drop_append_of_le_length (by omega), hp]
    exact readString_append_zero hzero []
  have hdelim : 0 ∉ sunyanDelimiter p := by
    rw [sunyanDelimiter, List.mem_append, not_or]
    exact ⟨by decide, hzero⟩
  have hroom : 121 - p.length = 128 - (sunyanDelimiter p).length := by
    rw [length_sunyanDelimiter]
    omega
  have hcat : strcat Sunyan.initial.buf2 p =
      .ok (sunyanDelimiter p ++ zeros (128 - (sunyanDelimiter p).length)) := by
    rw [← hroom]
    exact strcat_zeros (by decide) (by omega)
  have hstrlen : strlen (sunyanDelimiter p ++ zeros (128 - (sunyanDelimiter p).length)) =
      .ok (sunyanDelimiter p).length := by
    rw [strlen, readString_append_zeros hdelim (by rw [length_sunyanDelimiter]; omega)]
    rfl
  have hint : wrapInt (sunyanDelimiter p).length = (sunyanDelimiter p).length := by
    rw [length_sunyanDelimiter]
    exact wrapInt_of_isInt ⟨by simp only [intMin]; omega, by simp only [intMax]; omega⟩
  rw [sunyanRequest, if_neg (by omega), htype]
  dsimp only
  rw [hstrstr, ok_bind]
  dsimp only
  rw [hread, ok_bind, hcat, ok_bind, hstrlen, ok_bind, sunyanLoop_eq, hint]
  rfl

theorem simulates_headerEnd (p : List Byte) :
    Simulates (sunyanDelimiter p) (Sunyan.ready p).headerEnd Matcher.start where
  doit := rfl
  buf2 := rfl
  file := rfl
  doit2 := rfl
  len2 := fun _ => rfl
  j2 := fun _ => rfl
  flag2 := fun _ => rfl
  tmp2 := fun _ => rfl
  held_lt := fun _ => by
    rw [length_sunyanDelimiter]
    exact Nat.succ_pos _

/-- Behind the header the bytes of a request go to the matcher. -/
theorem foldlM_request (hmax : p.length ≤ 119) {lines : List (List Byte)} (hne : lines ≠ [])
    (hlines : ∀ line ∈ lines, IsHeaderLine line) (u : List Byte) :
    ∃ s, (headerText lines ++ u).foldlM sunyanByte (Sunyan.ready p) = .ok s ∧
      s.file = (Matcher.run (sunyanDelimiter p) .start u).passed := by
  have hheader : (headerText lines).foldlM sunyanByte (Sunyan.ready p) =
      .ok (Sunyan.ready p).headerEnd := foldlM_header (s := Sunyan.ready p) rfl hne hlines
  have hlen := length_sunyanDelimiter p
  obtain ⟨s, hrun, hs⟩ := foldlM_simulates (d := sunyanDelimiter p) rfl (by omega) (by omega)
    (simulates_headerEnd p) u
  exact ⟨s, by rw [List.foldlM_append, hheader, ok_bind, hrun], hs.file⟩

end

/-- What the first request writes is the content with the CR behind it, if and only if the
announced length, as an `int`, reaches that CR. -/
theorem sunyanRequest_content_iff (contentLength : Option CStr) (contentType : CStr) (i : Nat)
    (p : List Byte) (lines : List (List Byte)) (c t : List Byte)
    (hocc : firstOcc (ascii "WebKitFormBoundary") contentType.bytes = some i)
    (hp : contentType.bytes.drop i = p) (hcr : 13 ∉ p) (hmax : p.length ≤ 119) (hne : lines ≠ [])
    (hlines : ∀ line ∈ lines, IsHeaderLine line) (hc : ¬ sunyanDelimiter p <:+: c) :
    let req : SunyanRequest :=
      { contentLength
        contentType := some contentType
        stdin := headerText lines ++ (c ++ 13 :: (sunyanDelimiter p ++ t)) }
    (∃ s, sunyanRequest req Sunyan.initial = .ok s ∧ s.file = c ++ [13]) ↔
      ((headerText lines).length : Int) + c.length + 1 ≤ req.len := by
  intro req
  have hd : sunyanDelimiter p ≠ [] := List.cons_ne_nil _ _
  have hcrd : 13 ∉ sunyanDelimiter p := by
    rw [sunyanDelimiter, List.mem_append, not_or]
    exact ⟨by decide, hcr⟩
  constructor
  · rintro ⟨s, hs, hfile⟩
    by_contra hshort
    obtain hnone | hsome := le_or_gt req.len 0
    · rw [sunyanRequest_unread hnone] at hs
      obtain rfl := Except.ok.inj hs
      exact List.append_ne_nil_of_right_ne_nil c (List.cons_ne_nil 13 []) hfile.symm
    · -- what is read ends in front of the CR, so no more than the content can have been written
      have htake : req.stdin.take req.len.toNat =
          (headerText lines ++ c).take req.len.toNat := by
        rw [show req.stdin = headerText lines ++ c ++ 13 :: (sunyanDelimiter p ++ t) by simp [req],
          List.take_append_of_le_length (by rw [List.length_append]; omega)]
      obtain ⟨s', hrun, hs'⟩ := foldlM_request hmax hne hlines c
      rw [← List.take_append_drop req.len.toNat (headerText lines ++ c), List.foldlM_append,
        ← htake, ← sunyanRequest_first rfl hocc hp hmax hsome, hs, ok_bind] at hrun
      have hwritten := (file_foldlM hrun).length_le
      have hread := congrArg List.length (Matcher.reads_run hd hc).read
      rw [hfile, hs', List.length_append, List.length_singleton] at hwritten
      rw [List.length_append] at hread
      omega
  · intro hlong
    have htake : req.stdin.take req.len.toNat = headerText lines ++ ((c ++ [13]) ++
        (sunyanDelimiter p ++ t).take
          (req.len.toNat - (headerText lines ++ (c ++ [13])).length)) := by
      have hlen : (headerText lines ++ (c ++ [13])).length ≤ req.len.toNat := by
        simp only [List.length_append, List.length_singleton]
        omega
      rw [show req.stdin = headerText lines ++ (c ++ [13]) ++ (sunyanDelimiter p ++ t) by
        simp [req], List.take_append, List.take_of_length_le hlen, List.append_assoc]
    rw [sunyanRequest_first rfl hocc hp hmax (by omega), htake]
    obtain ⟨s, hrun, hs⟩ := foldlM_request hmax hne hlines ((c ++ [13]) ++ _)
    refine ⟨s, hrun, hs.trans ?_⟩
    rw [Matcher.run_append, Matcher.run_content hd hc hcrd]
    exact Matcher.passed_run_pattern _ _ _ _ (List.length_pos_iff.mpr hd) rfl

/-- A content with LFs and dashes, all of it announced. -/
theorem sunyanRequest_content_dashes :
    let req : SunyanRequest :=
      { contentLength := some ⟨ascii "36", by decide⟩
        contentType := some ⟨ascii "=WebKitFormBoundaryX", by decide⟩
        stdin := headerText [ascii "a"] ++ (ascii "x\n\n-" ++ 13 ::
          (sunyanDelimiter (ascii "WebKitFormBoundaryX") ++ [])) }
    ∃ s, sunyanRequest req Sunyan.initial = .ok s ∧ s.file = ascii "x\n\n-" ++ [13] :=
  (sunyanRequest_content_iff (some ⟨ascii "36", by decide⟩)
    ⟨ascii "=WebKitFormBoundaryX", by decide⟩ 1 (ascii "WebKitFormBoundaryX") [ascii "a"]
    (ascii "x\n\n-") [] (by decide +kernel) (by decide) (by decide) (by decide) (by decide)
    (by decide) (by decide +kernel)).mpr (by decide +kernel)

/-- A header, an empty content, and `n` letters behind the delimiter. -/
def emptyUpload (n : Nat) : List Byte :=
  headerText [ascii "a"] ++ ([] ++ 13 ::
    (sunyanDelimiter (ascii "WebKitFormBoundary") ++ (letters n).bytes))

theorem length_emptyUpload (n : Nat) : (emptyUpload n).length = 31 + n := by
  have hheader : (headerText [ascii "a"]).length = 5 := rfl
  have hname : (ascii "WebKitFormBoundary").length = 18 := rfl
  simp only [emptyUpload, List.length_append, List.length_cons, List.length_nil, hheader,
    length_sunyanDelimiter, hname, length_letters]
  omega

/-- A body of 2 GiB with an empty content: its length is no `int`, and nothing is written. -/
theorem sunyanRequest_content_huge :
    (emptyUpload 2147483617).length = 2147483648 ∧
      ¬ ∃ s, sunyanRequest
        { contentLength := some ⟨ascii "2147483648", by decide⟩
          contentType := some ⟨ascii "=WebKitFormBoundary", by decide⟩
          stdin := emptyUpload 2147483617 } Sunyan.initial = .ok s ∧ s.file = [] ++ [13] := by
  refine ⟨length_emptyUpload _, ?_⟩
  rintro ⟨s, hs, hfile⟩
  have hlen (contentType : Option CStr) (stdin : List Byte) : SunyanRequest.len
      { contentLength := some ⟨ascii "2147483648", by decide⟩, contentType, stdin } ≤ 0 := by
    change wrapInt (strtol (ascii "2147483648")) ≤ 0
    decide +kernel
  rw [sunyanRequest_unread (hlen _ _)] at hs
  obtain rfl := Except.ok.inj hs
  cases hfile

end CgiFileStore
