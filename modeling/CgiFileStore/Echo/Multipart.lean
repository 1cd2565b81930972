import CgiFileStore.Echo.HeaderScan

/-!
# Multipart bodies and the slice that is written

`Multipart eol` is a request body with one part, its lines ended by `eol`. For CRLF bodies
exactly the content is extracted. For arbitrary bodies the main result says when the slice
that is written lies between the blank line and the boundary behind it.
-/

namespace CgiFileStore

open CSem Search

/-! ## The write step of any body -/

/-- The first line of the body. -/
def boundaryLine (body : List Byte) : List Byte :=
  (cstring body).take ((lineEndOf (cstring body)).getD 0)

/-- The end of the first blank line behind the first line, and whether it is LF LF. -/
def contentStart (body : List Byte) : Option (Nat × Bool) :=
  (lineEndOf (cstring body)).bind fun e =>
    (blankOf ((cstring body).drop e)).map fun b => (e + b.1, b.2)

section

variable {openOk : Path → Bool} {fileName body rest : List Byte}

/-- A scan that reaches `memstr` has stored the first line and the end of the blank line. -/
theorem scanHeader_header {h : Header}
    (hscan : scanHeader fileName (body ++ 0 :: rest) = .ok (.header h)) :
    contentStart body = some (h.temSource, h.isLinuxFlag) ∧
      readString h.boundary = .ok (boundaryLine body) ∧ (boundaryLine body).length ≤ 511 ∧
      h.temSource ≤ body.length := by
  have h0 : 0 ∈ body ++ 0 :: rest := by simp
  have htext : cstring (body ++ 0 :: rest) = cstring body := cstring_append_zero_any _ _
  obtain ⟨name, -, hrest⟩ := bind_eq_ok.mp hscan
  cases name with
  | none => simp at hrest
  | some name =>
    dsimp only at hrest
    have hline : ∀ e, lineEndOf (cstring (body ++ 0 :: rest)) = some e → e < 512 := by
      intro e he
      by_contra hlong
      exact scanLines_ne_ok h0 he (by omega) _ hrest
    rw [scanLines_eq name h0 hline, htext] at hrest
    cases he : lineEndOf (cstring body) with
    | none => simp [he] at hrest
    | some e =>
      cases hb : blankOf ((cstring body).drop e) with
      | none => simp [he, hb] at hrest
      | some b =>
        obtain ⟨k, linux⟩ := b
        have hlt : e < 512 := hline e (htext ▸ he)
        have hle := (lineEndOf_lt he).le
        have hk := blankOf_le hb
        simp only [List.length_drop] at hk
        have hbody := (cstring_isPrefix body).length_le
        have htake : 0 ∉ (cstring body).take e :=
          fun h => zero_notMem_cstring body (List.mem_of_mem_take h)
        simp only [he, hb, Except.ok.injEq, Scan.header.injEq] at hrest
        subst hrest
        refine ⟨by simp [contentStart, he, hb], ?_, ?_, by dsimp only; omega⟩
        · simp only [boundaryLine, he, Option.getD_some]
          exact readString_append_zeros htake (by omega)
        · simp only [boundaryLine, he, Option.getD_some, List.length_take]
          omega

/-- Behind the blank line `memstr` looks at the body only, whatever follows it. -/
theorem memstr_content {boundary b : List Byte} {start : Nat} {len : Int}
    (hread : readString boundary = .ok b) (hb : b.length ≤ 511) (hbody : body.length ≤ 102400)
    (hint : IsInt len) (hlen : len.toNat = body.length) (hstart : start ≤ body.length) :
    memstr (some ((body ++ rest).drop start)) (wrapInt (len - start)) (some boundary) =
      .ok (if len ≤ start ∨ b = [] then none else firstOcc b (body.drop start)) := by
  have hwrap : wrapInt (len - start) = len - start := by
    apply wrapInt_of_isInt
    simp only [IsInt, intMin, intMax] at hint ⊢
    omega
  rw [hwrap]
  by_cases hpos : len ≤ start
  · rw [memstr_of_nonpos (by omega), if_pos (.inl hpos)]
  · by_cases hne : b = []
    · rw [memstr_of_nil (hne ▸ hread), if_pos (.inr hne)]
    · have htoNat : (len - start).toNat = (body.drop start).length := by
        rw [List.length_drop]
        omega
      rw [if_neg (not_or.mpr ⟨hpos, hne⟩), memstr_eq hread hne (by simp only [intMax]; omega)
        (by omega) (by simp only [List.length_drop, List.length_append]; omega)
        (by simp only [intMax]; omega), List.drop_append_of_le_length hstart, htoNat,
        List.take_left]

/-- When the write step is reached, the boundary line has been found at some distance `p`
behind the blank line, and the count is `p` less one LF or one CRLF. -/
theorem fielSourceGet_save {r : SourceGet} {w : Save} {len : Int} (hint : IsInt len)
    (hlen : len.toNat = body.length) (hbody : body.length ≤ 102400)
    (hr : fielSourceGet openOk (body ++ 0 :: rest) len fileName = .ok r)
    (hw : r.save = some w) :
    ∃ linux p, contentStart body = some (w.start, linux) ∧ boundaryLine body ≠ [] ∧
      firstOcc (boundaryLine body) (body.drop w.start) = some p ∧
      w.count = (p : Int) - (if linux then 1 else 2) ∧
      w.data = ((body ++ 0 :: rest).drop w.start).take w.count.toNat := by
  obtain ⟨scan, hscan, hrest⟩ := bind_eq_ok.mp hr
  cases scan with
  | done ret name =>
    obtain rfl : _ = r := by simpa using hrest
    simp at hw
  | header h =>
    obtain ⟨hstart, hread, hshort, hle⟩ := scanHeader_header hscan
    dsimp only at hrest
    rw [memstr_content hread hshort hbody hint hlen hle, ok_bind] at hrest
    by_cases hnone : len ≤ h.temSource ∨ boundaryLine body = []
    · rw [if_pos hnone] at hrest
      obtain rfl : _ = r := by simpa using hrest
      simp at hw
    · rw [if_neg hnone] at hrest
      cases hp : firstOcc (boundaryLine body) (body.drop h.temSource) with
      | none =>
        obtain rfl : _ = r := by simpa [hp] using hrest
        simp at hw
      | some p =>
        simp only [hp] at hrest
        obtain ⟨path, -, hrest⟩ := bind_eq_ok.mp hrest
        split at hrest
        · obtain rfl : _ = r := by simpa using hrest
          obtain rfl : _ = w := by simpa using hw
          refine ⟨h.isLinuxFlag, p, hstart, (not_or.mp hnone).2, hp, ?_, rfl⟩
          dsimp only
          split <;> simp
        · obtain rfl : _ = r := by simpa using hrest
          simp at hw

end

/-- The content of a body: the bytes from the end of the first blank line up to the line end in
front of the boundary that is found behind it. -/
def contentOf (body : List Byte) : Option (List Byte) := do
  let start ← contentStart body
  let p ← firstOcc (boundaryLine body) (body.drop start.1)
  let lineEnd := if start.2 then 1 else 2
  if lineEnd ≤ p then some ((body.drop start.1).take (p - lineEnd)) else none

/-- The bytes that are written are the content. -/
theorem contentOf_save {openOk : Path → Bool} {fileName body rest : List Byte} {r : SourceGet}
    {w : Save} {len : Int} (hint : IsInt len) (hlen : len.toNat = body.length)
    (hbody : body.length ≤ 102400)
    (hr : fielSourceGet openOk (body ++ 0 :: rest) len fileName = .ok r) (hw : r.save = some w)
    (hcount : 0 ≤ w.count) : contentOf body = some w.data := by
  obtain ⟨linux, p, hstart, hne, hocc, hdist, hdata⟩ := fielSourceGet_save hint hlen hbody hr hw
  have hend := firstOcc_add_length_le hocc
  have hpos := List.length_pos_iff.mpr hne
  rw [List.length_drop] at hend
  have hle : (if linux then 1 else 2) ≤ p := by
    rw [hdist] at hcount
    cases linux <;> simp at hcount ⊢ <;> omega
  have hcut : w.count.toNat = p - if linux then 1 else 2 := by
    rw [hdist]
    split_ifs <;> omega
  rw [hcut, List.drop_append_of_le_length (by omega),
    List.take_append_of_le_length (by rw [List.length_drop]; omega)] at hdata
  simp only [contentOf, hstart, hocc, Option.bind_eq_bind, Option.bind_some]
  rw [if_pos hle, hdata]

/-- The slice lies between the end of the blank line and the boundary occurrence found, and
that occurrence ends inside the body. -/
def SliceInside (body : List Byte) (w : Save) : Prop :=
  ∃ start linux p, contentStart body = some (start, linux) ∧
    firstOcc (boundaryLine body) (body.drop start) = some p ∧
    0 ≤ w.count ∧ start ≤ w.start ∧ w.start + w.count ≤ start + p ∧
    start + p + (boundaryLine body).length ≤ body.length

/-- The boundary line does not occur at the end of the blank line nor, if that is CRLF CRLF,
one byte behind it. -/
def BoundaryApart (body : List Byte) : Prop :=
  ∀ start linux, contentStart body = some (start, linux) →
    ¬ boundaryLine body <+: body.drop start ∧
      (linux = false → ¬ boundaryLine body <+: body.drop (start + 1))

theorem fielSourceGet_slice_iff (openOk : Path → Bool) (fileName body rest : List Byte)
    (hbody : body.length < 102400) (r : SourceGet) (w : Save)
    (hr : fielSourceGet openOk (body ++ 0 :: rest) body.length fileName = .ok r)
    (hw : r.save = some w) :
    SliceInside body w ↔ BoundaryApart body := by
  have hint : IsInt body.length := by
    simp only [IsInt, intMin, intMax]
    omega
  obtain ⟨linux, p, hstart, hne, hocc, hcount, -⟩ :=
    fielSourceGet_save hint (Int.toNat_natCast _) hbody.le hr hw
  obtain ⟨-, hpre, hmin⟩ := firstOcc_eq_some_iff.mp hocc
  have hend := firstOcc_add_length_le hocc
  have hpos := List.length_pos_iff.mpr hne
  simp only [List.length_drop] at hend
  simp only [List.drop_drop] at hpre hmin
  constructor
  · rintro ⟨start, l, p', hs, hp', hnonneg, -, -, -⟩ start' l' hs'
    obtain ⟨rfl, rfl⟩ : w.start = start' ∧ linux = l' := by simpa [hstart] using hs'
    have hp : (if linux then 1 else 2) ≤ p := by
      rw [hcount] at hnonneg
      cases linux <;> simp at hnonneg ⊢
      all_goals omega
    refine ⟨fun h => hmin 0 ?_ (by simpa using h), fun hl h => hmin 1 ?_ h⟩
    · split at hp <;> omega
    · rw [hl] at hp
      simp at hp
      omega
  · intro h
    obtain ⟨hzero, hone⟩ := h w.start linux hstart
    refine ⟨w.start, linux, p, hstart, hocc, ?_, le_rfl, ?_, by omega⟩
    · have hp0 : p ≠ 0 := by
        rintro rfl
        exact hzero (by simpa using hpre)
      have hp1 : linux = false → p ≠ 1 := by
        rintro hl rfl
        exact hone hl hpre
      rw [hcount]
      cases linux
      · have := hp1 rfl
        simp
        omega
      · simp
        omega
    · rw [hcount]
      cases linux <;> simp

/-- A part with a content of one byte. -/
theorem fielSourceGet_slice_one_byte :
    SliceInside (ascii "b\r\nfilename=\"f\"\r\n\r\nc\r\nb")
      { path := ascii "f", start := 19, count := 1, data := ascii "c" } ↔
        BoundaryApart (ascii "b\r\nfilename=\"f\"\r\n\r\nc\r\nb") :=
  fielSourceGet_slice_iff (fun _ => true) (zeros 256) _ [] (by decide)
    { ret := 0
      fileName := ascii "f" ++ zeros 255
      save := some { path := ascii "f", start := 19, count := 1, data := ascii "c" } }
    _ (by decide +kernel) rfl

/-- The boundary directly behind the blank line: the count is negative. -/
theorem fielSourceGet_boundary_at_blank :
    fielSourceGet (fun _ => true) (ascii "b\r\nfilename=\"f\"\r\n\r\nb" ++ [0]) 20 (zeros 256) =
        .ok
          { ret := 0
            fileName := ascii "f" ++ zeros 255
            save := some { path := ascii "f", start := 19, count := -2, data := [] } } ∧
      ¬ SliceInside (ascii "b\r\nfilename=\"f\"\r\n\r\nb")
        { path := ascii "f", start := 19, count := -2, data := [] } :=
  ⟨by decide +kernel, fun ⟨_, _, _, _, _, hnonneg, _⟩ => absurd hnonneg (by decide)⟩

/-! ## Bodies with one part -/

/-- A request body with one part whose lines end with `eol`. -/
structure Multipart (eol : List Byte) where
  boundary : List Byte
  lines : List (List Byte)
  name : List Byte
  content : List Byte
  trailer : List Byte
  plain : ∀ l ∈ boundary :: lines, 13 ∉ l ∧ 10 ∉ l ∧ 0 ∉ l
  boundary_length : 1 ≤ boundary.length ∧ boundary.length ≤ 511
  lines_ne_nil : lines ≠ []
  line_ne_nil : ∀ l ∈ lines, l ≠ []
  name_length : 1 ≤ name.length ∧ name.length ≤ 254
  quote_notMem_name : quote ∉ name
  /-- The first `filename=` of the boundary and header lines is followed by the quoted name. -/
  filename_quoted : ∃ k, firstOcc filenameKey (boundary ++ eol ++ eol.intercalate lines) = some k ∧
    quote :: (name ++ [quote]) <+:
      (boundary ++ eol ++ eol.intercalate lines).drop (k + 9)
  boundary_notIn_content : ¬ boundary <:+: content

namespace Multipart

variable {eol : List Byte} (u : Multipart eol)

def header : List Byte := u.boundary ++ eol ++ eol.intercalate u.lines

/-- What stands behind the blank line. -/
def payload : List Byte := u.content ++ eol ++ u.boundary ++ u.trailer

def body : List Byte := u.header ++ eol ++ eol ++ u.payload

end Multipart

/-- No blank line is found before the end of non-empty lines. -/
theorem firstOcc_blank {x : Byte} {p : List Byte} (hx : x ∉ p) {lines : List (List Byte)}
    (hlines : ∀ l ∈ lines, x ∉ l) (hne : ∀ l ∈ lines, l ≠ []) (t : List Byte) :
    firstOcc (x :: p ++ x :: p) (lines.flatMap (x :: p ++ ·) ++ (x :: p ++ x :: p ++ t)) =
      some (lines.flatMap (x :: p ++ ·)).length := by
  induction lines with
  | nil => exact firstOcc_of_isPrefix (List.prefix_append _ _)
  | cons l ls ih =>
    obtain ⟨c, cs, rfl⟩ := List.exists_cons_of_ne_nil (hne l List.mem_cons_self)
    have hl : x ∉ c :: cs := hlines (c :: cs) List.mem_cons_self
    have hskip : x ∉ p ++ c :: cs := by
      rw [List.mem_append, not_or]
      exact ⟨hx, hl⟩
    have hcons : ((c :: cs) :: ls).flatMap (x :: p ++ ·) ++ (x :: p ++ x :: p ++ t) =
        x :: (p ++ c :: cs ++ (ls.flatMap (x :: p ++ ·) ++ (x :: p ++ x :: p ++ t))) := by
      simp
    have hp : ¬ x :: p ++ x :: p <+: x :: (p ++ c :: cs ++
        (ls.flatMap (x :: p ++ ·) ++ (x :: p ++ x :: p ++ t))) := by
      rw [List.cons_append, List.cons_prefix_cons, List.append_assoc, List.prefix_append_right_inj,
        List.cons_append, List.cons_prefix_cons]
      rintro ⟨-, rfl, -⟩
      exact hl List.mem_cons_self
    have hrest := ih (fun l h => hlines l (List.mem_cons_of_mem _ h))
      fun l h => hne l (List.mem_cons_of_mem _ h)
    rw [List.cons_append] at hrest
    rw [hcons, firstOcc_cons_of_not_isPrefix hp, List.cons_append, firstOcc_cons_append hskip,
      hrest]
    simp
    omega

namespace Multipart

section

variable {eol : List Byte} (u : Multipart eol) (heol : 0 ∉ eol)

include heol

theorem zero_notMem_header : 0 ∉ u.header := by
  have hlines : 0 ∉ eol.intercalate u.lines :=
    notMem_intercalate heol fun l hl => (u.plain l (List.mem_cons_of_mem _ hl)).2.2
  simp only [header, List.mem_append, not_or]
  exact ⟨⟨(u.plain _ List.mem_cons_self).2.2, heol⟩, hlines⟩

/-- The text of the body: the header, the blank line, and the content up to a NUL. -/
theorem text_body (rest : List Byte) :
    cstring (u.body ++ 0 :: rest) = u.header ++ (eol ++ eol ++ cstring u.payload) := by
  have h0 : 0 ∉ u.header ++ (eol ++ eol) := by
    simp only [List.mem_append, not_or]
    exact ⟨u.zero_notMem_header heol, heol, heol⟩
  rw [cstring_append_zero_any, body, List.append_assoc u.header,
    cstring_append_of_notMem h0, List.append_assoc]

/-- The file name is found and stored with zeros behind it. -/
theorem extractName_body (rest : List Byte) :
    extractName (zeros 256) (u.body ++ 0 :: rest) =
      .ok (some (u.name ++ zeros (256 - u.name.length))) := by
  obtain ⟨k, hk, t, ht⟩ := u.filename_quoted
  have hname := u.name_length
  have hkey : k + 9 ≤ u.header.length := firstOcc_add_length_le hk
  have hhead : u.header.drop (k + 9) = quote :: (u.name ++ quote :: t) := by
    rw [header, ← ht]
    simp
  have hbody : u.body ++ 0 :: rest =
      u.header ++ (eol ++ eol ++ u.payload ++ 0 :: rest) := by simp [body]
  have hquote : ∀ s, firstOcc [quote] (u.name ++ quote :: s) = some u.name.length := by
    intro s
    rw [firstOcc_cons_append u.quote_notMem_name, firstOcc_of_isPrefix (by simp)]
    simp
  have hsrc : ∃ s, (u.body ++ 0 :: rest).drop (k + 9 + (0 + 1)) = u.name ++ quote :: s := by
    refine ⟨t ++ (eol ++ eol ++ u.payload ++ 0 :: rest), ?_⟩
    rw [← List.drop_drop, hbody, List.drop_append_of_le_length hkey, hhead]
    simp
  obtain ⟨s, hs⟩ := hsrc
  have hopen : firstOcc [quote] ((cstring (u.body ++ 0 :: rest)).drop (k + 9)) = some 0 := by
    rw [u.text_body heol, List.drop_append_of_le_length hkey, hhead]
    exact firstOcc_of_isPrefix (by simp)
  rw [extractName_some (q := 0) (n := u.name.length) (u.text_body heol rest ▸ firstOcc_append hk _)
    hopen (hs ▸ hquote s) (by rw [length_zeros]; omega), hs, named, List.take_left, zeros,
    List.drop_replicate, List.set_append_right _ _ (by omega), List.set_replicate_self, zeros]

theorem zero_notMem_name : 0 ∉ u.name := by
  obtain ⟨k, -, hpre⟩ := u.filename_quoted
  intro h
  have hmem : 0 ∈ u.header.drop (k + 9) := hpre.subset (by simp [h])
  exact u.zero_notMem_header heol (List.mem_of_mem_drop hmem)

/-- The array with the name is read back as the name. -/
theorem readString_name : readString (u.name ++ zeros (256 - u.name.length)) = .ok u.name := by
  have hname := u.name_length
  exact readString_append_zeros (u.zero_notMem_name heol) (by omega)

end

variable (u : Multipart crlf)

theorem zero_notMem_crlf : 0 ∉ crlf := by decide

theorem lineEndOf_body (rest : List Byte) :
    lineEndOf (cstring (u.body ++ 0 :: rest)) = some u.boundary.length := by
  have hb := (u.plain u.boundary (by simp)).1
  have hfirst : firstOcc crlf (cstring (u.body ++ 0 :: rest)) = some u.boundary.length := by
    rw [u.text_body zero_notMem_crlf, header, List.append_assoc, List.append_assoc]
    refine (firstOcc_cons_append (p := lf) hb _).trans ?_
    rw [firstOcc_of_isPrefix (p := 13 :: lf) (List.prefix_append crlf _)]
    simp
  simp [lineEndOf, hfirst]

theorem blankOf_body (rest : List Byte) :
    blankOf ((cstring (u.body ++ 0 :: rest)).drop u.boundary.length) =
      some (u.header.length - u.boundary.length + 4, false) := by
  have hflat := append_intercalate_eq_flatMap crlf u.lines_ne_nil
  have hdrop : (cstring (u.body ++ 0 :: rest)).drop u.boundary.length =
      u.lines.flatMap (crlf ++ ·) ++ (crlf ++ crlf ++ cstring u.payload) := by
    rw [u.text_body zero_notMem_crlf, header, List.append_assoc, List.append_assoc,
      List.drop_left, ← List.append_assoc, hflat]
  have hlen : u.header.length = u.boundary.length + (u.lines.flatMap (crlf ++ ·)).length := by
    rw [header, List.append_assoc, hflat, List.length_append]
  have hfirst : firstOcc (crlf ++ crlf) (u.lines.flatMap (crlf ++ ·) ++
      (crlf ++ crlf ++ cstring u.payload)) = some (u.lines.flatMap (crlf ++ ·)).length :=
    firstOcc_blank (by decide) (fun l hl => (u.plain l (by simp [hl])).1) u.line_ne_nil
      (cstring u.payload)
  rw [hdrop, blankOf, hfirst, hlen]
  simp

/-- The boundary is found at the line end behind the content. -/
theorem firstOcc_boundary_payload :
    firstOcc u.boundary u.payload = some (u.content.length + 2) := by
  obtain ⟨hcr, hlf, -⟩ := u.plain u.boundary (by simp)
  have hne : u.boundary ≠ [] := List.length_pos_iff.mp (by have := u.boundary_length; omega)
  have hnil : firstOcc u.boundary [] = none := by simp [firstOcc, hne]
  have hsplit : u.payload = u.content ++ 13 :: ([] ++ 10 :: (u.boundary ++ u.trailer)) := by
    simp [payload, crlf]
  rw [hsplit, firstOcc_append_cons hcr (firstOcc_eq_none_iff.mpr u.boundary_notIn_content),
    firstOcc_append_cons hlf hnil, firstOcc_of_isPrefix (List.prefix_append _ _)]
  simp
  omega

theorem scanHeader_body (rest : List Byte) :
    scanHeader (zeros 256) (u.body ++ 0 :: rest) = .ok (.header
      { fileName := u.name ++ zeros (256 - u.name.length)
        boundary := u.boundary ++ zeros (512 - u.boundary.length)
        temSource := u.header.length + 4
        isLinuxFlag := false }) := by
  have hb := u.boundary_length
  have hline := u.lineEndOf_body rest
  have htake : (cstring (u.body ++ 0 :: rest)).take u.boundary.length = u.boundary := by
    rw [u.text_body zero_notMem_crlf, header, List.append_assoc, List.append_assoc,
      List.take_left]
  have hle : u.boundary.length ≤ u.header.length := by
    simp only [header, List.length_append]
    omega
  rw [scanHeader, u.extractName_body zero_notMem_crlf, ok_bind]
  dsimp only
  rw [scanLines_eq _ (by simp) (by rw [hline]; simp only [Option.some.injEq]; omega), hline]
  simp only [u.blankOf_body, htake, Except.ok.injEq, Scan.header.injEq, Header.mk.injEq,
    true_and, and_true]
  omega

/-- From the blank line on, `memstr` finds the boundary behind the content. -/
theorem memstr_body (rest : List Byte) (hlen : u.body.length < 102400) :
    memstr (some ((u.body ++ 0 :: rest).drop (u.header.length + 4)))
      (wrapInt (u.body.length - (u.header.length + 4 : Nat)))
      (some (u.boundary ++ zeros (512 - u.boundary.length))) =
        .ok (some (u.content.length + 2)) := by
  have hb := u.boundary_length
  have hread : readString (u.boundary ++ zeros (512 - u.boundary.length)) = .ok u.boundary :=
    readString_append_zeros (u.plain _ (by simp)).2.2 (by omega)
  have hdrop : (u.body ++ 0 :: rest).drop (u.header.length + 4) = u.payload ++ 0 :: rest := by
    rw [← List.drop_drop, body]
    simp [crlf]
  have hbody : u.body.length = u.header.length + 4 + u.payload.length := by
    simp [body, crlf]
    omega
  have hpay : u.boundary.length ≤ u.payload.length := by
    simp only [payload, List.length_append]
    omega
  have hn : (u.body.length : Int) - (u.header.length + 4 : Nat) = u.payload.length := by omega
  rw [hdrop, hn, wrapInt_of_isInt (by simp only [IsInt, intMin, intMax]; omega),
    memstr_eq hread (List.length_pos_iff.mp (by omega))
    (by simp only [intMax]; omega) (by omega) (by simp; omega) (by simp only [intMax]; omega),
    Int.toNat_natCast, List.take_left, u.firstOcc_boundary_payload]

theorem data_body (rest : List Byte) :
    ((u.body ++ 0 :: rest).drop (u.header.length + 4)).take u.content.length = u.content := by
  rw [← List.drop_drop, body, payload]
  simp [crlf]

theorem fielSourceGet_body {openOk : Path → Bool} (rest : List Byte)
    (hlen : u.body.length < 102400) (hopen : openOk u.name = true) :
    fielSourceGet openOk (u.body ++ 0 :: rest) u.body.length (zeros 256) = .ok
      { ret := 0
        fileName := u.name ++ zeros (256 - u.name.length)
        save := some
          { path := u.name
            start := u.header.length + 4
            count := u.content.length
            data := u.content } } := by
  have hcount : ((u.content.length + 2 : Nat) : Int) - 2 = u.content.length := by omega
  rw [fielSourceGet, u.scanHeader_body, ok_bind]
  dsimp only
  rw [u.memstr_body rest hlen, ok_bind]
  dsimp only
  rw [u.readString_name zero_notMem_crlf, ok_bind, if_pos hopen]
  simp only [Bool.false_eq_true, if_false, hcount, Int.toNat_natCast, u.data_body, pure_eq_ok]

end Multipart

/-- The upload of a CRLF body stores exactly the content under exactly the name. -/
theorem fielSourceGet_crlf (u : Multipart crlf) (openOk : Path → Bool) (rest : List Byte)
    (fs : Files) (hlen : u.body.length < 102400) (hopen : openOk u.name = true) :
    ∃ r, fielSourceGet openOk (u.body ++ 0 :: rest) u.body.length (zeros 256) = .ok r ∧
      r.ret = 0 ∧ r.fileName = u.name ++ zeros (256 - u.name.length) ∧
      r.files fs u.name = some u.content := by
  refine ⟨_, u.fielSourceGet_body rest hlen hopen, rfl, rfl, ?_⟩
  simp [SourceGet.files, Save.apply, Files.create, overwrite_ftruncate]

/-- The content of a CRLF body is its content. -/
theorem Multipart.contentOf_body (u : Multipart crlf) : contentOf u.body = some u.content := by
  have hline := u.lineEndOf_body []
  have hblank := u.blankOf_body []
  rw [cstring_append_zero_any] at hline hblank
  have hle : u.boundary.length ≤ u.header.length := by
    simp only [header, List.length_append]
    omega
  have hstart : contentStart u.body = some (u.header.length + 4, false) := by
    simp only [contentStart, hline, Option.bind_some, hblank, Option.map_some, Option.some.injEq,
      Prod.mk.injEq, and_true]
    omega
  have htake : boundaryLine u.body = u.boundary := by
    have htext := u.text_body zero_notMem_crlf []
    rw [cstring_append_zero_any] at htext
    rw [boundaryLine, hline, Option.getD_some, htext, header, List.append_assoc,
      List.append_assoc, List.take_left]
  have hdrop : u.body.drop (u.header.length + 4) = u.payload := by
    rw [← List.drop_drop, body]
    simp [crlf]
  simp only [contentOf, hstart, htake, hdrop, u.firstOcc_boundary_payload, Option.bind_eq_bind,
    Option.bind_some]
  simp [payload]

/-- A body whose content is a NUL and the start of its boundary. -/
def nulUpload : Multipart crlf where
  boundary := ascii "bb"
  lines := [ascii "filename=\"f\""]
  name := ascii "f"
  content := [0, 98]
  trailer := ascii "--"
  plain := by decide
  boundary_length := by decide
  lines_ne_nil := by decide
  line_ne_nil := by decide
  name_length := by decide
  quote_notMem_name := by decide
  filename_quoted := ⟨4, by decide, by decide⟩
  boundary_notIn_content := by decide

theorem fielSourceGet_crlf_nulUpload :
    ∃ r, fielSourceGet (fun _ => true) (nulUpload.body ++ [0]) nulUpload.body.length (zeros 256) =
        .ok r ∧
      r.ret = 0 ∧ r.fileName = nulUpload.name ++ zeros (256 - nulUpload.name.length) ∧
      r.files (fun _ => none) nulUpload.name = some nulUpload.content :=
  fielSourceGet_crlf nulUpload (fun _ => true) [] (fun _ => none) (by decide) rfl

end CgiFileStore
