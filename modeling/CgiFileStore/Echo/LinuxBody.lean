import CgiFileStore.Echo.Multipart

/-!
# Bodies with LF line ends

The scan takes the first CRLF of the body for the end of the first line, and only without one
the first LF. What is stored of a body with LF line ends is decided by whether its content or
trailer has a CRLF in front of a NUL.
-/

namespace CgiFileStore

open CSem Search

/-! ## What the write step leaves -/

theorem Save.apply_path (w : Save) (fs : Files) :
    w.apply fs w.path = some (overwrite (ftruncate ((fs w.path).getD []) w.count) w.data) := by
  simp [Save.apply, Files.create]

/-- The file is `content`, whatever it was before, if this is what was truncated to and written,
and not otherwise. -/
theorem Save.apply_eq_iff {w : Save} (hdata : w.data.length = w.count.toNat)
    {content : List Byte} :
    (∀ fs, w.apply fs w.path = some content) ↔ w.count = content.length ∧ w.data = content := by
  simp only [Save.apply_path, Option.some.injEq]
  constructor
  · intro h
    obtain hneg | hpos := lt_or_ge w.count 0
    · -- nothing is truncated or written, so every old content stays
      have hnil : w.data = [] := List.eq_nil_of_length_eq_zero (by omega)
      have hstay : ∀ old : List Byte, old = content := by
        intro old
        simpa [ftruncate, not_le.mpr hneg, hnil, overwrite] using h fun _ => some old
      exact absurd ((hstay []).trans (hstay [0]).symm) (by simp)
    · have hcount : w.count = w.data.length := by omega
      have hcontent := h fun _ => none
      rw [hcount, overwrite_ftruncate] at hcontent
      exact ⟨hcontent ▸ hcount, hcontent⟩
  · rintro ⟨hcount, rfl⟩ fs
    rw [hcount, overwrite_ftruncate]

/-- With a first line of `e` bytes: behind the first blank line there is the content, and behind
that, at the distance of one line end, the first line again for the first time. -/
def StoredBehind (body content : List Byte) (e : Nat) : Prop :=
  match blankOf ((cstring body).drop e) with
  | none => False
  | some (k, linux) =>
    firstOcc ((cstring body).take e) (body.drop (e + k)) =
        some (content.length + if linux then 1 else 2) ∧
      content <+: body.drop (e + k)

section

variable {openOk : Path → Bool} {body rest name path content : List Byte} {e : Nat}

/-- The write step stores the bytes between the blank line and the first line found again. -/
theorem stored_iff {w : Save} {start p : Nat} {linux : Bool} {line : List Byte}
    (hocc : firstOcc line (body.drop start) = some p)
    (hcount : w.count = if linux then (p : Int) - 1 else p - 2)
    (hdata : w.data = ((body ++ 0 :: rest).drop start).take w.count.toNat) :
    (∀ fs, w.apply fs w.path = some content) ↔
      p = content.length + (if linux then 1 else 2) ∧ content <+: body.drop start := by
  have hend := firstOcc_add_length_le hocc
  have hle : w.count.toNat ≤ p := by
    rw [hcount]
    split <;> omega
  have hbody : (body.drop start).length = body.length - start := List.length_drop
  have hslice : w.data = (body.drop start).take w.count.toNat := by
    obtain hstart | hstart := le_or_gt start body.length
    · rw [hdata, List.drop_append_of_le_length hstart,
        List.take_append_of_le_length (by omega)]
    · have hzero : w.count.toNat = 0 := by omega
      rw [hdata, hzero, List.take_zero, List.take_zero]
  have hlen : w.data.length = w.count.toNat := by
    rw [hslice, List.length_take]
    omega
  have hdist : w.count = content.length ↔ p = content.length + (if linux then 1 else 2) := by
    rw [hcount]
    split <;> omega
  rw [Save.apply_eq_iff hlen, hdist, List.prefix_iff_eq_take]
  refine and_congr_right fun hp => ?_
  have hcount' : w.count.toNat = content.length := by rw [hdist.mpr hp, Int.toNat_natCast]
  rw [hslice, hcount', eq_comm]

/-- Behind the blank line `memstr` looks for the first line. -/
theorem memstr_firstLine {k : Nat} (hbody : body.length < 102400) (hpos : 0 < e) (hfit : e < 512)
    (hle : e ≤ (cstring body).length) (hk : e + k ≤ body.length) :
    memstr (some ((body ++ 0 :: rest).drop (e + k))) (wrapInt (body.length - (e + k : Nat)))
      (some ((cstring body).take e ++ zeros (512 - e))) =
        .ok (firstOcc ((cstring body).take e) (body.drop (e + k))) := by
  have hline : ((cstring body).take e).length = e := by
    rw [List.length_take]
    omega
  have hne : (cstring body).take e ≠ [] := List.length_pos_iff.mp (by omega)
  have hread : readString ((cstring body).take e ++ zeros (512 - e)) =
      .ok ((cstring body).take e) :=
    readString_append_zeros (fun h => zero_notMem_cstring body (List.mem_of_mem_take h)) (by omega)
  have hint : IsInt body.length := by
    simp only [IsInt, intMin, intMax]
    omega
  rw [memstr_content hread (by omega) hbody.le hint (Int.toNat_natCast _) hk]
  split_ifs with h
  · have hend : body.drop (e + k) = [] := List.drop_eq_nil_of_le (by grind)
    rw [hend]
    simp [firstOcc, hne]
  · rfl

/-- What is stored, for any body whose name is extracted and whose first line fits. -/
theorem fielSourceGet_stored_iff
    (hname : extractName (zeros 256) (body ++ 0 :: rest) = .ok (some name))
    (hpath : readString name = .ok path) (hopen : openOk path = true)
    (hbody : body.length < 102400) (he : lineEndOf (cstring body) = some e) (hpos : 0 < e)
    (hfit : e < 512) :
    (∃ r, fielSourceGet openOk (body ++ 0 :: rest) body.length (zeros 256) = .ok r ∧ r.ret = 0 ∧
      ∀ fs, r.files fs path = some content) ↔ StoredBehind body content e := by
  have h0 : 0 ∈ body ++ 0 :: rest := by simp
  have htext : cstring (body ++ 0 :: rest) = cstring body := cstring_append_zero_any _ _
  have hscan := scanLines_eq name h0 (by rw [htext, he]; grind)
  simp only [htext, he] at hscan
  rw [fielSourceGet, scanHeader, hname, ok_bind]
  dsimp only
  rw [hscan, StoredBehind]
  cases hb : blankOf ((cstring body).drop e) with
  | none => simp
  | some b =>
    obtain ⟨k, linux⟩ := b
    have hle := (lineEndOf_lt he).le
    have hk := blankOf_le hb
    have hshort := (cstring_isPrefix body).length_le
    rw [List.length_drop] at hk
    rw [ok_bind]
    dsimp only
    rw [memstr_firstLine hbody hpos hfit hle (by omega), ok_bind]
    cases hp : firstOcc ((cstring body).take e) (body.drop (e + k)) with
    | none => simp
    | some p =>
      let count : Int := if linux = true then p - 1 else p - 2
      have hstored : (∀ fs, Save.apply { path, start := e + k, count, data :=
          ((body ++ 0 :: rest).drop (e + k)).take count.toNat } fs path = some content) ↔ _ :=
        stored_iff hp rfl rfl
      dsimp only
      rw [hpath, ok_bind, if_pos hopen]
      simpa only [pure_eq_ok, Except.ok.injEq, exists_eq_left', SourceGet.files, true_and,
        Option.some.injEq] using hstored

end

/-! ## Multipart bodies with LF line ends -/

namespace Multipart

variable (u : Multipart lf)

theorem zero_notMem_lf : 0 ∉ lf := by decide

theorem text_lf : cstring u.body = u.header ++ (lf ++ lf ++ cstring u.payload) := by
  rw [← u.text_body zero_notMem_lf [], cstring_append_zero_any]

/-- The first line of the body is the boundary if there is no CRLF. -/
theorem lineEndOf_lf (h : firstOcc crlf (cstring u.body) = none) :
    lineEndOf (cstring u.body) = some u.boundary.length := by
  have hb := (u.plain u.boundary List.mem_cons_self).2.1
  have hfirst : firstOcc lf (cstring u.body) = some u.boundary.length := by
    rw [u.text_lf, header, List.append_assoc, List.append_assoc]
    refine (firstOcc_cons_append hb _).trans ?_
    rw [firstOcc_of_isPrefix (p := 10 :: []) (List.prefix_append lf _)]
    simp
  rw [lineEndOf, h]
  exact hfirst

theorem drop_boundary_lf : (cstring u.body).drop u.boundary.length =
    u.lines.flatMap (lf ++ ·) ++ (lf ++ lf ++ cstring u.payload) := by
  rw [u.text_lf, header, List.append_assoc, List.append_assoc, List.drop_left,
    ← List.append_assoc, append_intercalate_eq_flatMap lf u.lines_ne_nil]

theorem length_header_lf :
    u.header.length = u.boundary.length + (u.lines.flatMap (lf ++ ·)).length := by
  rw [header, List.append_assoc, append_intercalate_eq_flatMap lf u.lines_ne_nil,
    List.length_append]

theorem blankOf_lf (h : firstOcc crlf (cstring u.body) = none) :
    blankOf ((cstring u.body).drop u.boundary.length) =
      some ((u.lines.flatMap (lf ++ ·)).length + 2, true) := by
  have hnone : firstOcc (crlf ++ crlf) ((cstring u.body).drop u.boundary.length) = none := by
    rw [firstOcc_eq_none_iff] at h ⊢
    intro hblank
    exact h ((List.prefix_append crlf crlf).isInfix.trans
      (hblank.trans (List.drop_suffix _ _).isInfix))
  have hfirst : firstOcc (lf ++ lf) (u.lines.flatMap (lf ++ ·) ++
      (lf ++ lf ++ cstring u.payload)) = some (u.lines.flatMap (lf ++ ·)).length :=
    firstOcc_blank List.not_mem_nil
      (fun l hl => (u.plain l (List.mem_cons_of_mem _ hl)).2.1) u.line_ne_nil (cstring u.payload)
  rw [blankOf, hnone, u.drop_boundary_lf, hfirst]
  rfl

theorem firstOcc_boundary_lf : firstOcc u.boundary u.payload = some (u.content.length + 1) := by
  have hlf := (u.plain u.boundary List.mem_cons_self).2.1
  have hsplit : u.payload = u.content ++ 10 :: (u.boundary ++ u.trailer) := by
    simp [payload, lf]
  rw [hsplit, firstOcc_append_cons hlf (firstOcc_eq_none_iff.mpr u.boundary_notIn_content),
    firstOcc_of_isPrefix (List.prefix_append _ _)]
  simp

/-- Without a CRLF in the text the content stands between the blank line and the boundary. -/
theorem storedBehind_lf (h : firstOcc crlf (cstring u.body) = none) :
    StoredBehind u.body u.content u.boundary.length := by
  have hdrop : u.body.drop (u.boundary.length + ((u.lines.flatMap (lf ++ ·)).length + 2)) =
      u.payload := by
    rw [← Nat.add_assoc, ← u.length_header_lf, ← List.drop_drop, body]
    simp [lf]
  have htake : (cstring u.body).take u.boundary.length = u.boundary := by
    rw [u.text_lf, header, List.append_assoc, List.append_assoc, List.take_left]
  rw [StoredBehind, u.blankOf_lf h]
  dsimp only
  rw [hdrop, htake, u.firstOcc_boundary_lf]
  refine ⟨rfl, ?_⟩
  rw [payload, List.append_assoc, List.append_assoc]
  exact List.prefix_append _ _

/-- A CRLF of the text stands behind the boundary. -/
theorem firstOcc_crlf_pos {e : Nat} (h : firstOcc crlf (cstring u.body) = some e) : 0 < e := by
  have hb := u.boundary_length
  have hcr := (u.plain u.boundary List.mem_cons_self).1
  rw [u.text_lf, header, List.append_assoc, List.append_assoc] at h
  have hskip := firstOcc_cons_append (p := lf) hcr
    (lf ++ (lf.intercalate u.lines ++ (lf ++ lf ++ cstring u.payload)))
  rw [show crlf = 13 :: lf from rfl, hskip] at h
  obtain ⟨p, -, rfl⟩ := Option.map_eq_some_iff.mp h
  omega

end Multipart

/-- The upload of an LF body stores exactly the content if its text has no CRLF, and otherwise
only if what the scan takes for the first line occurs again behind a second copy of the content. -/
theorem fielSourceGet_lf_iff (u : Multipart lf) (openOk : Path → Bool) (rest : List Byte)
    (hlen : u.body.length < 102400) (hopen : openOk u.name = true) :
    (∃ r, fielSourceGet openOk (u.body ++ 0 :: rest) u.body.length (zeros 256) = .ok r ∧
      r.ret = 0 ∧ ∀ fs, r.files fs u.name = some u.content) ↔
      ¬ crlf <:+: cstring u.body ∨
        ∃ e, firstOcc crlf (cstring u.body) = some e ∧ e < 512 ∧
          StoredBehind u.body u.content e := by
  have hname := u.extractName_body Multipart.zero_notMem_lf rest
  have hpath := u.readString_name Multipart.zero_notMem_lf
  have hb := u.boundary_length
  rw [← firstOcc_eq_none_iff]
  cases he : firstOcc crlf (cstring u.body) with
  | none =>
    rw [fielSourceGet_stored_iff hname hpath hopen hlen (u.lineEndOf_lf he) (by omega) (by omega)]
    exact iff_of_true (u.storedBehind_lf he) (.inl rfl)
  | some e =>
    have hline : lineEndOf (cstring u.body) = some e := by rw [lineEndOf, he]
    obtain hfit | hlong := lt_or_ge e 512
    · rw [fielSourceGet_stored_iff hname hpath hopen hlen hline (u.firstOcc_crlf_pos he) hfit]
      simp [hfit]
    · refine iff_of_false ?_ (by simp; omega)
      rintro ⟨r, hr, -⟩
      rw [fielSourceGet, scanHeader, hname, ok_bind] at hr
      obtain ⟨scan, hscan, -⟩ := bind_eq_ok.mp hr
      refine scanLines_ne_ok (by simp) ?_ hlong _ hscan
      rw [cstring_append_zero_any, hline]

/-- An LF body whose content has a LF. -/
def newlineUpload : Multipart lf where
  boundary := nulUpload.boundary
  lines := nulUpload.lines
  name := nulUpload.name
  content := ascii "a\nb"
  trailer := nulUpload.trailer
  plain := nulUpload.plain
  boundary_length := nulUpload.boundary_length
  lines_ne_nil := nulUpload.lines_ne_nil
  line_ne_nil := nulUpload.line_ne_nil
  name_length := nulUpload.name_length
  quote_notMem_name := nulUpload.quote_notMem_name
  filename_quoted := ⟨3, by decide, by decide⟩
  boundary_notIn_content := by decide

theorem fielSourceGet_lf_newlineUpload :
    ∃ r, fielSourceGet (fun _ => true) (newlineUpload.body ++ [0]) newlineUpload.body.length
        (zeros 256) =
        .ok r ∧
      r.ret = 0 ∧ ∀ fs, r.files fs newlineUpload.name = some newlineUpload.content :=
  (fielSourceGet_lf_iff newlineUpload (fun _ => true) [] (by decide) rfl).mpr (.inl (by decide))

/-- The same body with a CRLF in its content. -/
def mixedUpload : Multipart lf :=
  { newlineUpload with content := ascii "a\r\nb", boundary_notIn_content := by decide }

/-- No blank line is found behind the CRLF, and nothing is stored. -/
theorem fielSourceGet_lf_mixedUpload :
    ¬ ∃ r, fielSourceGet (fun _ => true) (mixedUpload.body ++ [0]) mixedUpload.body.length
        (zeros 256) = .ok r ∧
      r.ret = 0 ∧ ∀ fs, r.files fs mixedUpload.name = some mixedUpload.content := by
  rintro ⟨r, hr, hret, -⟩
  have hrun : fielSourceGet (fun _ => true) (mixedUpload.body ++ [0]) mixedUpload.body.length
      (zeros 256) = .ok { ret := 1, fileName := ascii "f" ++ zeros 255, save := none } := by
    decide +kernel
  rw [hrun] at hr
  cases hr
  cases hret

end CgiFileStore
