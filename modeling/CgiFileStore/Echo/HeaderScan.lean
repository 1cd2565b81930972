import CgiFileStore.Echo.EchoOp

/-!
# What the header scan reads and finds

The pieces of `scanHeader` are evaluated on any object in which the searches succeed, the
scan is shown to be local, and the bodies are given on which it stays inside the body,
inside `file_name` and inside the boundary buffer.
-/

namespace CgiFileStore

open CSem Search

/-! ## The copy of the name -/

/-- The loop copies up to the first quote, and faults when `file_name` is too short. -/
theorem copyName_eq {src fileName : List Byte} {i n : Nat} (h : firstOcc [quote] src = some n)
    (hi : i ≤ fileName.length) :
    copyName src fileName i =
      if i + n ≤ fileName.length then
        .ok (fileName.take i ++ src.take n ++ fileName.drop (i + n), i + n)
      else .error .write := by
  induction src generalizing fileName i n with
  | nil => simp [firstOcc] at h
  | cons c cs ih =>
    by_cases hc : c = quote
    · have hn : n = 0 := by
        have := firstOcc_of_isPrefix (p := [quote]) (s := c :: cs) (by simp [hc])
        simpa [h, eq_comm] using this
      simp [copyName, hc, hn, hi]
    · have hp : ¬ [quote] <+: c :: cs := by simpa [List.cons_prefix_cons] using Ne.symm hc
      rw [firstOcc_cons_of_not_isPrefix hp] at h
      obtain ⟨n, hn, rfl⟩ := Option.map_eq_some_iff.mp h
      rw [copyName, if_neg hc]
      obtain hlt | hge := Nat.lt_or_ge i fileName.length
      · rw [store_of_lt hlt, ok_bind, ih hn (by simp; omega)]
        simp only [List.length_set, Nat.add_assoc, Nat.add_comm 1 n]
        split
        · rw [List.take_succ_eq_append_getElem (by simpa using hlt), List.drop_set_of_lt (by omega),
            List.take_set_of_le le_rfl]
          simp
        · rfl
      · rw [if_neg (by omega)]
        simp [store, Nat.not_lt.mpr hge]

/-- Without a quote the loop runs off the object or off `file_name`. -/
theorem copyName_ne_ok {src fileName : List Byte} {i : Nat} (h : firstOcc [quote] src = none)
    (r : List Byte × Nat) : copyName src fileName i ≠ .ok r := by
  induction src generalizing fileName i with
  | nil => simp [copyName]
  | cons c cs ih =>
    have hp : ¬ [quote] <+: c :: cs := fun hp => by simp [firstOcc_of_isPrefix hp] at h
    have hc : c ≠ quote := by simpa [List.cons_prefix_cons, eq_comm] using hp
    rw [firstOcc_cons_of_not_isPrefix hp, Option.map_eq_none_iff] at h
    rw [copyName, if_neg hc]
    intro hr
    obtain ⟨buf, -, hbuf⟩ := bind_eq_ok.mp hr
    exact ih h hbuf

theorem length_copyName {src fileName : List Byte} {i : Nat} {r : List Byte × Nat}
    (h : copyName src fileName i = .ok r) : r.1.length = fileName.length := by
  induction src generalizing fileName i with
  | nil => simp [copyName] at h
  | cons c cs ih =>
    rw [copyName] at h
    split at h
    · obtain rfl : (fileName, i) = r := by simpa using h
      rfl
    · obtain ⟨buf, hbuf, hrest⟩ := bind_eq_ok.mp h
      rw [ih hrest, length_store hbuf]

theorem local_copyName (fileName : List Byte) (i : Nat) :
    Local fun src => copyName src fileName i := by
  intro m r h t
  dsimp only at h ⊢
  induction m generalizing fileName i with
  | nil => simp [copyName] at h
  | cons c cs ih =>
    rw [List.cons_append, copyName]
    rw [copyName] at h
    split at h
    · next hc => rw [if_pos hc, h]
    · next hc =>
      obtain ⟨buf, hbuf, hrest⟩ := bind_eq_ok.mp h
      rw [if_neg hc, hbuf, ok_bind]
      exact ih buf (i + 1) hrest

/-- The array after the name: `n` bytes of the body, the byte at `n` as it was, a NUL. -/
def named (fileName src : List Byte) (n : Nat) : List Byte :=
  (src.take n ++ fileName.drop n).set (n + 1) 0

/-! ## The pieces on an object where the searches succeed -/

theorem extractName_none {m fileName : List Byte} (h0 : 0 ∈ m)
    (hk : firstOcc filenameKey (cstring m) = none) : extractName fileName m = .ok none := by
  simp [extractName, strstr_of_mem h0, hk]

theorem length_extractName {m fileName name : List Byte}
    (h : extractName fileName m = .ok (some name)) : name.length = fileName.length := by
  obtain ⟨p, -, h⟩ := bind_eq_ok.mp h
  cases p with
  | none => simp at h
  | some p =>
    obtain ⟨q, -, h⟩ := bind_eq_ok.mp h
    cases q with
    | none => simp at h
    | some q =>
      obtain ⟨⟨buf, i⟩, hcopy, h⟩ := bind_eq_ok.mp h
      obtain ⟨buf', hstore, h⟩ := bind_eq_ok.mp h
      obtain rfl : buf' = name := by simpa using h
      rw [length_store hstore]
      exact length_copyName hcopy

section

variable {m fileName : List Byte} {k q n : Nat}

theorem extractName_some (hk : firstOcc filenameKey (cstring m) = some k)
    (hq : firstOcc [quote] ((cstring m).drop (k + 9)) = some q)
    (hn : firstOcc [quote] (m.drop (k + 9 + (q + 1))) = some n)
    (hfit : n + 1 < fileName.length) :
    extractName fileName m =
      .ok (some (named fileName (m.drop (k + 9 + (q + 1))) n)) := by
  have hkey : filenameKey.length = 9 := rfl
  have hle : k + 9 ≤ (cstring m).length := hkey ▸ firstOcc_add_length_le hk
  have hstrchr : strchr (m.drop (k + 9)) quote = .ok (some q) := by
    rw [strchr_eq_strstr]
    apply strstr_some
    rw [cstring_drop hle, hq]
  have hcopy : copyName (m.drop (k + 9 + (q + 1))) fileName 0 =
      .ok ((m.drop (k + 9 + (q + 1))).take n ++ fileName.drop n, n) := by
    rw [copyName_eq hn (by omega), if_pos (by omega)]
    simp
  have hlen : ((m.drop (k + 9 + (q + 1))).take n).length = n := by
    have := firstOcc_add_length_le hn
    simp only [List.length_take, List.length_singleton] at this ⊢
    omega
  simp only [extractName, strstr_some hk, hkey, ok_bind, hstrchr, hcopy]
  rw [store_of_lt (by simp only [List.length_append, hlen, List.length_drop]; omega)]
  simp [named]

/-- The failures of the name extraction: no opening quote, no closing quote, or a name that
does not leave room for the NUL. -/
theorem extractName_ne_ok (h0 : 0 ∈ m) (hk : firstOcc filenameKey (cstring m) = some k)
    (hbad : ∀ q n, firstOcc [quote] ((cstring m).drop (k + 9)) = some q →
      firstOcc [quote] (m.drop (k + 9 + (q + 1))) = some n → fileName.length ≤ n + 1)
    (r : Option (List Byte)) : extractName fileName m ≠ .ok r := by
  have hkey : filenameKey.length = 9 := rfl
  have hle : k + 9 ≤ (cstring m).length := hkey ▸ firstOcc_add_length_le hk
  simp only [extractName, strstr_some hk, hkey, ok_bind, strchr_eq_strstr,
    strstr_of_mem (zero_mem_drop h0 hle), cstring_drop hle]
  cases hq : firstOcc [quote] ((cstring m).drop (k + 9)) with
  | none => simp
  | some q =>
    intro hr
    obtain ⟨⟨buf, i⟩, hcopy, hrest⟩ := bind_eq_ok.mp hr
    cases hn : firstOcc [quote] (m.drop (k + 9 + (q + 1))) with
    | none => exact copyName_ne_ok hn _ hcopy
    | some n =>
      have hlong := hbad q n hq hn
      rw [copyName_eq hn (by omega)] at hcopy
      split at hcopy
      · obtain ⟨rfl, rfl⟩ : _ ∧ _ := by simpa using hcopy
        obtain ⟨buf, hstore, -⟩ := bind_eq_ok.mp hrest
        have := (store_eq_ok.mp hstore).1
        simp only [List.length_append, List.length_take, List.length_drop] at this
        omega
      · cases hcopy

end

/-- The end of the first line of a text. -/
def lineEndOf (text : List Byte) : Option Nat :=
  match firstOcc crlf text with
  | some p => some p
  | none => firstOcc lf text

/-- The end of the first blank line of a text, and whether it was found as LF LF. -/
def blankOf (text : List Byte) : Option (Nat × Bool) :=
  match firstOcc (crlf ++ crlf) text with
  | some p => some (p + 4, false)
  | none => (firstOcc (lf ++ lf) text).map fun p => (p + 2, true)

theorem lineEndOf_lt {text : List Byte} {e : Nat} (h : lineEndOf text = some e) :
    e < text.length := by
  have hcrlf : crlf.length = 2 := rfl
  have hlf : lf.length = 1 := rfl
  unfold lineEndOf at h
  split at h
  · next p hp =>
    have := firstOcc_add_length_le hp
    simp only [Option.some.injEq] at h
    omega
  · have := firstOcc_add_length_le h
    omega

theorem blankOf_le {text : List Byte} {k : Nat} {linux : Bool}
    (h : blankOf text = some (k, linux)) : k ≤ text.length := by
  have hcrlf : (crlf ++ crlf).length = 4 := rfl
  have hlf : (lf ++ lf).length = 2 := rfl
  unfold blankOf at h
  split at h
  · next p hp =>
    have := firstOcc_add_length_le hp
    simp only [Option.some.injEq, Prod.mk.injEq] at h
    omega
  · obtain ⟨p, hp, heq⟩ := Option.map_eq_some_iff.mp h
    have := firstOcc_add_length_le hp
    simp only [Prod.mk.injEq] at heq
    omega

section

variable {m : List Byte}

theorem lineEnd_terminated (h0 : 0 ∈ m) : lineEnd m = .ok (lineEndOf (cstring m)) := by
  simp only [lineEnd, strstr_of_mem h0, ok_bind, lineEndOf]
  cases firstOcc crlf (cstring m) <;> rfl

theorem lineEnd_crlf {e : Nat} (h : firstOcc crlf (cstring m) = some e) :
    lineEnd m = .ok (some e) := by
  simp [lineEnd, strstr_some h]

theorem blankLine_terminated (h0 : 0 ∈ m) : blankLine m = .ok (blankOf (cstring m)) := by
  simp only [blankLine, strstr_of_mem h0, ok_bind, blankOf]
  cases firstOcc (crlf ++ crlf) (cstring m) with
  | some p => rfl
  | none => cases firstOcc (lf ++ lf) (cstring m) <;> rfl

/-- The first line is copied when its terminating NUL still fits. -/
theorem takeBoundary_eq {e : Nat} (he : e ≤ (cstring m).length) (hfit : e < 512) :
    takeBoundary e m = .ok ((cstring m).take e ++ zeros (512 - e)) := by
  have hm : e ≤ m.length := he.trans (cstring_isPrefix m).length_le
  have htake : m.take e = (cstring m).take e := by
    obtain ⟨t, ht⟩ := cstring_isPrefix m
    conv_lhs => rw [← ht, List.take_append_of_le_length he]
  have hlen : ((cstring m).take e).length = e := by simpa using he
  have h0 : 0 ∉ m.take e := by
    rw [htake]
    exact fun h => zero_notMem_cstring m (List.mem_of_mem_take h)
  have hz : (zeros 512).drop e = 0 :: zeros (511 - e) := by
    simp only [zeros, List.drop_replicate, ← List.replicate_succ]
    congr 1
    omega
  have hz' : zeros (512 - e) = 0 :: zeros (511 - e) := by
    simp only [zeros, ← List.replicate_succ]
    congr 1
    omega
  rw [takeBoundary, maxBoundaryBuf, strncpy_take hm h0 (by simpa using hfit.le), ok_bind,
    store_of_lt (by simp; omega), htake, hz, hz', List.set_append_right _ _ hlen.le, hlen]
  simp

theorem takeBoundary_ne_ok {e : Nat} (h : 512 ≤ e) (r : List Byte) :
    takeBoundary e m ≠ .ok r := by
  intro hr
  have hlt := length_lt_of_strncpy_store hr
  simp only [maxBoundaryBuf, length_zeros] at hlt
  omega

/-- On a terminated object with a first line of less than 512 bytes the scan after the name
is decided by the text. -/
theorem scanLines_eq (fileName : List Byte) (h0 : 0 ∈ m)
    (hline : ∀ e, lineEndOf (cstring m) = some e → e < 512) :
    scanLines fileName m = .ok (match lineEndOf (cstring m) with
      | none => .done 1 fileName
      | some e => match blankOf ((cstring m).drop e) with
        | none => .done 1 fileName
        | some (k, linux) => .header
          { fileName, boundary := (cstring m).take e ++ zeros (512 - e), temSource := e + k,
            isLinuxFlag := linux }) := by
  rw [scanLines, lineEnd_terminated h0, ok_bind]
  cases he : lineEndOf (cstring m) with
  | none => rfl
  | some e =>
    have hle := (lineEndOf_lt he).le
    simp only [takeBoundary_eq hle (hline e he), ok_bind,
      blankLine_terminated (zero_mem_drop h0 hle), cstring_drop hle]
    rcases blankOf ((cstring m).drop e) with _ | ⟨k, linux⟩ <;> rfl

theorem scanLines_ne_ok {fileName : List Byte} {e : Nat} (h0 : 0 ∈ m)
    (he : lineEndOf (cstring m) = some e) (hlong : 512 ≤ e) (r : Scan) :
    scanLines fileName m ≠ .ok r := by
  rw [scanLines, lineEnd_terminated h0, he, ok_bind]
  intro hr
  obtain ⟨boundary, hb, -⟩ := bind_eq_ok.mp hr
  exact takeBoundary_ne_ok hlong boundary hb

end

/-- The array that the scan hands on. -/
def Scan.fileName : Scan → List Byte
  | .done _ fileName => fileName
  | .header h => h.fileName

theorem scanLines_fileName {m fileName : List Byte} {r : Scan}
    (h : scanLines fileName m = .ok r) : r.fileName = fileName := by
  obtain ⟨e, -, h⟩ := bind_eq_ok.mp h
  cases e with
  | none =>
    obtain rfl : _ = r := by simpa using h
    rfl
  | some e =>
    obtain ⟨boundary, -, h⟩ := bind_eq_ok.mp h
    obtain ⟨blank, -, h⟩ := bind_eq_ok.mp h
    rcases blank with _ | ⟨k, linux⟩
    · obtain rfl : _ = r := by simpa using h
      rfl
    · obtain rfl : _ = r := by simpa using h
      rfl

/-- The scan writes into `file_name` and keeps its size. -/
theorem length_scanHeader {m fileName : List Byte} {r : Scan}
    (h : scanHeader fileName m = .ok r) : r.fileName.length = fileName.length := by
  obtain ⟨name, hname, h⟩ := bind_eq_ok.mp h
  cases name with
  | none =>
    obtain rfl : _ = r := by simpa using h
    rfl
  | some name => rw [scanLines_fileName h, length_extractName hname]

/-! ## Locality of the scan -/

theorem local_strchr (c : Byte) : Local fun m => strchr m c := local_strstr [c]

theorem strchr_nil_ne_ok (c : Byte) (r : Option Nat) : strchr [] c ≠ .ok r := by
  rw [strchr_eq_strstr]
  exact strstr_nil_ne_ok (by simp) r

theorem copyName_nil_ne_ok (fileName : List Byte) (i : Nat) (r : List Byte × Nat) :
    copyName [] fileName i ≠ .ok r := by
  simp [copyName]

theorem local_extractName (fileName : List Byte) : Local (extractName fileName) := by
  refine (local_strstr filenameKey).bind fun p => ?_
  cases p with
  | none => exact Local.const _
  | some p =>
    refine Local.bind ((local_strchr quote).drop (strchr_nil_ne_ok quote) _) fun q => ?_
    cases q with
    | none => exact Local.const _
    | some q =>
      refine Local.bind ((local_copyName fileName 0).drop (copyName_nil_ne_ok _ _) _) fun r => ?_
      exact Local.const _

theorem local_lineEnd : Local lineEnd := by
  refine (local_strstr crlf).bind fun p => ?_
  cases p with
  | none => exact local_strstr lf
  | some p => exact Local.const _

theorem local_takeBoundary (n : Nat) : Local (takeBoundary n) :=
  (local_strncpy _ 0 n).bind fun _ => Local.const _

theorem local_blankLine : Local blankLine := by
  refine (local_strstr (crlf ++ crlf)).bind fun p => ?_
  cases p with
  | some p => exact Local.const _
  | none =>
    refine (local_strstr (lf ++ lf)).bind fun p => ?_
    cases p <;> exact Local.const _

theorem blankLine_nil_ne_ok (r : Option (Nat × Bool)) : blankLine [] ≠ .ok r := by
  intro h
  obtain ⟨p, hp, -⟩ := bind_eq_ok.mp h
  exact strstr_nil_ne_ok (by decide) p hp

theorem local_scanLines (fileName : List Byte) : Local (scanLines fileName) := by
  refine local_lineEnd.bind fun e => ?_
  cases e with
  | none => exact Local.const _
  | some e =>
    refine (local_takeBoundary e).bind fun boundary => ?_
    refine Local.bind (local_blankLine.drop blankLine_nil_ne_ok e) fun blank => ?_
    rcases blank with _ | ⟨k, linux⟩ <;> exact Local.const _

/-- The header scan reads nothing behind an object on which it ends without a fault. -/
theorem local_scanHeader (fileName : List Byte) : Local (scanHeader fileName) := by
  refine (local_extractName fileName).bind fun name => ?_
  cases name with
  | none => exact Local.const _
  | some fileName => exact local_scanLines fileName

/-! ## Bodies that settle the scan -/

/-- The name that `filename=` announces in the text is closed in the body. -/
def NameClosed (body : List Byte) : Prop :=
  ∀ k q, firstOcc filenameKey (cstring body) = some k →
    firstOcc [quote] ((cstring body).drop (k + 9)) = some q →
      quote ∈ body.drop (k + 9 + (q + 1))

/-- The search for the opening quote ends in the body. -/
def NameFound (body : List Byte) : Prop :=
  ∃ k, firstOcc filenameKey body = some k ∧ quote ∈ body.drop (k + 9)

/-- Where the quotes of a body begin: inside its string. -/
theorem quotes_le {body : List Byte} {k q : Nat}
    (hk : firstOcc filenameKey (cstring body) = some k)
    (hq : firstOcc [quote] ((cstring body).drop (k + 9)) = some q) :
    k + 9 + (q + 1) ≤ body.length := by
  have h1 := firstOcc_add_length_le hk
  have h2 := firstOcc_add_length_le hq
  have h3 := (cstring_isPrefix body).length_le
  simp only [filenameKey, ascii, List.length_map, List.length_drop, List.length_singleton] at h1 h2
  have h4 : "filename=".toList.length = 9 := rfl
  omega

section

variable {m fileName : List Byte}

theorem settled_copyName (fileName : List Byte) {src : List Byte} (h : quote ∈ src) :
    Settled (fun src => copyName src fileName 0) src := by
  intro t
  obtain ⟨n, hn⟩ := Option.isSome_iff_exists.mp
    (firstOcc_isSome_iff.mpr ((List.singleton_infix_iff quote src).mpr h))
  have hle := firstOcc_add_length_le hn
  rw [List.length_singleton] at hle
  dsimp only
  rw [copyName_eq hn (Nat.zero_le _), copyName_eq (firstOcc_append hn t) (Nat.zero_le _),
    List.take_append_of_le_length (by omega)]

/-- The name is extracted inside the body, or not at all. -/
theorem settled_extractName (fileName : List Byte) (hstop : 0 ∈ m ∨ NameFound m)
    (hclosed : NameClosed m) : Settled (extractName fileName) m := by
  have hname : 0 ∈ m ∨ filenameKey <:+: m :=
    hstop.imp_right fun ⟨k, hk, _⟩ => firstOcc_isSome_iff.mp (by rw [hk]; rfl)
  refine (settled_strstr hname).bind fun p hp => ?_
  cases p with
  | none => exact .const _ m
  | some k =>
    have hkey : filenameKey.length = 9 := rfl
    obtain hk := strstr_eq_ok_some hp
    have hle := firstOcc_add_length_le hk
    have hshort := (cstring_isPrefix m).length_le
    have hquote : 0 ∈ m.drop (k + 9) ∨ [quote] <:+: m.drop (k + 9) := by
      by_cases h0 : 0 ∈ m
      · exact .inl (zero_mem_drop h0 (hkey ▸ hle))
      · obtain ⟨k', hk', hmem⟩ := hstop.resolve_left h0
        rw [cstring_eq_self h0, hk'] at hk
        cases hk
        exact .inr ((List.singleton_infix_iff _ _).mpr hmem)
    have hstrchr : Settled (fun m => strchr (m.drop (k + 9)) quote) m :=
      Settled.drop (f := fun m => strchr m quote) (settled_strstr hquote) (by omega)
    refine hstrchr.bind fun q hq => ?_
    cases q with
    | none => exact .const _ m
    | some q =>
      have hq' : firstOcc [quote] ((cstring m).drop (k + 9)) = some q := by
        rw [← cstring_drop (hkey ▸ hle)]
        exact strstr_eq_ok_some hq
      have hcopy := settled_copyName fileName (hclosed k q hk hq')
      refine (Settled.drop (f := fun src => copyName src fileName 0) hcopy
        (quotes_le hk hq')).bind fun r _ => ?_
      exact .const _ m

theorem settled_takeBoundary {n : Nat} (hn : n ≤ m.length) : Settled (takeBoundary n) m :=
  (settled_strncpy _ 0 hn).bind fun _ _ => .const _ m

theorem settled_lineEnd (h : 0 ∈ m ∨ crlf <:+: m) : Settled lineEnd m := by
  refine (settled_strstr h).bind fun p hp => ?_
  cases p with
  | some p => exact .const _ m
  | none =>
    refine settled_strstr (.inl ?_)
    by_contra h0
    obtain ⟨i, hi⟩ := Option.isSome_iff_exists.mp
      (firstOcc_isSome_iff.mpr (h.resolve_left h0))
    rw [strstr_some (by rwa [cstring_eq_self h0])] at hp
    cases hp

theorem settled_blankLine (h : 0 ∈ m ∨ crlf ++ crlf <:+: m) : Settled blankLine m := by
  refine (settled_strstr h).bind fun p hp => ?_
  cases p with
  | some p => exact .const _ m
  | none =>
    have h0 : 0 ∈ m := by
      by_contra h0
      obtain ⟨i, hi⟩ := Option.isSome_iff_exists.mp
        (firstOcc_isSome_iff.mpr (h.resolve_left h0))
      rw [strstr_some (by rwa [cstring_eq_self h0])] at hp
      cases hp
    refine (settled_strstr (.inl h0)).bind fun p _ => ?_
    cases p <;> exact .const _ m

/-- The first line ends where it is found, and a blank line in the body is behind that. -/
theorem settled_scanLines (fileName : List Byte) (h : 0 ∈ m ∨ crlf ++ crlf <:+: m) :
    Settled (scanLines fileName) m := by
  have hline : 0 ∈ m ∨ crlf <:+: m :=
    h.imp_right (List.prefix_append crlf crlf).isInfix.trans
  refine (settled_lineEnd hline).bind fun e he => ?_
  cases e with
  | none => exact .const _ m
  | some e =>
    have hfound : lineEndOf (cstring m) = some e := by
      by_cases h0 : 0 ∈ m
      · rw [lineEnd_terminated h0] at he
        exact Except.ok.inj he
      · obtain ⟨i, hi⟩ := Option.isSome_iff_exists.mp
          (firstOcc_isSome_iff.mpr (hline.resolve_left h0))
        have htext : firstOcc crlf (cstring m) = some i := by rwa [cstring_eq_self h0]
        rw [lineEnd_crlf htext] at he
        rw [lineEndOf, htext]
        exact Except.ok.inj he
    have hle := (lineEndOf_lt hfound).le
    have hshort := (cstring_isPrefix m).length_le
    refine (settled_takeBoundary (by omega)).bind fun boundary _ => ?_
    have hrest : 0 ∈ m.drop e ∨ crlf ++ crlf <:+: m.drop e := by
      by_cases h0 : 0 ∈ m
      · exact .inl (zero_mem_drop h0 hle)
      · have hblank := h.resolve_left h0
        obtain ⟨i, hi⟩ := Option.isSome_iff_exists.mp
          (firstOcc_isSome_iff.mpr (hline.resolve_left h0))
        rw [cstring_eq_self h0, lineEndOf, hi] at hfound
        obtain rfl : i = e := Option.some.inj hfound
        exact .inr (infix_drop_of_firstOcc hi hblank)
    refine (Settled.drop (settled_blankLine hrest) (by omega)).bind fun blank _ => ?_
    rcases blank with _ | ⟨k, linux⟩ <;> exact .const _ m

/-- The scan does not look behind a body with a NUL, or in which it finds what it searches for,
if it finds the end of the name there. -/
theorem settled_scanHeader (fileName : List Byte)
    (hstop : 0 ∈ m ∨ NameFound m ∧ crlf ++ crlf <:+: m) (hclosed : NameClosed m) :
    Settled (scanHeader fileName) m := by
  refine (settled_extractName fileName (hstop.imp_right And.left) hclosed).bind fun name _ => ?_
  cases name with
  | none => exact .const _ m
  | some name => exact settled_scanLines name (hstop.imp_right And.right)

end

/-! ## The bodies on which the scan is safe -/

/-- If `filename=` occurs before the first NUL, then a quote follows it before that NUL, a
second quote follows in the body with at most 254 bytes between, and the first line, if the
text has one, is at most 511 bytes long. -/
def HeaderSafe (body : List Byte) : Prop :=
  ∀ k, firstOcc filenameKey (cstring body) = some k →
    (∃ q n, firstOcc [quote] ((cstring body).drop (k + 9)) = some q ∧
      firstOcc [quote] (body.drop (k + 9 + (q + 1))) = some n ∧ n ≤ 254) ∧
    ∀ e, lineEndOf (cstring body) = some e → e ≤ 511

/-- A quote is never one of the NULs behind a text. -/
theorem firstOcc_quote_append_zeros (s : List Byte) (n : Nat) :
    firstOcc [quote] (s ++ zeros n) = firstOcc [quote] s := by
  cases h : firstOcc [quote] s with
  | some i => exact firstOcc_append h _
  | none =>
    rw [firstOcc_eq_none_iff, List.singleton_infix_iff] at h ⊢
    simpa [zeros, quote] using h

/-- NULs behind a body make it neither safe nor unsafe. -/
theorem headerSafe_append_zeros (body : List Byte) (n : Nat) :
    HeaderSafe (body ++ zeros n) ↔ HeaderSafe body := by
  have htext : cstring (body ++ zeros n) = cstring body := by
    cases n with
    | zero => simp [zeros]
    | succ n => exact cstring_append_zero_any _ _
  have hquote : ∀ k q, firstOcc filenameKey (cstring body) = some k →
      firstOcc [quote] ((cstring body).drop (k + 9)) = some q →
      firstOcc [quote] ((body ++ zeros n).drop (k + 9 + (q + 1))) =
        firstOcc [quote] (body.drop (k + 9 + (q + 1))) := by
    intro k q hk hq
    rw [List.drop_append_of_le_length (quotes_le hk hq), firstOcc_quote_append_zeros]
  rw [HeaderSafe, HeaderSafe, htext]
  refine forall₂_congr fun k hk => and_congr_left' (exists_congr fun q => exists_congr fun n => ?_)
  exact and_congr_right fun hq => by rw [hquote k q hk hq]

section

variable {fileName m : List Byte}

/-- The name of a safe object is extracted, whatever the scan does afterwards. -/
theorem extractName_of_safe (hlen : fileName.length = 256) (h : HeaderSafe m) {k : Nat}
    (hk : firstOcc filenameKey (cstring m) = some k) :
    ∃ name, extractName fileName m = .ok (some name) := by
  obtain ⟨⟨q, n, hq, hn, hle⟩, -⟩ := h k hk
  exact ⟨_, extractName_some hk hq hn (by omega)⟩

/-- On a safe object with a NUL the scan stays inside the object. -/
theorem scanHeader_of_safe (hlen : fileName.length = 256) (h0 : 0 ∈ m) (h : HeaderSafe m) :
    ∃ r, scanHeader fileName m = .ok r := by
  cases hk : firstOcc filenameKey (cstring m) with
  | none => exact ⟨.done (-1) fileName, by simp [scanHeader, extractName_none h0 hk]⟩
  | some k =>
    obtain ⟨name, hname⟩ := extractName_of_safe hlen h hk
    rw [scanHeader, hname]
    refine ⟨_, scanLines_eq _ h0 fun e he => ?_⟩
    have := (h k hk).2 e he
    omega

/-- A scan without a fault has found the quotes and a first line that fits. -/
theorem headerSafe_of_scanHeader (hlen : fileName.length = 256) (h0 : 0 ∈ m) {r : Scan}
    (hr : scanHeader fileName m = .ok r) : HeaderSafe m := by
  intro k hk
  have hquotes : ∃ q n, firstOcc [quote] ((cstring m).drop (k + 9)) = some q ∧
      firstOcc [quote] (m.drop (k + 9 + (q + 1))) = some n ∧ n ≤ 254 := by
    by_contra hbad
    obtain ⟨name, hname, -⟩ := bind_eq_ok.mp hr
    refine extractName_ne_ok h0 hk ?_ name hname
    intro q n hq hn
    by_contra hshort
    exact hbad ⟨q, n, hq, hn, by omega⟩
  refine ⟨hquotes, fun e he => ?_⟩
  obtain ⟨q, n, hq, hn, hle⟩ := hquotes
  rw [scanHeader, extractName_some hk hq hn (by omega)] at hr
  by_contra hlong
  exact scanLines_ne_ok h0 he (by omega) r hr

end

/-- On the body and its terminating NUL alone, where every other access is a fault, the
header scan ends without a fault exactly for the safe bodies. -/
theorem scanHeader_isOk_iff (fileName body : List Byte) (hlen : fileName.length = 256) :
    (∃ r, scanHeader fileName (body ++ [0]) = .ok r) ↔ HeaderSafe body := by
  have h0 : 0 ∈ body ++ [0] := by simp
  rw [← headerSafe_append_zeros body 1]
  exact ⟨fun ⟨_, hr⟩ => headerSafe_of_scanHeader hlen h0 hr, scanHeader_of_safe hlen h0⟩

theorem scanHeader_isOk_iff_quoted :
    (∃ r, scanHeader (zeros 256) (ascii "b\r\nfilename=\"a\"" ++ [0]) = .ok r) ↔
      HeaderSafe (ascii "b\r\nfilename=\"a\"") :=
  scanHeader_isOk_iff (zeros 256) _ (length_zeros 256)

/-- `filename=` without a quote behind it: `strchr` returns NULL and the scan goes on from
the byte after NULL. -/
theorem scanHeader_unquoted :
    (ascii "filename=x").length < 102400 ∧
      scanHeader (zeros 256) (ascii "filename=x" ++ [0]) = .error .null := by
  decide +kernel

end CgiFileStore
