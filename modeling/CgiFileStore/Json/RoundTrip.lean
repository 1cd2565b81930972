import CgiFileStore.Json.Grammar

/-!
# What is printed is parsed back

The text that `print_value` makes of an item, formatted or not and at every depth, is a text of
the item, if its numbers are integers and its strings end at no NUL inside. So `cJSON_Parse` makes
the item again of what `cJSON_Print` and `cJSON_PrintUnformatted` return.
-/

namespace CgiFileStore.Json

open CSem

/-- The items that their text determines. -/
inductive IsExact (d : Doubles) : JsonItem d.Double → Prop
  | null : IsExact d .null
  | bool (b) : IsExact d (.bool b)
  | number (z) (h : IsInt z) : IsExact d (.number z (d.ofInt z))
  | string (s) (h : 0 ∉ s) : IsExact d (.string s)
  | array (children) (h : ∀ c ∈ children, IsExact d c) : IsExact d (.array children)
  | object (children) (hnames : ∀ c ∈ children, 0 ∉ c.1) (h : ∀ c ∈ children, IsExact d c.2) :
      IsExact d (.object children)

/-! ## Strings -/

/-- The code of an ASCII byte stands for the byte. -/
theorem decode_code {u : Hex4} {c : Byte} (hu : u.value = c.toNat) (h0 : c ≠ 0) (hlow : c ≤ 31)
    (ps : List Piece) : decode (.unicode u :: ps) = c :: decode ps := by
  have hpos : c.toNat ≠ 0 := fun h => h0 (UInt8.toNat_inj.mp h)
  have hle : c.toNat ≤ 31 := UInt8.le_iff_toNat_le.mp hlow
  have hbad : ¬ (IsLowSurrogate u.value ∨ u.value = 0) := by
    simp only [IsLowSurrogate]
    omega
  have hhigh : ¬ IsHighSurrogate u.value := by
    simp only [IsHighSurrogate]
    omega
  have hbytes : utf8Bytes u.value = [c] := by
    have hlt : c.toNat < 0x80 := by omega
    simp [utf8Bytes, hu, hlt, utf8Fill, firstByteMark]
  rw [decode.eq_def]
  simp only [if_neg hbad, if_neg hhigh, hbytes]
  rfl

/-- The bytes that are printed for a byte are a piece that stands for it, but for a NUL. -/
theorem exists_piece (c : Byte) :
    ∃ p : Piece, p.bytes = escaped c ∧ (c ≠ 0 → ∀ ps, decode (p :: ps) = c :: decode ps) := by
  by_cases hplain : 31 < c ∧ c ≠ 34 ∧ c ≠ 92
  · have h0 : c ≠ 0 := by
      rintro rfl
      exact absurd hplain.1 (by decide)
    refine ⟨.plain c ⟨h0, hplain.2⟩, ?_, fun _ ps => rfl⟩
    rw [escaped, if_pos hplain]
    rfl
  by_cases hshort : c = 92 ∨ c = 34 ∨ c = 8 ∨ c = 12 ∨ c = 10 ∨ c = 13 ∨ c = 9
  · rcases hshort with rfl | rfl | rfl | rfl | rfl | rfl | rfl
    · exact ⟨.escape 92 (by decide), by decide, fun _ ps => rfl⟩
    · exact ⟨.escape 34 (by decide), by decide, fun _ ps => rfl⟩
    · exact ⟨.escape 98 (by decide), by decide, fun _ ps => rfl⟩
    · exact ⟨.escape 102 (by decide), by decide, fun _ ps => rfl⟩
    · exact ⟨.escape 110 (by decide), by decide, fun _ ps => rfl⟩
    · exact ⟨.escape 114 (by decide), by decide, fun _ ps => rfl⟩
    · exact ⟨.escape 116 (by decide), by decide, fun _ ps => rfl⟩
  · have hall : ∀ x : Fin 256, (31 < UInt8.ofFin x ∧ UInt8.ofFin x ≠ 34 ∧ UInt8.ofFin x ≠ 92) ∨
        (IsPlain (hexDigit (UInt8.ofFin x / 16)) ∧ IsPlain (hexDigit (UInt8.ofFin x % 16)) ∧
          parseHex4 48 48 (hexDigit (UInt8.ofFin x / 16)) (hexDigit (UInt8.ofFin x % 16)) = x) := by
      decide +kernel
    obtain ⟨h3, h4, hvalue⟩ := (hall c.toFin).resolve_left hplain
    simp only [not_or] at hshort
    obtain ⟨h92, h34, h8, h12, h10, h13, h9⟩ := hshort
    have hlow : c ≤ 31 := UInt8.not_lt.mp fun hlt => hplain ⟨hlt, h34, h92⟩
    refine ⟨.unicode ⟨48, 48, hexDigit (c / 16), hexDigit (c % 16), by decide, by decide, h3, h4⟩,
      ?_, fun h => decode_code hvalue h hlow⟩
    rw [escaped, if_neg hplain, if_neg h92, if_neg h34, if_neg h8, if_neg h12, if_neg h10,
      if_neg h13, if_neg h9]
    rfl

theorem exists_pieces (s : List Byte) :
    ∃ ps, quoted ps = printStringPtr s ∧ (0 ∉ s → decode ps = s) := by
  obtain ⟨ps, hps, hdecode⟩ :
      ∃ ps, pieceBytes ps = s.flatMap escaped ∧ (0 ∉ s → decode ps = s) := by
    induction s with
    | nil => exact ⟨[], rfl, fun _ => rfl⟩
    | cons c s ih =>
      obtain ⟨ps, hps, hdecode⟩ := ih
      obtain ⟨p, hp, hcons⟩ := exists_piece c
      refine ⟨p :: ps, by rw [pieceBytes_cons, hp, hps, List.flatMap_cons], fun h => ?_⟩
      rw [List.mem_cons, not_or] at h
      rw [hcons (Ne.symm h.1), hdecode h.2]
  exact ⟨ps, by rw [quoted, hps]; rfl, hdecode⟩

/-! ## Layouts -/

section

variable {α : Type}

theorem noSpace_val : noSpace.1 = [] := rfl

/-- The children of an array or an object with the given blanks in front of the first, behind
the commas and behind the last. -/
def chunksOf (comma last : Space) : Space → List (α × List Byte) → List (Chunk α)
  | _, [] => []
  | first, [x] => [⟨first, x.1, x.2, last⟩]
  | first, x :: y :: rest => ⟨first, x.1, x.2, noSpace⟩ :: chunksOf comma last comma (y :: rest)

theorem map_chunksOf {β : Type} (comma last first : Space) (f : α → List Byte → β)
    (xs : List (α × List Byte)) :
    (chunksOf comma last first xs).map (fun e => f e.value e.text) =
      xs.map fun x => f x.1 x.2 := by
  induction xs generalizing first with
  | nil => rfl
  | cons x xs ih =>
    cases xs with
    | nil => rfl
    | cons y xs =>
      have h := ih comma
      rw [chunksOf, List.map_cons, h]
      rfl

theorem intercalate_chunksOf (comma last first : Space) (f : α → List Byte → List Byte)
    {xs : List (α × List Byte)} (hne : xs ≠ []) :
    [44].intercalate ((chunksOf comma last first xs).map fun e =>
        e.before.1 ++ f e.value e.text ++ e.after.1) =
      first.1 ++ (44 :: comma.1).intercalate (xs.map fun x => f x.1 x.2) ++ last.1 := by
  induction xs generalizing first with
  | nil => exact absurd rfl hne
  | cons x xs ih =>
    cases xs with
    | nil => simp [chunksOf]
    | cons y xs =>
      have h := ih comma (List.cons_ne_nil y xs)
      rw [chunksOf, List.map_cons]
      obtain ⟨z, zs, hz⟩ : ∃ z zs, (chunksOf comma last comma (y :: xs)).map
          (fun e => e.before.1 ++ f e.value e.text ++ e.after.1) = z :: zs := by
        cases xs <;> exact ⟨_, _, rfl⟩
      rw [hz] at h ⊢
      rw [List.intercalate_cons_cons, h]
      simp [List.intercalate_cons_cons, noSpace]

end

theorem intercalate_prefix (sep p : List Byte) {es : List (List Byte)} (hne : es ≠ []) :
    sep.intercalate (es.map (p ++ ·)) = p ++ (sep ++ p).intercalate es := by
  induction es with
  | nil => exact absurd rfl hne
  | cons e es ih =>
    cases es with
    | nil => simp
    | cons e' es =>
      rw [List.map_cons, List.map_cons, List.intercalate_cons_cons, List.intercalate_cons_cons,
        ← List.map_cons, ih (List.cons_ne_nil e' es)]
      simp

/-! ## The printed text -/

/-- Blanks that only `fmt` adds. -/
def fmtSpace (fmt : Bool) (ws : Space) : Space := if fmt then ws else noSpace

theorem fmtSpace_val (fmt : Bool) (ws : Space) : (fmtSpace fmt ws).1 = onlyFmt fmt ws.1 := by
  cases fmt <;> rfl

def newline (depth : Nat) : Space :=
  ⟨ascii "\n" ++ tabs depth, by
    intro c hc
    obtain h | h := List.mem_append.mp hc
    · obtain rfl : c = 10 := by simpa [ascii] using h
      exact .inr (.inr (.inl rfl))
    · obtain rfl : c = 9 := List.eq_of_mem_replicate h
      exact .inr (.inl rfl)⟩

variable {d : Doubles}

theorem text_number {z : Int} (h : IsInt z) :
    Text d (.number z (d.ofInt z)) (sprintfInt z) := by
  have hvalue := value_intText d h
  have htext := Text.number (d := d) (intText z) z (by simp [NumberText.ExponentFits, intText])
    (by rw [hvalue]; exact d.toInt_ofRat z h)
  rwa [hvalue, bytes_intText] at htext

theorem text_printArray (fmt : Bool) {children : List (JsonItem d.Double)}
    {print : JsonItem d.Double → List Byte} (h : ∀ c ∈ children, Text d c (print c)) :
    Text d (.array children) (printArray fmt (children.map print)) := by
  by_cases hnil : children = []
  · subst hnil
    exact Text.array noSpace [] (by simp)
  · let comma := fmtSpace fmt (oneBlank 32 (by decide))
    let chunks := chunksOf comma noSpace noSpace (children.map fun c => (c, print c))
    have hne : (children.map fun c => (c, print c)) ≠ [] := mt List.map_eq_nil_iff.mp hnil
    have hvalues : chunks.map Chunk.value = children := by
      have hmap := map_chunksOf comma noSpace noSpace (fun c _ => c)
        (children.map fun c => (c, print c))
      rw [List.map_map] at hmap
      exact hmap.trans (List.map_id _)
    have htexts : ∀ e ∈ chunks, Text d e.value e.text := by
      intro e he
      have hmap := map_chunksOf comma noSpace noSpace Prod.mk (children.map fun c => (c, print c))
      have hmem := List.mem_map_of_mem (f := fun e : Chunk _ => (e.value, e.text)) he
      rw [hmap, List.map_map] at hmem
      obtain ⟨c, hc, heq⟩ := List.mem_map.mp hmem
      obtain ⟨rfl, htext⟩ := Prod.mk.inj heq
      exact htext ▸ h e.value hc
    have hbytes : [44].intercalate (chunks.map Chunk.bytes) =
        (ascii "," ++ onlyFmt fmt (ascii " ")).intercalate (children.map print) := by
      have hjoin := intercalate_chunksOf comma noSpace noSpace (fun _ t => t) hne
      rw [List.map_map] at hjoin
      have hcomma : 44 :: comma.1 = ascii "," ++ onlyFmt fmt (ascii " ") := by
        rw [fmtSpace_val]
        rfl
      rw [hcomma, noSpace_val, List.nil_append, List.append_nil] at hjoin
      exact hjoin
    have htext := Text.array noSpace chunks htexts
    rw [hvalues] at htext
    have hprint : printArray fmt (children.map print) =
        block 91 93 noSpace (chunks.map Chunk.bytes) := by
      rw [printArray, if_neg (mt List.map_eq_nil_iff.mp hnil), block, hbytes]
      rfl
    rwa [hprint]

theorem text_printObject (fmt : Bool) (depth : Nat)
    {children : List (List Byte × JsonItem d.Double)} {print : JsonItem d.Double → List Byte}
    (hnames : ∀ c ∈ children, 0 ∉ c.1) (h : ∀ c ∈ children, Text d c.2 (print c.2)) :
    Text d (.object children)
      (printObject fmt depth (children.map fun c => (printStringPtr c.1, print c.2))) := by
  by_cases hnil : children = []
  · subst hnil
    have htext := Text.object (d := d) (fmtSpace fmt (newline (depth - 1))) [] (by simp)
    have hprint : printObject fmt depth [] =
        block 123 125 (fmtSpace fmt (newline (depth - 1))) [] := by
      rw [printObject, if_pos rfl, block, fmtSpace_val]
      simp [newline, ascii]
    rw [List.map_nil, hprint]
    exact htext
  · choose pieces hquoted hdecode using exists_pieces
    let first := fmtSpace fmt (newline (depth + 1))
    let last := fmtSpace fmt (newline depth)
    let colon := fmtSpace fmt (oneBlank 9 (by decide))
    let xs := children.map fun c => (((⟨pieces c.1, noSpace, colon⟩ : Name), c.2), print c.2)
    let members := chunksOf first last first xs
    have hvalues : (members.map fun e => e.named.value) = children := by
      have hmap := map_chunksOf first last first (fun v _ => (decode v.1.pieces, v.2)) xs
      rw [List.map_map] at hmap
      refine hmap.trans ((List.map_congr_left fun c hc => ?_).trans (List.map_id _))
      exact congrArg (·, c.2) (hdecode c.1 (hnames c hc))
    have htexts : ∀ e ∈ members, Text d e.value.2 e.text := by
      intro e he
      have hmap := map_chunksOf first last first Prod.mk xs
      have hmem := List.mem_map_of_mem (f := fun e : Chunk _ => (e.value, e.text)) he
      rw [hmap, List.map_map] at hmem
      obtain ⟨c, hc, heq⟩ := List.mem_map.mp hmem
      obtain ⟨hvalue, htext⟩ := Prod.mk.inj heq
      rw [← hvalue, ← htext]
      exact h c hc
    have hbytes : [44].intercalate (members.map fun e => e.named.bytes) =
        onlyFmt fmt (ascii "\n") ++
          (ascii "," ++ onlyFmt fmt (ascii "\n")).intercalate
            ((children.map fun c => (printStringPtr c.1, print c.2)).map
              (printMember fmt (depth + 1))) ++ onlyFmt fmt (ascii "\n" ++ tabs depth) := by
      have hne : xs ≠ [] := mt List.map_eq_nil_iff.mp hnil
      have hjoin := intercalate_chunksOf first last first
        (fun v t => Chunk.nameBytes v.1 ++ t) hne
      have hmembers : (children.map fun c => (printStringPtr c.1, print c.2)).map
          (printMember fmt (depth + 1)) =
          (xs.map fun x => Chunk.nameBytes x.1.1 ++ x.2).map
            (onlyFmt fmt (tabs (depth + 1)) ++ ·) := by
        rw [List.map_map, List.map_map, List.map_map]
        apply List.map_congr_left
        intro c hc
        have hcolon : (58 : Byte) :: colon.1 = ascii ":" ++ onlyFmt fmt (ascii "\t") := by
          rw [fmtSpace_val]
          rfl
        simp only [Function.comp_apply, printMember, Chunk.nameBytes, noSpace_val,
          hquoted c.1, List.nil_append, List.append_assoc, hcolon]
      have hfirst : first.1 = onlyFmt fmt (ascii "\n") ++ onlyFmt fmt (tabs (depth + 1)) := by
        rw [fmtSpace_val]
        cases fmt <;> rfl
      have hcomma : 44 :: first.1 =
          ascii "," ++ onlyFmt fmt (ascii "\n") ++ onlyFmt fmt (tabs (depth + 1)) := by
        rw [hfirst]
        rfl
      have hlast : last.1 = onlyFmt fmt (ascii "\n" ++ tabs depth) := fmtSpace_val fmt _
      rw [hmembers, intercalate_prefix _ _ (mt List.map_eq_nil_iff.mp hne), ← List.append_assoc,
        ← hcomma, ← hfirst, ← hlast]
      exact hjoin
    have htext := Text.object noSpace members htexts
    rw [hvalues] at htext
    have hprint : printObject fmt depth (children.map fun c => (printStringPtr c.1, print c.2)) =
        block 123 125 noSpace (members.map fun e => e.named.bytes) := by
      rw [printObject, if_neg (mt List.map_eq_nil_iff.mp hnil), block, hbytes, noSpace_val]
      simp [ascii]
    rwa [hprint]

/-- What `print_value` prints for an item is a text of it. -/
theorem text_printValue {item : JsonItem d.Double} (h : IsExact d item) (fmt : Bool) (depth : Nat) :
    Text d item (printValue d fmt depth item) := by
  induction h generalizing depth with
  | null => exact Text.null
  | bool b =>
    cases b
    · exact Text.false
    · exact Text.true
  | number z h =>
    rw [printValue, printNumber_ofInt h]
    exact text_number h
  | string s h =>
    obtain ⟨ps, hps, hdecode⟩ := exists_pieces s
    have htext := Text.string (d := d) ps
    rwa [hps, hdecode h] at htext
  | array children h ih =>
    rw [printValue, printEntries_eq_map]
    exact text_printArray fmt fun c hc => ih c hc (depth + 1)
  | object children hnames h ih =>
    rw [printValue, printMembers_eq_map]
    exact text_printObject fmt depth hnames fun c hc => ih c hc (depth + 1)

/-- The printed text is parsed to the item, whatever stands behind its NUL. -/
theorem cJSONParseWithOpts_printed {alloc : Allocator} (hgrants : Grants alloc)
    {item : JsonItem d.Double} (h : IsExact d item) (fmt : Bool) (depth : Nat)
    (hlen : (printValue d fmt depth item).length < 2 ^ 31) (requireNullTerminated : Bool)
    (beyond : List Byte) :
    cJSONParseWithOpts d alloc requireNullTerminated (printValue d fmt depth item ++ 0 :: beyond) =
      .ok (item, 0 :: beyond) := by
  have hparse := parse_text d hgrants (text_printValue h fmt depth) hlen noSpace
    ⟨0, beyond, rfl, .inl (by decide)⟩
  cases requireNullTerminated with
  | false => exact hparse
  | true => exact cJSONParseWithOpts_true hparse rfl

/-- `cJSON_ParseWithOpts` makes the item again of what `print_value` makes of it. -/
theorem cJSONParseWithOpts_printValue (d : Doubles) (alloc : Allocator) (hgrants : Grants alloc)
    (item : JsonItem d.Double) (h : IsExact d item) (fmt : Bool) (depth : Nat)
    (hlen : (printValue d fmt depth item).length < 2 ^ 31) (requireNullTerminated : Bool)
    (beyond : List Byte) :
    cJSONParseWithOpts d alloc requireNullTerminated (printValue d fmt depth item ++ 0 :: beyond) =
      .ok (item, 0 :: beyond) :=
  cJSONParseWithOpts_printed hgrants h fmt depth hlen requireNullTerminated beyond

/-- A record with an array, a number and a string that needs escapes. -/
def sampleItem : JsonItem Doubles.rational.Double :=
  .object [(ascii "on", .array [.bool true, .null]),
    (ascii "pv", .number (-1) (Doubles.rational.ofInt (-1))), (ascii "url", .string (ascii "a\"\n"))]

theorem isExact_sampleItem : IsExact Doubles.rational sampleItem := by
  refine IsExact.object _ ?_ ?_
  all_goals simp only [List.mem_cons, List.not_mem_nil, or_false, forall_eq_or_imp, forall_eq]
  · decide
  · refine ⟨.array _ ?_, .number (-1) (by decide), .string _ (by decide)⟩
    simp only [List.mem_cons, List.not_mem_nil, or_false, forall_eq_or_imp, forall_eq]
    exact ⟨.bool true, .null⟩

theorem cJSONParseWithOpts_printValue_sample :
    cJSONParseWithOpts Doubles.rational Allocator.zeroed true
        (printValue Doubles.rational true 0 sampleItem ++ [0]) = .ok (sampleItem, [0]) :=
  cJSONParseWithOpts_printValue Doubles.rational Allocator.zeroed grants_zeroed sampleItem
    isExact_sampleItem true 0 (by decide +kernel) true []

end CgiFileStore.Json
