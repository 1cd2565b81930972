import CgiFileStore.Json.Grammar

/-!
# The parser inside its text

Whether the parser stays inside its text depends on the escapes of the literals alone. On a string
that splits into literals with complete escapes and other bytes, nothing is read or written outside,
and every pointer that is returned, the error pointer too, points into the string.
-/

namespace CgiFileStore.Json

open CSem

/-- A string that splits into bytes and literals with complete escapes. The last literal may be
open. -/
inductive Lexed : List Byte → Prop
  | nil : Lexed []
  | byte (c) {s} (hc : c ≠ 0 ∧ c ≠ 34) (h : Lexed s) : Lexed (c :: s)
  | literal (ps) {s} (h : Lexed s) : Lexed (34 :: (pieceBytes ps ++ 34 :: s))
  | unclosed (ps) : Lexed (34 :: pieceBytes ps)

variable {α β : Type} {s s' : List Byte} {beyond : List Byte}

/-- How a parse function can end that is called at the string `s`. A number, an exponent
or a length that no `int` holds ends the run as an overflow, and nothing is said of what would be
read behind it. -/
def Stays (s beyond : List Byte) : Parse (α × List Byte) → Prop
  | .ok (_, ptr) => ∃ s', ptr = s' ++ 0 :: beyond ∧ s' <:+ s ∧ Lexed s'
  | .error (.failed (some ep)) => ∃ s', ep = s' ++ 0 :: beyond ∧ s' <:+ s
  | .error (.failed none) => True
  | .error (.fault f) => f = .overflow

theorem Stays.mono {x : Parse (α × List Byte)} (h : Stays s' beyond x) (hs : s' <:+ s) :
    Stays s beyond x := by
  match x, h with
  | .ok (_, ptr), ⟨t, ht, hsuffix, hlexed⟩ => exact ⟨t, ht, hsuffix.trans hs, hlexed⟩
  | .error (.failed (some ep)), ⟨t, ht, hsuffix⟩ => exact ⟨t, ht, hsuffix.trans hs⟩
  | .error (.failed none), _ => trivial
  | .error (.fault f), h => exact h

theorem Stays.ok (a : α) (hs : s' <:+ s) (h : Lexed s') :
    Stays s beyond (.ok (a, s' ++ 0 :: beyond)) := ⟨s', rfl, hs, h⟩

theorem Stays.failed (hs : s' <:+ s) :
    Stays s beyond (.error (.failed (some (s' ++ 0 :: beyond))) : Parse (α × List Byte)) :=
  ⟨s', rfl, hs⟩

/-- A parse function may be followed by one that stays where it is called. -/
theorem Stays.bind {x : Parse (α × List Byte)} {f : α × List Byte → Parse (β × List Byte)}
    (h : Stays s beyond x)
    (hf : ∀ a s', s' <:+ s → Lexed s' → Stays s' beyond (f (a, s' ++ 0 :: beyond))) :
    Stays s beyond (x >>= f) := by
  match x, h with
  | .ok (a, _), ⟨t, rfl, hsuffix, hlexed⟩ => exact (hf a t hsuffix hlexed).mono hsuffix
  | .error (.failed (some ep)), h => exact h
  | .error (.failed none), _ => trivial
  | .error (.fault f), h => exact h

/-! ## Strings that split -/

theorem Lexed.tail {c : Byte} (h : Lexed (c :: s)) (hc : c ≠ 34) : Lexed s := by
  cases h with
  | byte _ _ h => exact h
  | literal => exact absurd rfl hc
  | unclosed => exact absurd rfl hc

theorem Lexed.ne_zero {c : Byte} (h : Lexed (c :: s)) : c ≠ 0 := by
  cases h with
  | byte _ hc _ => exact hc.1
  | literal => decide
  | unclosed => decide

theorem zero_notMem_pieceBytes (ps : List Piece) : 0 ∉ pieceBytes ps := by
  induction ps with
  | nil => simp [pieceBytes]
  | cons p ps ih =>
    rw [pieceBytes_cons, List.mem_append, not_or]
    refine ⟨?_, ih⟩
    cases p with
    | plain c h => simpa [Piece.bytes] using Ne.symm h.1
    | escape c h => simpa [Piece.bytes] using Ne.symm h.1
    | unicode u =>
      obtain ⟨h1, h2, h3, h4⟩ := u.plain
      simp [Piece.bytes, Hex4.bytes, Ne.symm h1.1, Ne.symm h2.1, Ne.symm h3.1, Ne.symm h4.1]

theorem Lexed.zero_notMem (h : Lexed s) : 0 ∉ s := by
  induction h with
  | nil => simp
  | byte c hc h ih => simp [Ne.symm hc.1, ih]
  | literal ps h ih => simp [zero_notMem_pieceBytes ps, ih]
  | unclosed ps => simp [zero_notMem_pieceBytes ps]

/-- A byte that is not `"` can be passed. -/
theorem Lexed.drop {t : List Byte} (h : Lexed (t ++ s)) (ht : 34 ∉ t) : Lexed s := by
  induction t with
  | nil => exact h
  | cons c t ih =>
    rw [List.mem_cons, not_or] at ht
    exact ih (h.tail (Ne.symm ht.1)) ht.2

/-- `skip` ends at a byte of the string, or at its end. -/
theorem exists_skip (h : Lexed s) (beyond : List Byte) :
    ∃ s', skip (s ++ 0 :: beyond) = .ok (s' ++ 0 :: beyond) ∧ s' <:+ s ∧ Lexed s' := by
  induction s with
  | nil => exact ⟨[], rfl, List.suffix_refl [], .nil⟩
  | cons c s ih =>
    by_cases hc : c ≠ 0 ∧ c ≤ 32
    · have hquote : c ≠ 34 := by
        rintro rfl
        exact absurd hc.2 (by decide)
      obtain ⟨s', hs', hsuffix, hlexed⟩ := ih (h.tail hquote)
      exact ⟨s', by rw [List.cons_append, skip, if_pos hc, hs'],
        hsuffix.trans (List.suffix_cons c s), hlexed⟩
    · exact ⟨c :: s, by rw [List.cons_append, skip, if_neg hc], List.suffix_refl _, h⟩

theorem Stays.skip (h : Lexed s) {f : List Byte → Parse (β × List Byte)}
    (hf : ∀ s', s' <:+ s → Lexed s' → Stays s' beyond (f (s' ++ 0 :: beyond))) :
    Stays s beyond (Json.skip (s ++ 0 :: beyond) >>= f) := by
  obtain ⟨s', hs', hsuffix, hlexed⟩ := exists_skip h beyond
  rw [hs', parse_ok_bind]
  exact (hf s' hsuffix hlexed).mono hsuffix

/-- Reading a byte of the string: its first, or the NUL. -/
theorem Stays.deref {f : Byte → Parse (β × List Byte)}
    (hcons : ∀ c t, s = c :: t → Stays s beyond (f c)) (hnil : s = [] → Stays s beyond (f 0)) :
    Stays s beyond (Json.deref (s ++ 0 :: beyond) >>= f) := by
  cases s with
  | nil => exact hnil rfl
  | cons c t => exact hcons c t rfl

theorem Stays.newItem {alloc : Allocator} {f : Unit → Parse (β × List Byte)}
    (hf : Stays s beyond (f ())) : Stays s beyond (cJSONNewItem alloc >>= f) := by
  unfold cJSONNewItem
  split_ifs
  · exact hf
  · trivial

/-! ## Numbers -/

/-- A step that can only overflow. -/
def OnlyOverflows (x : Parse α) : Prop := (∃ a, x = .ok a) ∨ x = .error (.fault .overflow)

theorem not_quote_of_isDigit {c : Byte} (h : isDigit c = true) : c ≠ 34 := by
  rintro rfl
  exact absurd h (by decide)

theorem stays_digitLoop {f : α → Byte → Parse α} (hf : ∀ a c, OnlyOverflows (f a c)) (a : α)
    (h : Lexed s) : Stays s beyond (digitLoop f a (s ++ 0 :: beyond)) := by
  induction s generalizing a with
  | nil => exact Stays.ok a (List.suffix_refl []) .nil
  | cons c s ih =>
    rw [List.cons_append, digitLoop]
    by_cases hc : isDigit c = true
    · rw [if_pos hc]
      obtain ⟨a', ha'⟩ | hover := hf a c
      · rw [ha', parse_ok_bind]
        exact (ih a' (h.tail (not_quote_of_isDigit hc))).mono (List.suffix_cons c s)
      · rw [hover]
        rfl
    · rw [if_neg hc]
      exact Stays.ok a (List.suffix_refl _) h

theorem onlyOverflows_addExponentDigit (n : Int) (c : Byte) :
    OnlyOverflows (addExponentDigit n c) := by
  unfold addExponentDigit toChecked
  split_ifs
  · rw [checked_ok, parse_ok_bind]
    split_ifs
    · exact .inl ⟨_, rfl⟩
    · exact .inr rfl
  · exact .inr rfl

section

variable (d : Doubles)

theorem stays_parseSign (h : Lexed s) : Stays s beyond (parseSign d (s ++ 0 :: beyond)) := by
  refine Stays.deref (fun c t hs => ?_) fun hs => ?_
  · subst hs
    split_ifs with hc
    · exact Stays.ok _ (List.suffix_cons c t) (h.tail (hc ▸ by decide))
    · exact Stays.ok _ (List.suffix_refl _) h
  · subst hs
    exact Stays.ok _ (List.suffix_refl []) h

theorem stays_parseInteger (h : Lexed s) : Stays s beyond (parseInteger d (s ++ 0 :: beyond)) := by
  have hrest : ∀ t, Lexed t → Stays t beyond (do
      let c ← deref (t ++ 0 :: beyond)
      if 49 ≤ c ∧ c ≤ 57 then
        digitLoop (fun n c => .ok (addDigit d n c)) (d.ofInt 0) (t ++ 0 :: beyond)
      else return (d.ofInt 0, t ++ 0 :: beyond)) := by
    intro t ht
    have hend : ∀ c : Byte, Stays t beyond (if 49 ≤ c ∧ c ≤ 57 then
        digitLoop (fun n c => .ok (addDigit d n c)) (d.ofInt 0) (t ++ 0 :: beyond)
        else return (d.ofInt 0, t ++ 0 :: beyond)) := by
      intro c
      split_ifs
      · exact stays_digitLoop (fun a c => .inl ⟨_, rfl⟩) _ ht
      · exact Stays.ok _ (List.suffix_refl t) ht
    exact Stays.deref (fun c _ _ => hend c) fun _ => hend 0
  refine Stays.deref (fun c t hs => ?_) fun hs => ?_
  · subst hs
    by_cases hc : c = 48
    · simp only [if_pos hc]
      exact (hrest t (h.tail (hc ▸ by decide))).mono (List.suffix_cons c t)
    · simp only [if_neg hc]
      exact hrest (c :: t) h
  · subst hs
    exact hrest [] h

theorem stays_parseFraction (n : d.Double) (h : Lexed s) :
    Stays s beyond (parseFraction d n (s ++ 0 :: beyond)) := by
  have hnone : Stays s beyond (.ok ((n, d.ofInt 0), s ++ 0 :: beyond)) :=
    Stays.ok _ (List.suffix_refl s) h
  refine Stays.deref (fun c t hs => ?_) fun hs => ?_
  · subst hs
    split_ifs with hc
    · have ht : Lexed t := h.tail (hc ▸ by decide)
      cases t with
      | nil => exact hnone
      | cons x t =>
        rw [List.cons_append, List.tail_cons, List.cons_append, deref_cons, parse_ok_bind]
        split_ifs
        · exact (stays_digitLoop (fun a c => .inl ⟨_, rfl⟩) _ ht).mono (List.suffix_cons c _)
        · exact hnone
    · exact hnone
  · subst hs
    exact hnone

theorem stays_parseExponent (h : Lexed s) : Stays s beyond (parseExponent (s ++ 0 :: beyond)) := by
  have hdigits : ∀ (signsubscale : Int) t, Lexed t → Stays t beyond
      (digitLoop addExponentDigit 0 (t ++ 0 :: beyond) >>= fun p =>
        .ok (p.1 * signsubscale, p.2)) := fun signsubscale t ht =>
    (stays_digitLoop onlyOverflows_addExponentDigit 0 ht).bind fun a s' _ hlexed =>
      Stays.ok _ (List.suffix_refl s') hlexed
  refine Stays.deref (fun c t hs => ?_) fun hs => ?_
  · subst hs
    split_ifs with hc
    · have ht : Lexed t := h.tail (by rintro rfl; revert hc; decide)
      refine Stays.mono ?_ (List.suffix_cons c t)
      refine Stays.deref (fun x u hs => ?_) fun hs => ?_
      · subst hs
        by_cases hplus : x = 43
        · have hu : Lexed u := ht.tail (hplus ▸ by decide)
          simp only [if_pos hplus]
          exact (hdigits 1 u hu).mono (List.suffix_cons x u)
        by_cases hminus : x = 45
        · have hu : Lexed u := ht.tail (hminus ▸ by decide)
          simp only [if_neg hplus, if_pos hminus]
          exact (hdigits (-1) u hu).mono (List.suffix_cons x u)
        · simp only [if_neg hplus, if_neg hminus]
          exact hdigits 1 (x :: u) ht
      · subst hs
        exact hdigits 1 [] ht
    · exact Stays.ok _ (List.suffix_refl _) h
  · subst hs
    exact Stays.ok _ (List.suffix_refl _) h

theorem stays_parseNumber (h : Lexed s) : Stays s beyond (parseNumber d (s ++ 0 :: beyond)) := by
  refine (stays_parseSign d h).bind fun sign s1 _ h1 => ?_
  refine (stays_parseInteger d h1).bind fun n s2 _ h2 => ?_
  refine (stays_parseFraction d n h2).bind fun p s3 _ h3 => ?_
  refine (stays_parseExponent h3).bind fun exponent s4 _ h4 => ?_
  dsimp only
  split
  · exact Stays.ok _ (List.suffix_refl s4) h4
  · rfl

end

/-! ## Strings and values -/

theorem stays_literal (alloc : Allocator) (ps : List Piece) {close : Byte}
    (hclose : close = 34 ∨ close = 0) {rest : List Byte}
    (h : Stays s beyond (.ok (decode ps, if close = 34 then rest else close :: rest))) :
    Stays s beyond (parseString alloc (34 :: (pieceBytes ps ++ close :: rest))) := by
  have heq := parseString_pieces alloc ps hclose rest
  by_cases hcount : (countedLength ps : Int) < intMax
  · rw [if_pos hcount] at heq
    by_cases hnone : (alloc.malloc (countedLength ps + 1)).isNone
    · rw [heq, if_pos hnone]
      trivial
    · rwa [heq, if_neg hnone]
  · rw [heq, if_neg hcount]
    rfl

theorem stays_parseString (alloc : Allocator) (h : Lexed s) :
    Stays s beyond (parseString alloc (s ++ 0 :: beyond)) := by
  cases h with
  | nil => exact Stays.failed (List.suffix_refl [])
  | byte c hc h =>
    have hfail : ∀ rest, parseString alloc (c :: rest) = .error (.failed (some (c :: rest))) := by
      intro rest
      rw [parseString, deref_cons, parse_ok_bind, if_pos hc.2]
    rw [List.cons_append, hfail, ← List.cons_append]
    exact Stays.failed (List.suffix_refl _)
  | literal ps h =>
    rw [List.cons_append, List.append_assoc, List.cons_append]
    exact stays_literal alloc ps (.inl rfl) ⟨_, rfl, ⟨34 :: (pieceBytes ps ++ [34]), by simp⟩, h⟩
  | unclosed ps => exact stays_literal alloc ps (.inr rfl) ⟨[], rfl, List.nil_suffix, .nil⟩

/-- The loop over the children, where `n` is more than the bytes left. -/
theorem stays_parseChildren (alloc : Allocator) {parseChild : List Byte → Parse (α × List Byte)}
    {n : Nat} (hchild : ∀ t : List Byte, t.length < n → Lexed t →
      Stays t beyond (parseChild (t ++ 0 :: beyond))) (hn : s.length < n) (h : Lexed s) :
    Stays s beyond (parseChildren alloc parseChild n (s ++ 0 :: beyond)) := by
  induction n generalizing s with
  | zero => exact absurd hn (Nat.not_lt_zero _)
  | succ n ih =>
    rw [parseChildren]
    refine Stays.newItem (Stays.skip h fun s1 hs1 h1 => ?_)
    have hlen1 := hs1.length_le
    refine (hchild s1 (by omega) h1).bind fun child s2 hs2 h2 => ?_
    refine Stays.skip h2 fun s3 hs3 h3 => ?_
    have hlen3 := (hs3.trans hs2).length_le
    refine Stays.deref (fun c t hs => ?_) fun hs => ?_
    · subst hs
      rw [List.length_cons] at hlen3
      split_ifs with hc
      · have ht : Lexed t := h3.tail (hc ▸ by decide)
        have hrest := ih (fun u hu => hchild u (by omega)) (by omega) ht
        refine (Stays.mono ?_ (List.suffix_cons c t))
        exact hrest.bind fun children s4 _ h4 => Stays.ok _ (List.suffix_refl s4) h4
      · exact Stays.ok _ (List.suffix_refl _) h3
    · subst hs
      exact Stays.ok _ (List.suffix_refl _) h3

theorem stays_parseBlock (alloc : Allocator) {parseChild : List Byte → Parse (α × List Byte)}
    {close : Byte} (hclose : close = 93 ∨ close = 125) {n : Nat}
    (hchild : ∀ t : List Byte, t.length < n → Lexed t →
      Stays t beyond (parseChild (t ++ 0 :: beyond))) (hn : s.length < n) (h : Lexed s) :
    Stays s beyond (parseBlock alloc parseChild close n (s ++ 0 :: beyond)) := by
  have hend : ∀ {γ : Type} (a : γ) {c : Byte} {t : List Byte}, c = close → Lexed (c :: t) →
      Stays (c :: t) beyond (.ok (a, t ++ 0 :: beyond)) := by
    intro γ a c t hc ht
    refine Stays.ok a (List.suffix_cons c t) (ht.tail ?_)
    obtain rfl | rfl := hclose <;> subst hc <;> decide
  have hzero : ¬ (0 : Byte) = close := by obtain rfl | rfl := hclose <;> decide
  refine Stays.skip h fun s1 hs1 h1 => ?_
  have hlen := hs1.length_le
  have hchildren : Stays s1 beyond (do
      let p ← parseChildren alloc parseChild n (s1 ++ 0 :: beyond)
      if (← deref p.2) = close then return (p.1, p.2.tail)
      else .error (.failed (some p.2))) := by
    refine (stays_parseChildren alloc hchild (by omega) h1).bind fun children s2 _ h2 => ?_
    refine Stays.deref (fun c t hs => ?_) fun hs => ?_
    · subst hs
      split_ifs with hc
      · exact hend children hc h2
      · exact Stays.failed (List.suffix_refl _)
    · subst hs
      rw [if_neg hzero]
      exact Stays.failed (List.suffix_refl _)
  refine Stays.deref (fun c t hs => ?_) fun hs => ?_
  · split_ifs with hc
    · subst hs
      exact hend [] hc h1
    · exact hchildren
  · rw [if_neg hzero]
    exact hchildren

theorem stays_parseMember (alloc : Allocator) {parseValue : List Byte → Parse (α × List Byte)}
    {n : Nat} (hvalue : ∀ t : List Byte, t.length < n → Lexed t →
      Stays t beyond (parseValue (t ++ 0 :: beyond))) (hn : s.length < n) (h : Lexed s) :
    Stays s beyond (parseMember alloc parseValue (s ++ 0 :: beyond)) := by
  refine (stays_parseString alloc h).bind fun string s1 hs1 h1 => ?_
  refine Stays.skip h1 fun s2 hs2 h2 => ?_
  have hlen2 := (hs2.trans hs1).length_le
  refine Stays.deref (fun c t hs => ?_) fun hs => ?_
  · subst hs
    rw [List.length_cons] at hlen2
    split_ifs with hc
    · exact Stays.failed (List.suffix_refl _)
    · have ht : Lexed t := h2.tail (by rintro rfl; exact hc (by decide))
      refine Stays.mono ?_ (List.suffix_cons c t)
      refine Stays.skip ht fun s3 hs3 h3 => ?_
      have hlen3 := hs3.length_le
      exact (hvalue s3 (by omega) h3).bind fun item s4 _ h4 => Stays.ok _ (List.suffix_refl s4) h4
  · subst hs
    exact Stays.failed (List.suffix_refl _)

theorem stays_parseValue (d : Doubles) (alloc : Allocator) {n : Nat} (hn : s.length < n)
    (h : Lexed s) : Stays s beyond (parseValue d alloc n (s ++ 0 :: beyond)) := by
  induction n generalizing s with
  | zero => exact absurd hn (Nat.not_lt_zero _)
  | succ n ih =>
    have h0 := h.zero_notMem
    by_cases hnull : ascii "null" <+: s
    · obtain ⟨t, rfl⟩ := hnull
      rw [List.append_assoc, parseValue_null]
      exact Stays.ok _ (List.suffix_append _ t) (h.drop (by decide))
    by_cases hfalse : ascii "false" <+: s
    · obtain ⟨t, rfl⟩ := hfalse
      rw [List.append_assoc, parseValue_false]
      exact Stays.ok _ (List.suffix_append _ t) (h.drop (by decide))
    by_cases htrue : ascii "true" <+: s
    · obtain ⟨t, rfl⟩ := htrue
      rw [List.append_assoc, parseValue_true]
      exact Stays.ok _ (List.suffix_append _ t) (h.drop (by decide))
    have hnames : ∀ name ∈ [ascii "null", ascii "false", ascii "true"],
        strncmpEq (s ++ 0 :: beyond) name = .ok false := by
      simp only [List.mem_cons, List.not_mem_nil, or_false, forall_eq_or_imp, forall_eq]
      rw [strncmpEq_append_zero h0 (by decide), strncmpEq_append_zero h0 (by decide),
        strncmpEq_append_zero h0 (by decide)]
      simp [hnull, hfalse, htrue]
    cases s with
    | nil =>
      rw [List.nil_append] at hnames ⊢
      rw [parseValue_unnamed d alloc n hnames]
      exact Stays.failed (List.suffix_refl [])
    | cons c t =>
      rw [List.cons_append] at hnames ⊢
      rw [parseValue_unnamed d alloc n hnames, ← List.cons_append]
      rw [List.length_cons] at hn
      split_ifs with hquote hnumber harray hobject
      · exact (stays_parseString alloc h).bind fun string s1 _ h1 =>
          Stays.ok _ (List.suffix_refl s1) h1
      · exact stays_parseNumber d h
      · have ht : Lexed t := h.tail hquote
        refine Stays.mono ?_ (List.suffix_cons c t)
        exact (stays_parseBlock alloc (.inl rfl) (fun u hu hlexed => ih hu hlexed) (by omega)
          ht).bind fun children s1 _ h1 => Stays.ok _ (List.suffix_refl s1) h1
      · have ht : Lexed t := h.tail hquote
        refine Stays.mono ?_ (List.suffix_cons c t)
        refine (stays_parseBlock alloc (.inr rfl) (fun u hu hlexed => ?_) (by omega) ht).bind
          fun children s1 _ h1 => Stays.ok _ (List.suffix_refl s1) h1
        exact stays_parseMember alloc (fun v hv hvlexed => ih hv hvlexed) hu hlexed
      · exact Stays.failed (List.suffix_refl _)

/-- On a string whose literals have complete escapes the parser reads and writes nothing outside,
and the pointers that it leaves point into the string. -/
theorem cJSONParseWithOpts_stays (d : Doubles) (alloc : Allocator) (requireNullTerminated : Bool)
    (s beyond : List Byte) (h : Lexed s) :
    Stays s beyond (cJSONParseWithOpts d alloc requireNullTerminated (s ++ 0 :: beyond)) := by
  refine Stays.newItem (Stays.skip h fun s1 hs1 h1 => ?_)
  refine (stays_parseValue d alloc (by simp) h1).bind fun c s2 _ h2 => ?_
  dsimp only
  split_ifs
  · refine Stays.skip h2 fun s3 _ h3 => ?_
    refine Stays.deref (fun x t hs => ?_) fun hs => ?_
    · subst hs
      rw [if_pos h3.ne_zero]
      exact Stays.failed (List.suffix_refl _)
    · subst hs
      rw [if_neg (by simp)]
      exact Stays.ok _ (List.suffix_refl _) h3
  · exact Stays.ok _ (List.suffix_refl s2) h2

/-- An open array with an open literal in it. -/
theorem cJSONParseWithOpts_stays_open :
    Stays (ascii "[\"\\n") [7] (cJSONParseWithOpts Doubles.rational Allocator.zeroed true
      (ascii "[\"\\n" ++ 0 :: [7])) :=
  cJSONParseWithOpts_stays Doubles.rational Allocator.zeroed true _ [7]
    (.byte 91 (by decide) (.unclosed [.escape 110 (by decide)]))

end CgiFileStore.Json
