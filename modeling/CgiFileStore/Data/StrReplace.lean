import CgiFileStore.Lib.Integer
import CgiFileStore.Lib.Search

/-!
# Replacing in place

`str_replace` of util_cgi.c rewrites the string under its scan pointer. At an occurrence it
counts the text behind it in an `int`, saves it, writes the replacement over the occurrence and
puts the text back behind the replacement, where the scan goes on.
-/

namespace CgiFileStore

open CSem Search

/-- `strncmp(s, t, strlen(t)) == 0` for a string `t`. -/
def strncmpEq : List Byte → List Byte → Checked Bool
  | _, [] => .ok true
  | [], _ :: _ => .error .read
  | c :: cs, d :: ds => if c = d then strncmpEq cs ds else .ok false

/-- `while (*q++ != '\0') lastLen++`. -/
def countTail : List Byte → Int → Checked Int
  | [], _ => .error .read
  | c :: cs, lastLen => do
    if c ≠ 0 then
      let lastLen ← toChecked (lastLen + 1)
      countTail cs lastLen
    else return lastLen

/-- What is done at an occurrence; the position returned is the one behind the replacement. -/
def replaceHere (alloc : Allocator) (strFind strReplace : CStr) (src : List Byte) (pos : Nat) :
    Checked (List Byte × Nat) := do
  let q : Int := pos + wrapInt strFind.bytes.length
  if q < 0 then .error .read
  else
    let p := src.drop q.toNat
    let lastLen ← countTail p 0
    let size ← toChecked (lastLen + 1)
    match alloc.malloc (toSize size) with
    | none => .error .null
    | some temp =>
      let temp ← memcpy temp.bytes 0 (p.take lastLen.toNat)
      let temp ← store temp lastLen.toNat 0
      let src ← memcpy src pos strReplace.bytes
      let pos := pos + strReplace.bytes.length
      let tail ← readString temp
      let src ← memcpy src pos tail
      let src ← store src (pos + tail.length) 0
      return (src, pos)

/-- The loop, for at most `rounds` rounds; none if it has not ended by then. -/
def strReplaceLoop (alloc : Allocator) (strFind strReplace : CStr) :
    Nat → List Byte → Nat → Checked (Option (List Byte))
  | 0, _, _ => .ok none
  | rounds + 1, src, pos => do
    let c ← load src pos
    if c = 0 then return some src
    else if c ≠ (← load strFind.array 0) then
      strReplaceLoop alloc strFind strReplace rounds src (pos + 1)
    else if ← strncmpEq (src.drop pos) strFind.bytes then
      let (src, pos) ← replaceHere alloc strFind strReplace src pos
      strReplaceLoop alloc strFind strReplace rounds src pos
    else strReplaceLoop alloc strFind strReplace rounds src (pos + 1)

/-- `str_replace`, for at most `rounds` rounds of its loop. -/
def strReplace (alloc : Allocator) (src : List Byte) (strFind strReplace : CStr) (rounds : Nat) :
    Checked (Option (List Byte)) := strReplaceLoop alloc strFind strReplace rounds src 0

/-! ## The steps -/

section

variable {s t r : List Byte}

/-- The comparison stops at the NUL. -/
theorem strncmpEq_append_zero (hs : 0 ∉ s) (ht : 0 ∉ t) (r : List Byte) :
    strncmpEq (s ++ 0 :: r) t = .ok (decide (t <+: s)) := by
  induction s generalizing t with
  | nil =>
    cases t with
    | nil => rfl
    | cons d ds =>
      have hd : (0 : Byte) ≠ d := fun h => ht (h ▸ List.mem_cons_self)
      simp [strncmpEq, hd]
  | cons c cs ih =>
    cases t with
    | nil => simp [strncmpEq]
    | cons d ds =>
      rw [List.mem_cons, not_or] at hs ht
      rw [List.cons_append, strncmpEq]
      split_ifs with hcd
      · rw [ih hs.2 ht.2]
        simp [List.cons_prefix_cons, hcd]
      · simp [List.cons_prefix_cons, Ne.symm hcd]

theorem countTail_append_zero (hs : 0 ∉ s) (r : List Byte) {n : Int} (hn : 0 ≤ n)
    (hmax : n ≤ intMax) :
    countTail (s ++ 0 :: r) n =
      if n + s.length ≤ intMax then .ok (n + s.length) else .error .overflow := by
  induction s generalizing n with
  | nil => simp [countTail, hmax]
  | cons c cs ih =>
    rw [List.mem_cons, not_or] at hs
    rw [List.cons_append, countTail, if_pos (Ne.symm hs.1), List.length_cons]
    by_cases hfit : n + 1 ≤ intMax
    · have hint : IsInt (n + 1) := ⟨by simp only [intMin]; omega, hfit⟩
      rw [toChecked_of_isInt hint, ok_bind, ih hs.2 (by omega) hfit]
      grind
    · rw [toChecked, if_neg fun h => hfit h.2, error_bind, if_neg (by push_cast; omega)]

end

/-! ## One occurrence -/

section

variable {alloc : Allocator} {strFind strReplace : CStr} {done tail rest : List Byte}

/-- The tail is counted, saved, and put back behind the replacement. -/
theorem replaceHere_eq (hgranted : ∀ n < 2 ^ 31, (alloc.malloc n).isSome) (htail : 0 ∉ tail)
    (hfind : strFind.bytes.length ≤ intMax) (hlen : tail.length < intMax)
    (hroom : strReplace.bytes.length ≤ strFind.bytes.length + rest.length) :
    ∃ rest', replaceHere alloc strFind strReplace
        (done ++ (strFind.bytes ++ (tail ++ 0 :: rest))) done.length =
          .ok (done ++ strReplace.bytes ++ (tail ++ 0 :: rest'),
            (done ++ strReplace.bytes).length) ∧
      strReplace.bytes.length + rest'.length = strFind.bytes.length + rest.length := by
  have hint : IsInt strFind.bytes.length := ⟨by simp only [intMin]; omega, hfind⟩
  have hsize : IsInt ((tail.length : Int) + 1) := ⟨by simp only [intMin]; omega, by omega⟩
  have htoSize : toSize ((tail.length : Int) + 1) = tail.length + 1 := by
    simp only [intMax] at hlen
    rw [toSize_of_nonneg (by omega) (by omega)]
    omega
  obtain ⟨temp, htemp⟩ := Option.isSome_iff_exists.mp (hgranted (tail.length + 1) (by
    simp only [intMax] at hlen
    omega))
  have hsave : (memcpy temp.bytes 0 tail >>= fun temp => store temp tail.length 0) =
      .ok (tail ++ 0 :: temp.bytes.drop (tail.length + 1)) :=
    memcpy_store (by rw [alloc.length_of_malloc _ _ htemp]; omega)
  have hdrop : (done ++ (strFind.bytes ++ (tail ++ 0 :: rest))).drop
      (done.length + strFind.bytes.length) = tail ++ 0 :: rest := by
    rw [← List.drop_drop, List.drop_left, List.drop_left]
  have hq : ((done.length : Int) + strFind.bytes.length).toNat =
      done.length + strFind.bytes.length := by omega
  -- the bytes in the place of the old text: replacement, tail, NUL, and what is not touched
  obtain ⟨c, rest', hrest⟩ : ∃ c rest', ((strFind.bytes ++ (tail ++ 0 :: rest)).drop
      strReplace.bytes.length).drop tail.length = c :: rest' := by
    apply List.exists_cons_of_ne_nil
    apply List.ne_nil_of_length_pos
    simp only [List.length_drop, List.length_append, List.length_cons]
    omega
  have hrest' := congrArg List.length hrest
  simp only [List.length_drop, List.length_append, List.length_cons] at hrest'
  refine ⟨rest', ?_, by omega⟩
  rw [replaceHere, wrapInt_of_isInt hint]
  dsimp only
  rw [if_neg (by omega), hq, hdrop, countTail_append_zero htail rest le_rfl (by decide),
    Int.zero_add, if_pos hlen.le, ok_bind, toChecked_of_isInt hsize, ok_bind, htoSize, htemp]
  dsimp only
  rw [Int.toNat_natCast, List.take_left, ← bind_assoc, hsave, ok_bind,
    memcpy_left (by simp; omega), ok_bind, readString_append_zero htail, ok_bind,
    ← List.length_append, memcpy_left (by simp; omega), ok_bind, ← List.length_append, hrest,
    store_left, ok_bind]
  simp

/-- Lengths that an `int` does not hold: the count overflows or starts outside the string. -/
theorem replaceHere_fault (hdone : 0 ∉ done) (htail : 0 ∉ tail)
    (h : ¬ ((strFind.bytes.length : Int) ≤ intMax ∧ tail.length < intMax)) :
    ∃ fault, replaceHere alloc strFind strReplace
      (done ++ (strFind.bytes ++ (tail ++ 0 :: rest))) done.length = .error fault := by
  have hle := wrapInt_natCast_le strFind.bytes.length
  have hmany : wrapInt strFind.bytes.length + intMax ≤ strFind.bytes.length + tail.length := by
    by_cases hfind : (strFind.bytes.length : Int) ≤ intMax
    · have htoobig : ¬ (tail.length : Int) < intMax := fun htl => h ⟨hfind, htl⟩
      omega
    · have := wrapInt_add_le (lt_of_not_ge hfind)
      simp only [intMax]
      omega
  rw [replaceHere]
  generalize wrapInt strFind.bytes.length = i at hle hmany
  dsimp only
  by_cases hq : (done.length : Int) + i < 0
  · exact ⟨.read, if_pos hq⟩
  · obtain ⟨n, hn⟩ := Int.eq_ofNat_of_zero_le (not_lt.mp hq)
    have hstring : 0 ∉ done ++ strFind.bytes ++ tail := by
      simp [hdone, htail, strFind.nul_free]
    have hdrop : (done ++ (strFind.bytes ++ (tail ++ 0 :: rest))).drop n =
        (done ++ strFind.bytes ++ tail).drop n ++ 0 :: rest := by
      rw [← List.drop_append_of_le_length (by simp; omega)]
      simp
    have hcount := countTail_append_zero (s := (done ++ strFind.bytes ++ tail).drop n)
      (fun hmem => hstring (List.mem_of_mem_drop hmem)) rest le_rfl (by decide)
    have hlength : intMax ≤ ((done ++ strFind.bytes ++ tail).drop n).length := by
      simp only [List.length_drop, List.length_append]
      omega
    rw [if_neg hq, hn, Int.toNat_natCast, hdrop, hcount, Int.zero_add]
    split_ifs with hfit
    · refine ⟨.overflow, ?_⟩
      rw [ok_bind, toChecked, if_neg fun hint => by have := hint.2; omega]
      rfl
    · exact ⟨.overflow, rfl⟩

end

/-! ## The rounds -/

section

variable {alloc : Allocator} {strFind strReplace : CStr} {done rem rest : List Byte}

theorem strReplaceLoop_end (rounds : Nat) :
    strReplaceLoop alloc strFind strReplace (rounds + 1) (done ++ 0 :: rest) done.length =
      .ok (some (done ++ 0 :: rest)) := by
  rw [strReplaceLoop, load_left, ok_bind, if_pos rfl]
  rfl

/-- Where nothing is to be replaced, the scan goes on by one byte. -/
theorem strReplaceLoop_skip {c : Byte} (hrem : 0 ∉ c :: rem)
    (h : ¬ (strFind.bytes ≠ [] ∧ strFind.bytes <+: c :: rem)) (rounds : Nat) :
    strReplaceLoop alloc strFind strReplace (rounds + 1) (done ++ (c :: rem ++ 0 :: rest))
        done.length =
      strReplaceLoop alloc strFind strReplace rounds (done ++ [c] ++ (rem ++ 0 :: rest))
        (done ++ [c]).length := by
  have hc : c ≠ 0 := fun h0 => hrem (h0 ▸ List.mem_cons_self)
  have hsrc : done ++ [c] ++ (rem ++ 0 :: rest) = done ++ (c :: rem ++ 0 :: rest) := by simp
  have hcompare := strncmpEq_append_zero hrem strFind.nul_free rest
  rw [hsrc, List.length_append, List.length_singleton, strReplaceLoop, List.cons_append,
    load_left, ok_bind, if_neg hc]
  cases hfind : strFind.bytes with
  | nil =>
    have hload : load strFind.array 0 = .ok 0 := by simp [CStr.array, hfind, load]
    rw [hload, ok_bind, if_pos hc]
  | cons d ds =>
    have hload : load strFind.array 0 = .ok d := by simp [CStr.array, hfind, load]
    have hstart : ¬ strFind.bytes <+: c :: rem := fun hp => h ⟨by simp [hfind], hp⟩
    rw [hload, ok_bind, List.drop_left, ← List.cons_append, ← hfind, hcompare]
    split_ifs with hcd
    · rfl
    · simp [hstart]

theorem strReplaceLoop_match (hrem : 0 ∉ rem) (hfind : strFind.bytes ≠ [])
    (h : strFind.bytes <+: rem) (rounds : Nat) :
    strReplaceLoop alloc strFind strReplace (rounds + 1) (done ++ (rem ++ 0 :: rest)) done.length =
      replaceHere alloc strFind strReplace (done ++ (rem ++ 0 :: rest)) done.length >>= fun next =>
        strReplaceLoop alloc strFind strReplace rounds next.1 next.2 := by
  obtain ⟨c, cs, hcs⟩ := List.exists_cons_of_ne_nil hfind
  obtain ⟨tail, rfl⟩ := h
  have hc : c ≠ 0 := fun h0 => strFind.nul_free (by simp [hcs, h0])
  have hload : load strFind.array 0 = .ok c := by simp [CStr.array, hcs, load]
  have hfirst : load (done ++ (strFind.bytes ++ tail ++ 0 :: rest)) done.length = .ok c := by
    rw [hcs]
    exact load_left _ _ c
  rw [strReplaceLoop, hfirst, ok_bind, if_neg hc, hload, ok_bind, if_neg (by simp),
    List.drop_left, strncmpEq_append_zero hrem strFind.nul_free rest, ok_bind, if_pos (by simp)]

end

/-! ## The run -/

/-- The pattern and the text behind its first occurrence have lengths that an `int` holds, the
second with the NUL. -/
def LengthsFit (find s : List Byte) : Prop :=
  find = [] ∨ ∀ p, firstOcc find s = some p →
    (find.length : Int) ≤ intMax ∧ (s.length : Int) - p - find.length < intMax

theorem lengthsFit_cons_iff {find s : List Byte} {c : Byte}
    (h : ¬ (find ≠ [] ∧ find <+: c :: s)) : LengthsFit find (c :: s) ↔ LengthsFit find s := by
  by_cases hfind : find = []
  · exact iff_of_true (.inl hfind) (.inl hfind)
  · have hocc := firstOcc_cons_of_not_isPrefix fun hp => h ⟨hfind, hp⟩
    simp only [LengthsFit, hocc, hfind, false_or, Option.map_eq_some_iff]
    constructor
    · intro hlen p hp
      have := hlen (p + 1) ⟨p, hp, rfl⟩
      grind
    · rintro hlen _ ⟨p, hp, rfl⟩
      have := hlen p hp
      grind

/-- At an occurrence only the text behind it counts. -/
theorem lengthsFit_append_iff {find tail : List Byte} (hfind : find ≠ []) :
    LengthsFit find (find ++ tail) ↔ (find.length : Int) ≤ intMax ∧ tail.length < intMax := by
  have hocc := firstOcc_of_isPrefix (List.prefix_append find tail)
  simp only [LengthsFit, hocc, hfind, false_or, Option.some.injEq]
  constructor
  · intro hlen
    have := hlen 0 rfl
    grind
  · rintro hlen p rfl
    grind

theorem LengthsFit.tail {find tail : List Byte} (hfind : (find.length : Int) ≤ intMax)
    (htail : tail.length < intMax) : LengthsFit find tail :=
  .inr fun p _ => ⟨hfind, by omega⟩

section

variable {alloc : Allocator} {strFind strReplace : CStr} {done rem rest : List Byte}

/-- In front of the scan pointer stands what is done, from there on the original text. -/
theorem strReplaceLoop_ok (hgranted : ∀ n < 2 ^ 31, (alloc.malloc n).isSome) (hrem : 0 ∉ rem)
    (hlens : LengthsFit strFind.bytes rem)
    (hroom : (replaceAll strFind.bytes strReplace.bytes rem).length ≤ rem.length + rest.length) :
    ∃ rounds rest', strReplaceLoop alloc strFind strReplace rounds (done ++ (rem ++ 0 :: rest))
        done.length =
      .ok (some (done ++ (replaceAll strFind.bytes strReplace.bytes rem ++ 0 :: rest'))) := by
  induction hn : rem.length using Nat.strong_induction_on generalizing done rem rest with
  | _ n ih =>
    subst hn
    by_cases hmatch : strFind.bytes ≠ [] ∧ strFind.bytes <+: rem
    · obtain ⟨hfind, tail, rfl⟩ := hmatch
      have htail : 0 ∉ tail := fun h => hrem (List.mem_append_right _ h)
      obtain ⟨hfindLen, htailLen⟩ := (lengthsFit_append_iff hfind).mp hlens
      rw [replaceAll_of_isPrefix hfind (List.prefix_append _ _), List.drop_left] at hroom ⊢
      simp only [List.length_append] at hroom
      have hlonger := @length_le_replaceAll _ _ strFind.bytes strReplace.bytes
      have hfits : strReplace.bytes.length ≤ strFind.bytes.length + rest.length := by
        by_cases hshort : strReplace.bytes.length ≤ strFind.bytes.length
        · omega
        · have := hlonger (by omega) tail
          omega
      obtain ⟨rest', hhere, hrest'⟩ := @replaceHere_eq alloc strFind strReplace done tail rest
        hgranted htail hfindLen htailLen hfits
      have hpos := List.length_pos_of_ne_nil hfind
      obtain ⟨rounds, rest'', hrun⟩ := @ih tail.length (by simp; omega)
        (done ++ strReplace.bytes) tail rest' htail (.tail hfindLen htailLen) (by omega) rfl
      refine ⟨rounds + 1, rest'', ?_⟩
      rw [strReplaceLoop_match hrem hfind (List.prefix_append _ _), List.append_assoc, hhere,
        ok_bind, hrun]
      simp
    · cases rem with
      | nil =>
        refine ⟨1, rest, ?_⟩
        rw [replaceAll_nil, List.nil_append, strReplaceLoop_end]
      | cons c cs =>
        have hcs : 0 ∉ cs := fun h => hrem (List.mem_cons_of_mem _ h)
        rw [replaceAll_cons_of_not hmatch] at hroom ⊢
        simp only [List.length_cons] at hroom
        obtain ⟨rounds, rest', hrun⟩ := @ih cs.length (by simp) (done ++ [c]) cs rest hcs
          ((lengthsFit_cons_iff hmatch).mp hlens) (by omega) rfl
        refine ⟨rounds + 1, rest', ?_⟩
        rw [strReplaceLoop_skip hrem hmatch, hrun]
        simp

/-- Without the bound on the lengths the loop does not come to its end. -/
theorem strReplaceLoop_ne_some (hdone : 0 ∉ done) (hrem : 0 ∉ rem)
    (h : ¬ LengthsFit strFind.bytes rem) (rounds : Nat) (src : List Byte) :
    strReplaceLoop alloc strFind strReplace rounds (done ++ (rem ++ 0 :: rest)) done.length ≠
      .ok (some src) := by
  induction rounds generalizing done rem with
  | zero => exact nofun
  | succ rounds ih =>
    by_cases hmatch : strFind.bytes ≠ [] ∧ strFind.bytes <+: rem
    · obtain ⟨hfind, tail, rfl⟩ := hmatch
      have htail : 0 ∉ tail := fun h => hrem (List.mem_append_right _ h)
      rw [lengthsFit_append_iff hfind] at h
      obtain ⟨fault, hfault⟩ := @replaceHere_fault alloc strFind strReplace done tail rest hdone
        htail h
      rw [strReplaceLoop_match hrem hfind (List.prefix_append _ _), List.append_assoc, hfault]
      exact nofun
    · cases rem with
      | nil =>
        refine absurd (?_ : LengthsFit strFind.bytes []) h
        by_cases hfind : strFind.bytes = []
        · exact .inl hfind
        · exact .inr fun p hp => by simp [firstOcc, hfind] at hp
      | cons c cs =>
        have hdone' : 0 ∉ done ++ [c] := by
          rw [List.mem_append, List.mem_singleton]
          rintro (h0 | rfl)
          · exact hdone h0
          · exact hrem List.mem_cons_self
        rw [strReplaceLoop_skip hrem hmatch]
        rw [lengthsFit_cons_iff hmatch] at h
        exact ih hdone' (fun h0 => hrem (List.mem_cons_of_mem _ h0)) h

end

/-- In an object with room for the longer of the old and the new string, the replacement comes to
its end with the new string exactly if the lengths at the first occurrence fit an `int`. -/
theorem strReplace_iff (alloc : Allocator) (hgranted : ∀ n < 2 ^ 31, (alloc.malloc n).isSome)
    (strSrc strFind repl : CStr) (rest : List Byte)
    (hrest : strSrc.bytes.length + rest.length =
      max strSrc.bytes.length (replaceAll strFind.bytes repl.bytes strSrc.bytes).length) :
    (∃ rounds src, strReplace alloc (strSrc.bytes ++ 0 :: rest) strFind repl rounds =
        .ok (some src) ∧
      readString src = .ok (replaceAll strFind.bytes repl.bytes strSrc.bytes) ∧
      (strFind.bytes = [] → readString src = .ok strSrc.bytes)) ↔
      LengthsFit strFind.bytes strSrc.bytes := by
  constructor
  · rintro ⟨rounds, src, hrun, -⟩
    by_contra h
    exact strReplaceLoop_ne_some List.not_mem_nil strSrc.nul_free h rounds src hrun
  · intro h
    obtain ⟨rounds, rest', hrun⟩ := @strReplaceLoop_ok alloc strFind repl [] strSrc.bytes rest
      hgranted strSrc.nul_free h (by omega)
    have hzero : 0 ∉ replaceAll strFind.bytes repl.bytes strSrc.bytes :=
      notMem_replaceAll repl.nul_free strSrc.nul_free
    refine ⟨rounds, _, hrun, readString_append_zero hzero rest', fun hfind => ?_⟩
    rw [List.nil_append, readString_append_zero hzero, hfind, replaceAll_empty]

/-- One occurrence, with a replacement that is longer. -/
theorem strReplace_longer :
    ∃ rounds src, strReplace .zeroed (ascii "ab" ++ 0 :: [7]) ⟨ascii "a", by decide⟩
        ⟨ascii "cc", by decide⟩ rounds = .ok (some src) ∧
      readString src = .ok (replaceAll (ascii "a") (ascii "cc") (ascii "ab")) ∧
      (ascii "a" = [] → readString src = .ok (ascii "ab")) :=
  (strReplace_iff .zeroed (fun n hn => zeroed_grants n (by omega)) ⟨ascii "ab", by decide⟩
    ⟨ascii "a", by decide⟩ ⟨ascii "cc", by decide⟩ [7] (by
      have hresult : replaceAll (ascii "a") (ascii "cc") (ascii "ab") = ascii "ccb" := by
        rw [replaceAll_of_isPrefix (by decide) (by decide)]
        exact congrArg (ascii "cc" ++ ·) ((replaceAll_cons_of_not (by decide) _).trans
          (congrArg _ (replaceAll_nil _ _)))
      rw [hresult]
      decide)).mpr
    ((@lengthsFit_append_iff (ascii "a") (ascii "b") (by decide)).mpr (by decide))

theorem not_lengthsFit_letters {n : Nat} (h : intMax ≤ n) :
    ¬ LengthsFit (letters 1).bytes (letters (n + 1)).bytes := by
  have hsplit : (letters (n + 1)).bytes = (letters 1).bytes ++ (letters n).bytes := rfl
  rw [hsplit, lengthsFit_append_iff (by decide), length_letters n]
  exact fun hfits => absurd hfits.2 (by omega)

/-- A string of 2 GiB: the sum for `malloc` overflows at the first of its letters. -/
theorem strReplace_huge :
    ¬ ∃ rounds src, strReplace .zeroed ((letters (2147483647 + 1)).bytes ++ 0 :: []) (letters 1)
        (letters 0) rounds = .ok (some src) ∧
      readString src =
        .ok (replaceAll (letters 1).bytes (letters 0).bytes (letters (2147483647 + 1)).bytes) ∧
      ((letters 1).bytes = [] → readString src = .ok (letters (2147483647 + 1)).bytes) := by
  rintro ⟨rounds, src, hrun, -⟩
  exact strReplaceLoop_ne_some List.not_mem_nil (letters (2147483647 + 1)).nul_free
    (not_lengthsFit_letters le_rfl) rounds src hrun

end CgiFileStore
