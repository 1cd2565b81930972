import CgiFileStore.Redis.Batch

/-!
# The hmset command text

`make_hmset_command` appends the pieces of the command one by one to a block that it enlarges
when a count of the bytes used has reached the size it believes the block to have. The count
takes 200 bytes for the key, however long that is, and the block is enlarged after the append.
-/

namespace CgiFileStore

open CSem Redis

/-- `FIELD_ID_SIZE`, the width of a row of `RFIELDS`. -/
def fieldIdSize : Nat := 100

/-- `1024*1024`. -/
def mebi : Nat := 1048576

/-- Conversion to `unsigned int`. -/
def wrapUnsigned (n : Nat) : Nat := n % 2 ^ 32

/-- `realloc(old, n)`: the bytes of the old block that there is room for, and behind them what
the allocator leaves there. -/
def realloc (alloc : Allocator) (old : List Byte) (n : Nat) : Option (List Byte) :=
  (alloc.malloc n).map fun b => old.take n ++ b.bytes.drop old.length

/-- `strncat(dst, src, n)` for the string `src`. -/
def strncat (dst src : List Byte) (n : Nat) : Checked (List Byte) := strcat dst (src.take n)

/-- The local variables of the loop. -/
structure HmsetBuffer where
  cmd : List Byte
  bufSize : Nat
  useSize : Nat

/-- `strncat(cmd, piece, n)`, the count, and the test whether the block has to be enlarged. The
result is none if `cmd` has become NULL. -/
def hmsetPiece (alloc : Allocator) (piece : List Byte) (n : Nat) (b : HmsetBuffer) :
    Checked (Option HmsetBuffer) := do
  let cmd ← strncat b.cmd piece n
  let useSize := wrapUnsigned (b.useSize + piece.length)
  if useSize ≥ b.bufSize then
    match realloc alloc cmd (wrapUnsigned (useSize + mebi)) with
    | none => return none
    | some cmd => return some { cmd, bufSize := wrapUnsigned (b.bufSize + mebi), useSize }
  else return some { cmd, bufSize := b.bufSize, useSize }

def hmsetPieces (alloc : Allocator) :
    List (List Byte × Nat) → HmsetBuffer → Checked (Option HmsetBuffer)
  | [], b => .ok (some b)
  | (piece, n) :: pieces, b => do
    match ← hmsetPiece alloc piece n b with
    | none => return none
    | some b => hmsetPieces alloc pieces b

/-- The pieces of one round, with the bound that each is appended with. -/
def entryPieces (fields values : Nat → CStr) (i : Nat) : List (List Byte × Nat) :=
  [([space], 1), ((fields i).bytes, fieldIdSize), ([space], 1), ((values i).bytes, valuesIdSize)]

/-- The loop over the elements, with `n` rounds left from round `i` on. -/
def hmsetLoop (alloc : Allocator) (fields values : Nat → CStr) :
    Nat → Nat → HmsetBuffer → Checked (Option HmsetBuffer)
  | 0, _, b => .ok (some b)
  | n + 1, i, b => do
    match ← hmsetPieces alloc (entryPieces fields values i) b with
    | none => return none
    | some b => hmsetLoop alloc fields values n (i + 1) b

/-- `make_hmset_command`; none is NULL. -/
def makeHmsetCommand (alloc : Allocator) (key : CStr) (elementNum : Nat)
    (fields values : Nat → CStr) : Checked (Option (List Byte)) := do
  match alloc.malloc mebi with
  | none => return none
  | some block =>
    let cmd ← memset0 block.bytes mebi
    let cmd ← strncat cmd (ascii "hmset") 6
    let cmd ← strncat cmd [space] 1
    let cmd ← strncat cmd key.bytes 200
    let b ← hmsetLoop alloc fields values elementNum 0
      { cmd, bufSize := mebi, useSize := 5 + 1 + 200 }
    return b.map HmsetBuffer.cmd

/-! ## Appending to a block -/

section

variable {s t r : List Byte}

/-- Appending to a string needs room for the bytes in front of the NUL that is there. -/
theorem strcat_eq (hs : 0 ∉ s) :
    strcat (s ++ 0 :: r) t =
      if t.length ≤ r.length then .ok (s ++ t ++ 0 :: r.drop t.length) else .error .write := by
  have hlen : strlen (s ++ 0 :: r) = .ok s.length := by
    simp [strlen, readString_append_zero hs, Except.map]
  rw [strcat, hlen, ok_bind, memcpy]
  by_cases hfit : t.length ≤ r.length
  · have hroom : s.length + (t ++ [0]).length ≤ (s ++ 0 :: r).length := by
      simp
      omega
    have hdrop : (s ++ 0 :: r).drop (s.length + (t ++ [0]).length) = r.drop t.length := by
      rw [← List.drop_drop, List.drop_left, List.length_append, List.length_singleton,
        List.drop_succ_cons]
    rw [if_pos hroom, if_pos hfit, List.take_left, hdrop]
    simp
  · rw [if_neg hfit, if_neg]
    simp
    omega

/-- An object without a NUL holds no string to append to. -/
theorem strcat_of_notMem {m : List Byte} (h : 0 ∉ m) (t : List Byte) :
    strcat m t = .error .read := by
  simp [strcat, strlen, readString, h, Except.map]

end

/-! ## One piece -/

/-- The buffer holds `text`, the count is `slack` ahead of it, `k` enlargements have been made,
the last one at the count `last`, and the count is below the size that the loop believes in. -/
structure HmsetBuffer.At (b : HmsetBuffer) (slack k last : Nat) (text : List Byte) : Prop where
  cmd : ∃ r, b.cmd = text ++ 0 :: r
  length_cmd : b.cmd.length = last + mebi
  nul_free : 0 ∉ text
  slack_le : slack ≤ 200
  use : b.useSize = text.length + slack
  buf : b.bufSize = (k + 1) * mebi
  below : b.useSize < (k + 1) * mebi
  last_ge : k * mebi ≤ last
  last_le : last ≤ b.useSize
  inside : k < 4095

/-- The block enlarged at the count `last` has room up to the count `count`, and then a block for
that count is granted. -/
def Enlarges (alloc : Allocator) (slack last count : Nat) : Prop :=
  count < last + mebi + slack ∧ (alloc.malloc (wrapUnsigned (count + mebi))).isSome

section

variable {alloc : Allocator} {b : HmsetBuffer} {slack k last n : Nat} {text piece : List Byte}

theorem wrapUnsigned_of_lt {m : Nat} (h : m < 2 ^ 32) : wrapUnsigned m = m := Nat.mod_eq_of_lt h

/-- The append of a piece: it needs room in the block up to the count less the slack. -/
theorem HmsetBuffer.At.append (hb : b.At slack k last text) (hn : piece.length ≤ n) :
    (b.useSize + piece.length < last + mebi + slack →
      ∃ r, strncat b.cmd piece n = .ok (text ++ piece ++ 0 :: r) ∧
        (text ++ piece ++ 0 :: r).length = last + mebi) ∧
    (¬ b.useSize + piece.length < last + mebi + slack →
      strncat b.cmd piece n = .error .write) := by
  obtain ⟨r, hcmd⟩ := hb.cmd
  have huse := hb.use
  have hroom : text.length + 1 + r.length = last + mebi := by
    rw [← hb.length_cmd, hcmd]
    simp
    omega
  have happend : strncat b.cmd piece n = if piece.length ≤ r.length then
      .ok (text ++ piece ++ 0 :: r.drop piece.length) else .error .write := by
    rw [strncat, List.take_of_length_le hn, hcmd, strcat_eq hb.nul_free]
  constructor
  · intro hlt
    have hfit : piece.length ≤ r.length := by omega
    refine ⟨r.drop piece.length, by rw [happend, if_pos hfit], ?_⟩
    simp only [List.length_append, List.length_cons, List.length_drop]
    omega
  · intro hge
    rw [happend, if_neg (by omega)]

theorem wrapUnsigned_count (hb : b.At slack k last text) (hlen : piece.length ≤ 1023) :
    wrapUnsigned (b.useSize + piece.length) = b.useSize + piece.length := by
  have hbelow := hb.below
  have hk := hb.inside
  simp only [mebi] at hbelow
  exact wrapUnsigned_of_lt (by omega)

/-- A count that stays below the size: then the block is large enough. -/
theorem hmsetPiece_below (alloc : Allocator) (hb : b.At slack k last text) (hn : piece.length ≤ n)
    (hlen : piece.length ≤ 1023) (h0 : 0 ∉ piece)
    (hlt : b.useSize + piece.length < (k + 1) * mebi) :
    ∃ b', hmsetPiece alloc piece n b = .ok (some b') ∧ b'.At slack k last (text ++ piece) ∧
      b'.useSize = b.useSize + piece.length := by
  have hlast := hb.last_ge
  have hsucc : (k + 1) * mebi = k * mebi + mebi := Nat.succ_mul k mebi
  obtain ⟨r, happend, hblock⟩ := (hb.append hn).1 (by omega)
  refine ⟨{ cmd := text ++ piece ++ 0 :: r, bufSize := b.bufSize
            useSize := b.useSize + piece.length }, ?_, ?_, rfl⟩
  · rw [hmsetPiece, happend, ok_bind]
    simp only [wrapUnsigned_count hb hlen]
    rw [if_neg (by rw [hb.buf]; omega)]
    rfl
  · have huse := hb.use
    constructor
    · exact ⟨r, rfl⟩
    · exact hblock
    · rw [List.mem_append, not_or]
      exact ⟨hb.nul_free, h0⟩
    · exact hb.slack_le
    · simp only [List.length_append]
      omega
    · exact hb.buf
    · exact hlt
    · exact hlast
    · exact hb.last_le.trans (Nat.le_add_right _ _)
    · exact hb.inside

/-- The block behind an enlargement, as long as the size that is asked for does not wrap. -/
theorem HmsetBuffer.At.enlarge (hb : b.At slack k last text) (hlen : piece.length ≤ 1023)
    (h0 : 0 ∉ text ++ piece) (hge : (k + 1) * mebi ≤ b.useSize + piece.length)
    (hinside : b.useSize + piece.length < 4095 * mebi) {r : List Byte}
    (hblock : (text ++ piece ++ 0 :: r).length = last + mebi) {block : Block}
    (hmalloc : alloc.malloc (wrapUnsigned (b.useSize + piece.length + mebi)) = some block) :
    HmsetBuffer.At
      { cmd := (text ++ piece ++ 0 :: r).take (wrapUnsigned (b.useSize + piece.length + mebi)) ++
          block.bytes.drop (text ++ piece ++ 0 :: r).length
        bufSize := wrapUnsigned (b.bufSize + mebi)
        useSize := b.useSize + piece.length }
      slack (k + 1) (b.useSize + piece.length) (text ++ piece) := by
  have huse := hb.use
  have hbelow := hb.below
  have hle := hb.last_le
  have hsucc : (k + 1) * mebi = k * mebi + mebi := Nat.succ_mul k mebi
  have hsize := alloc.length_of_malloc _ block hmalloc
  have hwrap : wrapUnsigned (b.useSize + piece.length + mebi) =
      b.useSize + piece.length + mebi := by
    apply wrapUnsigned_of_lt
    simp only [mebi] at hinside ⊢
    omega
  rw [hwrap] at hsize ⊢
  rw [List.take_of_length_le (by omega)]
  constructor
  · exact ⟨_, by rw [List.append_assoc, List.cons_append]⟩
  · rw [List.length_append, List.length_drop, hblock, hsize]
    omega
  · exact h0
  · exact hb.slack_le
  · simp only [List.length_append]
    omega
  · rw [hb.buf, ← Nat.succ_mul]
    apply wrapUnsigned_of_lt
    simp only [mebi] at hge hinside ⊢
    omega
  · simp only [mebi] at hbelow ⊢
    omega
  · exact hge
  · exact le_rfl
  · simp only [mebi] at hge hinside
    omega

/-- At the last enlargement the size that is asked for wraps, and only the first bytes of the
string are kept. -/
theorem HmsetBuffer.At.wrapped (hb : b.At slack k last text) (hlen : piece.length ≤ 1023)
    (h0 : 0 ∉ text ++ piece) (hout : ¬ b.useSize + piece.length < 4095 * mebi) {r : List Byte}
    {block : Block}
    (hmalloc : alloc.malloc (wrapUnsigned (b.useSize + piece.length + mebi)) = some block) :
    0 ∉ (text ++ piece ++ 0 :: r).take (wrapUnsigned (b.useSize + piece.length + mebi)) ++
      block.bytes.drop (text ++ piece ++ 0 :: r).length := by
  have huse := hb.use
  have hbelow := hb.below
  have hk := hb.inside
  have hslack := hb.slack_le
  have hsize := alloc.length_of_malloc _ block hmalloc
  have hwrap : wrapUnsigned (b.useSize + piece.length + mebi) ≤ 1023 := by
    simp only [wrapUnsigned, mebi] at hbelow hout ⊢
    omega
  have hlong : 1023 ≤ (text ++ piece).length := by
    simp only [List.length_append, mebi] at hout ⊢
    omega
  have hold : (text ++ piece).length ≤ (text ++ piece ++ 0 :: r).length :=
    (List.prefix_append _ _).length_le
  rw [List.take_append_of_le_length (hwrap.trans hlong), List.drop_eq_nil_of_le (by omega),
    List.append_nil]
  exact fun h => h0 (List.mem_of_mem_take h)

/-- A count that reaches the size: the piece must still have fitted, and the block is enlarged.
At the last enlargement the size that is asked for wraps, and the string loses its NUL. -/
theorem hmsetPiece_reach (alloc : Allocator) (hb : b.At slack k last text) (hn : piece.length ≤ n)
    (hlen : piece.length ≤ 1023) (h0 : 0 ∉ piece)
    (hge : (k + 1) * mebi ≤ b.useSize + piece.length) :
    (¬ Enlarges alloc slack last (b.useSize + piece.length) ∧
      ∀ b', hmsetPiece alloc piece n b ≠ .ok (some b')) ∨
    (Enlarges alloc slack last (b.useSize + piece.length) ∧
      ∃ b', hmsetPiece alloc piece n b = .ok (some b') ∧
        if b.useSize + piece.length < 4095 * mebi then
          b'.At slack (k + 1) (b.useSize + piece.length) (text ++ piece) ∧
            b'.useSize = b.useSize + piece.length
        else 0 ∉ b'.cmd) := by
  by_cases hfit : b.useSize + piece.length < last + mebi + slack
  · obtain ⟨r, happend, hblock⟩ := (hb.append hn).1 hfit
    have hnul : 0 ∉ text ++ piece := by
      rw [List.mem_append, not_or]
      exact ⟨hb.nul_free, h0⟩
    have hpiece : hmsetPiece alloc piece n b =
        match realloc alloc (text ++ piece ++ 0 :: r)
          (wrapUnsigned (b.useSize + piece.length + mebi)) with
        | none => .ok none
        | some cmd => .ok (some { cmd, bufSize := wrapUnsigned (b.bufSize + mebi)
                                  useSize := b.useSize + piece.length }) := by
      rw [hmsetPiece, happend, ok_bind]
      simp only [wrapUnsigned_count hb hlen]
      rw [if_pos (by rw [hb.buf]; omega)]
      rfl
    rw [hpiece, Enlarges]
    cases hmalloc : alloc.malloc (wrapUnsigned (b.useSize + piece.length + mebi)) with
    | none =>
      left
      simp [realloc, hmalloc]
    | some block =>
      right
      refine ⟨⟨hfit, rfl⟩, ?_⟩
      simp only [realloc, hmalloc, Option.map_some]
      refine ⟨_, rfl, ?_⟩
      split_ifs with hinside
      · exact ⟨hb.enlarge hlen hnul hge hinside hblock hmalloc, rfl⟩
      · exact hb.wrapped hlen hnul hinside hmalloc
  · left
    refine ⟨fun h => hfit h.1, fun b' h => ?_⟩
    rw [hmsetPiece, (hb.append hn).2 hfit] at h
    cases h

end

/-! ## All pieces -/

/-- The counts after each of the pieces, which have the lengths given. -/
def counts (count : Nat) : List Nat → List Nat
  | [] => []
  | n :: ns => (count + n) :: counts (count + n) ns

/-- `P` holds between the count at one enlargement of the block and the count at the next one. -/
def EachEnlargement (P : Nat → Nat → Prop) : Nat → Nat → List Nat → Prop
  | _, _, [] => True
  | k, last, c :: cs =>
    if c < (k + 1) * mebi then EachEnlargement P k last cs
    else P last c ∧ EachEnlargement P (k + 1) c cs

/-- The counts are below the one at which the size asked for would wrap. -/
def BelowWrap (cs : List Nat) : Prop := ∀ c ∈ cs, c < 4095 * mebi

/-- A string that is appended in full. -/
def IsPiece (p : List Byte × Nat) : Prop := p.1.length ≤ p.2 ∧ p.1.length ≤ 1023 ∧ 0 ∉ p.1

section

variable {alloc : Allocator} {b b' : HmsetBuffer} {slack k last : Nat} {text : List Byte}
  {pieces : List (List Byte × Nat)}

theorem hmsetPieces_of_notMem (h : 0 ∉ b.cmd) (hne : pieces ≠ []) :
    hmsetPieces alloc pieces b = .error .read := by
  obtain ⟨⟨piece, n⟩, ps, rfl⟩ := List.exists_cons_of_ne_nil hne
  rw [hmsetPieces, hmsetPiece, strncat, strcat_of_notMem h]
  rfl

/-- A loop that comes to its end has appended its first piece. -/
theorem hmsetPieces_cons_eq_some {p : List Byte × Nat} :
    hmsetPieces alloc (p :: pieces) b = .ok (some b') ↔
      ∃ next, hmsetPiece alloc p.1 p.2 b = .ok (some next) ∧
        hmsetPieces alloc pieces next = .ok (some b') := by
  rw [hmsetPieces, bind_eq_ok]
  constructor
  · rintro ⟨x, hpiece, hrest⟩
    cases x with
    | none => cases hrest
    | some next => exact ⟨next, hpiece, hrest⟩
  · rintro ⟨next, hpiece, hrest⟩
    exact ⟨some next, hpiece, hrest⟩

theorem hmsetPieces_cons {p : List Byte × Nat} (h : hmsetPiece alloc p.1 p.2 b = .ok (some b')) :
    hmsetPieces alloc (p :: pieces) b = hmsetPieces alloc pieces b' := by
  rw [hmsetPieces, h]
  rfl

/-- What a piece that is appended leaves: the buffer of the longer text, or a part of the text
without its NUL once the size asked for has wrapped. -/
theorem hmsetPiece_some {p : List Byte × Nat} (hb : b.At slack k last text) (hp : IsPiece p)
    (h : hmsetPiece alloc p.1 p.2 b = .ok (some b')) :
    if b.useSize + p.1.length < 4095 * mebi then
      (∃ k last, b'.At slack k last (text ++ p.1)) ∧ b'.useSize = b.useSize + p.1.length
    else 0 ∉ b'.cmd := by
  obtain ⟨hn, hlen, h0⟩ := hp
  obtain hlt | hge := lt_or_ge (b.useSize + p.1.length) ((k + 1) * mebi)
  · obtain ⟨next, hpiece, hnext, huse⟩ := hmsetPiece_below alloc hb hn hlen h0 hlt
    cases hpiece.symm.trans h
    have hk := hb.inside
    rw [if_pos (hlt.trans_le (Nat.mul_le_mul_right mebi (by omega)))]
    exact ⟨⟨k, last, hnext⟩, huse⟩
  · obtain ⟨-, hpiece⟩ | ⟨-, next, hpiece, hnext⟩ := hmsetPiece_reach alloc hb hn hlen h0 hge
    · exact absurd h (hpiece b')
    · cases hpiece.symm.trans h
      split_ifs at hnext ⊢ with hinside
      · exact ⟨⟨_, _, hnext.1⟩, hnext.2⟩
      · exact hnext

theorem belowWrap_dropLast_cons (c : Nat) (cs : List Nat) :
    BelowWrap (c :: cs).dropLast ↔ (cs ≠ [] → c < 4095 * mebi) ∧ BelowWrap cs.dropLast := by
  cases cs <;> simp [BelowWrap]

theorem counts_eq_nil_iff {count : Nat} {ns : List Nat} : counts count ns = [] ↔ ns = [] := by
  cases ns <;> simp [counts]

/-- The loop goes on to the end exactly if each enlargement comes in time and the last one does
not have to be used. -/
theorem hmsetPieces_isSome_iff (hb : b.At slack k last text) (hp : ∀ p ∈ pieces, IsPiece p) :
    (∃ r, hmsetPieces alloc pieces b = .ok (some r)) ↔
      EachEnlargement (Enlarges alloc slack) k last
          (counts b.useSize (pieces.map (·.1.length))) ∧
        BelowWrap (counts b.useSize (pieces.map (·.1.length))).dropLast := by
  induction pieces generalizing b k last text with
  | nil => simp [hmsetPieces, counts, EachEnlargement, BelowWrap]
  | cons p ps ih =>
    obtain ⟨hn, hlen, h0⟩ := hp p List.mem_cons_self
    have hps : ∀ q ∈ ps, IsPiece q := fun q hq => hp q (List.mem_cons_of_mem _ hq)
    rw [List.map_cons, counts, EachEnlargement, belowWrap_dropLast_cons, Ne, counts_eq_nil_iff,
      List.map_eq_nil_iff]
    obtain hlt | hge := lt_or_ge (b.useSize + p.1.length) ((k + 1) * mebi)
    · obtain ⟨b', hpiece, hb', huse⟩ := hmsetPiece_below alloc hb hn hlen h0 hlt
      have hk := hb.inside
      have hinside : b.useSize + p.1.length < 4095 * mebi :=
        hlt.trans_le (Nat.mul_le_mul_right mebi (by omega))
      rw [hmsetPieces_cons hpiece, ih hb' hps, huse, if_pos hlt]
      simp [hinside]
    · rw [if_neg (not_lt.mpr hge)]
      obtain ⟨hno, hpiece⟩ | ⟨hyes, b', hpiece, hb'⟩ :=
        hmsetPiece_reach alloc hb hn hlen h0 hge
      · refine iff_of_false ?_ fun h => hno h.1.1
        rintro ⟨r, hr⟩
        obtain ⟨next, hnext, -⟩ := hmsetPieces_cons_eq_some.mp hr
        exact hpiece next hnext
      · rw [hmsetPieces_cons hpiece, and_iff_right hyes]
        split_ifs at hb' with hinside
        · rw [ih hb'.1 hps, hb'.2]
          simp [hinside]
        · -- behind the last enlargement nothing can be appended
          cases ps with
          | nil => simp [hmsetPieces, counts, EachEnlargement, BelowWrap]
          | cons q qs =>
            rw [hmsetPieces_of_notMem hb' (List.cons_ne_nil q qs)]
            simp [hinside]

/-- The block at the end holds the string and its NUL if the size asked for has never wrapped,
and otherwise only a part of the string. -/
theorem hmsetPieces_cmd (hb : b.At slack k last text) (hp : ∀ p ∈ pieces, IsPiece p)
    (h : hmsetPieces alloc pieces b = .ok (some b')) :
    (BelowWrap (counts b.useSize (pieces.map (·.1.length))) →
      ∃ r, b'.cmd = text ++ (pieces.map Prod.fst).flatten ++ 0 :: r) ∧
    (¬ BelowWrap (counts b.useSize (pieces.map (·.1.length))) → 0 ∉ b'.cmd) := by
  induction pieces generalizing b k last text with
  | nil =>
    obtain ⟨r, hr⟩ := hb.cmd
    cases h
    exact ⟨fun _ => ⟨r, by simpa using hr⟩, fun h => absurd (by simp [counts, BelowWrap]) h⟩
  | cons p ps ih =>
    have hps : ∀ q ∈ ps, IsPiece q := fun q hq => hp q (List.mem_cons_of_mem _ hq)
    have hcons : BelowWrap (counts b.useSize ((p :: ps).map (·.1.length))) ↔
        b.useSize + p.1.length < 4095 * mebi ∧
          BelowWrap (counts (b.useSize + p.1.length) (ps.map (·.1.length))) := by
      simp [counts, BelowWrap]
    have htext : text ++ ((p :: ps).map Prod.fst).flatten =
        text ++ p.1 ++ (ps.map Prod.fst).flatten := by
      simp
    obtain ⟨next, hpiece, hrest⟩ := hmsetPieces_cons_eq_some.mp h
    have hnext := hmsetPiece_some hb (hp p List.mem_cons_self) hpiece
    rw [hcons, htext]
    split_ifs at hnext with hinside
    · obtain ⟨⟨k', last', hb'⟩, huse⟩ := hnext
      rw [and_iff_right hinside, ← huse]
      exact ih hb' hps hrest
    · refine ⟨fun hbelow => absurd hbelow.1 hinside, fun _ => ?_⟩
      cases ps with
      | nil =>
        cases hrest
        exact hnext
      | cons q qs =>
        rw [hmsetPieces_of_notMem hnext (List.cons_ne_nil q qs)] at hrest
        cases hrest

end

/-! ## The counts at the enlargements -/

/-- The count at the `r`-th enlargement: the first one that reaches `r` MiB. -/
def reached (cs : List Nat) : Nat → Option Nat
  | 0 => some 0
  | r + 1 => cs.find? ((r + 1) * mebi ≤ ·)

section

variable {cs ds : List Nat} {r c d : Nat}

theorem reached_append (h : reached cs r = some c) (ds : List Nat) :
    reached (cs ++ ds) r = some c := by
  cases r with
  | zero => exact h
  | succ r =>
    rw [reached] at h ⊢
    rw [List.find?_append, h, Option.some_or]

theorem reached_of_lt (h : ∀ c ∈ cs, c < (r + 1) * mebi) : reached cs (r + 1) = none := by
  rw [reached, List.find?_eq_none]
  intro c hc
  have := h c hc
  grind

/-- The first count that is not below the limit reaches it. -/
theorem reached_append_cons (h : ∀ c ∈ cs, c < (r + 1) * mebi) (hd : (r + 1) * mebi ≤ d) :
    reached (cs ++ d :: ds) (r + 1) = some d := by
  have hnone := reached_of_lt h
  rw [reached] at hnone ⊢
  rw [List.find?_append, hnone, Option.none_or, List.find?_cons_of_pos (by simpa using hd)]

end

/-- In counts that grow by less than a MiB at a time, one enlargement follows the other. -/
theorem eachEnlargement_append_iff {P : Nat → Nat → Prop} {ns : List Nat}
    (hns : ∀ n ∈ ns, n ≤ 1023) {k last count : Nat} (hcount : count < (k + 1) * mebi)
    {cs : List Nat} (hcs : ∀ c ∈ cs, c < (k + 1) * mebi) (hlast : reached cs k = some last) :
    EachEnlargement P k last (counts count ns) ↔ ∀ r ≥ k, ∀ c d,
      reached (cs ++ counts count ns) r = some c →
        reached (cs ++ counts count ns) (r + 1) = some d → P c d := by
  induction ns generalizing k last count cs with
  | nil =>
    refine iff_of_true trivial fun r hr c d _ hd => ?_
    have hnone : reached (cs ++ counts count []) (r + 1) = none := by
      apply reached_of_lt
      intro c hc
      rw [counts, List.append_nil] at hc
      exact (hcs c hc).trans_le (Nat.mul_le_mul_right mebi (by omega))
    rw [hnone] at hd
    cases hd
  | cons n ns ih =>
    have hn := hns n List.mem_cons_self
    have hrest : ∀ m ∈ ns, m ≤ 1023 := fun m hm => hns m (List.mem_cons_of_mem _ hm)
    have hwhole : cs ++ counts count (n :: ns) =
        cs ++ [count + n] ++ counts (count + n) ns := by
      simp [counts]
    rw [counts, EachEnlargement, ← counts, hwhole]
    by_cases hlt : count + n < (k + 1) * mebi
    · rw [if_pos hlt]
      refine ih hrest hlt ?_ (reached_append hlast _)
      intro c hc
      rcases List.mem_append.mp hc with hc | hc
      · exact hcs c hc
      · rwa [List.mem_singleton.mp hc]
    · rw [if_neg hlt]
      have hsucc : (k + 1 + 1) * mebi = (k + 1) * mebi + mebi := Nat.succ_mul (k + 1) mebi
      have hmebi : 1023 < mebi := by decide
      have hnext : count + n < (k + 1 + 1) * mebi := by omega
      have hall : ∀ c ∈ cs ++ [count + n], c < (k + 1 + 1) * mebi := by
        intro c hc
        rcases List.mem_append.mp hc with hc | hc
        · have := hcs c hc
          omega
        · rwa [List.mem_singleton.mp hc]
      have hreached : reached (cs ++ [count + n]) (k + 1) = some (count + n) :=
        reached_append_cons hcs (not_lt.mp hlt)
      rw [ih hrest hnext hall hreached]
      have hk : reached (cs ++ [count + n] ++ counts (count + n) ns) k = some last := by
        rw [List.append_assoc]
        exact reached_append hlast _
      have hk1 := reached_append hreached (counts (count + n) ns)
      constructor
      · rintro ⟨hP, hmore⟩ r hr c d hc hd
        obtain rfl | hr := hr.eq_or_lt
        · rw [hk] at hc
          rw [hk1] at hd
          cases hc
          cases hd
          exact hP
        · exact hmore r hr c d hc hd
      · exact fun h => ⟨h k le_rfl _ _ hk hk1, fun r hr => h r (by omega)⟩

theorem eachEnlargement_iff {P : Nat → Nat → Prop} {ns : List Nat} (hns : ∀ n ∈ ns, n ≤ 1023)
    {count : Nat} (hcount : count < mebi) :
    EachEnlargement P 0 0 (counts count ns) ↔ ∀ r c d, reached (counts count ns) r = some c →
      reached (counts count ns) (r + 1) = some d → P c d := by
  have h : EachEnlargement P 0 0 (counts count ns) ↔ ∀ r ≥ 0, ∀ c d,
      reached ([] ++ counts count ns) r = some c →
        reached ([] ++ counts count ns) (r + 1) = some d → P c d :=
    eachEnlargement_append_iff hns (by simpa using hcount) (by simp) rfl
  simpa using h

/-! ## The whole command -/

/-- The text that is put together. -/
def hmsetText (key : CStr) (elementNum : Nat) (fields values : Nat → CStr) : List Byte :=
  ascii "hmset" ++ [space] ++ key.bytes.take 200 ++ (List.range elementNum).flatMap fun i =>
    space :: (fields i).bytes ++ space :: (values i).bytes

/-- The counts of the loop. -/
def hmsetCounts (elementNum : Nat) (fields values : Nat → CStr) : List Nat :=
  counts 206 ((List.range elementNum).flatMap fun i =>
    [1, (fields i).bytes.length, 1, (values i).bytes.length])

/-- The rows have the widths of `RFIELDS` and `RVALUES`. -/
def EntriesFit (elementNum : Nat) (fields values : Nat → CStr) : Prop :=
  ∀ i < elementNum, (fields i).bytes.length < fieldIdSize ∧ (values i).bytes.length < valuesIdSize

section

variable {alloc : Allocator} {key : CStr} {elementNum : Nat} {fields values : Nat → CStr}

theorem hmsetPieces_append (alloc : Allocator) (ps qs : List (List Byte × Nat))
    (b : HmsetBuffer) :
    hmsetPieces alloc (ps ++ qs) b = hmsetPieces alloc ps b >>= fun b =>
      match b with
      | none => .ok none
      | some b => hmsetPieces alloc qs b := by
  induction ps generalizing b with
  | nil => rfl
  | cons p ps ih =>
    rw [List.cons_append, hmsetPieces, hmsetPieces, bind_assoc]
    congr 1
    funext b
    cases b with
    | none => rfl
    | some b => exact ih b

theorem hmsetLoop_eq (alloc : Allocator) (n i : Nat) (b : HmsetBuffer) :
    hmsetLoop alloc fields values n i b =
      hmsetPieces alloc ((List.range' i n).flatMap (entryPieces fields values)) b := by
  induction n generalizing i b with
  | zero => rfl
  | succ n ih =>
    rw [hmsetLoop, List.range'_succ, List.flatMap_cons, hmsetPieces_append]
    congr 1
    funext b
    cases b with
    | none => rfl
    | some b => exact ih (i + 1) b

theorem isPiece_entryPieces (h : EntriesFit elementNum fields values) :
    ∀ p ∈ (List.range elementNum).flatMap (entryPieces fields values), IsPiece p := by
  intro p hp
  obtain ⟨i, hi, hp⟩ := List.mem_flatMap.mp hp
  obtain ⟨hfield, hvalue⟩ := h i (List.mem_range.mp hi)
  simp only [fieldIdSize, valuesIdSize] at hfield hvalue
  have hspace : IsPiece ([space], 1) := ⟨by decide, by decide, by decide⟩
  simp only [entryPieces, List.mem_cons, List.not_mem_nil, or_false] at hp
  rcases hp with rfl | rfl | rfl | rfl
  · exact hspace
  · exact ⟨by simp only [fieldIdSize]; omega, by dsimp only; omega, (fields i).nul_free⟩
  · exact hspace
  · exact ⟨by simp only [valuesIdSize]; omega, by dsimp only; omega, (values i).nul_free⟩

/-- The buffer in front of the loop. -/
theorem makeHmsetCommand_eq {block : Block} (h : alloc.malloc mebi = some block) (key : CStr)
    (elementNum : Nat) (fields values : Nat → CStr) :
    ∃ b, b.At (200 - key.bytes.length) 0 0 (ascii "hmset" ++ [space] ++ key.bytes.take 200) ∧
      b.useSize = 206 ∧ makeHmsetCommand alloc key elementNum fields values =
        (hmsetPieces alloc ((List.range elementNum).flatMap (entryPieces fields values)) b).map
          (·.map HmsetBuffer.cmd) := by
  have hM : mebi = 1048576 := rfl
  have hlen : block.bytes.length = mebi := alloc.length_of_malloc _ _ h
  have htake : (key.bytes.take 200).length ≤ 200 := List.length_take_le 200 _
  have hkey : (key.bytes.take 200).length + (200 - key.bytes.length) = 200 := by
    rw [List.length_take]
    omega
  have hname : (ascii "hmset").length = 5 := rfl
  have hclear : memset0 block.bytes mebi = .ok (zeros mebi) := by
    rw [memset0_eq_ok]
    exact ⟨hlen.ge, by rw [List.drop_eq_nil_of_le hlen.le, List.append_nil]⟩
  have h1 : strncat (zeros mebi) (ascii "hmset") 6 = .ok (ascii "hmset" ++ zeros (mebi - 5)) := by
    have h1 := @strcat_zeros [] (ascii "hmset") mebi List.not_mem_nil (by decide)
    rwa [List.nil_append, List.nil_append, hname] at h1
  have h2 : strncat (ascii "hmset" ++ zeros (mebi - 5)) [space] 1 =
      .ok (ascii "hmset" ++ [space] ++ zeros (mebi - 5 - 1)) :=
    strcat_zeros (by decide) (by decide)
  have hnul : 0 ∉ ascii "hmset" ++ [space] := by decide
  have h3 : strncat (ascii "hmset" ++ [space] ++ zeros (mebi - 5 - 1)) key.bytes 200 =
      .ok (ascii "hmset" ++ [space] ++ key.bytes.take 200 ++
        zeros (mebi - 5 - 1 - (key.bytes.take 200).length)) :=
    strcat_zeros hnul (by omega)
  obtain ⟨room, hroom⟩ : ∃ room, mebi - 5 - 1 - (key.bytes.take 200).length = room + 1 :=
    ⟨mebi - 7 - (key.bytes.take 200).length, by omega⟩
  rw [hroom] at h3
  have htext : (ascii "hmset" ++ [space] ++ key.bytes.take 200).length =
      6 + (key.bytes.take 200).length := by
    simp only [List.length_append, hname, List.length_singleton]
  refine ⟨{ cmd := ascii "hmset" ++ [space] ++ key.bytes.take 200 ++ zeros (room + 1)
            bufSize := mebi, useSize := 5 + 1 + 200 }, ?_, rfl, ?_⟩
  · constructor
    · exact ⟨zeros room, rfl⟩
    · rw [List.length_append, length_zeros, htext]
      omega
    · rw [List.mem_append, not_or]
      exact ⟨hnul, fun h => key.nul_free (List.mem_of_mem_take h)⟩
    · omega
    · dsimp only
      rw [htext]
      omega
    · exact (Nat.one_mul mebi).symm
    · dsimp only
      omega
    · omega
    · exact Nat.zero_le _
    · decide
  · rw [makeHmsetCommand, h]
    dsimp only
    rw [hclear, ok_bind, h1, ok_bind, h2, ok_bind, h3, ok_bind, hmsetLoop_eq,
      ← List.range_eq_range']
    rfl

theorem counts_entryPieces :
    counts 206 (((List.range elementNum).flatMap (entryPieces fields values)).map (·.1.length)) =
      hmsetCounts elementNum fields values := by
  rw [hmsetCounts, List.map_flatMap]
  rfl

theorem map_fst_entryPieces :
    (((List.range elementNum).flatMap (entryPieces fields values)).map Prod.fst).flatten =
      (List.range elementNum).flatMap fun i =>
        space :: (fields i).bytes ++ space :: (values i).bytes := by
  generalize List.range elementNum = is
  induction is with
  | nil => rfl
  | cons i is ih =>
    rw [List.flatMap_cons, List.flatMap_cons, List.map_append, List.flatten_append, ih]
    simp [entryPieces]

/-- The command is put together exactly if the blocks are granted and enlarged in time. -/
theorem makeHmsetCommand_isSome_iff (hrows : EntriesFit elementNum fields values) :
    (∃ cmd, makeHmsetCommand alloc key elementNum fields values = .ok (some cmd)) ↔
      (alloc.malloc mebi).isSome ∧
        (∀ r c d, reached (hmsetCounts elementNum fields values) r = some c →
          reached (hmsetCounts elementNum fields values) (r + 1) = some d →
            Enlarges alloc (200 - key.bytes.length) c d) ∧
        BelowWrap (hmsetCounts elementNum fields values).dropLast := by
  cases hmalloc : alloc.malloc mebi with
  | none => simp [makeHmsetCommand, hmalloc]
  | some block =>
    obtain ⟨b, hb, huse, hmake⟩ := makeHmsetCommand_eq hmalloc key elementNum fields values
    have hpieces := isPiece_entryPieces hrows
    have hloop : (∃ r, hmsetPieces alloc _ b = .ok (some r)) ↔ _ :=
      hmsetPieces_isSome_iff hb hpieces
    have hns : ∀ n ∈ ((List.range elementNum).flatMap (entryPieces fields values)).map
        (·.1.length), n ≤ 1023 := by
      intro n hn
      obtain ⟨p, hp, rfl⟩ := List.mem_map.mp hn
      exact (hpieces p hp).2.1
    rw [huse, eachEnlargement_iff hns (by decide), counts_entryPieces] at hloop
    rw [hmake, Option.isSome_some, ← hloop]
    simp only [map_eq_ok, Option.map_eq_some_iff, true_and]
    constructor
    · rintro ⟨cmd, x, hx, r, rfl, -⟩
      exact ⟨r, hx⟩
    · rintro ⟨r, hr⟩
      exact ⟨r.cmd, some r, hr, r, rfl, rfl⟩

/-- What the block holds at the end. -/
theorem makeHmsetCommand_cmd (hrows : EntriesFit elementNum fields values) {cmd : List Byte}
    (h : makeHmsetCommand alloc key elementNum fields values = .ok (some cmd)) :
    (BelowWrap (hmsetCounts elementNum fields values) →
      ∃ r, cmd = hmsetText key elementNum fields values ++ 0 :: r) ∧
    (¬ BelowWrap (hmsetCounts elementNum fields values) → 0 ∉ cmd) := by
  cases hmalloc : alloc.malloc mebi with
  | none => simp [makeHmsetCommand, hmalloc] at h
  | some block =>
    obtain ⟨b, hb, huse, hmake⟩ := makeHmsetCommand_eq hmalloc key elementNum fields values
    rw [hmake, map_eq_ok] at h
    obtain ⟨x, hx, hcmd⟩ := h
    obtain ⟨b', rfl, rfl⟩ := Option.map_eq_some_iff.mp hcmd
    have hend := hmsetPieces_cmd hb (isPiece_entryPieces hrows) hx
    rw [huse, counts_entryPieces, map_fst_entryPieces] at hend
    exact hend

theorem hmsetPiece_ne_none (hgranted : ∀ n < 2 ^ 32, (alloc.malloc n).isSome) (piece : List Byte)
    (n : Nat) (b : HmsetBuffer) : hmsetPiece alloc piece n b ≠ .ok none := by
  intro h
  obtain ⟨cmd, -, h⟩ := bind_eq_ok.mp h
  dsimp only at h
  split_ifs at h
  · generalize hsize : wrapUnsigned (wrapUnsigned (b.useSize + piece.length) + mebi) = size at h
    have hlt : size < 2 ^ 32 := hsize ▸ Nat.mod_lt _ (by decide)
    obtain ⟨block, hblock⟩ := Option.isSome_iff_exists.mp (hgranted size hlt)
    simp [realloc, hblock] at h
  · cases h

/-- With all blocks granted the command never becomes NULL. -/
theorem makeHmsetCommand_ne_none (hgranted : ∀ n < 2 ^ 32, (alloc.malloc n).isSome) :
    makeHmsetCommand alloc key elementNum fields values ≠ .ok none := by
  have hpieces : ∀ (ps : List (List Byte × Nat)) (b : HmsetBuffer),
      hmsetPieces alloc ps b ≠ .ok none := by
    intro ps
    induction ps with
    | nil => simp [hmsetPieces]
    | cons p ps ih =>
      intro b h
      obtain ⟨x, hx, h⟩ := bind_eq_ok.mp h
      cases x with
      | some b' => exact ih b' h
      | none => exact hmsetPiece_ne_none hgranted _ _ _ hx
  obtain ⟨block, hblock⟩ := Option.isSome_iff_exists.mp (hgranted mebi (by decide))
  obtain ⟨b, -, -, hmake⟩ := makeHmsetCommand_eq hblock key elementNum fields values
  rw [hmake]
  intro h
  obtain ⟨x, hx, hnone⟩ := map_eq_ok.mp h
  rw [Option.map_eq_none_iff] at hnone
  exact hpieces _ b (hnone ▸ hx)

end

/-- The string and its NUL stay inside the block at every append exactly if from one enlargement
to the next the count grows by less than a MiB and the bytes that the key is short of 200, and
the count does not reach 4095 MiB in front of the last append. -/
theorem makeHmsetCommand_inside_iff (alloc : Allocator)
    (hgranted : ∀ n < 2 ^ 32, (alloc.malloc n).isSome) (key : CStr) (elementNum : Nat)
    (fields values : Nat → CStr) (hrows : EntriesFit elementNum fields values) :
    (∃ r, makeHmsetCommand alloc key elementNum fields values = .ok r) ↔
      (∀ r c d, reached (hmsetCounts elementNum fields values) r = some c →
        reached (hmsetCounts elementNum fields values) (r + 1) = some d →
          d < c + mebi + (200 - key.bytes.length)) ∧
      BelowWrap (hmsetCounts elementNum fields values).dropLast := by
  have hsome : (∃ r, makeHmsetCommand alloc key elementNum fields values = .ok r) ↔
      ∃ cmd, makeHmsetCommand alloc key elementNum fields values = .ok (some cmd) := by
    constructor
    · rintro ⟨r, hr⟩
      cases r with
      | none => exact absurd hr (makeHmsetCommand_ne_none hgranted)
      | some cmd => exact ⟨cmd, hr⟩
    · rintro ⟨cmd, hcmd⟩
      exact ⟨some cmd, hcmd⟩
  have henlarges : ∀ c d, Enlarges alloc (200 - key.bytes.length) c d ↔
      d < c + mebi + (200 - key.bytes.length) :=
    fun c d => and_iff_left (hgranted _ (Nat.mod_lt _ (by decide)))
  rw [hsome, makeHmsetCommand_isSome_iff hrows, and_iff_right (hgranted mebi (by decide))]
  simp only [henlarges]

theorem reached_eq_none {cs : List Nat} (h : ∀ c ∈ cs, c < mebi) (r : Nat) :
    reached cs (r + 1) = none := by
  apply reached_of_lt
  intro c hc
  exact (h c hc).trans_le (Nat.le_mul_of_pos_left mebi (Nat.succ_pos r))

/-- One short field with its value: the block is not enlarged. -/
theorem makeHmsetCommand_inside_one :
    ∃ r, makeHmsetCommand .zeroed (letters 1) 1 (fun _ => letters 1) (fun _ => letters 1) =
      .ok r :=
  (makeHmsetCommand_inside_iff .zeroed zeroed_grants (letters 1) 1 (fun _ => letters 1)
    (fun _ => letters 1) fun _ _ => (by decide : 1 < fieldIdSize ∧ 1 < valuesIdSize)).mpr
    ⟨fun r c d _ hd => absurd ((reached_eq_none (by decide) r).symm.trans hd) nofun, by
      rw [BelowWrap]
      decide⟩

theorem counts_concat_mem {ns : List Nat} (h : ns ≠ []) (count : Nat) :
    count + ns.sum ∈ counts count ns := by
  induction ns generalizing count with
  | nil => exact absurd rfl h
  | cons n ns ih =>
    rw [counts, List.sum_cons, ← Nat.add_assoc]
    by_cases hns : ns = []
    · simp [hns]
    · exact List.mem_cons_of_mem _ (ih hns (count + n))

/-- A key of 200 bytes and 1000 full rows: the count is exact, and the piece that reaches 1 MiB
leaves no room for its NUL. -/
theorem makeHmsetCommand_inside_full :
    ¬ ∃ r, makeHmsetCommand .zeroed (letters 200) 1000 (fun _ => letters 99)
      (fun _ => letters 1023) = .ok r := by
  rintro ⟨r, hr⟩
  cases r with
  | none => exact makeHmsetCommand_ne_none zeroed_grants hr
  | some cmd =>
    have hrows : EntriesFit 1000 (fun _ => letters 99) fun _ => letters 1023 := by
      intro i hi
      simp only [length_letters]
      exact ⟨by decide, by decide⟩
    obtain ⟨-, hinside, -⟩ := (makeHmsetCommand_isSome_iff hrows).mp ⟨cmd, hr⟩
    let sizes := (List.range 1000).flatMap fun _ => [1, 99, 1, 1023]
    have hcounts : hmsetCounts 1000 (fun _ => letters 99) (fun _ => letters 1023) =
        counts 206 sizes := by
      simp only [hmsetCounts, length_letters, sizes]
    have hsum : sizes.sum = 1124000 := by
      simp only [sizes, List.flatMap, List.sum_flatten, List.map_map]
      decide +kernel
    have hne : sizes ≠ [] := by
      intro hnil
      rw [hnil] at hsum
      cases hsum
    have hmem : 1124206 ∈ counts 206 sizes := by
      simpa only [hsum] using counts_concat_mem hne 206
    rw [hcounts] at hinside
    have hreached : (reached (counts 206 sizes) 1).isSome := by
      rw [reached, List.find?_isSome]
      exact ⟨1124206, hmem, by decide +kernel⟩
    obtain ⟨d, hd⟩ := Option.isSome_iff_exists.mp hreached
    have hlt := (hinside 0 0 d rfl hd).1
    have hge := List.find?_some hd
    simp only [length_letters, decide_eq_true_eq] at hlt hge
    omega

end CgiFileStore
