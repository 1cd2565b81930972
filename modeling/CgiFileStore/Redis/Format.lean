import CgiFileStore.Lib.Memory

/-!
# The format strings of hiredis

`formatCommand` makes the arguments of a command from a format string: it cuts the string at
spaces, puts an argument of the call, whatever its bytes are, in the place of `%s`, and reads
`%%` as `%`. A directive without an argument is a fault, and so are the other directives: the
callers pass strings only.

Without directives the arguments are the `words` of the string.
-/

namespace Redis

open CSem

def space : Byte := 32

def percent : Byte := 37

/-- The loop over the format, with the argument that is being put together and whether it has
been touched. -/
def formatLoop : List Byte → List (List Byte) → List Byte → Bool → Checked (List (List Byte))
  | [], _, curarg, touched => .ok (if touched then [curarg] else [])
  -- a `%` at the end of the format stands for itself
  | [c], _, curarg, touched =>
    if c ≠ space then .ok [curarg ++ [c]] else .ok (if touched then [curarg] else [])
  | c :: d :: cs, args, curarg, touched =>
    if c ≠ percent then
      if c ≠ space then formatLoop (d :: cs) args (curarg ++ [c]) true
      else if touched then (formatLoop (d :: cs) args [] false).map (curarg :: ·)
      else formatLoop (d :: cs) args curarg false
    else if d = percent then formatLoop cs args (curarg ++ [percent]) true
    else if d = 115 then
      match args with
      | [] => .error .read
      | arg :: args => formatLoop cs args (curarg ++ arg) true
    else .error .read

/-- `redisvFormatCommand`. -/
def formatCommand (format : List Byte) (args : List (List Byte)) : Checked (List (List Byte)) :=
  formatLoop format args [] false

/-! ## Texts without directives -/

/-- The words of a text, the first one behind the bytes `curarg`. -/
def wordsFrom : List Byte → List Byte → List (List Byte)
  | curarg, [] => if curarg = [] then [] else [curarg]
  | curarg, c :: cs =>
    if c ≠ space then wordsFrom (curarg ++ [c]) cs
    else if curarg = [] then wordsFrom [] cs
    else curarg :: wordsFrom [] cs

/-- What stands between spaces, without the empty pieces. -/
def words (text : List Byte) : List (List Byte) := wordsFrom [] text

theorem wordsFrom_append_space (curarg s t : List Byte) :
    wordsFrom curarg (s ++ space :: t) = wordsFrom curarg s ++ words t := by
  induction s generalizing curarg with
  | nil =>
    by_cases hcur : curarg = [] <;> simp [wordsFrom, words, hcur]
  | cons c cs ih =>
    rw [List.cons_append, wordsFrom, wordsFrom]
    split_ifs
    · exact ih _
    · exact ih _
    · rw [ih, List.cons_append]

theorem wordsFrom_of_notMem {s : List Byte} (h : space ∉ s) (curarg : List Byte) :
    wordsFrom curarg s = if curarg ++ s = [] then [] else [curarg ++ s] := by
  induction s generalizing curarg with
  | nil => simp [wordsFrom]
  | cons c cs ih =>
    rw [List.mem_cons, not_or] at h
    rw [wordsFrom, if_pos (Ne.symm h.1), ih h.2]
    simp

theorem words_append_space (s t : List Byte) : words (s ++ space :: t) = words s ++ words t :=
  wordsFrom_append_space [] s t

/-- A text that is one word. -/
def IsWord (s : List Byte) : Prop := s ≠ [] ∧ space ∉ s

theorem words_of_isWord {s : List Byte} (h : IsWord s) : words s = [s] := by
  rw [words, wordsFrom_of_notMem h.2, List.nil_append, if_neg h.1]

theorem nil_notMem_wordsFrom (curarg text : List Byte) : [] ∉ wordsFrom curarg text := by
  induction text generalizing curarg with
  | nil =>
    rw [wordsFrom]
    split_ifs with hcur
    · exact List.not_mem_nil
    · exact fun h => hcur (List.mem_singleton.mp h).symm
  | cons c cs ih =>
    rw [wordsFrom]
    split_ifs with hc hcur
    · exact ih _
    · exact ih _
    · rw [List.mem_cons, not_or]
      exact ⟨Ne.symm hcur, ih _⟩

theorem nil_notMem_words (text : List Byte) : [] ∉ words text := nil_notMem_wordsFrom [] text

/-- If there is no `%` in front of the last byte, the arguments are the words. -/
theorem formatLoop_eq_words {text : List Byte} (h : percent ∉ text.dropLast)
    (curarg : List Byte) :
    formatLoop text [] curarg (curarg ≠ []) = .ok (wordsFrom curarg text) := by
  induction text generalizing curarg with
  | nil => by_cases hcur : curarg = [] <;> simp [formatLoop, wordsFrom, hcur]
  | cons c cs ih =>
    cases cs with
    | nil =>
      by_cases hc : c = space <;> by_cases hcur : curarg = [] <;>
        simp [formatLoop, wordsFrom, hc, hcur]
    | cons d ds =>
      rw [List.dropLast_cons_of_ne_nil (List.cons_ne_nil d ds), List.mem_cons, not_or] at h
      have htouched := ih h.2 (curarg ++ [c])
      have hfresh := ih h.2 []
      simp only [ne_eq, List.append_eq_nil_iff, List.cons_ne_nil, and_false, not_false_eq_true,
        decide_true] at htouched
      simp only [ne_eq, not_true_eq_false, decide_false] at hfresh
      rw [formatLoop, if_pos (Ne.symm h.1), wordsFrom]
      by_cases hc : c ≠ space
      · rw [if_pos hc, if_pos hc, htouched]
      · rw [if_neg hc, if_neg hc, hfresh]
        by_cases hcur : curarg = []
        · simp [hcur, hfresh]
        · simp [hcur, Except.map]

theorem formatCommand_eq_words {text : List Byte} (h : percent ∉ text.dropLast) :
    formatCommand text [] = .ok (words text) :=
  formatLoop_eq_words h []

/-! ## The bytes of the arguments -/

/-- A format without arguments does not yield more bytes than it has beside its spaces, and less
if it has a directive. -/
theorem length_formatLoop {text curarg : List Byte} {touched : Bool} {argv : List (List Byte)}
    (h : formatLoop text [] curarg touched = .ok argv) (hcur : touched = false → curarg = []) :
    argv.flatten.length + text.count space + (if percent ∈ text.dropLast then 1 else 0) ≤
      curarg.length + text.length := by
  have hne : percent ≠ space := by decide
  generalize hargs : ([] : List (List Byte)) = args at h
  fun_induction formatLoop text args curarg touched generalizing argv with
  | case1 args curarg touched =>
    obtain rfl := Except.ok.inj h
    cases touched <;> simp_all
  | case2 c args curarg touched hc =>
    obtain rfl := Except.ok.inj h
    simp [hc]
  | case3 c args curarg touched hc =>
    obtain rfl := Except.ok.inj h
    cases touched <;> simp_all
  | case4 c d cs args curarg touched hp hs ih =>
    have h1 := ih (by simp) hargs h
    rw [List.dropLast_cons_of_ne_nil (List.cons_ne_nil d cs), List.count_cons_of_ne hs]
    grind
  | case5 c d cs args curarg hp hs ih =>
    -- the argument is complete, and the space is not part of one
    obtain ⟨argv', hargv, rfl⟩ := map_eq_ok.mp h
    have h1 := ih (by simp) hargs hargv
    rw [List.dropLast_cons_of_ne_nil (List.cons_ne_nil d cs)]
    grind
  | case6 c d cs args curarg touched hp hs ht ih =>
    have h1 := ih (by simpa using hcur (by simpa using ht)) hargs h
    rw [List.dropLast_cons_of_ne_nil (List.cons_ne_nil d cs)]
    grind
  | case7 c cs args curarg touched hp ih =>
    -- two bytes of the format become one
    have h1 := ih (by simp) hargs h
    rw [List.count_cons_of_ne (by grind), List.count_cons_of_ne hne]
    grind
  | case8 | case10 => cases h
  | case9 => cases hargs

end Redis
