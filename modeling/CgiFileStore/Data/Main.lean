import CgiFileStore.Data.QueryLookup
import CgiFileStore.Lib.Transition

/-!
# The request loop of the listing worker: data.c

The three parameter arrays are declared outside the loop and never cleared. The main result
says when the answer to a request is nevertheless the one of a worker that has served
nothing before.
-/

namespace CgiFileStore

open CSem Search Transition

def cmdKey : CStr := ⟨ascii "cmd", by decide⟩

def fromIdKey : CStr := ⟨ascii "fromId", by decide⟩

def countKey : CStr := ⟨ascii "count", by decide⟩

def newFile : List Byte := ascii "newFile"

/-- The arrays that outlive a request. -/
structure DataState where
  queryCmdCmd : List Byte
  queryCmdFromId : List Byte
  queryCmdCount : List Byte
  deriving DecidableEq

def DataState.initial : DataState where
  queryCmdCmd := zeros 64
  queryCmdFromId := zeros 32
  queryCmdCount := zeros 32

/-- A call of `file_list_to_json_print`. -/
structure Listing where
  fromId : Int
  count : Int
  deriving DecidableEq

/-- The lookup of the command, left out when the query string is not set. -/
def queryCmdGet (queryString : Option CStr) (queryCmdCmd : List Byte) : Checked (List Byte) :=
  if queryString.isSome then
    (queryStringValueGet (queryString.map CStr.array) cmdKey queryCmdCmd).map QueryGet.value
  else .ok queryCmdCmd

/-- One round of the loop: the arrays afterwards, and the listing that is printed if one is.
The query string is none when the variable is not set. -/
def dataStep (queryString : Option CStr) (s : DataState) :
    Checked (DataState × Option Listing) := do
  let query := queryString.map CStr.array
  let queryCmdCmd ← queryCmdGet queryString s.queryCmdCmd
  let cmd ← readString queryCmdCmd
  if cmd = newFile then
    let fromIdGet ← queryStringValueGet query fromIdKey s.queryCmdFromId
    let countGet ← queryStringValueGet query countKey s.queryCmdCount
    let fromId ← readString fromIdGet.value
    let count ← readString countGet.value
    return ({ queryCmdCmd, queryCmdFromId := fromIdGet.value, queryCmdCount := countGet.value },
      some { fromId := atoi fromId, count := atoi count })
  else return ({ s with queryCmdCmd }, none)

/-! ## Lookups that stay inside the query and the array -/

/-- The lookups of a round with a query, each with its key and its array. Those for the listing
are made if the array of the command then holds `newFile`. -/
def queryCalls (query : CStr) (s : DataState) : List (CStr × List Byte) :=
  (cmdKey, s.queryCmdCmd) ::
    match queryCmdGet (some query) s.queryCmdCmd >>= readString with
    | .ok cmd =>
      if cmd = newFile then [(fromIdKey, s.queryCmdFromId), (countKey, s.queryCmdCount)] else []
    | .error _ => []

/-- The lookup reads and writes inside its objects. The query ends with its NUL. -/
def CallSafe (query : CStr) (call : CStr × List Byte) : Prop :=
  ∃ r, queryStringValueGet (some query.array) call.1 call.2 = .ok r

/-- Something follows the first occurrence of the key, and the value behind the byte that is
skipped is, as an `int`, shorter than the array. -/
def ValueFits (query key : CStr) (size : Nat) : Prop :=
  ∀ p, firstOcc key.bytes query.bytes = some p →
    let text := valueText (query.bytes.drop (p + key.bytes.length + 1))
    p + key.bytes.length < query.bytes.length ∧
      0 ≤ wrapInt text.length ∧ wrapInt text.length < size

/-- The command of a request: the value in the query, cut to its length as an `int`, or what an
earlier request has left in the array. -/
def cmdText (query : CStr) (s : DataState) : List Byte :=
  match firstOcc cmdKey.bytes query.bytes with
  | none => cstring s.queryCmdCmd
  | some p =>
    let text := valueText (query.bytes.drop (p + cmdKey.bytes.length + 1))
    text.take (wrapInt text.length).toNat

/-- The value of `cmd` fits its array, and where a listing is asked for the other two as well. -/
def QueryFits (query : CStr) (s : DataState) : Prop :=
  ValueFits query cmdKey 64 ∧
    (cmdText query s = newFile → ValueFits query fromIdKey 32 ∧ ValueFits query countKey 32)

theorem valueFits_iff_lookup (query key : CStr) (size : Nat) :
    ValueFits query key size ↔ ∀ e, lookup (some query) key size ≠ .fault e := by
  simp only [ValueFits, lookup]
  cases firstOcc key.bytes query.bytes with
  | none => simp
  | some p =>
    simp only [Option.some.injEq, forall_eq']
    generalize wrapInt (valueText (query.bytes.drop (p + key.bytes.length + 1))).length = len
    split_ifs with hend hlen
    · simp
      omega
    · simp
      omega
    · simp
      omega

theorem callSafe_iff (query key : CStr) {buf : List Byte} {size : Nat} (hbuf : buf.length = size) :
    CallSafe query (key, buf) ↔ ValueFits query key size := by
  have hget := queryStringValueGet_eq (some query) key buf
  rw [hbuf, Option.map_some] at hget
  rw [valueFits_iff_lookup, CallSafe, hget]
  cases lookup (some query) key size <;> simp

/-! ## The answer to a request -/

/-- All three arrays are terminated. -/
structure DataState.Terminated (s : DataState) : Prop where
  cmd : Ready 64 s.queryCmdCmd
  fromId : Ready 32 s.queryCmdFromId
  count : Ready 32 s.queryCmdCount

theorem DataState.initial_terminated : DataState.initial.Terminated :=
  ⟨ready_zeros (by decide), ready_zeros (by decide), ready_zeros (by decide)⟩

/-- The answer in terms of the three lookups. -/
def answer (queryString : Option CStr) (s : DataState) : Checked (Option Listing) := do
  let cmd ← (lookup queryString cmdKey 64).read s.queryCmdCmd
  if cmd = newFile then
    let fromId ← (lookup queryString fromIdKey 32).read s.queryCmdFromId
    let count ← (lookup queryString countKey 32).read s.queryCmdCount
    return some { fromId := atoi fromId, count := atoi count }
  else return none

section

variable (queryString : Option CStr) {s : DataState}

theorem queryCmdGet_read (hs : s.Terminated) :
    (∃ e, queryCmdGet queryString s.queryCmdCmd = .error e ∧
        (lookup queryString cmdKey 64).read s.queryCmdCmd = .error e) ∨
      ∃ buf text, queryCmdGet queryString s.queryCmdCmd = .ok buf ∧
        Ready 64 buf ∧ readString buf = .ok text ∧
          (lookup queryString cmdKey 64).read s.queryCmdCmd = .ok text := by
  cases queryString with
  | none => exact .inr ⟨_, _, rfl, hs.cmd, by simp [readString, hs.cmd.2], rfl⟩
  | some query =>
    obtain ⟨e, hget, hread⟩ | ⟨r, text, hget, hready, htext, hread⟩ :=
      queryStringValueGet_read (some query) cmdKey hs.cmd
    · exact .inl ⟨e, by rw [queryCmdGet, hget]; rfl, hread⟩
    · exact .inr ⟨r.value, text, by rw [queryCmdGet, hget]; rfl, hready, htext, hread⟩

/-- One round of the loop gives the answer described and keeps the arrays terminated. -/
theorem dataStep_answer (hs : s.Terminated) :
    (∃ e, dataStep queryString s = .error e ∧ answer queryString s = .error e) ∨
      ∃ s' out, dataStep queryString s = .ok (s', out) ∧ answer queryString s = .ok out ∧
        s'.Terminated := by
  unfold dataStep answer
  obtain ⟨e, hcmd, hread⟩ | ⟨cmdBuf, cmd, hcmd, hready, htext, hread⟩ :=
    queryCmdGet_read queryString hs
  · exact .inl ⟨e, by rw [hcmd, error_bind], by rw [hread, error_bind]⟩
  · simp only [hcmd, hread, htext, ok_bind]
    by_cases hnew : cmd = newFile
    · simp only [if_pos hnew]
      obtain ⟨e, hfrom, hfrom'⟩ | ⟨fromGet, fromId, hfrom, hfromReady, hfromText, hfrom'⟩ :=
        queryStringValueGet_read queryString fromIdKey hs.fromId
      · exact .inl ⟨e, by rw [hfrom, error_bind], by rw [hfrom', error_bind]⟩
      · obtain ⟨e, hcnt, hcnt'⟩ | ⟨countGet, count, hcnt, hcountReady, hcountText, hcnt'⟩ :=
          queryStringValueGet_read queryString countKey hs.count
        · exact .inl ⟨e, by rw [hfrom, ok_bind, hcnt, error_bind],
            by rw [hfrom', ok_bind, hcnt', error_bind]⟩
        · refine .inr ⟨_, _, by rw [hfrom, ok_bind, hcnt, ok_bind, hfromText, ok_bind,
            hcountText, ok_bind, pure_eq_ok], by rw [hfrom', ok_bind, hcnt', ok_bind, pure_eq_ok],
            ⟨hready, hfromReady, hcountReady⟩⟩
    · simp only [if_neg hnew]
      exact .inr ⟨_, _, rfl, rfl, ⟨hready, hs.fromId, hs.count⟩⟩

end

/-! ## Any history of requests -/

/-- A request that the worker answers without leaving its arrays. -/
def Served (s : DataState) (queryString : Option CStr) (s' : DataState) : Prop :=
  ∃ out, dataStep queryString s = .ok (s', out)

theorem terminated_of_run {history : List (Option CStr)} {s : DataState}
    (hrun : Run DataState.initial Served history s) : s.Terminated := by
  refine hrun.invariant DataState.initial_terminated ?_
  rintro s queryString s' hs ⟨out, hout⟩
  obtain ⟨e, herr, -⟩ | ⟨t, out', hok, -, ht⟩ := dataStep_answer queryString hs
  · rw [herr] at hout
    cases hout
  · obtain ⟨rfl, -⟩ : t = s' ∧ _ := by simpa [hok] using hout
    exact ht

/-- The command that a lookup within its bounds leaves in the array. -/
theorem queryCmdGet_fits {query : CStr} {s : DataState} (hs : s.Terminated)
    (h : ValueFits query cmdKey 64) :
    (queryCmdGet (some query) s.queryCmdCmd >>= readString) = .ok (cmdText query s) := by
  have hcmd : (lookup (some query) cmdKey 64).read s.queryCmdCmd = .ok (cmdText query s) := by
    simp only [lookup, cmdText]
    cases hp : firstOcc cmdKey.bytes query.bytes with
    | none => rfl
    | some p =>
      obtain ⟨hend, hnonneg, hlt⟩ := h p hp
      dsimp only
      rw [if_neg (by omega), if_neg (by omega)]
      rfl
  obtain ⟨e, -, hread⟩ | ⟨buf, text, hget, -, htext, hread⟩ := queryCmdGet_read (some query) hs
  · rw [hread] at hcmd
    cases hcmd
  · rw [hget, ok_bind, htext, ← hread, hcmd]

/-- The lookups of a round are these: it has a fault exactly if one of them has. -/
theorem dataStep_isOk_iff {query : CStr} {s : DataState} (hs : s.Terminated) :
    (∃ r, dataStep (some query) s = .ok r) ↔ ∀ call ∈ queryCalls query s, CallSafe query call := by
  have hcmd := callSafe_iff query cmdKey hs.cmd.1
  rw [queryCalls, List.forall_mem_cons, hcmd]
  unfold dataStep
  obtain ⟨e, hget, hread⟩ | ⟨buf, text, hget, -, htext, -⟩ := queryCmdGet_read (some query) hs
  · refine iff_of_false ?_ fun h => ?_
    · rintro ⟨r, hr⟩
      rw [hget] at hr
      cases hr
    · have hfits := queryCmdGet_fits hs h.1
      rw [hget] at hfits
      cases hfits
  · have hfits : ValueFits query cmdKey 64 := by
      rw [← hcmd, CallSafe]
      obtain ⟨r, hr, -⟩ := map_eq_ok.mp (show Except.map _ _ = _ from hget)
      exact ⟨r, hr⟩
    simp only [hget, htext, hfits, true_and, ok_bind]
    by_cases hnew : text = newFile
    · simp only [if_pos hnew, List.forall_mem_cons, CallSafe, Option.map_some]
      obtain ⟨e, hfrom, -⟩ | ⟨fromGet, fromId, hfrom, -, hfromText, -⟩ :=
        queryStringValueGet_read (some query) fromIdKey hs.fromId
      · simp only [Option.map_some] at hfrom
        simp [hfrom]
      · obtain ⟨e, hcnt, -⟩ | ⟨countGet, count, hcnt, -, hcountText, -⟩ :=
          queryStringValueGet_read (some query) countKey hs.count
        · simp only [Option.map_some] at hfrom hcnt
          simp [hfrom, hcnt]
        · simp only [Option.map_some] at hfrom hcnt
          simp [hfrom, hcnt, hfromText, hcountText]
    · simp [hnew]

/-- After any history of requests, the lookups of the next one are safe exactly if the query fits
the arrays of those that are made. -/
theorem queryCalls_safe_iff (history : List (Option CStr)) (s : DataState)
    (hrun : Run DataState.initial Served history s) (query : CStr) :
    (∀ call ∈ queryCalls query s, CallSafe query call) ↔ QueryFits query s := by
  have hs := terminated_of_run hrun
  have hcmd := callSafe_iff query cmdKey hs.cmd.1
  have hfromId := callSafe_iff query fromIdKey hs.fromId.1
  have hcount := callSafe_iff query countKey hs.count.1
  rw [queryCalls, List.forall_mem_cons, hcmd, QueryFits]
  refine and_congr_right fun hfits => ?_
  rw [queryCmdGet_fits hs hfits]
  by_cases hnew : cmdText query s = newFile
  · simp [hnew, hfromId, hcount]
  · simp [hnew]

def firstQuery : CStr := ⟨ascii "cmd=newFile&fromId=2&count=8", by decide⟩

/-- The worker behind `firstQuery`. -/
def afterFirst : DataState where
  queryCmdCmd := newFile ++ zeros 57
  queryCmdFromId := ascii "2" ++ zeros 31
  queryCmdCount := ascii "8" ++ zeros 31

theorem run_firstQuery : Run DataState.initial Served [some firstQuery] afterFirst :=
  .cons .nil ⟨some { fromId := 2, count := 8 }, by decide +kernel⟩

/-- A query for something else than a listing, which ends with a key that is not looked up. -/
theorem queryCalls_safe_iff_other :
    let query : CStr := ⟨ascii "cmd=x&count", by decide⟩
    (∀ call ∈ queryCalls query afterFirst, CallSafe query call) ↔ QueryFits query afterFirst :=
  queryCalls_safe_iff _ _ run_firstQuery _

/-- The query `cmd`, which ends with the key: the byte behind the terminating NUL is read. -/
theorem queryCalls_unsafe :
    ¬ ∀ call ∈ queryCalls cmdKey DataState.initial, CallSafe cmdKey call := by
  have hread : queryStringValueGet (some cmdKey.array) cmdKey (zeros 64) = .error .read := by
    decide +kernel
  intro h
  obtain ⟨r, hr⟩ := h (cmdKey, zeros 64) List.mem_cons_self
  rw [hread] at hr
  cases hr

/-- The answer is one of the two halves of the result of a round. -/
theorem map_dataStep {queryString : Option CStr} {s : DataState} (hs : s.Terminated) :
    (dataStep queryString s).map Prod.snd = answer queryString s := by
  obtain ⟨e, herr, hanswer⟩ | ⟨s', out, hok, hanswer, -⟩ :=
    dataStep_answer queryString hs
  · rw [herr, hanswer]
    rfl
  · rw [hok, hanswer]
    rfl

/-- Nothing left in the arrays enters the answer: a request without `cmd` does not meet the
command `newFile`, and one for a listing does not meet a number other than 0 in the array of
a parameter that it lacks. -/
def NotStale (queryString : Option CStr) (s : DataState) : Prop :=
  match lookup queryString cmdKey 64 with
  | .untouched => cstring s.queryCmdCmd ≠ newFile
  | .fault _ => True
  | .value cmd => cmd = newFile →
    match lookup queryString fromIdKey 32, lookup queryString countKey 32 with
    | .fault _, _ => True
    | _, .fault _ => True
    | fromId, count =>
      (fromId = .untouched → atoi (cstring s.queryCmdFromId) = 0) ∧
        (count = .untouched → atoi (cstring s.queryCmdCount) = 0)

theorem answer_eq_initial_iff {queryString : Option CStr} {s : DataState} :
    answer queryString s = answer queryString DataState.initial ↔ NotStale queryString s := by
  have hcmd : cstring DataState.initial.queryCmdCmd = [] := by decide
  have hfromId : cstring DataState.initial.queryCmdFromId = [] := by decide
  have hcount : cstring DataState.initial.queryCmdCount = [] := by decide
  have hatoi : atoi [] = 0 := by decide
  have hnew : ([] : List Byte) ≠ newFile := by decide
  unfold answer NotStale
  cases lookup queryString cmdKey 64 with
  | fault e => simp [Lookup.read]
  | untouched =>
    simp only [Lookup.read, hcmd, ok_bind, if_neg hnew]
    by_cases h : cstring s.queryCmdCmd = newFile
    · rw [if_pos h]
      cases lookup queryString fromIdKey 32 <;> cases lookup queryString countKey 32 <;> simp [h]
    · simp [h]
  | value cmd =>
    simp only [Lookup.read, ok_bind]
    by_cases h : cmd = newFile
    · cases lookup queryString fromIdKey 32 <;> cases lookup queryString countKey 32 <;>
        simp [h, hfromId, hcount, hatoi]
    · simp [h]

/-- After any history of requests, the next one is answered as by a worker that has served
nothing exactly if nothing stale enters the answer. -/
theorem dataStep_fresh_iff (history : List (Option CStr)) (s : DataState)
    (hrun : Run DataState.initial Served history s) (queryString : Option CStr) :
    (dataStep queryString s).map Prod.snd =
        (dataStep queryString DataState.initial).map Prod.snd ↔
      NotStale queryString s := by
  rw [map_dataStep (terminated_of_run hrun), map_dataStep DataState.initial_terminated]
  exact answer_eq_initial_iff

theorem dataStep_fresh_iff_count :
    let queryString : Option CStr := some ⟨ascii "cmd=newFile&fromId=0&count=3", by decide⟩
    (dataStep queryString afterFirst).map Prod.snd =
        (dataStep queryString DataState.initial).map Prod.snd ↔
      NotStale queryString afterFirst :=
  dataStep_fresh_iff _ _ run_firstQuery _

/-- An empty query string repeats the listing that was asked for before. -/
theorem dataStep_repeats :
    let queryString : Option CStr := some ⟨[], by decide⟩
    Run DataState.initial Served [some firstQuery] afterFirst ∧
      (dataStep queryString afterFirst).map Prod.snd = .ok (some { fromId := 2, count := 8 }) ∧
      (dataStep queryString DataState.initial).map Prod.snd = .ok none :=
  ⟨run_firstQuery, by decide +kernel, by decide +kernel⟩

end CgiFileStore
