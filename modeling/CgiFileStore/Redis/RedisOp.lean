import CgiFileStore.Redis.Server

/-!
# The wrappers of redis_op.c

Each wrapper sends one command and judges the reply by a test of its own. A lost
connection makes `redisCommand` return NULL, which all of them dereference. Log calls and
the release of the reply object are left out; neither changes a result.
-/

namespace CgiFileStore

open CSem Redis

/-! ## redis_keys.h -/

def fileInfoList : Key := ascii "FILE_INFO_LIST"

def fileHotZset : Key := ascii "FILE_HOT_ZSET"

theorem fileHotZset_ne_fileInfoList : fileHotZset ≠ fileInfoList := by decide

/-- `REDIS_DILIMT`. -/
def delimiter : Byte := 124

/-! ## The commands -/

/-- `VALUES_ID_SIZE`, the width of a row of `RVALUES`. -/
def valuesIdSize : Nat := 1024

variable {S : Type}

/-- `rop_list_push`: success is an integer reply. -/
def ropListPush (fate : Fate) (key value : List Byte) (st : Store S) :
    Checked (Int × Store S) :=
  match redisCommand fate (lpushCmd key value) st with
  | (none, _) => .error .null
  | (some (.integer _), st) => .ok (0, st)
  | (some _, st) => .ok (-1, st)

/-- `rop_zset_increment`: success is a reply whose text is `OK`. -/
def ropZsetIncrement [Score S] (fate : Fate) (key member : List Byte) (st : Store S) :
    Checked (Int × Store S) :=
  match redisCommand fate (zincrbyCmd key member) st with
  | (none, _) => .error .null
  | (some reply, st) =>
    match reply.str with
    | none => .error .null
    | some s => if s ≠ ascii "OK" then .ok (-1, st) else .ok (0, st)

/-- `rop_zset_get_score`: a reply that is no string counts as score -1. -/
def ropZsetGetScore [Score S] (fate : Fate) (key member : List Byte) (st : Store S) :
    Checked Int :=
  match redisCommand fate (zscoreCmd key member) st with
  | (none, _) => .error .null
  | (some (.string s), _) => .ok (atoi s)
  | (some _, _) => .ok (-1)

/-- The rows `rop_range_list` copies: `elements` is a `size_t`, so `count` is converted
to `size_t` before the comparison. -/
def maxCount (elements : Nat) (count : Int) : Int :=
  if elements > toSize count then count else wrapInt elements

/-- The copy loop, from row `i` on. -/
def copyRows : Option Block → Nat → List (List Byte) → Checked (Option Block)
  | values, _, [] => .ok values
  | none, _, _ :: _ => .error .null
  | some b, i, e :: es => do
    let bytes ← strncpy b.bytes (i * valuesIdSize) (e ++ [0]) (valuesIdSize - 1)
    copyRows (some { b with bytes }) (i + 1) es

/-- What `rop_range_list` returns and stores through its pointers. -/
structure RangeList where
  retn : Int
  getNum : Int
  values : Option Block
  deriving DecidableEq

/-- `rop_range_list`. The parameter the header calls `count` is sent as the end index of
the range and is the bound on the rows as well. -/
def ropRangeList (fate : Fate) (key : List Byte) (fromPos count : Int)
    (values : Option Block) (st : Store S) : Checked RangeList :=
  match redisCommand fate (lrangeCmd key fromPos count) st with
  | (none, _) => .error .null
  | (some reply, _) => do
    -- a reply that is no array only sets the return value
    let retn : Int := match reply with
      | .array _ => 0
      | _ => -1
    let getNum := maxCount reply.elements.length count
    let values ← copyRows values 0 (reply.elements.take getNum.toNat)
    return { retn, getNum, values }

/-! ## What the wrappers do on a working connection -/

/-- The server carries out an `LPUSH` on `key`. -/
def PushApplied (fate : Fate) (st : Store S) (key : Key) : Prop :=
  fate = .serve ∧ HoldsList st key

/-- The server carries out a `ZINCRBY` on `key`. -/
def CountApplied (fate : Fate) (st : Store S) (key : Key) : Prop :=
  fate = .serve ∧ HoldsZset st key

theorem ropListPush_applied {fate : Fate} {st : Store S} {key : Key}
    (h : PushApplied fate st key) (value : List Byte) :
    ropListPush fate key value st = .ok (0, pushed st key value) := by
  obtain ⟨rfl, h⟩ := h
  simp [ropListPush, redisCommand, lpushCmd_of_holdsList h]

theorem ropListPush_refused {fate : Fate} {st : Store S} {key : Key} (hl : fate ≠ .lost)
    (h : ¬ PushApplied fate st key) (value : List Byte) :
    ropListPush fate key value st = .ok (-1, st) := by
  cases fate with
  | serve =>
    have hk : ¬ HoldsList st key := fun hk => h ⟨rfl, hk⟩
    simp [ropListPush, redisCommand, lpushCmd_of_not_holdsList hk, wrongType]
  | refuse message => rfl
  | lost => exact absurd rfl hl

theorem ropZsetIncrement_applied [Score S] {fate : Fate} {st : Store S} {key : Key}
    (h : CountApplied fate st key) (member : List Byte) :
    ropZsetIncrement fate key member st =
      .ok (if Score.text (incremented (scoreAt st key) member) ≠ ascii "OK" then -1 else 0,
        counted st key member) := by
  obtain ⟨rfl, h⟩ := h
  simp only [ropZsetIncrement, redisCommand, zincrbyCmd_of_holdsZset h, Reply.str]
  split <;> rfl

theorem ropZsetIncrement_refused [Score S] {fate : Fate} {st : Store S} {key : Key}
    (hl : fate ≠ .lost) (h : ¬ CountApplied fate st key) (member : List Byte) :
    ∃ retn, ropZsetIncrement fate key member st = .ok (retn, st) := by
  cases fate with
  | serve =>
    have hk : ¬ HoldsZset st key := fun hk => h ⟨rfl, hk⟩
    simp only [ropZsetIncrement, redisCommand, zincrbyCmd_of_not_holdsZset hk, wrongType,
      Reply.str]
    split <;> exact ⟨_, rfl⟩
  | refuse message =>
    simp only [ropZsetIncrement, redisCommand, Reply.str]
    split <;> exact ⟨_, rfl⟩
  | lost => exact absurd rfl hl

/-- The rows that are copied from a list of the store, whatever the key holds. -/
theorem ropRangeList_serve (st : Store S) (key : Key) (fromPos count : Int)
    (values : Option Block) :
    ∃ retn, ropRangeList .serve key fromPos count values st =
      (copyRows values 0 ((lrange (listAt st key) fromPos count).take
        (maxCount (lrange (listAt st key) fromPos count).length count).toNat)).map fun values =>
          { retn, getNum := maxCount (lrange (listAt st key) fromPos count).length count
            values } := by
  rw [← elements_lrangeCmd]
  exact ⟨_, rfl⟩

theorem ropZsetGetScore_serve [Score S] {st : Store S} {key member : List Byte} {s : S}
    (h : scoreAt st key member = some s) :
    ropZsetGetScore .serve key member st = .ok (atoi (Score.text s)) := by
  unfold scoreAt at h
  split at h
  · next z hz => simp [ropZsetGetScore, redisCommand, zscoreCmd, hz, h]
  · cases h

/-- A score depends on the sorted set only. -/
theorem ropZsetGetScore_congr [Score S] {fate : Fate} {st st' : Store S} {key member : List Byte}
    (h : st' key = st key) :
    ropZsetGetScore fate key member st' = ropZsetGetScore fate key member st := by
  have hreply : (zscoreCmd key member st').1 = (zscoreCmd key member st).1 := by
    simp only [zscoreCmd, h]
    split
    · rfl
    · split <;> rfl
    · rfl
  cases fate with
  | refuse | lost => rfl
  | serve =>
    simp only [ropZsetGetScore, redisCommand, hreply]
    cases (zscoreCmd key member st).1 <;> rfl

/-- A member that has no score is reported as -1. -/
theorem ropZsetGetScore_absent [Score S] {st : Store S} {key member : List Byte}
    (h : scoreAt st key member = none) :
    ropZsetGetScore .serve key member st = .ok (-1) := by
  unfold scoreAt at h
  simp only [ropZsetGetScore, redisCommand, zscoreCmd]
  split at h
  · next z hz => simp [hz, h]
  · next hz =>
    cases hk : st key with
    | none => simp
    | some v =>
      cases v with
      | zset z => exact absurd hk (hz z)
      | list l => simp [wrongType]
      | other => simp [wrongType]

end CgiFileStore
