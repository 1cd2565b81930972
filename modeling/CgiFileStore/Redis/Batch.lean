import CgiFileStore.Redis.Format
import CgiFileStore.Redis.HashTables
import CgiFileStore.Redis.RedisOp

/-!
# The batches of redis_op.c

Four functions queue one command for each row and then read the replies, with the same two
loops. A reply object is named by the number of the reply; the variable `reply` keeps the last
one from round to round. What the server does with a queued command is counted for the round
that reads its reply, which gives the same order.
-/

namespace CgiFileStore

open CSem Redis

/-- How the connection takes a batch: which commands it can queue, and what becomes of each. -/
structure BatchEnv where
  append : Nat → Bool
  fate : Nat → Fate

/-- What a batch leaves: the return value, the reply objects it was given, the ones it has
passed to `freeReplyObject`, NULL left out, and the state of the server. -/
structure Batch (σ : Type) where
  retn : Int
  obtained : List Nat
  released : List Nat
  store : σ

section

variable {σ : Type}

/-- `redisCommand` on any state of the server. -/
def roundTrip (fate : Fate) (cmd : σ → Reply × σ) (st : σ) : Option Reply × σ :=
  match fate with
  | .serve => (some (cmd st).1, (cmd st).2)
  | .refuse message => (some (.error message), st)
  | .lost => (none, st)

/-- The loop of `redisAppendCommand`, with `n` rounds left from round `i` on. -/
def appendLoop (append : Nat → Bool) : Nat → Nat → Int
  | 0, _ => 0
  | n + 1, i => if append i then appendLoop append n (i + 1) else -1

/-- The loop of `redisGetReply`. A call that fails leaves `reply` as it is. -/
def commitLoop (fate : Nat → Fate) (cmd : Nat → σ → Reply × σ) :
    Nat → Nat → Option Nat → Batch σ → Batch σ
  | 0, _, _, b => b
  | n + 1, i, reply, b =>
    match roundTrip (fate i) (cmd i) b.store with
    | (none, store) =>
      { retn := -1, obtained := b.obtained, released := b.released ++ reply.toList, store }
    | (some _, store) =>
      commitLoop fate cmd n (i + 1) (some i)
        { retn := 0, obtained := b.obtained ++ [i], released := b.released ++ [i], store }

/-- The common body of the batches, for `num` commands. -/
def batch (env : BatchEnv) (cmd : Nat → σ → Reply × σ) (num : Int) (st : σ) : Batch σ :=
  let b : Batch σ :=
    { retn := appendLoop env.append num.toNat 0, obtained := [], released := [], store := st }
  if b.retn ≠ 0 then b else commitLoop env.fate cmd num.toNat 0 none b

/-- `rop_redis_append`; `server` is what the server does with a text once it is formatted. -/
def ropRedisAppend (env : BatchEnv) (server : CStr → σ → Reply × σ) (cmds : Nat → CStr)
    (cmdNum : Int) (st : σ) : Batch σ :=
  batch env (fun i => server (cmds i)) cmdNum st

end

/-- The arguments of the command that `rop_hash_set_append` queues for a row. -/
example (key field value : List Byte) :
    formatCommand (ascii "hset %s %s %s") [key, field, value] =
      .ok [ascii "hset", key, field, value] := rfl

def ropHashSetAppend (env : BatchEnv) (key : CStr) (fields values : Nat → CStr) (valNum : Int)
    (st : Tables) : Batch Tables :=
  batch env (fun i => execute [ascii "hset", key.bytes, (fields i).bytes, (values i).bytes])
    valNum st

section

variable {S : Type}

def ropListPushAppend (env : BatchEnv) (key : CStr) (values : Nat → CStr) (valNum : Int)
    (st : Store S) : Batch (Store S) :=
  batch env (fun i => lpushCmd key.bytes (values i).bytes) valNum st

def ropZsetIncrementAppend [Score S] (env : BatchEnv) (key : CStr) (values : Nat → CStr)
    (valNum : Int) (st : Store S) : Batch (Store S) :=
  batch env (fun i => zincrbyCmd key.bytes (values i).bytes) valNum st

end

/-! ## The rounds of a batch -/

section

variable {σ : Type} {fate : Nat → Fate} {cmd : Nat → σ → Reply × σ}

/-- The state of the server after the commands of `n` rounds from round `i` on. -/
def serveRows (fate : Nat → Fate) (cmd : Nat → σ → Reply × σ) : Nat → Nat → σ → σ
  | 0, _, st => st
  | n + 1, i, st => serveRows fate cmd n (i + 1) (roundTrip (fate i) (cmd i) st).2

theorem appendLoop_eq_zero_iff {append : Nat → Bool} {n i : Nat} :
    appendLoop append n i = 0 ↔ ∀ j < n, append (i + j) := by
  induction n generalizing i with
  | zero => simp [appendLoop]
  | succ n ih =>
    rw [appendLoop, Nat.forall_lt_succ_left']
    by_cases happend : append i
    · rw [if_pos happend, ih]
      grind
    · rw [if_neg happend]
      grind

theorem appendLoop_of_all {append : Nat → Bool} {n : Nat} (h : ∀ i < n, append i) :
    appendLoop append n 0 = 0 := by
  rw [appendLoop_eq_zero_iff]
  simpa using h

theorem roundTrip_lost (cmd : σ → Reply × σ) (st : σ) : roundTrip .lost cmd st = (none, st) := rfl

theorem exists_reply {f : Fate} (h : f ≠ .lost) (cmd : σ → Reply × σ) (st : σ) :
    ∃ reply, roundTrip f cmd st = (some reply, (roundTrip f cmd st).2) := by
  cases f with
  | serve => exact ⟨(cmd st).1, rfl⟩
  | refuse message => exact ⟨.error message, rfl⟩
  | lost => exact absurd rfl h

/-- The variable `reply` after `k` rounds that were answered. -/
def lastReply (reply : Option Nat) (i k : Nat) : Option Nat :=
  if k = 0 then reply else some (i + k - 1)

/-- Rounds that are answered obtain one reply object each and release it. -/
theorem commitLoop_answered {k i : Nat} (h : ∀ j < k, fate (i + j) ≠ .lost) (m : Nat)
    (reply : Option Nat) {b : Batch σ} (hb : b.retn = 0) :
    commitLoop fate cmd (k + m) i reply b =
      commitLoop fate cmd m (i + k) (lastReply reply i k)
        { retn := 0
          obtained := b.obtained ++ List.range' i k
          released := b.released ++ List.range' i k
          store := serveRows fate cmd k i b.store } := by
  induction k generalizing i reply b with
  | zero =>
    cases b
    cases hb
    simp [lastReply, serveRows]
  | succ k ih =>
    have hnext : ∀ j < k, fate (i + 1 + j) ≠ .lost := by
      intro j hj
      have := h (j + 1) (by omega)
      grind
    obtain ⟨r, hr⟩ := exists_reply (h 0 (by omega)) (cmd i) b.store
    rw [Nat.add_zero] at hr
    have hcount : k + 1 + m = (k + m) + 1 := by omega
    have hlast : lastReply (some i) (i + 1) k = lastReply reply i (k + 1) := by
      unfold lastReply
      grind
    rw [hcount, commitLoop, hr]
    dsimp only
    rw [ih hnext _ rfl, hlast, serveRows, List.range'_succ]
    grind

end

/-! ## The release of the replies -/

/-- No reply object is released twice, and each one obtained is released exactly once. -/
def Batch.ReleasedOnce {σ : Type} (b : Batch σ) : Prop :=
  b.released.Nodup ∧ ∀ r ∈ b.obtained, b.released.count r = 1

/-- All commands are queued, the first reply arrives, and a later one does not. -/
def FailsLate (env : BatchEnv) (num : Int) : Prop :=
  (∀ i < num.toNat, env.append i) ∧ env.fate 0 ≠ .lost ∧ ∃ i < num.toNat, env.fate i = .lost

section

variable {σ : Type} {env : BatchEnv} {cmd : Nat → σ → Reply × σ} {num : Int} {st : σ}

/-- A batch whose replies all arrive. -/
theorem batch_answered (happend : ∀ i < num.toNat, env.append i)
    (h : ∀ i < num.toNat, env.fate i ≠ .lost) :
    batch env cmd num st =
      { retn := 0
        obtained := List.range num.toNat
        released := List.range num.toNat
        store := serveRows env.fate cmd num.toNat 0 st } := by
  have hzero := appendLoop_of_all happend
  have hrun := @commitLoop_answered σ env.fate cmd num.toNat 0 (by simpa using h) 0 none
    { retn := 0, obtained := [], released := [], store := st } rfl
  simp only [batch, hzero]
  simpa [commitLoop, List.range_eq_range'] using hrun

/-- A batch that loses its connection in round `k` releases the reply of the round before once
more. -/
theorem batch_lost (happend : ∀ i < num.toNat, env.append i) {k : Nat} (hk : k < num.toNat)
    (hlost : env.fate k = .lost) (h : ∀ i < k, env.fate i ≠ .lost) :
    (batch env cmd num st).obtained = List.range k ∧
      (batch env cmd num st).released = List.range k ++ (lastReply none 0 k).toList := by
  have hzero := appendLoop_of_all happend
  obtain ⟨m, hm⟩ : ∃ m, num.toNat = k + (m + 1) := ⟨num.toNat - k - 1, by omega⟩
  have hrun := @commitLoop_answered σ env.fate cmd k 0 (by simpa using h) (m + 1) none
    { retn := 0, obtained := [], released := [], store := st } rfl
  have hround : commitLoop env.fate cmd (m + 1) (0 + k) (lastReply none 0 k)
      { retn := 0, obtained := [] ++ List.range' 0 k, released := [] ++ List.range' 0 k
        store := serveRows env.fate cmd k 0 st } =
      { retn := -1, obtained := [] ++ List.range' 0 k
        released := [] ++ List.range' 0 k ++ (lastReply none 0 k).toList
        store := serveRows env.fate cmd k 0 st } := by
    rw [commitLoop, Nat.zero_add, hlost, roundTrip_lost]
  simp only [batch, hzero]
  rw [hm, if_neg (by simp), hrun, hround]
  simp [List.range_eq_range']

/-- A batch that cannot queue a command reads no replies. -/
theorem batch_unqueued (h : ¬ ∀ i < num.toNat, env.append i) :
    batch env cmd num st =
      { retn := appendLoop env.append num.toNat 0
        obtained := []
        released := []
        store := st } := by
  have hne : appendLoop env.append num.toNat 0 ≠ 0 := by
    rw [Ne, appendLoop_eq_zero_iff]
    simpa using h
  rw [batch]
  dsimp only
  rw [if_pos hne]

theorem batch_releasedOnce_iff : (batch env cmd num st).ReleasedOnce ↔ ¬ FailsLate env num := by
  by_cases happend : ∀ i < num.toNat, env.append i
  · by_cases hlost : ∃ i < num.toNat, env.fate i = .lost
    · classical
      obtain ⟨hk, hfate⟩ := Nat.find_spec hlost
      have hfirst : ∀ i < Nat.find hlost, env.fate i ≠ .lost := fun i hi h =>
        Nat.find_min hlost hi ⟨hi.trans hk, h⟩
      generalize Nat.find hlost = k at hk hfate hfirst
      obtain ⟨hobtained, hreleased⟩ : (batch env cmd num st).obtained = _ ∧
          (batch env cmd num st).released = _ := batch_lost happend hk hfate hfirst
      rw [Batch.ReleasedOnce, hobtained, hreleased]
      cases k with
      | zero =>
        -- there is no reply yet, and NULL is released
        have hnot : ¬ FailsLate env num := fun h => h.2.1 hfate
        simp [hnot, lastReply]
      | succ k =>
        have hlate : FailsLate env num := ⟨happend, hfirst 0 (by omega), k + 1, hk, hfate⟩
        have htwice : ¬ (List.range (k + 1) ++ (lastReply none 0 (k + 1)).toList).Nodup := by
          simp [lastReply, List.nodup_append]
        exact iff_of_false (fun h => htwice h.1) (not_not_intro hlate)
    · have hanswered : ∀ i < num.toNat, env.fate i ≠ .lost := fun i hi h => hlost ⟨i, hi, h⟩
      rw [Batch.ReleasedOnce, batch_answered happend hanswered]
      refine iff_of_true ⟨List.nodup_range, fun r hr => ?_⟩ fun h => hlost h.2.2
      exact List.count_eq_one_of_mem List.nodup_range hr
  · rw [Batch.ReleasedOnce, batch_unqueued happend]
    exact iff_of_true (by simp) fun h => happend h.1

end

/-- Each batch releases its reply objects exactly once unless it loses its connection behind the
first reply. -/
theorem batches_releasedOnce_iff {S σ : Type} [Score S] (env : BatchEnv) (key : CStr)
    (server : CStr → σ → Reply × σ) (cmds fields values : Nat → CStr) (num : Int) (any : σ)
    (tables : Tables) (st : Store S) :
    ((ropRedisAppend env server cmds num any).ReleasedOnce ↔ ¬ FailsLate env num) ∧
      ((ropHashSetAppend env key fields values num tables).ReleasedOnce ↔ ¬ FailsLate env num) ∧
      ((ropListPushAppend env key values num st).ReleasedOnce ↔ ¬ FailsLate env num) ∧
      ((ropZsetIncrementAppend env key values num st).ReleasedOnce ↔ ¬ FailsLate env num) :=
  ⟨batch_releasedOnce_iff, batch_releasedOnce_iff, batch_releasedOnce_iff, batch_releasedOnce_iff⟩

/-- A connection on which the server serves everything. -/
def served : BatchEnv where
  append _ := true
  fate _ := .serve

/-- A connection that is lost at the second of two replies. -/
def secondLost : BatchEnv where
  append _ := true
  fate i := if i = 1 then .lost else .serve

/-- Two pushes: the first reply object is released twice. -/
theorem batches_releasedOnce_second :
    ¬ (ropListPushAppend secondLost ⟨ascii "k", by decide⟩ (fun _ => ⟨ascii "v", by decide⟩) 2
      (emptyStore Nat)).ReleasedOnce := by
  have hreleased : (ropListPushAppend secondLost ⟨ascii "k", by decide⟩
      (fun _ => ⟨ascii "v", by decide⟩) 2 (emptyStore Nat)).released = [0, 0] := rfl
  intro h
  have hnodup := h.1
  rw [hreleased] at hnodup
  exact absurd hnodup (by decide)

/-! ## Calls one after another -/

section

variable {σ : Type}

/-- The results of calls for `n` rows from row `i` on, each on what the one before has left. -/
def eachRow (call : Nat → σ → Checked (Int × σ)) : Nat → Nat → σ → Checked (List Int × σ)
  | 0, _, st => .ok ([], st)
  | n + 1, i, st => do
    let (retn, st) ← call i st
    let (retns, st) ← eachRow call n (i + 1) st
    return (retn :: retns, st)

/-- `applied` holds for each of the rows in the state in which its command is carried out. -/
def EveryApplied (applied : Nat → σ → Prop) (fate : Nat → Fate) (cmd : Nat → σ → Reply × σ) :
    Nat → Nat → σ → Prop
  | 0, _, _ => True
  | n + 1, i, st =>
    applied i st ∧ EveryApplied applied fate cmd n (i + 1) (roundTrip (fate i) (cmd i) st).2

variable {fate : Nat → Fate} {cmd : Nat → σ → Reply × σ} {ok : Nat → σ → Prop}
  {call : Nat → σ → Checked (Int × σ)}

/-- Calls that do one command each, and report 0 in the states in which `ok` holds. -/
theorem eachRow_eq {n i : Nat} (st : σ)
    (hcall : ∀ j < n, ∀ st, ∃ retn, call (i + j) st =
      .ok (retn, (roundTrip (fate (i + j)) (cmd (i + j)) st).2) ∧ (retn = 0 ↔ ok (i + j) st)) :
    ∃ retns, eachRow call n i st = .ok (retns, serveRows fate cmd n i st) ∧
      ((∀ retn ∈ retns, retn = 0) ↔ EveryApplied ok fate cmd n i st) := by
  induction n generalizing i st with
  | zero => exact ⟨[], rfl, by simp [EveryApplied]⟩
  | succ n ih =>
    obtain ⟨retn, hretn, hzero⟩ := hcall 0 (by omega) st
    rw [Nat.add_zero] at hretn hzero
    have hnext : ∀ j < n, ∀ st, ∃ retn, call (i + 1 + j) st =
        .ok (retn, (roundTrip (fate (i + 1 + j)) (cmd (i + 1 + j)) st).2) ∧
          (retn = 0 ↔ ok (i + 1 + j) st) := by
      intro j hj
      have h := hcall (j + 1) (by omega)
      rwa [← Nat.add_assoc, Nat.add_right_comm] at h
    obtain ⟨retns, hretns, hall⟩ := ih (roundTrip (fate i) (cmd i) st).2 hnext
    refine ⟨retn :: retns, by simp [eachRow, hretn, hretns, serveRows], ?_⟩
    rw [List.forall_mem_cons, hzero, hall, EveryApplied]

end

/-! ## Pushes -/

section

variable {S : Type} {fate : Fate} {key : Key} {st : Store S}

theorem roundTrip_lpush (hl : fate ≠ .lost) (value : List Byte) :
    ∃ retn, ropListPush fate key value st =
      .ok (retn, (roundTrip fate (lpushCmd key value) st).2) ∧
        (retn = 0 ↔ PushApplied fate st key) := by
  by_cases h : PushApplied fate st key
  · refine ⟨0, ?_, by simp [h]⟩
    rw [ropListPush_applied h, h.1, roundTrip, lpushCmd_of_holdsList h.2]
  · refine ⟨-1, ?_, by simp [h]⟩
    rw [ropListPush_refused hl h]
    cases fate with
    | serve =>
      rw [roundTrip, lpushCmd_of_not_holdsList fun hk => h ⟨rfl, hk⟩]
    | refuse message => rfl
    | lost => exact absurd rfl hl

/-- All pushes are carried out if the server serves them and the key starts as a list. -/
theorem everyApplied_push_iff {fate : Nat → Fate} (values : Nat → CStr) {n i : Nat} :
    EveryApplied (fun i st => PushApplied (fate i) st key) fate
        (fun i => lpushCmd key (values i).bytes) n i st ↔
      n = 0 ∨ ((∀ j < n, fate (i + j) = .serve) ∧ HoldsList st key) := by
  induction n generalizing i st with
  | zero => simp [EveryApplied]
  | succ n ih =>
    rw [EveryApplied, ih, Nat.forall_lt_succ_left', Nat.add_zero]
    have hshift : (∀ j < n, fate (i + 1 + j) = .serve) ↔ ∀ j < n, fate (i + (j + 1)) = .serve := by
      grind
    rw [hshift]
    constructor
    · rintro ⟨happlied, hrest⟩
      refine .inr ⟨⟨happlied.1, ?_⟩, happlied.2⟩
      rcases hrest with rfl | hrest
      · simp
      · exact hrest.1
    · rintro (h | ⟨⟨hserve, hrest⟩, hlist⟩)
      · cases h
      · rw [Nat.add_zero] at hserve
        refine ⟨⟨hserve, hlist⟩, .inr ⟨hrest, ?_⟩⟩
        rw [hserve, roundTrip, lpushCmd_of_holdsList hlist]
        exact holdsList_pushed _ _ _

end

/-- On a working connection a batch of pushes agrees with the single pushes exactly if it is
empty or all of them are carried out. -/
theorem ropListPushAppend_agrees_iff {S : Type} (env : BatchEnv) (key : CStr)
    (values : Nat → CStr) (valNum : Int) (st : Store S)
    (happend : ∀ i < valNum.toNat, env.append i) (hconn : ∀ i < valNum.toNat, env.fate i ≠ .lost) :
    (∃ retns st', eachRow (fun i => ropListPush (env.fate i) key.bytes (values i).bytes)
        valNum.toNat 0 st = .ok (retns, st') ∧
      (ropListPushAppend env key values valNum st).store = st' ∧
      ((ropListPushAppend env key values valNum st).retn = 0 ↔ ∀ retn ∈ retns, retn = 0)) ↔
      valNum ≤ 0 ∨ ((∀ i < valNum.toNat, env.fate i = .serve) ∧ HoldsList st key.bytes) := by
  have hcalls : ∃ retns, eachRow (fun i => ropListPush (env.fate i) key.bytes (values i).bytes)
      valNum.toNat 0 st = .ok (retns, serveRows env.fate
        (fun i => lpushCmd key.bytes (values i).bytes) valNum.toNat 0 st) ∧
      (_ ↔ EveryApplied (fun i st => PushApplied (env.fate i) st key.bytes) _ _ _ _ _) :=
    eachRow_eq st fun j hj st =>
      roundTrip_lpush (by rw [Nat.zero_add]; exact hconn j hj) (values (0 + j)).bytes
  obtain ⟨retns, hretns, hzero⟩ := hcalls
  have hempty : valNum.toNat = 0 ↔ valNum ≤ 0 := by omega
  simp only [everyApplied_push_iff, hempty, Nat.zero_add] at hzero
  rw [ropListPushAppend, batch_answered happend hconn, hretns, ← hzero]
  constructor
  · rintro ⟨retns', st', h, -, hagree⟩
    cases h
    exact hagree.mp rfl
  · exact fun h => ⟨retns, _, rfl, rfl, iff_of_true rfl h⟩

/-- Two pushes on an absent key. -/
theorem ropListPushAppend_agrees_two :
    ∃ retns st', eachRow (fun _ => ropListPush .serve (ascii "k") (ascii "v")) 2 0
        (emptyStore Nat) = .ok (retns, st') ∧
      (ropListPushAppend served ⟨ascii "k", by decide⟩
        (fun _ => ⟨ascii "v", by decide⟩) 2 (emptyStore Nat)).store = st' ∧
      ((ropListPushAppend served ⟨ascii "k", by decide⟩
        (fun _ => ⟨ascii "v", by decide⟩) 2 (emptyStore Nat)).retn = 0 ↔
          ∀ retn ∈ retns, retn = 0) :=
  (ropListPushAppend_agrees_iff served ⟨ascii "k", by decide⟩
    (fun _ => ⟨ascii "v", by decide⟩) 2 (emptyStore Nat) (fun _ _ => rfl)
    (fun _ _ h => Fate.noConfusion h)).mpr (.inr ⟨fun _ _ => rfl, .inl rfl⟩)

/-- A key that holds no list: the single push reports the error reply, the batch does not. -/
theorem ropListPushAppend_agrees_wrongType :
    ¬ ∃ retns st', eachRow (fun _ => ropListPush .serve (ascii "k") (ascii "v")) 1 0
        (fun _ => some (Value.other : Value Nat)) = .ok (retns, st') ∧
      (ropListPushAppend served ⟨ascii "k", by decide⟩
        (fun _ => ⟨ascii "v", by decide⟩) 1 fun _ => some (Value.other : Value Nat)).store = st' ∧
      ((ropListPushAppend served ⟨ascii "k", by decide⟩
        (fun _ => ⟨ascii "v", by decide⟩) 1 fun _ => some (Value.other : Value Nat)).retn = 0 ↔
          ∀ retn ∈ retns, retn = 0) := by
  rintro ⟨retns, st', hcalls, -, hretn⟩
  have hone : eachRow (fun _ => ropListPush .serve (ascii "k") (ascii "v")) 1 0
      (fun _ => some (Value.other : Value Nat)) = .ok ([-1], fun _ => some Value.other) := rfl
  rw [hone] at hcalls
  cases hcalls
  exact absurd (hretn.mp rfl) (by decide)

/-! ## Score increments -/

section

variable {S : Type} [Score S] {fate : Fate} {key : Key} {st : Store S}

/-- The single call does not report 0 for an increment that is carried out. -/
theorem roundTrip_zincrby (htext : ∀ s : S, Score.text s ≠ ascii "OK") (hl : fate ≠ .lost)
    (member : List Byte) :
    ∃ retn, ropZsetIncrement fate key member st =
      .ok (retn, (roundTrip fate (zincrbyCmd key member) st).2) ∧
        (retn = 0 ↔ ¬ CountApplied fate st key ∧
          ropZsetIncrement fate key member st = .ok (0, st)) := by
  by_cases h : CountApplied fate st key
  · refine ⟨-1, ?_, by simp [h]⟩
    rw [ropZsetIncrement_applied h, if_pos (htext _), h.1, roundTrip, zincrbyCmd_of_holdsZset h.2]
  · have hsame : (roundTrip fate (zincrbyCmd key member) st).2 = st := by
      cases fate with
      | serve => rw [roundTrip, zincrbyCmd_of_not_holdsZset fun hk => h ⟨rfl, hk⟩]
      | refuse message => rfl
      | lost => exact absurd rfl hl
    obtain ⟨retn, hretn⟩ := ropZsetIncrement_refused hl h member
    rw [hsame, hretn]
    exact ⟨retn, rfl, by simp [h]⟩

end

/-- Every increment of a batch is carried out, on what the ones before have left. -/
def AllCounted {S : Type} [Score S] (env : BatchEnv) (key : CStr) (values : Nat → CStr)
    (valNum : Int) (st : Store S) : Prop :=
  EveryApplied (fun i st => CountApplied (env.fate i) st key.bytes) env.fate
    (fun i => zincrbyCmd key.bytes (values i).bytes) valNum.toNat 0 st

/-- On a working connection the batch and the single calls do the same, and only for an empty
batch do both report success exactly if all increments are carried out. -/
theorem ropZsetIncrementAppend_agrees_iff {S : Type} [Score S]
    (htext : ∀ s : S, Score.text s ≠ ascii "OK") (env : BatchEnv) (key : CStr)
    (values : Nat → CStr) (valNum : Int) (st : Store S)
    (happend : ∀ i < valNum.toNat, env.append i) (hconn : ∀ i < valNum.toNat, env.fate i ≠ .lost) :
    (∃ retns st', eachRow (fun i => ropZsetIncrement (env.fate i) key.bytes (values i).bytes)
        valNum.toNat 0 st = .ok (retns, st') ∧
      (ropZsetIncrementAppend env key values valNum st).store = st' ∧
      ((ropZsetIncrementAppend env key values valNum st).retn = 0 ↔
        AllCounted env key values valNum st) ∧
      ((∀ retn ∈ retns, retn = 0) ↔ AllCounted env key values valNum st)) ↔ valNum ≤ 0 := by
  have hcalls : ∃ retns, eachRow
      (fun i => ropZsetIncrement (env.fate i) key.bytes (values i).bytes) valNum.toNat 0 st =
        .ok (retns, serveRows env.fate (fun i => zincrbyCmd key.bytes (values i).bytes)
          valNum.toNat 0 st) ∧
      ((∀ retn ∈ retns, retn = 0) ↔
        EveryApplied (fun i st => ¬ CountApplied (env.fate i) st key.bytes ∧
            ropZsetIncrement (env.fate i) key.bytes (values i).bytes st = .ok (0, st))
          env.fate (fun i => zincrbyCmd key.bytes (values i).bytes) valNum.toNat 0 st) :=
    eachRow_eq st fun j hj st =>
      roundTrip_zincrby htext (by rw [Nat.zero_add]; exact hconn j hj) (values (0 + j)).bytes
  obtain ⟨retns, hretns, hzero⟩ := hcalls
  rw [ropZsetIncrementAppend, batch_answered happend hconn, hretns, AllCounted]
  constructor
  · rintro ⟨retns', st', h, -, hbatch, hsingle⟩
    cases h
    by_contra hpos
    have hall := hbatch.mp rfl
    have hreported := hzero.mp (hsingle.mpr hall)
    obtain ⟨n, hn⟩ : ∃ n, valNum.toNat = n + 1 := ⟨valNum.toNat - 1, by omega⟩
    rw [hn] at hall hreported
    -- the first increment is carried out, so its call does not report 0
    exact hreported.1.1 hall.1
  · intro hempty
    have hn : valNum.toNat = 0 := by omega
    rw [hn] at hzero ⊢
    exact ⟨retns, _, rfl, rfl, iff_of_true rfl trivial, iff_of_true (hzero.mpr trivial) trivial⟩

/-- The text of a numeral is not `OK`. -/
theorem text_ne_ok (n : Nat) : Score.text n ≠ ascii "OK" := by
  intro h
  have hmem : UInt8.ofNat 'O'.toNat ∈ ascii (toString n) := by
    rw [show ascii (toString n) = ascii "OK" from h]
    decide
  exact absurd (isDigit_of_mem_decimal hmem) (by decide)

/-- Two increments: no outcome of the batch and of the calls agrees. -/
theorem ropZsetIncrementAppend_agrees_iff_two :
    let key : CStr := ⟨ascii "k", by decide⟩
    let values : Nat → CStr := fun i => if i = 0 then ⟨ascii "m", by decide⟩ else key
    (∃ retns st', eachRow (fun i => ropZsetIncrement .serve key.bytes (values i).bytes) 2 0
        (emptyStore Nat) = .ok (retns, st') ∧
      (ropZsetIncrementAppend served key values 2 (emptyStore Nat)).store = st' ∧
      ((ropZsetIncrementAppend served key values 2 (emptyStore Nat)).retn = 0 ↔
        AllCounted served key values 2 (emptyStore Nat)) ∧
      ((∀ retn ∈ retns, retn = 0) ↔ AllCounted served key values 2 (emptyStore Nat))) ↔
        (2 : Int) ≤ 0 :=
  ropZsetIncrementAppend_agrees_iff text_ne_ok served _ _ 2 (emptyStore Nat) (fun _ _ => rfl)
    (fun _ _ h => Fate.noConfusion h)

/-- One increment of an absent member: the call carries it out and reports a failure. -/
theorem ropZsetIncrementAppend_agrees_one :
    ¬ ∃ retns st', eachRow (fun _ => ropZsetIncrement .serve (ascii "k") (ascii "m")) 1 0
        (emptyStore Nat) = .ok (retns, st') ∧
      (ropZsetIncrementAppend served ⟨ascii "k", by decide⟩
        (fun _ => ⟨ascii "m", by decide⟩) 1 (emptyStore Nat)).store = st' ∧
      ((ropZsetIncrementAppend served ⟨ascii "k", by decide⟩
        (fun _ => ⟨ascii "m", by decide⟩) 1 (emptyStore Nat)).retn = 0 ↔
          AllCounted served ⟨ascii "k", by decide⟩
            (fun _ => ⟨ascii "m", by decide⟩) 1 (emptyStore Nat)) ∧
      ((∀ retn ∈ retns, retn = 0) ↔
        AllCounted served ⟨ascii "k", by decide⟩
          (fun _ => ⟨ascii "m", by decide⟩) 1 (emptyStore Nat)) := by
  rintro ⟨retns, st', hcalls, -, -, hretns⟩
  have hone : ∃ st', eachRow (fun _ => ropZsetIncrement .serve (ascii "k") (ascii "m")) 1 0
      (emptyStore Nat) = .ok ([-1], st') := ⟨_, rfl⟩
  obtain ⟨st'', hone⟩ := hone
  rw [hone] at hcalls
  cases hcalls
  have hall := hretns.mpr ⟨⟨rfl, .inl rfl⟩, trivial⟩
  exact absurd hall (by decide)

end CgiFileStore
