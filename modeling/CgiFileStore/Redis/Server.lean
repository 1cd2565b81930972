import CgiFileStore.Lib.Integer

/-!
# The Redis server

The store maps keys to values. Each command is a function from a store to a reply and
the next store, and the outcome of a round trip is chosen by a `Fate`: the server carries
the command out, refuses it with an error reply, or the connection is lost and the client
gets no reply.

The numbers a sorted set keeps are the server's own; `Score` names what the client
can observe of them.
-/

namespace Redis

open CSem

abbrev Key := List Byte

/-- The scores of sorted sets: what a new member counts from, what `ZINCRBY key 1 member`
does, and the text of a score in a reply. -/
class Score (S : Type) where
  zero : S
  incr : S → S
  text : S → List Byte
  text_one : text (incr zero) = ascii "1"

/-- Scores that are only ever counted up: their text is the decimal numeral. -/
instance : Score Nat where
  zero := 0
  incr := Nat.succ
  text n := ascii (toString n)
  text_one := by decide

inductive Value (S : Type)
  | list (elements : List (List Byte))
  | zset (score : List Byte → Option S)
  | other

abbrev Store (S : Type) := Key → Option (Value S)

def emptyStore (S : Type) : Store S := fun _ => none

inductive Reply
  | integer (n : Int)
  | status (text : List Byte)
  | string (text : List Byte)
  | error (text : List Byte)
  | nil
  | array (elements : List (List Byte))

/-- `reply->str`, NULL for the replies without text. -/
def Reply.str : Reply → Option (List Byte)
  | .status s | .string s | .error s => some s
  | .integer _ | .nil | .array _ => none

/-- `reply->elements` and `reply->element`: a reply that is no array has none. -/
def Reply.elements : Reply → List (List Byte)
  | .array es => es
  | _ => []

inductive Fate
  | serve
  | refuse (message : List Byte)
  | lost

variable {S : Type}

abbrev Command (S : Type) := Store S → Reply × Store S

/-- One round trip: the reply pointer the client gets, and the store. -/
def redisCommand (fate : Fate) (cmd : Command S) (st : Store S) : Option Reply × Store S :=
  match fate with
  | .serve => ((cmd st).1, (cmd st).2)
  | .refuse message => (some (.error message), st)
  | .lost => (none, st)

def wrongType : Reply :=
  .error (ascii "WRONGTYPE Operation against a key holding the wrong kind of value")

/-! ## Commands -/

/-- The inclusive range of `LRANGE`: negative positions count from the end, and what
lies outside the list is cut off. -/
def lrange {α : Type} (l : List α) (start stop : Int) : List α :=
  let first := if start < 0 then max (start + l.length) 0 else start
  let last := min (if stop < 0 then stop + l.length else stop) (l.length - 1)
  (l.drop first.toNat).take (last - first + 1).toNat

def lpushCmd (key value : List Byte) : Command S := fun st =>
  match st key with
  | none => (.integer 1, Function.update st key (some (.list [value])))
  | some (.list l) =>
    (.integer (l.length + 1), Function.update st key (some (.list (value :: l))))
  | some _ => (wrongType, st)

def lrangeCmd (key : List Byte) (start stop : Int) : Command S := fun st =>
  match st key with
  | none => (.array [], st)
  | some (.list l) => (.array (lrange l start stop), st)
  | some _ => (wrongType, st)

/-- The member's score after `ZINCRBY key 1 member`. -/
def incremented [Score S] (score : List Byte → Option S) (member : List Byte) : S :=
  Score.incr ((score member).getD Score.zero)

def zincrbyCmd [Score S] (key member : List Byte) : Command S := fun st =>
  match st key with
  | none =>
    let s := incremented (fun _ => none) member
    (.string (Score.text s),
      Function.update st key (some (.zset (Function.update (fun _ => none) member (some s)))))
  | some (.zset z) =>
    let s := incremented z member
    (.string (Score.text s),
      Function.update st key (some (.zset (Function.update z member (some s)))))
  | some _ => (wrongType, st)

def zscoreCmd [Score S] (key member : List Byte) : Command S := fun st =>
  match st key with
  | none => (.nil, st)
  | some (.zset z) =>
    match z member with
    | none => (.nil, st)
    | some s => (.string (Score.text s), st)
  | some _ => (wrongType, st)

/-! ## Views of the store -/

/-- The elements of the list at `key`; an absent key is an empty list. -/
def listAt (st : Store S) (key : Key) : List (List Byte) :=
  match st key with
  | some (.list l) => l
  | _ => []

/-- The score of a member of the sorted set at `key`. -/
def scoreAt (st : Store S) (key member : List Byte) : Option S :=
  match st key with
  | some (.zset z) => z member
  | _ => none

/-- `key` is absent or a list, so that `LPUSH` on it is not refused for its type. -/
def HoldsList (st : Store S) (key : Key) : Prop :=
  st key = none ∨ ∃ l, st key = some (.list l)

/-- `key` is absent or a sorted set. -/
def HoldsZset (st : Store S) (key : Key) : Prop :=
  st key = none ∨ ∃ z, st key = some (.zset z)

/-- The store after an `LPUSH` that was carried out. -/
def pushed (st : Store S) (key value : List Byte) : Store S :=
  Function.update st key (some (.list (value :: listAt st key)))

/-- The store after a `ZINCRBY key 1 member` that was carried out. -/
def counted [Score S] (st : Store S) (key member : List Byte) : Store S :=
  Function.update st key (some (.zset (Function.update (scoreAt st key) member
    (some (incremented (scoreAt st key) member)))))

theorem holdsList_pushed (st : Store S) (key value : List Byte) :
    HoldsList (pushed st key value) key := .inr ⟨_, Function.update_self ..⟩

theorem holdsZset_counted [Score S] (st : Store S) (key member : List Byte) :
    HoldsZset (counted st key member) key := .inr ⟨_, Function.update_self ..⟩

@[simp] theorem listAt_pushed (st : Store S) (key value : List Byte) :
    listAt (pushed st key value) key = value :: listAt st key := by
  simp [listAt, pushed]

theorem pushed_of_ne (st : Store S) {key other : Key} (h : other ≠ key) (value : List Byte) :
    pushed st key value other = st other := by
  simp [pushed, h]

theorem counted_of_ne [Score S] (st : Store S) {key other : Key} (h : other ≠ key)
    (member : List Byte) : counted st key member other = st other := by
  simp [counted, h]

@[simp] theorem scoreAt_counted [Score S] (st : Store S) (key member m : List Byte) :
    scoreAt (counted st key member) key m =
      if m = member then some (incremented (scoreAt st key) member) else scoreAt st key m := by
  simp [scoreAt, counted, Function.update_apply]

theorem lpushCmd_of_holdsList {st : Store S} {key : Key} (h : HoldsList st key)
    (value : List Byte) :
    lpushCmd key value st = (.integer ((listAt st key).length + 1), pushed st key value) := by
  obtain h | ⟨l, h⟩ := h <;> simp [lpushCmd, listAt, pushed, h]

theorem lpushCmd_of_not_holdsList {st : Store S} {key : Key} (h : ¬ HoldsList st key)
    (value : List Byte) : lpushCmd key value st = (wrongType, st) := by
  unfold lpushCmd
  split
  · next hk => exact absurd (Or.inl hk) h
  · next l hk => exact absurd (Or.inr ⟨l, hk⟩) h
  · rfl

theorem zincrbyCmd_of_holdsZset [Score S] {st : Store S} {key : Key} (h : HoldsZset st key)
    (member : List Byte) :
    zincrbyCmd key member st =
      (.string (Score.text (incremented (scoreAt st key) member)), counted st key member) := by
  have hscore : ∀ m, scoreAt st key m = match st key with
      | some (.zset z) => z m
      | _ => none := fun _ => rfl
  obtain h | ⟨z, h⟩ := h
  · have hz : scoreAt st key = fun _ => none := by funext m; simp [hscore, h]
    simp [zincrbyCmd, counted, h, hz]
  · have hz : scoreAt st key = z := by funext m; simp [hscore, h]
    simp [zincrbyCmd, counted, h, hz]

theorem zincrbyCmd_of_not_holdsZset [Score S] {st : Store S} {key : Key}
    (h : ¬ HoldsZset st key) (member : List Byte) :
    zincrbyCmd key member st = (wrongType, st) := by
  unfold zincrbyCmd
  split
  · next hk => exact absurd (Or.inl hk) h
  · next z hk => exact absurd (Or.inr ⟨z, hk⟩) h
  · rfl

theorem elements_lrangeCmd (st : Store S) (key : Key) (start stop : Int) :
    (lrangeCmd key start stop st).1.elements = lrange (listAt st key) start stop := by
  have hnil : lrange ([] : List (List Byte)) start stop = [] := by simp [lrange]
  unfold lrangeCmd listAt
  split <;> simp_all [Reply.elements, wrongType]

/-! ## The length of a range -/

theorem length_lrange {α : Type} (l : List α) (start stop : Int) :
    (lrange l start stop).length =
      min (min (if stop < 0 then stop + l.length else stop) (l.length - 1) -
          (if start < 0 then max (start + l.length) 0 else start) + 1).toNat
        (l.length - (if start < 0 then max (start + l.length) 0 else start).toNat) := by
  simp only [lrange, List.length_take, List.length_drop]

/-- A range of positions from the front. -/
theorem lrange_of_nonneg {α : Type} (l : List α) {start stop : Int} (hs : 0 ≤ start)
    (he : 0 ≤ stop) :
    lrange l start stop = (l.drop start.toNat).take (stop - start + 1).toNat := by
  simp only [lrange, Int.not_lt.mpr hs, Int.not_lt.mpr he, if_false]
  obtain hlt | hge := Nat.lt_or_ge start.toNat l.length
  · obtain hgt | hle := lt_or_ge ((l.length : Int) - 1) stop
    · rw [min_eq_right hgt.le, List.take_of_length_le (by simp; omega),
        List.take_of_length_le (by simp; omega)]
    · rw [min_eq_left hle]
  · simp [List.drop_eq_nil_of_le hge]

end Redis
