import CgiFileStore.Redis.Server

/-!
# Hash tables of the Redis server

A second view of the keys of the server, for the commands on hash tables. `execute` is the
server's reading of a command that was sent as a list of arguments.
-/

namespace Redis

open CSem

abbrev Table := List Byte → Option (List Byte)

inductive Slot
  | hash (table : Table)
  | other

abbrev Tables := Key → Option Slot

/-- The table after the fields have been set one after another. -/
def setAll (table : Table) (pairs : List (List Byte × List Byte)) : Table :=
  pairs.foldl (fun t p => Function.update t p.1 (some p.2)) table

/-- The table in which each field has the last value given for it. -/
def lastValues (pairs : List (List Byte × List Byte)) : Table := setAll (fun _ => none) pairs

/-! ## Commands -/

def hsetCmd (key field value : List Byte) (st : Tables) : Reply × Tables :=
  match st key with
  | none => (.integer 1, Function.update st key (some (.hash (lastValues [(field, value)]))))
  | some (.hash t) =>
    (.integer (if (t field).isNone then 1 else 0),
      Function.update st key (some (.hash (setAll t [(field, value)]))))
  | some .other => (wrongType, st)

def hmsetCmd (key : List Byte) (pairs : List (List Byte × List Byte)) (st : Tables) :
    Reply × Tables :=
  match st key with
  | none => (.status (ascii "OK"), Function.update st key (some (.hash (lastValues pairs))))
  | some (.hash t) => (.status (ascii "OK"), Function.update st key (some (.hash (setAll t pairs))))
  | some .other => (wrongType, st)

/-- The arguments behind the key as fields with their values. -/
def pairUp : List (List Byte) → Option (List (List Byte × List Byte))
  | [] => some []
  | [_] => none
  | field :: value :: args => (pairUp args).map ((field, value) :: ·)

def wrongArity : Reply := .error (ascii "ERR wrong number of arguments")

def unknownCommand : Reply := .error (ascii "ERR unknown command")

/-- The commands on hash tables, by their names as the clients here spell them. -/
def execute (argv : List (List Byte)) (st : Tables) : Reply × Tables :=
  match argv with
  | [] => (unknownCommand, st)
  | name :: args =>
    if name = ascii "hset" then
      match args with
      | [key, field, value] => hsetCmd key field value st
      | _ => (wrongArity, st)
    else if name = ascii "hmset" then
      match args with
      | [] => (wrongArity, st)
      | key :: args =>
        match pairUp args with
        | some (p :: ps) => hmsetCmd key (p :: ps) st
        | _ => (wrongArity, st)
    else (unknownCommand, st)

/-! ## Tables -/

section

variable {table : Table} {pairs : List (List Byte × List Byte)} {field value : List Byte}

theorem setAll_cons (table : Table) (p : List Byte × List Byte)
    (ps : List (List Byte × List Byte)) :
    setAll table (p :: ps) = setAll (Function.update table p.1 (some p.2)) ps := rfl

theorem setAll_append (table : Table) (ps qs : List (List Byte × List Byte)) :
    setAll table (ps ++ qs) = setAll (setAll table ps) qs := List.foldl_append

theorem setAll_of_notMem (h : field ∉ pairs.map Prod.fst) :
    setAll table pairs field = table field := by
  induction pairs generalizing table with
  | nil => rfl
  | cons p ps ih =>
    rw [List.map_cons, List.mem_cons, not_or] at h
    exact (ih h.2).trans (Function.update_of_ne h.1 _ _)

/-- What a field has been set to is one of the values given for it. -/
theorem mem_of_setAll (h : setAll table pairs field = some value) :
    (field, value) ∈ pairs ∨ table field = some value := by
  induction pairs generalizing table with
  | nil => exact .inr h
  | cons p ps ih =>
    rw [setAll_cons] at h
    rcases ih h with hmem | htable
    · exact .inl (List.mem_cons_of_mem _ hmem)
    · by_cases hfield : field = p.1
      · subst hfield
        rw [Function.update_self, Option.some.injEq] at htable
        rw [← htable]
        exact .inl List.mem_cons_self
      · rw [Function.update_of_ne hfield] at htable
        exact .inr htable

theorem mem_of_lastValues (h : lastValues pairs field = some value) : (field, value) ∈ pairs :=
  (mem_of_setAll h).resolve_right (by simp)

/-- A field that is given once has the value given. -/
theorem setAll_of_mem (hnodup : (pairs.map Prod.fst).Nodup) (h : (field, value) ∈ pairs) :
    setAll table pairs field = some value := by
  induction pairs generalizing table with
  | nil => cases h
  | cons p ps ih =>
    rw [List.map_cons, List.nodup_cons] at hnodup
    rcases List.mem_cons.mp h with rfl | hps
    · exact (setAll_of_notMem hnodup.1).trans (Function.update_self ..)
    · exact ih hnodup.2 hps

theorem lastValues_of_mem (hnodup : (pairs.map Prod.fst).Nodup) (h : (field, value) ∈ pairs) :
    lastValues pairs field = some value := setAll_of_mem hnodup h

/-- Pairs with distinct fields are found among any pairs that make up the same table. -/
theorem subperm_of_lastValues_eq {qs : List (List Byte × List Byte)}
    (hnodup : (pairs.map Prod.fst).Nodup) (h : lastValues qs = lastValues pairs) :
    pairs.Subperm qs := by
  apply List.Nodup.subperm (List.Nodup.of_map Prod.fst hnodup)
  rintro ⟨f, v⟩ hmem
  apply mem_of_lastValues
  rw [h]
  exact lastValues_of_mem hnodup hmem

end

/-! ## What the server does with a command -/

theorem execute_hset (key field value : List Byte) :
    execute [ascii "hset", key, field, value] = hsetCmd key field value := rfl

/-- Setting a field on a hash table or an absent key. -/
theorem hsetCmd_hash {st : Tables} {key : Key} {table : Table} (h : st key = some (.hash table))
    (field value : List Byte) :
    (hsetCmd key field value st).2 =
      Function.update st key (some (.hash (setAll table [(field, value)]))) := by
  simp [hsetCmd, h]

/-- The other keys are unchanged. -/
theorem hmsetCmd_of_ne {key key' : Key} (h : key ≠ key') (pairs : List (List Byte × List Byte))
    (st : Tables) : (hmsetCmd key' pairs st).2 key = st key := by
  rw [hmsetCmd]
  split
  · exact Function.update_of_ne h _ _
  · exact Function.update_of_ne h _ _
  · rfl

theorem execute_hmset_pairs {args : List (List Byte)} {p : List Byte × List Byte}
    {ps : List (List Byte × List Byte)} (h : pairUp args = some (p :: ps)) (key : List Byte) :
    execute (ascii "hmset" :: key :: args) = hmsetCmd key (p :: ps) := by
  funext st
  change (match pairUp args with
    | some (p :: ps) => hmsetCmd key (p :: ps) st
    | _ => (wrongArity, st)) = _
  rw [h]

/-- Without a key and at least one pair nothing is set. -/
theorem execute_hmset_refused {args : List (List Byte)}
    (h : ∀ key rest p ps, args = key :: rest → pairUp rest ≠ some (p :: ps)) (st : Tables) :
    execute (ascii "hmset" :: args) st = (wrongArity, st) := by
  cases args with
  | nil => rfl
  | cons key rest =>
    change (match pairUp rest with
      | some (p :: ps) => hmsetCmd key (p :: ps) st
      | _ => (wrongArity, st)) = _
    split
    · next p ps hpairs => exact absurd hpairs (h key rest p ps rfl)
    · rfl

/-- `hmset` makes a table of an absent key exactly if it names this key and pairs for the
table. -/
theorem execute_hmset_eq_iff {st : Tables} {key : Key} (h : st key = none)
    (args : List (List Byte)) (table : Table) :
    (execute (ascii "hmset" :: args) st).2 = Function.update st key (some (.hash table)) ↔
      ∃ rest p ps, args = key :: rest ∧ pairUp rest = some (p :: ps) ∧
        lastValues (p :: ps) = table := by
  constructor
  · intro hset
    have hslot := congrFun hset key
    rw [Function.update_self] at hslot
    by_cases hargs : ∃ key' rest p ps, args = key' :: rest ∧ pairUp rest = some (p :: ps)
    · obtain ⟨key', rest, p, ps, rfl, hpairs⟩ := hargs
      rw [execute_hmset_pairs hpairs] at hslot
      obtain rfl | hkey := eq_or_ne key key'
      · refine ⟨rest, p, ps, rfl, hpairs, ?_⟩
        simpa [hmsetCmd, h] using hslot
      · rw [hmsetCmd_of_ne hkey, h] at hslot
        cases hslot
    · have hrefused := execute_hmset_refused
        (fun key' rest p ps harg hpairs => hargs ⟨key', rest, p, ps, harg, hpairs⟩) st
      rw [hrefused] at hslot
      exact absurd (h.symm.trans hslot) nofun
  · rintro ⟨rest, p, ps, rfl, hpairs, rfl⟩
    rw [execute_hmset_pairs hpairs, hmsetCmd, h]

theorem pairUp_eq_some_iff {args : List (List Byte)} {pairs : List (List Byte × List Byte)} :
    pairUp args = some pairs ↔ args = pairs.flatMap fun p => [p.1, p.2] := by
  induction args using pairUp.induct generalizing pairs with
  | case1 => cases pairs <;> simp [pairUp]
  | case2 arg => cases pairs <;> simp [pairUp]
  | case3 field value args ih =>
    rw [pairUp, Option.map_eq_some_iff]
    constructor
    · rintro ⟨ps, hps, rfl⟩
      rw [ih.mp hps]
      rfl
    · intro h
      cases pairs with
      | nil => cases h
      | cons p ps =>
        injection h with hfield h
        injection h with hvalue hargs
        exact ⟨ps, ih.mpr hargs, by rw [hfield, hvalue]⟩

end Redis
