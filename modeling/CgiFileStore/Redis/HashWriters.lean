import CgiFileStore.Redis.Hmset

/-!
# The two writers of hash tables

`rop_hash_set_append` passes key, field and value as arguments of a fixed format;
`rop_create_or_replace_hash_table` passes the text of `make_hmset_command` as the format. The
second reads spaces and percent signs of the data as part of the format, and uses at most 200
bytes of the key.
-/

namespace CgiFileStore

open CSem Redis

/-- `rop_create_or_replace_hash_table`. -/
def ropCreateOrReplaceHashTable (alloc : Allocator) (fate : Fate) (key : CStr) (elementNum : Nat)
    (fields values : Nat → CStr) (st : Tables) : Checked (Int × Tables) := do
  match ← makeHmsetCommand alloc key elementNum fields values with
  | none => return (-1, st)
  | some cmd =>
    let format ← readString cmd
    let argv ← formatCommand format []
    match roundTrip fate (execute argv) st with
    | (none, _) => .error .null
    | (some reply, st) =>
      match reply.str with
      | none => .error .null
      | some s => if s ≠ ascii "OK" then return (-1, st) else return (0, st)

/-- The fields with their values. -/
def entries (elementNum : Nat) (fields values : Nat → CStr) : List (List Byte × List Byte) :=
  (List.range elementNum).map fun i => ((fields i).bytes, (values i).bytes)

/-! ## The batch of hset commands -/

section

variable {key : CStr} {fields values : Nat → CStr} {st : Tables}

theorem serveRows_hset {table : Table} (n i : Nat) (h : st key.bytes = some (.hash table)) :
    serveRows (fun _ => .serve)
        (fun i => execute [ascii "hset", key.bytes, (fields i).bytes, (values i).bytes]) n i st =
      Function.update st key.bytes (some (.hash (setAll table
        ((List.range' i n).map fun i => ((fields i).bytes, (values i).bytes))))) := by
  induction n generalizing i table st with
  | zero => exact (Function.update_eq_self_iff.mpr h.symm).symm
  | succ n ih =>
    have hround := hsetCmd_hash h (fields i).bytes (values i).bytes
    rw [serveRows, roundTrip, execute_hset]
    dsimp only
    rw [hround, ih (i + 1) (Function.update_self ..), Function.update_idem, ← setAll_append,
      List.range'_succ]
    rfl

/-- The batch makes a table of an absent key. -/
theorem ropHashSetAppend_absent {n : Nat} (hn : 1 ≤ n) (h : st key.bytes = none) :
    (ropHashSetAppend served key fields values n st).store =
      Function.update st key.bytes (some (.hash (lastValues (entries n fields values)))) := by
  obtain ⟨m, rfl⟩ : ∃ m, n = m + 1 := ⟨n - 1, by omega⟩
  have hbatch := @batch_answered _ served
    (fun i => execute [ascii "hset", key.bytes, (fields i).bytes, (values i).bytes])
    ((m + 1 : Nat) : Int) st (fun _ _ => rfl) (fun _ _ => Fate.noConfusion)
  have hfirst : (roundTrip .serve
      (execute [ascii "hset", key.bytes, (fields 0).bytes, (values 0).bytes]) st).2 =
      Function.update st key.bytes
        (some (.hash (lastValues [((fields 0).bytes, (values 0).bytes)]))) := by
    rw [roundTrip, execute_hset, hsetCmd, h]
  have hrest := @serveRows_hset key fields values _ _ m 1 (Function.update_self key.bytes
    (some (.hash (lastValues [((fields 0).bytes, (values 0).bytes)]))) st)
  rw [Function.update_idem, ← hfirst] at hrest
  rw [ropHashSetAppend, hbatch, Int.toNat_natCast, entries, List.range_eq_range',
    List.range'_succ, List.map_cons]
  exact hrest

end

/-! ## The hmset command -/

section

variable {alloc : Allocator} {key : CStr} {elementNum : Nat} {fields values : Nat → CStr}
  {st : Tables}

theorem hmsetText_eq (key : CStr) (elementNum : Nat) (fields values : Nat → CStr) :
    hmsetText key elementNum fields values = ascii "hmset" ++ space :: key.bytes.take 200 ++
      (entries elementNum fields values).flatMap fun p => space :: p.1 ++ space :: p.2 := by
  simp [hmsetText, entries, List.flatMap_map]

theorem zero_notMem_hmsetText : 0 ∉ hmsetText key elementNum fields values := by
  have hkey : 0 ∉ key.bytes.take 200 := fun h => key.nul_free (List.mem_of_mem_take h)
  have hrows : ∀ i, 0 ∉ space :: (fields i).bytes ++ space :: (values i).bytes := by
    intro i
    simp [space, (fields i).nul_free, (values i).nul_free]
  have hname : (0 : Byte) ∉ ascii "hmset" ++ [space] := by decide
  rw [hmsetText, List.mem_append, List.mem_append, List.mem_flatMap]
  rintro ((h | h) | ⟨i, -, h⟩)
  · exact hname h
  · exact hkey h
  · exact hrows i h

/-- The blocks for the text are granted and enlarged in time, and their sizes do not wrap. -/
def CommandFits (alloc : Allocator) (key : CStr) (elementNum : Nat) (fields values : Nat → CStr) :
    Prop :=
  (alloc.malloc mebi).isSome ∧
    (∀ r c d, reached (hmsetCounts elementNum fields values) r = some c →
      reached (hmsetCounts elementNum fields values) (r + 1) = some d →
        Enlarges alloc (200 - key.bytes.length) c d) ∧
    BelowWrap (hmsetCounts elementNum fields values)

/-- The text, read as a format, names the key and pairs that make up the table of the
entries. -/
def NamesTable (key : CStr) (elementNum : Nat) (fields values : Nat → CStr) : Prop :=
  ∃ args p ps, formatCommand (hmsetText key elementNum fields values) [] =
      .ok (ascii "hmset" :: key.bytes :: args) ∧
    pairUp args = some (p :: ps) ∧
    lastValues (p :: ps) = lastValues (entries elementNum fields values)

/-- The text starts with the name of the command. -/
theorem formatCommand_hmset {rest : List Byte} (h : rest ≠ []) :
    formatCommand (ascii "hmset" ++ space :: rest) [] =
      (formatCommand rest []).map (ascii "hmset" :: ·) := by
  cases rest with
  | nil => exact absurd rfl h
  | cons c cs => rfl

theorem formatCommand_hmsetText (hn : 1 ≤ elementNum) :
    ∃ rest, formatCommand (hmsetText key elementNum fields values) [] =
      (formatCommand rest []).map (ascii "hmset" :: ·) := by
  obtain ⟨m, rfl⟩ : ∃ m, elementNum = m + 1 := ⟨elementNum - 1, by omega⟩
  refine ⟨key.bytes.take 200 ++ (entries (m + 1) fields values).flatMap fun p =>
    space :: p.1 ++ space :: p.2, ?_⟩
  rw [hmsetText_eq, List.append_assoc, List.cons_append, formatCommand_hmset]
  simp [entries, List.range_succ_eq_map]

/-- What is left to do once the text is there. -/
theorem ropCreateOrReplaceHashTable_of_cmd {cmd : List Byte}
    (h : makeHmsetCommand alloc key elementNum fields values = .ok (some cmd)) :
    ropCreateOrReplaceHashTable alloc .serve key elementNum fields values st =
      readString cmd >>= fun format => formatCommand format [] >>= fun argv =>
        match (execute argv st).1.str with
        | none => .error .null
        | some s => .ok (if s ≠ ascii "OK" then -1 else 0, (execute argv st).2) := by
  rw [ropCreateOrReplaceHashTable, h, ok_bind]
  dsimp only [roundTrip]
  refine bind_congr fun format => bind_congr fun argv => ?_
  split
  · rfl
  · split_ifs <;> rfl

/-- The table of the entries is made of an absent key exactly if the text is put together and
names it. -/
theorem ropCreateOrReplaceHashTable_absent_iff (hn : 1 ≤ elementNum)
    (hrows : EntriesFit elementNum fields values) (h : st key.bytes = none) :
    (∃ retn, ropCreateOrReplaceHashTable alloc .serve key elementNum fields values st =
        .ok (retn, Function.update st key.bytes
          (some (.hash (lastValues (entries elementNum fields values)))))) ↔
      CommandFits alloc key elementNum fields values ∧
        NamesTable key elementNum fields values := by
  constructor
  · rintro ⟨retn, hcreate⟩
    obtain ⟨x, hmake, hrest⟩ := bind_eq_ok.mp hcreate
    cases x with
    | none =>
      have hslot := congrFun (congrArg Prod.snd (Except.ok.inj hrest)) key.bytes
      simp [h] at hslot
    | some cmd =>
      obtain ⟨hgranted, henlarged, -⟩ := (makeHmsetCommand_isSome_iff hrows).mp ⟨cmd, hmake⟩
      obtain ⟨hend, hwrapped⟩ := makeHmsetCommand_cmd hrows hmake
      rw [ropCreateOrReplaceHashTable_of_cmd hmake] at hcreate
      obtain ⟨format, hformat, hcreate⟩ := bind_eq_ok.mp hcreate
      obtain ⟨argv, hargv, hcreate⟩ := bind_eq_ok.mp hcreate
      have hbelow : BelowWrap (hmsetCounts elementNum fields values) := by
        by_contra hnot
        exact hwrapped hnot (readString_eq_ok hformat).1
      obtain ⟨r, rfl⟩ := hend hbelow
      rw [readString_append_zero zero_notMem_hmsetText] at hformat
      obtain rfl := Except.ok.inj hformat
      refine ⟨⟨hgranted, henlarged, hbelow⟩, ?_⟩
      obtain ⟨text, htext⟩ := @formatCommand_hmsetText key elementNum fields values hn
      obtain ⟨args, -, rfl⟩ := map_eq_ok.mp (htext.symm.trans hargv)
      have hset : (execute (ascii "hmset" :: args) st).2 = Function.update st key.bytes
          (some (.hash (lastValues (entries elementNum fields values)))) := by
        split at hcreate
        · cases hcreate
        · exact congrArg Prod.snd (Except.ok.inj hcreate)
      obtain ⟨rest, p, ps, rfl, hpairs, htable⟩ := (execute_hmset_eq_iff h args _).mp hset
      exact ⟨rest, p, ps, hargv, hpairs, htable⟩
  · rintro ⟨⟨hgranted, henlarged, hbelow⟩, args, p, ps, hargv, hpairs, htable⟩
    obtain ⟨cmd, hmake⟩ := (makeHmsetCommand_isSome_iff hrows).mpr
      ⟨hgranted, henlarged, fun c hc => hbelow c (List.mem_of_mem_dropLast hc)⟩
    obtain ⟨r, rfl⟩ := (makeHmsetCommand_cmd hrows hmake).1 hbelow
    have hset : execute (ascii "hmset" :: key.bytes :: args) st = (.status (ascii "OK"),
        Function.update st key.bytes
          (some (.hash (lastValues (entries elementNum fields values))))) := by
      rw [execute_hmset_pairs hpairs, hmsetCmd, h, ← htable]
    refine ⟨0, ?_⟩
    rw [ropCreateOrReplaceHashTable_of_cmd hmake, readString_append_zero zero_notMem_hmsetText,
      ok_bind, hargv, ok_bind, hset]
    rfl

end

/-! ## Texts that are read as they were meant -/

/-- The bytes of fields and values. -/
def dataLength (pairs : List (List Byte × List Byte)) : Nat :=
  (pairs.map fun p => p.1.length + p.2.length).sum

/-- The spaces in fields and values. -/
def dataSpaces (pairs : List (List Byte × List Byte)) : Nat :=
  (pairs.map fun p => p.1.count space + p.2.count space).sum

section

variable {pairs : List (List Byte × List Byte)}

theorem words_append_entries (s : List Byte) (pairs : List (List Byte × List Byte)) :
    words (s ++ pairs.flatMap fun p => space :: p.1 ++ space :: p.2) =
      words s ++ pairs.flatMap fun p => words p.1 ++ words p.2 := by
  induction pairs generalizing s with
  | nil => simp
  | cons p ps ih =>
    have hentry : words (s ++ (space :: p.1 ++ space :: p.2)) =
        words s ++ (words p.1 ++ words p.2) := by
      rw [List.cons_append, words_append_space, words_append_space]
    rw [List.flatMap_cons, List.flatMap_cons, ← List.append_assoc, ih, hentry,
      List.append_assoc]

theorem length_entryText (pairs : List (List Byte × List Byte)) :
    (pairs.flatMap fun p => space :: p.1 ++ space :: p.2).length =
      dataLength pairs + 2 * pairs.length := by
  induction pairs with
  | nil => rfl
  | cons p ps ih =>
    rw [List.flatMap_cons, List.length_append, ih]
    simp [dataLength]
    omega

theorem count_entryText (pairs : List (List Byte × List Byte)) :
    (pairs.flatMap fun p => space :: p.1 ++ space :: p.2).count space =
      dataSpaces pairs + 2 * pairs.length := by
  induction pairs with
  | nil => rfl
  | cons p ps ih =>
    rw [List.flatMap_cons, List.count_append, ih]
    simp [dataSpaces]
    omega

theorem length_flatten_pairs (pairs : List (List Byte × List Byte)) :
    (pairs.flatMap fun p => [p.1, p.2]).flatten.length = dataLength pairs := by
  induction pairs with
  | nil => rfl
  | cons p ps ih =>
    rw [List.flatMap_cons, List.flatten_append, List.length_append, ih]
    simp [dataLength]

theorem dataLength_le_of_subperm {qs : List (List Byte × List Byte)} (h : pairs.Subperm qs) :
    dataLength pairs ≤ dataLength qs := by
  obtain ⟨l, hperm, hsub⟩ := h
  calc dataLength pairs = dataLength l := (hperm.map _).sum_eq.symm
    _ ≤ dataLength qs := (hsub.map _).sum_le_sum fun _ _ => Nat.zero_le _

theorem notMem_of_dataSpaces (h : dataSpaces pairs = 0) {p : List Byte × List Byte}
    (hp : p ∈ pairs) : space ∉ p.1 ∧ space ∉ p.2 := by
  have hzero := List.sum_eq_zero_iff.mp h _ (List.mem_map_of_mem hp)
  rw [Nat.add_eq_zero_iff, List.count_eq_zero, List.count_eq_zero] at hzero
  exact hzero

end

/-- No byte of key, fields and values is part of the format, and the key is not cut off. -/
structure PlainText (key : CStr) (elementNum : Nat) (fields values : Nat → CStr) : Prop where
  key_length : key.bytes.length ≤ 200
  key_word : IsWord key.bytes
  rows : ∀ i < elementNum, IsWord (fields i).bytes ∧ IsWord (values i).bytes
  percent_free : percent ∉ (hmsetText key elementNum fields values).dropLast

section

variable {key : CStr} {elementNum : Nat} {fields values : Nat → CStr}

theorem mem_entries {p : List Byte × List Byte} :
    p ∈ entries elementNum fields values ↔
      ∃ i < elementNum, ((fields i).bytes, (values i).bytes) = p := by
  simp [entries]

theorem PlainText.namesTable (hn : 1 ≤ elementNum)
    (h : PlainText key elementNum fields values) : NamesTable key elementNum fields values := by
  obtain ⟨p, ps, hentries⟩ := List.exists_cons_of_ne_nil
    (List.ne_nil_of_mem (mem_entries.mpr ⟨0, hn, rfl⟩ : _ ∈ entries elementNum fields values))
  have hrows : ((entries elementNum fields values).flatMap fun p => words p.1 ++ words p.2) =
      (entries elementNum fields values).flatMap fun p => [p.1, p.2] := by
    apply List.flatMap_congr
    intro p hp
    obtain ⟨i, hi, rfl⟩ := mem_entries.mp hp
    rw [words_of_isWord (h.rows i hi).1, words_of_isWord (h.rows i hi).2]
    rfl
  refine ⟨(entries elementNum fields values).flatMap fun p => [p.1, p.2], p, ps, ?_, ?_, ?_⟩
  · have hname : words (ascii "hmset") = [ascii "hmset"] := by decide
    rw [formatCommand_eq_words h.percent_free, hmsetText_eq, words_append_entries,
      words_append_space, List.take_of_length_le h.key_length, words_of_isWord h.key_word, hname,
      hrows]
    rfl
  · exact pairUp_eq_some_iff.mpr (by rw [hentries])
  · rw [hentries]

theorem NamesTable.plainText (hnodup : ((entries elementNum fields values).map Prod.fst).Nodup)
    (h : NamesTable key elementNum fields values) : PlainText key elementNum fields values := by
  obtain ⟨args, p, ps, hargv, hpairs, htable⟩ := h
  obtain rfl := pairUp_eq_some_iff.mp hpairs
  have hsub := subperm_of_lastValues_eq hnodup htable
  have hdata := dataLength_le_of_subperm hsub
  have hbytes := length_formatLoop hargv (fun _ => rfl)
  have hname : (ascii "hmset").length = 5 ∧ (ascii "hmset").count space = 0 := by decide
  have hargs : (ascii "hmset" :: key.bytes ::
      (p :: ps).flatMap fun p => [p.1, p.2]).flatten.length =
        5 + key.bytes.length + dataLength (p :: ps) := by
    rw [List.flatten_cons, List.flatten_cons, List.length_append, List.length_append,
      length_flatten_pairs, hname.1, ← Nat.add_assoc]
  have hlength : (hmsetText key elementNum fields values).length =
      6 + min 200 key.bytes.length + (dataLength (entries elementNum fields values) +
        2 * (entries elementNum fields values).length) := by
    rw [hmsetText_eq, List.length_append, length_entryText, List.length_append, List.length_cons,
      List.length_take, hname.1]
    omega
  have hcount : (hmsetText key elementNum fields values).count space =
      1 + (key.bytes.take 200).count space + (dataSpaces (entries elementNum fields values) +
        2 * (entries elementNum fields values).length) := by
    rw [hmsetText_eq, List.count_append, count_entryText, List.count_append, List.count_cons_self,
      hname.2]
    omega
  rw [hargs, hlength, hcount, List.length_nil] at hbytes
  -- the arguments have all bytes of key, fields and values, so nothing else is in the text
  have hkey : key.bytes.length ≤ 200 := by
    omega
  have hpercent : percent ∉ (hmsetText key elementNum fields values).dropLast := by
    intro hmem
    rw [if_pos hmem] at hbytes
    omega
  have hkeySpaces : (key.bytes.take 200).count space = 0 := by
    omega
  have hspaces : dataSpaces (entries elementNum fields values) = 0 := by
    omega
  rw [List.take_of_length_le hkey, List.count_eq_zero] at hkeySpaces
  rw [formatCommand_eq_words hpercent] at hargv
  have hnil := nil_notMem_words (hmsetText key elementNum fields values)
  rw [Except.ok.inj hargv] at hnil
  have hne : ∀ arg ∈ ascii "hmset" :: key.bytes :: (p :: ps).flatMap fun p => [p.1, p.2],
      arg ≠ [] := fun arg harg h => hnil (h ▸ harg)
  refine ⟨hkey, ⟨hne _ (by simp), hkeySpaces⟩, fun i hi => ?_, hpercent⟩
  have hmem : ((fields i).bytes, (values i).bytes) ∈ entries elementNum fields values :=
    mem_entries.mpr ⟨i, hi, rfl⟩
  have hargs' : ∀ arg ∈ [(fields i).bytes, (values i).bytes], arg ≠ [] := fun arg harg =>
    hne arg (List.mem_cons_of_mem _ (List.mem_cons_of_mem _
      (List.mem_flatMap.mpr ⟨_, hsub.subset hmem, harg⟩)))
  obtain ⟨hfield, hvalue⟩ := notMem_of_dataSpaces hspaces hmem
  exact ⟨⟨hargs' _ (by simp), hfield⟩, hargs' _ (by simp), hvalue⟩

/-- Where each field is given once, the text names the table of the entries only if it is plain. -/
theorem namesTable_iff (hn : 1 ≤ elementNum) :
    NamesTable key elementNum fields values ↔ PlainText key elementNum fields values ∨
      ¬ ((entries elementNum fields values).map Prod.fst).Nodup ∧
        NamesTable key elementNum fields values := by
  constructor
  · intro h
    by_cases hnodup : ((entries elementNum fields values).map Prod.fst).Nodup
    · exact .inl (h.plainText hnodup)
    · exact .inr ⟨hnodup, h⟩
  · rintro (hplain | ⟨-, h⟩)
    · exact hplain.namesTable hn
    · exact h

end

/-- On an absent key the two writers leave the same table exactly if the text of the command is
put together in full and is read as it was meant, or fields are repeated and what it is read as
happens to name the same last values. -/
theorem hashWriters_agree_iff (alloc : Allocator) (key : CStr) (n : Nat) (hn : 1 ≤ n)
    (fields values : Nat → CStr) (hrows : EntriesFit n fields values) (st : Tables)
    (hst : st key.bytes = none) :
    (∃ retn st', ropCreateOrReplaceHashTable alloc .serve key n fields values st =
        .ok (retn, st') ∧
      st' = (ropHashSetAppend served key fields values n st).store ∧
      st' key.bytes = some (.hash (lastValues (entries n fields values)))) ↔
      CommandFits alloc key n fields values ∧ (PlainText key n fields values ∨
        ¬ ((entries n fields values).map Prod.fst).Nodup ∧ NamesTable key n fields values) := by
  rw [← namesTable_iff hn, ← ropCreateOrReplaceHashTable_absent_iff hn hrows hst,
    ropHashSetAppend_absent hn hst]
  constructor
  · rintro ⟨retn, st', hcreate, rfl, -⟩
    exact ⟨retn, hcreate⟩
  · rintro ⟨retn, hcreate⟩
    exact ⟨retn, _, hcreate, rfl, Function.update_self ..⟩

/-- One field with a value of one letter. -/
theorem hashWriters_agree_one :
    ∃ retn st', ropCreateOrReplaceHashTable .zeroed .serve (letters 1) 1 (fun _ => letters 1)
        (fun _ => letters 1) (fun _ => none) = .ok (retn, st') ∧
      st' = (ropHashSetAppend served (letters 1) (fun _ => letters 1) (fun _ => letters 1) 1
        fun _ => none).store ∧
      st' (letters 1).bytes =
        some (.hash (lastValues (entries 1 (fun _ => letters 1) fun _ => letters 1))) :=
  have hword : IsWord (letters 1).bytes := ⟨by decide, by decide⟩
  (hashWriters_agree_iff .zeroed (letters 1) 1 le_rfl (fun _ => letters 1) (fun _ => letters 1)
    (fun _ _ => (by decide : 1 < fieldIdSize ∧ 1 < valuesIdSize)) (fun _ => none) rfl).mpr
    ⟨⟨zeroed_grants mebi (by decide),
      fun r c d _ hd => absurd ((reached_eq_none (by decide) r).symm.trans hd) nofun, by
        rw [BelowWrap]
        decide⟩,
      .inl ⟨by decide, hword, fun _ _ => ⟨hword, hword⟩, by decide⟩⟩

def spacedValue : CStr := ⟨ascii "a b", by decide⟩

/-- A value with a space: the server finds a field without a value and refuses the command. -/
theorem hashWriters_agree_space :
    ¬ ∃ retn st', ropCreateOrReplaceHashTable .zeroed .serve (letters 1) 1 (fun _ => letters 1)
        (fun _ => spacedValue) (fun _ => none) = .ok (retn, st') ∧
      st' = (ropHashSetAppend served (letters 1) (fun _ => letters 1) (fun _ => spacedValue) 1
        fun _ => none).store ∧
      st' (letters 1).bytes =
        some (.hash (lastValues (entries 1 (fun _ => letters 1) fun _ => spacedValue))) := by
  have hbatch : (ropHashSetAppend served (letters 1) (fun _ => letters 1) (fun _ => spacedValue) 1
      fun _ => none).store = _ := ropHashSetAppend_absent le_rfl rfl
  have hwords : formatCommand (hmsetText (letters 1) 1 (fun _ => letters 1) fun _ => spacedValue)
      [] = .ok [ascii "hmset", ascii "a", ascii "a", ascii "a", ascii "b"] := by
    decide
  have hrows : EntriesFit 1 (fun _ => letters 1) fun _ => spacedValue :=
    fun _ _ => (by decide : 1 < fieldIdSize ∧ 3 < valuesIdSize)
  have htable := @ropCreateOrReplaceHashTable_absent_iff .zeroed (letters 1) 1 _ _ (fun _ => none)
    le_rfl hrows rfl
  rintro ⟨retn, st', hcreate, hsame, -⟩
  rw [hsame, hbatch] at hcreate
  obtain ⟨-, args, p, ps, hargv, hpairs, -⟩ := htable.mp ⟨retn, hcreate⟩
  rw [hwords] at hargv
  have hargs : [ascii "a", ascii "a", ascii "b"] = args :=
    (List.cons.inj (List.cons.inj (Except.ok.inj hargv)).2).2
  rw [← hargs] at hpairs
  exact absurd hpairs nofun

end CgiFileStore
