import CgiFileStore.Data.DataOp

/-!
# Looking up a parameter of the query string

Both lookups search the key as a substring and take what stands one byte behind it. `lookup`
describes the outcome, and the main result says for which queries it is the one of the
grammar `name=value&name=value#fragment`.
-/

namespace CgiFileStore

open CSem Search

/-! ## What a lookup does to its array -/

/-- The outcomes of a lookup: the array is left as it is, it gets a string, or an access is
outside the query or the array. -/
inductive Lookup
  | untouched
  | value (w : List Byte)
  | fault (e : Fault)

/-- The bytes of a value up to `#`, `&` or the end of the query. -/
def valueText (s : List Byte) : List Byte := s.takeWhile fun c => c ≠ 35 ∧ c ≠ 38

/-- The lookup of `key` for an array of `size` bytes. -/
def lookup (queryString : Option CStr) (key : CStr) (size : Nat) : Lookup :=
  match queryString with
  | none => .untouched
  | some query =>
    match firstOcc key.bytes query.bytes with
    | none => .untouched
    | some p =>
      if query.bytes.length < p + key.bytes.length + 1 then .fault .read
      else
        let text := valueText (query.bytes.drop (p + key.bytes.length + 1))
        let len := wrapInt text.length
        if len < 0 ∨ (size : Int) ≤ len then .fault .write
        else .value (text.take len.toNat)

theorem valueEnd_append_zero {s : List Byte} (h : 0 ∉ s) :
    valueEnd (s ++ [0]) = .ok (valueText s).length := by
  induction s with
  | nil => rfl
  | cons c cs ih =>
    simp only [List.mem_cons, not_or] at h
    rw [List.cons_append, valueEnd]
    by_cases hc : c ≠ 35 ∧ c ≠ 38
    · rw [if_pos ⟨Ne.symm h.1, hc⟩, ih h.2, ok_bind, pure_eq_ok]
      simp [valueText, hc]
    · rw [if_neg (fun hall => hc hall.2)]
      simp [valueText, hc]

theorem valueText_isPrefix (s : List Byte) : valueText s <+: s := List.takeWhile_prefix _

/-- The common body of the two lookups has the outcome described. -/
theorem copyQueryValue_eq (missing : Int) (query key : CStr) (value : List Byte) :
    copyQueryValue missing query.array key value =
      match lookup (some query) key value.length with
      | .untouched => .ok { ret := missing, value, valueLen := none }
      | .value w =>
        .ok { ret := 0, value := w ++ 0 :: value.drop (w.length + 1), valueLen := some w.length }
      | .fault e => .error e := by
  have h0 : 0 ∈ query.array := by simp [CStr.array]
  have htext : cstring query.array = query.bytes := cstring_append_zero query.nul_free []
  simp only [copyQueryValue, lookup, strstr_of_mem h0, htext, ok_bind]
  cases hp : firstOcc key.bytes query.bytes with
  | none => rfl
  | some p =>
    dsimp only
    by_cases hbeyond : query.bytes.length < p + key.bytes.length + 1
    · have hend : query.array.drop (p + key.bytes.length + 1) = [] := by
        rw [List.drop_eq_nil_iff]
        simp only [CStr.array, List.length_append, List.length_singleton]
        omega
      rw [hend, if_pos hbeyond]
      rfl
    · have hrest : query.array.drop (p + key.bytes.length + 1) =
          query.bytes.drop (p + key.bytes.length + 1) ++ [0] :=
        List.drop_append_of_le_length (by omega)
      have hnul : 0 ∉ query.bytes.drop (p + key.bytes.length + 1) := fun h =>
        query.nul_free (List.mem_of_mem_drop h)
      rw [if_neg hbeyond, hrest, valueEnd_append_zero hnul, ok_bind]
      obtain ⟨t, ht⟩ := valueText_isPrefix (query.bytes.drop (p + key.bytes.length + 1))
      have htext0 : 0 ∉ valueText (query.bytes.drop (p + key.bytes.length + 1)) := fun h =>
        hnul ((valueText_isPrefix _).subset h)
      generalize valueText (query.bytes.drop (p + key.bytes.length + 1)) = text at ht htext0 ⊢
      have hle := wrapInt_natCast_le text.length
      generalize wrapInt text.length = len at hle ⊢
      by_cases hneg : len < 0
      · rw [if_pos hneg, if_pos (.inl hneg)]
        rfl
      · rw [if_neg hneg]
        -- what is copied is the text up to the length as an `int`
        have hw : 0 ∉ text.take len.toNat := fun h => htext0 (List.mem_of_mem_take h)
        have hlen : (text.take len.toNat).length = len.toNat := by
          rw [List.length_take]
          omega
        have hsplit : query.bytes.drop (p + key.bytes.length + 1) ++ [0] =
            text.take len.toNat ++ (text.drop len.toNat ++ (t ++ [0])) := by
          rw [← ht, ← List.append_assoc, List.take_append_drop, List.append_assoc]
        have hcast : ((text.take len.toNat).length : Int) = len := by omega
        rw [hsplit]
        obtain hfit | hlong := lt_or_ge len.toNat value.length
        · have hcopy := @strncpy_store _ (text.drop len.toNat ++ (t ++ [0])) _ hw (hlen ▸ hfit)
          rw [hlen] at hcopy
          rw [if_neg (by omega), ← bind_assoc, hcopy, ok_bind]
          dsimp only
          rw [hcast, hlen]
          rfl
        · have hcopy := @strncpy_store_overrun _ (text.drop len.toNat ++ (t ++ [0])) _ hw
            (hlen ▸ hlong)
          rw [hlen] at hcopy
          rw [if_pos (by omega), ← bind_assoc, hcopy]
          rfl

/-- The lookup of the listing program is the one described. -/
theorem queryStringValueGet_eq (queryString : Option CStr) (key : CStr) (value : List Byte) :
    queryStringValueGet (queryString.map CStr.array) key value =
      match lookup queryString key value.length with
      | .untouched =>
        .ok { ret := if queryString.isNone then -1 else 1, value, valueLen := none }
      | .value w =>
        .ok { ret := 0, value := w ++ 0 :: value.drop (w.length + 1), valueLen := some w.length }
      | .fault e => .error e := by
  cases queryString with
  | none => rfl
  | some query => exact copyQueryValue_eq 1 query key value

/-- The string in the array after a lookup, for the string `stale` in it before. -/
def Lookup.read (l : Lookup) (stale : List Byte) : Checked (List Byte) :=
  match l with
  | .untouched => .ok (cstring stale)
  | .value w => .ok w
  | .fault e => .error e

/-- An array that a lookup can be made with. -/
def Ready (size : Nat) (buf : List Byte) : Prop := buf.length = size ∧ 0 ∈ buf

theorem ready_zeros {size : Nat} (h : 0 < size) : Ready size (zeros size) :=
  ⟨length_zeros size, by simp [zeros, h.ne']⟩

section

variable (queryString : Option CStr) (key : CStr) {size : Nat} {buf : List Byte}

variable {queryString key} in
theorem length_lt_of_lookup {w : List Byte} (h : lookup queryString key size = .value w) :
    w.length < size ∧ 0 ∉ w := by
  unfold lookup at h
  split at h
  · cases h
  · next query =>
    split at h
    · cases h
    · split at h
      · cases h
      · dsimp only at h
        split at h
        · cases h
        · obtain rfl := Lookup.value.inj h
          rw [List.length_take]
          exact ⟨by omega, fun h0 => query.nul_free (List.mem_of_mem_drop
            ((valueText_isPrefix _).subset (List.mem_of_mem_take h0)))⟩

/-- A lookup either faults or leaves an array whose string is the one described. -/
theorem queryStringValueGet_read (hbuf : Ready size buf) :
    (∃ e, queryStringValueGet (queryString.map CStr.array) key buf = .error e ∧
        (lookup queryString key size).read buf = .error e) ∨
      ∃ r text, queryStringValueGet (queryString.map CStr.array) key buf = .ok r ∧
        Ready size r.value ∧ readString r.value = .ok text ∧
          (lookup queryString key size).read buf = .ok text := by
  rw [queryStringValueGet_eq, hbuf.1]
  cases hl : lookup queryString key size with
  | untouched => exact .inr ⟨_, _, rfl, hbuf, by simp [readString, hbuf.2], rfl⟩
  | value w =>
    obtain ⟨hlen, h0⟩ := length_lt_of_lookup hl
    refine .inr ⟨_, w, rfl, ⟨?_, by simp⟩, readString_append_zero h0 _, rfl⟩
    simp only [List.length_append, List.length_cons, List.length_drop, hbuf.1]
    omega
  | fault e => exact .inl ⟨e, rfl, rfl⟩

end

/-! ## The grammar -/

def equals : Byte := 61

def ampersand : Byte := 38

def hash : Byte := 35

/-- A parameter `name=value`. -/
structure Param where
  name : List Byte
  value : List Byte
  name_free : equals ∉ name ∧ ampersand ∉ name ∧ hash ∉ name ∧ 0 ∉ name
  value_free : ampersand ∉ value ∧ hash ∉ value ∧ 0 ∉ value

def Param.text (p : Param) : List Byte := p.name ++ equals :: p.value

/-- A key that can be the name of a parameter. -/
structure ParamKey extends CStr where
  ne_nil : bytes ≠ []
  free : equals ∉ bytes ∧ ampersand ∉ bytes ∧ hash ∉ bytes

/-- Parameters joined by `&`, and a fragment. -/
structure Query where
  params : List Param
  fragment : Option CStr

namespace Query

variable (q : Query)

def text : List Byte :=
  [ampersand].intercalate (q.params.map Param.text) ++
    match q.fragment with
    | none => []
    | some fragment => hash :: fragment.bytes

theorem zero_notMem_text : 0 ∉ q.text := by
  have hparams : ∀ s ∈ q.params.map Param.text, 0 ∉ s := by
    intro s hs h
    obtain ⟨p, -, rfl⟩ := List.mem_map.mp hs
    obtain h | h := List.mem_append.mp h
    · exact p.name_free.2.2.2 h
    · exact p.value_free.2.2 (by simpa [equals] using h)
  intro h
  obtain h | h := List.mem_append.mp h
  · exact notMem_intercalate (by decide) hparams h
  · cases hfragment : q.fragment with
    | none => simp [hfragment] at h
    | some fragment =>
      exact fragment.nul_free (by simpa [hfragment, hash] using h)

def cstr : CStr := ⟨q.text, q.zero_notMem_text⟩

/-- The value of the first parameter of that name. -/
def find (key : List Byte) : Option (List Byte) :=
  (q.params.find? (·.name = key)).map Param.value

/-- Both lookups store the value of the first parameter whose name is the key, and its
length, or leave everything as it is. -/
def Found (key : ParamKey) (value : List Byte) : Prop :=
  match q.find key.bytes with
  | some v =>
    queryStringValueGet (some q.cstr.array) key.toCStr value = .ok
        { ret := 0, value := v ++ 0 :: value.drop (v.length + 1), valueLen := some v.length } ∧
      queryParseKeyValue q.cstr.array key.toCStr value = .ok
        { ret := 0, value := v ++ 0 :: value.drop (v.length + 1), valueLen := some v.length }
  | none =>
    queryStringValueGet (some q.cstr.array) key.toCStr value =
        .ok { ret := 1, value, valueLen := none } ∧
      queryParseKeyValue q.cstr.array key.toCStr value =
        .ok { ret := -1, value, valueLen := none }

end Query

/-- The first occurrence of the key is followed by one byte and then, up to the next `&`, `#`
or the end, by `v`; a text too long for `int` starts with `v` and keeps its length as one. -/
def FirstFollowedBy (text key v : List Byte) : Prop :=
  ∃ p c t, firstOcc key text = some p ∧ text.drop (p + key.length) = c :: t ∧
    v <+: valueText t ∧ wrapInt (valueText t).length = v.length

/-- The key first occurs where the value of its parameter can be taken, or nowhere. -/
def Query.Unmistaken (q : Query) (key : List Byte) : Prop :=
  match q.find key with
  | some v => FirstFollowedBy q.text key v
  | none => ¬ key <:+: q.text

section

variable (query key : CStr) {size : Nat}

theorem lookup_eq_untouched_iff (size : Nat) :
    lookup (some query) key size = .untouched ↔ ¬ key.bytes <:+: query.bytes := by
  rw [← firstOcc_eq_none_iff]
  simp only [lookup]
  cases firstOcc key.bytes query.bytes with
  | none => simp
  | some p =>
    simp only [reduceCtorEq, iff_false]
    split_ifs <;> simp

theorem lookup_eq_value_iff {v : List Byte} (hv : v.length < size) :
    lookup (some query) key size = .value v ↔
      FirstFollowedBy query.bytes key.bytes v := by
  simp only [lookup, FirstFollowedBy]
  cases firstOcc key.bytes query.bytes with
  | none => simp
  | some p =>
    dsimp only
    by_cases hend : query.bytes.length < p + key.bytes.length + 1
    · have hnil : query.bytes.drop (p + key.bytes.length) = [] := by
        rw [List.drop_eq_nil_iff]
        omega
      rw [if_pos hend]
      simp [hnil]
    · obtain ⟨c, t, ht⟩ : ∃ c t, query.bytes.drop (p + key.bytes.length) = c :: t :=
        List.exists_cons_of_ne_nil (by rw [ne_eq, List.drop_eq_nil_iff]; omega)
      have hrest : query.bytes.drop (p + key.bytes.length + 1) = t := by
        rw [← List.drop_drop, ht, List.drop_one, List.tail_cons]
      have hle := wrapInt_natCast_le (valueText t).length
      rw [if_neg hend, hrest]
      constructor
      · intro h
        refine ⟨p, c, t, rfl, ht, ?_⟩
        generalize wrapInt (valueText t).length = len at hle h ⊢
        split_ifs at h with hlen
        obtain rfl := Lookup.value.inj h
        refine ⟨List.take_prefix _ _, ?_⟩
        rw [List.length_take]
        omega
      · rintro ⟨_, _, _, ⟨⟩, ht', hpre, hlen⟩
        obtain ⟨rfl, rfl⟩ := List.cons.inj (ht.symm.trans ht')
        rw [hlen, if_neg (by omega), Int.toNat_natCast, ← List.prefix_iff_eq_take.mp hpre]

end

/-- For a key and an array with room for its value, both lookups follow the grammar exactly if
the key is not mistaken. -/
theorem queryLookup_found_iff (q : Query) (key : ParamKey) (value : List Byte)
    (hroom : ∀ v, q.find key.bytes = some v → v.length < value.length) :
    q.Found key value ↔ q.Unmistaken key.bytes := by
  have hget := queryStringValueGet_eq (some q.cstr) key.toCStr value
  have hparse := copyQueryValue_eq (-1) q.cstr key.toCStr value
  rw [Option.map_some] at hget
  unfold Query.Found Query.Unmistaken
  rw [hget, queryParseKeyValue, hparse]
  cases hfind : q.find key.bytes with
  | none =>
    refine Iff.trans ?_ (lookup_eq_untouched_iff q.cstr key.toCStr value.length)
    cases lookup (some q.cstr) key.toCStr value.length <;> simp
  | some v =>
    refine Iff.trans ?_ (lookup_eq_value_iff q.cstr key.toCStr (hroom v hfind))
    cases lookup (some q.cstr) key.toCStr value.length with
    | untouched => simp
    | fault e => simp
    | value w =>
      simp only [Except.ok.injEq, QueryGet.mk.injEq, Option.some.injEq, true_and, and_self,
        Lookup.value.injEq]
      constructor
      · rintro ⟨harray, hlen⟩
        exact List.append_inj_left harray (by exact_mod_cast hlen)
      · rintro rfl
        exact ⟨rfl, rfl⟩

def userKey : ParamKey where
  bytes := ascii "user"
  nul_free := by decide
  ne_nil := by decide
  free := by decide

/-- A parameter of that name with the value `zhao`. -/
def userParam : Param where
  name := ascii "user"
  value := ascii "zhao"
  name_free := by decide
  value_free := by decide

/-- `kind=2&user=zhao`. -/
def userQuery : Query where
  params := [⟨ascii "kind", ascii "2", by decide, by decide⟩, userParam]
  fragment := none

theorem queryLookup_found_user :
    userQuery.Found userKey (zeros 32) ↔ userQuery.Unmistaken userKey.bytes :=
  queryLookup_found_iff userQuery userKey (zeros 32) fun v hv => by
    obtain rfl : userParam.value = v := Option.some.inj hv
    decide

/-- `kind=user&user=zhao`: the key is found as the value of `kind`, and what is stored is the
whole parameter behind it. -/
def mistakenQuery : Query where
  params := [⟨ascii "kind", ascii "user", by decide, by decide⟩, userParam]
  fragment := none

theorem queryLookup_mistaken :
    ¬ mistakenQuery.Found userKey (zeros 32) ∧
      queryStringValueGet (some mistakenQuery.cstr.array) userKey.toCStr (zeros 32) =
        .ok { ret := 0, value := ascii "user=zhao" ++ zeros 23, valueLen := some 9 } := by
  have hstored : queryStringValueGet (some mistakenQuery.cstr.array) userKey.toCStr (zeros 32) =
      .ok { ret := 0, value := ascii "user=zhao" ++ zeros 23, valueLen := some 9 } := by
    decide +kernel
  refine ⟨?_, hstored⟩
  intro h
  have hget : queryStringValueGet (some mistakenQuery.cstr.array) userKey.toCStr (zeros 32) =
      .ok { ret := 0, value := userParam.value ++ zeros 28, valueLen := some 4 } := h.1
  rw [hstored] at hget
  exact absurd hget (by decide)

/-- Where the value of a parameter is taken. -/
theorem valueText_value (p : Param) (rest : List Byte)
    (hrest : rest = [] ∨ ∃ t, rest = ampersand :: t ∨ rest = hash :: t) :
    valueText (p.value ++ rest) = p.value := by
  have hvalue : ∀ c ∈ p.value, c ≠ 35 ∧ c ≠ 38 := by
    intro c hc
    constructor
    · rintro rfl
      exact p.value_free.2.1 hc
    · rintro rfl
      exact p.value_free.1 hc
  rw [valueText, List.takeWhile_append_of_pos (by simpa using hvalue)]
  obtain rfl | ⟨t, rfl | rfl⟩ := hrest <;> simp [ampersand, hash]

/-- The key of a parameter is not mistaken when it occurs in no parameter in front. -/
theorem Query.unmistaken_of_fresh (q : Query) (key : ParamKey) {before after : List Param}
    {p : Param} (hparams : q.params = before ++ p :: after) (hname : p.name = key.bytes)
    (hfresh : ∀ b ∈ before, ¬ key.bytes <:+: b.text) (hint : IsInt p.value.length) :
    q.Unmistaken key.bytes := by
  have hfind : q.find key.bytes = some p.value := by
    have hnone : before.find? (·.name = key.bytes) = none := by
      rw [List.find?_eq_none]
      intro b hb hbname
      exact hfresh b hb ⟨[], equals :: b.value, by simp_all [Param.text]⟩
    simp [find, hparams, hnone, hname]
  obtain ⟨rest, hrest, htext⟩ : ∃ rest,
      (rest = [] ∨ ∃ t, rest = ampersand :: t ∨ rest = hash :: t) ∧
        q.text = (before.flatMap (·.text ++ [ampersand])) ++
          (key.bytes ++ equals :: (p.value ++ rest)) := by
    refine ⟨(after.map Param.text).flatMap ([ampersand] ++ ·) ++
      (match q.fragment with
        | none => []
        | some fragment => hash :: fragment.bytes), ?_, ?_⟩
    · cases after with
      | nil => cases q.fragment <;> simp
      | cons a as => exact .inr ⟨_, .inl (by simp; rfl)⟩
    · rw [text, hparams, List.map_append, List.map_cons, intercalate_append_cons, Param.text, hname]
      simp [List.flatMap_map]
  have hfirst : firstOcc key.bytes q.text =
      some (before.flatMap (·.text ++ [ampersand])).length := by
    rw [htext]
    clear hparams htext hfind
    induction before with
    | nil => simpa using firstOcc_of_isPrefix (List.prefix_append _ _)
    | cons b bs ih =>
      have hb : firstOcc key.bytes b.text = none :=
        firstOcc_eq_none_iff.mpr (hfresh b List.mem_cons_self)
      have hsplit : (b :: bs).flatMap (·.text ++ [ampersand]) ++
          (key.bytes ++ equals :: (p.value ++ rest)) =
            b.text ++ ampersand :: (bs.flatMap (·.text ++ [ampersand]) ++
              (key.bytes ++ equals :: (p.value ++ rest))) := by
        simp
      rw [hsplit, firstOcc_append_cons key.free.2.1 hb,
        ih fun c hc => hfresh c (List.mem_cons_of_mem b hc)]
      simp
      omega
  unfold Unmistaken
  rw [hfind]
  refine ⟨_, equals, p.value ++ rest, hfirst, ?_, ?_, ?_⟩
  · rw [htext, ← List.drop_drop, List.drop_left, List.drop_left]
  · rw [valueText_value p rest hrest]
  · rw [valueText_value p rest hrest, wrapInt_of_isInt hint]

end CgiFileStore
