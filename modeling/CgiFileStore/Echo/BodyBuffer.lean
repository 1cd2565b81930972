import CgiFileStore.Echo.Main

/-!
# The buffer of the request body

The loop that reads a body writes as many bytes as the client announces and sends. `residue`
says what a history of requests has left in `text_source`, and the main result for which
requests the loop stays inside the array and a NUL is there for the string searches.
-/

namespace CgiFileStore

open CSem Redis Transition

/-! ## What the requests leave behind -/

/-- The byte at place `k` of `text_source` after a history of requests, the latest in front:
the first places are cleared by each round, and any other keeps the byte of the latest body
that is long enough. -/
def residue : List Request → Nat → Byte
  | [], _ => 0
  | req :: history, k =>
    if k < sizeofTextSource then 0 else (req.body[k]?).getD (residue history k)

section

variable {S : Type} [Score S] {files : Files} {st : Store S}

/-- One round puts its body into the array and clears the first places. -/
theorem processed_textSource {req : Request} {s s' : EchoState S} (h : Processed s req s')
    (hs : s.textSource.length = 102400) {k : Nat} (hk : k < 102400) :
    s'.textSource[k]? =
      if k < 8 then some 0 else some ((req.body[k]?).getD s.textSource[k]) := by
  obtain ⟨textSource, source, -, -, -, hread, -, -, -, -, -, -, -, hclear, -⟩ := processed_inv h
  obtain ⟨body, hbody, hrest⟩ := bind_eq_ok.mp hread
  cases body with
  | none => simp at hrest
  | some body =>
    obtain ⟨_, -, hrest⟩ := bind_eq_ok.mp hrest
    obtain ⟨rfl, -⟩ : body = textSource ∧ _ := by simpa using hrest
    obtain ⟨hwhole, hroom, rfl⟩ := readBody_eq_some hbody
    obtain ⟨-, hclear⟩ := memset0_eq_ok.mp hclear
    rw [hclear]
    split_ifs with hlow
    · rw [List.getElem?_append_left (by simpa using hlow), zeros, List.getElem?_replicate,
        if_pos hlow]
    · rw [List.getElem?_append_right (by simpa using hlow), List.getElem?_drop, length_zeros,
        Nat.add_sub_cancel' (by omega)]
      have hlen : req.body.length = req.len.toNat := by
        rw [Request.body, List.length_take]
        omega
      change (req.body ++ s.textSource.drop req.len.toNat)[k]? = _
      obtain hin | hout := lt_or_ge k req.len.toNat
      · rw [List.getElem?_append_left (by omega), List.getElem?_eq_getElem (by omega)]
        rfl
      · rw [List.getElem?_append_right (by omega), List.getElem?_drop, hlen,
          Nat.add_sub_cancel' hout, List.getElem?_eq_getElem (by omega),
          List.getElem?_eq_none (by omega)]
        rfl

/-- After any history of processed requests, `text_source` holds their residue. -/
theorem textSource_of_run {history : List Request} {s : EchoState S}
    (hrun : Run (EchoState.initial files st) Processed history s) {k : Nat} (hk : k < 102400) :
    s.textSource[k]? = some (residue history k) := by
  induction hrun with
  | nil =>
    rw [EchoState.initial, maxBufSource, zeros, List.getElem?_replicate, if_pos hk]
    rfl
  | cons hbefore hstep ih =>
    have hlen := (cleared_of_run hbefore).length_textSource
    rw [List.getElem?_eq_getElem (hlen ▸ hk), Option.some.injEq] at ih
    rw [processed_textSource hstep hlen hk, ih, residue, sizeofTextSource]
    split_ifs <;> rfl

/-- A NUL at a place below `MAX_BUF_SOURCE`, as one of the places of the array. -/
theorem zero_mem_drop_iff {history : List Request} {s : EchoState S}
    (hrun : Run (EchoState.initial files st) Processed history s) (n : Nat) :
    0 ∈ s.textSource.drop n ↔ ∃ k, n ≤ k ∧ k < 102400 ∧ residue history k = 0 := by
  have hlen := (cleared_of_run hrun).length_textSource
  rw [List.mem_iff_getElem?]
  constructor
  · rintro ⟨i, hi⟩
    rw [List.getElem?_drop] at hi
    obtain ⟨hlt, -⟩ := List.getElem?_eq_some_iff.mp hi
    rw [textSource_of_run hrun (hlen ▸ hlt), Option.some.injEq] at hi
    exact ⟨n + i, Nat.le_add_right n i, hlen ▸ hlt, hi⟩
  · rintro ⟨k, hn, hk, hzero⟩
    refine ⟨k - n, ?_⟩
    rw [List.getElem?_drop, Nat.add_sub_cancel' hn, textSource_of_run hrun hk, hzero]

end

/-! ## The loop and the string searches -/

/-- The loop that reads the body writes inside `text_source` only, and if the body arrives
whole, so that `fiel_source_get` is called, there is a NUL in the array. -/
def BodySafe {S : Type} (req : Request) (s : EchoState S) : Prop :=
  ∃ r, readBody req.len.toNat 0 req.stdin s.textSource = .ok r ∧ ∀ t, r = some t → 0 ∈ t

/-- The bytes that arrive have a place in the array, and if the body arrives whole there is a
NUL in it, or one behind it that the requests before have left. -/
def BodyFits (history : List Request) (req : Request) : Prop :=
  req.body.length ≤ maxBufSource ∧
    (req.stdin.length < req.len.toNat ∨ 0 ∈ req.body ∨
      ∃ k, req.body.length ≤ k ∧ k < maxBufSource ∧ residue history k = 0)

/-- Where no body is long enough to reach it, `text_source` still holds the NUL of `calloc`. -/
theorem residue_eq_zero {history : List Request} {k : Nat}
    (h : ∀ req ∈ history, req.body.length ≤ k) : residue history k = 0 := by
  induction history with
  | nil => rfl
  | cons req history ih =>
    have hreq : req.body[k]? = none := List.getElem?_eq_none (h req List.mem_cons_self)
    rw [residue, hreq, Option.getD_none, ih fun r hr => h r (List.mem_cons_of_mem req hr), ite_self]

/-- Requests that all announce less than the size of the array fit. -/
theorem bodyFits_of_len_lt {history : List Request} {req : Request}
    (hhistory : ∀ r ∈ history, r.len < maxBufSource) (hreq : req.len < maxBufSource) :
    BodyFits history req := by
  have hbody : ∀ r : Request, r.len < maxBufSource → r.body.length ≤ 102399 := by
    intro r hr
    have hle : r.body.length ≤ r.len.toNat := List.length_take_le _ _
    rw [maxBufSource] at hr
    omega
  have hfree : residue history 102399 = 0 := residue_eq_zero fun r hr => hbody r (hhistory r hr)
  exact ⟨(hbody req hreq).trans (by decide), .inr (.inr ⟨102399, hbody req hreq, by decide, hfree⟩)⟩

/-- The loop is safe after any history of uploads exactly for the requests that fit. -/
theorem bodySafe_iff {S : Type} [Score S] (files : Files) (st : Store S) (history : List Request)
    (s : EchoState S) (hrun : Run (EchoState.initial files st) Processed history s)
    (req : Request) : BodySafe req s ↔ BodyFits history req := by
  have hlen := (cleared_of_run hrun).length_textSource
  have hlen' : req.body.length ≤ req.len.toNat := List.length_take_le _ _
  have hstdin : req.body.length ≤ req.stdin.length := List.length_take_le' _ _
  unfold BodySafe BodyFits maxBufSource
  obtain hover | hroom := lt_or_ge 102400 req.body.length
  · rw [readBody_overrun (by omega) (by omega) (by omega)]
    simp only [reduceCtorEq, false_and, exists_false, false_iff, not_and]
    omega
  obtain hshort | hwhole := lt_or_ge req.stdin.length req.len.toNat
  · have hbody : req.body = req.stdin := List.take_of_length_le hshort.le
    rw [readBody_short hshort (by rw [← hbody]; omega)]
    simp [hroom, hshort]
  · have hbody : req.body.length = req.len.toNat := List.length_take_of_le hwhole
    rw [readBody_eq hwhole (by omega)]
    have hnul := zero_mem_drop_iff hrun req.len.toNat
    simp only [Except.ok.injEq, exists_eq_left', Option.some.injEq, forall_eq', List.take_zero,
      List.nil_append, Nat.zero_add, List.mem_append, hnul, hbody]
    simp only [Request.body, hbody ▸ hroom, Nat.not_lt.mpr hwhole, true_and, false_or]

/-- Behind the first upload, the body with the LF line ends. -/
theorem bodySafe_iff_lfUpload :
    ∃ s, Run firstState Processed [crlfUpload] s ∧
      (BodySafe lfUpload s ↔ BodyFits [crlfUpload] lfUpload) := by
  obtain ⟨s, hrun, -⟩ := exists_processed_crlfUpload
  exact ⟨s, hrun, bodySafe_iff (fun _ => none) (emptyStore Nat) _ s hrun lfUpload⟩

/-- A request whose body has one byte more than the array. -/
def longUpload : Request :=
  upload ⟨ascii "102401", by decide⟩ (List.replicate 102401 120)

/-- The loop writes the last byte of the first request behind the array. -/
theorem bodySafe_long :
    Run firstState Processed [] firstState ∧ ¬ BodySafe longUpload firstState := by
  refine ⟨.nil, ?_⟩
  have hlen : longUpload.len = 102401 := by decide
  have hstdin : longUpload.stdin.length = 102401 := List.length_replicate
  have hover : readBody longUpload.len.toNat 0 longUpload.stdin firstState.textSource =
      .error .write := by
    have hsize : firstState.textSource.length = 102400 := length_zeros _
    exact readBody_overrun (by omega) (by omega) (by omega)
  rintro ⟨r, hr, -⟩
  rw [hover] at hr
  cases hr

end CgiFileStore
