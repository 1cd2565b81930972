import CgiFileStore.Echo.EchoOp

/-!
# Storing an upload

The record that is put together and the two keys that are written. The results of the two
writes are dropped by `fileMsgStoreToRedis`, and the main result says for which calls its
return value is right all the same.
-/

namespace CgiFileStore

open CSem Search Redis

/-! ## The record -/

/-- The parts of a record in front of the suffix. -/
def recordFields (fileId fileUrl name createTime user : List Byte) : List (List Byte) :=
  [fileId, [delimiter], fileUrl, [delimiter], name, [delimiter], createTime, [delimiter], user,
    [delimiter]]

/-- `id|url|name|time|user|suffix`. -/
def record (fileId fileUrl name createTime user : List Byte) : List Byte :=
  (recordFields fileId fileUrl name createTime user).flatten ++ suffixOf name

/-- The suffix fits its array of 64 bytes and the record its block of 1024. -/
def RecordFits (fileId fileUrl name createTime user : List Byte) : Prop :=
  (suffixOf name).length < 64 ∧ (record fileId fileUrl name createTime user).length < 1024

instance (fileId fileUrl name createTime user : List Byte) :
    Decidable (RecordFits fileId fileUrl name createTime user) :=
  inferInstanceAs (Decidable (_ ∧ _))

section

variable {fileIdFdfs fileUrlFdfs fileName fileId fileUrl name : List Byte} {createTime user : CStr}

theorem zero_notMem_recordFields (createTime user : CStr) (hid : 0 ∉ fileId)
    (hurl : 0 ∉ fileUrl) (hname : 0 ∉ name) :
    ∀ t ∈ recordFields fileId fileUrl name createTime.bytes user.bytes, 0 ∉ t := by
  simp [recordFields, hid, hurl, hname, createTime.nul_free, user.nul_free, delimiter]

theorem zero_notMem_record (createTime user : CStr) (hid : 0 ∉ fileId) (hurl : 0 ∉ fileUrl)
    (hname : 0 ∉ name) : 0 ∉ record fileId fileUrl name createTime.bytes user.bytes := by
  have hfields := zero_notMem_recordFields createTime user hid hurl hname
  simp only [record, List.mem_append, List.mem_flatten, not_or, not_exists, not_and]
  exact ⟨hfields, zero_notMem_suffixOf hname⟩

/-- The appends of `makeRecord` as one chain. -/
theorem makeRecord_eq_foldlM (hid : readString fileIdFdfs = .ok fileId)
    (hurl : readString fileUrlFdfs = .ok fileUrl) (hname : readString fileName = .ok name) :
    makeRecord fileIdFdfs fileUrlFdfs fileName createTime user =
      ((recordFields fileId fileUrl name createTime.bytes user.bytes).foldlM strcat (zeros 1024) >>=
        fun buf => fileSuffixGet fileName (zeros 64) >>= readString >>= strcat buf) := by
  simp [makeRecord, hid, hurl, hname, recordFields]

theorem zero_notMem_flatten (createTime user : CStr) (hid : 0 ∉ fileId) (hurl : 0 ∉ fileUrl)
    (hname : 0 ∉ name) :
    0 ∉ (recordFields fileId fileUrl name createTime.bytes user.bytes).flatten := by
  simpa [List.mem_flatten] using zero_notMem_recordFields createTime user hid hurl hname

/-- The chain up to the suffix, on strings. -/
theorem foldlM_recordFields (createTime user : CStr) (hid : 0 ∉ fileId) (hurl : 0 ∉ fileUrl)
    (hname : 0 ∉ name) {text : List Byte}
    (htext : (recordFields fileId fileUrl name createTime.bytes user.bytes).flatten = text) :
    (recordFields fileId fileUrl name createTime.bytes user.bytes).foldlM strcat (zeros 1024) =
      if text.length < 1024 then .ok (text ++ zeros (1024 - text.length)) else .error .write := by
  have hfold := foldlM_strcat _ List.not_mem_nil (by decide : 0 < 1024)
    (zero_notMem_recordFields createTime user hid hurl hname)
  rwa [htext, List.nil_append, List.nil_append] at hfold

/-- A record that fits stands in the block with zeros behind it. -/
theorem makeRecord_eq (hid : readString fileIdFdfs = .ok fileId)
    (hurl : readString fileUrlFdfs = .ok fileUrl) (hname : readString fileName = .ok name)
    (hfits : RecordFits fileId fileUrl name createTime.bytes user.bytes) :
    makeRecord fileIdFdfs fileUrlFdfs fileName createTime user =
      .ok (record fileId fileUrl name createTime.bytes user.bytes ++
        zeros (1024 - (record fileId fileUrl name createTime.bytes user.bytes).length)) := by
  obtain ⟨hsuffix, hlen⟩ := hfits
  have hid0 := zero_notMem_of_readString hid
  have hurl0 := zero_notMem_of_readString hurl
  have hname0 := zero_notMem_of_readString hname
  obtain ⟨t, ht⟩ := eq_append_of_readString hname
  have hflat := zero_notMem_flatten createTime user hid0 hurl0 hname0
  have hfold := foldlM_recordFields createTime user hid0 hurl0 hname0 rfl
  have hget : (fileSuffixGet fileName (zeros 64) >>= readString) = .ok (suffixOf name) := by
    rw [ht, fileSuffixGet, copySuffix_eq hname0 (by simpa using hsuffix)
      (by simp only [intMax]; omega), ok_bind, readString_append_zero (zero_notMem_suffixOf hname0)]
  simp only [record, List.length_append] at hlen
  rw [if_pos (by omega)] at hfold
  rw [makeRecord_eq_foldlM hid hurl hname, hfold, ok_bind, hget, ok_bind,
    strcat_zeros hflat (by omega), record]
  simp only [List.length_append, Nat.sub_add_eq]

/-- Otherwise an array is written over its end. -/
theorem makeRecord_ne_ok (hid : readString fileIdFdfs = .ok fileId)
    (hurl : readString fileUrlFdfs = .ok fileUrl) (hname : readString fileName = .ok name)
    (hfits : ¬ RecordFits fileId fileUrl name createTime.bytes user.bytes) (r : List Byte) :
    makeRecord fileIdFdfs fileUrlFdfs fileName createTime user ≠ .ok r := by
  have hid0 := zero_notMem_of_readString hid
  have hurl0 := zero_notMem_of_readString hurl
  have hname0 := zero_notMem_of_readString hname
  obtain ⟨t, ht⟩ := eq_append_of_readString hname
  have hflat := zero_notMem_flatten createTime user hid0 hurl0 hname0
  rw [makeRecord_eq_foldlM hid hurl hname,
    foldlM_recordFields createTime user hid0 hurl0 hname0 rfl]
  split
  · next hlen =>
    rw [ok_bind]
    intro hr
    obtain ⟨suffix, hsuffix, hrest⟩ := bind_eq_ok.mp hr
    obtain ⟨buf, hbuf, hread⟩ := bind_eq_ok.mp hsuffix
    rw [ht] at hbuf
    have hint : ((suffixOf name).length : Int) ≤ intMax := by
      have hle := length_suffixOf_le name
      simp only [recordFields, List.flatten_cons, List.length_append] at hlen
      simp only [intMax]
      omega
    by_cases hshort : (suffixOf name).length < 64
    · rw [fileSuffixGet, copySuffix_eq hname0 (by simpa using hshort) hint,
        Except.ok.injEq] at hbuf
      rw [← hbuf, readString_append_zero (zero_notMem_suffixOf hname0), Except.ok.injEq] at hread
      rw [← hread, strcat_zeros_full hflat (by omega)] at hrest
      · cases hrest
      · simp only [RecordFits, record, List.length_append] at hfits
        omega
    · exact copySuffix_overrun hname0 (by rw [length_zeros]; omega) hint buf hbuf
  · simp

end

/-! ## The two writes -/

variable {S : Type} {env : StoreEnv} {st : Store S}

/-- Both commands are sent and the server carries both out. -/
def BothApplied (env : StoreEnv) (st : Store S) : Prop :=
  (env.connected = true ∧ env.allocated = true) ∧
    PushApplied env.push st fileInfoList ∧ CountApplied env.count st fileHotZset

/-- Both commands took effect: the record is in front of the list, and the score of the file has
been counted up. -/
def BothTookEffect [Score S] (env : StoreEnv) (st : Store S) (value member : List Byte)
    (st' : Store S) : Prop :=
  BothApplied env st ∧ st' = counted (pushed st fileInfoList value) fileHotZset member

/-- A call ends with 0 exactly if both commands took effect, and otherwise leaves both keys
as they were. -/
def Reports [Score S] (env : StoreEnv) (st : Store S) (value member : List Byte)
    (result : Checked (Int × Store S)) : Prop :=
  ∃ ret st', result = .ok (ret, st') ∧ (ret = 0 ↔ BothTookEffect env st value member st') ∧
    (ret ≠ 0 → st' fileInfoList = st fileInfoList ∧ st' fileHotZset = st fileHotZset)

/-- The push to the list leaves the type of the other key as it was. -/
theorem countApplied_pushed {fate : Fate} {value : List Byte} :
    CountApplied fate (pushed st fileInfoList value) fileHotZset ↔
      CountApplied fate st fileHotZset := by
  simp [CountApplied, HoldsZset, pushed_of_ne st fileHotZset_ne_fileInfoList]

variable [Score S]

section

variable {fileIdFdfs fileUrlFdfs fileName fileId fileUrl name : List Byte} {user : CStr}

omit [Score S] in
theorem pushFile_applied {fate : Fate} {createTime : CStr}
    (hid : readString fileIdFdfs = .ok fileId) (hurl : readString fileUrlFdfs = .ok fileUrl)
    (hname : readString fileName = .ok name)
    (hfits : RecordFits fileId fileUrl name createTime.bytes user.bytes)
    (h : PushApplied fate st fileInfoList) :
    pushFile fate fileIdFdfs fileUrlFdfs fileName createTime user st =
      .ok (0, pushed st fileInfoList
        (record fileId fileUrl name createTime.bytes user.bytes)) := by
  have hread := readString_append_zeros
    (zero_notMem_record createTime user (zero_notMem_of_readString hid)
      (zero_notMem_of_readString hurl) (zero_notMem_of_readString hname))
    (Nat.sub_pos_of_lt hfits.2)
  rw [pushFile, makeRecord_eq hid hurl hname hfits, ok_bind, hread, ok_bind, ropListPush_applied h]

/-- When both commands are carried out, the record is in front of the list and the score of
the file has been counted up. -/
theorem fileMsgStoreToRedis_applied (hid : readString fileIdFdfs = .ok fileId)
    (hurl : readString fileUrlFdfs = .ok fileUrl) (hname : readString fileName = .ok name)
    (hfits : RecordFits fileId fileUrl name env.createTime.bytes user.bytes)
    (h : BothApplied env st) :
    fileMsgStoreToRedis env fileIdFdfs fileUrlFdfs fileName user st =
      .ok (0, counted (pushed st fileInfoList
        (record fileId fileUrl name env.createTime.bytes user.bytes)) fileHotZset fileId) := by
  obtain ⟨⟨hconn, halloc⟩, hpush, hcount⟩ := h
  simp only [fileMsgStoreToRedis, countFile, hconn, halloc, Bool.true_eq_false, if_false,
    pushFile_applied hid hurl hname hfits hpush, hid, ok_bind,
    ropZsetIncrement_applied (countApplied_pushed.mpr hcount), pure_eq_ok]

/-- Once the commands are sent, the return value is 0 whatever became of them. -/
theorem fileMsgStoreToRedis_sent (hconn : env.connected = true) (halloc : env.allocated = true)
    {ret : Int} {st' : Store S}
    (h : fileMsgStoreToRedis env fileIdFdfs fileUrlFdfs fileName user st = .ok (ret, st')) :
    ret = 0 ∧
      ∃ buf, makeRecord fileIdFdfs fileUrlFdfs fileName env.createTime user = .ok buf := by
  simp only [fileMsgStoreToRedis, hconn, halloc, Bool.true_eq_false, if_false] at h
  obtain ⟨push, hpush, h⟩ := bind_eq_ok.mp h
  obtain ⟨buf, hbuf, -⟩ := bind_eq_ok.mp hpush
  obtain ⟨count, -, h⟩ := bind_eq_ok.mp h
  obtain ⟨rfl, -⟩ : 0 = ret ∧ _ := by simpa using h
  exact ⟨rfl, buf, hbuf⟩

end

/-- The return value is right for the calls that send nothing, and for those whose record
fits and whose two commands are both carried out. -/
theorem fileMsgStoreToRedis_reports_iff (env : StoreEnv) (fileId fileUrl fileName user : CStr)
    (st : Store S) :
    Reports env st
        (record fileId.bytes fileUrl.bytes fileName.bytes env.createTime.bytes user.bytes)
        fileId.bytes (fileMsgStoreToRedis env fileId.array fileUrl.array fileName.array user st) ↔
      (env.connected = false ∨ env.allocated = false) ∨
        RecordFits fileId.bytes fileUrl.bytes fileName.bytes env.createTime.bytes user.bytes ∧
          BothApplied env st := by
  have hid := fileId.readString_array
  have hurl := fileUrl.readString_array
  have hname := fileName.readString_array
  constructor
  · rintro ⟨ret, st', hrun, hret, -⟩
    by_cases hsent : env.connected = true ∧ env.allocated = true
    · obtain ⟨rfl, buf, hbuf⟩ := fileMsgStoreToRedis_sent hsent.1 hsent.2 hrun
      refine .inr ⟨?_, (hret.mp rfl).1⟩
      by_contra hfits
      exact makeRecord_ne_ok hid hurl hname hfits buf hbuf
    · left
      rwa [not_and_or, Bool.not_eq_true, Bool.not_eq_true] at hsent
  · rintro (hunsent | ⟨hfits, happlied⟩)
    · have hrun : fileMsgStoreToRedis env fileId.array fileUrl.array fileName.array user st =
          .ok (-1, st) := by
        obtain h | h := hunsent <;> simp [fileMsgStoreToRedis, h]
      refine ⟨-1, st, hrun, ⟨fun h => absurd h (by decide), ?_⟩, fun _ => ⟨rfl, rfl⟩⟩
      rintro ⟨⟨⟨hconn, halloc⟩, -⟩, -⟩
      obtain h | h := hunsent
      · rw [hconn] at h
        cases h
      · rw [halloc] at h
        cases h
    · refine ⟨0, _, fileMsgStoreToRedis_applied hid hurl hname hfits happlied,
        ⟨fun _ => ⟨happlied, rfl⟩, fun _ => rfl⟩, fun h => absurd rfl h⟩

/-- A server that refuses both commands: the call still returns 0. -/
theorem fileMsgStoreToRedis_refused :
    let text : CStr := ⟨ascii "f", by decide⟩
    let env : StoreEnv :=
      { connected := true
        allocated := true
        createTime := text
        push := .refuse (ascii "OOM")
        count := .refuse (ascii "OOM") }
    let result := fileMsgStoreToRedis env text.array text.array text.array text (emptyStore Nat)
    result.map Prod.fst = .ok 0 ∧ ¬ BothApplied env (emptyStore Nat) ∧
      ¬ Reports env (emptyStore Nat)
        (record text.bytes text.bytes text.bytes text.bytes text.bytes) text.bytes result := by
  intro text env result
  have hret : result.map Prod.fst = .ok 0 := by decide +kernel
  have hrefused : ¬ BothApplied env (emptyStore Nat) := fun ⟨_, ⟨hserve, _⟩, _⟩ => by cases hserve
  refine ⟨hret, hrefused, ?_⟩
  rintro ⟨ret, st', hresult, hzero, -⟩
  rw [hresult] at hret
  exact hrefused (hzero.mp (Except.ok.inj hret)).1

end CgiFileStore
