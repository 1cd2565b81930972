import CgiFileStore.Data.Paging
import CgiFileStore.Echo.Store
import CgiFileStore.Lib.Transition

/-!
# Uploaders and listers on one server

Any number of workers of the two programs, interleaved at their Redis commands. An event is
one command with what its worker computes in front of it, which no other worker can see. All
commands are carried out. Without interference the events of an uploader are a call of
`fileMsgStoreToRedis` and those of a lister the row loop of `fileListToJsonPrint`.
-/

namespace CgiFileStore

open CSem Redis Transition

/-- A file id of FastDFS. -/
@[ext]
structure FileId extends CStr where
  delimiter_notMem : delimiter ∉ bytes
  backslash_notMem : backslash ∉ bytes

/-- Where an uploader is in `file_msg_store_to_redis`: between its two commands or not. -/
inductive Uploader
  | idle
  | pushed (fileId : FileId)

/-- Where a lister is in `file_list_to_json_print`: in front of the score of a row or not. -/
inductive Lister
  | idle
  | listing (page : RangeList) (i : Nat) (fields : Fields)

/-- `i < value_num`, the condition of the row loop. -/
def Lister.next (page : RangeList) (i : Nat) (fields : Fields) : Lister :=
  if i < page.getNum.toNat then .listing page i fields else .idle

/-- The two keys, the workers, the ids of all uploads and the items of all listings. -/
structure System (S U L : Type) where
  store : Store S
  uploader : U → Uploader
  lister : L → Lister
  ids : List FileId
  items : List Item

inductive Event (U L : Type)
  | push (u : U) (fileId : FileId) (fileUrl fileName createTime user : CStr)
  | count (u : U)
  | range (l : L) (alloc : Allocator) (fromId count : Int)
  | score (l : L)

variable {S U L : Type}

/-- Empty keys and idle workers. -/
def System.initial : System S U L where
  store := emptyStore S
  uploader := fun _ => .idle
  lister := fun _ => .idle
  ids := []
  items := []

variable [Score S] [DecidableEq U] [DecidableEq L]

inductive Step : System S U L → Event U L → System S U L → Prop
  | push {s : System S U L} {u : U} {fileId : FileId} {fileUrl fileName createTime user : CStr}
      {ret : Int} {st : Store S} (idle : s.uploader u = .idle) (fresh : fileId ∉ s.ids)
      (run : pushFile .serve fileId.array fileUrl.array fileName.array createTime user s.store =
        .ok (ret, st)) :
      Step s (.push u fileId fileUrl fileName createTime user)
        { s with
          store := st
          uploader := Function.update s.uploader u (.pushed fileId)
          ids := fileId :: s.ids }
  | count {s : System S U L} {u : U} {fileId : FileId} {ret : Int} {st : Store S}
      (pushed : s.uploader u = .pushed fileId)
      (run : countFile .serve fileId.array s.store = .ok (ret, st)) :
      Step s (.count u)
        { s with store := st, uploader := Function.update s.uploader u .idle }
  | range {s : System S U L} {l : L} {alloc : Allocator} {fromId count endId : Int}
      {page : RangeList} (idle : s.lister l = .idle) (last : pageEnd fromId count = .ok endId)
      (run : pageRows alloc .serve fromId endId count s.store = .ok page) :
      Step s (.range l alloc fromId count)
        { s with lister := Function.update s.lister l (Lister.next page 0 Fields.initial) }
  | score {s : System S U L} {l : L} {page : RangeList} {i : Nat} {fields fields' : Fields}
      {item : Item} (listing : s.lister l = .listing page i fields)
      (run : itemAt .serve page.values i fields s.store = .ok (fields', item)) :
      Step s (.score l)
        { s with
          lister := Function.update s.lister l (Lister.next page (i + 1) fields')
          items := item :: s.items }

/-! ## Workers that are not interrupted -/

/-- The two events of an uploader without anything between them are a call of
`fileMsgStoreToRedis`. -/
theorem run_fileMsgStoreToRedis {s : System S U L} {u : U} {env : StoreEnv} {fileId : FileId}
    {fileUrl fileName user : CStr} {ret : Int} {st : Store S} (hidle : s.uploader u = .idle)
    (hfresh : fileId ∉ s.ids) (hsent : env.connected = true ∧ env.allocated = true)
    (hserve : env.push = .serve ∧ env.count = .serve)
    (h : fileMsgStoreToRedis env fileId.array fileUrl.array fileName.array user s.store =
      .ok (ret, st)) :
    Run s Step [.count u, .push u fileId fileUrl fileName env.createTime user]
      { s with store := st, ids := fileId :: s.ids } := by
  obtain ⟨hconn, halloc⟩ := hsent
  simp only [fileMsgStoreToRedis, hconn, halloc, hserve, Bool.true_eq_false, if_false] at h
  obtain ⟨⟨retPush, stPush⟩, hpush, h⟩ := bind_eq_ok.mp h
  obtain ⟨⟨retCount, stCount⟩, hcount, h⟩ := bind_eq_ok.mp h
  obtain ⟨-, rfl⟩ : 0 = ret ∧ stCount = st := by simpa using h
  have hback : Function.update (Function.update s.uploader u (.pushed fileId)) u .idle =
      s.uploader := by
    rw [Function.update_idem, ← hidle, Function.update_eq_self]
  have hrun := (Run.single (Step.push (L := L) hidle hfresh hpush)).cons
    (Step.count (Function.update_self u (.pushed fileId) s.uploader) hcount)
  rwa [hback] at hrun

/-- The events of a lister without anything between them are the row loop of
`fileListToJsonPrint`. -/
theorem run_itemLoop {s : System S U L} {l : L} {env : ListEnv} {page : RangeList} {n i : Nat}
    {fields : Fields} {items : List Item} (hserve : ∀ i, env.score i = .serve)
    (hlister : s.lister l = Lister.next page i fields) (hn : i + n = page.getNum.toNat)
    (h : itemLoop env s.store page.values n i fields = .ok items) :
    ∃ s', Run s Step (List.replicate n (Event.score l)) s' ∧ s'.lister l = .idle ∧
      s'.items = items.reverse ++ s.items := by
  induction n generalizing s i fields items with
  | zero =>
    obtain rfl : [] = items := by simpa [itemLoop] using h
    rw [Lister.next, if_neg (by omega)] at hlister
    exact ⟨s, .nil, hlister, rfl⟩
  | succ n ih =>
    obtain ⟨⟨fields', item⟩, hitem, h⟩ := bind_eq_ok.mp h
    obtain ⟨rest, hrest, h⟩ := bind_eq_ok.mp h
    obtain rfl : item :: rest = items := by simpa using h
    rw [Lister.next, if_pos (by omega)] at hlister
    have hstep := Step.score hlister (hserve i ▸ hitem)
    obtain ⟨s', hrun, hidle, hitems⟩ :=
      ih (s := { s with
        lister := Function.update s.lister l (Lister.next page (i + 1) fields')
        items := item :: s.items }) (Function.update_self l _ _) (by omega) hrest
    refine ⟨s', ?_, hidle, by simpa using hitems⟩
    rw [List.replicate_succ']
    exact (Run.single hstep).append hrun

end CgiFileStore
