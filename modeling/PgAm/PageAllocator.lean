import PgAm.EventLog
import PgAm.Types

/-! The page allocator. It logs each allocation and each free before it changes its own state, and
recovery rebuilds the state from a saved freelist and the records behind it. -/
namespace PgAm

def pageSize : ℕ := 8192

namespace PageAllocator

inductive Rec
  | pageAlloc (pageId : ℕ)
  | pageFree (pageId : ℕ)
  | checkpointBegin
  | checkpointEnd (checkpointLsn nextPageId : ℕ)
  | other
  deriving DecidableEq, Repr

/-- The record with index `i` has position `i + 1`, and the first `synced` are durable. -/
structure Wal where
  log : List Rec
  synced : ℕ
  lastError : Option String

/-- A failing segment write: whether the record is in the file all the same, and the message. -/
structure AppendFault where
  stored : Bool
  message : String

def Wal.append (w : Wal) (r : Rec) (fault : Option AppendFault) : Except StorageError ℕ × Wal :=
  match w.lastError with
  | some msg => (.error (.walWriteFailed msg),w)
  | none =>
    match fault with
    | none => (.ok (w.log.length + 1),{ w with log := w.log ++ [r] })
    | some f => (.error (.io f.message),
        { w with log := if f.stored then w.log ++ [r] else w.log, lastError := some f.message })

structure Allocator where
  currentFileLen : ℕ
  nextPageId : ℕ
  freelist : List ℕ
  recoveryApplied : Bool
  deriving DecidableEq

structure FreelistMeta where
  checkpointLsn : ℕ
  pageIds : List ℕ
  deriving DecidableEq

def dataFileGrowthBytes : ℕ := 1048576

def openAt (fileLen nextPageId : ℕ) : Except StorageError Allocator :=
  if fileLen % pageSize ≠ 0 then
    .error (.metadataCorrupted
      s!"data file size {fileLen} is not a multiple of page size {pageSize}")
  else .ok ⟨fileLen,nextPageId,[],false⟩

/-- The file grows in chunks of 1 MB; `fault` is a failing call. -/
def ensureDataFileCapacity (fault : Option String) (pageId : ℕ) (a : Allocator) :
    Except StorageError Unit × Allocator :=
  let required := pageSize * pageId
  if a.currentFileLen < required then
    match fault with
    | some msg => (.error (.io msg),a)
    | none => (.ok (),{ a with currentFileLen := alignUp required dataFileGrowthBytes })
  else (.ok (),a)

def popPage (a : Allocator) : ℕ × Allocator :=
  match a.freelist.getLast? with
  | some p => (p,{ a with freelist := a.freelist.dropLast })
  | none => (a.nextPageId,a)

/-- A page that was popped and whose allocation fails later is not put back. -/
def allocPage (grow : Option String) (fault : Option AppendFault) (a : Allocator) (w : Wal) :
    Except StorageError ℕ × Allocator × Wal :=
  let len := a.currentFileLen
  if pageSize ≤ len ∧ a.nextPageId = PageId.first ∧ a.recoveryApplied = false then
    (.error (.recoveryRequired
      (s!"data file is {len} bytes but next_page_id is still PageId(1); " ++
        "replay all existing WAL records before alloc_page()")),a,w)
  else
    let (pageId,a) := popPage a
    match ensureDataFileCapacity grow pageId a with
    | (.error e,a) => (.error e,a,w)
    | (.ok (),a) =>
      match w.append (.pageAlloc pageId) fault with
      | (.error e,w) => (.error e,a,w)
      | (.ok _,w) => (.ok pageId,
          (if pageId = a.nextPageId then { a with nextPageId := a.nextPageId + 1 } else a),w)

def freePage (fault : Option AppendFault) (pageId : ℕ) (a : Allocator) (w : Wal) :
    Except StorageError Unit × Allocator × Wal :=
  if pageId = PageId.invalid then
    (.error (.invalidOperation "cannot free PageId::INVALID"),a,w)
  else if a.nextPageId ≤ pageId then
    (.error (.invalidOperation ("cannot free page " ++ PageId.display pageId ++
      ": it was never allocated (next_page_id=" ++ PageId.display a.nextPageId ++ ")")),a,w)
  else if pageId ∈ a.freelist then
    (.error (.invalidOperation ("double-free: page " ++ PageId.display pageId ++
      " is already on the freelist")),a,w)
  else
    match w.append (.pageFree pageId) fault with
    | (.error e,w) => (.error e,a,w)
    | (.ok _,w) => (.ok (),{ a with freelist := a.freelist ++ [pageId] },w)

def snapshot (checkpointLsn : ℕ) (a : Allocator) : FreelistMeta := ⟨checkpointLsn,a.freelist⟩

def applyPageAlloc (pageId : ℕ) (a : Allocator) : Allocator :=
  let a := if a.nextPageId ≤ pageId then { a with nextPageId := pageId + 1 } else a
  let a := { a with freelist := a.freelist.filter (· ≠ pageId) }
  { (ensureDataFileCapacity none pageId a).2 with recoveryApplied := true }

def applyPageFree (pageId : ℕ) (a : Allocator) : Allocator :=
  if pageId ∈ a.freelist then a
  else { a with freelist := a.freelist ++ [pageId], recoveryApplied := true }

def seedFreelist (pageIds : List ℕ) (a : Allocator) : Allocator := { a with freelist := pageIds }

def replayRecord (a : Allocator) : Rec → Allocator
  | .pageAlloc p => applyPageAlloc p a
  | .pageFree p => applyPageFree p a
  | .checkpointBegin | .checkpointEnd .. | .other => a

def markRecoveryComplete (a : Allocator) : Allocator := { a with recoveryApplied := true }

/-- A free puts a page into the set of free pages, an allocation takes it out. -/
def event : Rec → Option (ℕ × Bool)
  | .pageAlloc p => some (p,false)
  | .pageFree p => some (p,true)
  | .checkpointBegin | .checkpointEnd .. | .other => none

/-- The last record about a page: `true` is a free, `false` an allocation. -/
abbrev last (p : ℕ) (l : List Rec) : Option Bool := EventLog.last event p l

theorem about_pageAlloc (p q : ℕ) :
    EventLog.about event p (.pageAlloc q) = if p = q then some false else none :=
  EventLog.about_self rfl p

theorem about_pageFree (p q : ℕ) :
    EventLog.about event p (.pageFree q) = if p = q then some true else none :=
  EventLog.about_self rfl p

@[simp] theorem ensureDataFileCapacity_nextPageId (fault : Option String) (p : ℕ) (a : Allocator) :
    (ensureDataFileCapacity fault p a).2.nextPageId = a.nextPageId := by
  by_cases h : a.currentFileLen < pageSize * p
  · cases fault <;> simp [ensureDataFileCapacity,h]
  · simp [ensureDataFileCapacity,h]

@[simp] theorem ensureDataFileCapacity_freelist (fault : Option String) (p : ℕ) (a : Allocator) :
    (ensureDataFileCapacity fault p a).2.freelist = a.freelist := by
  by_cases h : a.currentFileLen < pageSize * p
  · cases fault <;> simp [ensureDataFileCapacity,h]
  · simp [ensureDataFileCapacity,h]

@[simp] theorem applyPageAlloc_freelist (p : ℕ) (a : Allocator) :
    (applyPageAlloc p a).freelist = a.freelist.filter (· ≠ p) := by
  simp only [applyPageAlloc,ensureDataFileCapacity_freelist]
  split <;> rfl

@[simp] theorem applyPageAlloc_nextPageId (p : ℕ) (a : Allocator) :
    (applyPageAlloc p a).nextPageId = max a.nextPageId (p + 1) := by
  simp only [applyPageAlloc,ensureDataFileCapacity_nextPageId]
  split
  · rename_i h
    exact (max_eq_right (h.trans (Nat.le_succ p))).symm
  · rename_i h
    exact (max_eq_left (not_le.1 h)).symm

theorem mem_replayRecord (p : ℕ) (a : Allocator) (r : Rec) :
    p ∈ (replayRecord a r).freelist ↔
      (EventLog.about event p r).elim (p ∈ a.freelist) (· = true) := by
  cases r with
  | pageAlloc q =>
    rw [about_pageAlloc,replayRecord,applyPageAlloc_freelist,List.mem_filter,decide_eq_true_eq]
    split
    · rename_i h
      exact iff_of_false (fun hm => hm.2 h) Bool.false_ne_true
    · rename_i h
      exact and_iff_left h
  | pageFree q =>
    rw [about_pageFree,replayRecord,applyPageFree]
    split
    · rename_i hq
      split
      · rename_i h
        exact iff_of_true (h ▸ hq) rfl
      · rfl
    · rw [List.mem_append,List.mem_singleton]
      split
      · rename_i h
        exact iff_of_true (.inr h) rfl
      · rename_i h
        exact or_iff_left h
  | checkpointBegin | checkpointEnd | other => rfl

theorem mem_replay (p : ℕ) (l : List Rec) (a : Allocator) :
    p ∈ (l.foldl replayRecord a).freelist ↔ (last p l).elim (p ∈ a.freelist) (· = true) :=
  EventLog.foldl_iff (p ∈ ·.freelist) (fun a r _ => mem_replayRecord p a r) a

end PageAllocator
end PgAm
