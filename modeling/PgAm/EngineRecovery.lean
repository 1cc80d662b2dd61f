import PgAm.EngineLog

/-! Opening the engine after a crash. Analysis finds the transactions that were active, redo
brings pages, indexes and outcomes to the end of the log, and the index entries that a
transaction without an outcome has removed are put back: they follow from its delete and update
records, read from the front of the segment of the redo point on. -/
namespace PgAm
namespace EngineLog

open Heap
open Engine (Entry Schema Table)
open UndoLog (Op)
open RecordStream (Item)

variable {K : Type}

/-- Redo restores `t_xmax` but not the command number. -/
def stampDeleted (h : TupleHeader) (xmax : ℕ) (updated : Bool) : TupleHeader :=
  { h with
    tXmax := xmax
    updated := h.updated || updated
    xmaxLockOnly := false
    xmaxIsShare := false }

def stampHotUpdate (h : TupleHeader) (xmax : ℕ) (newTid : Tid) : TupleHeader :=
  { stampDeleted h xmax true with tCtid := newTid, hotUpdated := true }

structure Restored (K : Type) where
  heap : Sys
  values : Tid → List (Option K)
  index : List (Entry K)

namespace Restored

def empty : Restored K :=
  ⟨⟨⟨TxnId.first,[],fun _ => .inProgress⟩,[],fun _ => [],fun _ => [],[]⟩,fun _ => [],[]⟩

/-- Stamp a tuple; the record of a stamp on a tuple that is not there fails. -/
def stamp (r : Restored K) (tid : Tid) (f : TupleHeader → TupleHeader) : Option (Restored K) :=
  match r.heap.tuple tid with
  | none => none
  | some _ => some { r with heap := r.heap.modifyTuple tid f }

/-- Append a tuple to its page; the slot has to be the one of the record. -/
def add (r : Restored K) (tid : Tid) (header : TupleHeader) (values : List (Option K)) :
    Option (Restored K) :=
  if r.heap.newTid tid.pageId = tid then
    some { r with
      heap := r.heap.addTuple tid.pageId header
      values := Function.update r.values tid values }
  else none

def setState (r : Restored K) (xid : ℕ) (st : TxnState) : Restored K :=
  { r with heap := { r.heap with
    manager := { r.heap.manager with clog := Function.update r.heap.manager.clog xid st } } }

def abortAll (r : Restored K) (xids : List ℕ) : Restored K :=
  xids.foldl (fun r xid => r.setState xid .aborted) r

variable [DecidableEq K]

def redo (r : Restored K) : Record K → Option (Restored K)
  | .extend page => some { r with
      heap := { r.heap with relation := r.heap.relation ++ [page] } }
  | .heapInsert _ tid header values => r.add tid header values
  | .heapDelete xid tid => r.stamp tid (stampDeleted · xid false)
  | .heapUpdate xid oldTid newTid header values =>
    (r.stamp oldTid (stampDeleted · xid true)).bind (·.add newTid header values)
  | .heapHotUpdate xid page oldSlot newSlot header values =>
    (r.stamp ⟨page,oldSlot⟩ (stampHotUpdate · xid ⟨page,newSlot⟩)).bind
      (·.add ⟨page,newSlot⟩ header values)
  | .index op => some { r with index := op.run r.index }
  | .txnCommit xid => some (r.setState xid .committed)
  | .txnAbort xid => some (r.setState xid .aborted)
  | .checkpointBegin | .checkpointEnd _ | .page => some r

end Restored

def Files.load (f : Files K) : Restored K :=
  ⟨⟨⟨TxnId.first,[],f.clog⟩,f.relation,f.pages,fun _ => [],[]⟩,f.values,f.index⟩

section Redo

variable [DecidableEq K] (st : Restored K × PageLsns K)

def onPage (p lsn : ℕ) (redo : Restored K → Option (Restored K)) :
    Option (Restored K × PageLsns K) :=
  if st.2.page p < lsn then
    (redo st.1).map (·,{ st.2 with page := Function.update st.2.page p lsn })
  else some st

/-- Redo of the record at a position. The two pages of an update have a stamp each. -/
def redoAt (i : ℕ × Record K) : Option (Restored K × PageLsns K) :=
  match i.2 with
  | .extend _ =>
    if st.2.relation < i.1 then (st.1.redo i.2).map (·,{ st.2 with relation := i.1 }) else some st
  | .heapInsert _ tid .. | .heapDelete _ tid => onPage st tid.pageId i.1 (·.redo i.2)
  | .heapUpdate xid oldTid newTid header values =>
    if oldTid.pageId = newTid.pageId then onPage st oldTid.pageId i.1 (·.redo i.2)
    else (onPage st oldTid.pageId i.1 (·.stamp oldTid (stampDeleted · xid true))).bind
      (onPage · newTid.pageId i.1 (·.add newTid header values))
  | .heapHotUpdate _ page .. => onPage st page i.1 (·.redo i.2)
  | .index op =>
    if st.2.entry op.entry < i.1 then (st.1.redo i.2).map
      (·,{ st.2 with entry := Function.update st.2.entry op.entry i.1 })
    else some st
  | .txnCommit _ | .txnAbort _ | .checkpointBegin | .checkpointEnd _ | .page =>
    (st.1.redo i.2).map (·,st.2)

end Redo

/-- `inside` is what bytes within a record decode to, with their own position and a checksum. -/
structure Config (K : Type) where
  segmentSize : ℕ
  pos : 0 < segmentSize
  dvd : lsnAlignment ∣ segmentSize
  inside : ℕ → Option (Record K × ℕ)

def maxRecord : ℕ := walRecordHeaderSize + u16Max + 8

namespace Disk

def logEnd (d : Disk K) : ℕ := RecordStream.stop Lsn.first d.log

def decodeAt (cfg : Config K) (d : Disk K) : ℕ → Option (Record K × ℕ) :=
  RecordStream.decodeAt cfg.inside Lsn.first d.log

def readFrom (cfg : Config K) (d : Disk K) (lsn : ℕ) : List (ℕ × Record K) :=
  RecordStream.readFrom (d.decodeAt cfg) d.logEnd lsn

def recordsFrom (cfg : Config K) (d : Disk K) (lsn : ℕ) : List (Record K) :=
  (d.readFrom cfg lsn).map Prod.snd

def redoStart (d : Disk K) : ℕ :=
  if Lsn.isValid d.superblock.checkpointLsn then d.superblock.checkpointLsn else Lsn.first

def findLatestCheckpointEnd : List (Record K) → Option ℕ
  | [] => none
  | .checkpointEnd b :: rs => (findLatestCheckpointEnd rs).or (some b)
  | _ :: rs => findLatestCheckpointEnd rs

/-- Those of the last checkpoint if the superblock names it, otherwise none. -/
def attBaseline (cfg : Config K) (d : Disk K) : List ℕ :=
  match findLatestCheckpointEnd (d.recordsFrom cfg d.redoStart) with
  | some b => if b = d.superblock.checkpointLsn then d.attFiles b else []
  | none => []

def analyze (att : List ℕ) (r : Record K) : List ℕ :=
  match r.ends with
  | some xid => att.filter (· ≠ xid)
  | none => if r.txnId = TxnId.invalid then att else r.txnId :: att.filter (· ≠ r.txnId)

def runAnalysis (cfg : Config K) (d : Disk K) : List ℕ :=
  ((d.recordsFrom cfg d.redoStart).foldl analyze (d.attBaseline cfg)).insertionSort (· ≤ ·)

/-- Decode at every aligned offset of a window at the start of the segment. -/
def firstRecordLsnInSegment (cfg : Config K) (d : Disk K) (segmentId upperBound : ℕ) : Option ℕ :=
  let segStart := segmentId * cfg.segmentSize
  let window := min (2 * maxRecord) cfg.segmentSize
  let found := (List.range (maxRecord / lsnAlignment + 1)).find? fun i =>
    let off := i * lsnAlignment
    off + walRecordHeaderSize ≤ window ∧
      (d.decodeAt cfg (segStart + off)).any fun r => r.2 ≤ segStart + window
  found.bind fun i =>
    let lsn := segStart + i * lsnAlignment
    if lsn < upperBound then some lsn else none

def scanStart (cfg : Config K) (d : Disk K) : ℕ :=
  let segmentId := Lsn.segmentId d.redoStart cfg.segmentSize
  if segmentId = 0 then Lsn.first
  else (d.firstRecordLsnInSegment cfg segmentId d.redoStart).getD d.redoStart

def victim (losers : List ℕ) : Record K → Option Tid
  | .heapDelete xid tid => if xid ∈ losers then some tid else none
  | .heapUpdate xid oldTid .. => if xid ∈ losers then some oldTid else none
  | _ => none

def victimTids (cfg : Config K) (d : Disk K) (losers : List ℕ) : List Tid :=
  (((d.recordsFrom cfg (d.scanStart cfg)).filterMap (victim losers)).insertionSort (· ≤ ·)).dedup

end Disk

structure Opened (K : Type) where
  restored : Restored K
  recoveredActiveXids : List ℕ
  appended : List (Op (Entry K))

section Compensate

variable [DecidableEq K] (schema : Schema K) (r : Restored K)

def restoreEntry (values : List (Option K)) (indexTid : Tid)
    (acc : List (Entry K) × List (Op (Entry K))) (column : ℕ) :
    Option (List (Entry K) × List (Op (Entry K))) :=
  match Table.entryOf values indexTid column with
  | none => some acc
  | some a =>
    if schema.fits a.key then
      if a ∈ acc.1 then some acc
      else some ((Op.inserted a).run acc.1,acc.2 ++ [.inserted a])
    else none

/-- Put back the entries of one version. A page that belongs to no table is skipped. -/
def restoreEntries (acc : List (Entry K) × List (Op (Entry K))) (tid : Tid) :
    Option (List (Entry K) × List (Op (Entry K))) :=
  if tid.pageId ∉ r.heap.relation ∨ schema.columns = [] then some acc
  else match r.heap.tuple tid,r.heap.hotChainRoot tid with
    | some _,.ok indexTid =>
      schema.columns.foldlM (restoreEntry schema (r.values tid) indexTid) acc
    | _,_ => none

end Compensate

namespace Disk

variable [DecidableEq K]

/-- Redo from the redo point on, over the pages and outcomes that are on disk. -/
def restore (cfg : Config K) (d : Disk K) : Option (Restored K) :=
  ((d.readFrom cfg d.redoStart).foldlM redoAt (d.files.load.abortAll d.stamps,d.files.lsns)).map
    Prod.fst

def recoveredActiveXids (cfg : Config K) (d : Disk K) (r : Restored K) : List ℕ :=
  (d.runAnalysis cfg).filter fun xid =>
    r.heap.manager.getState xid ≠ .committed ∧ r.heap.manager.getState xid ≠ .aborted

/-- The clock goes on behind the superblock's and behind every replayed record. -/
def nextTxnId (cfg : Config K) (d : Disk K) : ℕ :=
  ((d.recordsFrom cfg d.redoStart).map fun r => r.txnId + 1).foldl max d.superblock.nextTxnId

/-- `Engine::open`; `none` is an open that fails. -/
def openEngine (schema : Schema K) (cfg : Config K) (d : Disk K) : Option (Opened K) :=
  (d.restore cfg).bind fun r =>
    let losers := d.recoveredActiveXids cfg r
    let r := r.abortAll losers
    let r := { r with heap := { r.heap with
      manager := { r.heap.manager with txnIdClock := d.nextTxnId cfg } } }
    ((d.victimTids cfg losers).foldlM (restoreEntries schema r) (r.index,[])).map fun acc =>
      ⟨{ r with index := acc.1 },losers,acc.2⟩

end Disk

end EngineLog
end PgAm
