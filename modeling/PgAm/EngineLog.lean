import PgAm.IndexAgreement
import PgAm.RecordStream
import PgAm.WalRecord

/-! The engine with its log and its checkpoints. Each change of a heap page and of an index is
logged in the order in which it is made, index changes without a transaction; the row locks are
not logged. A checkpoint logs its begin, saves the list of active transactions, logs its end and
then writes the superblock. -/
namespace PgAm
namespace EngineLog

open Machine Heap
open Engine (Entry Schema Table)
open UndoLog (Op)
open RecordStream (Item)

variable {K : Type} [DecidableEq K]

/-- `extend` links a new page to the table, `page` leaves rows and entries alone. -/
inductive Record (K : Type)
  | extend (page : ℕ)
  | heapInsert (xid : ℕ) (tid : Tid) (header : TupleHeader) (values : List (Option K))
  | heapDelete (xid : ℕ) (tid : Tid)
  | heapUpdate (xid : ℕ) (oldTid newTid : Tid) (header : TupleHeader) (values : List (Option K))
  | heapHotUpdate (xid page oldSlot newSlot : ℕ) (header : TupleHeader) (values : List (Option K))
  | index (op : Op (Entry K))
  | txnCommit (xid : ℕ)
  | txnAbort (xid : ℕ)
  | checkpointBegin
  | checkpointEnd (checkpointLsn : ℕ)
  | page
  deriving DecidableEq

def Record.txnId : Record K → ℕ
  | .heapInsert xid .. | .heapDelete xid _ | .heapUpdate xid .. | .heapHotUpdate xid ..
  | .txnCommit xid | .txnAbort xid => xid
  | .extend _ | .index _ | .checkpointBegin | .checkpointEnd _ | .page => TxnId.invalid

def Record.ends : Record K → Option ℕ
  | .txnCommit xid | .txnAbort xid => some xid
  | _ => none

def recordSize (payload : ℕ) : ℕ := alignUp (walRecordHeaderSize + payload) 8

def recordOf (schema : Schema K) (e : Table K) : Engine.Step K → Option (Record K)
  | .act (.extend page) => some (.extend page)
  | .act _ => none
  | .insert xid page values => some (.heapInsert xid (e.history.heap.newTid page)
      (.new xid (e.history.command xid) false) values)
  | .update xid tid page values stale stamps =>
    let op := Heap.Op.update page (Table.hotEligible schema (e.values tid) values)
    let header := TupleHeader.new xid (e.history.command xid) (op.isHot tid)
    let newTid := e.history.heap.newTid page
    if e.history.Wrote xid tid op stale stamps then
      if op.isHot tid then
        some (.heapHotUpdate xid tid.pageId tid.slotId newTid.slotId header values)
      else some (.heapUpdate xid tid newTid header values)
    else none
  | .delete xid tid stale stamps =>
    if e.history.Wrote xid tid .delete stale stamps then some (.heapDelete xid tid) else none
  | .maintain xid =>
    match e.pending xid with
    | [] => none
    | op :: _ =>
      if schema.fits op.entry.key ∧ (op = .deleted op.entry → op.entry ∈ e.index) then
        some (.index op)
      else none
  | .commit xid => some (.txnCommit xid)
  | .beginAbort _ => none
  | .undo xid =>
    match Table.lastOf xid e.applied with
    | some (_,op,_) => some (.index op.inverse)
    | none => none
  | .abort xid => some (.txnAbort xid)

structure Superblock where
  checkpointLsn : ℕ
  nextTxnId : ℕ
  deriving DecidableEq

inductive Phase
  | idle
  | begun (b : ℕ)
  | sampled (b : ℕ)
  | ended (b nextTxnId : ℕ)
  | flushed (b nextTxnId : ℕ)
  deriving DecidableEq

/-- The table, the log with its durable part, the checkpoint under way and its files. -/
structure Server (K : Type) where
  table : Table K
  log : List (Item (Record K))
  durable : ℕ
  phase : Phase
  attFiles : ℕ → List ℕ
  superblock : Superblock

namespace Server

def nextLsn (s : Server K) : ℕ := RecordStream.stop Lsn.first s.log

def append (s : Server K) (payload : ℕ) (r : Record K) : Server K :=
  { s with log := s.log ++ [⟨s.nextLsn,recordSize payload,r⟩] }

def appendAll (s : Server K) (payload : ℕ) : Option (Record K) → Server K
  | none => s
  | some r => s.append payload r

end Server

inductive Step (K : Type)
  | table (a : Engine.Step K) (payload : ℕ)
  | page (payload : ℕ)
  | flush (n : ℕ)
  | checkpointBegin (payload : ℕ)
  | checkpointSample
  | checkpointEnd (payload : ℕ)
  | checkpointFlush
  | checkpointSuperblock
  | checkpointFail
  deriving DecidableEq

/-- A commit or a rollback waits for the end of a checkpoint. -/
def Blocked (s : Server K) : Engine.Step K → Prop
  | .commit _ | .abort _ => s.phase ≠ .idle
  | _ => False

instance (s : Server K) : (a : Engine.Step K) → Decidable (Blocked s a)
  | .commit _ | .abort _ => inferInstanceAs (Decidable (s.phase ≠ .idle))
  | .act _ | .insert .. | .update .. | .delete .. | .maintain _ | .beginAbort _ | .undo _ =>
    .isFalse id

/-- A commit flushes the log up to its record before the outcome shows. -/
def durableAfter (s : Server K) : Engine.Step K → ℕ
  | .commit _ => s.log.length
  | _ => s.durable

def step (schema : Schema K) (s : Server K) : Step K → Option (Server K)
  | .table a payload =>
    if payload ≤ u16Max ∧ ¬Blocked s a then
      (Engine.step schema s.table a).map fun e =>
        let t := ({ s with table := e }).appendAll payload (recordOf schema s.table a)
        { t with durable := durableAfter t a }
    else none
  | .page payload => if payload ≤ u16Max then some (s.append payload .page) else none
  | .flush n => if s.durable ≤ n ∧ n ≤ s.log.length then some { s with durable := n } else none
  | .checkpointBegin payload =>
    if s.phase = .idle ∧ payload ≤ u16Max then
      some { s.append payload .checkpointBegin with phase := .begun s.nextLsn }
    else none
  | .checkpointSample =>
    match s.phase with
    | .begun b => some { s with
        attFiles := Function.update s.attFiles b s.table.history.heap.manager.active
        phase := .sampled b }
    | _ => none
  | .checkpointEnd payload =>
    match s.phase with
    | .sampled b =>
      if payload ≤ u16Max then
        some { s.append payload (.checkpointEnd b) with
          phase := .ended b s.table.history.heap.manager.txnIdClock }
      else none
    | _ => none
  | .checkpointFlush =>
    match s.phase with
    | .ended b nextTxnId => some { s with durable := s.log.length, phase := .flushed b nextTxnId }
    | _ => none
  | .checkpointSuperblock =>
    match s.phase with
    | .flushed b nextTxnId => some { s with superblock := ⟨b,nextTxnId⟩, phase := .idle }
    | _ => none
  | .checkpointFail => some { s with phase := .idle }

def Start (s : Server K) : Prop :=
  Engine.Start s.table ∧ (∀ x, s.table.history.heap.manager.clog x = .inProgress) ∧ s.log = [] ∧
    s.durable = 0 ∧ s.phase = .idle ∧ s.superblock = ⟨Lsn.invalid,TxnId.first⟩

/-- The `pd_lsn` of the heap pages, of the table's page chain and of each entry's page. -/
structure PageLsns (K : Type) where
  page : ℕ → ℕ
  relation : ℕ
  entry : Entry K → ℕ

/-- What the data file and the commit log hold on disk. -/
structure Files (K : Type) where
  pages : ℕ → List TupleHeader
  values : Tid → List (Option K)
  relation : List ℕ
  index : List (Entry K)
  clog : ℕ → TxnState
  lsns : PageLsns K

/-- What a crash leaves. `stamps` are outcomes in the commit log without a record. -/
structure Disk (K : Type) where
  log : List (Item (Record K))
  attFiles : ℕ → List ℕ
  superblock : Superblock
  files : Files K
  stamps : List ℕ

def Server.crash (s : Server K) (n : ℕ) (files : Files K) : Disk K :=
  ⟨s.log.take n,s.attFiles,s.superblock,files,[]⟩

end EngineLog
end PgAm
