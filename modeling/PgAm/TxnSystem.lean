import PgAm.Machine
import PgAm.Types

/-! Transactions, checkpoints and recovery as far as transaction outcomes go. The
WAL is a list of records of which a leading part is durable; the record with index
`i` has position `i + 1`, and position 0 is invalid. The commit log keeps what is
cached, what was written to its files and what a sync has covered. -/
namespace PgAm

inductive TxnState
  | inProgress
  | committed
  | aborted
  | subCommitted
  deriving DecidableEq, Repr

namespace Clog

def clogPageBytes : ℕ := 8192
def xidsPerClogPage : ℕ := clogPageBytes * 2
def xidsPerSegment : ℕ := 268435456

def pageNoOfXid (xid : ℕ) : ℕ := xid / xidsPerClogPage
def segmentIdOfXid (xid : ℕ) : ℕ := xid / xidsPerSegment

end Clog

namespace TxnSystem

inductive Outcome
  | commit
  | abort
  deriving DecidableEq, Repr

/-- `other` is any record for data, stamped with its transaction (0 for none). -/
inductive Rec
  | txnCommit (xid : ℕ)
  | txnAbort (xid : ℕ)
  | other (txnId : ℕ)
  | checkpointBegin
  | checkpointEnd (checkpointLsn nextTxnId : ℕ)
  deriving DecidableEq, Repr

def Rec.txnId : Rec → ℕ
  | .txnCommit xid | .txnAbort xid | .other xid => xid
  | .checkpointBegin | .checkpointEnd .. => TxnId.invalid

def Outcome.state : Outcome → TxnState
  | .commit => .committed
  | .abort => .aborted

def Outcome.record : Outcome → ℕ → Rec
  | .commit => .txnCommit
  | .abort => .txnAbort

@[simp] theorem Outcome.record_txnId (o : Outcome) (xid : ℕ) : (o.record xid).txnId = xid := by
  cases o <;> rfl

/-- The commit log: the buffer's view, the segment files, and their synced content. -/
structure Clog where
  mem : ℕ → TxnState
  file : ℕ → TxnState
  stable : ℕ → TxnState

namespace Clog

def getState (c : Clog) (xid : ℕ) : TxnState :=
  if xid = TxnId.invalid then .inProgress else c.mem xid

def setState (c : Clog) (xid : ℕ) (st : TxnState) : Clog :=
  if xid = TxnId.invalid then c else { c with mem := Function.update c.mem xid st }

def writePage (c : Clog) (page : ℕ) : Clog :=
  { c with file := fun x => if Clog.pageNoOfXid x = page then c.mem x else c.file x }

def syncSegment (c : Clog) (segment : ℕ) : Clog :=
  { c with stable := fun x => if Clog.segmentIdOfXid x = segment then c.file x else c.stable x }

def flushDirty (c : Clog) : Clog := ⟨c.mem,c.mem,c.mem⟩

/-- The files found after a crash; the buffer starts from them. -/
def crash (c : Clog) (keep : ℕ → Bool) : Clog :=
  let file := fun x => if keep x then c.file x else c.stable x
  ⟨file,file,c.stable⟩

end Clog

structure Superblock where
  checkpointLsn : ℕ
  nextTxnId : ℕ
  deriving DecidableEq

/-- Progress of `commit_txn` or `abort_txn` of one transaction. -/
inductive Call
  | running
  | holding (o : Outcome)
  | appended (o : Outcome) (lsn : ℕ)
  | flushed (o : Outcome)
  | stateSet (o : Outcome)
  | ended
  deriving DecidableEq

/-- From `locked` on it holds the barrier's write guard; `begin` is the position of its record. -/
inductive Checkpoint
  | idle
  | locked
  | begun (begin : ℕ)
  | snapshotWritten (begin : ℕ)
  | clogFlushed (begin : ℕ)
  | sampled (begin nextTxnId : ℕ)
  | endAppended (begin nextTxnId endLsn : ℕ)
  | endFlushed (begin nextTxnId : ℕ)
  | superblockWritten (begin : ℕ)
  deriving DecidableEq

/-- Running, stopped, replaying with the analysis result, or stamping losers. -/
inductive Mode
  | running
  | down
  | replaying (pos : ℕ) (att : List ℕ) (maxTxnId : ℕ)
  | undoing (att : List ℕ) (maxTxnId : ℕ)
  deriving DecidableEq

structure Sys where
  log : List Rec
  synced : ℕ
  oldest : ℕ
  poisoned : Bool
  clog : Clog
  superblock : Superblock
  attFiles : ℕ → List ℕ
  txnIdClock : ℕ
  active : List ℕ
  calls : ℕ → Option Call
  readers : List ℕ
  checkpoint : Checkpoint
  mode : Mode

/-- Index in the log at which replay starts; an invalid checkpoint means the beginning. -/
def redoStart (s : Sys) : ℕ := s.superblock.checkpointLsn - 1

def findLatestCheckpointEnd (rs : List Rec) : Option ℕ :=
  rs.foldl (fun latest r => match r with
    | .checkpointEnd lsn _ => some lsn
    | _ => latest) none

def analyze (att : List ℕ) : Rec → List ℕ
  | .txnCommit xid | .txnAbort xid => att.filter (· ≠ xid)
  | .other xid => if xid = TxnId.invalid ∨ xid ∈ att then att else xid :: att
  | .checkpointBegin | .checkpointEnd .. => att

/-- The snapshot of the superblock's checkpoint if that is the latest, then the later records. -/
def runAnalysis (s : Sys) : List ℕ :=
  let rs := s.log.drop (redoStart s)
  let baseline := match findLatestCheckpointEnd rs with
    | some lsn => if lsn = s.superblock.checkpointLsn then s.attFiles lsn else []
    | none => []
  rs.foldl analyze baseline

def redo (c : Clog) : Rec → Clog
  | .txnCommit xid => c.setState xid .committed
  | .txnAbort xid => c.setState xid .aborted
  | _ => c

/-- With a fault the writer is poisoned; `some true`: the record reached the file all the same. -/
def append (s : Sys) (r : Rec) (fault : Option Bool) : Option ℕ × Sys :=
  if s.poisoned then (none,s)
  else match fault with
    | none => (some (s.log.length + 1),{ s with log := s.log ++ [r] })
    | some left =>
      (none,{ s with poisoned := true, log := if left then s.log ++ [r] else s.log })

def setCall (s : Sys) (xid : ℕ) (c : Call) : Sys :=
  { s with calls := Function.update s.calls xid (some c) }

/-- Leave `commit_txn` or `abort_txn` with an error: the guard goes, the transaction
stays active. -/
def failCall (s : Sys) (xid : ℕ) : Sys :=
  { setCall s xid .running with readers := s.readers.filter (· ≠ xid) }

/-- A fault of an append is as in `append`; a `Bool` says whether the operation succeeds. -/
inductive Step
  | beginTxn
  | log (txnId : ℕ) (fault : Option Bool)
  | startEnd (xid : ℕ) (o : Outcome)
  | appendEnd (xid : ℕ) (fault : Option Bool)
  | flushEnd (xid : ℕ) (ok : Bool)
  | setState (xid : ℕ)
  | leaveActive (xid : ℕ)
  | walSync (n : ℕ)
  | clogWriteback (page : ℕ)
  | checkpointLock
  | checkpointBegin (fault : Option Bool)
  | checkpointSnapshot
  | checkpointClogFlush
  | checkpointClogFail (pages segments : List ℕ)
  | checkpointSample
  | checkpointEnd (fault : Option Bool)
  | checkpointEndFlush (ok : Bool)
  | checkpointSuperblock (written ok : Bool)
  | checkpointRecycle (n : ℕ)
  | checkpointAbort
  | crash (n : ℕ) (keep : ℕ → Bool)
  | openWal
  | replay
  | replayDone
  | undo
  | finish

def stepTxn (s : Sys) : Step → Option Sys
  | .beginTxn =>
    let xid := s.txnIdClock
    some (setCall { s with txnIdClock := xid + 1, active := xid :: s.active } xid .running)
  | .log txnId fault =>
    if txnId = TxnId.invalid ∨ s.calls txnId = some .running then
      some (append s (.other txnId) fault).2
    else none
  | .startEnd xid o =>
    if s.calls xid = some .running ∧ s.checkpoint = .idle then
      some { setCall s xid (.holding o) with readers := xid :: s.readers }
    else none
  | .appendEnd xid fault =>
    match s.calls xid with
    | some (.holding o) =>
      match append s (o.record xid) fault with
      | (some lsn,s) => some (setCall s xid (.appended o lsn))
      | (none,s) => some (failCall s xid)
    | _ => none
  | .flushEnd xid ok =>
    match s.calls xid with
    | some (.appended o lsn) =>
      if ok then if lsn ≤ s.synced then some (setCall s xid (.flushed o)) else none
      else some (failCall { s with poisoned := true } xid)
    | _ => none
  | .setState xid =>
    match s.calls xid with
    | some (.flushed o) =>
      some (setCall { s with clog := s.clog.setState xid o.state } xid (.stateSet o))
    | _ => none
  | .leaveActive xid =>
    match s.calls xid with
    | some (.stateSet _) =>
      some { setCall s xid .ended with
        active := s.active.filter (· ≠ xid), readers := s.readers.filter (· ≠ xid) }
    | _ => none
  | _ => none

def stepCheckpoint (s : Sys) : Step → Option Sys
  | .checkpointLock =>
    if s.checkpoint = .idle ∧ s.readers = [] then some { s with checkpoint := .locked } else none
  | .checkpointBegin fault =>
    if s.checkpoint = .locked then
      match append s .checkpointBegin fault with
      | (some lsn,s) => some { s with checkpoint := .begun lsn }
      | (none,s) => some { s with checkpoint := .idle }
    else none
  | .checkpointSnapshot =>
    match s.checkpoint with
    | .begun b => some { s with
        attFiles := Function.update s.attFiles b s.active, checkpoint := .snapshotWritten b }
    | _ => none
  | .checkpointClogFlush =>
    match s.checkpoint with
    | .snapshotWritten b => some { s with clog := s.clog.flushDirty, checkpoint := .clogFlushed b }
    | _ => none
  | .checkpointClogFail pages segments =>
    match s.checkpoint with
    | .snapshotWritten _ => some { s with
        clog := segments.foldl Clog.syncSegment (pages.foldl Clog.writePage s.clog)
        checkpoint := .idle }
    | _ => none
  | .checkpointSample =>
    match s.checkpoint with
    | .clogFlushed b => some { s with checkpoint := .sampled b s.txnIdClock }
    | _ => none
  | .checkpointEnd fault =>
    match s.checkpoint with
    | .sampled b n =>
      match append s (.checkpointEnd b n) fault with
      | (some lsn,s) => some { s with checkpoint := .endAppended b n lsn }
      | (none,s) => some { s with checkpoint := .idle }
    | _ => none
  | .checkpointEndFlush ok =>
    match s.checkpoint with
    | .endAppended b n lsn =>
      if ok then if lsn ≤ s.synced then some { s with checkpoint := .endFlushed b n } else none
      else some { s with poisoned := true, checkpoint := .idle }
    | _ => none
  | .checkpointSuperblock written ok =>
    match s.checkpoint with
    | .endFlushed b n =>
      if ok then some { s with superblock := ⟨b,n⟩, checkpoint := .superblockWritten b }
      else some { s with
        superblock := if written then ⟨b,n⟩ else s.superblock, checkpoint := .idle }
    | _ => none
  | .checkpointRecycle n =>
    match s.checkpoint with
    | .superblockWritten b =>
      if s.oldest ≤ n ∧ n < b then some { s with oldest := n, checkpoint := .idle } else none
    | _ => none
  | .checkpointAbort =>
    if s.checkpoint = .idle then none else some { s with checkpoint := .idle }
  | _ => none

def stepRecovery (s : Sys) : Step → Option Sys
  | .openWal =>
    if s.mode = .down ∧ s.oldest ≤ redoStart s then
      let s := { s with synced := s.log.length }
      some { s with mode := .replaying (redoStart s) (runAnalysis s) TxnId.invalid }
    else none
  | .replay =>
    match s.mode with
    | .replaying pos att m =>
      match s.log[pos]? with
      | some r => some { s with
          clog := redo s.clog r, mode := .replaying (pos + 1) att (max m r.txnId) }
      | none => none
    | _ => none
  | .replayDone =>
    match s.mode with
    | .replaying pos att m =>
      if pos = s.log.length then
        some { s with mode := .undoing (att.filter fun x => s.clog.getState x ≠ .committed ∧
          s.clog.getState x ≠ .aborted) m }
      else none
    | _ => none
  | .undo =>
    match s.mode with
    | .undoing (x :: att) m =>
      some { s with clog := s.clog.setState x .aborted, mode := .undoing att m }
    | _ => none
  | .finish =>
    match s.mode with
    | .undoing [] m => some { s with
        txnIdClock := if m = TxnId.invalid then s.superblock.nextTxnId
          else max s.superblock.nextTxnId (m + 1)
        mode := .running }
    | _ => none
  | _ => none

def step (s : Sys) : Step → Option Sys
  | .walSync n => if s.synced ≤ n ∧ n ≤ s.log.length then some { s with synced := n } else none
  | .clogWriteback page => some { s with clog := s.clog.writePage page }
  | .crash n keep =>
    if s.synced ≤ n ∧ n ≤ s.log.length then some { s with
      log := s.log.take n, poisoned := false, clog := s.clog.crash keep, active := []
      calls := fun _ => none, readers := [], checkpoint := .idle, mode := .down }
    else none
  | a =>
    match s.mode with
    | .running => (stepTxn s a).or (stepCheckpoint s a)
    | .undoing .. =>
      match a with
      | .log 0 fault => some (append s (.other 0) fault).2
      | _ => stepRecovery s a
    | _ => stepRecovery s a

def fresh : Sys where
  log := []
  synced := 0
  oldest := 0
  poisoned := false
  clog := ⟨fun _ => .inProgress,fun _ => .inProgress,fun _ => .inProgress⟩
  superblock := ⟨Lsn.invalid,TxnId.first⟩
  attFiles := fun _ => []
  txnIdClock := TxnId.first
  active := []
  calls := fun _ => none
  readers := []
  checkpoint := .idle
  mode := .running

/-- What recovery must deliver: the durable terminal records decide what is read. -/
def Outcomes (s : Sys) : Prop :=
  ∀ xid, (Rec.txnCommit xid ∈ s.log.take s.synced → s.clog.getState xid = .committed) ∧
    (Rec.txnAbort xid ∈ s.log.take s.synced → s.clog.getState xid = .aborted) ∧
    (s.clog.getState xid = .committed → Rec.txnCommit xid ∈ s.log.take s.synced)

end TxnSystem
end PgAm
