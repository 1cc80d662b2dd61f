import PgAm.HeapScan
import PgAm.RowLock
import PgAm.SnapshotIsolation
import PgAm.VersionChain

/-! Statements over the heap. A statement takes the next command number, scans with its
transaction's snapshot, and then inserts rows and deletes, updates or locks tuples. The
history records which write created and which one ended each version of a logical row. -/
namespace PgAm
namespace HeapHistory

open Machine Heap Function

/-- The row, named by its inserted tuple, the version written to and the version created. -/
structure Write where
  xid : ℕ
  cid : ℕ
  row : Tid
  old : Option Tid
  new : Option Tid
  deriving DecidableEq

/-- The heap, the snapshots with the commits completed before them, what each transaction's
statement has scanned and written, and all writes in their order. -/
structure History where
  heap : Sys
  completed : List ℕ
  taken : List (Snapshot × List ℕ)
  command : ℕ → ℕ
  scanned : ℕ → List Tid
  written : ℕ → List Tid
  writes : List Write
  row : Tid → Tid

namespace History

def view (h : History) : SnapshotIsolation.History := ⟨h.heap.manager,h.completed,h.taken⟩

def snapshotOf (h : History) (xid : ℕ) : Option (Snapshot × List ℕ) :=
  h.taken.find? fun p => p.1.currentXid = xid

def Wrote (h : History) (xid : ℕ) (tid : Tid) (op : Op) (stale : List ℕ) (stamps : Bool) : Prop :=
  (h.heap.gate xid tid op stale).1 = .ok .proceed ∧ stamps = true ∧ op.request = .writer

instance (h : History) (xid : ℕ) (tid : Tid) (op : Op) (stale : List ℕ) (stamps : Bool) :
    Decidable (h.Wrote xid tid op stale stamps) := inferInstanceAs (Decidable (_ ∧ _))

def newVersion (h : History) (op : Op) : Option Tid := op.newPage.map h.heap.newTid

/-- Record a write with the heap after it; a new version belongs to the row of the old one. -/
def wrote (h : History) (heap : Sys) (w : Write) : History :=
  { h with
    heap := heap
    writes := h.writes ++ [w]
    row := w.new.elim h.row fun v => update h.row v w.row
    written := w.old.elim h.written fun tid =>
      update h.written w.xid (tid :: h.written w.xid) }

end History

inductive Act
  | manager (a : Manager.Step)
  | extend (page : ℕ)
  | take (xid : ℕ)
  | statement (xid : ℕ)
  | insert (xid page : ℕ)
  | pass (xid : ℕ) (tid : Tid) (op : Op) (stale : List ℕ) (stamps : Bool)
  deriving DecidableEq

/-- A new statement: the command counter goes up, then the scan runs. -/
def History.statement (h : History) (xid : ℕ) (out : List Tid) : History :=
  { h with
    command := update h.command xid (h.command xid + 1)
    scanned := update h.scanned xid out
    written := update h.written xid [] }

def step (h : History) : Act → Option History
  | .manager a => (Heap.step h.heap (.manager a)).map fun s => { h with
      heap := s, completed := SnapshotIsolation.nextCompleted h.view a }
  | .extend page => (Heap.step h.heap (.extend page)).map fun s => { h with heap := s }
  | .take xid =>
    if h.heap.Live xid ∧ h.snapshotOf xid = none then
      some { h with taken := (h.heap.manager.snapshot xid,h.completed) :: h.taken }
    else none
  | .statement xid =>
    match h.snapshotOf xid with
    | none => none
    | some (snap,_) =>
      if h.heap.Live xid then
        match h.heap.scan { snap with curcid := h.command xid + 1 } with
        | .ok out => some (h.statement xid out)
        | .error _ => none
      else none
  | .insert xid page =>
    if 1 ≤ h.command xid then
      (Heap.step h.heap (.insert xid (h.command xid) page)).map fun s =>
        let tid := h.heap.newTid page
        h.wrote s ⟨xid,h.command xid,tid,none,some tid⟩
    else none
  | .pass xid tid op stale stamps =>
    (Heap.step h.heap (.pass xid (h.command xid) tid op stale stamps)).map fun s =>
      if h.Wrote xid tid op stale stamps then
        h.wrote s ⟨xid,h.command xid,h.row tid,some tid,h.newVersion op⟩
      else { h with heap := s }

variable {h t : History} {a : Act} {xid : ℕ}

theorem step_manager {a : Manager.Step} (hs : step h (.manager a) = some t) :
    ∃ m, h.heap.manager.step a = some m ∧ { h with
      heap := { h.heap with manager := m }
      completed := SnapshotIsolation.nextCompleted h.view a } = t := by
  obtain ⟨s,hheap,rfl⟩ := Option.map_eq_some_iff.1 hs
  obtain ⟨m,hm,rfl⟩ := Option.map_eq_some_iff.1 hheap
  exact ⟨m,hm,rfl⟩

theorem step_statement (hs : step h (.statement xid) = some t) :
    ∃ p out, h.snapshotOf xid = some p ∧ h.heap.Live xid ∧
      h.heap.scan { p.1 with curcid := h.command xid + 1 } = .ok out ∧ h.statement xid out = t := by
  simp only [step] at hs
  split at hs
  · cases hs
  obtain ⟨hlive,hs⟩ := Option.ite_none_right_eq_some.1 hs
  split at hs <;> cases hs
  exact ⟨_,_,‹_›,hlive,‹_›,rfl⟩

theorem step_aside (hs : step h a = some t) (ha : match a with
      | .extend _ | .take _ | .statement _ => True
      | _ => False) : t.writes = h.writes ∧ (∀ tid, t.heap.tuple tid = h.heap.tuple tid) ∧
      t.row = h.row ∧ t.heap.manager = h.heap.manager := by
  cases a with
  | extend page =>
    obtain ⟨s,hheap,rfl⟩ := Option.map_eq_some_iff.1 hs
    obtain ⟨-,rfl⟩ := of_guard hheap
    exact ⟨rfl,fun _ => rfl,rfl,rfl⟩
  | take xid =>
    obtain ⟨-,rfl⟩ := of_guard hs
    exact ⟨rfl,fun _ => rfl,rfl,rfl⟩
  | statement xid =>
    obtain ⟨p,out,-,-,-,rfl⟩ := step_statement hs
    exact ⟨rfl,fun _ => rfl,rfl,rfl⟩
  | manager | insert | pass => exact ha.elim

def Start (h : History) : Prop :=
  SnapshotIsolation.Start h.view ∧ h.heap.relation = [] ∧ (∀ page, h.heap.pages page = []) ∧
    (∀ xid, h.command xid = 0) ∧ (∀ xid, h.scanned xid = []) ∧ h.writes = []

/-- Deletes and updates address what the statement's scan returned. -/
def WritesScanned (h : History) : Act → Prop
  | .pass xid tid op _ _ => op.request = .writer → tid ∈ h.scanned xid
  | _ => True

def WritesOnce (h : History) : Act → Prop
  | .pass xid tid op _ _ => op.request = .writer → tid ∈ h.scanned xid ∧ tid ∉ h.written xid
  | _ => True

/-- All calls address what the statement's scan returned, and each tuple is written once. -/
def Disciplined (h : History) : Act → Prop
  | .pass xid tid op _ _ => tid ∈ h.scanned xid ∧ (op.request = .writer → tid ∉ h.written xid)
  | _ => True

/-- Its own earlier commands and the commits completed before the snapshot. -/
def counts (snap : Snapshot) (done : List ℕ) (w : Write) : Bool :=
  if w.xid = snap.currentXid then w.cid < snap.curcid else w.xid ∈ done

/-- The newest version of a row in the state of the counted writes. -/
def History.rowVersion (h : History) (snap : Snapshot) (done : List ℕ) (r : Tid) : Option Tid :=
  VersionChain.current Write.new (counts snap done) (h.writes.filter fun w => w.row = r)

end HeapHistory
end PgAm
