import PgAm.LockOrder
import PgAm.WaitGraph
import PgAm.Types

/-! Row waits and table locks together. A row wait registers its edge before the transaction goes
to sleep in `wait_for`; the deadlock detector reads the registry and the lock table and draws an
edge for each registered wait and for each queued request that conflicts with a granted mode. -/
namespace PgAm
namespace Lock

open Machine

/-- `waits` gives the blocker of a transaction in a row wait. -/
structure Waits where
  locks : Sys
  txnIdClock : ℕ
  active : List ℕ
  rowWaitRegistry : AList fun _ : ℕ => ℕ
  waits : ℕ → Option ℕ

namespace Waits

inductive Step
  | beginTxn
  | lock (a : Lock.Step)
  | registerRowWait (xid blocking : ℕ)
  | waitFor (xid : ℕ)
  | endTxn (xid : ℕ)
  deriving DecidableEq, Repr

def new : Waits := ⟨.new,TxnId.first,[],∅,fun _ => none⟩

def Start (s : Waits) : Prop := s = .new

def idle (s : Waits) (xid : ℕ) : Bool := (s.locks.calls xid).isNone && (s.waits xid).isNone

def register (s : Waits) (xid blocking : ℕ) : Waits :=
  { s with
    rowWaitRegistry := s.rowWaitRegistry.insert xid blocking
    waits := Function.update s.waits xid (some blocking) }

def unregister (s : Waits) (xid : ℕ) : Waits :=
  { s with
    rowWaitRegistry := s.rowWaitRegistry.erase xid
    waits := Function.update s.waits xid none }

/-- A round of `wait_for`: the waiter would wait for itself, is a victim, is free, or sleeps. -/
def waitFor (s : Waits) (xid blocking : ℕ) : Waits :=
  if xid = blocking then s.unregister xid
  else if xid ∈ s.locks.manager.deadlockVictims then
    { s.unregister xid with locks := { s.locks with manager := s.locks.manager.clear xid } }
  else if blocking ∉ s.active then s.unregister xid
  else s

def caller : Lock.Step → Option ℕ
  | .acquire xid _ _ | .tryAcquire xid _ _ | .releaseAll xid => some xid
  | .wake _ | .mark _ | .clear _ => none

def step (s : Waits) : Step → Option Waits
  | .beginTxn => some { s with active := s.txnIdClock :: s.active, txnIdClock := s.txnIdClock + 1 }
  | .lock a =>
    if (caller a).all fun xid => (s.waits xid).isNone then
      (s.locks.step a).map fun locks => { s with locks }
    else none
  | .registerRowWait xid blocking =>
    if s.idle xid then some (s.register xid blocking) else none
  | .waitFor xid => (s.waits xid).map (s.waitFor xid)
  | .endTxn xid =>
    if s.idle xid then
      some { s with
        locks := { s.locks with manager := s.locks.manager.clear xid }
        active := s.active.filter fun x => decide (x ≠ xid) }
    else none

end Waits

structure TableLockState where
  granted : List (ℕ × LockMode)
  waiters : List (ℕ × LockMode)

def LockManager.tableLockStates (s : LockManager) : List TableLockState :=
  (s.entries.entries.filter fun g => !g.2.waitQueue.isEmpty).map fun g =>
    ⟨g.2.granted.entries.map fun h => (h.1,h.2),g.2.waitQueue.map fun w => (w.xid,w.mode)⟩

/-- The hard edges of one table: from a waiter to the holders that it conflicts with. -/
def TableLockState.edges (state : TableLockState) : List (ℕ × ℕ) :=
  state.waiters.flatMap fun w =>
    (state.granted.filter fun g => decide (g.1 ≠ w.1) && g.2.conflictsWith w.2).map
      fun g => (w.1,g.1)

namespace Waits

def waitEdges (s : Waits) : List (ℕ × ℕ) := s.rowWaitRegistry.entries.map fun g => (g.1,g.2)

/-- The wait-for graph: the edges of both sources, sorted and without repetitions. -/
def waitForEdges (s : Waits) : List (ℕ × ℕ) :=
  ((s.waitEdges ++ s.locks.manager.tableLockStates.flatMap TableLockState.edges).insertionSort
    fun a b => a.1 < b.1 ∨ a.1 = b.1 ∧ a.2 ≤ b.2).dedup

theorem mem_waitEdges {s : Waits} {x y : ℕ} :
    (x,y) ∈ s.waitEdges ↔ s.rowWaitRegistry.lookup x = some y := by
  rw [waitEdges,← Option.mem_def,AList.mem_lookup_iff]
  simp only [List.mem_map,Prod.mk.injEq]
  constructor
  · rintro ⟨⟨a,b⟩,hg,rfl,rfl⟩
    exact hg
  · intro hg
    exact ⟨_,hg,rfl,rfl⟩

def TableEdge (e : LockEntry) (x y : ℕ) : Prop :=
  ∃ w ∈ e.waitQueue, w.xid = x ∧ ∃ held, e.granted.lookup y = some held ∧ y ≠ x ∧
    held.conflictsWith w.mode = true

theorem mem_edges {e : LockEntry} {x y : ℕ} :
    (x,y) ∈ TableLockState.edges ⟨e.granted.entries.map fun h => (h.1,h.2),
      e.waitQueue.map fun w => (w.xid,w.mode)⟩ ↔ TableEdge e x y := by
  simp only [TableLockState.edges,List.mem_flatMap,List.mem_map,List.mem_filter,Bool.and_eq_true,
    decide_eq_true_eq,TableEdge]
  constructor
  · rintro ⟨_,⟨w,hw,rfl⟩,_,⟨⟨⟨z,held⟩,hg,rfl⟩,hne,hc⟩,he⟩
    cases he
    exact ⟨w,hw,rfl,held,AList.mem_lookup_iff.2 hg,hne,hc⟩
  · rintro ⟨w,hw,rfl,held,hg,hne,hc⟩
    exact ⟨_,⟨w,hw,rfl⟩,(y,held),⟨⟨⟨y,held⟩,AList.mem_lookup_iff.1 hg,rfl⟩,hne,hc⟩,rfl⟩

theorem mem_waitForEdges {s : Waits} {x y : ℕ} : (x,y) ∈ s.waitForEdges ↔
    s.rowWaitRegistry.lookup x = some y ∨ ∃ t, TableEdge (s.locks.entry t) x y := by
  rw [waitForEdges,List.mem_dedup,List.mem_insertionSort,List.mem_append,mem_waitEdges,
    List.mem_flatMap]
  refine or_congr_right ?_
  simp only [LockManager.tableLockStates,List.mem_map,List.mem_filter]
  constructor
  · rintro ⟨_,⟨⟨t,e⟩,⟨he,-⟩,rfl⟩,hxy⟩
    refine ⟨t,?_⟩
    rw [Sys.entry,LockManager.entry_of_lookup (AList.mem_lookup_iff.2 he)]
    exact mem_edges.1 hxy
  · rintro ⟨t,hxy⟩
    cases hl : s.locks.manager.entries.lookup t with
    | none =>
      obtain ⟨w,hw,-⟩ := hxy
      rw [Sys.entry,LockManager.entry_of_none hl] at hw
      cases hw
    | some e =>
      rw [Sys.entry,LockManager.entry_of_lookup hl] at hxy
      refine ⟨_,⟨⟨t,e⟩,⟨AList.mem_lookup_iff.1 hl,?_⟩,rfl⟩,mem_edges.2 hxy⟩
      obtain ⟨w,hw,-⟩ := hxy
      cases hq : e.waitQueue with
      | nil =>
        rw [hq] at hw
        cases hw
      | cons => simp

end Waits
end Lock
end PgAm
