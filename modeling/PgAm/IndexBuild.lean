import PgAm.IndexAgreement

/-! Building an index while the table is in use. `create_index` is one auto-commit transaction
that holds the table's exclusive lock; writers hold the row-exclusive lock until they have ended.
The registry of indexes, which a row operation reads when it starts, gets the new index only after
the transaction of the build has released its lock. -/
namespace PgAm
namespace IndexBuild

open Machine Heap
open HeapHistory (History)
open Engine (Table Entry Schema)
open UndoLog (Op)

/-- How far `create_index` has come, with what it has read. -/
inductive Stage (K : Type)
  | waiting
  | locked
  | scanning (snap : Snapshot)
  | loaded (entries : List (Entry K))
  | committed (entries : List (Entry K))
  | left (entries : List (Entry K))
  | released (entries : List (Entry K))
  | failed (locked : Bool)
  | aborted (locked : Bool)
  | abandoned (locked : Bool)
  deriving DecidableEq

variable {K : Type}

def Stage.exclusive : Stage K → Bool
  | .locked | .scanning _ | .loaded _ | .committed _ | .left _ => true
  | .failed held | .aborted held | .abandoned held => held
  | .waiting | .released _ => false

structure Build (K : Type) where
  xid : ℕ
  column : ℕ
  stage : Stage K
  deriving DecidableEq

/-- `rowLocks` hold the row-exclusive lock, `known` is the registry as a row operation has read
it. -/
structure Db (K : Type) where
  table : Table K
  schema : Schema K
  width : ℕ
  rowLocks : List ℕ
  known : ℕ → Option (Schema K)
  build : Option (Build K)

def addColumn (schema : Schema K) (c : ℕ) : Schema K :=
  if h : c ∈ schema.columns then schema
  else ⟨schema.columns ++ [c],List.nodup_append.2 ⟨schema.nodup,List.nodup_singleton c,
    fun _ ha _ hb hab => h (List.mem_singleton.1 hb ▸ hab ▸ ha)⟩,schema.fits⟩

inductive BuildError
  | heap (err : HeapError)
  | keyTooLarge
  deriving DecidableEq

/-- The entry of a row of the build's scan: it is filed under the root of the row's chain. -/
def rowEntry (fits : K → Bool) (e : Table K) (column : ℕ) (tid : Tid) :
    Except BuildError (Option (Entry K)) :=
  match (e.values tid)[column]?.join with
  | none => .ok none
  | some key =>
    match e.history.heap.hotChainRoot tid with
    | .error err => .error (.heap err)
    | .ok indexTid => if fits key then .ok (some ⟨column,key,indexTid⟩) else .error .keyTooLarge

def buildEntries (fits : K → Bool) (e : Table K) (column : ℕ) (rows : List Tid) :
    Except BuildError (List (Entry K)) :=
  (rows.mapM (rowEntry fits e column)).map fun found => found.filterMap id

inductive Step (K : Type)
  | engine (a : Engine.Step K)
  | lock (xid : ℕ)
  | start (xid : ℕ)
  | address (xid : ℕ) (tid : Tid)
  | release (xid : ℕ)
  | createIndex (column : ℕ)
  | buildLock
  | buildSnapshot
  | buildLoad
  | buildEnd
  | buildLeave
  | buildRelease
  | buildPush
  | buildFail
  deriving DecidableEq

namespace Db

/-- The registry that a step works with; writers and lockers of rows hold the row-exclusive lock. -/
def registry (d : Db K) : Engine.Step K → Option (Schema K)
  | .insert xid .. | .update xid .. | .delete xid .. =>
    if xid ∈ d.rowLocks then d.known xid else none
  | .act (.pass xid ..) => if xid ∈ d.rowLocks then some d.schema else none
  | _ => some d.schema

def knownAfter (d : Db K) (a : Engine.Step K) (e : Table K) : ℕ → Option (Schema K) :=
  if e.history.writes = d.table.history.writes then d.known
  else a.actor.elim d.known fun xid => Function.update d.known xid none

def withHistory (d : Db K) (h : History) : Db K := { d with table := { d.table with history := h } }

/-- The caller of `update` or `delete` names the row by any TID. -/
def address (d : Db K) (xid : ℕ) (tid : Tid) : Db K :=
  let h := d.table.history
  d.withHistory { h with scanned := Function.update h.scanned xid ((h.scanned xid).insert tid) }

def advance (d : Db K) (b : Build K) (stage : Stage K) : Db K :=
  { d with build := some { b with stage := stage } }

variable [DecidableEq K]

def register (d : Db K) (column : ℕ) (entries : List (Entry K)) : Db K :=
  { d with
    table := { d.table with
      index := entries.foldl (fun s a => (Op.inserted a).run s) d.table.index }
    schema := addColumn d.schema column
    build := none }

def stepBuild (d : Db K) (b : Build K) : Step K → Option (Db K)
  | .buildLock =>
    match b.stage with
    | .waiting => if d.rowLocks = [] then some (d.advance b .locked) else none
    | _ => none
  | .buildSnapshot =>
    match b.stage with
    | .locked => some (d.advance b
        (.scanning (d.table.history.heap.manager.snapshot b.xid).advanceCurcid))
    | _ => none
  | .buildLoad =>
    match b.stage with
    | .scanning snap =>
      match d.table.history.heap.scan snap with
      | .error _ => some (d.advance b (.failed true))
      | .ok rows =>
        match buildEntries d.schema.fits d.table b.column rows with
        | .error _ => some (d.advance b (.failed true))
        | .ok entries => some (d.advance b (.loaded entries))
    | _ => none
  | .buildEnd =>
    match b.stage with
    | .loaded entries =>
      (HeapHistory.step d.table.history (.manager (.setState b.xid .commit))).map fun h =>
        (d.withHistory h).advance b (.committed entries)
    | .failed held =>
      (HeapHistory.step d.table.history (.manager (.setState b.xid .abort))).map fun h =>
        (d.withHistory h).advance b (.aborted held)
    | _ => none
  | .buildLeave =>
    match b.stage with
    | .committed entries =>
      (HeapHistory.step d.table.history (.manager (.leaveActive b.xid))).map fun h =>
        (d.withHistory h).advance b (.left entries)
    | .aborted held =>
      (HeapHistory.step d.table.history (.manager (.leaveActive b.xid))).map fun h =>
        (d.withHistory h).advance b (.abandoned held)
    | _ => none
  | .buildRelease =>
    match b.stage with
    | .left entries => some (d.advance b (.released entries))
    | .abandoned _ => some { d with build := none }
    | _ => none
  | .buildPush =>
    match b.stage with
    | .released entries => some (d.register b.column entries)
    | _ => none
  | .buildFail =>
    match b.stage with
    | .waiting => some (d.advance b (.failed false))
    | .locked | .scanning _ | .loaded _ => some (d.advance b (.failed true))
    | _ => none
  | _ => none

end Db

open Db

variable [DecidableEq K]

def step (d : Db K) : Step K → Option (Db K)
  | .engine a =>
    if (∃ b ∈ d.build, a.actor = some b.xid) ∨ ∃ values ∈ a.values, values.length ≠ d.width then
      none
    else match d.registry a with
      | none => none
      | some schema => (Engine.step schema d.table a).map fun e =>
          { d with table := e, known := d.knownAfter a e }
  | .lock xid =>
    if d.table.history.heap.Live xid ∧ ∀ b ∈ d.build, b.xid ≠ xid ∧ b.stage.exclusive = false then
      some { d with rowLocks := xid :: d.rowLocks }
    else none
  | .start xid =>
    if xid ∈ d.rowLocks ∧ d.table.Idle xid ∧ d.table.history.heap.Live xid then
      some { d with known := Function.update d.known xid (some d.schema) }
    else none
  | .address xid tid =>
    if d.table.Idle xid ∧ d.table.history.heap.Live xid then some (d.address xid tid) else none
  | .release xid =>
    if xid ∉ d.table.history.heap.manager.active then
      some { d with
        rowLocks := d.rowLocks.filter (· ≠ xid)
        known := Function.update d.known xid none }
    else none
  | .createIndex column =>
    if d.build = none ∧ column < d.width ∧ column ∉ d.schema.columns then
      (HeapHistory.step d.table.history (.manager .beginTxn)).map fun h =>
        { d.withHistory h with
          build := some ⟨d.table.history.heap.manager.txnIdClock,column,.waiting⟩ }
    else none
  | a => d.build.bind fun b => d.stepBuild b a

def Start (d : Db K) : Prop :=
  Engine.Start d.table ∧ d.schema.columns = [] ∧ d.rowLocks = [] ∧ (∀ x, d.known x = none) ∧
    d.build = none

/-- The lock of the build is released and the new index not yet registered. -/
def Unregistered (d : Db K) : Prop := ∃ b ∈ d.build, ∃ entries, b.stage = .released entries

/-- No row operation starts before the new index is registered, row operations address what their
scan has returned, and a transaction with a failed statement is rolled back. -/
def Ordered (d : Db K) : Step K → Prop
  | .start _ => ¬Unregistered d
  | .address xid tid => tid ∈ d.table.history.scanned xid
  | .engine a => Engine.NoFailedCommit d.table a
  | _ => True

def AtRest (d : Db K) : Prop := d.build = none ∧ d.table.history.heap.manager.active = []

/-- The registered indexes have an entry for every visible row, under the root of its chain, and no
entry with another key for it. -/
def Agrees (d : Db K) : Prop :=
  ∀ c ∈ d.schema.columns,
    (∀ v key, d.table.history.heap.Shows d.table.freshSnapshot v →
      (d.table.values v)[c]?.join = some key →
      ∃ r, d.table.history.heap.hotChainRoot v = .ok r ∧ ⟨c,key,r⟩ ∈ d.table.index) ∧
    ∀ key u, ⟨c,key,u⟩ ∈ d.table.index → ∀ v,
      Relation.ReflTransGen d.table.history.heap.Next u v →
      d.table.history.heap.Shows d.table.freshSnapshot v →
      (d.table.values v)[c]?.join = some key

end IndexBuild
end PgAm
