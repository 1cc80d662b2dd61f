import PgAm.HeapOnce
import PgAm.UndoLog

/-! Row operations and index maintenance. A row operation writes the heap first and then removes
and adds index entries, one after the other; the entries change in place, and a transaction that
rolls back takes its changes back from its undo log before the rollback shows. The index is the
set of its entries. -/
namespace PgAm
namespace Engine

open Machine Heap Function
open HeapHistory (History)
open UndoLog (Op)

variable {K : Type} [DecidableEq K]

structure Entry (K : Type) where
  column : ℕ
  key : K
  tid : Tid
  deriving DecidableEq

instance Entry.decidableMem (a : Entry K) (entries : List (Entry K)) : Decidable (a ∈ entries) :=
  inferInstance

/-- The indexed columns of the table, and the keys that `encode_key` accepts. -/
structure Schema (K : Type) where
  columns : List ℕ
  nodup : columns.Nodup
  fits : K → Bool

/-- `pending` is left to do to the indexes, `applied` has been done, for running transactions as
their undo log. `failed` have a row operation that stopped half way, `ending` roll back. `root` is
the tuple that owns the index entries of a version. -/
structure Table (K : Type) where
  history : History
  values : Tid → List (Option K)
  index : List (Entry K)
  applied : List (ℕ × Op (Entry K))
  pending : ℕ → List (Op (Entry K))
  failed : List ℕ
  ending : List ℕ
  root : Tid → Tid

namespace Table

def entryOf (values : List (Option K)) (tid : Tid) (column : ℕ) : Option (Entry K) :=
  (values[column]?).join.map fun key => ⟨column,key,tid⟩

def insertOps (schema : Schema K) (values : List (Option K)) (tid : Tid) : List (Op (Entry K)) :=
  schema.columns.filterMap fun c => (entryOf values tid c).map .inserted

def deleteOps (schema : Schema K) (old : List (Option K)) (indexTid : Tid) : List (Op (Entry K)) :=
  schema.columns.filterMap fun c => (entryOf old indexTid c).map .deleted

/-- An update removes the old entry and adds the new one, index after index. -/
def updateOps (schema : Schema K) (old values : List (Option K)) (indexTid newTid : Tid) :
    List (Op (Entry K)) :=
  schema.columns.flatMap fun c =>
    ((entryOf old indexTid c).map Op.deleted).toList ++
      ((entryOf values newTid c).map Op.inserted).toList

def hotEligible (schema : Schema K) (old values : List (Option K)) : Bool :=
  schema.columns ≠ [] ∧ ∀ c ∈ schema.columns, old[c]? = values[c]?

def Idle (e : Table K) (xid : ℕ) : Prop := e.pending xid = [] ∧ xid ∉ e.ending

instance (e : Table K) (xid : ℕ) : Decidable (e.Idle xid) := inferInstanceAs (Decidable (_ ∧ _))

def wrote (e : Table K) (h : History) (xid : ℕ) (ops : List (Op (Entry K))) : Table K :=
  { e with history := h, pending := update e.pending xid ops }

def addVersion (e : Table K) (tid : Tid) (values : List (Option K)) (root : Tid) : Table K :=
  { e with
    values := update e.values tid values
    root := update e.root tid root }

def fail (e : Table K) (xid : ℕ) : Table K :=
  { e with pending := update e.pending xid [], failed := xid :: e.failed }

/-- It fails on a key that is too large and on an entry that is not there to be removed. -/
def maintain (schema : Schema K) (e : Table K) (xid : ℕ) (op : Op (Entry K))
    (rest : List (Op (Entry K))) : Table K :=
  if schema.fits op.entry.key ∧ (op = .deleted op.entry → op.entry ∈ e.index) then
    { e with
      index := op.run e.index
      applied := e.applied ++ [(xid,op)]
      pending := update e.pending xid rest }
  else e.fail xid

def lastOf (xid : ℕ) : List (ℕ × Op (Entry K)) →
    Option (List (ℕ × Op (Entry K)) × Op (Entry K) × List (ℕ × Op (Entry K)))
  | [] => none
  | a :: l =>
    match lastOf xid l with
    | some (l₁,op,l₂) => some (a :: l₁,op,l₂)
    | none => if a.1 = xid then some ([],a.2,l) else none

end Table

inductive Step (K : Type)
  | act (a : HeapHistory.Act)
  | insert (xid page : ℕ) (values : List (Option K))
  | update (xid : ℕ) (tid : Tid) (page : ℕ) (values : List (Option K)) (stale : List ℕ)
      (stamps : Bool)
  | delete (xid : ℕ) (tid : Tid) (stale : List ℕ) (stamps : Bool)
  | maintain (xid : ℕ)
  | commit (xid : ℕ)
  | beginAbort (xid : ℕ)
  | undo (xid : ℕ)
  | abort (xid : ℕ)
  deriving DecidableEq

def Step.actor {K : Type} : Step K → Option ℕ
  | .act (.take xid) | .act (.statement xid) | .act (.pass xid ..)
  | .act (.manager (.leaveActive xid)) => some xid
  | .act _ => none
  | .insert xid .. | .update xid .. | .delete xid .. | .maintain xid | .commit xid
  | .beginAbort xid | .undo xid | .abort xid => some xid

def Step.values {K : Type} : Step K → Option (List (Option K))
  | .insert _ _ values | .update _ _ _ values _ _ => some values
  | _ => none

open Table

/-- What a transaction does that leaves rows and indexes alone. -/
def Plain (e : Table K) : HeapHistory.Act → Prop
  | .manager .beginTxn => True
  | .manager (.leaveActive _) => True
  | .manager (.setState ..) => False
  | .extend _ => True
  | .take _ => True
  | .statement xid => e.Idle xid
  | .insert .. => False
  | .pass xid tid op _ _ => e.Idle xid ∧ op.request ≠ .writer ∧ tid ∈ e.history.scanned xid

instance (e : Table K) : (a : HeapHistory.Act) → Decidable (Plain e a)
  | .manager .beginTxn | .manager (.leaveActive _) => .isTrue trivial
  | .manager (.setState ..) => .isFalse id
  | .extend _ | .take _ => .isTrue trivial
  | .statement xid => inferInstanceAs (Decidable (e.Idle xid))
  | .insert .. => .isFalse id
  | .pass xid tid op _ _ => inferInstanceAs
      (Decidable (e.Idle xid ∧ op.request ≠ .writer ∧ tid ∈ e.history.scanned xid))

/-- A statement's loop over the rows of its scan gives each row to one row operation. -/
def Addressed (e : Table K) (xid : ℕ) (tid : Tid) : Prop :=
  e.Idle xid ∧ tid ∈ e.history.scanned xid ∧ tid ∉ e.history.written xid

instance (e : Table K) (xid : ℕ) (tid : Tid) : Decidable (Addressed e xid tid) :=
  inferInstanceAs (Decidable (_ ∧ _))

def step (schema : Schema K) (e : Table K) : Step K → Option (Table K)
  | .act a =>
    if Plain e a then (HeapHistory.step e.history a).map fun h => { e with history := h } else none
  | .insert xid page values =>
    if e.Idle xid then
      (HeapHistory.step e.history (.insert xid page)).map fun h =>
        let tid := e.history.heap.newTid page
        (e.wrote h xid (insertOps schema values tid)).addVersion tid values tid
    else none
  | .update xid tid page values stale stamps =>
    if Addressed e xid tid then
      let old := e.values tid
      let op := Heap.Op.update page (hotEligible schema old values)
      (HeapHistory.step e.history (.pass xid tid op stale stamps)).map fun h =>
        if e.history.Wrote xid tid op stale stamps then
          let newTid := e.history.heap.newTid page
          if op.isHot tid then (e.wrote h xid []).addVersion newTid values (e.root tid)
          else
            let t := (e.wrote h xid []).addVersion newTid values newTid
            match if schema.columns = [] then .ok tid else h.heap.hotChainRoot tid with
            | .ok indexTid => t.wrote h xid (updateOps schema old values indexTid newTid)
            | .error _ => t.fail xid
        else { e with history := h }
    else none
  | .delete xid tid stale stamps =>
    if Addressed e xid tid then
      match if schema.columns = [] then .ok tid else e.history.heap.hotChainRoot tid with
      | .ok indexTid =>
        (HeapHistory.step e.history (.pass xid tid .delete stale stamps)).map fun h =>
          if e.history.Wrote xid tid .delete stale stamps then
            e.wrote h xid (deleteOps schema (e.values tid) indexTid)
          else { e with history := h }
      | .error _ => none
    else none
  | .maintain xid =>
    match e.pending xid with
    | [] => none
    | op :: rest => if e.history.heap.Live xid then some (e.maintain schema xid op rest) else none
  | .commit xid =>
    if e.Idle xid then
      (HeapHistory.step e.history (.manager (.setState xid .commit))).map fun h =>
        { e with history := h }
    else none
  | .beginAbort xid =>
    if e.Idle xid ∧ e.history.heap.Live xid then some { e with ending := xid :: e.ending } else none
  | .undo xid =>
    if xid ∈ e.ending ∧ e.history.heap.Live xid then
      match lastOf xid e.applied with
      | some (l₁,op,l₂) => some { e with index := op.inverse.run e.index, applied := l₁ ++ l₂ }
      | none => none
    else none
  | .abort xid =>
    if xid ∈ e.ending ∧ lastOf xid e.applied = none then
      (HeapHistory.step e.history (.manager (.setState xid .abort))).map fun h =>
        { e with history := h }
    else none

variable {schema : Schema K} {e e' : Table K} {xid : ℕ}

theorem step_maintain (hs : step schema e (.maintain xid) = some e') :
    ∃ op rest, e.pending xid = op :: rest ∧ e.history.heap.Live xid ∧
      e.maintain schema xid op rest = e' := by
  simp only [step] at hs
  split at hs
  · cases hs
  · obtain ⟨hlive,rfl⟩ := of_guard hs
    exact ⟨_,_,‹_›,hlive,rfl⟩

theorem step_undo (hs : step schema e (.undo xid) = some e') :
    ∃ l₁ op l₂, lastOf xid e.applied = some (l₁,op,l₂) ∧
      (xid ∈ e.ending ∧ e.history.heap.Live xid) ∧
      { e with index := op.inverse.run e.index, applied := l₁ ++ l₂ } = e' := by
  obtain ⟨hcan,hs⟩ := Option.ite_none_right_eq_some.1 hs
  split at hs <;> cases hs
  exact ⟨_,_,_,‹_›,hcan,rfl⟩

/-- A table that has just been created with its indexes. -/
def Start (e : Table K) : Prop :=
  HeapHistory.Start e.history ∧ e.index = [] ∧ e.applied = [] ∧ (∀ x, e.pending x = []) ∧
    e.failed = [] ∧ e.ending = []

end Engine
end PgAm
