import PgAm.Machine
import PgAm.TxnSystem

/-! The transaction manager's shared state, the snapshots taken from it and the visibility
rule for tuple versions. `commit_txn` and `abort_txn` show here as their two visible steps:
the outcome is set in the commit log, then the transaction leaves the active set. -/
namespace PgAm

open Machine Function
open TxnSystem (Outcome)

structure Snapshot where
  xmin : ℕ
  xmax : ℕ
  xip : List ℕ
  currentXid : ℕ
  curcid : ℕ
  deriving DecidableEq

def Snapshot.advanceCurcid (s : Snapshot) : Snapshot := { s with curcid := s.curcid + 1 }

/-- The inserter counts for the snapshot; the writer's own rows count from the next command on. -/
def xminVisible (tXmin tCid : ℕ) (snap : Snapshot) (getState : ℕ → TxnState) : Bool :=
  if tXmin = snap.currentXid then tCid < snap.curcid
  else tXmin < snap.xmax ∧ tXmin ∉ snap.xip ∧ getState tXmin = .committed

/-- The deleter hides the version from the snapshot. -/
def xmaxHides (tXmax tCid : ℕ) (snap : Snapshot) (getState : ℕ → TxnState) : Bool :=
  if tXmax = TxnId.invalid then false
  else if tXmax = snap.currentXid then tCid < snap.curcid
  else tXmax < snap.xmax ∧ tXmax ∉ snap.xip ∧ getState tXmax = .committed

def isVisible (tXmin tXmax tCid : ℕ) (snap : Snapshot) (getState : ℕ → TxnState) : Bool :=
  xminVisible tXmin tCid snap getState && !xmaxHides tXmax tCid snap getState

/-- The outcome of another transaction that the snapshot counts. -/
def Snapshot.Sees (snap : Snapshot) (getState : ℕ → TxnState) (x : ℕ) : Prop :=
  x < snap.xmax ∧ x ∉ snap.xip ∧ getState x = .committed

variable {snap : Snapshot} {x cid : ℕ}

theorem xminVisible_of_ne {getState : ℕ → TxnState} (h : x ≠ snap.currentXid) :
    xminVisible x cid snap getState = true ↔ snap.Sees getState x := by
  simp only [xminVisible,if_neg h,decide_eq_true_eq,Snapshot.Sees]

theorem xmaxHides_of_ne {getState : ℕ → TxnState} (h : x ≠ snap.currentXid) :
    xmaxHides x cid snap getState = true ↔ x ≠ TxnId.invalid ∧ snap.Sees getState x := by
  unfold xmaxHides
  split
  · rename_i h₀
    exact ⟨fun hf => absurd hf Bool.false_ne_true,fun hx => absurd h₀ hx.1⟩
  · rename_i h₀
    simp only [decide_eq_true_eq,Snapshot.Sees]
    exact ⟨fun hx => ⟨h₀,hx⟩,fun hx => hx.2⟩

theorem xminVisible_self {getState : ℕ → TxnState} (h : x = snap.currentXid) :
    xminVisible x cid snap getState = true ↔ cid < snap.curcid := by
  rw [xminVisible,if_pos h,decide_eq_true_eq]

theorem xmaxHides_self {x cid : ℕ} {snap : Snapshot} {getState : ℕ → TxnState}
    (h : x = snap.currentXid) (h₀ : x ≠ TxnId.invalid) :
    xmaxHides x cid snap getState = true ↔ cid < snap.curcid := by
  rw [xmaxHides,if_neg h₀,if_pos h,decide_eq_true_eq]

/-- The transaction manager: the clock, the active set and the commit log. -/
structure Manager where
  txnIdClock : ℕ
  active : List ℕ
  clog : ℕ → TxnState

namespace Manager

def getState (m : Manager) (xid : ℕ) : TxnState :=
  if xid = TxnId.invalid then .inProgress else m.clog xid

/-- Clock and active set are read under the lock of the active set. -/
def snapshot (m : Manager) (currentXid : ℕ) : Snapshot :=
  let xip := m.active.insertionSort (· ≤ ·)
  ⟨xip.headD m.txnIdClock,m.txnIdClock,xip,currentXid,0⟩

inductive Step
  | beginTxn
  | setState (xid : ℕ) (o : Outcome)
  | leaveActive (xid : ℕ)
  deriving DecidableEq

def step (m : Manager) : Step → Option Manager
  | .beginTxn => some
      { m with txnIdClock := m.txnIdClock + 1, active := m.txnIdClock :: m.active }
  | .setState xid o =>
    if xid ∈ m.active ∧ m.clog xid = .inProgress then
      some { m with clog := update m.clog xid o.state }
    else none
  | .leaveActive xid =>
    if xid ∈ m.active ∧ m.clog xid ≠ .inProgress then
      some { m with active := m.active.filter (· ≠ xid) }
    else none

/-- Nothing runs, and no transaction from the clock on has an outcome. -/
def Opened (m : Manager) : Prop :=
  m.active = [] ∧ 1 ≤ m.txnIdClock ∧ ∀ x, m.txnIdClock ≤ x → m.clog x = .inProgress

structure Inv (m : Manager) : Prop where
  clock_pos : 1 ≤ m.txnIdClock
  active_pos : ∀ x ∈ m.active, 1 ≤ x
  active_lt : ∀ x ∈ m.active, x < m.txnIdClock
  future : ∀ x, m.txnIdClock ≤ x → m.clog x = .inProgress

theorem Opened.inv {m : Manager} (h : Opened m) : Inv m where
  clock_pos := h.2.1
  active_pos x hx := by
    rw [h.1] at hx
    cases hx
  active_lt x hx := by
    rw [h.1] at hx
    cases hx
  future := h.2.2

variable {m t : Manager} {a : Step}

theorem step_cases (h : step m a = some t) : (a = .beginTxn ∧ t = { m with
      txnIdClock := m.txnIdClock + 1, active := m.txnIdClock :: m.active }) ∨
    (∃ x o, a = .setState x o ∧ x ∈ m.active ∧ m.clog x = .inProgress ∧
      t = { m with clog := update m.clog x o.state }) ∨
    ∃ x, a = .leaveActive x ∧ x ∈ m.active ∧ m.clog x ≠ .inProgress ∧
      t = { m with active := m.active.filter (· ≠ x) } := by
  cases a with
  | beginTxn =>
    cases h
    exact .inl ⟨rfl,rfl⟩
  | setState x o =>
    simp only [step,Option.ite_none_right_eq_some,Option.some.injEq] at h
    exact .inr (.inl ⟨x,o,rfl,h.1.1,h.1.2,h.2.symm⟩)
  | leaveActive x =>
    simp only [step,Option.ite_none_right_eq_some,Option.some.injEq] at h
    exact .inr (.inr ⟨x,rfl,h.1.1,h.1.2,h.2.symm⟩)

theorem step_inv (h : Inv m) (hs : step m a = some t) : Inv t := by
  obtain ⟨-,rfl⟩ | ⟨x,o,-,hx,-,rfl⟩ | ⟨x,-,-,-,rfl⟩ := step_cases hs
  · refine ⟨Nat.le_succ_of_le h.clock_pos,fun y hy => ?_,fun y hy => ?_,fun y hy => ?_⟩
    · rcases List.mem_cons.1 hy with rfl | hy
      · exact h.clock_pos
      · exact h.active_pos y hy
    · rcases List.mem_cons.1 hy with rfl | hy
      · exact Nat.lt_succ_self _
      · exact Nat.lt_succ_of_lt (h.active_lt y hy)
    · exact h.future y (Nat.le_of_succ_le hy)
  · refine { h with future := fun y hy => ?_ }
    have hxy : y ≠ x := fun e => absurd (h.active_lt x hx) (by rw [← e]; exact not_lt.2 hy)
    change update m.clog x o.state y = _
    rw [update_of_ne hxy]
    exact h.future y hy
  · exact ⟨h.clock_pos,fun y hy => h.active_pos y (List.mem_filter.1 hy).1,
      fun y hy => h.active_lt y (List.mem_filter.1 hy).1,h.future⟩

def Settled (m : Manager) (x : ℕ) : Prop := x < m.txnIdClock ∧ x ∉ m.active

theorem Settled.kept {x : ℕ} (h : Settled m x)
    (hs : step m a = some t) : Settled t x ∧ t.clog x = m.clog x := by
  obtain ⟨-,rfl⟩ | ⟨y,o,-,hy,-,rfl⟩ | ⟨y,-,-,-,rfl⟩ := step_cases hs
  · refine ⟨⟨Nat.lt_succ_of_lt h.1,fun hx => ?_⟩,rfl⟩
    rcases List.mem_cons.1 hx with rfl | hx
    · exact absurd h.1 (lt_irrefl _)
    · exact h.2 hx
  · have hxy : x ≠ y := fun e => h.2 (e ▸ hy)
    exact ⟨h,update_of_ne hxy ..⟩
  · exact ⟨⟨h.1,fun hx => h.2 (List.mem_filter.1 hx).1⟩,rfl⟩

theorem Settled.getState_step {x : ℕ} (h : Settled m x)
    (hs : step m a = some t) : t.getState x = m.getState x := by
  simp only [getState,(h.kept hs).2]

@[simp] theorem mem_snapshot_xip {m : Manager} {xid x : ℕ} :
    x ∈ (m.snapshot xid).xip ↔ x ∈ m.active := List.mem_insertionSort _

@[simp] theorem snapshot_xmax (m : Manager) (xid : ℕ) : (m.snapshot xid).xmax = m.txnIdClock := rfl

/-- Outside the window of a snapshot means settled when it is taken. -/
theorem settled_iff_snapshot {m : Manager} {xid x : ℕ} :
    Settled m x ↔ x < (m.snapshot xid).xmax ∧ x ∉ (m.snapshot xid).xip := by
  simp only [Settled,snapshot_xmax,mem_snapshot_xip]

end Manager

end PgAm
