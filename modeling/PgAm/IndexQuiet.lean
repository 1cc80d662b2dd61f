import PgAm.IndexGhost

/-! Steps of the engine that write no row. They leave values and roots as they are, and only a
transaction that has just begun becomes active; a transaction that has written nothing ends without
a trace in the indexes. -/
namespace PgAm
namespace Engine

open Machine Heap
open HeapHistory (History Write Grown Keeps)
open UndoLog (Op)
open Table

variable {K : Type} {schema : Schema K} {e e' : Table K} {xid : ℕ}

theorem Inv.no_changes (hi : Inv schema e) (hno : ∀ w ∈ e.history.writes, w.xid ≠ xid) :
    e.pending xid = [] ∧ ∀ op, (xid,op) ∉ e.applied := by
  have hjust : ∀ op, ¬e.Justified schema xid op := fun op hj => by
    cases op with
    | inserted a =>
      obtain ⟨-,-,hd,hh,-,hmin⟩ := hj
      obtain ⟨w,hw,-,hwx⟩ := hi.history.versions.creator _ hd hh
      exact hno w hw (hwx.trans hmin)
    | deleted a =>
      obtain ⟨w,hw,hwx,-⟩ := hj
      exact hno w hw hwx
  exact ⟨List.eq_nil_iff_forall_not_mem.2 fun op hop => hjust op (hi.pending xid op hop).1,
    fun op hop => hjust op (hi.applied xid op hop).1⟩

theorem Inv.end_reader (hi : Inv schema e) {o : TxnSystem.Outcome} {t : History}
    (hno : ∀ w ∈ e.history.writes, w.xid ≠ xid)
    (hs : HeapHistory.step e.history (.manager (.setState xid o)) = some t) :
    Inv schema { e with history := t } := by
  have ht : HeapHistory.Inv t :=
    HeapHistory.step_inv (a := .manager (.setState xid o)) hi.history trivial hs
  have hsame : ∀ x, x ≠ xid → t.heap.manager.getState x = e.history.heap.manager.getState x :=
    fun x hx => getState_of_manager hs fun o h => hx (Manager.Step.setState.inj h).1.symm
  obtain ⟨m,hm,rfl⟩ := HeapHistory.step_manager hs
  refine hi.unwritten ht (.of_eq rfl fun _ => rfl)
    (fun x hc => HeapHistory.getState_of_step hm hc nofun) (fun x hl => ?_) fun w hw hsound => ?_
  · by_cases hx : x = xid
    · exact .inr (.inr (hx ▸ hi.no_changes hno))
    · rcases HeapHistory.live_step hm (live_pos hi.history.snapshots.view.manager hl) hl with
        hl' | hc | hc
      · exact .inl hl'
      · exact absurd (((hsame x hx).symm.trans hc).symm.trans hl.2) nofun
      · exact absurd (((hsame x hx).symm.trans hc).symm.trans hl.2) nofun
  · rcases hsound with hc | ⟨hl,hf,hend⟩
    · exact .inl ((hsame w.xid (hno w hw)).symm.trans hc)
    · exact .inr ⟨live_of_step hm (hi.history.versions.writer w hw).2.1 hl,hf,hend⟩

def Step.rowActor : Step K → Option ℕ
  | .insert xid .. | .update xid .. | .delete xid .. => some xid
  | _ => none

/-- Only transactions that have just begun become active. -/
def NoNews (m m' : Manager) : Prop := ∀ x ∈ m'.active, x ∈ m.active ∨ x = m.txnIdClock

theorem noNews_of_step {m m' : Manager} {a : Manager.Step} (hs : m.step a = some m') :
    NoNews m m' := by
  intro x hx
  obtain ⟨-,rfl⟩ | ⟨y,o,-,-,-,rfl⟩ | ⟨y,-,-,-,rfl⟩ := Manager.step_cases hs
  · exact (List.mem_cons.1 hx).symm
  · exact .inl hx
  · exact .inl (List.mem_filter.1 hx).1

structure Unwritten (e e' : Table K) : Prop where
  grown : Grown e.history e'.history none
  values : e'.values = e.values
  root : e'.root = e.root
  keeps : Keeps e.history.heap.manager e'.history.heap.manager
  active : NoNews e.history.heap.manager e'.history.heap.manager

theorem Unwritten.of_manager {b : Manager.Step} {t : History}
    (hs : HeapHistory.step e.history (.manager b) = some t) :
    Unwritten e { e with history := t } := by
  obtain ⟨hg,hk⟩ := Ghost.manager_keeps hs
  refine ⟨hg,rfl,rfl,hk,?_⟩
  obtain ⟨m,hm,rfl⟩ := HeapHistory.step_manager hs
  exact noNews_of_step hm

theorem Unwritten.of_eq (hg : Grown e.history e'.history none) (hv : e'.values = e.values)
    (hr : e'.root = e.root) (hm : e'.history.heap.manager = e.history.heap.manager) :
    Unwritten e e' :=
  ⟨hg,hv,hr,hm ▸ Keeps.refl _,fun _ hx => .inl (hm ▸ hx)⟩

section Cases

variable [DecidableEq K]

/-- A step of the engine writes a row for its transaction or leaves the rows alone. -/
theorem step_written (hm : e.history.heap.manager.Inv) {a : Step K}
    (hs : step schema e a = some e') :
    (∃ w, a.rowActor = some w.xid ∧ Grown e.history e'.history (some w) ∧
      e'.history.heap.manager = e.history.heap.manager) ∨ Unwritten e e' := by
  cases a with
  | act b =>
    obtain ⟨hplain,t,hstep,rfl⟩ := of_guard_map hs
    right
    cases b with
    | manager b => exact .of_manager hstep
    | extend | take | statement =>
      obtain ⟨hw,ht,hr,hman⟩ := HeapHistory.step_aside hstep trivial
      exact .of_eq (.of_eq hw ht hr) rfl rfl hman
    | insert y page => exact hplain.elim
    | pass y tid op stale stamps =>
      obtain ⟨-,hman,⟨hw,-⟩ | ⟨-,hg⟩⟩ := HeapHistory.grown_pass hm hstep
      · exact absurd hw.2.2 hplain.2.1
      · exact .of_eq hg rfl rfl hman
  | insert y page row =>
    obtain ⟨-,t,hstep,rfl⟩ := of_guard_map hs
    obtain ⟨-,hman,hg⟩ := HeapHistory.grown_insert hstep
    exact .inl ⟨_,rfl,hg,hman⟩
  | update y tid page row stale stamps =>
    obtain ⟨-,t,hstep,rfl⟩ := of_guard_map hs
    obtain ⟨-,hman,⟨hw,hg⟩ | ⟨hw,hg⟩⟩ := HeapHistory.grown_pass hm hstep
    · refine .inl ⟨⟨y,e.history.command y,e.history.row tid,some tid,
        e.history.newVersion (.update page (hotEligible schema (e.values tid) row))⟩,rfl,?_,?_⟩
      · rw [if_pos hw]
        split
        · exact hg
        · split <;> exact hg
      · rw [if_pos hw]
        split
        · exact hman
        · split <;> exact hman
    · rw [if_neg hw]
      exact .inr (.of_eq hg rfl rfl hman)
  | delete y tid stale stamps =>
    obtain ⟨-,hs⟩ := Option.ite_none_right_eq_some.1 hs
    split at hs
    · obtain ⟨t,hstep,rfl⟩ := Option.map_eq_some_iff.1 hs
      obtain ⟨-,hman,⟨hw,hg⟩ | ⟨hw,hg⟩⟩ := HeapHistory.grown_pass hm hstep
      · rw [if_pos hw]
        exact .inl ⟨_,rfl,hg,hman⟩
      · rw [if_neg hw]
        exact .inr (.of_eq hg rfl rfl hman)
    · cases hs
  | maintain y =>
    obtain ⟨op,rest,-,-,rfl⟩ := step_maintain hs
    right
    unfold Table.maintain
    split
    · exact .of_eq (.of_eq rfl (fun _ => rfl) rfl) rfl rfl rfl
    · exact .of_eq (.of_eq rfl (fun _ => rfl) rfl) rfl rfl rfl
  | commit y | abort y =>
    obtain ⟨-,t,hstep,rfl⟩ := of_guard_map hs
    exact .inr (.of_manager hstep)
  | beginAbort y =>
    obtain ⟨-,rfl⟩ := of_guard hs
    exact .inr (.of_eq (.of_eq rfl (fun _ => rfl) rfl) rfl rfl rfl)
  | undo y =>
    obtain ⟨l₁,op,l₂,-,-,rfl⟩ := step_undo hs
    exact .inr (.of_eq (.of_eq rfl (fun _ => rfl) rfl) rfl rfl rfl)

end Cases

end Engine

end PgAm
