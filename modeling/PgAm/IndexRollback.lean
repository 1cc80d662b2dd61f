import PgAm.IndexAgreement
import PgAm.IndexUndo

/-! What a rollback leaves in the indexes, over whole runs of a session. -/
namespace PgAm
namespace IndexUndo

open Machine Heap Function
open HeapHistory (History Rows Grown)
open Engine (Table Entry Schema entryOf_eq lastOf_some mem_deleteOps mem_insertOps oneIndex)
open Engine.Table
open UndoLog (Op replay ofTxn)

variable {K : Type}

theorem root_row {schema : Schema K} {t : History}
    (hr : Rows t) {tid indexTid : Tid} {hd : TupleHeader}
    (hh : t.heap.tuple tid = some hd)
    (hroot : (if schema.columns = [] then .ok tid else t.heap.hotChainRoot tid) = .ok indexTid) :
    t.row indexTid = t.row tid ∧ ∃ hd, t.heap.tuple indexTid = some hd := by
  split at hroot
  · cases hroot
    exact ⟨rfl,hd,hh⟩
  · exact HeapHistory.hotChainRoot_row hr rfl hh hroot

section Steps

variable [DecidableEq K] {schema : Schema K} {x y : ℕ} {s s' : Session K}

variable {t : History}

theorem Inv.heap_step (hi : Inv x s) (hg : Grown s.table.history t none) (hm : t.heap.manager.Inv)
    (hst : ∀ z, t.heap.manager.getState z = s.table.history.heap.manager.getState z) :
    Inv x { s with table := { s.table with history := t } } :=
  hi.quiet hg hm (fun z _ _ h => (hst z).trans h) (fun h => .inl ((hst x).symm.trans h))
    (fun _ => .refl _) (.refl _) rfl rfl rfl

theorem Inv.ended (hi : Inv x s) {o : TxnSystem.Outcome}
    (hs : HeapHistory.step s.table.history (.manager (.setState y o)) = some t)
    (hno : o = .abort → lastOf y s.table.applied = none) :
    Inv x { s with table := { s.table with history := t } } := by
  have hend := Engine.getState_of_end hi.manager hs
  have hother := fun hx : x ≠ y => Engine.getState_of_manager hs fun o h =>
    hx (Manager.Step.setState.inj h).1.symm
  obtain ⟨m,hstep,rfl⟩ := HeapHistory.step_manager hs
  refine hi.quiet (.of_eq rfl (fun _ => rfl) rfl) (Manager.step_inv hi.manager hstep)
    (fun z st hne h => HeapHistory.getState_of_step hstep h hne) (fun hab => ?_)
    (fun _ => .refl _) (.refl _) rfl rfl rfl
  by_cases hx : x = y
  · subst hx
    cases o with
    | commit => exact absurd (hend.symm.trans hab) nofun
    | abort => exact .inr fun op hop => Engine.lastOf_none (hno rfl) _ hop rfl
  · exact .inl ((hother hx).symm.trans hab)

theorem Inv.failed (hi : Inv x s) : Inv x { s with table := s.table.fail y } := by
  refine hi.quiet (.of_eq rfl (fun _ => rfl) rfl) hi.manager (fun _ _ _ h => h) .inl (fun z => ?_)
    (.refl _) rfl rfl rfl
  change (update s.table.pending y [] z).Sublist _
  by_cases hz : z = y
  · rw [hz,update_self]
    exact List.nil_sublist _
  · rw [update_of_ne hz]

variable {e : Table K} {values : List (Option K)}

theorem Inv.inserted (hi : Inv x s) {page : ℕ}
    (hs : Engine.step schema s.table (.insert y page values) = some e) :
    Inv x { s with table := e } := by
  obtain ⟨-,t,hstep,rfl⟩ := of_guard_map hs
  obtain ⟨-,hm,hg⟩ := HeapHistory.grown_insert hstep
  obtain ⟨hnone,hrow,hd,hh,-⟩ := hg.new _ rfl _ rfl
  refine hi.wrote hg hm (fun w hw hr => ?_) rfl (fun op hop => ?_) (fun b hb => ?_)
    Engine.nodup_insertOps rfl rfl rfl
  · obtain ⟨hd',hh'⟩ := hi.rows.made w hw
    rw [hr,hnone] at hh'
    cases hh'
  · obtain ⟨c,-,a,ha,rfl⟩ := mem_insertOps.1 hop
    change (∃ hd, t.heap.tuple a.tid = some hd) ∧ t.row a.tid = _
    rw [(entryOf_eq ha).2]
    exact ⟨⟨hd,hh⟩,hrow⟩
  · obtain ⟨c,-,a,ha,he⟩ := mem_insertOps.1 hb
    cases he
    rw [(entryOf_eq ha).2]

variable {stale : List ℕ} {stamps : Bool}

theorem Inv.updated (hi : Inv x s) {tid : Tid} {page : ℕ}
    (hok : OtherRow x s.table.history y (s.table.history.row tid))
    (hs : Engine.step schema s.table (.update y tid page values stale stamps) = some e) :
    Inv x { s with table := e } := by
  obtain ⟨-,t,hstep,rfl⟩ := of_guard_map hs
  obtain ⟨-,hm,⟨hw,hg⟩ | ⟨hw,hg⟩⟩ := HeapHistory.grown_pass hi.manager hstep
  · obtain ⟨-,hrow,hd,hh,-⟩ := hg.new _ rfl _ rfl
    obtain ⟨-,hdu,hhu⟩ := hg.old _ rfl tid rfl
    obtain ⟨hrowu,hdu',hhu',-⟩ := hg.forward tid hdu hhu
    rw [if_pos hw]
    split
    · exact hi.wrote hg hm hok rfl (by rintro _ ⟨⟩)
          (by rintro _ ⟨⟩) List.nodup_nil rfl rfl rfl
    · split
      · rename_i indexTid hroot
        obtain ⟨hri,hexi⟩ := root_row (hg.rows hi.rows) hhu' hroot
        refine hi.wrote hg hm hok (update_idem ..) (fun op hop => ?_) (fun b hb => ?_)
          Engine.nodup_updateOps rfl rfl rfl
        · rcases Engine.mem_updateOps.1 hop with hop | hop
          · obtain ⟨c,-,a,ha,rfl⟩ := mem_deleteOps.1 hop
            change (∃ hd, t.heap.tuple a.tid = some hd) ∧ t.row a.tid = _
            rw [(entryOf_eq ha).2]
            exact ⟨hexi,hri.trans hrowu⟩
          · obtain ⟨c,-,a,ha,rfl⟩ := mem_insertOps.1 hop
            change (∃ hd, t.heap.tuple a.tid = some hd) ∧ t.row a.tid = _
            rw [(entryOf_eq ha).2]
            exact ⟨⟨hd,hh⟩,hrow⟩
        · rcases Engine.mem_updateOps.1 hb with hb | hb
          · obtain ⟨c,-,a,-,he⟩ := mem_deleteOps.1 hb
            cases he
          · obtain ⟨c,-,a,ha,he⟩ := mem_insertOps.1 hb
            cases he
            rw [(entryOf_eq ha).2]
            rfl
      · exact hi.wrote hg hm hok (update_idem ..) (by rintro _ ⟨⟩)
          (by rintro _ ⟨⟩) List.nodup_nil rfl rfl rfl
  · rw [if_neg hw]
    exact hi.heap_step hg (hm ▸ hi.manager) fun z => by rw [hm]

theorem Inv.deleted (hi : Inv x s) {tid : Tid}
    (hok : OtherRow x s.table.history y (s.table.history.row tid))
    (hs : Engine.step schema s.table (.delete y tid stale stamps) = some e) :
    Inv x { s with table := e } := by
  obtain ⟨-,hs⟩ := Option.ite_none_right_eq_some.1 hs
  split at hs
  · rename_i indexTid hroot
    obtain ⟨t,hstep,rfl⟩ := Option.map_eq_some_iff.1 hs
    obtain ⟨-,hm,⟨hw,hg⟩ | ⟨hw,hg⟩⟩ := HeapHistory.grown_pass hi.manager hstep
    · obtain ⟨-,hdu,hhu⟩ := hg.old _ rfl tid rfl
      obtain ⟨hri,hdi,hhi⟩ := root_row hi.rows hhu hroot
      obtain ⟨hrowi,hdi',hhi',-⟩ := hg.forward indexTid hdi hhi
      rw [if_pos hw]
      refine hi.wrote hg hm hok rfl (fun op hop => ?_) (fun b hb => ?_) Engine.nodup_deleteOps
        rfl rfl rfl
      · obtain ⟨c,-,a,ha,rfl⟩ := mem_deleteOps.1 hop
        change (∃ hd, t.heap.tuple a.tid = some hd) ∧ t.row a.tid = _
        rw [(entryOf_eq ha).2]
        exact ⟨⟨hdi',hhi'⟩,hrowi.trans hri⟩
      · obtain ⟨c,-,a,-,he⟩ := mem_deleteOps.1 hb
        cases he
    · rw [if_neg hw]
      exact hi.heap_step hg (hm ▸ hi.manager) fun z => by rw [hm]
  · cases hs

theorem Inv.engine (hi : Inv x s) {a : Engine.Step K} (hok : Apart x s (.engine a))
    (hs : Engine.step schema s.table a = some e) :
    Inv x { s with table := e, trace := s.trace ++ treeCall schema s.table a } := by
  cases a with
  | act b =>
    obtain ⟨hplain,t,hstep,rfl⟩ := of_guard_map hs
    obtain ⟨hg,hm,hst⟩ := Engine.grown_plain hi.manager hplain hstep
    simp only [treeCall,List.append_nil]
    exact hi.heap_step hg hm hst
  | insert z page values =>
    simp only [treeCall,List.append_nil]
    exact hi.inserted hs
  | update z tid page values stale stamps =>
    simp only [treeCall,List.append_nil]
    exact hi.updated hok hs
  | delete z tid stale stamps =>
    simp only [treeCall,List.append_nil]
    exact hi.deleted hok hs
  | maintain z =>
    obtain ⟨op,rest,hp,hlive,rfl⟩ := Engine.step_maintain hs
    simp only [treeCall,hp,Table.maintain]
    split
    · rename_i hfit
      exact hi.changed hlive hp hfit.2
    · rw [List.append_nil]
      exact hi.failed
  | commit z =>
    obtain ⟨-,t,hstep,rfl⟩ := of_guard_map hs
    simp only [treeCall,List.append_nil]
    exact hi.ended hstep (by rintro ⟨⟩)
  | beginAbort z =>
    obtain ⟨-,rfl⟩ := of_guard hs
    simp only [treeCall,List.append_nil]
    exact hi.quiet (.of_eq rfl (fun _ => rfl) rfl) hi.manager (fun _ _ _ h => h) .inl
      (fun _ => .refl _) (.refl _) rfl rfl rfl
  | undo z =>
    obtain ⟨l₁,op,l₂,hl,⟨-,hlive⟩,rfl⟩ := Engine.step_undo hs
    simp only [treeCall,hl]
    obtain ⟨hsplit,hlast⟩ := lastOf_some hl
    exact hi.takenBack hlive hsplit hlast
  | abort z =>
    obtain ⟨⟨-,hlast⟩,t,hstep,rfl⟩ := of_guard_map hs
    simp only [treeCall,List.append_nil]
    exact hi.ended hstep fun _ => hlast

theorem step_inv {a : Step K} (hi : Inv x s) (hok : Undone x s a)
    (hs : step schema s a = some s') : Inv x s' := by
  cases a with
  | engine a =>
    simp only [step,Option.ite_none_left_eq_some] at hs
    obtain ⟨e,he,rfl⟩ := Option.map_eq_some_iff.1 hs.2
    exact hi.engine hok.1 he
  | statement z tids =>
    obtain ⟨-,rfl⟩ := of_guard hs
    exact hi.heap_step (.of_eq rfl (fun _ => rfl) rfl) hi.manager fun _ => rfl
  | maintainErr z =>
    obtain ⟨-,rfl⟩ := of_guard hs
    exact hi.failed
  | undoErr z =>
    obtain ⟨-,hs⟩ := Option.ite_none_right_eq_some.1 hs
    cases hl : lastOf z s.table.applied with
    | none =>
      rw [hl] at hs
      cases hs
    | some r =>
      obtain ⟨l₁,op,l₂⟩ := r
      simp only [hl,Option.some.injEq] at hs
      subst hs
      have hz : z ≠ x := fun h => hok.2 (congrArg _ h)
      obtain ⟨hsplit,-⟩ := lastOf_some hl
      refine hi.quiet (.of_eq rfl (fun _ => rfl) rfl) hi.manager (fun _ _ _ h => h) .inl
        (fun _ => .refl _) (sublist_of_split hsplit).1 ?_ rfl rfl
      change ofTxn x (l₁ ++ l₂) = ofTxn x s.table.applied
      rw [hsplit,UndoLog.ofTxn_drop_of_ne hz]
  | commitErr z =>
    obtain ⟨-,rfl⟩ := of_guard hs
    exact hi.quiet (.of_eq rfl (fun _ => rfl) rfl) hi.manager (fun _ _ _ h => h) .inl
      (fun _ => .refl _) (.refl _) rfl rfl rfl

theorem start_inv (hx : x ≠ TxnId.invalid) (hs : Opened s) : Inv x s := by
  obtain ⟨hm,hrows,hw,happ,hp,htrace,hwhole⟩ := hs
  refine ⟨hm.inv,hrows,?_,?_,?_,?_,fun p hp => (htrace p hp).2,?_,hwhole,?_,?_⟩
  · rw [hw]
    nofun
  · rw [happ]
    rintro y op (hop | hop)
    · rw [hp] at hop
      cases hop
    · cases hop
  · intro y a ha
    rw [hp] at ha
    cases ha
  · intro y
    rw [hp]
    exact List.nodup_nil
  · rw [happ]
    nofun
  · rw [happ]
    nofun
  · intro _ e
    rw [happ]
    have hfilter : s.trace.filter (·.1 ≠ x) = s.trace := by
      rw [List.filter_eq_self]
      exact fun p hp => decide_eq_true fun h => hx (h.symm.trans (htrace p hp).1)
    rw [hfilter]
    exact hwhole e

/-- After a rollback in which no B-tree call has failed, the indexes hold what the changes of the
other transactions leave. -/
theorem rollback_restores_index (hr : Reach (step schema) Opened (Undone x) s)
    (hab : s.table.history.heap.manager.getState x = .aborted) :
    (∀ a, a ∈ s.table.index ↔ a ∈ replay s.trace) ∧
      ∀ a, a ∈ s.table.index ↔ a ∈ replay (s.trace.filter (·.1 ≠ x)) := by
  have hx : x ≠ TxnId.invalid := by
    rintro rfl
    cases hab
  have hi : Inv x s := hr.invariant (fun _ hs => start_inv hx hs) fun _ _ _ => step_inv
  refine ⟨hi.whole,(hi.restores ?_).mem_iff (hi.aborted hab)⟩
  rw [hab]
  nofun

end Steps

def fresh : Session ℕ := ⟨Engine.fresh,[],[]⟩

theorem fresh_opened : Opened fresh := by
  refine ⟨HeapHistory.fresh_start.1.1,⟨nofun,?_,?_⟩,rfl,rfl,fun _ => rfl,nofun,fun _ => Iff.rfl⟩
  · intro tid hd hh
    cases hh
  · rintro u v ⟨hd,hh,-⟩
    cases hh

/-- Transaction 2 updates the row of 1, first without and then with a change of the key. -/
def updatedRow : List (Engine.Step ℕ) :=
  Engine.insertedRows 1 ++ [.update 2 ⟨1,0⟩ 1 [some 7] [] true,.act (.statement 2),
    .update 2 ⟨1,1⟩ 1 [some 8] [] true,.maintain 2,.maintain 2,.act (.manager .beginTxn),
    .act (.take 3),.act (.statement 3),.insert 3 1 [some 9],.maintain 3,.commit 3]

/-- Transaction 2 deletes what it has got and starts its rollback. -/
def touchedRow : List (Step ℕ) :=
  updatedRow.map .engine ++ [.statement 2 [⟨1,2⟩],.engine (.delete 2 ⟨1,2⟩ [] true),
    .engine (.maintain 2),.engine (.beginAbort 2)]

/-- After the rollback the entry of the row is back beside that of the other transaction. -/
theorem rollback_restores_row :
    ∃ s, Reach (step oneIndex) Opened (Undone 2) s ∧
      s.table.history.heap.manager.getState 2 = .aborted ∧
      (∀ a, a ∈ s.table.index ↔ a ∈ replay (s.trace.filter (·.1 ≠ 2))) ∧
      s.table.index = [⟨0,7,⟨1,0⟩⟩,⟨0,9,⟨1,3⟩⟩] := by
  have hrun : ∃ s, Reach (step oneIndex) Opened (Undone 2) s ∧
      decide (s.table.history.heap.manager.getState 2 = .aborted ∧
        s.table.index = [⟨0,7,⟨1,0⟩⟩,⟨0,9,⟨1,3⟩⟩]) = true :=
    @exists_reach _ _ (step oneIndex) Opened (Undone 2) _ fresh fresh_opened
      (touchedRow ++ [.engine (.undo 2),.engine (.undo 2),.engine (.undo 2),.engine (.abort 2)]) _
      (by decide +kernel)
  obtain ⟨s,hr,hs⟩ := hrun
  obtain ⟨hab,hindex⟩ := of_decide_eq_true hs
  exact ⟨s,hr,hab,(rollback_restores_index hr hab).2,hindex⟩

/-- An entry stays behind when a B-tree call of the rollback fails, and after a failed commit. -/
theorem rollback_leaves_entry :
    (∃ s, Reach (step oneIndex) Opened (Apart 2) s ∧
      s.table.history.heap.manager.getState 2 = .aborted ∧
      ⟨0,8,⟨1,2⟩⟩ ∈ s.table.index ∧ ⟨0,8,⟨1,2⟩⟩ ∉ replay (s.trace.filter (·.1 ≠ 2))) ∧
    ∃ s, Reach (step oneIndex) Opened (Undone 1) s ∧ 1 ∈ s.lost ∧
      ⟨0,7,⟨1,0⟩⟩ ∈ s.table.index ∧ ⟨0,7,⟨1,0⟩⟩ ∉ replay (s.trace.filter (·.1 ≠ 1)) := by
  have hundo : ∃ s, Reach (step oneIndex) Opened (Apart 2) s ∧
      decide (s.table.history.heap.manager.getState 2 = .aborted ∧
        ⟨0,8,⟨1,2⟩⟩ ∈ s.table.index ∧
        ⟨0,8,⟨1,2⟩⟩ ∉ replay (s.trace.filter (·.1 ≠ 2))) = true :=
    @exists_reach _ _ (step oneIndex) Opened (Apart 2) _ fresh fresh_opened
      (touchedRow ++ [.engine (.undo 2),.undoErr 2,.engine (.undo 2),.engine (.abort 2)]) _
      (by decide +kernel)
  have hcommit : ∃ s, Reach (step oneIndex) Opened (Undone 1) s ∧
      decide (1 ∈ s.lost ∧ ⟨0,7,⟨1,0⟩⟩ ∈ s.table.index ∧
        ⟨0,7,⟨1,0⟩⟩ ∉ replay (s.trace.filter (·.1 ≠ 1))) = true :=
    @exists_reach _ _ (step oneIndex) Opened (Undone 1) _ fresh fresh_opened
      [.engine (.act (.manager .beginTxn)),.engine (.act (.extend 1)),.engine (.act (.take 1)),
        .statement 1 [],.engine (.insert 1 1 [some 7]),.engine (.maintain 1),.commitErr 1] _
      (by decide +kernel)
  obtain ⟨s,hr,hs⟩ := hundo
  obtain ⟨t,hrt,ht⟩ := hcommit
  exact ⟨⟨s,hr,of_decide_eq_true hs⟩,t,hrt,of_decide_eq_true ht⟩

end IndexUndo
end PgAm
