import PgAm.HeapVersions

/-! The commands of one transaction. A tuple header has one command id for the inserter and the
deleter, and a delete overwrites the inserter's. So a transaction that deletes or updates its
own tuple loses it from that command on, while a tuple of another transaction stays visible to
the command that deletes it and to none after it. -/
namespace PgAm
namespace Heap

open Machine
open HeapHistory (effect_stamped step_effect Stamped)

def LeavesAlone (xid : ℕ) (tid : Tid) (_ : Sys) : Step → Prop
  | .pass x _ tid' op _ stamps => ¬(x = xid ∧ tid' = tid ∧ op.request = .writer ∧ stamps = true)
  | _ => True

instance (xid : ℕ) (tid : Tid) (s : Sys) : (a : Step) → Decidable (LeavesAlone xid tid s a)
  | .pass .. => inferInstanceAs (Decidable (¬_))
  | .manager _ | .extend _ | .insert .. => .isTrue trivial

section Own

variable {s t : Sys} {a : Step} {xid curcid : ℕ} {tid : Tid} {hd : TupleHeader}

theorem step_manager (h : s.manager.Inv) (hs : step s a = some t) : t.manager.Inv := by
  obtain ⟨b,hb,-⟩ | ⟨hm,-⟩ | ⟨_,_,_,_,_,_,he,-⟩ := step_effect h hs
  · exact Manager.step_inv h hb
  · rwa [hm]
  · rwa [he.manager]

theorem reach_manager {ok : Sys → Step → Prop} (h : Reach step Start ok s) : s.manager.Inv :=
  h.invariant (fun _ hs => hs.1.inv) fun _ _ _ hi _ hs => step_manager hi hs

/-- The tuple carries this header, a delete of the transaction, as long as that lives. -/
structure Holds (xid : ℕ) (tid : Tid) (hd : TupleHeader) (s : Sys) : Prop where
  manager : s.manager.Inv
  begun : xid < s.manager.txnIdClock
  header : s.Live xid → s.tuple tid = some hd

/-- Others wait for the transaction, and its own row locks are refused. -/
theorem Holds.step (h : Holds xid tid hd s) (hxmax : hd.tXmax = xid)
    (hreal : hd.xmaxLockOnly = false) (hwf : hd.WellFormed) (hok : LeavesAlone xid tid s a)
    (hs : Heap.step s a = some t) : Holds xid tid hd t := by
  have hm := step_manager h.manager hs
  cases a with
  | manager a =>
    obtain ⟨m,hm',rfl⟩ := Option.map_eq_some_iff.1 hs
    refine ⟨hm,?_,fun hlive => h.header (live_of_step hm' h.begun hlive)⟩
    obtain ⟨-,rfl⟩ | ⟨x,o,-,-,-,rfl⟩ | ⟨x,-,-,-,rfl⟩ := Manager.step_cases hm'
    · exact Nat.lt_succ_of_lt h.begun
    · exact h.begun
    · exact h.begun
  | extend page =>
    obtain ⟨-,rfl⟩ := of_guard hs
    exact ⟨hm,h.begun,h.header⟩
  | insert x cid page =>
    obtain ⟨-,rfl⟩ := of_guard hs
    refine ⟨hm,h.begun,fun hlive => ?_⟩
    have hh := h.header hlive
    rw [tuple_addTuple_of_ne fun e => ?_,hh]
    rw [e,tuple_newTid] at hh
    cases hh
  | pass x cid tid' op stale stamps =>
    obtain ⟨hcan,⟨hv,rfl,rfl⟩ | ⟨-,locks,grants,rfl⟩⟩ := pass_cases hs
    · have he := @effect_stamped s x cid tid' op stale true h.manager hcan hv
      refine ⟨hm,by rw [he.manager]; exact h.begun,fun hlive => ?_⟩
      have hlive' : s.Live xid := by
        rw [Sys.Live,he.manager] at hlive
        exact hlive
      have hh := h.header hlive'
      have hne : tid' ≠ tid := by
        rintro rfl
        have hg := @gate_eq s x tid' op stale hd hh
        rw [hv] at hg
        rcases rowLockGate_real hg hwf (by rw [hxmax]; exact live_pos h.manager hlive') hreal with
          ⟨hself,hreq⟩ | ⟨hread,-⟩
        · exact hok ⟨hself.symm.trans hxmax,rfl,hreq,rfl⟩
        · rw [hxmax,reads_of_live hlive'] at hread
          cases hread
      rw [he.kept tid (fun e => hne (Option.some.inj e)) (he.ne_new hh),hh]
    · exact ⟨hm,h.begun,h.header⟩

theorem visible_own_delete {snap : Snapshot} {getState : ℕ → TxnState} (hxmax : hd.tXmax = xid)
    (hreal : hd.xmaxLockOnly = false) (hx : snap.currentXid = xid) (hpos : xid ≠ TxnId.invalid) :
    hd.visible snap getState = true ↔
      xminVisible hd.tXmin hd.tCid snap getState = true ∧ snap.curcid ≤ hd.tCid := by
  have hvis : hd.visibilityXmax = xid := by
    rw [TupleHeader.visibilityXmax,hreal,if_neg Bool.false_ne_true,hxmax]
  have hhides := @xmaxHides_self xid hd.tCid snap getState hx.symm hpos
  rw [TupleHeader.visible,isVisible,hvis,Bool.and_eq_true,Bool.not_eq_true',
    ← Bool.not_eq_true,hhides,not_lt]

end Own

/-- How a transaction sees a tuple that it has deleted or updated, from that command on. -/
theorem visible_after_own_write {s t u : Sys} {xid c₂ : ℕ} {tid : Tid} {op : Op} {stale : List ℕ}
    {hd : TupleHeader} {snap : Snapshot} (hs : Reach step Start anyStep s)
    (hh : s.tuple tid = some hd) (hop : op.request = .writer)
    (hgate : (s.gate xid tid op stale).1 = .ok .proceed)
    (hpass : step s (.pass xid c₂ tid op stale true) = some t)
    (hu : Reach step (· = t) (LeavesAlone xid tid) u) (hlive : u.Live xid)
    (hx : snap.currentXid = xid) (hc : c₂ ≤ snap.curcid) :
    (hd.tXmin = xid → ¬u.Shows snap tid) ∧
    (hd.tXmin ≠ xid → snap.Sees u.manager.getState hd.tXmin →
      (u.Shows snap tid ↔ snap.curcid = c₂)) := by
  have hm := reach_manager hs
  obtain ⟨hcan,⟨-,-,rfl⟩ | ⟨hno,-⟩⟩ := pass_cases hpass
  swap
  · exact absurd ⟨hgate,rfl⟩ hno
  have he := @effect_stamped s xid c₂ tid op stale true hm hcan hgate
  obtain ⟨hd₀,hd',h₀,h',hst⟩ := he.stamped tid rfl
  obtain rfl : hd₀ = hd := Option.some.inj (h₀.symm.trans hh)
  have hreal : hd'.xmaxLockOnly = false := by rw [hst.lockOnly,decide_eq_true hop]; rfl
  have hstart : Holds xid tid hd' (s.stampedBy xid c₂ tid op stale) :=
    ⟨by rw [he.manager]; exact hm,by rw [he.manager]; exact hm.active_lt xid hcan.1.1,fun _ => h'⟩
  have hholds : Holds xid tid hd' u :=
    hu.invariant (fun _ e => e ▸ hstart) fun _ _ _ hi hok hstep =>
      hi.step hst.tXmax hreal hst.wellFormed hok hstep
  have hshow : u.Shows snap tid ↔
      xminVisible hd₀.tXmin c₂ snap u.manager.getState = true ∧ snap.curcid ≤ c₂ := by
    have hvis := @visible_own_delete xid hd' snap u.manager.getState hst.tXmax hreal hx
      (live_pos hholds.manager hlive)
    rw [hst.tXmin,hst.tCid] at hvis
    rw [← hvis]
    refine ⟨?_,fun hv => ⟨hd',hholds.header hlive,hv⟩⟩
    rintro ⟨h₁,hh₁,hv⟩
    obtain rfl : h₁ = hd' := Option.some.inj (hh₁.symm.trans (hholds.header hlive))
    exact hv
  refine ⟨fun hown hsh => ?_,fun hne hsees => ?_⟩
  · obtain ⟨hmin,hle⟩ := hshow.1 hsh
    rw [xminVisible_self (hown.trans hx.symm)] at hmin
    exact absurd hle (not_le.2 hmin)
  · rw [hshow,xminVisible_of_ne fun e => hne (e.trans hx)]
    exact ⟨fun hsh => le_antisymm hsh.2 hc,fun e => ⟨hsees,e.le⟩⟩

/-- Transaction 1 commits a row; 2 inserts another one in command 1 and locks both in
command 2. -/
def lockBoth : List Step :=
  [.manager .beginTxn,.extend 1,.insert 1 1 1,.manager (.setState 1 .commit),
    .manager (.leaveActive 1),.manager .beginTxn,.insert 2 1 1,
    .pass 2 2 ⟨1,0⟩ .lockTuple [] true,.pass 2 2 ⟨1,1⟩ .lockTuple [] true]

theorem other_victim_visible :
    ∃ s t, Reach step Start anyStep s ∧ step s (.pass 2 3 ⟨1,0⟩ .delete [] true) = some t ∧
      t.Shows { t.manager.snapshot 2 with curcid := 3 } ⟨1,0⟩ ∧
      ¬t.Shows { t.manager.snapshot 2 with curcid := 4 } ⟨1,0⟩ := by
  have hrun : ∃ s, Reach step Start anyStep s ∧
      decide ((s.gate 2 ⟨1,0⟩ .delete []).1 = .ok .proceed ∧
        (s.tuple ⟨1,0⟩).any (fun h => h.tXmin = 1) ∧
        (step s (.pass 2 3 ⟨1,0⟩ .delete [] true)).any (fun t => decide (t.Live 2 ∧
          1 < t.manager.txnIdClock ∧ 1 ∉ t.manager.active ∧
          t.manager.getState 1 = .committed))) = true :=
    @exists_reach _ _ step Start anyStep _ fresh fresh_start lockBoth _ (by decide +kernel)
  obtain ⟨s,hs,hp⟩ := hrun
  obtain ⟨hgate,htuple,hstep⟩ := of_decide_eq_true hp
  obtain ⟨h,hh,hmin⟩ := (Option.any_eq_true _ _).1 htuple
  obtain ⟨t,ht,hlive⟩ := (Option.any_eq_true _ _).1 hstep
  obtain ⟨hlive,hlt,hact,hst⟩ := of_decide_eq_true hlive
  have hmin : h.tXmin = 1 := of_decide_eq_true hmin
  have hview : ∀ c, 3 ≤ c →
      (t.Shows { t.manager.snapshot 2 with curcid := c } ⟨1,0⟩ ↔ c = 3) := fun c hc =>
    (visible_after_own_write hs hh rfl hgate ht (.start rfl) hlive rfl hc).2
      (by rw [hmin]; decide) (by
        rw [hmin]
        exact ⟨hlt,fun hx => hact ((@Manager.mem_snapshot_xip t.manager 2 1).1 hx),hst⟩)
  exact ⟨s,t,hs,ht,(hview 3 le_rfl).2 rfl,fun hsh => absurd ((hview 4 (by decide)).1 hsh)
    (by decide)⟩

def deleteBoth : List Step :=
  lockBoth ++ [.pass 2 3 ⟨1,0⟩ .delete [] true,.pass 2 3 ⟨1,1⟩ .delete [] true]

/-- The deleting command does not see its own row any more, which an earlier command has
inserted. -/
theorem own_victim_not_visible :
    ∃ s, exec step fresh deleteBoth = some s ∧
      s.scan { s.manager.snapshot 2 with curcid := 3 } = .ok [⟨1,0⟩] ∧
      ¬s.Shows { s.manager.snapshot 2 with curcid := 3 } ⟨1,1⟩ := by
  have hrun : (exec step fresh deleteBoth).any (fun s =>
      decide (s.scan { s.manager.snapshot 2 with curcid := 3 } = .ok [⟨1,0⟩] ∧
        (s.tuple ⟨1,1⟩).all fun h =>
          !h.visible { s.manager.snapshot 2 with curcid := 3 } s.manager.getState)) = true := by
    decide +kernel
  obtain ⟨s,hs,hp⟩ := (Option.any_eq_true _ _).1 hrun
  obtain ⟨hscan,hall⟩ := of_decide_eq_true hp
  refine ⟨s,hs,hscan,?_⟩
  rintro ⟨h,hh,hv⟩
  rw [hh] at hall
  rw [Option.all_some,hv] at hall
  cases hall

end Heap
end PgAm
