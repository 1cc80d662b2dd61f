import PgAm.Visibility

/-! Snapshots under every interleaving of beginning and ending transactions. The history
keeps the transactions whose commit has completed, and for each snapshot those that had
completed when it was taken. -/
namespace PgAm
namespace SnapshotIsolation

open Machine

structure History where
  manager : Manager
  completed : List ℕ
  taken : List (Snapshot × List ℕ)

inductive Event
  | step (a : Manager.Step)
  | take (currentXid : ℕ)
  deriving DecidableEq

/-- A commit completes when the transaction leaves the active set as committed. -/
def nextCompleted (h : History) : Manager.Step → List ℕ
  | .leaveActive x =>
    if h.manager.getState x = .committed then x :: h.completed else h.completed
  | _ => h.completed

def step (h : History) : Event → Option History
  | .step a => (h.manager.step a).map fun m => { h with
      manager := m, completed := nextCompleted h a }
  | .take x =>
    if x ∈ h.manager.active then
      some { h with taken := (h.manager.snapshot x,h.completed) :: h.taken }
    else none

def Start (h : History) : Prop :=
  h.manager.Opened ∧ h.taken = [] ∧ ∀ x, x ∈ h.completed ↔ h.manager.getState x = .committed

/-- The snapshot's window is closed, and what had completed is what it sees. -/
structure Frozen (m : Manager) (snap : Snapshot) (done : List ℕ) : Prop where
  settled : ∀ x, x < snap.xmax → x ∉ snap.xip → m.Settled x
  done_iff : ∀ x, x ∈ done ↔ snap.Sees m.getState x

structure Inv (h : History) : Prop where
  manager : h.manager.Inv
  completed : ∀ x, x ∈ h.completed ↔ h.manager.Settled x ∧ h.manager.getState x = .committed
  taken : ∀ snap done, (snap,done) ∈ h.taken → Frozen h.manager snap done

theorem getState_update {m : Manager} {x y : ℕ} {st : TxnState} (h : y ≠ x) :
    Manager.getState { m with clog := Function.update m.clog x st } y = m.getState y := by
  simp only [Manager.getState,Function.update_of_ne h]

theorem Frozen.step {m t : Manager} {a : Manager.Step} {snap : Snapshot} {done : List ℕ}
    (h : Frozen m snap done) (hs : m.step a = some t) : Frozen t snap done where
  settled x hx hxip := ((h.settled x hx hxip).kept hs).1
  done_iff x := by
    rw [h.done_iff]
    constructor
    · rintro ⟨hx,hxip,hst⟩
      exact ⟨hx,hxip,by rw [(h.settled x hx hxip).getState_step hs,hst]⟩
    · rintro ⟨hx,hxip,hst⟩
      exact ⟨hx,hxip,by rw [← (h.settled x hx hxip).getState_step hs,hst]⟩

variable {h : History}

theorem Inv.settled_of_committed (hi : Inv h) {x : ℕ}
    (hst : h.manager.getState x = .committed) (hx : x ∉ h.manager.active) :
    h.manager.Settled x := by
  refine ⟨?_,hx⟩
  by_contra hlt
  have hfut := hi.manager.future x (not_lt.1 hlt)
  simp only [Manager.getState,hfut,ite_self] at hst
  cases hst

theorem Inv.completed_step (hi : Inv h) {a : Manager.Step} {t : Manager}
    (hs : h.manager.step a = some t) (x : ℕ) :
    x ∈ nextCompleted h a ↔ t.Settled x ∧ t.getState x = .committed := by
  obtain ⟨rfl,rfl⟩ | ⟨y,o,rfl,hy,hst,rfl⟩ | ⟨y,rfl,hy,hst,rfl⟩ := Manager.step_cases hs
  · change x ∈ h.completed ↔ _ ∧ h.manager.getState x = _
    rw [hi.completed]
    refine and_congr_left fun hc => ⟨fun hx => (hx.kept hs).1,fun hx => ?_⟩
    exact hi.settled_of_committed hc fun hmem => hx.2 (List.mem_cons_of_mem _ hmem)
  · change x ∈ h.completed ↔ h.manager.Settled x ∧ _
    rw [hi.completed]
    refine and_congr_right fun hx => ?_
    have hxy : x ≠ y := fun e => hx.2 (e ▸ hy)
    rw [getState_update hxy]
  · have hset : Manager.Settled { h.manager with active := h.manager.active.filter (· ≠ y) } x ↔
        h.manager.Settled x ∨ x = y := by
      simp only [Manager.Settled,List.mem_filter,decide_eq_true_eq]
      constructor
      · rintro ⟨hlt,hx⟩
        by_cases hxy : x = y
        · exact .inr hxy
        · exact .inl ⟨hlt,fun hmem => hx ⟨hmem,hxy⟩⟩
      · rintro (⟨hlt,hx⟩ | rfl)
        · exact ⟨hlt,fun hmem => hx hmem.1⟩
        · exact ⟨hi.manager.active_lt x hy,fun hmem => hmem.2 rfl⟩
    change x ∈ nextCompleted h (.leaveActive y) ↔ _ ∧ h.manager.getState x = _
    rw [hset]
    simp only [nextCompleted]
    split
    · rename_i hc
      rw [List.mem_cons,hi.completed]
      constructor
      · rintro (rfl | ⟨hx,hcx⟩)
        · exact ⟨.inr rfl,hc⟩
        · exact ⟨.inl hx,hcx⟩
      · rintro ⟨hx | rfl,hcx⟩
        · exact .inr ⟨hx,hcx⟩
        · exact .inl rfl
    · rename_i hc
      rw [hi.completed]
      constructor
      · exact fun hx => ⟨.inl hx.1,hx.2⟩
      · rintro ⟨hx | rfl,hcx⟩
        · exact ⟨hx,hcx⟩
        · exact absurd hcx hc

theorem Inv.take (hi : Inv h) (x : ℕ) :
    Frozen h.manager (h.manager.snapshot x) h.completed where
  settled y hy hyip := Manager.settled_iff_snapshot.2 ⟨hy,hyip⟩
  done_iff y := by
    rw [hi.completed,@Manager.settled_iff_snapshot _ x,and_assoc]
    rfl

theorem step_inv {h t : History} {e : Event} (hi : Inv h) (hs : step h e = some t) : Inv t := by
  cases e with
  | step a =>
    obtain ⟨m,hm,rfl⟩ := Option.map_eq_some_iff.1 hs
    exact ⟨Manager.step_inv hi.manager hm,hi.completed_step hm,
      fun snap done hmem => (hi.taken snap done hmem).step hm⟩
  | take x =>
    obtain ⟨-,rfl⟩ := of_guard hs
    refine { hi with taken := fun snap done hmem => ?_ }
    rcases List.mem_cons.1 hmem with heq | hmem
    · cases heq
      exact hi.take x
    · exact hi.taken snap done hmem

theorem start_inv (hs : Start h) : Inv h where
  manager := hs.1.inv
  completed x := by
    rw [hs.2.2]
    refine ⟨fun hc => ⟨?_,hc⟩,fun hx => hx.2⟩
    by_contra hn
    refine hn ⟨?_,by rw [hs.1.1]; exact List.not_mem_nil⟩
    by_contra hlt
    have hfut := hs.1.2.2 x (not_lt.1 hlt)
    simp only [Manager.getState,hfut,ite_self] at hc
    cases hc
  taken snap done hmem := by
    rw [hs.2.1] at hmem
    cases hmem

theorem reach_inv (hr : Reach step Start anyStep h) : Inv h :=
  hr.invariant (fun _ => start_inv) fun _ _ _ hi _ hs => step_inv hi hs

theorem step_taken {h t : History} {e : Event} (hs : step h e = some t) {p : Snapshot × List ℕ}
    (hp : p ∈ h.taken) : p ∈ t.taken := by
  cases e with
  | step a =>
    obtain ⟨m,-,rfl⟩ := Option.map_eq_some_iff.1 hs
    exact hp
  | take x =>
    obtain ⟨-,rfl⟩ := of_guard hs
    exact List.mem_cons_of_mem _ hp

theorem reach_taken {h t : History} (hr : Reach step (· = h) anyStep t) {p : Snapshot × List ℕ}
    (hp : p ∈ h.taken) : p ∈ t.taken :=
  hr.invariant (fun _ hs => hs ▸ hp) fun _ _ _ hi _ hs => step_taken hs hi

/-- The verdict on a version of other transactions, from what the snapshot has frozen. -/
theorem Frozen.isVisible_iff {m : Manager} {snap : Snapshot} {done : List ℕ}
    (h : Frozen m snap done) {xmin xmax : ℕ} (cid curcid : ℕ) (hmin : xmin ≠ snap.currentXid)
    (hmax : xmax ≠ snap.currentXid) :
    isVisible xmin xmax cid { snap with curcid := curcid } m.getState = true ↔
      xmin ∈ done ∧ ¬(xmax ≠ TxnId.invalid ∧ xmax ∈ done) := by
  have hmin' : xmin ≠ ({ snap with curcid := curcid } : Snapshot).currentXid := hmin
  have hmax' : xmax ≠ ({ snap with curcid := curcid } : Snapshot).currentXid := hmax
  rw [isVisible,Bool.and_eq_true,Bool.not_eq_true',← Bool.not_eq_true,xminVisible_of_ne hmin',
    xmaxHides_of_ne hmax',h.done_iff,h.done_iff]
  rfl

/-- A version written by others is visible exactly if its inserter's commit had completed when the
snapshot was taken and its deleter's had not, now and at every later moment. -/
theorem snapshot_isolation {h h' : History} {snap : Snapshot} {done : List ℕ} {xmin xmax : ℕ}
    (hr : Reach step Start anyStep h) (hr' : Reach step (· = h) anyStep h')
    (htaken : (snap,done) ∈ h.taken) (cid curcid : ℕ) (hmin : xmin ≠ snap.currentXid)
    (hmax : xmax ≠ snap.currentXid) :
    (isVisible xmin xmax cid { snap with curcid := curcid } h.manager.getState = true ↔
      xmin ∈ done ∧ ¬(xmax ≠ TxnId.invalid ∧ xmax ∈ done)) ∧
    isVisible xmin xmax cid { snap with curcid := curcid } h'.manager.getState =
      isVisible xmin xmax cid { snap with curcid := curcid } h.manager.getState := by
  have hnow := ((reach_inv hr).taken snap done htaken).isVisible_iff cid curcid hmin hmax
  have hlater := ((reach_inv (hr.trans hr')).taken snap done (reach_taken hr' htaken)).isVisible_iff
    cid curcid hmin hmax
  exact ⟨hnow,Bool.eq_iff_iff.2 (hlater.trans hnow.symm)⟩

/-- 2 has set its state but is still active when 3 takes the snapshot, and then completes. -/
def overlapping : List Event :=
  [.step .beginTxn,.step .beginTxn,.step .beginTxn,.step (.setState 1 .commit),
    .step (.leaveActive 1),.step (.setState 2 .commit),.take 3,.step (.leaveActive 2)]

def fresh : History := ⟨⟨TxnId.first,[],fun _ => .inProgress⟩,[],[]⟩

theorem fresh_start : Start fresh :=
  ⟨⟨rfl,le_rfl,fun _ _ => rfl⟩,rfl,fun x => by simp [fresh,Manager.getState]⟩

theorem snapshot_isolation_of_overlapping :
    ∃ h snap, Reach step Start anyStep h ∧ (snap,[1]) ∈ h.taken ∧
      h.manager.getState 2 = .committed ∧
      isVisible 1 2 0 { snap with curcid := 1 } h.manager.getState = true ∧
      isVisible 2 0 0 { snap with curcid := 1 } h.manager.getState = false := by
  have hrun : ∃ h, Reach step Start anyStep h ∧
      decide (((⟨2,4,[2,3],3,0⟩ : Snapshot),[1]) ∈ h.taken ∧
        h.manager.getState 2 = .committed) = true :=
    @exists_reach _ _ step Start anyStep _ fresh fresh_start overlapping _ (by decide +kernel)
  obtain ⟨h,hr,hp⟩ := hrun
  obtain ⟨htaken,hst⟩ := of_decide_eq_true hp
  have hsees := @snapshot_isolation h h _ _ 1 2 hr (.start rfl) htaken 0 1 (by decide) (by decide)
  have hmisses := @snapshot_isolation h h _ _ 2 0 hr (.start rfl) htaken 0 1 (by decide) (by decide)
  refine ⟨h,_,hr,htaken,hst,hsees.1.2 (by decide),?_⟩
  rw [← Bool.not_eq_true,hmisses.1]
  decide

end SnapshotIsolation
end PgAm
