import PgAm.Visibility
import PgAm.FirstRun

/-! The transaction manager inside the system with log, checkpoints and recovery. Between two
crashes the system takes the steps of the manager, from one that recovery has opened. -/
namespace PgAm
namespace TxnSystem

open Machine

def Sys.manager (s : Sys) : Manager := ⟨s.txnIdClock,s.active,s.clog.mem⟩

/-- A call that has not returned belongs to an active transaction. -/
def Aligned (s : Sys) : Prop :=
  ∀ x c, s.calls x = some c → c ≠ .ended →
    x ∈ s.active ∧ ((∀ o, c ≠ .stateSet o) → s.clog.mem x = .inProgress)

variable {s t : Sys}

theorem Aligned.of_eq (h : Aligned s) (hcalls : t.calls = s.calls)
    (hactive : t.active = s.active) (hmem : t.clog.mem = s.clog.mem) : Aligned t := by
  unfold Aligned
  rw [hcalls,hactive,hmem]
  exact h

theorem Aligned.of_quiet {s : Sys} (h : Quiet s) : Aligned s := by
  intro x c hx
  rw [h.calls] at hx
  cases hx

theorem Aligned.setCall (h : Aligned s) {x : ℕ} {c c' : Call}
    (hx : s.calls x = some c) (hc : c ≠ .ended ∧ ∀ o, c ≠ .stateSet o)
    (hcalls : t.calls = Function.update s.calls x (some c')) (hactive : t.active = s.active)
    (hmem : t.clog.mem = s.clog.mem) : Aligned t := by
  intro y d hy hd
  rw [hcalls] at hy
  rw [hactive,hmem]
  rcases of_update_eq hy with ⟨rfl,-⟩ | ⟨-,hy⟩
  · exact ⟨(h y c hx hc.1).1,fun _ => (h y c hx hc.1).2 hc.2⟩
  · exact h y d hy hd

def Follows (s t : Sys) : Prop :=
  (t.manager = s.manager ∨ ∃ b, s.manager.step b = some t.manager) ∧ Aligned t

theorem Follows.stutter (h : t.manager = s.manager) (ha : Aligned t) : Follows s t :=
  ⟨.inl h,ha⟩

theorem RunInv.future {s : Sys} (h : RunInv s) {x : ℕ} (hx : s.txnIdClock ≤ x) :
    s.clog.mem x = .inProgress := by
  have hj := h.common.justified x
  cases hm : s.clog.mem x with
  | inProgress => rfl
  | subCommitted => exact (hm ▸ hj : Justified s _ .subCommitted).elim
  | committed =>
    rw [hm] at hj
    exact absurd (h.running.clock_log _ (List.mem_of_mem_take hj)) (not_lt.2 hx)
  | aborted =>
    rw [hm] at hj
    rcases hj with hj | hj
    · exact absurd (h.running.clock_log _ (List.mem_of_mem_take hj)) (not_lt.2 hx)
    · exact absurd (h.running.lt_clock hj.1) (not_lt.2 hx)

variable {a : Step}

theorem TxnGoes.follows (h : TxnGoes s t) (hi : RunInv s) (ha : Aligned s) : Follows s t := by
  cases h with
  | begin =>
    refine ⟨.inr ⟨.beginTxn,rfl⟩,fun x c hx hc => ?_⟩
    change Function.update s.calls s.txnIdClock _ x = _ at hx
    rcases of_update_eq hx with ⟨rfl,-⟩ | ⟨-,hx⟩
    · refine ⟨List.mem_cons_self,fun _ => ?_⟩
      exact hi.future le_rfl
    · exact ⟨List.mem_cons_of_mem _ (ha x c hx hc).1,(ha x c hx hc).2⟩
  | log => exact .stutter rfl ha
  | start hx | append hx | flush hx =>
    exact .stutter rfl (ha.setCall hx ⟨by rintro ⟨⟩,by rintro _ ⟨⟩⟩ rfl rfl rfl)
  | fail hx hc hset =>
    exact .stutter rfl (ha.setCall hx ⟨(by rintro rfl; cases hc),hset⟩ rfl rfl rfl)
  | @set x o hx =>
    have hmem : (s.clog.setState x o.state).mem = Function.update s.clog.mem x o.state :=
      Clog.setState_mem (hi.calls_pos (by rw [hx]; rintro ⟨⟩)) _
    obtain ⟨hact,hin⟩ := ha x _ hx (by rintro ⟨⟩)
    refine ⟨.inr ⟨.setState x o,?_⟩,fun y c hy hc => ?_⟩
    · change (if x ∈ s.active ∧ s.clog.mem x = .inProgress then _ else _) = _
      rw [if_pos ⟨hact,hin (by rintro _ ⟨⟩)⟩]
      simp only [Sys.manager,setCall,hmem]
    · change Function.update s.calls x _ y = _ at hy
      change y ∈ s.active ∧ (_ → (s.clog.setState x o.state).mem y = _)
      rw [hmem]
      by_cases hyx : y = x
      · subst hyx
        rw [Function.update_self] at hy
        cases hy
        exact ⟨hact,fun hn => absurd rfl (hn o)⟩
      · rw [Function.update_of_ne hyx] at hy ⊢
        exact ha y c hy hc
  | @leave x o hx =>
    have hset : s.clog.mem x ≠ .inProgress := by
      rw [(hi.running.call x _ hx).1]
      exact state_ne_inProgress o
    refine ⟨.inr ⟨.leaveActive x,?_⟩,fun y c hy hc => ?_⟩
    · change (if x ∈ s.active ∧ s.clog.mem x ≠ .inProgress then _ else _) = _
      rw [if_pos ⟨(ha x _ hx (by rintro ⟨⟩)).1,hset⟩]
      rfl
    · change Function.update s.calls x _ y = _ at hy
      change y ∈ s.active.filter (· ≠ x) ∧ _
      rcases of_update_eq hy with ⟨rfl,he⟩ | ⟨hyx,he⟩
      · cases he
        exact absurd rfl hc
      · exact ⟨List.mem_filter.2 ⟨(ha y c he hc).1,decide_eq_true hyx⟩,(ha y c he hc).2⟩

theorem CheckpointGoes.follows (h : CheckpointGoes s t) (hi : RunInv s) (ha : Aligned s) :
    Follows s t := by
  cases h with
  | flushFail pages segments =>
    have hmem := (Written.flush hi.common pages segments).mem
    refine .stutter ?_ (ha.of_eq rfl rfl hmem)
    simp only [Sys.manager,hmem]
  | _ => exact .stutter rfl ha

/-- While the process runs, every step of the system is a step of the manager or none. -/
theorem step_follows (hi : Inv s) (ha : Aligned s)
    (hm : s.mode = .running) (hm' : t.mode = .running) (h : step s a = some t) :
    Follows s t := by
  unfold step at h
  split at h
  case h_1 n =>
    split at h <;> cases h
    exact .stutter rfl ha
  case h_2 page =>
    cases h
    exact .stutter rfl ha
  case h_3 n keep =>
    split at h <;> cases h
    cases hm'
  case h_4 =>
    rw [hm] at h
    rcases Option.or_eq_some_iff.1 h with h | ⟨-,h⟩
    · exact (stepTxn_goes h).follows (hi.running hm) ha
    · exact (stepCheckpoint_goes h).follows (hi.running hm) ha

theorem Inv.quiet {s : Sys} (h : Inv s) (hm : s.mode ≠ .running) : Quiet s := by
  cases hs : s.mode with
  | running => exact absurd hs hm
  | down => exact h.of_mode hs
  | replaying pos att m => exact (h.of_mode hs : Replaying s pos att m).quiet
  | undoing att m => exact (h.of_mode hs : Undoing s att m).quiet

theorem stepRecovery_quiet (hq : Quiet s) (h : stepRecovery s a = some t) : Quiet t := by
  cases a with
  | replay | replayDone =>
    simp only [stepRecovery] at h
    split at h
    · split at h <;> cases h
      exact { hq with }
    · cases h
  | openWal | undo | finish =>
    simp only [stepRecovery] at h
    split at h <;> cases h
    exact { hq with }
  | _ => cases h

theorem step_quiet (hq : Quiet s) (hm : s.mode ≠ .running) (h : step s a = some t) : Quiet t := by
  unfold step at h
  split at h
  case h_1 n =>
    split at h <;> cases h
    exact { hq with }
  case h_2 page =>
    cases h
    exact { hq with }
  case h_3 n keep =>
    split at h <;> cases h
    exact .crash s n keep
  case h_4 =>
    split at h
    case h_1 hrun => exact absurd hrun hm
    case h_2 =>
      split at h
      · cases h
        rcases append_cases s (.other 0) _ with ⟨he,-⟩ | ⟨log,he,-⟩ <;> rw [he] <;>
          exact { hq with }
      · exact stepRecovery_quiet hq h
    case h_3 => exact stepRecovery_quiet hq h

theorem RunInv.opened {s : Sys} (h : RunInv s) (hq : Quiet s) : s.manager.Opened :=
  ⟨hq.active,h.clock_pos,fun _ => h.future⟩

/-- Every incarnation of the system runs its manager from an opened one. -/
theorem reach_manager {s : Sys} (h : Reach step (· = fresh) anyStep s) :
    (s.mode = .running → Reach Manager.step Manager.Opened anyStep s.manager) ∧ Aligned s := by
  induction h with
  | start hs =>
    subst hs
    exact ⟨fun _ => .start ⟨rfl,le_rfl,fun _ _ => rfl⟩,nofun⟩
  | @next s t a hr _ hst ih =>
    have hi := reach_inv hr
    have ht := step_inv hi hst
    by_cases hm : s.mode = .running
    · by_cases hm' : t.mode = .running
      · obtain ⟨hmgr,halign⟩ := step_follows hi ih.2 hm hm' hst
        refine ⟨fun _ => ?_,halign⟩
        rcases hmgr with he | ⟨b,hb⟩
        · exact he ▸ ih.1 hm
        · exact .next (ih.1 hm) trivial hb
      · exact ⟨fun h => absurd h hm',.of_quiet (ht.quiet hm')⟩
    · have hq := step_quiet (hi.quiet hm) hm hst
      exact ⟨fun hm' => .start ((ht.running hm').opened hq),.of_quiet hq⟩

/-- Where `flush_to` returns, the record itself is durable. -/
def Waited (s : Sys) : Step → Bool
  | .crash .. => true
  | a => Flushed s a

theorem reach_of_waited (h : Reach stepEarly (· = fresh) (Waited · ·) s) :
    Reach step (· = fresh) anyStep s := by
  induction h with
  | start hs => exact .start hs
  | @next s t a _ hok hs ih =>
    refine .next (a := a) ih trivial ?_
    cases a with
    | crash n keep => exact hs
    | _ => exact step_of_stepEarly hok hs

/-- Every incarnation of the system runs the transaction manager over what recovery left. -/
theorem incarnation_runs_manager (h : Reach stepEarly (· = fresh) (Waited · ·) s)
    (hm : s.mode = .running) : Reach Manager.step Manager.Opened anyStep s.manager :=
  (reach_manager (reach_of_waited h)).1 hm

/-- The id of a new transaction is in no record, in no outcome and in no active transaction,
whatever crashes came before. -/
theorem begun_xid_unused (h : Reach stepEarly (· = fresh) (Waited · ·) s)
    (hs : stepEarly s .beginTxn = some t) :
    t.active = s.txnIdClock :: s.active ∧ s.txnIdClock ∉ s.active ∧
      (∀ r ∈ s.log, r.txnId ≠ s.txnIdClock) ∧ s.clog.mem s.txnIdClock = .inProgress := by
  have h := reach_of_waited h
  change step s .beginTxn = some t at hs
  have hm : s.mode = .running := by
    by_contra hm
    cases hmode : s.mode <;> simp_all [step,stepRecovery]
  have hi := (reach_inv h).running hm
  have hmgr : s.manager.Inv := ((reach_manager h).1 hm).invariant (fun _ => Manager.Opened.inv)
    fun _ _ _ ht _ => Manager.step_inv ht
  simp only [step,hm,stepTxn,Option.some_or,Option.some.injEq] at hs
  exact ⟨hs ▸ rfl,fun hx => lt_irrefl _ (hmgr.active_lt _ hx),
    fun r hr => (hi.running.clock_log r hr).ne,hi.future le_rfl⟩

theorem exists_recovered : ∃ s, Reach stepEarly (· = fresh) (Waited · ·) s ∧
    decide (s.mode = .running ∧ s.txnIdClock = 3 ∧ s.log.length = 2) = true :=
  @exists_reach _ _ stepEarly (· = fresh) (Waited · ·) _ fresh rfl (commitThenCrash ++ [.finish]) _
    (by decide +kernel)

theorem incarnation_runs_manager_recovered : ∃ s, Reach stepEarly (· = fresh) (Waited · ·) s ∧
    s.txnIdClock = 3 ∧ Reach Manager.step Manager.Opened anyStep s.manager := by
  obtain ⟨s,hs,hp⟩ := exists_recovered
  have hp := of_decide_eq_true hp
  exact ⟨s,hs,hp.2.1,incarnation_runs_manager hs hp.1⟩

theorem begun_xid_unused_recovered : ∃ s t, stepEarly s .beginTxn = some t ∧ 3 ∈ t.active ∧
    s.log.length = 2 ∧ ∀ r ∈ s.log, r.txnId ≠ 3 := by
  obtain ⟨s,hs,hp⟩ := exists_recovered
  obtain ⟨hm,hclock,hlog⟩ := of_decide_eq_true hp
  have hstep : ∃ t, stepEarly s .beginTxn = some t := by simp [stepEarly,step,hm,stepTxn]
  obtain ⟨t,ht⟩ := hstep
  obtain ⟨hact,-,hrec,-⟩ := begun_xid_unused hs ht
  rw [hclock] at hact hrec
  exact ⟨s,t,ht,hact ▸ List.mem_cons_self,hlog,hrec⟩

end TxnSystem
end PgAm
