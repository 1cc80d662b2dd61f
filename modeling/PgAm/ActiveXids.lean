import PgAm.EventLog
import PgAm.FirstRun

/-! Which transactions recovery takes for unfinished. Analysis starts from the transactions that
the superblock's checkpoint saw active, but only if that checkpoint's end record is the latest one
in the log, and adds those with a record behind its begin. -/
namespace PgAm
namespace TxnSystem

open Machine

def recoveredActiveXids (s : Sys) : List ℕ :=
  let clog := (s.log.drop (redoStart s)).foldl redo s.clog
  (runAnalysis s).filter fun x => clog.getState x ≠ .committed ∧ clog.getState x ≠ .aborted

def Unfinished (log : List Rec) (x : ℕ) : Prop :=
  x ≠ TxnId.invalid ∧ (∃ r ∈ log, r.txnId = x) ∧ ∀ o : Outcome, o.record x ∉ log

/-- The latest end record is the superblock's, or every unfinished transaction has a later
record. -/
def BaselineKnown (s : Sys) : Prop :=
  findLatestCheckpointEnd (s.log.drop (redoStart s)) = some s.superblock.checkpointLsn ∨
    ∀ x, Unfinished s.log x → ∃ r ∈ s.log.drop (redoStart s), r.txnId = x

def event : Rec → Option (ℕ × Bool)
  | .txnCommit xid | .txnAbort xid => some (xid,false)
  | .other xid => if xid = TxnId.invalid then none else some (xid,true)
  | .checkpointBegin | .checkpointEnd .. => none

theorem event_record (o : Outcome) (x : ℕ) : event (o.record x) = some (x,false) := by
  cases o <;> rfl

theorem event_other {x : ℕ} (hx : x ≠ TxnId.invalid) : event (.other x) = some (x,true) :=
  if_neg hx

theorem mem_analyze_iff (x : ℕ) (att : List ℕ) (r : Rec) :
    x ∈ analyze att r ↔ (EventLog.about event x r).elim (x ∈ att) (· = true) := by
  have hterm : ∀ (o : Outcome) (y : ℕ), x ∈ att.filter (· ≠ y) ↔
      (EventLog.about event x (o.record y)).elim (x ∈ att) (· = true) := by
    intro o y
    rw [EventLog.about_self (event_record o y) x,List.mem_filter,decide_eq_true_eq]
    split
    · rename_i h
      exact iff_of_false (fun hm => hm.2 h) Bool.false_ne_true
    · rename_i h
      exact and_iff_left h
  cases r with
  | txnCommit y => exact hterm .commit y
  | txnAbort y => exact hterm .abort y
  | other y =>
    by_cases hy : y = TxnId.invalid
    · rw [EventLog.about_eq_none (by simp [event,hy]),analyze,if_pos (.inl hy)]
      rfl
    · rw [EventLog.about_self (event_other hy) x,analyze]
      split
      · rename_i hmem
        have hmem := hmem.resolve_left hy
        split
        · rename_i h
          exact iff_of_true (h ▸ hmem) rfl
        · rfl
      · rw [List.mem_cons]
        split
        · rename_i h
          exact iff_of_true (.inl h) rfl
        · rename_i h
          exact or_iff_right h
  | checkpointBegin | checkpointEnd => rfl

theorem mem_foldl_analyze_iff {rs : List Rec} {att : List ℕ} {x : ℕ} (hx : x ≠ TxnId.invalid)
    (hrs : ∀ o : Outcome, o.record x ∉ rs) :
    x ∈ rs.foldl analyze att ↔ x ∈ att ∨ ∃ r ∈ rs, r.txnId = x := by
  rw [EventLog.foldl_iff (x ∈ ·) (fun att r _ => mem_analyze_iff x att r) att]
  cases hlast : EventLog.last event x rs with
  | none =>
    refine (or_iff_left ?_).symm
    rintro ⟨r,hr,rfl⟩
    have hsilent := EventLog.last_eq_none.1 hlast r hr
    cases r with
    | txnCommit y => exact hrs .commit hr
    | txnAbort y => exact hrs .abort hr
    | other y =>
      change EventLog.about event y (.other y) = none at hsilent
      rw [EventLog.about_eq_some (event_other (x := y) hx)] at hsilent
      cases hsilent
    | checkpointBegin | checkpointEnd => exact hx rfl
  | some b =>
    obtain ⟨r,hr,he⟩ := EventLog.exists_of_last hlast
    cases r with
    | txnCommit y =>
      cases he
      exact absurd hr (hrs .commit)
    | txnAbort y =>
      cases he
      exact absurd hr (hrs .abort)
    | other y =>
      simp only [event] at he
      split at he <;> cases he
      exact iff_of_true rfl (.inr ⟨_,hr,rfl⟩)
    | checkpointBegin | checkpointEnd => cases he

theorem runAnalysis_eq (s : Sys) : runAnalysis s =
    (s.log.drop (redoStart s)).foldl analyze
      (if findLatestCheckpointEnd (s.log.drop (redoStart s)) = some s.superblock.checkpointLsn then
        s.attFiles s.superblock.checkpointLsn else []) := by
  unfold runAnalysis
  dsimp only
  cases findLatestCheckpointEnd (s.log.drop (redoStart s)) with
  | none => rfl
  | some lsn =>
    by_cases hlsn : lsn = s.superblock.checkpointLsn
    · simp [hlsn]
    · simp [hlsn]

theorem foldl_redo_mem {rs : List Rec} {c : Clog} {x : ℕ} (hrs : ∀ o : Outcome, o.record x ∉ rs) :
    (rs.foldl redo c).mem x = c.mem x := by
  induction rs generalizing c with
  | nil => rfl
  | cons r rs ih =>
    rw [List.foldl_cons,ih fun o ho => hrs o (List.mem_cons_of_mem _ ho)]
    rcases redo_cases c r with ⟨o,y,rfl⟩ | ⟨he,-⟩
    · have hyx : x ≠ y := by
        rintro rfl
        exact hrs o List.mem_cons_self
      rw [redo_record,Clog.setState]
      split
      · rfl
      · exact Function.update_of_ne hyx _ _
    · rw [he]

section Crash
variable {s s₁ : Sys} {n : ℕ} {keep : ℕ → Bool}

theorem crash_eq (hs : step s (.crash n keep) = some s₁) :
    (s.synced ≤ n ∧ n ≤ s.log.length) ∧ s₁ = { s with
      log := s.log.take n, poisoned := false, clog := s.clog.crash keep, active := []
      calls := fun _ => none, readers := [], checkpoint := .idle, mode := .down } := by
  obtain ⟨hok,rfl⟩ := of_guard hs
  exact ⟨‹_›,rfl⟩

theorem FirstRun.crash_state (h : FirstRun s) (hs : step s (.crash n keep) = some s₁) {x : ℕ}
    (hx : Unfinished s₁.log x) : s₁.clog.mem x ≠ .committed ∧ s₁.clog.mem x ≠ .aborted := by
  obtain ⟨hn,rfl⟩ := crash_eq hs
  have hfound : Settles ((s.clog.crash keep).mem x) (s.clog.mem x) := by
    change Settles (if keep x then s.clog.file x else s.clog.stable x) _
    split
    · exact h.inv.common.mem_settles x
    · exact (h.inv.common.file_settles x).trans (h.inv.common.mem_settles x)
  have hdurable : ∀ r ∈ s.log.take s.synced, r ∈ s.log.take n := fun _ hr =>
    List.take_subset_take_left _ hn.1 hr
  constructor
  · intro hc
    have hj := h.inv.common.justified_of_settles hfound
    change (s.clog.crash keep).mem x = .committed at hc
    rw [hc] at hj
    exact hx.2.2 .commit (hdurable _ hj)
  · intro hc
    have hmem := hfound.eq_of_ne (by rw [show (s.clog.crash keep).mem x = .aborted from hc]; decide)
    exact hx.2.2 .abort (hdurable _ (h.aborted x (hmem.trans hc)))

theorem FirstRun.mem_recovered_iff (h : FirstRun s) (hs : step s (.crash n keep) = some s₁) {x : ℕ}
    (hx : Unfinished s₁.log x) : x ∈ recoveredActiveXids s₁ ↔ x ∈ runAnalysis s₁ := by
  have hstate := h.crash_state hs hx
  have hnone : ∀ o : Outcome, o.record x ∉ s₁.log.drop (redoStart s₁) := fun o ho =>
    hx.2.2 o (List.mem_of_mem_drop ho)
  unfold recoveredActiveXids
  rw [List.mem_filter,decide_eq_true_eq,Clog.getState,if_neg hx.1,foldl_redo_mem hnone]
  exact and_iff_left hstate

/-- An unfinished transaction is found by a record behind the redo point or in the snapshot. -/
theorem FirstRun.mem_runAnalysis_iff (h : FirstRun s) (hs : step s (.crash n keep) = some s₁)
    {x : ℕ} (hx : Unfinished s₁.log x) : x ∈ runAnalysis s₁ ↔
      findLatestCheckpointEnd (s₁.log.drop (redoStart s₁)) = some s₁.superblock.checkpointLsn ∨
        ∃ r ∈ s₁.log.drop (redoStart s₁), r.txnId = x := by
  have hnone : ∀ o : Outcome, o.record x ∉ s₁.log.drop (redoStart s₁) := fun o ho =>
    hx.2.2 o (List.mem_of_mem_drop ho)
  rw [runAnalysis_eq,mem_foldl_analyze_iff hx.1 hnone]
  split
  · rename_i hend
    refine iff_of_true ?_ (.inl hend)
    obtain ⟨r,hr,hrx⟩ := hx.2.1
    rw [← List.take_append_drop (redoStart s₁) s₁.log] at hr
    rcases List.mem_append.1 hr with hr | hr
    · left
      obtain ⟨hn,rfl⟩ := crash_eq hs
      have hredo : redoStart s ≤ n := h.inv.common.redoStart_le.trans hn.1
      change r ∈ (s.log.take n).take (redoStart s) at hr
      rw [List.take_take,min_eq_left hredo] at hr
      rcases h.superblock r hr (by rw [hrx]; exact hx.1) with hatt | ⟨o,ho⟩
      · rwa [hrx] at hatt
      · rw [hrx] at ho
        exact absurd (List.take_subset_take_left _ hn.1 ho) (hx.2.2 o)
    · exact .inr ⟨r,hr,hrx⟩
  · rename_i hend
    rw [or_iff_right List.not_mem_nil,or_iff_right hend]

theorem Inv.recovered (h : Inv s₁) (hm : s₁.mode = .down) :
    ∃ t m, Recovers s₁ t ∧ t.log = s₁.log ∧ t.mode = .undoing (recoveredActiveXids s₁) m := by
  have hle := h.common.redoStart_le.trans h.common.synced_le
  obtain ⟨m,hend⟩ := replaying_reaches_end (s := { s₁ with
      synced := s₁.log.length
      mode := .replaying (redoStart s₁) (runAnalysis { s₁ with synced := s₁.log.length }) 0 })
    (k := s₁.log.length - redoStart s₁) rfl (by change _ = s₁.log.length; omega)
  exact ⟨_,m,.head rfl (h.step_openWal hm) (.next hend rfl (step_replayDone rfl)),rfl,rfl⟩

/-- Recovery takes exactly the unfinished transactions for active, if and only if it knows where the
analysis has to start. -/
theorem unfinished_found_iff (h : Reach stepEarly (· = fresh) (Flushed · ·) s)
    (hs : stepEarly s (.crash n keep) = some s₁) :
    (∃ t m, Recovers s₁ t ∧ t.mode = .undoing (recoveredActiveXids s₁) m) ∧
      ((∀ x, Unfinished s₁.log x → x ∈ recoveredActiveXids s₁) ↔ BaselineKnown s₁) ∧
      ∀ x ∈ recoveredActiveXids s₁, ∀ o : Outcome, o.record x ∉ s₁.log := by
  have hfirst := reach_firstRun h
  change step s (.crash n keep) = some s₁ at hs
  have hinv : Inv s₁ := step_inv ⟨hfirst.inv.common,hfirst.mode ▸ hfirst.inv.running⟩ hs
  obtain ⟨-,hdown⟩ := crash_eq hs
  obtain ⟨t,m,ht,hlog,hmode⟩ := hinv.recovered (hdown ▸ rfl)
  have hundo : Undoing t (recoveredActiveXids s₁) m :=
    (ht.invariant (fun _ he => he ▸ hinv) fun _ _ _ hi _ => step_inv hi).of_mode hmode
  refine ⟨⟨t,m,ht,hmode⟩,?_,fun x hx o ho => (hundo.att x hx).2 o (hlog ▸ ho)⟩
  constructor
  · intro hfound
    by_cases hend : findLatestCheckpointEnd (s₁.log.drop (redoStart s₁)) =
        some s₁.superblock.checkpointLsn
    · exact .inl hend
    · refine .inr fun x hx => ?_
      have hx' := (hfirst.mem_recovered_iff hs hx).1 (hfound x hx)
      exact ((hfirst.mem_runAnalysis_iff hs hx).1 hx').resolve_left hend
  · intro hknown x hx
    rw [hfirst.mem_recovered_iff hs hx,hfirst.mem_runAnalysis_iff hs hx]
    exact hknown.imp id fun hall => hall x hx

end Crash

/-- Transaction 1 has logged a record; a checkpoint runs up to its superblock. -/
def checkpointed : List Step :=
  [.beginTxn,.log 1 none,.checkpointLock,.checkpointBegin none,.checkpointSnapshot,
    .checkpointClogFlush,.checkpointSample,.checkpointEnd none,.walSync 3,.checkpointEndFlush true,
    .checkpointSuperblock true true]

def checkpointedAgain : List Step :=
  checkpointed ++ [.checkpointRecycle 0,.checkpointLock,.checkpointBegin none,.checkpointSnapshot,
    .checkpointClogFlush,.checkpointSample,.checkpointEnd none,.walSync 5,.checkpointEndFlush true]

/-- Recovery does not find transaction 1, whose only record is in front of the redo point. -/
theorem unfinished_missed : ∃ s s₁, Reach stepEarly (· = fresh) (Flushed · ·) s ∧
    stepEarly s (.crash 5 fun _ => false) = some s₁ ∧ Unfinished s₁.log 1 ∧
    1 ∉ recoveredActiveXids s₁ := by
  have hrun : ∃ s, Reach stepEarly (· = fresh) (Flushed · ·) s ∧
      (stepEarly s (.crash 5 fun _ => false)).any (fun s₁ => decide
        (Rec.other 1 ∈ s₁.log ∧ Rec.txnCommit 1 ∉ s₁.log ∧ Rec.txnAbort 1 ∉ s₁.log ∧
          1 ∉ recoveredActiveXids s₁)) = true :=
    @exists_reach _ _ stepEarly (· = fresh) (Flushed · ·) _ fresh rfl checkpointedAgain _
      (by decide +kernel)
  obtain ⟨s,hs,hp⟩ := hrun
  obtain ⟨s₁,hs₁,hd⟩ := (Option.any_eq_true _ _).1 hp
  obtain ⟨hrec,hcommit,habort,hmiss⟩ := of_decide_eq_true hd
  refine ⟨s,s₁,hs,hs₁,⟨nofun,⟨_,hrec,rfl⟩,fun o => ?_⟩,hmiss⟩
  cases o
  · exact hcommit
  · exact habort

/-- After one checkpoint transaction 1 is found. -/
theorem unfinished_found_one : ∃ s s₁, Reach stepEarly (· = fresh) (Flushed · ·) s ∧
    stepEarly s (.crash 3 fun _ => false) = some s₁ ∧ Rec.other 1 ∈ s₁.log ∧
    (∀ x, Unfinished s₁.log x → x ∈ recoveredActiveXids s₁) ∧
    ∀ x ∈ recoveredActiveXids s₁, ∀ o : Outcome, o.record x ∉ s₁.log := by
  have hrun : ∃ s, Reach stepEarly (· = fresh) (Flushed · ·) s ∧
      (stepEarly s (.crash 3 fun _ => false)).any (fun s₁ => decide (Rec.other 1 ∈ s₁.log ∧
        findLatestCheckpointEnd (s₁.log.drop (redoStart s₁)) =
          some s₁.superblock.checkpointLsn)) = true :=
    @exists_reach _ _ stepEarly (· = fresh) (Flushed · ·) _ fresh rfl checkpointed _
      (by decide +kernel)
  obtain ⟨s,hs,hp⟩ := hrun
  obtain ⟨s₁,hs₁,hd⟩ := (Option.any_eq_true _ _).1 hp
  obtain ⟨hrec,hend⟩ := of_decide_eq_true hd
  obtain ⟨-,hiff,hnone⟩ := unfinished_found_iff hs hs₁
  exact ⟨s,s₁,hs,hs₁,hrec,hiff.2 (.inl hend),hnone⟩

end TxnSystem
end PgAm
