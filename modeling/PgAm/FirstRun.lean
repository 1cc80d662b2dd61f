import PgAm.TxnRecovery

/-! The first run of a database, up to its first crash. Every transaction with a record is active
or has its terminal record in the log, so the active ones that a checkpoint saves cover the records
in front of its begin. -/
namespace PgAm
namespace TxnSystem

open Function

/-- `flush_to` as it is: it returns once everything in front of the record is durable. -/
def stepEarly (s : Sys) : Step → Option Sys
  | .flushEnd xid true =>
    match s.mode, s.calls xid with
    | .running, some (.appended o lsn) =>
      if lsn ≤ s.synced + 1 then some (setCall s xid (.flushed o)) else none
    | _, _ => none
  | .checkpointEndFlush true =>
    match s.mode, s.checkpoint with
    | .running, .endAppended b n lsn =>
      if lsn ≤ s.synced + 1 then some { s with checkpoint := .endFlushed b n } else none
    | _, _ => none
  | a => step s a

/-- No crash yet, and where `flush_to` returns the record itself is durable. -/
def Flushed (s : Sys) : Step → Bool
  | .flushEnd xid true =>
    match s.calls xid with
    | some (.appended _ lsn) => lsn ≤ s.synced
    | _ => true
  | .checkpointEndFlush true =>
    match s.checkpoint with
    | .endAppended _ _ lsn => lsn ≤ s.synced
    | _ => true
  | .crash .. => false
  | _ => true

variable {s s' : Sys}

/-- A flush that waits for its record is the one of `step`. -/
theorem step_of_stepEarly {a : Step} (hok : Flushed s a = true)
    (hs : stepEarly s a = some s') : step s a = some s' := by
  cases a with
  | flushEnd x ok =>
    cases ok with
    | false => exact hs
    | true =>
      simp only [stepEarly] at hs
      split at hs
      · rename_i o lsn hm hx
        have hle : lsn ≤ s.synced := by simpa [Flushed,hx] using hok
        rw [if_pos (hle.trans (Nat.le_succ _))] at hs
        simp only [step,stepTxn,hm,hx,if_true,if_pos hle]
        rw [hs]
        rfl
      · cases hs
  | checkpointEndFlush ok =>
    cases ok with
    | false => exact hs
    | true =>
      simp only [stepEarly] at hs
      split at hs
      · rename_i b n lsn hm hc
        have hle : lsn ≤ s.synced := by simpa [Flushed,hc] using hok
        rw [if_pos (hle.trans (Nat.le_succ _))] at hs
        simp only [step,stepTxn,stepCheckpoint,hm,hc,if_true,if_pos hle]
        rw [Option.none_or,← hm]
        exact hs
      · cases hs
  | _ => exact hs

/-- Transactions with a record in front of `b` are in its snapshot or ended in `ended`. -/
def Covers (s : Sys) (b : ℕ) (ended : List Rec) : Prop :=
  ∀ r ∈ s.log.take (b - 1), r.txnId ≠ 0 → r.txnId ∈ s.attFiles b ∨
    ∃ o : Outcome, o.record r.txnId ∈ ended

theorem Covers.mono {b : ℕ} {ended ended' : List Rec} (h : Covers s b ended)
    (hb : b ≤ s.log.length) (hlog : s.log <+: s'.log) (hatt : s'.attFiles b = s.attFiles b)
    (hended : ∀ r ∈ ended, r ∈ ended') : Covers s' b ended' := by
  obtain ⟨extra,hlog⟩ := hlog
  intro r hr hx
  rw [← hlog,List.take_append_of_le_length ((Nat.sub_le _ _).trans hb)] at hr
  rw [hatt]
  exact (h r hr hx).imp id fun ⟨o,ho⟩ => ⟨o,hended _ ho⟩

def PhaseCovers (s : Sys) : Checkpoint → Prop
  | .idle | .locked | .begun _ | .superblockWritten _ => True
  | .snapshotWritten b | .clogFlushed b | .sampled b _ => Covers s b s.log
  | .endAppended b _ e => Covers s b (s.log.take e)
  | .endFlushed b _ => Covers s b (s.log.take s.synced)

structure FirstRun (s : Sys) : Prop where
  inv : RunInv s
  mode : s.mode = .running
  aborted : ∀ x, s.clog.mem x = .aborted → Rec.txnAbort x ∈ s.log.take s.synced
  live : ∀ x c, s.calls x = some c → c ≠ .ended → x ∈ s.active
  ended : ∀ r ∈ s.log, r.txnId ≠ 0 → r.txnId ∈ s.active ∨ ∃ o : Outcome, o.record r.txnId ∈ s.log
  superblock : Covers s s.superblock.checkpointLsn (s.log.take s.synced)
  phase : PhaseCovers s s.checkpoint

variable {c : Checkpoint}

theorem CheckpointInv.le_length {s : Sys} (h : CheckpointInv s c) {b : ℕ} (hb : match c with
      | .snapshotWritten k | .clogFlushed k | .sampled k _ | .endAppended k _ _ |
        .endFlushed k _ => k = b
      | _ => False) : b ≤ s.log.length := by
  cases c with
  | idle | locked | begun | superblockWritten => exact hb.elim
  | snapshotWritten k => exact hb ▸ h.1.le
  | clogFlushed k => exact hb ▸ h.1.1.le
  | sampled k n => exact hb ▸ (Sampled.held h).le
  | endAppended k n e | endFlushed k n => exact hb ▸ h.1.held.le

theorem mem_take_mono {l l' : List Rec} {m n : ℕ} (hl : l <+: l') (hn : m ≤ n) {r : Rec}
    (hr : r ∈ l.take m) : r ∈ l'.take n := by
  obtain ⟨extra,rfl⟩ := hl
  refine List.take_subset_take_left _ hn ?_
  rw [List.take_append]
  exact List.mem_append_left _ hr

theorem PhaseCovers.mono (h : PhaseCovers s c)
    (hc : CheckpointInv s c) (hlog : s.log <+: s'.log) (hsynced : s.synced ≤ s'.synced)
    (hatt : s'.attFiles = s.attFiles) : PhaseCovers s' c := by
  have hall : ∀ r ∈ s.log, r ∈ s'.log := fun _ hr => hlog.subset hr
  cases c with
  | idle | locked | begun | superblockWritten => trivial
  | snapshotWritten b | clogFlushed b | sampled b n =>
    exact Covers.mono h (hc.le_length rfl) hlog (congrFun hatt b) hall
  | endAppended b n e =>
    exact Covers.mono h (hc.le_length rfl) hlog (congrFun hatt b)
      fun _ hr => mem_take_mono hlog le_rfl hr
  | endFlushed b n =>
    exact Covers.mono h (hc.le_length rfl) hlog (congrFun hatt b)
      fun _ hr => mem_take_mono hlog hsynced hr

/-- A new record belongs to no transaction, to an active one, or ends one. -/
structure Moves (s s' : Sys) : Prop where
  log : s'.log = s.log ∨ ∃ r, s'.log = s.log ++ [r] ∧
    (r.txnId = 0 ∨ r.txnId ∈ s'.active ∨ ∃ (o : Outcome) (x : ℕ), r = o.record x)
  synced : s.synced ≤ s'.synced
  active : ∀ x ∈ s.active, x ∈ s'.active ∨ ∃ o : Outcome, o.record x ∈ s.log
  live : ∀ x c, s'.calls x = some c → c ≠ .ended → x ∈ s'.active
  mem : ∀ x, s'.clog.mem x = .aborted →
    s.clog.mem x = .aborted ∨ Rec.txnAbort x ∈ s.log.take s.synced

theorem Moves.log_append (h : Moves s s') : s.log <+: s'.log := by
  rcases h.log with hl | ⟨r,hl,-⟩
  · exact hl ▸ List.prefix_rfl
  · exact hl ▸ List.prefix_append _ _

theorem FirstRun.moves (h : FirstRun s) (hm : Moves s s') (hinv : RunInv s')
    (hmode : s'.mode = s.mode)
    (hsb : Covers s' s'.superblock.checkpointLsn (s'.log.take s'.synced))
    (hphase : PhaseCovers s' s'.checkpoint) : FirstRun s' := by
  have hlog := hm.log_append
  refine ⟨hinv,hmode.trans h.mode,fun x hx => ?_,hm.live,fun r hr hx => ?_,hsb,hphase⟩
  · refine mem_take_mono hlog hm.synced ?_
    exact (hm.mem x hx).elim (h.aborted x) id
  · have hold : ∀ y, (y ∈ s.active ∨ ∃ o : Outcome, o.record y ∈ s.log) →
        y ∈ s'.active ∨ ∃ o : Outcome, o.record y ∈ s'.log := by
      rintro y (hy | ⟨o,ho⟩)
      · exact (hm.active y hy).imp id fun ⟨o,ho⟩ => ⟨o,hlog.subset ho⟩
      · exact .inr ⟨o,hlog.subset ho⟩
    rcases hm.log with hl | ⟨q,hl,hq⟩
    · exact hold _ (h.ended r (hl ▸ hr) hx)
    · rw [hl] at hr
      rcases List.mem_append.1 hr with hr | hr
      · exact hold _ (h.ended r hr hx)
      · cases List.mem_singleton.1 hr
        rcases hq with hq | hq | ⟨o,y,rfl⟩
        · exact absurd hq hx
        · exact .inl hq
        · refine .inr ⟨o,?_⟩
          rw [hl,Outcome.record_txnId]
          exact List.mem_append_right _ (List.mem_singleton_self _)

theorem FirstRun.keeps (h : FirstRun s) (hm : Moves s s') (hinv : RunInv s')
    (hmode : s'.mode = s.mode) (hatt : s'.attFiles = s.attFiles)
    (hsb : s'.superblock = s.superblock)
    (hphase : PhaseCovers s' s'.checkpoint) : FirstRun s' := by
  refine h.moves hm hinv hmode ?_ hphase
  rw [hsb]
  exact h.superblock.mono (h.inv.common.redo_le.trans h.inv.common.synced_le) hm.log_append
    (congrFun hatt _) fun _ hr => mem_take_mono hm.log_append hm.synced hr

theorem FirstRun.refl_moves {s : Sys} (h : FirstRun s) : Moves s s :=
  ⟨.inl rfl,le_rfl,fun _ hx => .inl hx,h.live,fun _ hx => .inl hx⟩

theorem Moves.setCall {s t : Sys} (h : Moves s t) {x : ℕ} (hx : x ∈ t.active) (c : Call) :
    Moves s (setCall t x c) := by
  refine { h with live := fun y d hd hne => ?_ }
  by_cases hy : y = x
  · exact hy ▸ hx
  · change update t.calls x (some c) y = some d at hd
    rw [update_of_ne hy] at hd
    exact h.live y d hd hne

theorem FirstRun.logs {s : Sys} (h : FirstRun s) (poisoned : Bool) {log : List Rec}
    (hlog : log = s.log ∨ ∃ r, log = s.log ++ [r] ∧ (r.txnId = 0 ∨ r.txnId ∈ s.active ∨
      ∃ (o : Outcome) (x : ℕ), r = o.record x)) :
    Moves s { s with log := log, poisoned := poisoned } :=
  { h.refl_moves with log := hlog }

theorem FirstRun.txn (h : FirstRun s) (hm : Moves s s') (hinv : RunInv s')
    (hmode : s'.mode = s.mode) (hatt : s'.attFiles = s.attFiles)
    (hsb : s'.superblock = s.superblock) (hck : s'.checkpoint = s.checkpoint) : FirstRun s' := by
  refine h.keeps hm hinv hmode hatt hsb ?_
  rw [hck]
  exact h.phase.mono h.inv.running.checkpoint hm.log_append hm.synced hatt

theorem FirstRun.stepTxn (h : FirstRun s) (hs : TxnGoes s s') : FirstRun s' := by
  have hinv := hs.inv h.inv
  cases hs with
  | begin =>
    refine h.txn ⟨.inl rfl,le_rfl,fun x hx => .inl (List.mem_cons_of_mem _ hx),fun x c hx hne => ?_,
      fun _ hx => .inl hx⟩ hinv rfl rfl rfl rfl
    change update s.calls s.txnIdClock _ x = some c at hx
    rcases of_update_eq hx with ⟨rfl,-⟩ | ⟨-,hx⟩
    · exact List.mem_cons_self
    · exact List.mem_cons_of_mem _ (h.live x c hx hne)
  | @log x _ _ hx hlog hp =>
    refine h.txn (h.logs _ (hlog.imp_right fun hl => ⟨_,hl,?_⟩)) hinv rfl rfl rfl rfl
    exact hx.imp_right fun hx => .inl (h.live x .running hx (by rintro ⟨⟩))
  | @start x o hx hc =>
    have hm := h.refl_moves.setCall (h.live x _ hx (by rintro ⟨⟩)) (.holding o)
    exact h.txn { hm with } hinv rfl rfl rfl rfl
  | @append x o hx hp =>
    have hm := h.logs s.poisoned (.inr ⟨o.record x,rfl,.inr (.inr ⟨o,x,rfl⟩)⟩)
    exact h.txn (hm.setCall (h.live x _ hx (by rintro ⟨⟩)) _) hinv rfl rfl rfl rfl
  | flush hx hlsn =>
    exact h.txn (h.refl_moves.setCall (h.live _ _ hx (by rintro ⟨⟩)) _) hinv rfl rfl rfl rfl
  | @fail x c log hx hc _ hlog =>
    have hm := h.logs true (hlog.imp_right fun ⟨_,o,_,hl⟩ =>
      ⟨_,hl,.inr (.inr ⟨o,x,rfl⟩)⟩)
    have hlive := hm.setCall (h.live x c hx (by rintro rfl; cases hc)) .running
    exact h.txn { hlive with } hinv rfl rfl rfl rfl
  | @set x o hx =>
    have hrec : o.record x ∈ s.log.take s.synced := h.inv.running.call x _ hx
    have hm := h.refl_moves.setCall (h.live x _ hx (by rintro ⟨⟩)) (.stateSet o)
    refine h.txn { hm with mem := fun y hy => ?_ } hinv rfl rfl rfl rfl
    change (s.clog.setState x o.state).mem y = .aborted at hy
    rw [Clog.setState_mem (h.inv.calls_pos (by simp [hx]))] at hy
    rcases of_update_eq hy with ⟨rfl,he⟩ | ⟨-,he⟩
    · cases o with
      | commit => cases he
      | abort => exact .inr hrec
    · exact .inl he
  | @leave x o hx =>
    have hrec : o.record x ∈ s.log := (h.inv.running.call x _ hx).2
    refine h.txn ⟨.inl rfl,le_rfl,fun y hy => ?_,fun y c hy hne => ?_,
      fun _ hy => .inl hy⟩ hinv rfl rfl rfl rfl
    · by_cases hyx : y = x
      · exact .inr ⟨o,hyx ▸ hrec⟩
      · exact .inl (List.mem_filter.2 ⟨hy,decide_eq_true hyx⟩)
    · change update s.calls x _ y = some c at hy
      rcases of_update_eq hy with ⟨rfl,he⟩ | ⟨hyx,he⟩
      · cases he
        exact absurd rfl hne
      · exact List.mem_filter.2 ⟨h.live y c he hne,decide_eq_true hyx⟩

theorem FirstRun.phaseCovers {s : Sys} (h : FirstRun s) (hc : s.checkpoint = c) : PhaseCovers s c :=
  hc ▸ h.phase

theorem FirstRun.stepCheckpoint (h : FirstRun s) (hs : CheckpointGoes s s') : FirstRun s' := by
  have hinv := hs.inv h.inv
  cases hs with
  | lock | recycle => exact h.keeps { h.refl_moves with } hinv rfl rfl rfl trivial
  | begin hc hp =>
    have hm := h.logs s.poisoned (.inr ⟨.checkpointBegin,rfl,.inl rfl⟩)
    exact h.keeps { hm with } hinv rfl rfl rfl trivial
  | @snapshot b hc =>
    have hlater := (h.inv.checkpointInv hc : Held s b).later
    refine h.moves { h.refl_moves with } hinv rfl ?_ fun r hr hx => ?_
    · refine h.superblock.mono (h.inv.common.redo_le.trans h.inv.common.synced_le) List.prefix_rfl
        ?_ fun _ hr => hr
      exact update_of_ne hlater.ne _ _
    · change r.txnId ∈ update s.attFiles b s.active b ∨ _
      rw [update_self]
      exact h.ended r (List.mem_of_mem_take hr) hx
  | flush hc => exact h.keeps { h.refl_moves with } hinv rfl rfl rfl (h.phaseCovers hc)
  | flushFail pages segments =>
    have hmem := (Written.flush h.inv.common pages segments).mem
    exact h.keeps { h.refl_moves with mem := fun y hy => .inl (hmem ▸ hy) } hinv rfl rfl rfl trivial
  | @sample b hc =>
    have hcovers : Covers s b s.log := h.phaseCovers hc
    exact h.keeps { h.refl_moves with } hinv rfl rfl rfl hcovers
  | @append b n hc =>
    have hm := h.logs s.poisoned (.inr ⟨.checkpointEnd b n,rfl,.inl rfl⟩)
    have hcovers : Covers s b s.log := h.phaseCovers hc
    refine h.keeps { hm with } hinv rfl rfl rfl (hcovers.mono
      (CheckpointInv.le_length (h.inv.checkpointInv hc) rfl) hm.log_append rfl fun r hr => ?_)
    exact mem_take_mono hm.log_append (Nat.le_succ _) (by rwa [List.take_length])
  | @endFlush b n lsn hc hlsn =>
    have hcovers : Covers s b (s.log.take lsn) := h.phaseCovers hc
    exact h.keeps { h.refl_moves with } hinv rfl rfl rfl (hcovers.mono
      (CheckpointInv.le_length (h.inv.checkpointInv hc) rfl) List.prefix_rfl rfl
      fun r hr => mem_take_mono List.prefix_rfl hlsn hr)
  | @superblock b n c hc hc' =>
    have hcovers : Covers s b (s.log.take s.synced) := h.phaseCovers hc
    refine h.moves { h.refl_moves with } hinv rfl hcovers ?_
    rcases hc' with rfl | rfl <;> trivial
  | @stop log poisoned hlog hp =>
    have hm := h.logs poisoned (hlog.imp_right fun ⟨r,hl,hr,_⟩ => ⟨r,hl,.inl hr⟩)
    exact h.keeps { hm with } hinv rfl rfl rfl trivial

/-- One step of the first run. -/
theorem FirstRun.next {s s' : Sys} {a : Step} (h : FirstRun s) (hok : Flushed s a = true)
    (hs : step s a = some s') : FirstRun s' := by
  unfold step at hs
  split at hs
  case h_1 n =>
    obtain ⟨hn,rfl⟩ := of_guard hs
    have hinv : Inv { s with synced := n } :=
      Inv.walSync ⟨h.inv.common,h.mode ▸ h.inv.running⟩ hn.1 hn.2
    exact h.txn ⟨.inl rfl,hn.1,fun _ hx => .inl hx,h.live,fun _ hx => .inl hx⟩
      (hinv.running h.mode) rfl rfl rfl rfl
  case h_2 page =>
    cases hs
    have hw : Written s (s.clog.writePage page) :=
      ⟨rfl,h.inv.common.writePage page,fun _ => .inr rfl⟩
    exact h.txn { h.refl_moves with } (h.inv.write hw) rfl rfl rfl rfl
  case h_3 n keep => cases hok
  case h_4 =>
    rw [h.mode] at hs
    rcases Option.or_eq_some_iff.1 hs with hs | ⟨-,hs⟩
    · exact h.stepTxn (stepTxn_goes hs)
    · exact h.stepCheckpoint (stepCheckpoint_goes hs)

theorem fresh_firstRun : FirstRun fresh := by
  have hinv := fresh_inv
  exact ⟨⟨hinv.common,hinv.mode⟩,rfl,nofun,nofun,nofun,nofun,trivial⟩

open Machine

theorem reach_firstRun {s : Sys} (h : Reach stepEarly (· = fresh) (Flushed · ·) s) : FirstRun s :=
  h.invariant (fun _ hs => hs ▸ fresh_firstRun) fun _ _ _ hi hok hs =>
    hi.next hok (step_of_stepEarly hok hs)

end TxnSystem
end PgAm
