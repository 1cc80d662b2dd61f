import PgAm.TxnOutcome

/-! Recovery restores the transaction outcomes. Replay sets the state of every terminal
record behind the redo point, the states of the earlier ones were synced before the
superblock moved, and the undo pass stamps only transactions without a terminal record. -/
namespace PgAm
namespace TxnSystem

structure Quiet (s : Sys) : Prop where
  calls : ∀ x, s.calls x = none
  readers : s.readers = []
  active : s.active = []
  checkpoint : s.checkpoint = .idle

/-- Replay has reached the record with index `pos`. -/
structure Replaying (s : Sys) (pos : ℕ) (att : List ℕ) (m : ℕ) : Prop where
  quiet : Quiet s
  synced : s.synced = s.log.length
  redo_le : redoStart s ≤ pos
  pos_le : pos ≤ s.log.length
  settled : ∀ (o : Outcome) x, o.record x ∈ s.log.take pos → s.clog.mem x = o.state
  att : ∀ x ∈ att, Bound s x
  seen : ∀ r ∈ (s.log.take pos).drop (redoStart s), r.txnId ≤ m

/-- Replay is done and the losers in `att` are still to be stamped. -/
structure Undoing (s : Sys) (att : List ℕ) (m : ℕ) : Prop where
  quiet : Quiet s
  settled : ∀ (o : Outcome) x, o.record x ∈ s.log → s.clog.mem x = o.state
  att : ∀ x ∈ att, Bound s x ∧ ∀ o : Outcome, o.record x ∉ s.log
  seen : ∀ r ∈ s.log.drop (redoStart s), r.txnId ≤ m

def ModeInv (s : Sys) : Mode → Prop
  | .running => Running s
  | .down => Quiet s
  | .replaying pos att m => Replaying s pos att m
  | .undoing att m => Undoing s att m

structure Inv (s : Sys) : Prop where
  common : Common s
  mode : ModeInv s s.mode

variable {s : Sys}

theorem Inv.of_mode (h : Inv s) {m : Mode} (hm : s.mode = m) : ModeInv s m :=
  hm ▸ h.mode

theorem Common.mem_of_redo (h : Common s) {o : Outcome} {x : ℕ}
    (hx : o.record x ∈ s.log.take (redoStart s)) : s.clog.mem x = o.state := by
  have hs := h.stable o x hx
  have hset := (h.file_settles x).trans (h.mem_settles x)
  exact (hset.eq_of_ne (by simp [hs])).trans hs

variable {att : List ℕ} {r : Rec}

theorem mem_analyze {x : ℕ} (hx : x ∈ analyze att r) : x ∈ att ∨ r.txnId = x := by
  cases r with
  | txnCommit y | txnAbort y => exact .inl (List.mem_of_mem_filter hx)
  | other y =>
    simp only [analyze] at hx
    split at hx
    · exact .inl hx
    · rcases List.mem_cons.1 hx with rfl | hx
      · exact .inr rfl
      · exact .inl hx
  | checkpointBegin | checkpointEnd => exact .inl hx

theorem mem_foldl_analyze {rs : List Rec} {x : ℕ} (hx : x ∈ rs.foldl analyze att) :
    x ∈ att ∨ ∃ r ∈ rs, r.txnId = x := by
  induction rs generalizing att with
  | nil => exact .inl hx
  | cons r rs ih =>
    rcases ih hx with hx | ⟨q,hq,hx⟩
    · exact (mem_analyze hx).imp id fun hr => ⟨r,List.mem_cons_self,hr⟩
    · exact .inr ⟨q,List.mem_cons_of_mem _ hq,hx⟩

theorem bound_of_mem_runAnalysis (h : Common s) (hsynced : s.synced = s.log.length)
    {x : ℕ} (hx : x ∈ runAnalysis s) : Bound s x := by
  rcases mem_foldl_analyze hx with hx | ⟨r,hr,hx⟩
  · left
    split at hx
    · split at hx
      case isTrue heq => exact h.snapshot x (heq ▸ hx)
      case isFalse => cases hx
    · cases hx
  · right
    rw [hsynced,List.take_length]
    exact ⟨r,hr,hx⟩

theorem Inv.openWal (h : Inv s) (hm : s.mode = .down) : Inv { s with
      synced := s.log.length
      mode := .replaying (redoStart s) (runAnalysis { s with synced := s.log.length }) 0 } := by
  have hquiet : Quiet s := h.of_mode hm
  have hc := h.common.sync h.common.synced_le le_rfl
  refine ⟨{ hc with },{ hquiet with },rfl,le_rfl,
    h.common.redoStart_le.trans h.common.synced_le,fun o x hx => h.common.mem_of_redo hx,
    fun x hx => bound_of_mem_runAnalysis hc rfl hx,fun r hr => ?_⟩
  change r ∈ (s.log.take (redoStart s)).drop (redoStart s) at hr
  rw [List.drop_take,Nat.sub_self,List.take_zero] at hr
  cases hr

theorem redo_record (c : Clog) (o : Outcome) (x : ℕ) :
    redo c (o.record x) = c.setState x o.state := by
  cases o <;> rfl

theorem redo_cases (c : Clog) (r : Rec) :
    (∃ (o : Outcome) (x : ℕ), r = o.record x) ∨
      (redo c r = c ∧ ∀ (o : Outcome) x, o.record x ≠ r) := by
  cases r with
  | txnCommit x => exact .inl ⟨.commit,x,rfl⟩
  | txnAbort x => exact .inl ⟨.abort,x,rfl⟩
  | other x => exact .inr ⟨rfl,fun o y => record_ne_other o y x⟩
  | checkpointBegin => exact .inr ⟨rfl,record_ne_checkpointBegin⟩
  | checkpointEnd a b => exact .inr ⟨rfl,fun o y => record_ne_checkpointEnd o y a b⟩

theorem redo_mem (h : Common s) (hr : r ∈ s.log) {l : List Rec}
    (hl : ∀ q ∈ l, q ∈ s.log) (hset : ∀ (o : Outcome) x, o.record x ∈ l → s.clog.mem x = o.state) :
    ∀ (o : Outcome) x, o.record x ∈ l ++ [r] → (redo s.clog r).mem x = o.state := by
  intro o x hx
  rcases redo_cases s.clog r with ⟨o',y,rfl⟩ | ⟨he,hne⟩
  · have hy : y ≠ 0 := fun hy => h.positive o' (hy ▸ hr)
    rw [redo_record,Clog.setState_mem hy]
    by_cases hxy : x = y
    · subst hxy
      have hx' : o.record x ∈ s.log := (List.mem_append.1 hx).elim (hl _) fun hx =>
        List.mem_singleton.1 hx ▸ hr
      rw [Function.update_self,h.outcome_eq hx' hr]
    · rw [Function.update_of_ne hxy]
      refine hset o x ((List.mem_append.1 hx).resolve_right fun hx => hxy ?_)
      exact (record_inj (List.mem_singleton.1 hx)).2
  · rw [he]
    exact hset o x ((List.mem_append.1 hx).resolve_right fun hx =>
      hne o x (List.mem_singleton.1 hx))

theorem Common.redo (h : Common s) (hr : r ∈ s.log.take s.synced) :
    Common { s with clog := TxnSystem.redo s.clog r } := by
  rcases redo_cases s.clog r with ⟨o,x,rfl⟩ | ⟨he,-⟩
  · rw [redo_record]
    exact h.setState (h.mem_of_record (List.mem_of_mem_take hr)) (justified_state hr)
  · rw [he]
    exact h

theorem take_succ_of_get {log : List Rec} {pos : ℕ} (h : log[pos]? = some r) :
    log.take (pos + 1) = log.take pos ++ [r] := by
  rw [List.take_add_one,h]
  rfl

theorem Inv.replay (h : Inv s) {pos m : ℕ}
    (hm : s.mode = .replaying pos att m) (hr : s.log[pos]? = some r) :
    Inv { s with clog := redo s.clog r, mode := .replaying (pos + 1) att (max m r.txnId) } := by
  have hrep : Replaying s pos att m := h.of_mode hm
  have hlt : pos < s.log.length := (List.getElem?_eq_some_iff.1 hr).1
  have hmem : r ∈ s.log := List.mem_of_getElem? hr
  have htake := take_succ_of_get hr
  have hc : Common { s with clog := redo s.clog r } :=
    h.common.redo (by rwa [hrep.synced,List.take_length])
  refine ⟨{ hc with },{ hrep.quiet with },hrep.synced,
    hrep.redo_le.trans (Nat.le_succ _),hlt,fun o x hx => ?_,hrep.att,fun q hq => ?_⟩
  · rw [htake] at hx
    exact redo_mem h.common hmem (fun _ => List.mem_of_mem_take) hrep.settled o x hx
  · change q ∈ (s.log.take (pos + 1)).drop (redoStart s) at hq
    have hlen : redoStart s ≤ (s.log.take pos).length := by
      rw [List.length_take,Nat.min_eq_left hlt.le]
      exact hrep.redo_le
    rw [htake,List.drop_append_of_le_length hlen] at hq
    rcases List.mem_append.1 hq with hq | hq
    · exact (hrep.seen q hq).trans (le_max_left _ _)
    · exact List.mem_singleton.1 hq ▸ le_max_right _ _

theorem Common.getState_eq {x : ℕ} (hx : x ≠ 0) : s.clog.getState x = s.clog.mem x := by
  unfold Clog.getState TxnId.invalid
  rw [if_neg hx]

variable {m : ℕ}

theorem Inv.replayDone (h : Inv s) (hm : s.mode = .replaying s.log.length att m) :
    Inv { s with mode := .undoing (att.filter fun x => s.clog.getState x ≠ .committed ∧
      s.clog.getState x ≠ .aborted) m } := by
  have hrep : Replaying s s.log.length att m := h.of_mode hm
  have hset : ∀ (o : Outcome) x, o.record x ∈ s.log → s.clog.mem x = o.state := fun o x hx =>
    hrep.settled o x (by rwa [List.take_length])
  refine ⟨{ h.common with },{ hrep.quiet with },hset,
    fun x hx => ?_,fun r hr => hrep.seen r (by rwa [List.take_length])⟩
  obtain ⟨hatt,hst⟩ := List.mem_filter.1 hx
  refine ⟨hrep.att x hatt,fun o ho => ?_⟩
  have hx0 : x ≠ 0 := fun h0 => h.common.positive o (h0 ▸ ho)
  rw [decide_eq_true_eq,Common.getState_eq hx0,hset o x ho] at hst
  cases o with
  | commit => exact hst.1 rfl
  | abort => exact hst.2 rfl

theorem Inv.undo (h : Inv s) {x m : ℕ} (hm : s.mode = .undoing (x :: att) m) :
    Inv { s with clog := s.clog.setState x .aborted, mode := .undoing att m } := by
  have hundo : Undoing s (x :: att) m := h.of_mode hm
  obtain ⟨hbound,hnone⟩ := hundo.att x List.mem_cons_self
  have hsettles : Settles (s.clog.mem x) .aborted := by
    have hj := h.common.justified x
    cases hv : s.clog.mem x with
    | inProgress => exact .inl rfl
    | aborted => exact .inr rfl
    | committed =>
      rw [hv] at hj
      exact absurd (List.mem_of_mem_take hj) (hnone .commit)
    | subCommitted =>
      rw [hv] at hj
      exact hj.elim
  have hc := h.common.setState hsettles (.inr ⟨hbound,hnone .commit,hundo.quiet.calls x⟩)
  refine ⟨{ hc with },{ hundo.quiet with },
    fun o y hy => ?_,fun y hy => hundo.att y (List.mem_cons_of_mem _ hy),hundo.seen⟩
  have hyx : y ≠ x := by
    rintro rfl
    exact hnone o hy
  change (s.clog.setState x .aborted).mem y = o.state
  unfold Clog.setState
  split
  · exact hundo.settled o y hy
  · exact (Function.update_of_ne hyx _ _).trans (hundo.settled o y hy)

theorem Inv.finish (h : Inv s) (hm : s.mode = .undoing [] m) : Inv { s with
      txnIdClock := if m = TxnId.invalid then s.superblock.nextTxnId
        else max s.superblock.nextTxnId (m + 1)
      mode := .running } := by
  have hundo : Undoing s [] m := h.of_mode hm
  have hnext := h.common.next_pos
  refine ⟨{ h.common with },?_,fun r hr => ?_,fun x hx => ?_,
    fun x hx => absurd (hundo.quiet.calls x) hx,fun x c hx => ?_,fun x c hx _ => ?_,
    fun o x hx => .inl (hundo.settled o x hx),?_⟩
  · dsimp only
    split
    · exact le_rfl
    · exact le_max_left _ _
  · have hlt : r.txnId < s.superblock.nextTxnId ∨ r.txnId ≤ m := by
      have hr' : r ∈ s.log := hr
      rw [← List.take_append_drop (redoStart s) s.log] at hr'
      exact (List.mem_append.1 hr').imp (h.common.known r) (hundo.seen r)
    have hinvalid : TxnId.invalid = 0 := rfl
    dsimp only
    split <;> omega
  · have hx' : x ∈ s.active := hx
    rw [hundo.quiet.active] at hx'
    cases hx'
  · have hx' : s.calls x = some c := hx
    rw [hundo.quiet.calls x] at hx'
    cases hx'
  · have hx' : s.calls x = some c := hx
    rw [hundo.quiet.calls x] at hx'
    cases hx'
  · change CheckpointInv _ s.checkpoint
    rw [hundo.quiet.checkpoint]
    trivial

variable {a : Step}

theorem stepRecovery_inv {s s' : Sys} (h : Inv s) (hs : stepRecovery s a = some s') : Inv s' := by
  cases a with
  | openWal =>
    obtain ⟨hok,rfl⟩ := of_guard hs
    exact h.openWal hok.1
  | replay =>
    simp only [stepRecovery] at hs
    split at hs
    case h_2 => cases hs
    case h_1 pos att m hm =>
      split at hs <;> cases hs
      exact h.replay hm ‹_›
  | replayDone =>
    simp only [stepRecovery] at hs
    split at hs
    case h_2 => cases hs
    case h_1 pos att m hm =>
      obtain ⟨hpos,rfl⟩ := of_guard hs
      exact h.replayDone (hpos ▸ hm)
  | undo =>
    simp only [stepRecovery] at hs
    split at hs <;> cases hs
    exact h.undo ‹_›
  | finish =>
    simp only [stepRecovery] at hs
    split at hs <;> cases hs
    exact h.finish ‹_›
  | _ => cases hs

theorem Quiet.crash (s : Sys) (n : ℕ) (keep : ℕ → Bool) :
    Quiet { s with
      log := s.log.take n, poisoned := false, clog := s.clog.crash keep, active := []
      calls := fun _ => none, readers := [], checkpoint := .idle, mode := .down } :=
  ⟨fun _ => rfl,rfl,rfl,rfl⟩

theorem Inv.walSync (h : Inv s) {n : ℕ} (hn : s.synced ≤ n)
    (hle : n ≤ s.log.length) : Inv { s with synced := n } := by
  have hc := h.common.sync hn hle
  have hbound : ∀ {x}, Bound s x → Bound { s with synced := n } x := fun hb =>
    hb.imp id fun ⟨r,hr,hx⟩ => ⟨r,mem_drop_take_mono hn hr,hx⟩
  have hkeep : ∀ m, ModeInv s m → ModeInv { s with synced := n } m := by
    intro m hmode
    cases m with
    | running =>
      have ha : Advances s { s with synced := n } := ⟨rfl,le_rfl,rfl,hn,id,[],by simp,by simp⟩
      exact Running.advance hmode h.common.synced_le ha rfl rfl hmode.clock_next
        (hmode.checkpoint.advance ha rfl rfl fun _ => .inr rfl)
    | down =>
      have hquiet : Quiet s := hmode
      exact { hquiet with }
    | replaying pos att m =>
      have hrep : Replaying s pos att m := hmode
      exact ⟨{ hrep.quiet with },le_antisymm hle (hrep.synced.symm.le.trans hn),
        hrep.redo_le,hrep.pos_le,hrep.settled,fun x hx => hbound (hrep.att x hx),hrep.seen⟩
    | undoing att m =>
      have hundo : Undoing s att m := hmode
      exact ⟨{ hundo.quiet with },hundo.settled,
        fun x hx => (hundo.att x hx).imp hbound id,hundo.seen⟩
  exact ⟨hc,hkeep s.mode h.mode⟩

theorem Inv.clogWriteback (h : Inv s) (page : ℕ) :
    Inv { s with clog := s.clog.writePage page } := by
  have hkeep : ∀ m, ModeInv s m → ModeInv { s with clog := s.clog.writePage page } m := by
    intro m hmode
    cases m with
    | running =>
      have hw : Written s (s.clog.writePage page) :=
        ⟨rfl,h.common.writePage page,fun _ => .inr rfl⟩
      exact (RunInv.write ⟨h.common,hmode⟩ hw).running
    | down =>
      have hquiet : Quiet s := hmode
      exact { hquiet with }
    | replaying pos att m =>
      have hrep : Replaying s pos att m := hmode
      exact { hrep with quiet := { hrep.quiet with } }
    | undoing att m =>
      have hundo : Undoing s att m := hmode
      exact { hundo with quiet := { hundo.quiet with } }
  exact ⟨h.common.writePage page,hkeep s.mode h.mode⟩

theorem Inv.logUndo (h : Inv s) (hm : s.mode = .undoing att m)
    (fault : Option Bool) : Inv (append s (.other 0) fault).2 := by
  have hundo : Undoing s att m := h.of_mode hm
  have hne : ∀ (o : Outcome) x, Rec.other 0 ≠ o.record x := fun o x he =>
    record_ne_other o x 0 he.symm
  have hc : Common { s with log := s.log ++ [.other 0] } :=
    h.common.append fun o x hx => absurd hx (hne o x)
  have hrec : ∀ {o : Outcome} {x}, o.record x ∈ s.log ++ [.other 0] → o.record x ∈ s.log :=
    fun ho => (List.mem_append.1 ho).resolve_right fun ho => hne _ _ (List.mem_singleton.1 ho).symm
  have hredo := h.common.redoStart_le.trans h.common.synced_le
  have hbound : ∀ {x}, Bound s x → Bound { s with log := s.log ++ [.other 0] } x := fun hb => by
    unfold Bound redoStart at hb ⊢
    rwa [List.take_append_of_le_length h.common.synced_le]
  have hlogged : Undoing { s with log := s.log ++ [.other 0] } att m := by
    refine ⟨{ hundo.quiet with },fun o x hx => hundo.settled o x (hrec hx),
      fun x hx => ⟨hbound (hundo.att x hx).1,fun o ho => (hundo.att x hx).2 o (hrec ho)⟩,
      fun r hr => ?_⟩
    change r ∈ (s.log ++ [Rec.other 0]).drop (redoStart s) at hr
    rw [List.drop_append_of_le_length hredo] at hr
    rcases List.mem_append.1 hr with hr | hr
    · exact hundo.seen r hr
    · exact List.mem_singleton.1 hr ▸ Nat.zero_le _
  have hmode : ∀ t : Sys, t.mode = s.mode → Undoing t att m → ModeInv t t.mode := fun t ht hu => by
    rw [ht,hm]
    exact hu
  rcases append_cases s (.other 0) fault with ⟨he,-⟩ | ⟨_,he,rfl | ⟨-,rfl⟩⟩ <;> rw [he]
  · exact ⟨hc,hmode _ rfl hlogged⟩
  · exact ⟨{ h.common with },hmode _ rfl
      { hundo with quiet := { hundo.quiet with } }⟩
  · exact ⟨{ hc with },hmode _ rfl
      { hlogged with quiet := { hlogged.quiet with } }⟩

theorem Inv.running (h : Inv s) (hm : s.mode = .running) : RunInv s :=
  ⟨h.common,h.of_mode hm⟩

theorem TxnGoes.mode_eq {s s' : Sys} (h : TxnGoes s s') : s'.mode = s.mode := by
  cases h <;> rfl

theorem CheckpointGoes.mode_eq {s s' : Sys} (h : CheckpointGoes s s') : s'.mode = s.mode := by
  cases h <;> rfl

theorem Inv.runStep {s s' : Sys} (h : Inv s) (hm : s.mode = .running)
    (hs : (stepTxn s a).or (stepCheckpoint s a) = some s') : Inv s' := by
  have hkept : RunInv s' ∧ s'.mode = s.mode := by
    rcases Option.or_eq_some_iff.1 hs with hs | ⟨-,hs⟩
    · exact ⟨(stepTxn_goes hs).inv (h.running hm),(stepTxn_goes hs).mode_eq⟩
    · exact ⟨(stepCheckpoint_goes hs).inv (h.running hm),(stepCheckpoint_goes hs).mode_eq⟩
  refine ⟨hkept.1.common,?_⟩
  rw [hkept.2,hm]
  exact hkept.1.running

theorem step_inv {s s' : Sys} (h : Inv s) (hs : step s a = some s') : Inv s' := by
  unfold step at hs
  split at hs
  case h_1 n =>
    obtain ⟨hok,rfl⟩ := of_guard hs
    exact h.walSync hok.1 hok.2
  case h_2 page =>
    cases hs
    exact h.clogWriteback page
  case h_3 n keep =>
    obtain ⟨hok,rfl⟩ := of_guard hs
    exact ⟨h.common.crash hok.1 hok.2 keep,Quiet.crash s n keep⟩
  case h_4 =>
    split at hs
    case h_1 hm => exact h.runStep hm hs
    case h_2 hm =>
      split at hs
      · cases hs
        exact h.logUndo hm _
      · exact stepRecovery_inv h hs
    case h_3 => exact stepRecovery_inv h hs

theorem fresh_inv : Inv fresh := by
  refine ⟨⟨le_rfl,le_rfl,le_rfl,le_rfl,by simp [fresh],by simp [fresh],fun _ => .inl rfl,
    fun _ => .inl rfl,fun _ => trivial,by simp [fresh],by simp [fresh],by simp [fresh]⟩,
    le_rfl,by simp [fresh],by simp [fresh],by simp [fresh],by simp [fresh],by simp [fresh],
    by simp [fresh],trivial⟩

open Machine

theorem reach_inv (h : Reach step (· = fresh) anyStep s) : Inv s :=
  h.invariant (fun _ hs => hs ▸ fresh_inv) fun _ _ _ hi _ hs => step_inv hi hs

theorem Common.outcomes (h : Common s)
    (hset : ∀ (o : Outcome) x, o.record x ∈ s.log → s.clog.mem x = o.state) : Outcomes s := by
  have hread : ∀ (o : Outcome) x, o.record x ∈ s.log.take s.synced →
      s.clog.getState x = o.state := by
    intro o x hx
    have hx' := List.mem_of_mem_take hx
    rw [Common.getState_eq fun h0 => h.positive o (h0 ▸ hx')]
    exact hset o x hx'
  refine fun x => ⟨hread .commit x,hread .abort x,fun hx => ?_⟩
  have hj := h.justified x
  by_cases h0 : x = 0
  · subst h0
    cases hx
  · rw [Common.getState_eq h0] at hx
    rwa [hx] at hj

theorem Inv.finish_outcomes {s s' : Sys} (h : Inv s) (hs : step s .finish = some s') :
    Outcomes s' := by
  cases hm : s.mode with
  | undoing att m =>
    have hundo : Undoing s att m := h.of_mode hm
    cases att with
    | nil =>
      simp only [step,stepRecovery,hm,Option.some.injEq] at hs
      exact hs ▸ { h.common with }.outcomes hundo.settled
    | cons x att => simp [step,stepRecovery,hm] at hs
  | _ => simp [step,stepTxn,stepCheckpoint,stepRecovery,hm] at hs

def Step.isRecovery : Step → Bool
  | .openWal | .replay | .replayDone | .undo | .finish => true
  | _ => false

abbrev Recovers (s t : Sys) : Prop := Reach step (· = s) (fun _ a => a.isRecovery = true) t

theorem undoing_finishes (hm : s.mode = .undoing att m) :
    ∃ t u, Recovers s t ∧ step t .finish = some u ∧ u.mode = .running := by
  induction att generalizing s with
  | nil =>
    have hs : step s .finish = some { s with
        txnIdClock := if m = TxnId.invalid then s.superblock.nextTxnId
          else max s.superblock.nextTxnId (m + 1)
        mode := .running } := by
      simp only [step,stepRecovery,hm]
    exact ⟨s,_,.start rfl,hs,rfl⟩
  | cons x att ih =>
    have hs : step s .undo =
        some { s with clog := s.clog.setState x .aborted, mode := .undoing att m } := by
      simp only [step,stepRecovery,hm]
    obtain ⟨t,u,ht,hu⟩ := ih (s := { s with
      clog := s.clog.setState x .aborted, mode := .undoing att m }) rfl
    exact ⟨t,u,.head rfl hs ht,hu⟩

theorem replaying_reaches_end {pos k : ℕ}
    (hm : s.mode = .replaying pos att m) (hk : pos + k = s.log.length) :
    ∃ m', Recovers s { s with
      clog := (s.log.drop pos).foldl redo s.clog, mode := .replaying s.log.length att m' } := by
  induction k generalizing s pos m with
  | zero =>
    refine ⟨m,.start ?_⟩
    have hpos : pos = s.log.length := by omega
    rw [hpos,List.drop_length,← hpos,← hm]
    rfl
  | succ k ih =>
    obtain ⟨r,hr⟩ : ∃ r, s.log[pos]? = some r := ⟨_,List.getElem?_eq_getElem (by omega)⟩
    have hs : step s .replay = some { s with
        clog := redo s.clog r, mode := .replaying (pos + 1) att (max m r.txnId) } := by
      simp only [step,stepRecovery,hm,hr]
    obtain ⟨m',ht⟩ := ih (s := { s with
      clog := redo s.clog r, mode := .replaying (pos + 1) att (max m r.txnId) }) rfl
      (by change pos + 1 + k = s.log.length; omega)
    refine ⟨m',.head rfl hs ?_⟩
    obtain ⟨hlt,rfl⟩ := List.getElem?_eq_some_iff.1 hr
    rw [List.drop_eq_getElem_cons hlt]
    exact ht

theorem step_replayDone (hm : s.mode = .replaying s.log.length att m) :
    step s .replayDone = some { s with mode := .undoing (att.filter fun x =>
      s.clog.getState x ≠ .committed ∧ s.clog.getState x ≠ .aborted) m } := by
  simp only [step,stepRecovery,hm]
  rw [if_pos trivial]

theorem replaying_finishes {pos k : ℕ}
    (hm : s.mode = .replaying pos att m) (hk : pos + k = s.log.length) :
    ∃ t u, Recovers s t ∧ step t .finish = some u ∧ u.mode = .running := by
  obtain ⟨m',hend⟩ := replaying_reaches_end hm hk
  have hdone := Reach.next hend rfl (step_replayDone rfl)
  obtain ⟨t,u,ht,hu⟩ := undoing_finishes (s := { s with
    clog := (s.log.drop pos).foldl redo s.clog
    mode := .undoing (att.filter fun x =>
      ((s.log.drop pos).foldl redo s.clog).getState x ≠ .committed ∧
        ((s.log.drop pos).foldl redo s.clog).getState x ≠ .aborted) m' }) rfl
  exact ⟨t,u,hdone.trans ht,hu⟩

theorem Inv.step_openWal (h : Inv s) (hm : s.mode = .down) : step s .openWal = some { s with
      synced := s.log.length
      mode := .replaying (redoStart s) (runAnalysis { s with synced := s.log.length }) 0 } := by
  simp only [step,stepRecovery,hm]
  rw [if_pos ⟨trivial,h.common.oldest_le⟩]
  rfl

/-- Recovery always finds the records it needs and runs to its end. -/
theorem Inv.recovers (h : Inv s) (hm : s.mode = .down) :
    ∃ t u, Recovers s t ∧ step t .finish = some u ∧ u.mode = .running := by
  have hle := h.common.redoStart_le.trans h.common.synced_le
  obtain ⟨t,u,ht,hu⟩ := replaying_finishes (s := { s with
      synced := s.log.length
      mode := .replaying (redoStart s) (runAnalysis { s with synced := s.log.length }) 0 })
    (k := s.log.length - redoStart s) rfl (by change _ = s.log.length; omega)
  exact ⟨t,u,.head rfl (h.step_openWal hm) ht,hu⟩

/-- After any crash recovery can run to its end, and whenever it does, the durable terminal records
decide the state of every transaction. -/
theorem outcomes_survive_crash {s : Sys} (h : Reach step (· = fresh) anyStep s) :
    (∀ s', step s .finish = some s' → Outcomes s') ∧
      (s.mode = .down → ∃ t u, Recovers s t ∧ step t .finish = some u ∧ u.mode = .running ∧
        Outcomes u) := by
  refine ⟨fun s' hs => (reach_inv h).finish_outcomes hs,fun hm => ?_⟩
  obtain ⟨t,u,ht,hu,hrun⟩ := (reach_inv h).recovers hm
  have hreach := h.trans (ht.mono fun _ _ _ => trivial)
  exact ⟨t,u,ht,hu,hrun,(reach_inv hreach).finish_outcomes hu⟩

/-- Transaction 1 has committed durably without its state set, 2 has only written data. -/
def commitThenCrash : List Step :=
  [.beginTxn,.beginTxn,.log 2 none,.startEnd 1 .commit,.appendEnd 1 none,.walSync 2,
    .flushEnd 1 true,.crash 2 fun _ => false,.openWal,.replay,.replay,.replayDone,.undo]

def finishesDecided (s : Sys) : Bool :=
  (step s .finish).any fun u => u.clog.getState 1 = .committed ∧ u.clog.getState 2 = .aborted

theorem outcomes_survive_crash_of_commit :
    ∃ s s', Reach step (· = fresh) anyStep s ∧ step s .finish = some s' ∧ Outcomes s' ∧
      s'.clog.getState 1 = .committed ∧ s'.clog.getState 2 = .aborted := by
  have hrun : ∃ s, Reach step (· = fresh) anyStep s ∧ finishesDecided s = true :=
    @exists_reach _ _ step (· = fresh) anyStep _ fresh rfl commitThenCrash finishesDecided
      (by decide +kernel)
  obtain ⟨s,hs,hp⟩ := hrun
  obtain ⟨s',hs',hu⟩ := (Option.any_eq_true _ _).1 hp
  exact ⟨s,s',hs,hs',(outcomes_survive_crash hs).1 s' hs',of_decide_eq_true hu⟩

end TxnSystem
end PgAm
