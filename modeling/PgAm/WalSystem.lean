import PgAm.WalWriter

/-! The WAL writer together with its worker and any number of threads that append,
flush and commit, over crashes and reopenings. The system records which records
were appended and what each call returned, so that durability can be stated. -/
namespace PgAm
namespace WalSystem

open WalWriter (append appendAs flush flushTo flushTo_cases flushWait_cases openSegments
  openWithScanStart open_inv)

/-- A record that an append returned for, with its bytes in the stream. -/
structure Logged where
  lsn : ℕ
  record : WalRecord
  bytes : List UInt8

def Logged.stop (r : Logged) : ℕ := r.lsn + r.bytes.length

/-- `commit` is `TxnManager::commit_txn` up to the point where its record is durable. -/
inductive Call
  | flushTo
  | flush
  | commit (xid : ℕ)
  deriving DecidableEq

/-- `before` is the number of records appended when `flush_to` was entered. -/
inductive Caller
  | idle
  | target (call : Call) (lsn : ℕ)
  | waiting (call : Call) (lsn before : ℕ)
  | returned (call : Call) (lsn before : ℕ) (result : Except StorageError Unit)

def Caller.free : Caller → Bool
  | .idle | .returned .. => true
  | .target .. | .waiting .. => false

structure Sys where
  writer : WriterState
  worker : Worker
  callers : ℕ → Caller
  log : List Logged

/-- Critical sections of the writer's mutex, and a crash with the next opening. -/
inductive Step
  | append (r : WalRecord) (fault : Option IoFault)
  | reserveAndAppend (r : WalRecord) (fault : Option IoFault)
  | flush (t : ℕ)
  | commit (t xid : ℕ) (fault : Option IoFault)
  | flushTo (t lsn : ℕ)
  | enter (t : ℕ)
  | wake (t : ℕ)
  | workerBegin (timedOut : Bool) (dupFault : Option String)
  | workerEnd (fsyncFault : Option String) (also : ℕ → Bool)
  | close
  | reopen (keep : ℕ → ℕ → Bool) (scanStartHint : ℕ)

variable (cfg : WalConfig)

def logged (r : WalRecord) (lsn : ℕ) : Logged :=
  let r := { r with lsn := lsn }
  ⟨lsn,r,(r.encode cfg.crc32).toOption.getD []⟩

/-- Append in the system: a record that is stored joins the log. -/
def appendStep (append : Option IoFault → WalRecord → WriterState →
    Except StorageError ℕ × WriterState) (r : WalRecord) (fault : Option IoFault) (s : Sys) :
    Except StorageError ℕ × Sys :=
  match append fault r s.writer with
  | (.ok lsn,w) => (.ok lsn,{ s with writer := w, log := s.log ++ [logged cfg r lsn] })
  | (.error e,w) => (.error e,{ s with writer := w })

def setCaller (s : Sys) (t : ℕ) (c : Caller) : Sys :=
  { s with callers := Function.update s.callers t c }

def settle (s : Sys) (t : ℕ) (call : Call) (lsn before : ℕ)
    (out : Option (Except StorageError Unit) × WriterState) : Sys :=
  let s := { s with writer := out.2 }
  match out.1 with
  | none => setCaller s t (.waiting call lsn before)
  | some res => setCaller s t (.returned call lsn before res)

def enterFlushTo (s : Sys) (t : ℕ) (call : Call) (lsn : ℕ) : Sys :=
  settle s t call lsn s.log.length (flushTo lsn s.writer)

/-- The record can still be read back in full and lies before `e`. -/
def survives (d : WalDir) (e : ℕ) (r : Logged) : Bool :=
  r.stop ≤ e && (List.range r.bytes.length).all fun i =>
    d.dataAt cfg.walSegmentSize (r.lsn + i) == r.bytes[i]?

def step (s : Sys) : Step → Option Sys
  | .append r fault => some (appendStep cfg (append cfg) r fault s).2
  | .reserveAndAppend r fault => some (appendStep cfg (WalWriter.reserveAndAppend cfg) r fault s).2
  | .flush t =>
    if (s.callers t).free then
      match flush s.writer with
      | .error res => some (setCaller s t (.returned .flush 0 0 res))
      | .ok lsn => some (setCaller s t (.target .flush lsn))
    else none
  | .commit t xid fault =>
    if (s.callers t).free then
      match appendStep cfg (append cfg) (WalRecord.txnCommit xid) fault s with
      | (.ok lsn,s) => some (setCaller s t (.target (.commit xid) lsn))
      | (.error e,s) => some (setCaller s t (.returned (.commit xid) 0 0 (.error e)))
    else none
  | .flushTo t lsn => if (s.callers t).free then some (enterFlushTo s t .flushTo lsn) else none
  | .enter t =>
    match s.callers t with
    | .target call lsn => some (enterFlushTo s t call lsn)
    | _ => none
  | .wake t =>
    match s.callers t with
    | .waiting call lsn before =>
      some (settle s t call lsn before (WalWriter.flushWait lsn s.writer))
    | _ => none
  | .workerBegin timedOut dupFault =>
    match s.worker with
    | .idle =>
      let out := WalWriter.workerBegin cfg timedOut dupFault s.writer
      some { s with worker := out.1, writer := out.2 }
    | _ => none
  | .workerEnd fsyncFault also =>
    match s.worker with
    | .syncing w =>
      let out := WalWriter.workerEnd cfg w fsyncFault also s.writer
      some { s with worker := out.1, writer := out.2 }
    | _ => none
  | .close => some { s with writer := { s.writer with shutdown := true } }
  | .reopen keep hint =>
    match openWithScanStart cfg (s.writer.segmentManager.dir.crash keep) hint with
    | .error _ => none
    | .ok w => some ⟨w,.idle,fun _ => .idle,
        s.log.filter (survives cfg w.segmentManager.dir w.lsnClock)⟩

def Fresh (s : Sys) : Prop :=
  ∃ w, openWithScanStart cfg WalDir.empty Lsn.invalid = .ok w ∧
    s = ⟨w,.idle,fun _ => .idle,[]⟩

/-- Every byte of the record is in its segment file and covered by a completed sync. -/
def Durable (s : Sys) (r : Logged) : Prop :=
  ∀ i < r.bytes.length,
    s.writer.segmentManager.dir.stableAt cfg.walSegmentSize (r.lsn + i) = r.bytes[i]?

instance (s : Sys) (r : Logged) : Decidable (Durable cfg s r) :=
  inferInstanceAs (Decidable (∀ i < _, _))

structure Core (s : Sys) : Prop where
  writer : WalWriter.Inv cfg s.writer
  wave : ∀ w, s.worker = .syncing w → WalWriter.WaveInv cfg s.writer w
  log : ∀ r ∈ s.log, r.stop ≤ s.writer.lsnClock ∧ ∀ i < r.bytes.length,
    s.writer.segmentManager.dir.dataAt cfg.walSegmentSize (r.lsn + i) = r.bytes[i]?
  encoded : ∀ r ∈ s.log, r.record.lsn = r.lsn ∧ r.record.encode cfg.crc32 = .ok r.bytes

/-- The log grows at its end and the durable horizon does not move back. -/
def Extends (s s' : Sys) : Prop :=
  s.writer.syncedLsn ≤ s'.writer.syncedLsn ∧ ∃ extra, s'.log = s.log ++ extra

def CommitLogged (call : Call) (lsn : ℕ) (log : List Logged) : Prop :=
  match call with
  | .commit xid => ∃ r ∈ log, r.lsn = lsn ∧
      r.record = { WalRecord.txnCommit xid with lsn := lsn }
  | _ => True

/-- An `Ok` means that the horizon is behind every record the call has to cover. -/
def CallerInv (s : Sys) : Caller → Prop
  | .idle => True
  | .target call lsn => CommitLogged call lsn s.log
  | .waiting call lsn before => before ≤ s.log.length ∧ CommitLogged call lsn (s.log.take before)
  | .returned call lsn before (.ok ()) => before ≤ s.log.length ∧
      CommitLogged call lsn (s.log.take before) ∧
      ∀ r ∈ s.log.take before, r.lsn ≤ lsn → r.stop ≤ s.writer.syncedLsn
  | .returned _ _ _ (.error _) => True

variable {cfg}

theorem CommitLogged.append {call : Call} {lsn : ℕ} {log : List Logged}
    (h : CommitLogged call lsn log) (extra : List Logged) :
    CommitLogged call lsn (log ++ extra) := by
  cases call with
  | flushTo => trivial
  | flush => trivial
  | commit xid =>
    obtain ⟨r,hr,h⟩ := h
    exact ⟨r,List.mem_append_left _ hr,h⟩

theorem CallerInv.mono {s s' : Sys} (h : Extends s s') {c : Caller} (hc : CallerInv s c) :
    CallerInv s' c := by
  obtain ⟨hsync,extra,hlog⟩ := h
  cases c with
  | idle => trivial
  | target call lsn =>
    simp only [CallerInv] at hc ⊢
    rw [hlog]
    exact hc.append extra
  | waiting call lsn n =>
    simp only [CallerInv] at hc ⊢
    rw [hlog,List.take_append_of_le_length hc.1,List.length_append]
    exact ⟨hc.1.trans (Nat.le_add_right _ _),hc.2⟩
  | returned call lsn n res =>
    cases res with
    | error e => trivial
    | ok u =>
      simp only [CallerInv] at hc ⊢
      rw [hlog,List.take_append_of_le_length hc.1,List.length_append]
      exact ⟨hc.1.trans (Nat.le_add_right _ _),hc.2.1,
        fun r hr hle => (hc.2.2 r hr hle).trans hsync⟩

variable {s : Sys}

variable {w : WriterState}

theorem Core.log_grows (h : Core cfg s)
    (hg : WalWriter.Grows cfg s.writer w) : ∀ r ∈ s.log, r.stop ≤ w.lsnClock ∧
      ∀ i < r.bytes.length,
        w.segmentManager.dir.dataAt cfg.walSegmentSize (r.lsn + i) = r.bytes[i]? := by
  intro r hr
  obtain ⟨hle,hdata⟩ := h.log r hr
  refine ⟨hle.trans hg.clock,fun i hi => ?_⟩
  rw [hg.data _ (lt_of_lt_of_le (Nat.add_lt_add_left hi r.lsn) hle)]
  exact hdata i hi

theorem logged_bytes {r : WalRecord} {lsn : ℕ} {buf : List UInt8}
    (h : WalRecord.encode cfg.crc32 { r with lsn := lsn } = .ok buf) :
    (logged cfg r lsn).bytes = buf := by
  simp [logged,h,Except.toOption]

theorem appendStep_core (name : String) (h : Core cfg s) (r : WalRecord) (fault : Option IoFault) :
    Core cfg (appendStep cfg (appendAs cfg name) r fault s).2 ∧
      Extends s (appendStep cfg (appendAs cfg name) r fault s).2 ∧
      ∀ lsn, (appendStep cfg (appendAs cfg name) r fault s).1 = .ok lsn →
        logged cfg r lsn ∈ (appendStep cfg (appendAs cfg name) r fault s).2.log := by
  have happ := @WalWriter.appendAs_appended cfg name fault r s.writer h.writer.steady
  unfold appendStep
  generalize appendAs cfg name fault r s.writer = out at happ
  obtain ⟨res,w⟩ := out
  have hinv := happ.inv h.writer
  have hgrow := happ.grows
  have hlog := h.log_grows hgrow
  have hwave : ∀ v, s.worker = .syncing v → WalWriter.WaveInv cfg w v :=
    fun v hv => happ.wave (h.wave v hv)
  cases happ with
  | refused e | poisoned hm =>
    exact ⟨⟨hinv,hwave,hlog,h.encoded⟩,⟨le_rfl,[],by simp⟩,fun _ hres => by cases hres⟩
  | stored hnone hbuf hm =>
    refine ⟨⟨hinv,hwave,fun x hx => ?_,fun x hx => ?_⟩,⟨le_rfl,_,rfl⟩,fun lsn hres => ?_⟩
    · rcases List.mem_append.1 hx with hx | hx
      · exact hlog x hx
      · rw [List.mem_singleton.1 hx,Logged.stop,logged_bytes hbuf]
        exact ⟨le_rfl,hm.content⟩
    · rcases List.mem_append.1 hx with hx | hx
      · exact h.encoded x hx
      · rw [List.mem_singleton.1 hx,logged_bytes hbuf]
        exact ⟨rfl,hbuf⟩
    · cases hres
      simp

theorem Core.lsn_add_eight_le (h : Core cfg s) {r : Logged} (hr : r ∈ s.log) :
    r.lsn + 8 ≤ r.stop := by
  have hlen := WalRecord.encode_length cfg.crc32 (h.encoded r hr).2
  have hsize := le_alignUp_eight (walRecordHeaderSize + r.record.payload.length)
  simp only [WalRecord.recordSize,walRecordHeaderSize] at hlen hsize
  rw [Logged.stop]
  omega

/-- The invariant, with what is known about the threads of `watched`. -/
structure Inv (cfg : WalConfig) (watched : ℕ → Prop) (s : Sys) : Prop where
  core : Core cfg s
  caller : ∀ t, watched t → CallerInv s (s.callers t)

variable {watched : ℕ → Prop}

theorem Inv.of_extends {s s' : Sys} (h : Inv cfg watched s) (hc : Core cfg s') (he : Extends s s')
    (hcallers : s'.callers = s.callers) : Inv cfg watched s' :=
  ⟨hc,fun t ht => by rw [hcallers]; exact (h.caller t ht).mono he⟩

theorem Inv.setCaller (h : Inv cfg watched s) (t : ℕ) {c : Caller}
    (hc : watched t → CallerInv s c) : Inv cfg watched (setCaller s t c) := by
  refine ⟨{ h.core with },fun u hw => ?_⟩
  have hsame : Extends s (WalSystem.setCaller s t c) := ⟨le_rfl,[],by simp [WalSystem.setCaller]⟩
  by_cases hu : u = t
  · subst hu
    simpa [WalSystem.setCaller] using (hc hw).mono hsame
  · simpa [WalSystem.setCaller,Function.update_of_ne hu] using (h.caller u hw).mono hsame

theorem Inv.request (h : Inv cfg watched s) (b : Bool) :
    Inv cfg watched { s with writer := { s.writer with flushRequested := b } } := by
  refine h.of_extends ⟨?_,fun w hw => ?_,h.core.log,h.core.encoded⟩ ⟨le_rfl,[],by simp⟩ rfl
  · exact { h.core.writer with }
  · have hi := h.core.wave w hw
    exact { hi with }

/-- The horizon has reached `lsn` but cuts a record which starts at or before it. -/
def Straddled (s : Sys) (lsn before : ℕ) : Prop :=
  ∃ r ∈ s.log.take before, r.lsn ≤ lsn ∧ lsn ≤ s.writer.syncedLsn ∧ s.writer.syncedLsn < r.stop

instance (s : Sys) (lsn before : ℕ) : Decidable (Straddled s lsn before) :=
  inferInstanceAs (Decidable (∃ r ∈ _, _))

variable {out : Option (Except StorageError Unit) × WriterState} {call : Call}

theorem Inv.settle (h : Inv cfg watched s) (t : ℕ) {lsn before : ℕ}
    (hcall : watched t → CallerInv s (.waiting call lsn before))
    (hs : watched t → ¬Straddled s lsn before)
    (hw : out.2 = { s.writer with flushRequested := out.2.flushRequested })
    (hok : out.1 = some (.ok ()) → lsn ≤ s.writer.syncedLsn) :
    Inv cfg watched (settle s t call lsn before out) := by
  have hr := h.request out.2.flushRequested
  rw [← hw] at hr
  unfold WalSystem.settle
  cases hres : out.1 with
  | none => exact hr.setCaller t hcall
  | some res =>
    cases res with
    | error e => exact hr.setCaller t fun _ => trivial
    | ok u =>
      refine hr.setCaller t fun ht => ⟨(hcall ht).1,(hcall ht).2,fun r hmem hle => ?_⟩
      have hsync : out.2.syncedLsn = s.writer.syncedLsn := by rw [hw]
      by_contra hlt
      exact hs ht ⟨r,hmem,hle,hok hres,hsync ▸ not_le.1 hlt⟩

theorem Inv.enterFlushTo (h : Inv cfg watched s) (t : ℕ) {lsn : ℕ}
    (hcommit : watched t → CommitLogged call lsn s.log)
    (hs : watched t → ¬Straddled s lsn s.log.length) :
    Inv cfg watched (enterFlushTo s t call lsn) :=
  h.settle t (fun ht => ⟨le_rfl,by rw [List.take_length]; exact hcommit ht⟩) hs
    (flushTo_cases lsn s.writer).1 (flushTo_cases lsn s.writer).2

/-- The horizon cuts no record that the thread's pending `flush_to` has to cover. -/
def CallerClean (s : Sys) : Caller → Prop
  | .target _ lsn => ¬Straddled s lsn s.log.length
  | .waiting _ lsn before => ¬Straddled s lsn before
  | .idle | .returned .. => True

instance (s : Sys) (c : Caller) : Decidable (CallerClean s c) :=
  match c with
  | .target _ lsn => inferInstanceAs (Decidable (¬Straddled s lsn s.log.length))
  | .waiting _ lsn before => inferInstanceAs (Decidable (¬Straddled s lsn before))
  | .idle | .returned .. => .isTrue trivial

/-- Each section of `flush_to` finds a horizon that cuts no record it has to cover. -/
def Clean (s : Sys) : Step → Prop
  | .flushTo _ lsn => ¬Straddled s lsn s.log.length
  | .enter t | .wake t => CallerClean s (s.callers t)
  | _ => True

instance (s : Sys) (a : Step) : Decidable (Clean s a) :=
  match a with
  | .flushTo _ lsn => inferInstanceAs (Decidable (¬Straddled s lsn s.log.length))
  | .enter t | .wake t => inferInstanceAs (Decidable (CallerClean s (s.callers t)))
  | .append .. | .reserveAndAppend .. | .flush .. | .commit .. | .workerBegin .. | .workerEnd ..
  | .close | .reopen .. => .isTrue trivial

def Step.reader : Step → Option ℕ
  | .flushTo t _ | .enter t | .wake t => some t
  | _ => none

theorem Inv.reopen (h : Inv cfg watched s) {keep : ℕ → ℕ → Bool} {hint : ℕ}
    (hw : openWithScanStart cfg (s.writer.segmentManager.dir.crash keep) hint = .ok w) :
    Inv cfg watched ⟨w,.idle,fun _ => .idle,
      s.log.filter (survives cfg w.segmentManager.dir w.lsnClock)⟩ := by
  have hopen := WalWriter.openable_crash h.core.writer.is_sealed keep
  refine ⟨⟨open_inv hopen hw,fun v hv => (by cases hv),
    fun r hr => ?_,fun r hr => h.core.encoded r (List.mem_filter.1 hr).1⟩,fun _ _ => trivial⟩
  have hs := (List.mem_filter.1 hr).2
  simp only [survives,Bool.and_eq_true,decide_eq_true_eq,List.all_eq_true,List.mem_range,
    beq_iff_eq] at hs
  exact hs

theorem fresh_inv {s : Sys} (h : Fresh cfg s) : Inv cfg watched s := by
  obtain ⟨w,hw,rfl⟩ := h
  exact ⟨⟨open_inv (fun _ _ => SegmentFile.blank_synced) hw,
    fun v hv => (by cases hv),fun r hr => (by cases hr),fun r hr => (by cases hr)⟩,
    fun _ _ => trivial⟩

theorem Inv.close (h : Inv cfg watched s) :
    Inv cfg watched { s with writer := { s.writer with shutdown := true } } := by
  refine h.of_extends ⟨?_,fun w hw => ?_,h.core.log,h.core.encoded⟩ ⟨le_rfl,[],by simp⟩ rfl
  · exact { h.core.writer with poisoned := fun _ => rfl }
  · have hi := h.core.wave w hw
    exact { hi with }

theorem appendStep_callers (append : Option IoFault → WalRecord → WriterState →
    Except StorageError ℕ × WriterState) (r : WalRecord) (fault : Option IoFault) (s : Sys) :
    (appendStep cfg append r fault s).2.callers = s.callers := by
  unfold appendStep
  split <;> rfl

theorem Inv.append {s : Sys} (h : Inv cfg watched s) (name : String) (r : WalRecord)
    (fault : Option IoFault) :
    Inv cfg watched (appendStep cfg (appendAs cfg name) r fault s).2 :=
  h.of_extends (appendStep_core name h.core r fault).1 (appendStep_core name h.core r fault).2.1
    (appendStep_callers _ _ _ _)

theorem step_inv {s s' : Sys} {a : Step} (h : Inv cfg watched s)
    (hc : ∀ t ∈ a.reader, watched t → Clean s a) (hstep : step cfg s a = some s') :
    Inv cfg watched s' := by
  cases a with
  | append r fault =>
    cases hstep
    exact h.append "append" r fault
  | reserveAndAppend r fault =>
    cases hstep
    exact h.append "reserve_and_append" r fault
  | flush t =>
    simp only [step] at hstep
    split at hstep
    · split at hstep
      · rename_i res hres
        cases hstep
        refine h.setCaller t fun _ => ?_
        cases res with
        | error e => trivial
        | ok u => exact ⟨Nat.zero_le _,trivial,fun r hr => by simp at hr⟩
      · cases hstep
        exact h.setCaller t fun _ => trivial
    · cases hstep
  | commit t xid fault =>
    simp only [step] at hstep
    split at hstep
    · have hspec := appendStep_core "append" h.core (WalRecord.txnCommit xid) fault
      have hinv := h.append "append" (WalRecord.txnCommit xid) fault
      have heq : append cfg = appendAs cfg "append" := rfl
      rw [heq] at hstep
      split at hstep
      · rename_i lsn u hout
        rw [hout] at hspec hinv
        cases hstep
        exact hinv.setCaller t fun _ => ⟨_,hspec.2.2 lsn rfl,rfl,rfl⟩
      · rename_i e u hout
        rw [hout] at hinv
        cases hstep
        exact hinv.setCaller t fun _ => trivial
    · cases hstep
  | flushTo t lsn =>
    simp only [step] at hstep
    split at hstep
    · cases hstep
      exact h.enterFlushTo t (fun _ => trivial) (hc t rfl)
    · cases hstep
  | enter t =>
    simp only [step] at hstep
    have hcaller := h.caller t
    have hc := hc t rfl
    simp only [Clean] at hc
    split at hstep
    · rename_i call lsn htgt
      cases hstep
      rw [htgt] at hcaller hc
      exact h.enterFlushTo t hcaller hc
    · cases hstep
  | wake t =>
    simp only [step] at hstep
    have hcaller := h.caller t
    have hc := hc t rfl
    simp only [Clean] at hc
    split at hstep
    · rename_i call lsn before hwait
      cases hstep
      rw [hwait] at hcaller hc
      exact h.settle t hcaller hc (flushWait_cases lsn s.writer).1
        (flushWait_cases lsn s.writer).2
    · cases hstep
  | workerBegin timedOut dupFault =>
    simp only [step] at hstep
    split at hstep
    · cases hstep
      obtain ⟨hinv,hgrow⟩ := @WalWriter.workerBegin_inv cfg timedOut dupFault _ h.core.writer
      exact h.of_extends ⟨hinv,fun w hw => WalWriter.workerBegin_wave hw,h.core.log_grows hgrow,
        h.core.encoded⟩
        ⟨hgrow.synced,[],by simp⟩ rfl
    · cases hstep
  | workerEnd fsyncFault also =>
    simp only [step] at hstep
    split at hstep
    · rename_i w hworker
      cases hstep
      obtain ⟨hinv,hgrow⟩ := @WalWriter.workerEnd_inv cfg w fsyncFault also _ h.core.writer
        (h.core.wave w hworker)
      refine h.of_extends ⟨hinv,fun v hv => ?_,h.core.log_grows hgrow,
        h.core.encoded⟩
        ⟨hgrow.synced,[],by simp⟩ rfl
      cases fsyncFault <;> cases hv
    · cases hstep
  | close =>
    cases hstep
    exact h.close
  | reopen keep hint =>
    simp only [step] at hstep
    split at hstep
    · cases hstep
    · rename_i w hw
      cases hstep
      exact h.reopen hw

/-- Without a reopening, the log grows at the clock, and clock and horizon move forward. -/
structure Advances (s s' : Sys) : Prop where
  synced : s.writer.syncedLsn ≤ s'.writer.syncedLsn
  clock : s.writer.lsnClock ≤ s'.writer.lsnClock
  log : ∃ extra, s'.log = s.log ++ extra ∧ ∀ r ∈ extra, s.writer.lsnClock ≤ r.lsn

theorem Advances.of_writer {worker : Worker} {callers : ℕ → Caller}
    (hs : s.writer.syncedLsn ≤ w.syncedLsn) (hc : s.writer.lsnClock ≤ w.lsnClock) :
    Advances s ⟨w,worker,callers,s.log⟩ :=
  ⟨hs,hc,[],by simp,nofun⟩

theorem appendStep_advances (name : String) (h : Core cfg s) (r : WalRecord)
    (fault : Option IoFault) :
    Advances s (appendStep cfg (appendAs cfg name) r fault s).2 := by
  have happ := @WalWriter.appendAs_appended cfg name fault r s.writer h.writer.steady
  unfold appendStep
  generalize appendAs cfg name fault r s.writer = out at happ
  obtain ⟨res,w⟩ := out
  have hgrow := happ.grows
  cases happ with
  | refused e => exact .of_writer le_rfl le_rfl
  | poisoned hm => exact .of_writer hgrow.synced hgrow.clock
  | stored hnone hbuf hm =>
    exact ⟨hgrow.synced,hgrow.clock,_,rfl,by simp [logged]⟩

theorem appendStep_lt (name : String) {s : Sys} (h : Core cfg s) (r : WalRecord)
    (fault : Option IoFault) {lsn : ℕ}
    (hok : (appendStep cfg (appendAs cfg name) r fault s).1 = .ok lsn) :
    lsn < (appendStep cfg (appendAs cfg name) r fault s).2.writer.lsnClock := by
  have happ := @WalWriter.appendAs_appended cfg name fault r s.writer h.writer.steady
  unfold appendStep at hok ⊢
  generalize appendAs cfg name fault r s.writer = out at happ hok
  obtain ⟨res,w⟩ := out
  cases happ with
  | refused e | poisoned hm => cases hok
  | stored hnone hbuf hm =>
    cases hok
    have hsize := WalRecord.encode_length cfg.crc32 hbuf
    have hpos := WalRecord.recordSize_pos { r with lsn := s.writer.lsnClock }
    dsimp only
    omega

theorem settle_advances (s : Sys) (t : ℕ) (call : Call) (lsn before : ℕ)
    (hw : out.2 = { s.writer with flushRequested := out.2.flushRequested }) :
    Advances s (settle s t call lsn before out) := by
  have hsync : out.2.syncedLsn = s.writer.syncedLsn := by rw [hw]
  have hclock : out.2.lsnClock = s.writer.lsnClock := by rw [hw]
  unfold settle
  cases out.1 <;> exact .of_writer hsync.ge hclock.ge

theorem step_advances {s s' : Sys} {a : Step} (h : Core cfg s)
    (ha : ∀ keep hint, a ≠ .reopen keep hint) (hstep : step cfg s a = some s') :
    Advances s s' := by
  cases a with
  | append r fault =>
    cases hstep
    exact appendStep_advances "append" h r fault
  | reserveAndAppend r fault =>
    cases hstep
    exact appendStep_advances "reserve_and_append" h r fault
  | flush t =>
    simp only [step] at hstep
    split at hstep
    · split at hstep <;> cases hstep <;> exact .of_writer le_rfl le_rfl
    · cases hstep
  | commit t xid fault =>
    simp only [step] at hstep
    split at hstep
    · have hadv := appendStep_advances "append" h (WalRecord.txnCommit xid) fault
      have heq : append cfg = appendAs cfg "append" := rfl
      rw [heq] at hstep
      split at hstep <;> rename_i hout <;> rw [hout] at hadv <;> cases hstep <;>
        exact { hadv with }
    · cases hstep
  | flushTo t lsn =>
    obtain ⟨-,rfl⟩ := of_guard hstep
    exact settle_advances _ _ _ _ _ (flushTo_cases lsn s.writer).1
  | enter t =>
    simp only [step] at hstep
    split at hstep <;> cases hstep
    exact settle_advances _ _ _ _ _ (flushTo_cases _ s.writer).1
  | wake t =>
    simp only [step] at hstep
    split at hstep <;> cases hstep
    exact settle_advances _ _ _ _ _ (flushWait_cases _ s.writer).1
  | workerBegin timedOut dupFault =>
    simp only [step] at hstep
    split at hstep <;> cases hstep
    obtain ⟨-,hgrow⟩ := @WalWriter.workerBegin_inv cfg timedOut dupFault _ h.writer
    exact .of_writer hgrow.synced hgrow.clock
  | workerEnd fsyncFault also =>
    simp only [step] at hstep
    split at hstep <;> cases hstep
    rename_i w hworker
    obtain ⟨-,hgrow⟩ := @WalWriter.workerEnd_inv cfg w fsyncFault also _ h.writer
      (h.wave w hworker)
    exact .of_writer hgrow.synced hgrow.clock
  | close =>
    cases hstep
    exact .of_writer le_rfl le_rfl
  | reopen keep hint => exact absurd rfl (ha keep hint)

theorem Core.durable (h : Core cfg s) {r : Logged} (hr : r ∈ s.log)
    (hstop : r.stop ≤ s.writer.syncedLsn) : Durable cfg s r := by
  intro i hi
  rw [h.writer.stable _ (lt_of_lt_of_le (Nat.add_lt_add_left hi r.lsn) hstop)]
  exact (h.log r hr).2 i hi

theorem reach_inv (h : Machine.Reach (step cfg) (Fresh cfg) Clean s) :
    Inv cfg (fun _ => True) s :=
  h.invariant (fun _ hs => fresh_inv hs) fun _ _ _ hi hc => step_inv hi fun _ _ _ => hc

/-- In every run in which no `flush_to` reads a horizon that cuts a record it has to cover, an `Ok`
means that all those records are durable, and the `Ok` of a commit that its whole record is. -/
theorem flushTo_durable {s : Sys} (h : Machine.Reach (step cfg) (Fresh cfg) Clean s) (t : ℕ)
    {call : Call} {lsn before : ℕ} (hret : s.callers t = .returned call lsn before (.ok ())) :
    (∀ r ∈ s.log.take before, r.lsn ≤ lsn → Durable cfg s r) ∧
      ∀ xid, call = .commit xid → ∃ r ∈ s.log, r.lsn = lsn ∧
        r.record = { WalRecord.txnCommit xid with lsn := lsn } ∧
        r.record.encode cfg.crc32 = .ok r.bytes ∧ Durable cfg s r := by
  have hinv := reach_inv h
  have hcaller := hinv.caller t trivial
  rw [hret] at hcaller
  obtain ⟨-,hcommit,hcover⟩ := hcaller
  have hdur : ∀ r ∈ s.log.take before, r.lsn ≤ lsn → Durable cfg s r := fun r hr hle =>
    hinv.core.durable (List.mem_of_mem_take hr) (hcover r hr hle)
  refine ⟨hdur,?_⟩
  rintro xid rfl
  obtain ⟨r,hr,hlsn,hrec⟩ := hcommit
  have hmem := List.mem_of_mem_take hr
  exact ⟨r,hmem,hlsn,hrec,(hinv.core.encoded r hmem).2,hdur r hr hlsn.le⟩

def smallConfig : WalConfig := ⟨1024,4,crc32Ieee,by decide,by decide⟩

def freshSys : Sys :=
  ⟨WalWriter.openWithSegmentManager (openSegments smallConfig WalDir.empty)
    Lsn.first Lsn.invalid,.idle,fun _ => .idle,[]⟩

theorem fresh_freshSys : Fresh smallConfig freshSys := by
  have hscan : WalWriter.discoverResumeLsn smallConfig
      (openSegments smallConfig WalDir.empty).dir Lsn.invalid = .ok Lsn.first := by
    decide +kernel
  refine ⟨_,?_,rfl⟩
  simp [openWithScanStart,hscan,bind,Except.bind,pure,Except.pure,Lsn.first]

def oneCommit : List Step :=
  [.commit 0 1 none,.enter 0,.workerBegin false none,.workerEnd none fun _ => false,.wake 0]

/-- Thread `t` holds an `Ok` for the commit of `xid` whose record is not durable. -/
def lostCommit (xid t : ℕ) (s : Sys) : Bool :=
  match s.callers t with
  | .returned (.commit x) lsn before (.ok ()) => x == xid &&
    (s.log.take before).any fun r => r.lsn = lsn && !decide (Durable smallConfig s r)
  | _ => false

/-- The horizon is at the end of the first commit record, where the second one starts, so the second
commit does not wait for any sync. -/
theorem commit_returns_before_sync :
    ∃ s, Machine.Reach (step smallConfig) (Fresh smallConfig) Machine.anyStep s ∧
      lostCommit 2 0 s = true :=
  Machine.exists_reach fresh_freshSys (oneCommit ++ [.commit 0 2 none,.enter 0])
    (by decide +kernel)

def committed (xid t : ℕ) (s : Sys) : Bool :=
  match s.callers t with
  | .returned (.commit x) _ _ (.ok ()) => x == xid
  | _ => false

theorem flushTo_durable_one_commit :
    ∃ s lsn before, Machine.Reach (step smallConfig) (Fresh smallConfig) Clean s ∧
      s.callers 0 = .returned (.commit 1) lsn before (.ok ()) ∧
      ∃ r ∈ s.log, r.lsn = lsn ∧ Durable smallConfig s r := by
  have hrun : ∃ s, Machine.Reach (step smallConfig) (Fresh smallConfig) Clean s ∧
      committed 1 0 s = true :=
    Machine.exists_reach fresh_freshSys oneCommit (by decide +kernel)
  obtain ⟨s,hs,hp⟩ := hrun
  unfold committed at hp
  split at hp
  · rename_i x lsn before hret
    rw [beq_iff_eq] at hp
    subst hp
    obtain ⟨r,hr,hlsn,-,-,hd⟩ := (flushTo_durable hs 0 hret).2 1 rfl
    exact ⟨s,lsn,before,hs,hret,r,hr,hlsn,hd⟩
  · cases hp

end WalSystem
end PgAm
