import PgAm.WalResume
import PgAm.WalSync

/-! A power loss keeps what a completed sync covered and any part of what was written since. The
synced records are always read back; whether the log can be opened at all depends on how the
first record that did not survive looks to the reader. -/
namespace PgAm
namespace WalPower

open WalSystem (Logged logged Sys Step step Fresh Core Durable appendStep freshSys settle
  smallConfig)
open WalWriter (append appendAs flushTo_cases openSegments openWithScanStart syncWave
  syncWave_dataAt workerBegin workerEnd)
open WalCrash (filler grown item scanStart segment_of_readByte stop)
open WalReader (isTornTail nextRecord readByte records tryReadExact tryReadExact_iff zeroToEnd)

variable {cfg : WalConfig}

def view (s : Sys) : WalCrash.Sys := ⟨s.writer,s.log⟩

def Stores (cfg : WalConfig) (s : Sys) (name : String) (fault : Option IoFault) (r : WalRecord) :
    Prop :=
  (appendAs cfg name fault r s.writer).1.toOption.isSome ∧ WalCrash.Typed (view s) r

/-- Appends that return, and syncs that complete and cover what was written before. -/
def Calm (cfg : WalConfig) (s : Sys) : Step → Prop
  | .append r fault => Stores cfg s "append" fault r
  | .reserveAndAppend r fault => Stores cfg s "reserve_and_append" fault r
  | .commit _ xid fault => Stores cfg s "append" fault (WalRecord.txnCommit xid)
  | .workerBegin _ dupFault => dupFault = none
  | .workerEnd fsyncFault also => fsyncFault = none ∧ ∀ o, also o = false
  | .reopen .. => False
  | .flush _ | .flushTo .. | .enter _ | .wake _ | .close => True

inductive Move (cfg : WalConfig) (s : Sys) : Sys → Prop
  | append {name : String} {fault : Option IoFault} {r : WalRecord} {buf : List UInt8}
      {m : WalSegmentManager} {callers : ℕ → WalSystem.Caller} (hf : WalCrash.Typed (view s) r)
      (hrun : appendAs cfg name fault r s.writer =
        (.ok s.writer.lsnClock,grown s.writer buf.length m))
      (hbuf : WalRecord.encode cfg.crc32 { r with lsn := s.writer.lsnClock } = .ok buf)
      (hlaid : m.Laid cfg.walSegmentSize)
      (hw : WalSegmentManager.Wrote cfg.walSegmentSize s.writer.lsnClock buf buf.length
        s.writer.segmentManager m) :
      Move cfg s ⟨grown s.writer buf.length m,s.worker,callers,
        s.log ++ [logged cfg r s.writer.lsnClock]⟩
  | quiet {flag closed : Bool} {callers : ℕ → WalSystem.Caller} :
      Move cfg s ⟨{ s.writer with flushRequested := flag, shutdown := closed },s.worker,callers,
        s.log⟩
  | begin {timedOut : Bool} :
      Move cfg s ⟨s.writer,(workerBegin cfg timedOut none s.writer).1,s.callers,s.log⟩
  | sync {w : Wave} {also : ℕ → Bool} (hs : s.worker = .syncing w) (halso : ∀ o, also o = false) :
      Move cfg s ⟨(workerEnd cfg w none also s.writer).2,.idle,s.callers,s.log⟩

structure Inv (cfg : WalConfig) (s : Sys) : Prop where
  core : Core cfg s
  log : WalCrash.Inv cfg (view s)
  virgin : s.writer.segmentManager.dir.Virgin cfg.walSegmentSize s.writer.lsnClock
  ordered : s.writer.segmentManager.dir.Ordered cfg.walSegmentSize
  wave : ∀ w, s.worker = .syncing w → ∀ p, w.coverLsn ≤ p →
    Lsn.segmentId p cfg.walSegmentSize = w.coverSegment →
    w.snapshot (Lsn.segmentOffset p cfg.walSegmentSize) = none

variable {s : Sys}

theorem stores_append (h : WalCrash.Ready cfg (view s)) {name : String}
    {fault : Option IoFault} {r : WalRecord} (hs : Stores cfg s name fault r)
    (callers : ℕ → WalSystem.Caller) :
    ∃ w, appendStep cfg (appendAs cfg name) r fault s =
        (.ok s.writer.lsnClock,
          { s with writer := w, log := s.log ++ [logged cfg r s.writer.lsnClock] }) ∧
      Move cfg s ⟨w,s.worker,callers,s.log ++ [logged cfg r s.writer.lsnClock]⟩ := by
  obtain ⟨hok,hf⟩ := hs
  have hout := WalCrash.appendAs_outcome name h.healthy h.laid r fault
  unfold appendStep
  change WalCrash.Outcome cfg r fault s.writer (appendAs cfg name fault r s.writer).1
    (appendAs cfg name fault r s.writer).2 at hout
  cases hrun : appendAs cfg name fault r s.writer with
  | mk res w =>
    rw [hrun] at hout hok
    cases hout with
    | stopped => cases hok
    | stored hbuf hlaid hle hw => exact ⟨_,rfl,.append hf hrun hbuf hlaid hw⟩

theorem settle_move (t : ℕ) (call : WalSystem.Call) (lsn before : ℕ)
    {out : Option (Except StorageError Unit) × WriterState}
    (hw : out.2 = { s.writer with flushRequested := out.2.flushRequested }) :
    Move cfg s (settle s t call lsn before out) := by
  unfold settle
  rw [hw]
  cases out.1 <;> exact .quiet

theorem workerBegin_state (timedOut : Bool) (st : WriterState) :
    (workerBegin cfg timedOut none st).2 = st := by
  unfold workerBegin
  dsimp only
  repeat' split
  all_goals rfl

theorem step_move {s s' : Sys} {a : Step} (h : WalCrash.Ready cfg (view s)) (ha : Calm cfg s a)
    (hstep : step cfg s a = some s') : Move cfg s s' := by
  cases a with
  | append r fault =>
    cases hstep
    obtain ⟨w,hrun,hm⟩ := stores_append h ha s.callers
    change Move cfg s (appendStep cfg (appendAs cfg "append") r fault s).2
    rw [hrun]
    exact hm
  | reserveAndAppend r fault =>
    cases hstep
    obtain ⟨w,hrun,hm⟩ := stores_append h ha s.callers
    change Move cfg s
      (appendStep cfg (appendAs cfg "reserve_and_append") r fault s).2
    rw [hrun]
    exact hm
  | commit t xid fault =>
    simp only [step] at hstep
    split at hstep
    · have hrun := fun callers => stores_append h ha callers
      have heq : append cfg = appendAs cfg "append" := rfl
      rw [heq] at hstep
      split at hstep
      · rename_i lsn u hout
        cases hstep
        obtain ⟨w,hw,hm⟩ := hrun (Function.update s.callers t (.target (.commit xid) lsn))
        rw [hout] at hw
        cases hw
        exact hm
      · rename_i e u hout
        obtain ⟨w,hw,-⟩ := hrun s.callers
        rw [hout] at hw
        cases hw
    · cases hstep
  | flush t =>
    simp only [step] at hstep
    split at hstep
    · split at hstep <;> cases hstep <;> exact .quiet
    · cases hstep
  | flushTo t lsn =>
    obtain ⟨-,rfl⟩ := of_guard hstep
    exact settle_move _ _ _ _ (flushTo_cases lsn s.writer).1
  | enter t =>
    simp only [step] at hstep
    split at hstep <;> cases hstep
    exact settle_move _ _ _ _ (flushTo_cases _ s.writer).1
  | wake t =>
    simp only [step] at hstep
    split at hstep <;> cases hstep
    exact settle_move _ _ _ _ (WalWriter.flushWait_cases _ s.writer).1
  | workerBegin timedOut dupFault =>
    subst ha
    simp only [step] at hstep
    split at hstep <;> cases hstep
    rw [workerBegin_state]
    exact .begin
  | workerEnd fsyncFault also =>
    obtain ⟨rfl,halso⟩ := ha
    simp only [step] at hstep
    split at hstep <;> cases hstep
    rename_i w hworker
    exact .sync hworker halso
  | close =>
    cases hstep
    exact .quiet
  | reopen keep hint => exact ha.elim

theorem workerBegin_snapshot {timedOut : Bool} {st : WriterState} {w : Wave}
    (hw : (workerBegin cfg timedOut none st).1 = .syncing w) :
    w.coverLsn = st.lsnClock ∧ w.snapshot = (st.segmentManager.dir.file w.coverSegment).data := by
  unfold workerBegin at hw
  dsimp only at hw
  split at hw
  · cases hw
  split at hw
  · cases hw
  split at hw
  · cases hw
  cases hw
  exact ⟨rfl,rfl⟩

theorem log_sync {s : WalCrash.Sys} (h : WalCrash.Inv cfg s) (w : Wave) (also : ℕ → Bool) :
    WalCrash.Inv cfg ⟨(workerEnd cfg w none also s.writer).2,s.log⟩ := by
  have hlaid : (s.writer.segmentManager.modifyFile w.coverSegment
      (syncWave w also)).Laid cfg.walSegmentSize := by
    refine { h.ready.laid with len := fun id hid => ?_ }
    by_cases he : id = w.coverSegment
    · subst he
      rw [WalSegmentManager.modifyFile_file_same _ (h.ready.laid.mem _ hid)]
      exact h.ready.laid.len _ hid
    · rw [WalSegmentManager.modifyFile_dir,WalDir.modify_file_other _ _ he]
      exact h.ready.laid.len _ hid
  refine { h with ready := ⟨?_,hlaid⟩, stored := ?_ }
  · have hnone := h.ready.healthy
    change (if s.writer.shutdown then s.writer.lastError else none) = none
    rw [hnone,ite_self]
  · exact h.holds hlaid.spread le_rfl fun p _ => syncWave_dataAt _ _ _ _ _ _

theorem Move.inv {s s' : Sys} (h : Inv cfg s) (hm : Move cfg s s') : Inv cfg s' := by
  cases hm with
  | @append name fault r buf m callers hf hrun hbuf hlaid hw =>
    have hcore := (WalSystem.appendStep_core name h.core r fault).1
    unfold appendStep at hcore
    rw [hrun] at hcore
    refine ⟨{ hcore with },h.log.stored_append hf hbuf hlaid hw,
      fun p hp => ?_,WalWriter.appendAs_ordered h.ordered h.virgin hrun,h.wave⟩
    exact (hw.data_behind p hp).trans (h.virgin p ((Nat.le_add_right _ _).trans hp))
  | quiet =>
    have hw := h.core.writer
    have hnone : s.writer.lastError = none := h.log.ready.healthy
    refine ⟨⟨{ hw with poisoned := fun hne => absurd hnone hne },
      fun w hs => ?_,h.core.log,h.core.encoded⟩,?_,h.virgin,h.ordered,h.wave⟩
    · have hi := h.core.wave w hs
      exact { hi with }
    · exact { h.log with ready := ⟨h.log.ready.healthy,h.log.ready.laid⟩ }
  | @begin timedOut =>
    refine ⟨{ h.core with wave := fun w hw => ?_ },h.log,h.virgin,h.ordered,
      fun w hw p hp hseg => ?_⟩
    · have hwave := WalWriter.workerBegin_wave hw
      rwa [workerBegin_state] at hwave
    · obtain ⟨hclock,hsnap⟩ := workerBegin_snapshot hw
      rw [hsnap,← hseg]
      exact h.virgin p (hclock ▸ hp)
  | @sync w also hs halso =>
    obtain ⟨hinv,hgrow⟩ := @WalWriter.workerEnd_inv cfg w none also _ h.core.writer
      (h.core.wave w hs)
    refine ⟨⟨hinv,nofun,h.core.log_grows hgrow,h.core.encoded⟩,log_sync h.log w also,
      fun p hp => ?_,?_,nofun⟩
    · exact (syncWave_dataAt _ _ _ _ _ _).trans (h.virgin p hp)
    · exact WalWriter.syncWave_ordered h.ordered halso (h.core.wave w hs).unchanged (h.wave w hs)

theorem fresh_inv {s : Sys} (h : Fresh cfg s) : Inv cfg s := by
  have hcore := (@WalSystem.fresh_inv _ (fun _ => False) _ h).core
  obtain ⟨w,hw,rfl⟩ := h
  have hlog := (WalCrash.fresh_inv (s := ⟨w,[]⟩) ⟨w,hw,rfl⟩).1
  have ht := @WalWriter.openSegments_touched cfg WalDir.empty
  obtain ⟨lsn,rfl⟩ := WalWriter.openWithScanStart_ok hw
  refine ⟨hcore,hlog,fun p _ => ht.dataAt_eq p,fun p q hpq hseg hq => absurd ?_ hq,nofun⟩
  change (openSegments cfg WalDir.empty).dir.stableAt cfg.walSegmentSize q = none
  unfold WalDir.stableAt
  by_cases hid : Lsn.segmentId q cfg.walSegmentSize = WalDir.empty.discoverLatestSegmentId
  · rw [hid]
    rcases ht.stable with hs | hs <;> rw [hs] <;> rfl
  · rw [ht.other _ hid]
    rfl

theorem reach_inv (h : Machine.Reach (step cfg) (Fresh cfg) (Calm cfg) s) : Inv cfg s :=
  h.invariant (fun _ hs => fresh_inv hs) fun _ _ _ hs ha hstep =>
    (step_move hs.log.ready ha hstep).inv hs

def image (cfg : WalConfig) (s : Sys) (keep : ℕ → ℕ → Bool) : WalDir :=
  (openSegments cfg (s.writer.segmentManager.dir.crash keep)).dir

def Survived (cfg : WalConfig) (d : WalDir) (x : Logged) : Prop :=
  tryReadExact cfg.walSegmentSize d x.lsn x.bytes.length = some x.bytes

instance (d : WalDir) (x : Logged) : Decidable (Survived cfg d x) :=
  inferInstanceAs (Decidable (_ = _))

/-- The records in front of the first one that did not survive. -/
def intact (cfg : WalConfig) (s : Sys) (keep : ℕ → ℕ → Bool) : List Logged :=
  s.log.takeWhile fun x => Survived cfg (image cfg s keep) x

/-- Blank, with as much blank space behind it, or a record that names its position and is the
last. -/
def EndsLog (cfg : WalConfig) (d : WalDir) (q : ℕ) : Prop :=
  ∀ header ∈ tryReadExact cfg.walSegmentSize d q walRecordHeaderSize,
    if header.all (· == 0) then
      ∀ probe ∈ tryReadExact cfg.walSegmentSize d (q + walRecordHeaderSize)
        walRecordHeaderSize, probe.all (· == 0)
    else
      ∀ buf ∈ tryReadExact cfg.walSegmentSize d q (WalRecord.total header),
        fromLe (header.take 8) = q ∧ ∀ p, q + WalRecord.total header ≤ p →
          ∀ b ∈ readByte cfg.walSegmentSize d p, b = 0

/-- What is found in the place of the record fails its checksum, unless it is the record. -/
def ChecksumTells (cfg : WalConfig) (d : WalDir) (x : Logged) : Prop :=
  ∀ header ∈ tryReadExact cfg.walSegmentSize d x.lsn walRecordHeaderSize,
    ∀ buf ∈ tryReadExact cfg.walSegmentSize d x.lsn (WalRecord.total header),
      buf ≠ x.bytes → WalRecord.CrcFails cfg.crc32 buf

instance (d : WalDir) (x : Logged) : Decidable (ChecksumTells cfg d x) :=
  inferInstanceAs (Decidable (∀ _ ∈ _, ∀ _ ∈ _, _ → _))

section Reading
variable {d : WalDir} {n : ℕ}

theorem readByte_laid (h : d.Laid cfg.walSegmentSize n) (p : ℕ) :
    readByte cfg.walSegmentSize d p =
      if Lsn.segmentId p cfg.walSegmentSize ≤ n then
        some ((d.dataAt cfg.walSegmentSize p).getD 0) else none := by
  split
  · rename_i hle
    exact WalCrash.readByte_of_mem (h.mem _ hle) (h.len _ hle)
  · rename_i hle
    unfold readByte
    rw [if_neg fun hmem => hle (h.le _ hmem.1)]

theorem zeroToEnd_iff (h : d.Laid cfg.walSegmentSize n) (p : ℕ) :
    zeroToEnd cfg.walSegmentSize d (WalReader.streamBound cfg.walSegmentSize d) p = true ↔
      ∀ q, p ≤ q → ∀ b ∈ readByte cfg.walSegmentSize d q, b = 0 := by
  constructor
  · have hgen : ∀ fuel p, zeroToEnd cfg.walSegmentSize d fuel p = true →
        ∀ q, p ≤ q → q < p + fuel → ∀ b ∈ readByte cfg.walSegmentSize d q, b = 0 := by
      intro fuel
      induction fuel with
      | zero =>
        intro p _ q hpq hq
        omega
      | succ fuel ih =>
        intro p hz q hpq hq b hb
        rw [zeroToEnd] at hz
        split at hz
        · rename_i hnone
          rw [readByte_laid h,Option.mem_def] at hb
          rw [readByte_laid h] at hnone
          split at hnone
          · cases hnone
          · rename_i hlt
            have hseg : Lsn.segmentId p cfg.walSegmentSize ≤ Lsn.segmentId q cfg.walSegmentSize :=
              Nat.div_le_div_right hpq
            rw [if_neg fun hle => hlt (hseg.trans hle)] at hb
            cases hb
        · rename_i c hc
          rw [Bool.and_eq_true,beq_iff_eq] at hz
          rcases hpq.eq_or_lt with rfl | hlt
          · rw [Option.mem_def,hc] at hb
            cases hb
            exact hz.1
          · exact ih (p + 1) hz.2 q hlt (by omega) b hb
    intro hz q hpq b hb
    have hlt := WalReader.lt_streamBound cfg.size_pos hb
    exact hgen _ p hz q hpq (by omega) b hb
  · exact fun hz => WalReader.zeroToEnd_of_zeros _ fun q b hq hb => hz q hq b hb

theorem endsLog_of_blank {q : ℕ} (h : WalReader.ReadsAs cfg.walSegmentSize d q []) :
    EndsLog cfg d q := by
  intro header hheader
  rw [if_pos (h.zeros le_rfl hheader)]
  exact fun probe hprobe => h.zeros (Nat.le_add_right _ _) hprobe

/-- A record that did not survive is the end of the log or an error. -/
theorem nextRecord_lost (h : d.Laid cfg.walSegmentSize n) {x : Logged}
    (hlost : ¬Survived cfg d x) (hcrc : ChecksumTells cfg d x) :
    (nextRecord cfg.walSegmentSize cfg.crc32 d x.lsn = .ok none ∧
        EndsLog cfg d x.lsn) ∨
      (∃ e, nextRecord cfg.walSegmentSize cfg.crc32 d x.lsn = .error e) ∧
        ¬EndsLog cfg d x.lsn := by
  unfold nextRecord EndsLog
  cases hheader : tryReadExact cfg.walSegmentSize d x.lsn walRecordHeaderSize with
  | none => exact .inl ⟨rfl,nofun⟩
  | some header =>
    simp only [Option.mem_def,Option.some.injEq,forall_eq']
    split
    · cases hprobe : tryReadExact cfg.walSegmentSize d (x.lsn + walRecordHeaderSize)
          walRecordHeaderSize with
      | none => exact .inl ⟨rfl,nofun⟩
      | some probe =>
        simp only [Option.some.injEq,forall_eq']
        split
        · rename_i hany
          refine .inr ⟨⟨_,rfl⟩,fun hall => ?_⟩
          obtain ⟨b,hb,hne⟩ := List.any_eq_true.1 hany
          have hz := List.all_eq_true.1 hall b hb
          simp only [bne_iff_ne] at hne
          exact hne (by simpa using hz)
        · rename_i hany
          refine .inl ⟨rfl,List.all_eq_true.2 fun b hb => ?_⟩
          by_contra hne
          exact hany (List.any_eq_true.2 ⟨b,hb,by simpa using hne⟩)
    · have hfield : alignUp (walRecordHeaderSize + fromLe ((header.drop 26).take 2)) 8 =
        WalRecord.total header := rfl
      rw [hfield]
      cases hbuf : tryReadExact cfg.walSegmentSize d x.lsn (WalRecord.total header) with
      | none => exact .inl ⟨rfl,nofun⟩
      | some buf =>
        have h32 := WalRecord.header_le_total header
        have hlen := (tryReadExact_iff.1 hbuf).1
        have htake : buf.take walRecordHeaderSize = header := by
          have hread := WalReader.tryReadExact_take hbuf h32
          rw [hheader] at hread
          exact (Option.some.inj hread).symm
        have htotal : WalRecord.total buf = WalRecord.total header := by
          rw [← htake]
          unfold WalRecord.total WalRecord.payloadLen
          rw [List.drop_take,List.take_take]
          rfl
        have hne : buf ≠ x.bytes := by
          rintro rfl
          rw [← hlen] at hbuf
          exact hlost hbuf
        obtain ⟨l,hdecode⟩ := WalRecord.decode_of_crcFails (hcrc header hheader buf hbuf hne)
          (htotal.trans hlen.symm).le
        rw [htotal,← hlen,List.take_length] at hdecode
        simp only [hdecode,Option.some.injEq,forall_eq']
        have htorn := zeroToEnd_iff h (x.lsn + WalRecord.total header)
        split
        · rename_i ht
          unfold isTornTail at ht
          rw [Bool.and_eq_true,beq_iff_eq] at ht
          exact .inl ⟨rfl,ht.1,htorn.1 ht.2⟩
        · rename_i ht
          refine .inr ⟨⟨_,rfl⟩,fun hend => ht ?_⟩
          unfold isTornTail
          rw [Bool.and_eq_true,beq_iff_eq]
          exact ⟨hend.1,htorn.2 hend.2⟩

end Reading

theorem crash_laid (h : WalCrash.Ready cfg (view s)) (keep : ℕ → ℕ → Bool) :
    (s.writer.segmentManager.dir.crash keep).Laid cfg.walSegmentSize
      s.writer.segmentManager.currentSegmentId := { h.laid with }

theorem image_laid (h : WalCrash.Ready cfg (view s)) (keep : ℕ → ℕ → Bool) :
    (openSegments cfg (s.writer.segmentManager.dir.crash keep)).Laid cfg.walSegmentSize ∧
      (openSegments cfg (s.writer.segmentManager.dir.crash keep)).currentSegmentId =
        s.writer.segmentManager.currentSegmentId ∧
      ∀ p, (image cfg s keep).dataAt cfg.walSegmentSize p =
        if keep (Lsn.segmentId p cfg.walSegmentSize) (Lsn.segmentOffset p cfg.walSegmentSize) then
          s.writer.segmentManager.dir.dataAt cfg.walSegmentSize p
        else s.writer.segmentManager.dir.stableAt cfg.walSegmentSize p := by
  have hd := crash_laid h keep
  obtain ⟨hlaid,hdata,hcur⟩ := WalCrash.openSegments_laid hd.spread.complete
  refine ⟨hlaid,hcur.trans (le_antisymm ?_ ?_),fun p => ?_⟩
  · exact hd.le _ ((s.writer.segmentManager.dir.crash keep).discoverLatestSegmentId_mem
      s.writer.segmentManager.current_mem)
  · exact (s.writer.segmentManager.dir.crash keep).le_discoverLatestSegmentId
      s.writer.segmentManager.current_mem
  · unfold image
    rw [hdata]
    rfl

namespace Inv

variable {s : Sys}

theorem survived (h : Inv cfg s) (keep : ℕ → ℕ → Bool) {x : Logged} (hx : x ∈ s.log)
    (hd : Durable cfg s x) : Survived cfg (image cfg s keep) x := by
  obtain ⟨hlaid,hcur,himage⟩ := image_laid h.log.ready keep
  refine tryReadExact_iff.2 ⟨rfl,fun i hi => ?_⟩
  have hbyte := (tryReadExact_iff.1 (h.log.stored x hx)).2 i hi
  rw [List.getElem?_eq_getElem hi] at hbyte
  have hseg := h.log.ready.laid.le _ (segment_of_readByte hbyte)
  have hdata : (image cfg s keep).dataAt cfg.walSegmentSize (x.lsn + i) = x.bytes[i]? := by
    rw [himage,(h.core.log x hx).2 i hi,hd i hi,ite_self]
  unfold image at hdata ⊢
  rw [readByte_laid hlaid,if_pos (hseg.trans hcur.ge),hdata,List.getElem?_eq_getElem hi]
  rfl

theorem durable_before (h : Inv cfg s) {l₁ l₂ : List Logged} {x y : Logged}
    (hl : s.log = l₁ ++ x :: l₂) (hy : y ∈ l₂) (hd : Durable cfg s y) : Durable cfg s x := by
  have hmem : ∀ z ∈ x :: l₂, z ∈ s.log := fun z hz => hl ▸ List.mem_append_right _ hz
  have hylog := hmem y (List.mem_cons_of_mem _ hy)
  intro i hi
  have hdata := (h.core.log x (hmem x (List.mem_cons_self ..))).2 i hi
  have hlt : x.lsn + i ≤ y.lsn := by
    have hcont := h.log.contiguous
    change RecordStream.Contiguous Lsn.first (s.log.map item) at hcont
    rw [hl,List.map_append,List.map_cons] at hcont
    have hafter := (RecordStream.contiguous_append.1 hcont).2.2.2.bounds (List.mem_map_of_mem hy)
    have hpos : x.lsn = RecordStream.stop Lsn.first (l₁.map item) := hcont.pos_eq
    have hle := hafter.1
    rw [← hpos] at hle
    change x.lsn + x.bytes.length ≤ y.lsn at hle
    omega
  have hlen := (h.log.contiguous.bounds (List.mem_map_of_mem hylog)).2.1
  have hstable := hd 0 hlen
  rw [Nat.add_zero,List.getElem?_eq_getElem hlen] at hstable
  by_cases hseg : Lsn.segmentId (x.lsn + i) cfg.walSegmentSize =
      Lsn.segmentId y.lsn cfg.walSegmentSize
  · exact (h.ordered _ _ hlt hseg (by rw [hstable]; exact Option.some_ne_none _)).trans hdata
  · have hbyte := (tryReadExact_iff.1 (h.log.stored y hylog)).2 0 hlen
    rw [Nat.add_zero,List.getElem?_eq_getElem hlen] at hbyte
    have hle : Lsn.segmentId (x.lsn + i) cfg.walSegmentSize ≤
        Lsn.segmentId y.lsn cfg.walSegmentSize := Nat.div_le_div_right hlt
    have hcur := h.log.ready.laid.le _ (segment_of_readByte hbyte)
    have hne := ((lt_of_le_of_ne hle hseg).trans_le hcur).ne
    exact (congrFun (h.core.writer.is_sealed.others _ hne) _).trans hdata

/-- The log up to the first record that did not survive, which no synced record is behind. -/
theorem split (h : Inv cfg s) (keep : ℕ → ℕ → Bool) :
    ∃ rest, s.log = intact cfg s keep ++ rest ∧ (∀ y ∈ rest, ¬Durable cfg s y) ∧
      ∀ x ∈ rest.head?, ¬Survived cfg (image cfg s keep) x := by
  obtain ⟨rest,hrest⟩ : ∃ rest, rest = s.log.dropWhile fun x =>
    decide (Survived cfg (image cfg s keep) x) := ⟨_,rfl⟩
  have hsplit : s.log = intact cfg s keep ++ rest := by
    rw [hrest]
    exact (List.takeWhile_append_dropWhile ..).symm
  have hhead : ∀ x ∈ rest.head?, ¬Survived cfg (image cfg s keep) x := by
    intro x hx
    have hfalse := List.head?_dropWhile_not
      (fun x => decide (Survived cfg (image cfg s keep) x)) s.log
    rw [← hrest,Option.mem_def.1 hx] at hfalse
    exact decide_eq_false_iff_not.1 hfalse
  refine ⟨rest,hsplit,fun y hy hd => ?_,hhead⟩
  clear hrest
  cases rest with
  | nil => cases hy
  | cons x rest =>
    have hx : x ∈ s.log := hsplit ▸ List.mem_append_right _ (List.mem_cons_self ..)
    rcases List.mem_cons.1 hy with rfl | hy
    · exact hhead y rfl (h.survived keep hx hd)
    · exact hhead x rfl (h.survived keep hx (h.durable_before hsplit hy hd))

theorem blank (h : Inv cfg s) (keep : ℕ → ℕ → Bool) :
    WalReader.ReadsAs cfg.walSegmentSize (image cfg s keep) s.writer.lsnClock [] := by
  intro i b hb
  have hvirgin := h.virgin (s.writer.lsnClock + i) (Nat.le_add_right _ _)
  have hself := h.ordered (s.writer.lsnClock + i) _ le_rfl rfl
  have hstable : s.writer.segmentManager.dir.stableAt cfg.walSegmentSize
      (s.writer.lsnClock + i) = none := by
    by_contra hs
    exact hs ((hself hs).trans hvirgin)
  rw [WalCrash.readByte_eq hb,(image_laid h.log.ready keep).2.2,hvirgin,hstable,ite_self]
  rfl

theorem tail (h : Inv cfg s) (keep : ℕ → ℕ → Bool)
    (hcrc : ∀ x ∈ s.log, ChecksumTells cfg (image cfg s keep) x) :
    (nextRecord cfg.walSegmentSize cfg.crc32 (image cfg s keep)
          (stop (intact cfg s keep)) = .ok none ∧
        EndsLog cfg (image cfg s keep) (stop (intact cfg s keep))) ∨
      (∃ e, nextRecord cfg.walSegmentSize cfg.crc32 (image cfg s keep)
          (stop (intact cfg s keep)) = .error e) ∧
        ¬EndsLog cfg (image cfg s keep) (stop (intact cfg s keep)) := by
  obtain ⟨hlaid,hcur,himage⟩ := image_laid h.log.ready keep
  obtain ⟨rest,hl,-,hhead⟩ := h.split keep
  cases rest with
  | nil =>
    rw [List.append_nil] at hl
    rw [← hl,← show s.writer.lsnClock = stop s.log from h.log.clock]
    have hblank := h.blank keep
    exact .inl ⟨WalReader.nextRecord_blank hblank,endsLog_of_blank hblank⟩
  | cons x rest =>
    have hcont := h.log.contiguous
    change RecordStream.Contiguous Lsn.first (s.log.map item) at hcont
    rw [hl,List.map_append,List.map_cons] at hcont
    have hpos : x.lsn = stop (intact cfg s keep) := hcont.pos_eq
    rw [← hpos]
    exact nextRecord_lost hlaid (hhead x rfl)
      (hcrc x (hl ▸ List.mem_append_right _ (List.mem_cons_self ..)))

/-- Reading from a boundary in front of the first record that did not survive. -/
theorem yields (h : Inv cfg s) (keep : ℕ → ℕ → Bool) {l₁ l₂ : List Logged}
    (hl : intact cfg s keep = l₁ ++ l₂) {rs : List WalRecord} {out : Except StorageError ℕ}
    (hy : WalReader.Yields cfg.walSegmentSize cfg.crc32 (image cfg s keep)
      (stop (intact cfg s keep)) rs out) :
    WalReader.Yields cfg.walSegmentSize cfg.crc32 (image cfg s keep) (stop l₁)
      (l₂.map Logged.record ++ rs) out := by
  obtain ⟨rest,hlog,-,-⟩ := h.split keep
  have hcont := h.log.contiguous
  change RecordStream.Contiguous Lsn.first (s.log.map item) at hcont
  rw [hlog,List.map_append,RecordStream.contiguous_append] at hcont
  have hmem : ∀ x ∈ l₂, x ∈ intact cfg s keep := fun x hx => hl ▸ List.mem_append_right _ hx
  rw [hl] at hy hcont
  refine WalCrash.yields_log hcont.1 (fun x hx => ?_) (fun x hx => ?_) hy
  · have hx' : x ∈ s.log := hlog ▸ List.mem_append_left _ (hmem x hx)
    exact h.log.encoded x hx'
  · exact of_decide_eq_true (List.all_eq_true.1 List.all_takeWhile x (hmem x hx))

end Inv

/-- Where the scan may start: at a synced record, or at the start of the log. -/
def SyncedHint (cfg : WalConfig) (s : Sys) (hint : ℕ) : Prop :=
  hint = Lsn.invalid ∨ ∃ x ∈ s.log, Durable cfg s x ∧ hint = x.lsn

theorem Inv.boundary (h : Inv cfg s) (keep : ℕ → ℕ → Bool) {hint : ℕ} (hh : SyncedHint cfg s hint) :
    ∃ l₁ l₂, intact cfg s keep = l₁ ++ l₂ ∧ scanStart hint = stop l₁ ∧
      Lsn.segmentId (stop l₁) cfg.walSegmentSize ∈ (image cfg s keep).ids := by
  obtain ⟨hlaid,hcur,-⟩ := image_laid h.log.ready keep
  obtain ⟨rest,hlog,hrest,-⟩ := h.split keep
  rcases hh with rfl | ⟨x,hx,hd,rfl⟩
  · exact ⟨[],_,rfl,rfl,hlaid.mem _ (h.log.origin.trans_le (Nat.zero_le _))⟩
  · have hcont := h.log.contiguous
    change RecordStream.Contiguous Lsn.first (s.log.map item) at hcont
    rw [hlog,List.map_append,RecordStream.contiguous_append] at hcont
    have hmem : x ∈ intact cfg s keep := by
      rw [hlog] at hx
      exact (List.mem_append.1 hx).elim id fun hx => absurd hd (hrest x hx)
    obtain ⟨l₁,l₂,hl,hpos,hstart⟩ := WalCrash.scanStart_of_mem hcont.1 hmem
    have hlen := (hcont.1.bounds (List.mem_map_of_mem hmem)).2.1
    have hbyte := (tryReadExact_iff.1 (h.survived keep hx hd)).2 0 hlen
    rw [Nat.add_zero,List.getElem?_eq_getElem hlen] at hbyte
    exact ⟨l₁,x :: l₂,hl,hstart,hpos ▸ segment_of_readByte hbyte⟩

theorem Inv.durable_sublist (h : Inv cfg s) (keep : ℕ → ℕ → Bool) {l₁ l₂ : List Logged}
    (hl : intact cfg s keep = l₁ ++ l₂) :
    (s.log.filter fun x => stop l₁ ≤ x.lsn ∧ Durable cfg s x).Sublist l₂ := by
  obtain ⟨rest,hlog,hrest,-⟩ := h.split keep
  have hcont := h.log.contiguous
  change RecordStream.Contiguous Lsn.first (s.log.map item) at hcont
  rw [hlog,hl,List.map_append,RecordStream.contiguous_append,List.map_append,
    RecordStream.contiguous_append] at hcont
  have hfront : l₁.filter (fun x => stop l₁ ≤ x.lsn ∧ Durable cfg s x) = [] := by
    refine List.filter_eq_nil_iff.2 fun x hx => ?_
    obtain ⟨-,hsize,hle⟩ := hcont.1.1.bounds (List.mem_map_of_mem hx)
    rw [decide_eq_true_eq]
    rintro ⟨hge,-⟩
    change x.lsn + x.bytes.length ≤ stop l₁ at hle
    change 0 < x.bytes.length at hsize
    omega
  have hback : rest.filter (fun x => stop l₁ ≤ x.lsn ∧ Durable cfg s x) = [] := by
    refine List.filter_eq_nil_iff.2 fun x hx => ?_
    rw [decide_eq_true_eq]
    exact fun hd => hrest x hx hd.2
  have hfilter : s.log.filter (fun x => stop l₁ ≤ x.lsn ∧ Durable cfg s x) =
      l₂.filter fun x => stop l₁ ≤ x.lsn ∧ Durable cfg s x := by
    conv_lhs => rw [hlog,hl]
    rw [List.filter_append,List.filter_append,hfront,hback,List.append_nil,List.nil_append]
  rw [hfilter]
  exact List.filter_sublist

/-- The log can be opened and gives every synced record from the start of the scan on, exactly if
the first record that did not survive looks like the end of the log. -/
theorem power_loss_survived_iff {s : Sys}
    (h : Machine.Reach (step cfg) (Fresh cfg) (Calm cfg) s) (keep : ℕ → ℕ → Bool) {hint : ℕ}
    (hh : SyncedHint cfg s hint) (hcrc : ∀ x ∈ s.log, ChecksumTells cfg (image cfg s keep) x) :
    (∃ w rs, openWithScanStart cfg (s.writer.segmentManager.dir.crash keep) hint = .ok w ∧
        records cfg.walSegmentSize cfg.crc32 w.segmentManager.dir
          (scanStart hint) = .ok (rs,w.lsnClock) ∧
        ((s.log.filter fun x => scanStart hint ≤ x.lsn ∧ Durable cfg s x).map
          Logged.record).Sublist rs) ↔
      EndsLog cfg (image cfg s keep) (stop (intact cfg s keep)) := by
  have hi := reach_inv h
  obtain ⟨hlaid,-,-⟩ := image_laid hi.log.ready keep
  obtain ⟨rest,hlog,-,-⟩ := hi.split keep
  obtain ⟨l₁,l₂,hl,hstart,hmem⟩ := hi.boundary keep hh
  have halign : 8 ∣ stop l₁ := by
    have hsplit : s.log = l₁ ++ (l₂ ++ rest) := by rw [← List.append_assoc,← hl,hlog]
    exact hi.log.dvd_stop hsplit
  have hopen := fun {rs out} hy => WalCrash.open_of_yields hlaid (hstart ▸ halign)
    (hstart ▸ hmem) (hstart ▸ @Inv.yields cfg s hi keep l₁ l₂ hl rs out hy)
  rcases hi.tail keep hcrc with ⟨hnone,hend⟩ | ⟨⟨e,he⟩,hend⟩
  · refine iff_of_true ⟨_,l₂.map Logged.record ++ [],hopen (.done hnone),?_,?_⟩ hend
    · have hy := hi.yields keep hl (.done hnone)
      rw [← hstart] at hy
      exact hy.records_eq cfg.size_pos (hstart ▸ WalCrash.stop_pos l₁)
    · rw [List.append_nil,hstart]
      exact (hi.durable_sublist keep hl).map _
  · refine iff_of_false ?_ hend
    rintro ⟨w,rs,hw,-⟩
    rw [hopen (.fail he)] at hw
    cases hw

instance (s : Sys) (r : WalRecord) : Decidable (WalCrash.Typed (view s) r) :=
  inferInstanceAs (Decidable (WalCrash.Appends (view s) (.append r)))

def Running (cfg : WalConfig) (s : Sys) : Step → Prop
  | .append r fault => Stores cfg s "append" fault r
  | .workerBegin _ dupFault => dupFault = none
  | _ => False

instance (s : Sys) (a : Step) : Decidable (Running cfg s a) :=
  match a with
  | .append .. => inferInstanceAs (Decidable (_ ∧ _))
  | .workerBegin .. => inferInstanceAs (Decidable (_ = _))
  | .reserveAndAppend .. | .flush _ | .commit .. | .flushTo .. | .enter _ | .wake _
  | .workerEnd .. | .close | .reopen .. => .isFalse id

theorem calm_of_running (s : Sys) (a : Step) (h : Running cfg s a) : Calm cfg s a := by
  cases a <;> first | exact h | exact h.elim

def completed (s : Sys) : Option Sys := step smallConfig s (.workerEnd none fun _ => false)

theorem exists_synced (schedule : List Step) {p : Sys → Bool}
    (h : (Machine.exec (Machine.guarded (step smallConfig)
      (Running smallConfig)) freshSys schedule).any
        (fun s => (completed s).any p) = true) :
    ∃ s, Machine.Reach (step smallConfig) (Fresh smallConfig)
      (Calm smallConfig) s ∧ p s = true := by
  obtain ⟨s,hs,hp⟩ := Machine.exists_reach WalSystem.fresh_freshSys schedule h
  rw [Option.any_eq_true] at hp
  obtain ⟨t,ht,hp⟩ := hp
  have hcalm : Calm smallConfig s (.workerEnd none fun _ => false) :=
    ⟨rfl,fun _ => rfl⟩
  exact ⟨t,.next (hs.mono calm_of_running) hcalm ht,hp⟩

/-- Of each file only the second sector of what no sync covered is kept. -/
def secondSector : ℕ → ℕ → Bool := fun _ o => o / 512 == 1

/-- Twelve records are synced while the thirteenth is written over the first sector boundary. -/
def crossing : List Step :=
  List.replicate 12 (.append (filler 8) none) ++
    [.workerBegin false none,.append (filler 8) none]

/-- The record at 448 is synced, and the log cannot be opened from there on. -/
def unopened (s : Sys) : Bool :=
  s.log.any (fun x => x.lsn == 448 && decide (Durable smallConfig s x)) &&
    !(openWithScanStart smallConfig
      (s.writer.segmentManager.dir.crash secondSector) 448).toOption.isSome

/-- The part of the last record in its second sector is kept: its header has lost the position, and
the opening fails though everything that was synced is there. -/
theorem power_loss_unopened :
    ∃ s, Machine.Reach (step smallConfig) (Fresh smallConfig)
      (Calm smallConfig) s ∧ unopened s = true :=
  exists_synced crossing (by decide +kernel)

/-- The record at 8 is synced and the one behind it, at 48, is not. -/
def halfSynced (s : Sys) : Bool :=
  s.writer.segmentManager.currentSegmentId == 0 &&
    s.writer.segmentManager.dir.stableAt 1024 48 == none &&
    s.writer.segmentManager.dir.dataAt 1024 48 != none &&
    stop (intact smallConfig s fun _ _ => false) == 48 &&
    s.log.length == 2 && s.log.any (fun x => x.lsn == 8 &&
      decide (Durable smallConfig s x)) &&
    s.log.all fun x => decide (ChecksumTells smallConfig
      (image smallConfig s fun _ _ => false) x)

/-- The first record is read back and the second one is gone. -/
theorem power_loss_survived_half :
    ∃ s w rs, Machine.Reach (step smallConfig) (Fresh smallConfig)
        (Calm smallConfig) s ∧ s.log.length = 2 ∧
      openWithScanStart smallConfig
        (s.writer.segmentManager.dir.crash fun _ _ => false) 8 = .ok w ∧
      records 1024 crc32Ieee w.segmentManager.dir 8 = .ok (rs,w.lsnClock) ∧
      ∃ x ∈ s.log, x.lsn = 8 ∧ Durable smallConfig s x ∧ x.record ∈ rs := by
  obtain ⟨s,hs,hp⟩ := exists_synced [.append (filler 8) none,.workerBegin true none,
    .append (filler 0) none] (p := halfSynced) (by decide +kernel)
  simp only [halfSynced,Bool.and_eq_true,beq_iff_eq,bne_iff_ne,List.any_eq_true,List.all_eq_true,
    decide_eq_true_eq] at hp
  obtain ⟨⟨⟨⟨⟨⟨hcur,hstable⟩,hdata⟩,hstop⟩,hlen⟩,x,hx,hlsn,hd⟩,hcrc⟩ := hp
  have hi := reach_inv hs
  have hblank : WalReader.ReadsAs 1024 (image smallConfig s fun _ _ => false) 48 [] := by
    intro i b hb
    obtain ⟨hlaid,hc,himage⟩ := image_laid hi.log.ready fun _ _ => false
    have hseg : Lsn.segmentId (48 + i) 1024 = 0 := by
      have hle := hlaid.le _ (@WalCrash.segment_of_readByte smallConfig _ _ _ hb)
      rw [hc,hcur] at hle
      exact Nat.le_zero.1 hle
    have hnone : s.writer.segmentManager.dir.stableAt 1024 (48 + i) = none := by
      by_contra hne
      have heq := hi.ordered 48 (48 + i) (Nat.le_add_right _ _) hseg.symm hne
      exact hdata (heq.symm.trans hstable)
    rw [@WalCrash.readByte_eq smallConfig _ _ _ hb,himage]
    change (s.writer.segmentManager.dir.stableAt 1024 (48 + i)).getD 0 = 0
    rw [hnone]
    rfl
  have hend := @endsLog_of_blank smallConfig _ _ hblank
  rw [← hstop] at hend
  obtain ⟨w,rs,hw,hread,hsub⟩ := (power_loss_survived_iff hs _ (.inr ⟨x,hx,hd,rfl⟩) hcrc).2 hend
  have hstart : scanStart x.lsn = 8 := by
    rw [hlsn]
    rfl
  rw [hstart] at hread hsub
  rw [hlsn] at hw
  refine ⟨s,w,rs,hs,hlen,hw,hread,x,hx,hlsn,hd,hsub.subset (List.mem_map_of_mem ?_)⟩
  exact List.mem_filter.2 ⟨hx,decide_eq_true ⟨hlsn.ge,hd⟩⟩

end WalPower
end PgAm
