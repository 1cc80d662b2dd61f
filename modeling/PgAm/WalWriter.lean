import PgAm.Machine
import PgAm.WalReader

/-! The group-commit WAL writer. Appends and the entry of `flush_to` are single
critical sections of the writer's mutex; the worker captures a wave under the
mutex, syncs without it and publishes the result under it again. -/
namespace PgAm

/-- With the checks that opening the segment manager makes. -/
structure WalConfig where
  walSegmentSize : ℕ
  walGroupCommitBatchSize : ℕ
  crc32 : List UInt8 → UInt32
  size_pos : 0 < walSegmentSize
  size_aligned : walSegmentSize % lsnAlignment = 0

/-- Segments of 128 bytes, so that short runs rotate and recycle them. -/
def tinyConfig : WalConfig := ⟨128,4,crc32Ieee,by decide,by decide⟩

/-- The state behind the writer's mutex. The clock is the position the next record gets. -/
structure WriterState where
  lsnClock : ℕ
  segmentManager : WalSegmentManager
  syncedLsn : ℕ
  pending : ℕ
  flushRequested : Bool
  shutdown : Bool
  lastError : Option String

/-- The wave of an fsync in flight: what it covers and the file content it started from. -/
structure Wave where
  coverLsn : ℕ
  coverSegment : ℕ
  coverPending : ℕ
  snapshot : ℕ → Option UInt8

inductive Worker
  | idle
  | syncing (wave : Wave)
  | exited

namespace WalWriter
variable (cfg : WalConfig)

def openSegments (d : WalDir) : WalSegmentManager :=
  let latest := d.discoverLatestSegmentId
  let m : WalSegmentManager := ⟨d.create latest,latest,by simp⟩
  let m := if (m.dir.file latest).len ≠ cfg.walSegmentSize then
    m.modifyFile latest (·.setLen cfg.walSegmentSize) else m
  m.modifyFile latest SegmentFile.syncAll

/-- Scan from the hint, a known record boundary, or else from the oldest segment. -/
def discoverResumeLsn (d : WalDir) (scanStartHint : ℕ) : Except StorageError ℕ := do
  let oldest := d.discoverOldestSegmentId
  let oldestStart := if oldest = 0 then Lsn.first else oldest * cfg.walSegmentSize
  let scanStart := if Lsn.isValid scanStartHint ∧ oldestStart < scanStartHint then scanStartHint
    else oldestStart
  WalReader.openAt cfg.walSegmentSize d scanStart
  WalReader.scanEnd cfg.walSegmentSize cfg.crc32 d (WalReader.streamBound cfg.walSegmentSize d)
    scanStart

def openWithSegmentManager (m : WalSegmentManager) (startLsn initialSyncedLsn : ℕ) :
    WriterState :=
  ⟨startLsn,m,initialSyncedLsn,0,false,false,none⟩

/-- The segment file was preallocated on opening, so the resume scan always runs. -/
def openWithScanStart (d : WalDir) (scanStartHint : ℕ) : Except StorageError WriterState := do
  let m := openSegments cfg d
  let startLsn ← discoverResumeLsn cfg m.dir scanStartHint
  let initialSyncedLsn := if Lsn.first < startLsn then startLsn else Lsn.invalid
  return openWithSegmentManager m startLsn initialSyncedLsn

def checkError (st : WriterState) : Except StorageError Unit :=
  match st.lastError with
  | some msg => .error (.walWriteFailed msg)
  | none => .ok ()

/-- `append` and `reserve_and_append` differ in the name their error carries. -/
def appendAs (name : String) (fault : Option IoFault) (r : WalRecord) (st : WriterState) :
    Except StorageError ℕ × WriterState :=
  match checkError st with
  | .error e => (.error e,st)
  | .ok () =>
    let n := r.payload.length
    if u16Max < n then (.error (.serialize s!"payload length {n} exceeds u16::MAX"),st)
    else
      let lsn := st.lsnClock
      let r := { r with lsn := lsn }
      let st := { st with lsnClock := lsn + r.recordSize }
      match r.encode cfg.crc32 with
      | .error e => (.error e,st)
      | .ok buf =>
        match WalSegmentManager.writeRecordToSegment cfg.walSegmentSize buf lsn
            ⟨st.segmentManager,fault⟩ with
        | (.ok (),io) =>
          (.ok lsn,{ st with segmentManager := io.manager, pending := st.pending + 1 })
        | (.error e,io) =>
          (.error e,{ st with
            segmentManager := io.manager
            lastError := some (name ++ ": segment write failed at " ++ Lsn.display lsn ++ ": " ++
              e.display)
            shutdown := true })

def append := appendAs cfg "append"
def reserveAndAppend := appendAs cfg "reserve_and_append"

/-- One evaluation of the waiting loop of `flush_to`: the result, or another wait. -/
def flushWait (lsn : ℕ) (st : WriterState) : Option (Except StorageError Unit) × WriterState :=
  if st.syncedLsn < lsn then
    match checkError st with
    | .error e => (some (.error e),st)
    | .ok () =>
      if st.shutdown then (some (.error (.walWriteFailed "wal writer shut down")),st)
      else (none,{ st with flushRequested := true })
  else (some (.ok ()),st)

/-- `flush_to` up to its first wait. -/
def flushTo (lsn : ℕ) (st : WriterState) : Option (Except StorageError Unit) × WriterState :=
  match checkError st with
  | .error e => (some (.error e),st)
  | .ok () =>
    if st.lsnClock < lsn then (some (.error (.lsnNotAvailable lsn)),st)
    else if lsn ≤ st.syncedLsn then (some (.ok ()),st)
    else flushWait lsn { st with flushRequested := true }

/-- The first critical section of `flush`: its result, or the target for `flush_to`. -/
def flush (st : WriterState) : Except (Except StorageError Unit) ℕ :=
  match checkError st with
  | .error e => .error (.error e)
  | .ok () => if st.pending = 0 then .error (.ok ()) else .ok st.lsnClock

/-- `timedOut` is the group-commit timer, `dupFault` a failing duplication of the handle. -/
def workerBegin (timedOut : Bool) (dupFault : Option String) (st : WriterState) :
    Worker × WriterState :=
  if st.shutdown ∧ st.pending = 0 then (.exited,st)
  else
    let shouldFlush : Bool := 0 < st.pending &&
      (st.shutdown || st.flushRequested || cfg.walGroupCommitBatchSize ≤ st.pending || timedOut)
    if !shouldFlush && !st.shutdown then (.idle,st)
    else if st.pending = 0 then (.idle,st)
    else
      match dupFault with
      | some e => (.exited,{ st with
          lastError := some s!"wal dup-for-fsync failed: {e}", shutdown := true })
      | none =>
        let seg := st.segmentManager.currentSegmentId
        (.syncing ⟨st.lsnClock,seg,st.pending,(st.segmentManager.dir.file seg).data⟩,st)

/-- Every byte that stood there when the sync began, and any of those written meanwhile. -/
def syncWave (w : Wave) (also : ℕ → Bool) (f : SegmentFile) : SegmentFile :=
  { f with stable := fun o => if also o ∨ w.snapshot o = f.data o then f.data o else f.stable o }

/-- If appends rotated meanwhile, only the end of the synced segment. -/
def durable (w : Wave) (currentSegmentId : ℕ) : ℕ :=
  if currentSegmentId = w.coverSegment then w.coverLsn
  else (w.coverSegment + 1) * cfg.walSegmentSize

def workerEnd (w : Wave) (fsyncFault : Option String) (also : ℕ → Bool) (st : WriterState) :
    Worker × WriterState :=
  match fsyncFault with
  | some e => (.exited,{ st with lastError := some s!"wal fsync failed: {e}", shutdown := true })
  | none =>
    let m := st.segmentManager.modifyFile w.coverSegment (syncWave w also)
    (.idle,{ st with
      segmentManager := m
      lastError := if st.shutdown then st.lastError else none
      syncedLsn := max st.syncedLsn (durable cfg w m.currentSegmentId)
      pending := st.pending - w.coverPending
      flushRequested := false })

/-- Below the durable horizon every written byte is stable. -/
structure Inv (st : WriterState) : Prop where
  is_sealed : st.segmentManager.Sealed
  newest : st.lastError = none → st.segmentManager.Newest
  poisoned : st.lastError ≠ none → st.shutdown = true
  synced_le : st.syncedLsn ≤ st.lsnClock
  stable : ∀ p < st.syncedLsn, st.segmentManager.dir.stableAt cfg.walSegmentSize p =
    st.segmentManager.dir.dataAt cfg.walSegmentSize p

structure Steady (st : WriterState) : Prop where
  is_sealed : st.segmentManager.Sealed
  newest : st.lastError = none → st.segmentManager.Newest
  poisoned : st.lastError ≠ none → st.shutdown = true

/-- What holds of an fsync in flight while the writer moves on. -/
structure WaveInv (st : WriterState) (w : Wave) : Prop where
  cover_le : w.coverLsn ≤ st.lsnClock
  segment_le : w.coverSegment ≤ st.segmentManager.currentSegmentId
  rotated : w.coverSegment < st.segmentManager.currentSegmentId →
    st.segmentManager.currentSegmentId * cfg.walSegmentSize ≤ st.lsnClock
  unchanged : ∀ p < w.coverLsn, Lsn.segmentId p cfg.walSegmentSize = w.coverSegment →
    w.snapshot (Lsn.segmentOffset p cfg.walSegmentSize) =
      st.segmentManager.dir.dataAt cfg.walSegmentSize p

/-- Clock and horizon only advance, and bytes behind the clock are never rewritten. -/
structure Grows (st st' : WriterState) : Prop where
  clock : st.lsnClock ≤ st'.lsnClock
  synced : st.syncedLsn ≤ st'.syncedLsn
  data : ∀ p < st.lsnClock, st'.segmentManager.dir.dataAt cfg.walSegmentSize p =
    st.segmentManager.dir.dataAt cfg.walSegmentSize p

/-- Refused without effect, stored at the clock, or failed half way, which poisons the writer. -/
inductive Appended (r : WalRecord) (st : WriterState) :
    Except StorageError ℕ → WriterState → Prop
  | refused (e : StorageError) : Appended r st (.error e) st
  | stored {buf : List UInt8} {m : WalSegmentManager} (hnone : st.lastError = none)
      (hbuf : WalRecord.encode cfg.crc32 { r with lsn := st.lsnClock } = .ok buf)
      (hm : WalSegmentManager.Stored cfg.walSegmentSize st.lsnClock buf st.segmentManager m) :
      Appended r st (.ok st.lsnClock) { st with
        lsnClock := st.lsnClock + buf.length, segmentManager := m, pending := st.pending + 1 }
  | poisoned {e : StorageError} {n : ℕ} {m : WalSegmentManager} {msg : String}
      (hm : WalSegmentManager.Progress cfg.walSegmentSize (st.lsnClock + n)
        (WalDir.region cfg.walSegmentSize st.lsnClock (st.lsnClock + n)) st.segmentManager m) :
      Appended r st (.error e) { st with
        lsnClock := st.lsnClock + n, segmentManager := m, lastError := some msg, shutdown := true }

variable {cfg}

variable {st : WriterState}

theorem Inv.steady (h : Inv cfg st) : Steady st :=
  { h with }

theorem checkError_ok (h : checkError st = .ok ()) : st.lastError = none := by
  unfold checkError at h
  cases he : st.lastError with
  | none => rfl
  | some msg => simp [he] at h

theorem appendAs_appended (name : String) (fault : Option IoFault) (r : WalRecord)
    {st : WriterState} (h : Steady st) :
    Appended cfg r st (appendAs cfg name fault r st).1 (appendAs cfg name fault r st).2 := by
  unfold appendAs
  cases hc : checkError st with
  | error e => exact .refused e
  | ok u =>
    have hnone := checkError_ok hc
    dsimp only
    split
    · exact .refused _
    rename_i hlen
    cases henc : WalRecord.encode cfg.crc32 { r with lsn := st.lsnClock } with
    | error e => simp [WalRecord.encode,hlen] at henc
    | ok buf =>
      have hsize := WalRecord.encode_length cfg.crc32 henc
      have hrun := WalSegmentManager.writeRecordToSegment_run (s := ⟨st.segmentManager,fault⟩)
        cfg.size_pos buf st.lsnClock h.is_sealed (h.newest hnone)
      simp only
      split
      · rename_i io hio
        rw [← hsize]
        exact .stored hnone henc (hrun.of_ok hio)
      · rename_i e io hio
        rw [← hsize]
        exact .poisoned (hrun.of_error hio)

variable {res : Except StorageError ℕ}

variable {r : WalRecord}

theorem Appended.grows {st st' : WriterState}
    (h : Appended cfg r st res st') : Grows cfg st st' := by
  cases h with
  | refused e => exact ⟨le_rfl,le_rfl,fun _ _ => rfl⟩
  | stored hnone hbuf hm =>
    exact ⟨Nat.le_add_right _ _,le_rfl,fun p hp => hm.progress.frame.dataAt_eq (.inl hp)⟩
  | poisoned hm =>
    exact ⟨Nat.le_add_right _ _,le_rfl,fun p hp => hm.frame.dataAt_eq (.inl hp)⟩

variable {d : WalDir}

/-- A stable byte behind the clock stays stable under a write that starts at the clock. -/
theorem Inv.stable_of_frame {hi : ℕ} (h : Inv cfg st)
    (hf : st.segmentManager.dir.Frame (WalDir.region cfg.walSegmentSize st.lsnClock hi) d) :
    ∀ p < st.syncedLsn, d.stableAt cfg.walSegmentSize p = d.dataAt cfg.walSegmentSize p :=
  fun p hp => hf.stableAt_eq (.inl (hp.trans_le h.synced_le)) (h.stable p hp)

theorem Appended.inv {st st' : WriterState}
    (h : Appended cfg r st res st') (hi : Inv cfg st) : Inv cfg st' := by
  cases h with
  | refused e => exact hi
  | stored hnone hbuf hm =>
    exact ⟨hm.progress.is_sealed,fun _ => hm.newest,hi.poisoned,
      hi.synced_le.trans (Nat.le_add_right _ _),hi.stable_of_frame hm.progress.frame⟩
  | poisoned hm =>
    exact ⟨hm.is_sealed,fun hnone => by simp at hnone,fun _ => rfl,
      hi.synced_le.trans (Nat.le_add_right _ _),hi.stable_of_frame hm.frame⟩

variable {w : Wave}

theorem WaveInv.of_progress {st st' : WriterState} {n : ℕ} (hw : WaveInv cfg st w)
    (hclock : st'.lsnClock = st.lsnClock + n)
    (hm : WalSegmentManager.Progress cfg.walSegmentSize (st.lsnClock + n)
      (WalDir.region cfg.walSegmentSize st.lsnClock (st.lsnClock + n))
      st.segmentManager st'.segmentManager) : WaveInv cfg st' w where
  cover_le := by
    rw [hclock]
    exact hw.cover_le.trans (Nat.le_add_right _ _)
  segment_le := hw.segment_le.trans hm.current_le
  rotated hlt := by
    rw [hclock]
    rcases hm.current_le.eq_or_lt with he | hlt'
    · rw [← he] at hlt ⊢
      exact (hw.rotated hlt).trans (Nat.le_add_right _ _)
    · exact hm.position hlt'
  unchanged p hp hseg := by
    rw [hw.unchanged p hp hseg]
    exact (hm.frame.dataAt_eq (.inl (hp.trans_le hw.cover_le))).symm

theorem Appended.wave {st st' : WriterState} (h : Appended cfg r st res st')
    (hw : WaveInv cfg st w) : WaveInv cfg st' w := by
  cases h with
  | refused e => exact hw
  | stored hnone hbuf hm => exact hw.of_progress rfl hm.progress
  | poisoned hm => exact hw.of_progress rfl hm

theorem flushWait_cases (lsn : ℕ) (st : WriterState) :
    (flushWait lsn st).2 = { st with flushRequested := (flushWait lsn st).2.flushRequested } ∧
      ((flushWait lsn st).1 = some (.ok ()) → lsn ≤ st.syncedLsn) := by
  unfold flushWait
  split
  · cases checkError st with
    | error e => simp
    | ok u =>
      dsimp only
      split <;> exact ⟨rfl,by simp⟩
  · rename_i h
    exact ⟨rfl,fun _ => not_lt.1 h⟩

theorem flushTo_cases (lsn : ℕ) (st : WriterState) :
    (flushTo lsn st).2 = { st with flushRequested := (flushTo lsn st).2.flushRequested } ∧
      ((flushTo lsn st).1 = some (.ok ()) → lsn ≤ st.syncedLsn) := by
  unfold flushTo
  cases checkError st with
  | error e => simp
  | ok u =>
    dsimp only
    split
    · simp
    split
    · rename_i h
      exact ⟨rfl,fun _ => h⟩
    · exact flushWait_cases lsn { st with flushRequested := true }

theorem workerBegin_inv {timedOut : Bool} {dupFault : Option String} {st : WriterState}
    (h : Inv cfg st) :
    Inv cfg (workerBegin cfg timedOut dupFault st).2 ∧
      Grows cfg st (workerBegin cfg timedOut dupFault st).2 := by
  have hsame : Inv cfg st ∧ Grows cfg st st := ⟨h,le_rfl,le_rfl,fun _ _ => rfl⟩
  have hpoison : ∀ msg, Inv cfg { st with lastError := some msg, shutdown := true } ∧
      Grows cfg st { st with lastError := some msg, shutdown := true } := fun msg =>
    ⟨⟨h.is_sealed,fun hn => by simp at hn,fun _ => rfl,h.synced_le,h.stable⟩,
      le_rfl,le_rfl,fun _ _ => rfl⟩
  unfold workerBegin
  dsimp only
  split
  · exact hsame
  split
  · exact hsame
  split
  · exact hsame
  cases dupFault with
  | some e => exact hpoison _
  | none => exact hsame

theorem workerBegin_wave {timedOut : Bool} {dupFault : Option String}
    (hw : (workerBegin cfg timedOut dupFault st).1 = .syncing w) :
    WaveInv cfg (workerBegin cfg timedOut dupFault st).2 w := by
  unfold workerBegin at hw ⊢
  dsimp only at hw ⊢
  split at hw
  · cases hw
  split at hw
  · cases hw
  split at hw
  · cases hw
  rename_i h₁ h₂ h₃
  rw [if_neg h₁,if_neg h₂,if_neg h₃]
  cases dupFault with
  | some e => cases hw
  | none =>
    cases hw
    refine ⟨le_rfl,le_rfl,fun h => absurd h (lt_irrefl _),fun p _ hseg => ?_⟩
    unfold WalDir.dataAt
    rw [hseg]

@[simp] theorem syncWave_data (w : Wave) (also : ℕ → Bool) (f : SegmentFile) :
    (syncWave w also f).data = f.data := rfl

theorem syncWave_stable_or (w : Wave) (also : ℕ → Bool) (f : SegmentFile) (o : ℕ) :
    (syncWave w also f).stable o = f.stable o ∨ (syncWave w also f).stable o = f.data o := by
  unfold syncWave
  dsimp only
  split
  · exact .inr rfl
  · exact .inl rfl

theorem syncWave_synced {also : ℕ → Bool} {f : SegmentFile} (h : f.Synced) :
    (syncWave w also f).Synced := by
  funext o
  rw [syncWave_data]
  rcases syncWave_stable_or w also f o with hs | hs
  · rw [hs,h]
  · exact hs

theorem syncWave_file (m : WalSegmentManager) (id : ℕ) (w : Wave) (also : ℕ → Bool) (j : ℕ) :
    (m.modifyFile id (syncWave w also)).dir.file j = m.dir.file j ∨
      (m.modifyFile id (syncWave w also)).dir.file j = syncWave w also (m.dir.file j) := by
  simp only [WalSegmentManager.modifyFile_dir,WalDir.modify]
  split
  · exact .inr rfl
  · exact .inl rfl

theorem syncWave_dataAt (m : WalSegmentManager) (id : ℕ) (w : Wave) (also : ℕ → Bool) (n p : ℕ) :
    (m.modifyFile id (syncWave w also)).dir.dataAt n p = m.dir.dataAt n p := by
  unfold WalDir.dataAt
  rcases syncWave_file m id w also (Lsn.segmentId p n) with h | h
  · rw [h]
  · rw [h,syncWave_data]

variable {m : WalSegmentManager}

theorem syncWave_stableAt {n p : ℕ} (id : ℕ) (w : Wave) (also : ℕ → Bool)
    (h : m.dir.stableAt n p = m.dir.dataAt n p) :
    (m.modifyFile id (syncWave w also)).dir.stableAt n p =
      (m.modifyFile id (syncWave w also)).dir.dataAt n p := by
  rw [syncWave_dataAt]
  unfold WalDir.stableAt WalDir.dataAt at *
  rcases syncWave_file m id w also (Lsn.segmentId p n) with hf | hf
  · rw [hf,h]
  · rw [hf]
    rcases syncWave_stable_or w also (m.dir.file (Lsn.segmentId p n)) (Lsn.segmentOffset p n)
      with hs | hs
    · rw [hs,h]
    · exact hs

theorem sealed_syncWave (h : m.Sealed) (id : ℕ) (w : Wave)
    (also : ℕ → Bool) : (m.modifyFile id (syncWave w also)).Sealed := by
  have hkeep : ∀ j, (m.dir.file j).Synced →
      ((m.modifyFile id (syncWave w also)).dir.file j).Synced := by
    intro j hj
    rcases syncWave_file m id w also j with hf | hf
    · rwa [hf]
    · rw [hf]
      exact syncWave_synced hj
  exact ⟨fun j hj => hkeep j (h.others j hj),fun j hj hlt => hkeep _ (h.newer j hj hlt)⟩

theorem stableAt_of_other_segment {n p : ℕ} (h : m.Sealed)
    (hp : Lsn.segmentId p n ≠ m.currentSegmentId) : m.dir.stableAt n p = m.dir.dataAt n p :=
  congrFun (h.others _ hp) _

/-- The fsync of a wave makes every byte below its durable position stable. -/
theorem WaveInv.stable_below (h : Inv cfg st) (hw : WaveInv cfg st w) (also : ℕ → Bool) {p : ℕ}
    (hp : p < durable cfg w st.segmentManager.currentSegmentId) :
    let m := st.segmentManager.modifyFile w.coverSegment (syncWave w also)
    m.dir.stableAt cfg.walSegmentSize p = m.dir.dataAt cfg.walSegmentSize p := by
  intro m
  by_cases hseg : Lsn.segmentId p cfg.walSegmentSize = st.segmentManager.currentSegmentId
  · have hcover : st.segmentManager.currentSegmentId = w.coverSegment := by
      by_contra hne
      rw [durable,if_neg hne] at hp
      have hlt : Lsn.segmentId p cfg.walSegmentSize < w.coverSegment + 1 :=
        Nat.div_lt_of_lt_mul (by rwa [Nat.mul_comm])
      have hle := hw.segment_le
      omega
    rw [durable,if_pos hcover] at hp
    have hsnap := hw.unchanged p hp (hseg.trans hcover)
    have hmem := st.segmentManager.current_mem
    rw [hcover] at hmem hseg
    have hfile := st.segmentManager.dir.modify_file_same (syncWave w also) hmem
    rw [syncWave_dataAt]
    unfold WalDir.stableAt WalDir.dataAt at *
    simp only [m,WalSegmentManager.modifyFile_dir]
    rw [hseg] at hsnap ⊢
    rw [hfile]
    simp [syncWave,hsnap]
  · exact syncWave_stableAt _ _ _ (stableAt_of_other_segment h.is_sealed hseg)

theorem WaveInv.durable_le (hw : WaveInv cfg st w) :
    durable cfg w st.segmentManager.currentSegmentId ≤ st.lsnClock := by
  unfold durable
  split
  · exact hw.cover_le
  · rename_i hne
    have hlt : w.coverSegment < st.segmentManager.currentSegmentId := by
      have := hw.segment_le
      omega
    exact (Nat.mul_le_mul_right _ hlt).trans (hw.rotated hlt)

theorem workerEnd_inv {w : Wave} {fsyncFault : Option String} {also : ℕ → Bool} {st : WriterState}
    (h : Inv cfg st) (hw : WaveInv cfg st w) :
    Inv cfg (workerEnd cfg w fsyncFault also st).2 ∧
      Grows cfg st (workerEnd cfg w fsyncFault also st).2 := by
  cases fsyncFault with
  | some e =>
    exact ⟨⟨h.is_sealed,fun hn => by simp [workerEnd] at hn,fun _ => rfl,h.synced_le,h.stable⟩,
      le_rfl,le_rfl,fun _ _ => rfl⟩
  | none =>
    have herr : (if st.shutdown then st.lastError else none) = st.lastError := by
      cases hl : st.lastError with
      | none => simp
      | some msg => simp [h.poisoned (by simp [hl])]
    refine ⟨⟨sealed_syncWave h.is_sealed _ _ _,?_,?_,?_,?_⟩,
      le_rfl,le_max_left _ _,fun p _ => syncWave_dataAt _ _ _ _ _ _⟩
    · intro hn
      exact h.newest (herr ▸ hn)
    · intro hn
      exact h.poisoned (herr ▸ hn)
    · exact max_le h.synced_le hw.durable_le
    · intro p hp
      rcases lt_max_iff.1 hp with hp | hp
      · exact syncWave_stableAt _ _ _ (h.stable p hp)
      · exact hw.stable_below h also hp

theorem openSegments_touched (d : WalDir) :
    WalSegmentManager.Touched d.discoverLatestSegmentId
      ⟨d.create d.discoverLatestSegmentId,d.discoverLatestSegmentId,by simp⟩
      (openSegments cfg d) := by
  unfold openSegments
  dsimp only
  split
  · refine WalSegmentManager.Touched.trans ?_ (WalSegmentManager.touched_sync _ _)
    exact WalSegmentManager.touched_modify _ (fun _ => rfl) fun _ => .inl rfl
  · exact WalSegmentManager.touched_sync _ _

theorem openSegments_synced (d : WalDir) :
    ((openSegments cfg d).dir.file d.discoverLatestSegmentId).Synced := by
  unfold openSegments
  dsimp only
  rw [WalSegmentManager.modifyFile_dir,WalDir.modify_file_same]
  · exact SegmentFile.syncAll_synced _
  · split <;> simp

/-- A directory in which every file but the newest is synced. -/
def Openable (d : WalDir) : Prop :=
  ∀ id, id ≠ d.discoverLatestSegmentId → (d.file id).Synced

/-- A crash leaves every file but the newest synced, which is what opening relies on. -/
theorem openable_crash (h : m.Sealed) (keep : ℕ → ℕ → Bool) : Openable (m.dir.crash keep) := by
  intro id hid
  refine WalDir.crash_synced ?_ keep
  by_cases hcur : id = m.currentSegmentId
  · have hmem := m.dir.discoverLatestSegmentId_mem m.current_mem
    have hle := m.dir.le_discoverLatestSegmentId m.current_mem
    have hlt : m.currentSegmentId < m.dir.discoverLatestSegmentId :=
      lt_of_le_of_ne hle (hcur ▸ hid)
    rw [hcur]
    exact h.newer _ hmem hlt
  · exact h.others id hcur

theorem openSegments_all_synced {d : WalDir} (h : Openable d) (id : ℕ) :
    ((openSegments cfg d).dir.file id).Synced := by
  by_cases he : id = d.discoverLatestSegmentId
  · rw [he]
    exact openSegments_synced d
  · exact (openSegments_touched d).synced (h id he)

theorem openSegments_newest (d : WalDir) : (openSegments cfg d).Newest := by
  have ht := @openSegments_touched cfg d
  intro id hid
  rw [ht.current]
  rcases ht.ids id hid with h | h
  · exact h.le
  · rcases (WalDir.mem_create_ids _ _ _).1 h with h | h
    · exact h.le
    · exact d.le_discoverLatestSegmentId h

variable {hint : ℕ}

theorem openWithScanStart_ok (h : openWithScanStart cfg d hint = .ok st) :
    ∃ startLsn, st = openWithSegmentManager (openSegments cfg d) startLsn
      (if Lsn.first < startLsn then startLsn else Lsn.invalid) := by
  unfold openWithScanStart at h
  cases hs : discoverResumeLsn cfg (openSegments cfg d).dir hint with
  | error e => simp [hs,bind,Except.bind] at h
  | ok startLsn =>
    simp only [hs,bind,Except.bind,pure,Except.pure,Except.ok.injEq] at h
    exact ⟨startLsn,h.symm⟩

theorem open_inv (hd : Openable d) (h : openWithScanStart cfg d hint = .ok st) : Inv cfg st := by
  obtain ⟨startLsn,rfl⟩ := openWithScanStart_ok h
  have hall := @openSegments_all_synced cfg d hd
  refine ⟨.of_synced hall,fun _ => openSegments_newest d,fun hn => absurd rfl hn,?_,?_⟩
  · simp only [openWithSegmentManager,Lsn.invalid]
    split <;> omega
  · intro p _
    exact congrFun (hall _) _

theorem open_clock_pos (h : openWithScanStart cfg d hint = .ok st) : 0 < st.lsnClock := by
  unfold openWithScanStart at h
  cases hs : discoverResumeLsn cfg (openSegments cfg d).dir hint with
  | error e => simp [hs,bind,Except.bind] at h
  | ok startLsn =>
    simp only [hs,bind,Except.bind,pure,Except.pure,Except.ok.injEq] at h
    subst h
    unfold discoverResumeLsn at hs
    simp only [bind,Except.bind] at hs
    split at hs
    · cases hs
    · rename_i hopen
      exact (WalReader.openAt_pos hopen).trans_le (WalReader.scanEnd_le hs)

end WalWriter
end PgAm
