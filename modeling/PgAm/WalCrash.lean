import PgAm.WalLayout
import PgAm.WalSystem

/-! The WAL over crashes of the process. A crash stops an append at any of its file-system calls,
so of its record any leading part may have reached the files; the next opening scans the log and
resumes behind the last complete record. -/
namespace PgAm
namespace WalCrash

open WalSystem (Logged logged)
open WalWriter (append appendAs checkError openSegments openWithScanStart)
open Machine (anyStep exec exists_reach)

structure Sys where
  writer : WriterState
  log : List Logged

/-- `tear` is an append that the process does not survive, and the next opening. -/
inductive Step
  | append (r : WalRecord)
  | tear (r : WalRecord) (fault : IoFault) (scanStartHint : ℕ)

section System
variable (cfg : WalConfig)

def tornDir (s : Sys) (r : WalRecord) (fault : IoFault) : WalDir :=
  (append cfg (some fault) r s.writer).2.segmentManager.dir

/-- The record of the torn append is part of the log if the writer resumes behind it. -/
def step (s : Sys) : Step → Option Sys
  | .append r =>
    match append cfg none r s.writer with
    | (.ok lsn,w) => some ⟨w,s.log ++ [logged cfg r lsn]⟩
    | (.error _,_) => none
  | .tear r fault hint =>
    match openWithScanStart cfg (tornDir cfg s r fault) hint with
    | .error _ => none
    | .ok w => some ⟨w,if s.writer.lsnClock < w.lsnClock
        then s.log ++ [logged cfg r s.writer.lsnClock] else s.log⟩

def Fresh (s : Sys) : Prop :=
  ∃ w, openWithScanStart cfg WalDir.empty Lsn.invalid = .ok w ∧ s = ⟨w,[]⟩

end System

variable {cfg : WalConfig}

structure Ready (cfg : WalConfig) (s : Sys) : Prop where
  healthy : s.writer.lastError = none
  laid : s.writer.segmentManager.Laid cfg.walSegmentSize

/-- The record is stored at the clock, or a leading part of it may have been written. -/
inductive Outcome (cfg : WalConfig) (r : WalRecord) (fault : Option IoFault) (st : WriterState) :
    Except StorageError ℕ → WriterState → Prop
  | stored {buf : List UInt8} {m : WalSegmentManager}
      (hbuf : WalRecord.encode cfg.crc32 { r with lsn := st.lsnClock } = .ok buf)
      (hlaid : m.Laid cfg.walSegmentSize)
      (hle : st.segmentManager.currentSegmentId ≤ Lsn.segmentId st.lsnClock cfg.walSegmentSize)
      (hw : WalSegmentManager.Wrote cfg.walSegmentSize st.lsnClock buf buf.length
        st.segmentManager m) :
      Outcome cfg r fault st (.ok st.lsnClock) { st with
        lsnClock := st.lsnClock + buf.length, segmentManager := m, pending := st.pending + 1 }
  | stopped {e : StorageError} {st' : WriterState} {k : ℕ}
      (hspread : st'.segmentManager.Spread cfg.walSegmentSize)
      (hw : WalSegmentManager.Wrote cfg.walSegmentSize st.lsnClock
        (logged cfg r st.lsnClock).bytes k st.segmentManager st'.segmentManager)
      (hcalm : fault = none → r.payload.length ≤ u16Max → r.recordSize ≤ cfg.walSegmentSize →
        Lsn.segmentId st.lsnClock cfg.walSegmentSize < st.segmentManager.currentSegmentId) :
      Outcome cfg r fault st (.error e) st'

variable {st : WriterState}

theorem appendAs_outcome (name : String) (hnone : st.lastError = none)
    (hlaid : st.segmentManager.Laid cfg.walSegmentSize) (r : WalRecord) (fault : Option IoFault) :
    Outcome cfg r fault st (appendAs cfg name fault r st).1
      (appendAs cfg name fault r st).2 := by
  have hcheck : checkError st = .ok () := by rw [checkError,hnone]
  unfold appendAs
  rw [hcheck]
  dsimp only
  split
  · rename_i hlen
    exact .stopped hlaid.spread (WalSegmentManager.wrote_refl _ _ _) fun _ hle =>
      absurd hlen (not_lt.2 hle)
  rename_i hlen
  cases henc : WalRecord.encode cfg.crc32 { r with lsn := st.lsnClock } with
  | error e => simp [WalRecord.encode,hlen] at henc
  | ok buf =>
    have hencoded := WalRecord.encode_length cfg.crc32 henc
    have hsize : buf.length = r.recordSize := hencoded
    have hrun := WalSegmentManager.run_writeRecordToSegment_laid cfg.size_pos buf st.lsnClock
      (s := ⟨st.segmentManager,fault⟩) hlaid
    dsimp only
    split
    · rename_i io hio
      obtain ⟨-,hl,hle,hw⟩ := hrun.of_ok hio
      have hne : buf ≠ [] := List.ne_nil_of_length_pos (hencoded ▸ WalRecord.recordSize_pos _)
      change Outcome cfg r fault st (.ok st.lsnClock) { st with
        lsnClock := st.lsnClock + r.recordSize, segmentManager := io.manager,
        pending := st.pending + 1 }
      rw [← hsize]
      exact .stored henc hl (hle hne) hw
    · rename_i e io hio
      obtain ⟨hcalm,hs,k,hw⟩ := hrun.of_error hio
      rw [← WalSystem.logged_bytes henc] at hw
      exact .stopped hs hw fun hf _ hle => hcalm hf (hsize.trans_le hle)

theorem append_outcome (hnone : st.lastError = none)
    (hlaid : st.segmentManager.Laid cfg.walSegmentSize) (r : WalRecord) (fault : Option IoFault) :
    Outcome cfg r fault st (append cfg fault r st).1
      (append cfg fault r st).2 := appendAs_outcome "append" hnone hlaid r fault

theorem openSegments_laid {d : WalDir} (h : d.Complete cfg.walSegmentSize) :
    (openSegments cfg d).Laid cfg.walSegmentSize ∧
      (∀ p, (openSegments cfg d).dir.dataAt cfg.walSegmentSize p =
        d.dataAt cfg.walSegmentSize p) ∧
      (openSegments cfg d).currentSegmentId = d.discoverLatestSegmentId := by
  have ht := @WalWriter.openSegments_touched cfg d
  have hlen : ((openSegments cfg d).dir.file d.discoverLatestSegmentId).len =
      cfg.walSegmentSize := by
    have hmem : d.discoverLatestSegmentId ∈ (d.create d.discoverLatestSegmentId).ids := by simp
    unfold openSegments
    dsimp only
    split
    · rw [WalSegmentManager.modifyFile_file_same _ (by exact hmem),
        WalSegmentManager.modifyFile_file_same _ hmem]
      rfl
    · rename_i hl
      rw [WalSegmentManager.modifyFile_file_same _ hmem]
      exact not_not.1 hl
  have hids : ∀ id ≤ d.discoverLatestSegmentId, id ∈ (openSegments cfg d).dir.ids := by
    intro id hle
    refine ht.kept id ((WalDir.mem_create_ids d _ id).2 ?_)
    rcases hle.eq_or_lt with he | hlt
    · exact .inl he
    · exact .inr (h id hlt).1
  refine ⟨⟨fun id hid => ?_,fun id hid => ?_,fun id hid => ?_⟩,ht.dataAt_eq,ht.current⟩
  · rw [ht.current] at hid
    exact hids id hid
  · rw [ht.current] at hid
    by_cases he : id = d.discoverLatestSegmentId
    · rw [he]
      exact hlen
    · rw [ht.other id he]
      exact (h id (lt_of_le_of_ne hid he)).2
  · exact WalWriter.openSegments_newest d id hid

theorem ready_open {hint : ℕ} {d : WalDir} {w : WriterState} {log : List Logged}
    (hd : d.Complete cfg.walSegmentSize) (hw : openWithScanStart cfg d hint = .ok w) :
    Ready cfg ⟨w,log⟩ := by
  obtain ⟨startLsn,rfl⟩ := WalWriter.openWithScanStart_ok hw
  exact ⟨rfl,(openSegments_laid hd).1⟩

variable {s : Sys}

theorem tornDir_spread (h : Ready cfg s) (r : WalRecord) (fault : IoFault) :
    ∃ n, (tornDir cfg s r fault).Spread cfg.walSegmentSize n := by
  have hout := append_outcome h.healthy h.laid r (some fault)
  unfold tornDir
  generalize append cfg (some fault) r s.writer = out at hout
  obtain ⟨res,w⟩ := out
  cases hout with
  | stored hbuf hlaid hle hw => exact ⟨_,hlaid.spread⟩
  | stopped hspread hw hcalm => exact ⟨_,hspread⟩

theorem fresh_ready (h : Fresh cfg s) : Ready cfg s := by
  obtain ⟨w,hw,rfl⟩ := h
  have hempty : WalDir.empty.Complete cfg.walSegmentSize := fun id hid =>
    absurd hid (Nat.not_lt_zero id)
  exact ready_open hempty hw

theorem step_ready {s s' : Sys} {a : Step} (h : Ready cfg s) (hstep : step cfg s a = some s') :
    Ready cfg s' := by
  cases a with
  | append r =>
    have hout := append_outcome h.healthy h.laid r none
    simp only [step] at hstep
    generalize append cfg none r s.writer = out at hout hstep
    obtain ⟨res,w⟩ := out
    cases hout with
    | stored hbuf hlaid hle hw =>
      cases hstep
      exact ⟨h.healthy,hlaid⟩
    | stopped hspread hw hcalm => cases hstep
  | tear r fault hint =>
    obtain ⟨n,hn⟩ := tornDir_spread h r fault
    simp only [step] at hstep
    split at hstep
    · cases hstep
    · rename_i w hw
      cases hstep
      exact ready_open hn.complete hw

theorem reach_ready {ok : Sys → Step → Prop}
    (h : Machine.Reach (step cfg) (Fresh cfg) ok s) : Ready cfg s :=
  h.invariant (fun _ hs => fresh_ready hs) fun _ _ _ hs _ hstep => step_ready hs hstep

/-- A record that an append takes: its length fits the length field and a segment. -/
def Appendable (cfg : WalConfig) (r : WalRecord) : Prop :=
  r.payload.length ≤ u16Max ∧ r.recordSize ≤ cfg.walSegmentSize

instance (cfg : WalConfig) (r : WalRecord) : Decidable (Appendable cfg r) :=
  inferInstanceAs (Decidable (_ ∧ _))

/-- The open segment is not ahead of the clock. -/
def Abreast (cfg : WalConfig) (s : Sys) : Prop :=
  s.writer.segmentManager.currentSegmentId ≤ Lsn.segmentId s.writer.lsnClock cfg.walSegmentSize

instance (cfg : WalConfig) (s : Sys) : Decidable (Abreast cfg s) :=
  inferInstanceAs (Decidable (_ ≤ _))

variable {r : WalRecord}

theorem fresh_abreast (h : Fresh cfg s) : Abreast cfg s := by
  obtain ⟨w,hw,rfl⟩ := h
  obtain ⟨startLsn,rfl⟩ := WalWriter.openWithScanStart_ok hw
  have hcur : (openSegments cfg WalDir.empty).currentSegmentId = 0 :=
    (@WalWriter.openSegments_touched cfg WalDir.empty).current
  exact hcur.trans_le (Nat.zero_le _)

theorem step_abreast {s s' : Sys} (h : Ready cfg s) (hstep : step cfg s (.append r) = some s') :
    Abreast cfg s' := by
  have hout := append_outcome h.healthy h.laid r none
  simp only [step] at hstep
  generalize append cfg none r s.writer = out at hout hstep
  obtain ⟨res,w⟩ := out
  cases hout with
  | stored hbuf hlaid hle hw =>
    cases hstep
    simp only [Abreast,Lsn.segmentId]
    rcases hw.current_le.eq_or_lt with he | hlt
    · rw [← he]
      exact hle.trans (Nat.div_le_div_right (Nat.le_add_right _ _))
    · exact (Nat.le_div_iff_mul_le cfg.size_pos).2 (hw.position hlt)
  | stopped hspread hw hcalm => cases hstep

theorem append_abreast (h : Ready cfg s) (hr : Appendable cfg r)
    (ha : Abreast cfg s) : ∃ s', step cfg s (.append r) = some s' ∧ Abreast cfg s' := by
  have hstep : ∃ s', step cfg s (.append r) = some s' := by
    have hout := append_outcome h.healthy h.laid r none
    simp only [step]
    generalize append cfg none r s.writer = out at hout
    obtain ⟨res,w⟩ := out
    cases hout with
    | stored hbuf hlaid hle hw => exact ⟨_,rfl⟩
    | stopped hspread hw hcalm => exact absurd (hcalm rfl hr.1 hr.2) (not_lt.2 ha)
  obtain ⟨s',hs'⟩ := hstep
  exact ⟨s',hs',step_abreast h hs'⟩

/-- As long as the open segment is not ahead, one append after the other goes through. -/
theorem exec_appends (h : Ready cfg s) {rs : List WalRecord}
    (hrs : ∀ x ∈ rs, Appendable cfg x) (ha : Abreast cfg s) :
    (exec (step cfg) s (rs.map .append)).isSome := by
  induction rs generalizing s with
  | nil => rfl
  | cons x xs ih =>
    obtain ⟨hx,hxs⟩ := List.forall_mem_cons.1 hrs
    obtain ⟨t,ht,hat⟩ := append_abreast h hx ha
    rw [List.map_cons,exec,ht]
    exact ih (step_ready h ht) hxs hat

theorem abreast_of_append {s s' : Sys} (h : Ready cfg s)
    (hstep : step cfg s (.append r) = some s') : Abreast cfg s := by
  have hout := append_outcome h.healthy h.laid r none
  simp only [step] at hstep
  generalize append cfg none r s.writer = out at hout hstep
  obtain ⟨res,w⟩ := out
  cases hout with
  | stored hbuf hlaid hle hw => exact hle
  | stopped hspread hw hcalm => cases hstep

/-- After a crash appends of records that fit go through exactly if the writer resumes in the newest
segment file. -/
theorem reopened_accepts_iff {s s' : Sys}
    (h : Machine.Reach (step cfg) (Fresh cfg) anyStep s) {r : WalRecord} {fault : IoFault}
    {hint : ℕ} (hstep : step cfg s (.tear r fault hint) = some s') {rs : List WalRecord}
    (hne : rs ≠ []) (hrs : ∀ x ∈ rs, Appendable cfg x) :
    (exec (step cfg) s' (rs.map .append)).isSome ↔ Abreast cfg s' := by
  have hready := step_ready (reach_ready h) hstep
  constructor
  · intro hex
    cases rs with
    | nil => exact absurd rfl hne
    | cons x xs =>
      obtain ⟨u,hu⟩ := Option.isSome_iff_exists.1 hex
      simp only [List.map_cons,exec,Option.bind_eq_some_iff] at hu
      obtain ⟨t,ht,-⟩ := hu
      exact abreast_of_append hready ht
  · exact exec_appends hready hrs

def freshSys : Sys :=
  ⟨WalWriter.openWithSegmentManager (openSegments tinyConfig WalDir.empty)
    Lsn.first Lsn.invalid,[]⟩

theorem fresh_freshSys : Fresh tinyConfig freshSys := by
  have hscan : WalWriter.discoverResumeLsn tinyConfig
      (openSegments tinyConfig WalDir.empty).dir Lsn.invalid = .ok Lsn.first := by
    decide +kernel
  refine ⟨_,?_,rfl⟩
  simp [openWithScanStart,hscan,bind,Except.bind,pure,Except.pure,Lsn.first]

def filler (n : ℕ) : WalRecord := WalRecord.new .pageAlloc (List.replicate n 1)

/-- The process stops after it has created the next segment file and before it writes to it. -/
def stopAfterRotation : IoFault := ⟨10,0,"killed"⟩

/-- The opening after the crash returns, but the writer takes no further record. -/
def stuck (s : Sys) : Bool :=
  (step tinyConfig s (.tear (filler 16) stopAfterRotation Lsn.invalid)).any fun s' =>
    (step tinyConfig s' (.append (filler 16))).isNone

/-- A record is torn 24 bytes in front of the end of its segment: the writer resumes there while the
newest file is the next one, and refuses every append. -/
theorem reopened_writer_stuck :
    ∃ s s', Machine.Reach (step tinyConfig) (Fresh tinyConfig) anyStep s ∧
      step tinyConfig s (.tear (filler 16) stopAfterRotation Lsn.invalid) = some s' ∧
      Appendable tinyConfig (filler 16) ∧ step tinyConfig s' (.append (filler 16)) = none := by
  have hrun : ∃ s, Machine.Reach (step tinyConfig) (Fresh tinyConfig) anyStep s ∧
      stuck s = true :=
    exists_reach fresh_freshSys [.append (filler 16),.append (filler 16)]
    (by decide +kernel)
  obtain ⟨s,hs,hstuck⟩ := hrun
  rw [stuck,Option.any_eq_true] at hstuck
  obtain ⟨s',hs',hnone⟩ := hstuck
  exact ⟨s,s',hs,hs',by decide,Option.isNone_iff_eq_none.1 hnone⟩

/-- The process stops inside the record's payload, in front of the end of the segment. -/
def stopInPayload : IoFault := ⟨1,36,"killed"⟩

/-- A record torn inside its segment is overwritten by the next one. -/
theorem reopened_accepts_two :
    ∃ s s', Machine.Reach (step tinyConfig) (Fresh tinyConfig) anyStep s ∧
      step tinyConfig s (.tear (filler 8) stopInPayload Lsn.invalid) = some s' ∧
      (exec (step tinyConfig) s' ([filler 8,filler 16].map .append)).isSome := by
  have hrun : ∃ s, Machine.Reach (step tinyConfig) (Fresh tinyConfig) anyStep s ∧
      (step tinyConfig s (.tear (filler 8) stopInPayload Lsn.invalid)).any
        (fun s' => decide (Abreast tinyConfig s')) = true :=
    exists_reach fresh_freshSys [.append (filler 8)] (by decide +kernel)
  obtain ⟨s,hs,habreast⟩ := hrun
  rw [Option.any_eq_true] at habreast
  obtain ⟨s',hs',ha⟩ := habreast
  refine ⟨s,s',hs,hs',(reopened_accepts_iff hs hs' (by simp) ?_).2 (of_decide_eq_true ha)⟩
  intro x hx
  simp only [List.mem_cons,List.not_mem_nil,or_false] at hx
  rcases hx with rfl | rfl <;> exact ⟨by decide,by decide⟩

end WalCrash
end PgAm
