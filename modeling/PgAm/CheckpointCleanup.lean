import PgAm.SnapshotFiles
import PgAm.WalRecycle
import PgAm.WalSystem

/-! Checkpoints and what they delete. A checkpoint writes its two snapshot files, logs them in a
`CheckpointEnd` record, moves the superblock and only then removes old segments and old snapshot
files. Other threads append meanwhile, any step may fail, and a crash may come at any point. -/
namespace PgAm
namespace CheckpointCleanup

open SnapshotFiles
open WalWriter (appendAs flushTo openSegments openWithScanStart open_inv recycleBefore)

structure CheckpointEndRecord where
  checkpointLsn : ℕ
  nextPageId : ℕ
  nextTxnId : ℕ
  nextOid : ℕ
  attFile : Name
  dptFile : Name
  deriving DecidableEq

def encodeString (s : Name) : List UInt8 := varint s.length ++ s.map fun c => UInt8.ofNat c.toNat

def CheckpointEndRecord.payload (r : CheckpointEndRecord) : List UInt8 :=
  varint r.checkpointLsn ++ varint r.nextPageId ++ varint r.nextTxnId ++ varint r.nextOid ++
    encodeString r.attFile ++ encodeString r.dptFile

def checkpointEndV2Flags : UInt8 := 16

def checkpointBegin : WalRecord := WalRecord.new .checkpointBegin []

def checkpointEnd (r : CheckpointEndRecord) : WalRecord :=
  { WalRecord.new .checkpointEnd r.payload with flags := checkpointEndV2Flags }

/-- The snapshots that a checkpoint took, by the position of its `CheckpointBegin`. -/
structure Group where
  lsn : ℕ
  att : List ℕ
  dpt : List (ℕ × ℕ)
  deriving DecidableEq

structure Ended where
  record : CheckpointEndRecord
  group : Group
  deriving DecidableEq

/-- An append, by position. One that returned an error may still have left its bytes. -/
structure Entry where
  logged : WalSystem.Logged
  stored : Bool
  ended : Option Ended

inductive Phase
  | idle
  | begun (lsn : ℕ)
  | attWritten (lsn : ℕ) (att : List ℕ)
  | dptWritten (g : Group)
  | ended (g : Group) (endLsn : ℕ)
  | waiting (g : Group) (endLsn : ℕ)
  | flushed (g : Group)
  | installed (lsn : ℕ)
  | recycled (lsn : ℕ)
  deriving DecidableEq

/-- `superblock` is the `checkpoint_lsn` on disk, `memSuperblock` the one in memory. -/
structure Sys where
  writer : WriterState
  worker : Worker
  log : List Entry
  superblock : ℕ
  memSuperblock : ℕ
  files : MetaDir
  phase : Phase

/-- A write with `ok` has `landed`; a failed or interrupted one may have. -/
inductive Step
  | append (r : WalRecord) (fault : Option IoFault)
  | workerBegin (timedOut : Bool) (dupFault : Option String)
  | workerEnd (fsyncFault : Option String) (also : ℕ → Bool)
  | close
  | begin (fault : Option IoFault)
  | writeAtt (xids : List ℕ) (landed ok : Bool)
  | writeDpt (pages : List (ℕ × ℕ)) (landed ok : Bool)
  | abort
  | checkpointEnd (nextPageId nextTxnId nextOid : ℕ) (fault : Option IoFault)
  | flushTo
  | wake
  | writeSuperblock (landed ok : Bool)
  | recycle (entries : List ℕ) (fault : ℕ → Option String) (syncFault : Option String)
  | prune (listing : List Name) (fails : Name → Bool)
  | reopen (keep : ℕ → ℕ → Bool)

variable (cfg : WalConfig)

def appendStep (name : String) (r : WalRecord) (ended : Option Ended) (fault : Option IoFault)
    (s : Sys) : Except StorageError ℕ × Sys :=
  let (res,w) := appendAs cfg name fault r s.writer
  (res,{ s with
    writer := w
    log := s.log ++ [⟨WalSystem.logged cfg r s.writer.lsnClock,res.isOk,ended⟩] })

def writeFile (files : MetaDir) (k : Kind) (lsn : ℕ) (c : SnapshotFiles.Snapshot) (landed : Bool) :
    MetaDir :=
  if landed then files.write (fileName k lsn) c else files

def settle (s : Sys) (g : Group) (endLsn : ℕ)
    (out : Option (Except StorageError Unit) × WriterState) : Sys :=
  { s with
    writer := out.2
    phase := match out.1 with
      | none => .waiting g endLsn
      | some (.ok ()) => .flushed g
      | some (.error _) => .idle }

def endRecord (g : Group) (nextPageId nextTxnId nextOid : ℕ) : CheckpointEndRecord :=
  ⟨g.lsn,nextPageId,nextTxnId,nextOid,filePath .att g.lsn,filePath .dpt g.lsn⟩

def Entry.survives (d : WalDir) (stop : ℕ) (e : Entry) : Bool :=
  WalSystem.survives cfg d stop e.logged

def step (s : Sys) : Step → Option Sys
  | .append r fault =>
    if r.recordType = .checkpointEnd then none else some (appendStep cfg "append" r none fault s).2
  | .workerBegin timedOut dupFault =>
    match s.worker with
    | .idle =>
      let out := WalWriter.workerBegin cfg timedOut dupFault s.writer
      some { s with worker := out.1, writer := out.2 }
    | _ => none
  | .workerEnd fsyncFault also =>
    match s.worker with
    | .syncing w =>
      let out := WalWriter.workerEnd cfg w fsyncFault also s.writer
      some { s with worker := out.1, writer := out.2 }
    | _ => none
  | .close => some { s with writer := { s.writer with shutdown := true } }
  | .begin fault =>
    if s.phase = .idle then
      match appendStep cfg "reserve_and_append" checkpointBegin none fault s with
      | (.ok lsn,s) => some { s with phase := .begun lsn }
      | (.error _,s) => some s
    else none
  | .writeAtt xids landed ok =>
    match s.phase with
    | .begun lsn => some { s with
        files := writeFile s.files .att lsn (.att xids) (landed || ok)
        phase := if ok then .attWritten lsn xids else .idle }
    | _ => none
  | .writeDpt pages landed ok =>
    match s.phase with
    | .attWritten lsn xids => some { s with
        files := writeFile s.files .dpt lsn (.dpt pages) (landed || ok)
        phase := if ok then .dptWritten ⟨lsn,xids,pages⟩ else .idle }
    | _ => none
  | .abort =>
    match s.phase with
    | .dptWritten _ => some { s with phase := .idle }
    | _ => none
  | .checkpointEnd nextPageId nextTxnId nextOid fault =>
    match s.phase with
    | .dptWritten g =>
      let r := endRecord g nextPageId nextTxnId nextOid
      match appendStep cfg "append" (checkpointEnd r) (some ⟨r,g⟩) fault s with
      | (.ok endLsn,s) => some { s with phase := .ended g endLsn }
      | (.error _,s) => some { s with phase := .idle }
    | _ => none
  | .flushTo =>
    match s.phase with
    | .ended g endLsn => some (settle s g endLsn (flushTo endLsn s.writer))
    | _ => none
  | .wake =>
    match s.phase with
    | .waiting g endLsn => some (settle s g endLsn (WalWriter.flushWait endLsn s.writer))
    | _ => none
  | .writeSuperblock landed ok =>
    match s.phase with
    | .flushed g =>
      if g.lsn ≤ s.superblock then some { s with memSuperblock := g.lsn, phase := .idle }
      else some { s with
        memSuperblock := g.lsn
        superblock := if landed || ok then g.lsn else s.superblock
        phase := if ok then .installed g.lsn else .idle }
    | _ => none
  | .recycle entries fault syncFault =>
    match s.phase with
    | .installed lsn =>
      let out := recycleBefore cfg lsn entries fault syncFault s.writer
      some { s with
        writer := out.2
        phase := if out.1.isOk then .recycled lsn else .idle }
    | _ => none
  | .prune listing fails =>
    match s.phase with
    | .recycled _ => some { s with
        files := pruneSnapshotFiles s.memSuperblock listing fails s.files
        phase := .idle }
    | _ => none
  | .reopen keep =>
    match openWithScanStart cfg (s.writer.segmentManager.dir.crash keep) s.superblock with
    | .error _ => none
    | .ok w => some ⟨w,.idle,(s.log.filter (Entry.survives cfg w.segmentManager.dir w.lsnClock)).map
        fun e => { e with stored := true },s.superblock,s.superblock,s.files,.idle⟩

/-- A fresh data directory; stray files may lie in `meta`. -/
def Fresh (s : Sys) : Prop :=
  ∃ w files, openWithScanStart cfg WalDir.empty Lsn.invalid = .ok w ∧
    s = ⟨w,.idle,[],Lsn.invalid,Lsn.invalid,files,.idle⟩

def findLatestCheckpointEnd : List Entry → Option Ended
  | [] => none
  | e :: es => (findLatestCheckpointEnd es).or e.ended

/-- The `CheckpointEnd` whose files recovery loads, if it belongs to the superblock's checkpoint. -/
def anchor (superblock : ℕ) (read : List Entry) : Option Ended :=
  let scanStart := if Lsn.isValid superblock then superblock else Lsn.first
  match findLatestCheckpointEnd (read.filter fun e => scanStart ≤ e.logged.lsn) with
  | some c => if c.record.checkpointLsn = superblock then some c else none
  | none => none

def OnDisk (files : MetaDir) (g : Group) : Prop :=
  files.file (fileName .att g.lsn) = some (.att g.att) ∧
    files.file (fileName .dpt g.lsn) = some (.dpt g.dpt)

structure EndedInv (s : Sys) (lsn : ℕ) (c : Ended) : Prop where
  named : ∃ nextPageId nextTxnId nextOid, c.record = endRecord c.group nextPageId nextTxnId nextOid
  before : c.group.lsn < lsn
  clock : c.group.lsn < s.writer.lsnClock
  files : c.group.lsn = s.superblock → OnDisk s.files c.group

def Only (s : Sys) (p : Group → Prop) (lsn : ℕ) : Prop :=
  ∀ e ∈ s.log, ∀ c, e.ended = some c → c.group.lsn = lsn → p c.group

def PhaseInv (s : Sys) : Phase → Prop
  | .idle => True
  | .begun lsn => lsn < s.writer.lsnClock ∧ Only s (fun _ => False) lsn
  | .attWritten lsn att => lsn < s.writer.lsnClock ∧ Only s (fun _ => False) lsn ∧
      s.files.file (fileName .att lsn) = some (.att att)
  | .dptWritten g | .ended g _ | .waiting g _ | .flushed g => g.lsn < s.writer.lsnClock ∧
      Only s (· = g) g.lsn ∧ OnDisk s.files g
  | .installed lsn | .recycled lsn => s.superblock = lsn ∧ s.memSuperblock = lsn

/-- The bytes of stored records are in the segment files from the superblock's position on. -/
structure Inv (s : Sys) : Prop where
  writer : WalWriter.Steady s.writer
  stored : ∀ e ∈ s.log, e.stored → e.logged.stop ≤ s.writer.lsnClock ∧
    ∀ i < e.logged.bytes.length, s.superblock ≤ e.logged.lsn + i →
      s.writer.segmentManager.dir.dataAt cfg.walSegmentSize (e.logged.lsn + i) = e.logged.bytes[i]?
  ended : ∀ e ∈ s.log, ∀ c, e.ended = some c → EndedInv s e.logged.lsn c
  phase : PhaseInv s s.phase

variable {cfg} {s : Sys}

structure Moves (cfg : WalConfig) (s : Sys) (w : WriterState) : Prop where
  steady : WalWriter.Steady w
  clock : s.writer.lsnClock ≤ w.lsnClock
  data : ∀ p < s.writer.lsnClock, s.superblock ≤ p →
    w.segmentManager.dir.dataAt cfg.walSegmentSize p =
      s.writer.segmentManager.dir.dataAt cfg.walSegmentSize p

variable {w : WriterState}

theorem Moves.of_grows (hw : WalWriter.Steady w)
    (h : WalWriter.Grows cfg s.writer w) : Moves cfg s w :=
  ⟨hw,h.clock,fun p hp _ => h.data p hp⟩

variable {p : Phase}

theorem PhaseInv.moves (hw : Moves cfg s w) (h : PhaseInv s p)
    (k : Worker) (q : Phase) : PhaseInv { s with writer := w, worker := k, phase := q } p := by
  have hclock := hw.clock
  cases p with
  | idle => trivial
  | begun lsn | attWritten lsn att | dptWritten g | ended g endLsn | waiting g endLsn | flushed g =>
    exact ⟨h.1.trans_le hclock,h.2⟩
  | installed lsn | recycled lsn => exact h

theorem Inv.at_phase (h : Inv cfg s) (hp : s.phase = p) : PhaseInv s p := hp ▸ h.phase

theorem Inv.moves (h : Inv cfg s) (hw : Moves cfg s w) (k : Worker)
    (hp : PhaseInv s p) : Inv cfg { s with writer := w, worker := k, phase := p } where
  writer := hw.steady
  stored e he hs := by
    obtain ⟨hstop,hdata⟩ := h.stored e he hs
    refine ⟨hstop.trans hw.clock,fun i hi hle => ?_⟩
    have hlt : e.logged.lsn + i < s.writer.lsnClock :=
      (Nat.add_lt_add_left hi e.logged.lsn).trans_le hstop
    exact (hw.data _ hlt hle).trans (hdata i hi hle)
  ended e he c hc := by
    have hi := h.ended e he c hc
    exact { hi with clock := hi.clock.trans_le hw.clock }
  phase := hp.moves hw k p

variable {files : MetaDir}

theorem Inv.setFiles (h : Inv cfg s) (mem : ℕ)
    (hf : ∀ e ∈ s.log, ∀ c, e.ended = some c → c.group.lsn = s.superblock → OnDisk s.files c.group →
      OnDisk files c.group)
    (hp : PhaseInv { s with files := files, memSuperblock := mem, phase := p } p) :
    Inv cfg { s with files := files, memSuperblock := mem, phase := p } where
  __ := h
  ended e he c hc := by
    have hi := h.ended e he c hc
    exact { hi with files := fun hsb => hf e he c hc hsb (hi.files hsb) }
  phase := hp

variable {lsn : ℕ}

variable {g : Group}

theorem OnDisk.write (h : OnDisk files g) {k : Kind}
    (hne : g.lsn ≠ lsn) (c : SnapshotFiles.Snapshot) (landed : Bool) :
    OnDisk (writeFile files k lsn c landed) g := by
  unfold writeFile
  split
  · have hother : ∀ k', fileName k' g.lsn ≠ fileName k lsn := fun k' heq =>
      hne (fileName_injective heq).2
    exact ⟨(files.write_other c (hother .att)).trans h.1,
      (files.write_other c (hother .dpt)).trans h.2⟩
  · exact h

theorem Inv.writeFile (h : Inv cfg s) (hno : Only s (fun _ => False) lsn) (k : Kind)
    (c : SnapshotFiles.Snapshot) (landed : Bool)
    (hp : PhaseInv { s with files := writeFile s.files k lsn c landed, phase := p } p) :
    Inv cfg { s with files := writeFile s.files k lsn c landed, phase := p } :=
  h.setFiles s.memSuperblock
    (fun e he c' hc' _ hd => hd.write (fun heq => hno e he c' hc' heq) c landed) hp

variable {c : Ended}

theorem mem_push {log : List Entry} {x e : Entry} (he : e ∈ log ++ [x])
    (hx : x.ended = none) (hc : e.ended = some c) : e ∈ log := by
  rcases List.mem_append.1 he with he | he
  · exact he
  · rw [List.mem_singleton.1 he,hx] at hc
    cases hc

theorem appendStep_snd (name : String) (r : WalRecord) (ended : Option Ended)
    (fault : Option IoFault) : (appendStep cfg name r ended fault s).2 = { s with
      writer := (appendAs cfg name fault r s.writer).2
      log := s.log ++ [⟨WalSystem.logged cfg r s.writer.lsnClock,
        (appendAs cfg name fault r s.writer).1.isOk,ended⟩] } := rfl

theorem appended_moves (h : Inv cfg s) (name : String) (r : WalRecord) (fault : Option IoFault) :
    Moves cfg s (appendAs cfg name fault r s.writer).2 ∧
      ∀ lsn, (appendAs cfg name fault r s.writer).1 = .ok lsn →
        lsn = s.writer.lsnClock ∧
        lsn < (appendAs cfg name fault r s.writer).2.lsnClock ∧
        (WalSystem.logged cfg r lsn).stop ≤
          (appendAs cfg name fault r s.writer).2.lsnClock ∧
        ∀ i < (WalSystem.logged cfg r lsn).bytes.length,
          (appendAs cfg name fault r s.writer).2.segmentManager.dir.dataAt
            cfg.walSegmentSize (lsn + i) = (WalSystem.logged cfg r lsn).bytes[i]? := by
  have happ := @WalWriter.appendAs_appended cfg name fault r s.writer h.writer
  generalize appendAs cfg name fault r s.writer = out at happ
  obtain ⟨res,w⟩ := out
  refine ⟨.of_grows (happ.steady h.writer) happ.grows,fun lsn hres => ?_⟩
  cases happ with
  | refused e | poisoned hm => cases hres
  | stored hnone hbuf hm =>
    cases hres
    have hpos := WalRecord.recordSize_pos { r with lsn := s.writer.lsnClock }
    rw [← WalRecord.encode_length cfg.crc32 hbuf] at hpos
    rw [WalSystem.Logged.stop,WalSystem.logged_bytes hbuf]
    exact ⟨rfl,Nat.lt_add_of_pos_right hpos,le_rfl,hm.content⟩

theorem PhaseInv.push (h : PhaseInv s p) {x : Entry} (hx : x.ended = none) :
    PhaseInv { s with log := s.log ++ [x] } p := by
  have hall : ∀ {q lsn}, Only s q lsn → Only { s with log := s.log ++ [x] } q lsn :=
    fun ho e he c hc => ho e (mem_push he hx hc) c hc
  cases p with
  | idle => trivial
  | begun lsn => exact ⟨h.1,hall h.2⟩
  | attWritten lsn att | dptWritten g | ended g endLsn | waiting g endLsn | flushed g =>
    exact ⟨h.1,hall h.2.1,h.2.2⟩
  | installed lsn | recycled lsn => exact h

theorem Inv.append (h : Inv cfg s) (name : String) (r : WalRecord) (ended : Option Ended)
    (fault : Option IoFault) (hended : ∀ c, ended = some c → EndedInv s s.writer.lsnClock c)
    {p : Phase} (hp : PhaseInv { (appendStep cfg name r ended fault s).2 with phase := p } p) :
    Inv cfg { (appendStep cfg name r ended fault s).2 with phase := p } := by
  obtain ⟨hmoves,hok⟩ := appended_moves h name r fault
  have hi := h.moves hmoves s.worker (p := .idle) trivial
  rw [appendStep_snd] at hp ⊢
  refine ⟨hi.writer,fun e he hs => ?_,fun e he c hc => ?_,hp⟩
  · rcases List.mem_append.1 he with he | he
    · exact hi.stored e he hs
    · rw [List.mem_singleton.1 he] at hs ⊢
      dsimp only at hs
      cases hres : (appendAs cfg name fault r s.writer).1 with
      | error e =>
        rw [hres] at hs
        cases hs
      | ok lsn =>
        obtain ⟨rfl,-,hstop,hdata⟩ := hok lsn hres
        exact ⟨hstop,fun i hlt _ => hdata i hlt⟩
  · rcases List.mem_append.1 he with he | he
    · exact ⟨(hi.ended e he c hc).named,(hi.ended e he c hc).before,(hi.ended e he c hc).clock,
        (hi.ended e he c hc).files⟩
    · rw [List.mem_singleton.1 he] at hc ⊢
      have hnew := hended c hc
      exact { hnew with clock := hnew.clock.trans_le hmoves.clock }

theorem Inv.appendOther (h : Inv cfg s) (name : String) (r : WalRecord) (fault : Option IoFault) :
    Inv cfg (appendStep cfg name r none fault s).2 :=
  h.append name r none fault nofun
    ((h.phase.moves (appended_moves h name r fault).1 s.worker s.phase).push rfl)

theorem Inv.begin (h : Inv cfg s) {name : String} {r : WalRecord} {fault : Option IoFault} {lsn : ℕ}
    (hres : (appendStep cfg name r none fault s).1 = .ok lsn) :
    Inv cfg { (appendStep cfg name r none fault s).2 with phase := .begun lsn } := by
  obtain ⟨rfl,hlt,-⟩ := (appended_moves h name r fault).2 lsn hres
  refine h.append name r none fault nofun ⟨hlt,fun e he c hc heq => ?_⟩
  have hold := (h.ended e (mem_push he rfl hc) c hc).clock
  omega

theorem Inv.end (h : Inv cfg s) (hg : g.lsn < s.writer.lsnClock ∧
    Only s (· = g) g.lsn ∧ OnDisk s.files g) (nextPageId nextTxnId nextOid : ℕ)
    (fault : Option IoFault) (hp : p = .idle ∨ ∃ endLsn, p = .ended g endLsn) :
    Inv cfg { (appendStep cfg "append" (checkpointEnd (endRecord g nextPageId nextTxnId nextOid))
      (some ⟨endRecord g nextPageId nextTxnId nextOid,g⟩) fault s).2 with phase := p } := by
  have hclock := (appended_moves h "append"
    (checkpointEnd (endRecord g nextPageId nextTxnId nextOid)) fault).1.clock
  refine h.append "append" _ _ fault ?_ ?_
  · rintro c ⟨⟩
    exact ⟨⟨_,_,_,rfl⟩,hg.1,hg.1,fun _ => hg.2.2⟩
  · rcases hp with rfl | ⟨endLsn,rfl⟩
    · trivial
    · refine ⟨hg.1.trans_le hclock,fun e he c hc heq => ?_,hg.2.2⟩
      rcases List.mem_append.1 he with he | he
      · exact hg.2.1 e he c hc heq
      · rw [List.mem_singleton.1 he] at hc
        cases hc
        rfl

theorem Inv.settle (h : Inv cfg s) {endLsn : ℕ}
    (hg : PhaseInv s (.flushed g)) {out : Option (Except StorageError Unit) × WriterState}
    (hout : out.2 = { s.writer with flushRequested := out.2.flushRequested }) :
    Inv cfg (settle s g endLsn out) := by
  have hw : Moves cfg s out.2 := by
    rw [hout]
    exact ⟨{ h.writer with },le_rfl,fun _ _ _ => rfl⟩
  unfold CheckpointCleanup.settle
  refine h.moves hw s.worker ?_
  split
  · exact hg
  · exact hg
  · trivial

/-- Moving the superblock to a checkpoint whose files are written. -/
theorem Inv.writeSuperblock (h : Inv cfg s) (hg : PhaseInv s (.flushed g))
    (hnew : s.superblock < g.lsn) (hp : p = .idle ∨ p = .installed g.lsn) :
    Inv cfg { s with memSuperblock := g.lsn, superblock := g.lsn, phase := p } where
  writer := h.writer
  stored e he hs := ⟨(h.stored e he hs).1,fun i hi hle =>
    (h.stored e he hs).2 i hi (hnew.le.trans hle)⟩
  ended e he c hc := by
    have hi := h.ended e he c hc
    refine { hi with files := fun heq => ?_ }
    rw [hg.2.1 e he c hc heq]
    exact hg.2.2
  phase := by
    rcases hp with rfl | rfl
    · trivial
    · exact ⟨rfl,rfl⟩

theorem Inv.recycle (h : Inv cfg s) (hsb : PhaseInv s (.recycled lsn)) (entries : List ℕ)
    (fault : ℕ → Option String) (syncFault : Option String)
    (hp : p = .idle ∨ p = .recycled lsn) : Inv cfg { s with
      writer := (recycleBefore cfg lsn entries fault syncFault s.writer).2
      phase := p } := by
  obtain ⟨m,hm,hrec⟩ := @WalWriter.recycleBefore_cases cfg lsn entries fault syncFault s.writer
  rw [hm]
  refine h.moves ⟨h.writer.recycled hrec,le_rfl,fun p _ hle => ?_⟩ s.worker ?_
  · exact hrec.dataAt (hsb.1 ▸ hle)
  · rcases hp with rfl | rfl
    · trivial
    · exact hsb

theorem Inv.prune (h : Inv cfg s) (hsb : PhaseInv s (.recycled lsn)) (listing : List Name)
    (fails : Name → Bool) : Inv cfg { s with
      files := pruneSnapshotFiles s.memSuperblock listing fails s.files
      phase := .idle } := by
  refine h.setFiles s.memSuperblock (fun e he c hc heq hd => ?_) trivial
  have hcur : c.group.lsn = s.memSuperblock := heq.trans (hsb.1.trans hsb.2.symm)
  unfold OnDisk at hd ⊢
  rw [hcur] at hd ⊢
  exact ⟨(prune_current ..).trans hd.1,(prune_current ..).trans hd.2⟩

theorem Inv.reopen (h : Inv cfg s) {keep : ℕ → ℕ → Bool} {hint : ℕ}
    (hw : openWithScanStart cfg (s.writer.segmentManager.dir.crash keep) hint = .ok w) :
    Inv cfg ⟨w,.idle,(s.log.filter (Entry.survives cfg w.segmentManager.dir w.lsnClock)).map
      fun e => { e with stored := true },s.superblock,s.superblock,s.files,.idle⟩ := by
  have hopen := WalWriter.openable_crash h.writer.is_sealed keep
  have hold : ∀ e ∈ (s.log.filter (Entry.survives cfg w.segmentManager.dir w.lsnClock)).map
      (fun e => { e with stored := true }), ∃ e' ∈ s.log, e'.logged = e.logged ∧
        e'.ended = e.ended ∧ WalSystem.survives cfg w.segmentManager.dir w.lsnClock e.logged := by
    intro e he
    obtain ⟨e',he',rfl⟩ := List.mem_map.1 he
    exact ⟨e',(List.mem_filter.1 he').1,rfl,rfl,(List.mem_filter.1 he').2⟩
  refine ⟨(open_inv hopen hw).steady,fun e he _ => ?_,fun e he c hc => ?_,trivial⟩
  · obtain ⟨-,-,-,-,hs⟩ := hold e he
    simp only [WalSystem.survives,Bool.and_eq_true,decide_eq_true_eq,List.all_eq_true,
      List.mem_range,beq_iff_eq] at hs
    exact ⟨hs.1,fun i hi _ => hs.2 i hi⟩
  · obtain ⟨e',he',hl,hended,hs⟩ := hold e he
    have hi := h.ended e' he' c (hended.trans hc)
    have hstop : e.logged.lsn + e.logged.bytes.length ≤ w.lsnClock := by
      simp only [WalSystem.survives,Bool.and_eq_true,decide_eq_true_eq] at hs
      exact hs.1
    refine ⟨hi.named,hl ▸ hi.before,?_,hi.files⟩
    have hbefore := hl ▸ hi.before
    change c.group.lsn < w.lsnClock
    omega

theorem fresh_inv (h : Fresh cfg s) : Inv cfg s := by
  obtain ⟨w,files,hw,rfl⟩ := h
  have hinv := open_inv (fun _ _ => SegmentFile.blank_synced) hw
  exact ⟨hinv.steady,nofun,nofun,trivial⟩

section Steps

variable {s' : Sys}

theorem Inv.stepBegin {fault : Option IoFault} (h : Inv cfg s)
    (hstep : step cfg s (.begin fault) = some s') : Inv cfg s' := by
  simp only [step] at hstep
  split at hstep
  · split at hstep <;> cases hstep
    · rename_i lsn t happ
      have hres := h.begin (congrArg Prod.fst happ)
      rwa [happ] at hres
    · rename_i happ
      have hres := h.appendOther "reserve_and_append" checkpointBegin fault
      rwa [happ] at hres
  · cases hstep

theorem Inv.stepAtt {xids : List ℕ} {landed ok : Bool} (h : Inv cfg s)
    (hstep : step cfg s (.writeAtt xids landed ok) = some s') : Inv cfg s' := by
  simp only [step] at hstep
  split at hstep <;> cases hstep
  have hphase := h.at_phase ‹_›
  refine h.writeFile hphase.2 .att _ _ ?_
  cases ok with
  | false => trivial
  | true =>
    rw [Bool.or_true]
    exact ⟨hphase.1,hphase.2,s.files.write_self ..⟩

theorem Inv.stepDpt {pages : List (ℕ × ℕ)} {landed ok : Bool} (h : Inv cfg s)
    (hstep : step cfg s (.writeDpt pages landed ok) = some s') : Inv cfg s' := by
  simp only [step] at hstep
  split at hstep <;> cases hstep
  rename_i lsn xids heq
  have hphase := h.at_phase heq
  refine h.writeFile hphase.2.1 .dpt _ _ ?_
  cases ok with
  | false => trivial
  | true =>
    have hne : fileName .att lsn ≠ fileName .dpt lsn := fun heq =>
      nomatch (fileName_injective heq).1
    rw [Bool.or_true]
    exact ⟨hphase.1,fun e he c hc heq => (hphase.2.1 e he c hc heq).elim,
      (s.files.write_other _ hne).trans hphase.2.2,s.files.write_self ..⟩

theorem Inv.stepEnd {nextPageId nextTxnId nextOid : ℕ} {fault : Option IoFault} (h : Inv cfg s)
    (hstep : step cfg s (.checkpointEnd nextPageId nextTxnId nextOid fault) = some s') :
    Inv cfg s' := by
  simp only [step] at hstep
  split at hstep
  · have hphase := h.at_phase ‹_›
    split at hstep <;> cases hstep
    · rename_i endLsn t happ
      have hres := h.end hphase nextPageId nextTxnId nextOid fault (.inr ⟨endLsn,rfl⟩)
      rwa [happ] at hres
    · rename_i happ
      have hres := h.end hphase nextPageId nextTxnId nextOid fault (.inl rfl)
      rwa [happ] at hres
  · cases hstep

theorem Inv.stepSuperblock {landed ok : Bool} (h : Inv cfg s)
    (hstep : step cfg s (.writeSuperblock landed ok) = some s') : Inv cfg s' := by
  simp only [step] at hstep
  split at hstep
  · rename_i g heq
    have hphase := h.at_phase heq
    split at hstep <;> cases hstep
    · exact h.setFiles g.lsn (fun _ _ _ _ _ hd => hd) trivial
    · rename_i hnew
      cases ok with
      | true =>
        rw [Bool.or_true]
        exact h.writeSuperblock hphase (not_le.1 hnew) (.inr rfl)
      | false =>
        cases landed with
        | true => exact h.writeSuperblock hphase (not_le.1 hnew) (.inl rfl)
        | false => exact h.setFiles g.lsn (fun _ _ _ _ _ hd => hd) trivial
  · cases hstep

theorem Inv.stepRecycle {entries : List ℕ} {fault : ℕ → Option String} {syncFault : Option String}
    (h : Inv cfg s)
    (hstep : step cfg s (.recycle entries fault syncFault) = some s') : Inv cfg s' := by
  simp only [step] at hstep
  split at hstep <;> cases hstep
  have hphase := h.at_phase ‹_›
  refine h.recycle hphase entries fault syncFault ?_
  split
  · exact .inr rfl
  · exact .inl rfl

theorem step_inv {a : Step} (h : Inv cfg s) (hstep : step cfg s a = some s') : Inv cfg s' := by
  cases a with
  | append r fault =>
    obtain ⟨-,rfl⟩ := of_unless hstep
    exact h.appendOther "append" r fault
  | workerBegin timedOut dupFault =>
    simp only [step] at hstep
    split at hstep <;> cases hstep
    obtain ⟨hst,hm,hclock⟩ := @WalWriter.workerBegin_steady cfg timedOut dupFault s.writer h.writer
    exact h.moves ⟨hst,hclock.ge,fun p _ _ => by rw [hm]⟩ _ h.phase
  | workerEnd fsyncFault also =>
    simp only [step] at hstep
    split at hstep <;> cases hstep
    rename_i v _
    obtain ⟨hst,hdata,hclock⟩ := @WalWriter.workerEnd_steady cfg v fsyncFault also s.writer h.writer
    exact h.moves ⟨hst,hclock.ge,fun p _ _ => hdata p⟩ _ h.phase
  | close =>
    cases hstep
    have hw : Moves cfg s { s.writer with shutdown := true } :=
      ⟨{ h.writer with poisoned := fun _ => rfl },le_rfl,fun _ _ _ => rfl⟩
    exact h.moves hw s.worker h.phase
  | begin fault => exact h.stepBegin hstep
  | writeAtt xids landed ok => exact h.stepAtt hstep
  | writeDpt pages landed ok => exact h.stepDpt hstep
  | abort =>
    simp only [step] at hstep
    split at hstep <;> cases hstep
    exact h.setFiles s.memSuperblock (fun _ _ _ _ _ hd => hd) trivial
  | checkpointEnd nextPageId nextTxnId nextOid fault => exact h.stepEnd hstep
  | flushTo =>
    simp only [step] at hstep
    split at hstep <;> cases hstep
    have hphase := h.at_phase ‹_›
    exact h.settle hphase (WalWriter.flushTo_cases ..).1
  | wake =>
    simp only [step] at hstep
    split at hstep <;> cases hstep
    have hphase := h.at_phase ‹_›
    exact h.settle hphase (WalWriter.flushWait_cases ..).1
  | writeSuperblock landed ok => exact h.stepSuperblock hstep
  | recycle entries fault syncFault => exact h.stepRecycle hstep
  | prune listing fails =>
    simp only [step] at hstep
    split at hstep <;> cases hstep
    exact h.prune (h.at_phase ‹_›) listing fails
  | reopen keep =>
    simp only [step] at hstep
    split at hstep <;> cases hstep
    rename_i w hw
    exact h.reopen hw

end Steps

theorem reach_inv (h : Machine.Reach (step cfg) (Fresh cfg) Machine.anyStep s) : Inv cfg s :=
  h.invariant (fun _ => fresh_inv) fun _ _ _ hi _ hst => step_inv hi hst

variable {read : List Entry}

theorem findLatest_mem
    (h : findLatestCheckpointEnd read = some c) : ∃ e ∈ read, e.ended = some c := by
  induction read with
  | nil => cases h
  | cons e read ih =>
    rw [findLatestCheckpointEnd,Option.or_eq_some_iff] at h
    rcases h with h | ⟨-,h⟩
    · obtain ⟨e',he',hc⟩ := ih h
      exact ⟨e',List.mem_cons_of_mem e he',hc⟩
    · exact ⟨e,List.mem_cons_self,h⟩

theorem anchor_mem {superblock : ℕ} (h : anchor superblock read = some c) :
    c.record.checkpointLsn = superblock ∧ ∃ e ∈ read, e.ended = some c := by
  simp only [anchor] at h
  split at h
  · rename_i c' hc'
    split at h <;> cases h
    rename_i heq
    obtain ⟨e,he,hc⟩ := findLatest_mem hc'
    exact ⟨heq,e,(List.mem_filter.1 he).1,hc⟩
  · cases h

theorem EndedInv.load (h : EndedInv s lsn c) (hsb : c.record.checkpointLsn = s.superblock) :
    s.files.load c.record.attFile = some (.att c.group.att) ∧
      s.files.load c.record.dptFile = some (.dpt c.group.dpt) := by
  obtain ⟨_,_,_,hrec⟩ := h.named
  rw [hrec] at hsb ⊢
  have hdisk := h.files hsb
  exact ⟨(s.files.load_filePath ..).trans hdisk.1,(s.files.load_filePath ..).trans hdisk.2⟩

/-- Whenever the system stops, the segments and the snapshot files that recovery needs are there. -/
theorem cleanup_keeps_needed (h : Machine.Reach (step cfg) (Fresh cfg) Machine.anyStep s)
    (keep : ℕ → ℕ → Bool) :
    (∀ e ∈ s.log, e.stored → ∀ p, e.logged.lsn ≤ p → p < e.logged.stop → s.superblock ≤ p →
      Lsn.segmentId p cfg.walSegmentSize ∈ (s.writer.segmentManager.dir.crash keep).ids) ∧
    ∀ read, read.Sublist s.log → ∀ c, anchor s.superblock read = some c →
      s.files.load c.record.attFile = some (.att c.group.att) ∧
        s.files.load c.record.dptFile = some (.dpt c.group.dpt) := by
  have hi := reach_inv h
  refine ⟨fun e he hs p hle hlt hsb => ?_,fun read hread c hc => ?_⟩
  · obtain ⟨i,rfl⟩ := Nat.exists_eq_add_of_le hle
    have hlen : i < e.logged.bytes.length := by
      unfold WalSystem.Logged.stop at hlt
      omega
    have hbyte := (hi.stored e he hs).2 i hlen hsb
    rw [List.getElem?_eq_getElem hlen] at hbyte
    exact WalDir.segment_mem (d := s.writer.segmentManager.dir) hbyte
  · obtain ⟨hsb,e,he,hended⟩ := anchor_mem hc
    exact (hi.ended e (hread.subset he) c hended).load hsb

def emptyMeta : MetaDir := ⟨[],fun _ => none,fun _ => by simp⟩

def freshSys : Sys :=
  ⟨WalWriter.openWithSegmentManager (openSegments tinyConfig WalDir.empty)
    Lsn.first Lsn.invalid,.idle,[],Lsn.invalid,Lsn.invalid,emptyMeta,.idle⟩

theorem fresh_freshSys : Fresh tinyConfig freshSys := by
  have hscan : WalWriter.discoverResumeLsn tinyConfig
      (openSegments tinyConfig WalDir.empty).dir Lsn.invalid = .ok Lsn.first := by
    decide +kernel
  refine ⟨_,emptyMeta,?_,rfl⟩
  simp [openWithScanStart,hscan,bind,Except.bind,pure,Except.pure,Lsn.first]

def checkpointSteps (xid : ℕ) (entries : List ℕ) (listing : List Name) : List Step :=
  [.begin none,.writeAtt [xid] true true,.writeDpt [] true true,.checkpointEnd 1 2 3 none,.flushTo,
    .workerBegin false none,.workerEnd none fun _ => true,.wake,.writeSuperblock true true,
    .recycle entries (fun _ => none) none,.prune listing fun _ => false]

def twoCheckpoints : List Step :=
  checkpointSteps 5 [0] [] ++ .append (WalRecord.txnCommit 7) none :: checkpointSteps 6 [0,1] []

def cleaned (lsn : ℕ) (s : Sys) : Bool :=
  s.superblock == lsn && !decide (0 ∈ s.writer.segmentManager.dir.ids) &&
    s.log.any (fun e => e.stored && e.logged.lsn == lsn && decide (lsn < e.logged.stop)) &&
    (anchor s.superblock s.log).isSome

theorem cleanup_keeps_second_checkpoint :
    ∃ s, Machine.Reach (step tinyConfig) (Fresh tinyConfig) Machine.anyStep s ∧
      0 ∉ s.writer.segmentManager.dir.ids ∧
      Lsn.segmentId 192 128 ∈ (s.writer.segmentManager.dir.crash fun _ _ => false).ids ∧
      ∃ c, anchor 192 s.log = some c ∧
        s.files.load c.record.attFile = some (.att c.group.att) := by
  have hrun : ∃ s, Machine.Reach (step tinyConfig) (Fresh tinyConfig) Machine.anyStep s ∧
      cleaned 192 s = true :=
    Machine.exists_reach fresh_freshSys twoCheckpoints (by decide +kernel)
  obtain ⟨s,hs,hp⟩ := hrun
  simp only [cleaned,Bool.and_eq_true,beq_iff_eq,Bool.not_eq_true',decide_eq_false_iff_not,
    List.any_eq_true,decide_eq_true_eq] at hp
  obtain ⟨⟨⟨hsb,hgone⟩,e,he,⟨hst,hlsn⟩,hstop⟩,hsome⟩ := hp
  obtain ⟨c,hc⟩ := Option.isSome_iff_exists.1 hsome
  obtain ⟨hkept,hload⟩ := cleanup_keeps_needed hs fun _ _ => false
  exact ⟨s,hs,hgone,hkept e he hst 192 hlsn.le hstop hsb.le,c,hsb ▸ hc,
    (hload s.log (List.Sublist.refl _) c hc).1⟩

end CheckpointCleanup
end PgAm
