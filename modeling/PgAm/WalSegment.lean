import PgAm.Action
import PgAm.WalRecord

/-! WAL segment files and the manager that keeps the newest one open. A file holds
the bytes written to it and, separately, those covered by a completed `sync_all`.
Every file-system call of an operation may fail; the operation then returns early
and its earlier effects stay. -/
namespace PgAm

open PgAm.Action (fail get run_bind run_get run_ite)

/-- `none` is a byte never written; `stable` is the content at the last completed sync. -/
structure SegmentFile where
  len : ℕ
  data : ℕ → Option UInt8
  stable : ℕ → Option UInt8

namespace SegmentFile

def blank : SegmentFile := ⟨0,fun _ => none,fun _ => none⟩

def write (f : SegmentFile) (offset : ℕ) (bs : List UInt8) : SegmentFile :=
  { f with
    len := max f.len (offset + bs.length)
    data := fun o => if offset ≤ o ∧ o < offset + bs.length then bs[o - offset]? else f.data o }

def syncAll (f : SegmentFile) : SegmentFile := { f with stable := f.data }

/-- `preallocate_file`: set the length, leaving the content alone. -/
def setLen (f : SegmentFile) (n : ℕ) : SegmentFile := { f with len := n }

def Synced (f : SegmentFile) : Prop := f.stable = f.data

theorem blank_synced : blank.Synced := rfl
@[simp] theorem syncAll_synced (f : SegmentFile) : f.syncAll.Synced := rfl
@[simp] theorem syncAll_data (f : SegmentFile) : f.syncAll.data = f.data := rfl
@[simp] theorem syncAll_stable (f : SegmentFile) : f.syncAll.stable = f.data := rfl
@[simp] theorem setLen_data (f : SegmentFile) (n : ℕ) : (f.setLen n).data = f.data := rfl
@[simp] theorem setLen_stable (f : SegmentFile) (n : ℕ) : (f.setLen n).stable = f.stable := rfl
@[simp] theorem write_stable (f : SegmentFile) (o : ℕ) (bs : List UInt8) :
    (f.write o bs).stable = f.stable := rfl

variable {bs : List UInt8}

theorem write_data_outside (f : SegmentFile) {off o : ℕ}
    (h : ¬(off ≤ o ∧ o < off + bs.length)) : (f.write off bs).data o = f.data o := by
  simp [write,h]

end SegmentFile

/-- The `wal` directory. A segment id without a file has no content. -/
structure WalDir where
  ids : List ℕ
  file : ℕ → SegmentFile
  blank : ∀ id, id ∉ ids → file id = SegmentFile.blank

namespace WalDir

def empty : WalDir := ⟨[],fun _ => SegmentFile.blank,fun _ _ => rfl⟩

/-- Open with `create(true).truncate(false)`: an existing file is kept as it is. -/
def create (d : WalDir) (id : ℕ) : WalDir where
  ids := if id ∈ d.ids then d.ids else id :: d.ids
  file := d.file
  blank j hj := d.blank j fun h => hj (by split <;> simp [h])

def modify (d : WalDir) (id : ℕ) (f : SegmentFile → SegmentFile) : WalDir where
  ids := d.ids
  file := fun j => if j = id ∧ id ∈ d.ids then f (d.file j) else d.file j
  blank j hj := by
    rw [if_neg (by rintro ⟨rfl,h⟩; exact hj h)]
    exact d.blank j hj

variable {id : ℕ}

@[simp] theorem create_file (d : WalDir) (id : ℕ) : (d.create id).file = d.file := rfl
@[simp] theorem modify_ids (d : WalDir) (id : ℕ) (f : SegmentFile → SegmentFile) :
    (d.modify id f).ids = d.ids := rfl
theorem modify_file_same (d : WalDir) (f : SegmentFile → SegmentFile) (h : id ∈ d.ids) :
    (d.modify id f).file id = f (d.file id) := by simp [modify,h]
theorem modify_file_other (d : WalDir) {id j : ℕ} (f : SegmentFile → SegmentFile) (h : j ≠ id) :
    (d.modify id f).file j = d.file j := by simp [modify,h]
@[simp] theorem mem_create_ids (d : WalDir) (id j : ℕ) :
    j ∈ (d.create id).ids ↔ j = id ∨ j ∈ d.ids := by
  unfold create
  split
  · rename_i h
    exact ⟨Or.inr,fun hj => hj.elim (fun e => e ▸ h) fun m => m⟩
  · simp

def discoverLatestSegmentId (d : WalDir) : ℕ := d.ids.max?.getD 0
def discoverOldestSegmentId (d : WalDir) : ℕ := d.ids.min?.getD 0

theorem le_discoverLatestSegmentId (d : WalDir) (h : id ∈ d.ids) :
    id ≤ d.discoverLatestSegmentId := by
  unfold discoverLatestSegmentId
  cases hm : d.ids.max? with
  | none => simp_all
  | some m => exact (List.max?_eq_some_iff.1 hm).2 id h

theorem discoverLatestSegmentId_mem (d : WalDir) (h : id ∈ d.ids) :
    d.discoverLatestSegmentId ∈ d.ids := by
  unfold discoverLatestSegmentId
  cases hm : d.ids.max? with
  | none => simp_all
  | some m => exact (List.max?_eq_some_iff.1 hm).1

/-- Of the bytes that no sync covered, those in `keep` are found again. -/
def crash (d : WalDir) (keep : ℕ → ℕ → Bool) : WalDir where
  ids := d.ids
  file := fun id => { d.file id with
    data := fun o => if keep id o then (d.file id).data o else (d.file id).stable o }
  blank id h := by
    simp [d.blank id h,SegmentFile.blank]

theorem crash_synced {d : WalDir} (h : (d.file id).Synced) (keep : ℕ → ℕ → Bool) :
    ((d.crash keep).file id).Synced := by
  funext o
  have ho : (d.file id).stable o = (d.file id).data o := congrFun h o
  simp [crash,ho]

def dataAt (d : WalDir) (segmentSize p : ℕ) : Option UInt8 :=
  (d.file (Lsn.segmentId p segmentSize)).data (Lsn.segmentOffset p segmentSize)

def stableAt (d : WalDir) (segmentSize p : ℕ) : Option UInt8 :=
  (d.file (Lsn.segmentId p segmentSize)).stable (Lsn.segmentOffset p segmentSize)

/-- The file offsets that hold the stream positions from `lo` up to `hi`. -/
def region (segmentSize lo hi : ℕ) (id o : ℕ) : Prop :=
  lo ≤ id * segmentSize + o ∧ id * segmentSize + o < hi

/-- Outside `inside` contents are the same, and a stable byte has at most caught up. -/
def Frame (inside : ℕ → ℕ → Prop) (d d' : WalDir) : Prop :=
  ∀ id o, ¬inside id o → (d'.file id).data o = (d.file id).data o ∧
    ((d'.file id).stable o = (d.file id).stable o ∨ (d'.file id).stable o = (d'.file id).data o)

theorem Frame.refl (inside : ℕ → ℕ → Prop) (d : WalDir) : Frame inside d d :=
  fun _ _ _ => ⟨rfl,.inl rfl⟩

theorem Frame.trans {inside : ℕ → ℕ → Prop} {d d' d'' : WalDir} (h : Frame inside d d')
    (h' : Frame inside d' d'') : Frame inside d d'' := by
  intro id o ho
  obtain ⟨hd,hs⟩ := h id o ho
  obtain ⟨hd',hs'⟩ := h' id o ho
  refine ⟨hd'.trans hd,?_⟩
  rcases hs' with hs' | hs'
  · rcases hs with hs | hs
    · exact .inl (hs'.trans hs)
    · exact .inr (by rw [hs',hs,hd'])
  · exact .inr hs'

variable {d d' : WalDir}

theorem Frame.mono {P Q : ℕ → ℕ → Prop} (h : Frame P d d')
    (hPQ : ∀ id o, P id o → Q id o) : Frame Q d d' :=
  fun id o ho => h id o fun hp => ho (hPQ id o hp)

variable {segmentSize lo hi p : ℕ}

theorem Frame.dataAt_eq (h : Frame (region segmentSize lo hi) d d') (hp : p < lo ∨ hi ≤ p) :
    d'.dataAt segmentSize p = d.dataAt segmentSize p := by
  refine (h _ _ ?_).1
  simp only [region,Lsn.segmentId,Lsn.segmentOffset,Nat.div_add_mod']
  omega

theorem Frame.stableAt_eq (h : Frame (region segmentSize lo hi) d d') (hp : p < lo ∨ hi ≤ p)
    (hs : d.stableAt segmentSize p = d.dataAt segmentSize p) :
    d'.stableAt segmentSize p = d'.dataAt segmentSize p := by
  have hd := h.dataAt_eq hp
  have hr : ¬region segmentSize lo hi (Lsn.segmentId p segmentSize)
      (Lsn.segmentOffset p segmentSize) := by
    simp only [region,Lsn.segmentId,Lsn.segmentOffset,Nat.div_add_mod']
    omega
  rcases (h _ _ hr).2 with h' | h'
  · exact h'.trans (hs.trans hd.symm)
  · exact h'

end WalDir

/-- The manager keeps the file of the current segment open for writing. -/
structure WalSegmentManager where
  dir : WalDir
  currentSegmentId : ℕ
  current_mem : currentSegmentId ∈ dir.ids

/-- The call after `after` successful ones fails; `written` bytes of a write stay. -/
structure IoFault where
  after : ℕ
  written : ℕ
  message : String

structure SegIo where
  manager : WalSegmentManager
  fault : Option IoFault

abbrev SegAction := Action SegIo StorageError

namespace WalSegmentManager

def onDir (m : WalSegmentManager) (f : WalDir → WalDir)
    (hf : ∀ d id, id ∈ d.ids → id ∈ (f d).ids) : WalSegmentManager :=
  { m with dir := f m.dir, current_mem := hf _ _ m.current_mem }

def createFile (id : ℕ) (m : WalSegmentManager) : WalSegmentManager :=
  m.onDir (·.create id) fun _ _ h => by simp [h]

def modifyFile (id : ℕ) (f : SegmentFile → SegmentFile) (m : WalSegmentManager) :
    WalSegmentManager := m.onDir (·.modify id f) fun _ _ h => h

def switchTo (id : ℕ) (m : WalSegmentManager) : WalSegmentManager :=
  if h : id ∈ m.dir.ids then { m with currentSegmentId := id, current_mem := h } else m

/-- One file-system call: on success `f` happens, on failure the part `g` of it. -/
def ioCall (f : WalSegmentManager → WalSegmentManager)
    (g : ℕ → WalSegmentManager → WalSegmentManager) : SegAction Unit := fun s =>
  match s.fault with
  | none => (.ok (),{ s with manager := f s.manager })
  | some ⟨0,w,msg⟩ => (.error (.io msg),{ s with manager := g w s.manager })
  | some ⟨k+1,w,msg⟩ => (.ok (),⟨f s.manager,some ⟨k,w,msg⟩⟩)

def sysCall (f : WalSegmentManager → WalSegmentManager) : SegAction Unit :=
  ioCall f fun _ m => m

def syncCurrent : SegAction Unit :=
  sysCall fun m => m.modifyFile m.currentSegmentId SegmentFile.syncAll

/-- `seek` and `write_all` on the open file; a failing write keeps a leading part. -/
def writeCurrent (offset : ℕ) (bs : List UInt8) : SegAction Unit := do
  sysCall fun m => m
  ioCall (fun m => m.modifyFile m.currentSegmentId (·.write offset bs))
    fun w m => m.modifyFile m.currentSegmentId (·.write offset (bs.take w))

section SegmentSize
variable (segmentSize : ℕ)

def openSegmentFile (id : ℕ) : SegAction Unit := do
  sysCall (createFile id)
  sysCall fun m => m
  let s ← get
  if (s.manager.dir.file id).len ≠ segmentSize then
    sysCall (modifyFile id (·.setLen segmentSize))
  sysCall (modifyFile id SegmentFile.syncAll)

/-- The old file is synced before the switch; `sync_dir` makes the creation durable. -/
def rotate : SegAction Unit := do
  syncCurrent
  let s ← get
  let nextId := s.manager.currentSegmentId + 1
  openSegmentFile segmentSize nextId
  sysCall fun m => m
  Action.modify fun s => { s with manager := s.manager.switchTo nextId }

def rotateTimes : ℕ → SegAction Unit
  | 0 => pure ()
  | n+1 => do
    rotate segmentSize
    rotateTimes n

def ensureForWrite (lsn : ℕ) : SegAction Unit := do
  let s ← get
  let targetId := Lsn.segmentId lsn segmentSize
  let currentId := s.manager.currentSegmentId
  if targetId = currentId then pure ()
  else if targetId < currentId then
    fail (.walWriteFailed
      s!"cannot write LSN {lsn} to segment {targetId} which is before current segment {currentId}")
  else rotateTimes segmentSize (targetId - currentId)

def chunkLen (pos : ℕ) (rest : List UInt8) : ℕ :=
  min (segmentSize - Lsn.segmentOffset pos segmentSize) rest.length

/-- One round with `rest` still to write at `pos`; a segment that is filled is synced. -/
def writeChunk (pos : ℕ) (rest : List UInt8) : SegAction Unit := do
  let offset := Lsn.segmentOffset pos segmentSize
  let chunk := chunkLen segmentSize pos rest
  ensureForWrite segmentSize pos
  writeCurrent offset (rest.take chunk)
  if chunk < rest.length ∧ offset + chunk = segmentSize then syncCurrent else pure ()

/-- The loop. Each round writes at least one byte, so `rest.length` rounds are enough. -/
def writeChunks : ℕ → ℕ → List UInt8 → SegAction Unit
  | 0, _, _ => pure ()
  | fuel+1, pos, rest =>
    if rest = [] then pure ()
    else do
      writeChunk segmentSize pos rest
      let chunk := chunkLen segmentSize pos rest
      writeChunks fuel (pos + chunk) (rest.drop chunk)

def writeRecordToSegment (buf : List UInt8) (lsn : ℕ) : SegAction Unit :=
  let n := buf.length
  if segmentSize < n then
    fail (.walWriteFailed s!"record size {n} exceeds segment size {segmentSize}")
  else writeChunks segmentSize n lsn buf

end SegmentSize

@[simp] theorem createFile_current (m : WalSegmentManager) (id : ℕ) :
    (m.createFile id).currentSegmentId = m.currentSegmentId := rfl
@[simp] theorem createFile_dir (m : WalSegmentManager) (id : ℕ) :
    (m.createFile id).dir = m.dir.create id := rfl
@[simp] theorem modifyFile_current (m : WalSegmentManager) (id : ℕ)
    (f : SegmentFile → SegmentFile) :
    (m.modifyFile id f).currentSegmentId = m.currentSegmentId := rfl
@[simp] theorem modifyFile_dir (m : WalSegmentManager) (id : ℕ)
    (f : SegmentFile → SegmentFile) : (m.modifyFile id f).dir = m.dir.modify id f := rfl

variable {s : SegIo} {f : WalSegmentManager → WalSegmentManager}
  {E : StorageError → SegIo → Prop} {Q : Unit → SegIo → Prop} {c : Prop}

theorem run_ioCall {g : ℕ → WalSegmentManager → WalSegmentManager} (hc : c → s.fault = none)
    (hQ : ∀ fault, (c → fault = none) → Q () ⟨f s.manager,fault⟩)
    (hE : ¬c → ∀ w e fault, E e ⟨g w s.manager,fault⟩) : Action.Run (ioCall f g) s Q E := by
  obtain ⟨m,fault⟩ := s
  match fault with
  | none => exact hQ none fun _ => rfl
  | some ⟨0,w,msg⟩ => exact hE (fun h => nomatch hc h) w _ _
  | some ⟨k+1,w,msg⟩ => exact hQ _ fun h => nomatch hc h

theorem run_sysCall (hc : c → s.fault = none)
    (hQ : ∀ fault, (c → fault = none) → Q () ⟨f s.manager,fault⟩)
    (hE : ¬c → ∀ e fault, E e ⟨s.manager,fault⟩) : Action.Run (sysCall f) s Q E :=
  run_ioCall hc hQ fun h _ => hE h

/-- Only file `id` was acted on: created, resized or synced, never written. -/
structure Touched (id : ℕ) (m m' : WalSegmentManager) : Prop where
  current : m'.currentSegmentId = m.currentSegmentId
  ids : ∀ j, j ∈ m'.dir.ids → j = id ∨ j ∈ m.dir.ids
  kept : ∀ j, j ∈ m.dir.ids → j ∈ m'.dir.ids
  other : ∀ j, j ≠ id → m'.dir.file j = m.dir.file j
  data : (m'.dir.file id).data = (m.dir.file id).data
  stable : (m'.dir.file id).stable = (m.dir.file id).stable ∨
    (m'.dir.file id).stable = (m.dir.file id).data

theorem Touched.refl (id : ℕ) (m : WalSegmentManager) : Touched id m m :=
  ⟨rfl,fun _ h => .inr h,fun _ h => h,fun _ _ => rfl,rfl,.inl rfl⟩

variable {id segmentSize : ℕ} {m m' m'' : WalSegmentManager}

theorem Touched.trans (h : Touched id m m') (h' : Touched id m' m'') : Touched id m m'' where
  current := h'.current.trans h.current
  ids j hj := (h'.ids j hj).elim .inl (h.ids j)
  kept j hj := h'.kept j (h.kept j hj)
  other j hj := (h'.other j hj).trans (h.other j hj)
  data := h'.data.trans h.data
  stable := by
    rcases h'.stable with hs | hs
    · rw [hs]; exact h.stable
    · exact .inr (hs.trans h.data)

theorem touched_create (id : ℕ) (m : WalSegmentManager) : Touched id m (m.createFile id) where
  current := rfl
  ids j hj := by simpa using hj
  kept j hj := by simp [hj]
  other _ _ := rfl
  data := rfl
  stable := .inl rfl

theorem touched_modify {f : SegmentFile → SegmentFile} (m : WalSegmentManager)
    (hd : ∀ g, (f g).data = g.data) (hs : ∀ g, (f g).stable = g.stable ∨ (f g).stable = g.data) :
    Touched id m (m.modifyFile id f) where
  current := rfl
  ids _ hj := .inr hj
  kept _ hj := hj
  other j hj := m.dir.modify_file_other f hj
  data := by
    by_cases h : id ∈ m.dir.ids <;> simp [WalDir.modify,h,hd]
  stable := by
    by_cases h : id ∈ m.dir.ids
    · simpa [WalDir.modify,h] using hs (m.dir.file id)
    · simp [WalDir.modify,h]

theorem touched_sync (id : ℕ) (m : WalSegmentManager) :
    Touched id m (m.modifyFile id SegmentFile.syncAll) :=
  touched_modify m (fun _ => rfl) fun _ => .inr rfl

theorem Touched.file_data (h : Touched id m m') (j : ℕ) :
    (m'.dir.file j).data = (m.dir.file j).data := by
  by_cases hj : j = id
  · rw [hj,h.data]
  · rw [h.other j hj]

theorem Touched.file_stable (h : Touched id m m') (j : ℕ) :
    (m'.dir.file j).stable = (m.dir.file j).stable ∨
      (m'.dir.file j).stable = (m'.dir.file j).data := by
  rw [h.file_data j]
  by_cases hj : j = id
  · rw [hj]
    exact h.stable
  · rw [h.other j hj]
    exact .inl rfl

theorem Touched.dataAt_eq (h : Touched id m m') (p : ℕ) :
    m'.dir.dataAt segmentSize p = m.dir.dataAt segmentSize p := congrFun (h.file_data _) _

theorem Touched.frame (h : Touched id m m') (inside : ℕ → ℕ → Prop) :
    m.dir.Frame inside m'.dir := fun j o _ =>
  ⟨congrFun (h.file_data j) o,(h.file_stable j).imp (congrFun · o) (congrFun · o)⟩

theorem Touched.synced (h : Touched id m m') {j : ℕ} (hj : (m.dir.file j).Synced) :
    (m'.dir.file j).Synced := by
  rcases h.file_stable j with hs | hs
  · exact hs.trans (hj.trans (h.file_data j).symm)
  · exact hs

theorem modifyFile_file_same (f : SegmentFile → SegmentFile) (h : id ∈ m.dir.ids) :
    (m.modifyFile id f).dir.file id = f (m.dir.file id) := m.dir.modify_file_same f h

theorem switchTo_of_mem (h : id ∈ m.dir.ids) :
    m.switchTo id = { m with currentSegmentId := id, current_mem := h } := dif_pos h

theorem run_openSegmentFile (hc : c → s.fault = none) :
    Action.Run (openSegmentFile segmentSize id) s
      (fun _ t => (c → t.fault = none) ∧ Touched id s.manager t.manager ∧
        id ∈ t.manager.dir.ids ∧ (t.manager.dir.file id).len = segmentSize)
      (fun _ t => ¬c ∧ Touched id s.manager t.manager) := by
  obtain ⟨m,fault⟩ := s
  have ht := touched_create id m
  have hmem : id ∈ (m.createFile id).dir.ids := by simp
  have hlast : ∀ {m' fault}, (c → fault = none) → Touched id m m' → id ∈ m'.dir.ids →
      (m'.dir.file id).len = segmentSize →
      Action.Run (sysCall (modifyFile id SegmentFile.syncAll)) ⟨m',fault⟩
        (fun _ t => (c → t.fault = none) ∧ Touched id m t.manager ∧ id ∈ t.manager.dir.ids ∧
          (t.manager.dir.file id).len = segmentSize)
        (fun _ t => ¬c ∧ Touched id m t.manager) := by
    intro m' fault hc ht hmem hlen
    refine run_sysCall hc (fun _ hc => ⟨hc,ht.trans (touched_sync id m'),hmem,?_⟩)
      fun hn _ _ => ⟨hn,ht⟩
    rw [modifyFile_file_same _ hmem]
    exact hlen
  unfold openSegmentFile
  simp only [run_bind,run_get,run_ite]
  refine run_sysCall hc (fun _ hc => ?_) fun hn _ _ => ⟨hn,.refl _ _⟩
  refine run_sysCall hc (fun _ hc => ?_) fun hn _ _ => ⟨hn,ht⟩
  split
  · refine run_sysCall hc (fun _ hc => ?_) fun hn _ _ => ⟨hn,ht⟩
    refine hlast hc (ht.trans (touched_modify _ (fun _ => rfl) fun _ => .inl rfl)) hmem ?_
    rw [modifyFile_file_same _ hmem]
    rfl
  · rename_i hlen
    exact hlast hc ht hmem (not_not.1 hlen)

/-- `A k` holds between two calls with `k` bytes in place, `R k` while a rotation is under way, and
`B` wherever the append may stop. -/
structure Walk (segmentSize lsn : ℕ) (buf : List UInt8) (A R : ℕ → WalSegmentManager → Prop)
    (B : WalSegmentManager → Prop) : Prop where
  sync : ∀ {k m}, A k m → A k (m.modifyFile m.currentSegmentId SegmentFile.syncAll) ∧
    R k (m.modifyFile m.currentSegmentId SegmentFile.syncAll)
  touched : ∀ {k m m'}, R k m → (m.currentSegmentId + 1) * segmentSize ≤ lsn + k →
    Touched (m.currentSegmentId + 1) m m' → R k m'
  switch : ∀ {k m} (h : m.currentSegmentId + 1 ∈ m.dir.ids), R k m →
    (m.dir.file (m.currentSegmentId + 1)).len = segmentSize →
    (m.currentSegmentId + 1) * segmentSize ≤ lsn + k →
    A k { m with currentSegmentId := m.currentSegmentId + 1, current_mem := h }
  write : ∀ {k n m}, A k m → k + n ≤ buf.length →
    m.currentSegmentId = Lsn.segmentId (lsn + k) segmentSize →
    Lsn.segmentOffset (lsn + k) segmentSize + n ≤ segmentSize →
    A (k + n) (m.modifyFile m.currentSegmentId
      (·.write (Lsn.segmentOffset (lsn + k) segmentSize) ((buf.drop k).take n)))
  stop : ∀ {k m}, k ≤ buf.length → A k m ∨ R k m → B m

section Walk
variable {lsn k : ℕ} {buf : List UInt8} {A R : ℕ → WalSegmentManager → Prop}
  {B : WalSegmentManager → Prop}

theorem Walk.run_rotate (h : Walk segmentSize lsn buf A R B) (hc : c → s.fault = none)
    (hk : k ≤ buf.length) (hA : A k s.manager)
    (hle : (s.manager.currentSegmentId + 1) * segmentSize ≤ lsn + k) :
    Action.Run (rotate segmentSize) s
      (fun _ t => (c → t.fault = none) ∧ A k t.manager ∧
        t.manager.currentSegmentId = s.manager.currentSegmentId + 1)
      (fun _ t => ¬c ∧ B t.manager) := by
  unfold rotate syncCurrent
  simp only [run_bind,run_get]
  refine run_sysCall hc (fun _ hc => ?_) fun hn _ _ => ⟨hn,h.stop hk (.inl hA)⟩
  have hR := (h.sync hA).2
  refine (run_openSegmentFile hc).mono ?_ fun _ t ht =>
    ⟨ht.1,h.stop hk (.inr (h.touched hR hle ht.2))⟩
  rintro - ⟨⟨d,cur,hcur⟩,fault⟩ ⟨hc,ht,hmem,hlen⟩
  obtain rfl : cur = s.manager.currentSegmentId := ht.current
  have hR' := h.touched hR hle ht
  refine run_sysCall hc (fun _ hc => ?_) fun hn _ _ => ⟨hn,h.stop hk (.inr hR')⟩
  rw [Action.run_modify,switchTo_of_mem hmem]
  exact ⟨hc,h.switch hmem hR' hlen hle,rfl⟩

theorem Walk.run_rotateTimes (h : Walk segmentSize lsn buf A R B) (n : ℕ)
    (hc : c → s.fault = none) (hk : k ≤ buf.length) (hA : A k s.manager)
    (hle : (s.manager.currentSegmentId + n) * segmentSize ≤ lsn + k) :
    Action.Run (rotateTimes segmentSize n) s
      (fun _ t => (c → t.fault = none) ∧ A k t.manager ∧
        t.manager.currentSegmentId = s.manager.currentSegmentId + n)
      (fun _ t => ¬c ∧ B t.manager) := by
  induction n generalizing s with
  | zero => exact ⟨hc,hA,rfl⟩
  | succ n ih =>
    refine (h.run_rotate hc hk hA (le_trans (Nat.mul_le_mul_right _ (by omega)) hle)).bind ?_
    rintro - t ⟨hc,ht,hcur⟩
    have hsum : t.manager.currentSegmentId + n = s.manager.currentSegmentId + (n + 1) := by omega
    rw [← hsum] at hle ⊢
    exact ih hc ht hle

theorem Walk.run_ensureForWrite (h : Walk segmentSize lsn buf A R B) (hc : c → s.fault = none)
    (hk : k ≤ buf.length) (hA : A k s.manager) :
    Action.Run (ensureForWrite segmentSize (lsn + k)) s
      (fun _ t => (c → t.fault = none) ∧ A k t.manager ∧
        t.manager.currentSegmentId = Lsn.segmentId (lsn + k) segmentSize ∧
        s.manager.currentSegmentId ≤ Lsn.segmentId (lsn + k) segmentSize)
      (fun _ t => (c → Lsn.segmentId (lsn + k) segmentSize < s.manager.currentSegmentId) ∧
        B t.manager) := by
  unfold ensureForWrite
  simp only [run_bind,run_get,run_ite]
  split
  · rename_i he
    exact ⟨hc,hA,he.symm,he.ge⟩
  split
  · rename_i hlt
    exact ⟨fun _ => hlt,h.stop hk (.inl hA)⟩
  · have hsum : s.manager.currentSegmentId + (Lsn.segmentId (lsn + k) segmentSize -
        s.manager.currentSegmentId) = Lsn.segmentId (lsn + k) segmentSize := by omega
    refine (h.run_rotateTimes _ hc hk hA ?_).mono ?_ fun _ t ht =>
      ⟨fun hyes => absurd hyes ht.1,ht.2⟩
    · rw [hsum]
      exact Nat.div_mul_le_self _ _
    · rintro - t ⟨hc,ht,hcur⟩
      exact ⟨hc,ht,hcur.trans hsum,by omega⟩

/-- One round of the loop. -/
theorem Walk.run_writeChunk (h : Walk segmentSize lsn buf A R B) (hc : c → s.fault = none)
    (hpos : 0 < segmentSize) (hk : k ≤ buf.length) (hA : A k s.manager) :
    Action.Run (writeChunk segmentSize (lsn + k) (buf.drop k)) s
      (fun _ t => (c → t.fault = none) ∧
        A (k + chunkLen segmentSize (lsn + k) (buf.drop k)) t.manager ∧
        t.manager.currentSegmentId = Lsn.segmentId (lsn + k) segmentSize ∧
        s.manager.currentSegmentId ≤ Lsn.segmentId (lsn + k) segmentSize)
      (fun _ t => (c → Lsn.segmentId (lsn + k) segmentSize < s.manager.currentSegmentId) ∧
        B t.manager) := by
  have hle : k + chunkLen segmentSize (lsn + k) (buf.drop k) ≤ buf.length := by
    have : chunkLen segmentSize (lsn + k) (buf.drop k) ≤ (buf.drop k).length := Nat.min_le_right ..
    rw [List.length_drop] at this
    omega
  have hfit : Lsn.segmentOffset (lsn + k) segmentSize +
      chunkLen segmentSize (lsn + k) (buf.drop k) ≤ segmentSize := by
    have hcap : chunkLen segmentSize (lsn + k) (buf.drop k) ≤
      segmentSize - Lsn.segmentOffset (lsn + k) segmentSize := Nat.min_le_left ..
    have : Lsn.segmentOffset (lsn + k) segmentSize < segmentSize := Nat.mod_lt _ hpos
    omega
  unfold writeChunk writeCurrent syncCurrent
  dsimp only
  generalize chunkLen segmentSize (lsn + k) (buf.drop k) = n at hle hfit ⊢
  refine (h.run_ensureForWrite hc hk hA).bind ?_
  rintro - t ⟨hc,ht,hcur,hback⟩
  have hno : ∀ {P : Prop}, ¬c → c → P := fun hn hyes => absurd hyes hn
  simp only [run_bind,run_ite]
  refine run_sysCall hc (fun _ hc => ?_) fun hn _ _ => ⟨hno hn,h.stop hk (.inl ht)⟩
  refine run_ioCall hc (fun _ hc => ?_) fun hn w _ _ => ⟨hno hn,?_⟩
  · have hw := h.write ht hle hcur hfit
    split
    · exact run_sysCall hc (fun _ hc => ⟨hc,(h.sync hw).1,hcur,hback⟩) fun hn _ _ =>
        ⟨hno hn,h.stop hle (.inl hw)⟩
    · exact ⟨hc,hw,hcur,hback⟩
  · rw [List.take_take]
    have hmin := Nat.min_le_right w n
    exact h.stop (by omega) (.inl (h.write ht (by omega) hcur (by omega)))

theorem chunkLen_pos {pos : ℕ} {rest : List UInt8} (hpos : 0 < segmentSize) (hr : rest ≠ []) :
    0 < chunkLen segmentSize pos rest := by
  have h₁ := Nat.mod_lt pos hpos
  have h₂ := List.length_pos_of_ne_nil hr
  unfold chunkLen Lsn.segmentOffset
  omega

theorem Walk.run_writeChunks (h : Walk segmentSize lsn buf A R B) (hc : c → s.fault = none)
    (hpos : 0 < segmentSize) (fuel : ℕ) (hfuel : buf.length - k ≤ fuel) (hk : k ≤ buf.length)
    (hA : A k s.manager) :
    Action.Run (writeChunks segmentSize fuel (lsn + k) (buf.drop k)) s
      (fun _ t => (c → t.fault = none) ∧ A buf.length t.manager ∧
        (buf.drop k ≠ [] → s.manager.currentSegmentId ≤ Lsn.segmentId (lsn + k) segmentSize))
      (fun _ t => (c → Lsn.segmentId (lsn + k) segmentSize < s.manager.currentSegmentId) ∧
        B t.manager) := by
  have hdone : buf.drop k = [] → k = buf.length := fun hd => by
    have := List.drop_eq_nil_iff.1 hd
    omega
  induction fuel generalizing k s with
  | zero =>
    obtain rfl : k = buf.length := by omega
    exact ⟨hc,hA,fun hne => absurd List.drop_length hne⟩
  | succ fuel ih =>
    unfold writeChunks
    rw [run_ite]
    split
    · rename_i hr
      exact ⟨hc,hdone hr ▸ hA,fun hne => absurd hr hne⟩
    rename_i hr
    have hchunk : 0 < chunkLen segmentSize (lsn + k) (buf.drop k) := chunkLen_pos hpos hr
    have hle : chunkLen segmentSize (lsn + k) (buf.drop k) ≤ (buf.drop k).length :=
      Nat.min_le_right ..
    rw [List.length_drop] at hle
    refine (h.run_writeChunk hc hpos hk hA).bind ?_
    rintro - t ⟨hc,ht,hcur,hback⟩
    dsimp only
    rw [List.drop_drop,Nat.add_assoc]
    refine (ih hc (by omega) (by omega) ht fun hd => ?_).mono ?_ ?_
    · have := List.drop_eq_nil_iff.1 hd
      omega
    · rintro - u ⟨hc,hu,-⟩
      exact ⟨hc,hu,fun _ => hback⟩
    · rintro - u ⟨hf,hu⟩
      refine ⟨fun hyes => ?_,hu⟩
      have hlt := hf hyes
      rw [hcur] at hlt
      exact absurd hlt (not_lt.2 (Nat.div_le_div_right (by omega)))

theorem Walk.run_writeRecordToSegment (h : Walk segmentSize lsn buf A R B)
    (hc : c → s.fault = none) (hpos : 0 < segmentSize) (hA : A 0 s.manager) :
    Action.Run (writeRecordToSegment segmentSize buf lsn) s
      (fun _ t => (c → t.fault = none) ∧ A buf.length t.manager ∧
        (buf ≠ [] → s.manager.currentSegmentId ≤ Lsn.segmentId lsn segmentSize))
      (fun _ t => (c → buf.length ≤ segmentSize →
        Lsn.segmentId lsn segmentSize < s.manager.currentSegmentId) ∧ B t.manager) := by
  unfold writeRecordToSegment
  rw [run_ite]
  split
  · rename_i hlt
    exact ⟨fun _ hle => absurd hlt (not_lt.2 hle),h.stop (Nat.zero_le _) (.inl hA)⟩
  · exact (h.run_writeChunks hc hpos _ le_rfl (Nat.zero_le _) hA).mono (fun _ _ h => h)
      fun _ _ ⟨hf,hu⟩ => ⟨fun hyes _ => hf hyes,hu⟩

end Walk

/-- Only the open file may hold unsynced bytes, and not once a newer file exists. -/
structure Sealed (m : WalSegmentManager) : Prop where
  others : ∀ id, id ≠ m.currentSegmentId → (m.dir.file id).Synced
  newer : ∀ id ∈ m.dir.ids, m.currentSegmentId < id →
    (m.dir.file m.currentSegmentId).Synced

def Newest (m : WalSegmentManager) : Prop := ∀ id ∈ m.dir.ids, id ≤ m.currentSegmentId

theorem Sealed.of_synced (h : ∀ id, (m.dir.file id).Synced) : m.Sealed :=
  ⟨fun id _ => h id,fun _ _ _ => h _⟩

theorem Sealed.synced_sync (h : m.Sealed) (id : ℕ) :
    ((m.modifyFile m.currentSegmentId SegmentFile.syncAll).dir.file id).Synced := by
  by_cases he : id = m.currentSegmentId
  · rw [he,modifyFile_file_same _ m.current_mem]
    exact SegmentFile.syncAll_synced _
  · exact (touched_sync _ m).synced (h.others id he)

/-- What an operation writing inside `inside`, up to `bound`, does at either exit. -/
structure Progress (segmentSize bound : ℕ) (inside : ℕ → ℕ → Prop)
    (m m' : WalSegmentManager) : Prop where
  is_sealed : m'.Sealed
  current_le : m.currentSegmentId ≤ m'.currentSegmentId
  position : m.currentSegmentId < m'.currentSegmentId → m'.currentSegmentId * segmentSize ≤ bound
  frame : m.dir.Frame inside m'.dir

variable {inside : ℕ → ℕ → Prop} {bound pos n : ℕ}

theorem Progress.mono {b b' : ℕ} {P P' : ℕ → ℕ → Prop}
    (h : Progress segmentSize b P m m') (hb : b ≤ b') (hP : ∀ id o, P id o → P' id o) :
    Progress segmentSize b' P' m m' :=
  ⟨h.is_sealed,h.current_le,fun hlt => (h.position hlt).trans hb,h.frame.mono hP⟩

theorem Progress.touched (h : Progress segmentSize bound inside m m') (ht : Touched id m' m'')
    (hs : m''.Sealed) : Progress segmentSize bound inside m m'' where
  is_sealed := hs
  current_le := h.current_le.trans ht.current.ge
  position hlt := by
    rw [ht.current] at hlt ⊢
    exact h.position hlt
  frame := h.frame.trans (ht.frame _)

/-- What writing `bs` from position `pos` on achieves when it returns. -/
structure Stored (segmentSize pos : ℕ) (bs : List UInt8) (m m' : WalSegmentManager) : Prop where
  progress : Progress segmentSize (pos + bs.length)
    (WalDir.region segmentSize pos (pos + bs.length)) m m'
  newest : m'.Newest
  content : ∀ i < bs.length, m'.dir.dataAt segmentSize (pos + i) = bs[i]?

theorem dataAt_write {bs : List UInt8} (hpos : 0 < segmentSize)
    (hc : m.currentSegmentId = pos / segmentSize)
    (hfit : pos % segmentSize + bs.length ≤ segmentSize) (p : ℕ) :
    (m.modifyFile m.currentSegmentId (·.write (pos % segmentSize) bs)).dir.dataAt segmentSize p =
      if pos ≤ p ∧ p < pos + bs.length then bs[p - pos]? else m.dir.dataAt segmentSize p := by
  have hdm := Nat.div_add_mod pos segmentSize
  have hdp := Nat.div_add_mod p segmentSize
  have hmp := Nat.mod_lt p hpos
  unfold WalDir.dataAt Lsn.segmentId Lsn.segmentOffset
  by_cases hid : p / segmentSize = m.currentSegmentId
  · rw [hid,modifyFile_file_same _ m.current_mem]
    rw [hid,hc] at hdp
    simp only [SegmentFile.write]
    by_cases hr : pos ≤ p ∧ p < pos + bs.length
    · rw [if_pos hr,if_pos (by omega),show p % segmentSize - pos % segmentSize = p - pos by omega]
    · rw [if_neg hr,if_neg (by omega)]
  · rw [modifyFile_dir,WalDir.modify_file_other _ _ hid,if_neg]
    rintro ⟨hle,hlt⟩
    refine hid (hc ▸ le_antisymm ?_ (Nat.div_le_div_right hle))
    refine Nat.le_of_lt_succ (Nat.div_lt_of_lt_mul ?_)
    rw [Nat.mul_succ]
    omega

variable {buf : List UInt8} {lsn k : ℕ}

theorem length_chunk (h : k + n ≤ buf.length) : ((buf.drop k).take n).length = n := by
  rw [List.length_take,List.length_drop]
  omega

theorem dataAt_write_chunk (hpos : 0 < segmentSize) (hn : k + n ≤ buf.length)
    (hc : m.currentSegmentId = Lsn.segmentId (lsn + k) segmentSize)
    (hfit : Lsn.segmentOffset (lsn + k) segmentSize + n ≤ segmentSize) (p : ℕ) :
    (m.modifyFile m.currentSegmentId (·.write (Lsn.segmentOffset (lsn + k) segmentSize)
      ((buf.drop k).take n))).dir.dataAt segmentSize p =
      if lsn + k ≤ p ∧ p < lsn + (k + n) then buf[p - lsn]? else m.dir.dataAt segmentSize p := by
  have hlen := length_chunk hn
  refine (dataAt_write hpos hc (hlen.symm ▸ hfit) p).trans ?_
  rw [hlen,Nat.add_assoc]
  split
  · rw [List.getElem?_take_of_lt (by omega),List.getElem?_drop]
    congr 1
    omega
  · rfl

/-- Where an append that began with the manager `m₀` stands when `k` bytes are in place. -/
structure Kept (segmentSize lsn : ℕ) (buf : List UInt8) (m₀ : WalSegmentManager) (k : ℕ)
    (m : WalSegmentManager) : Prop where
  progress : Progress segmentSize (lsn + k) (WalDir.region segmentSize lsn (lsn + k)) m₀ m
  content : ∀ i < k, m.dir.dataAt segmentSize (lsn + i) = buf[i]?

variable {m₀ : WalSegmentManager}

theorem Kept.touched (h : Kept segmentSize lsn buf m₀ k m) (ht : Touched id m m')
    (hs : m'.Sealed) : Kept segmentSize lsn buf m₀ k m' :=
  ⟨h.progress.touched ht hs,fun i hi => (ht.dataAt_eq _).trans (h.content i hi)⟩

theorem Kept.write (h : Kept segmentSize lsn buf m₀ k m) (hpos : 0 < segmentSize) (hn : m.Newest)
    (hle : k + n ≤ buf.length) (hc : m.currentSegmentId = Lsn.segmentId (lsn + k) segmentSize)
    (hfit : Lsn.segmentOffset (lsn + k) segmentSize + n ≤ segmentSize) :
    Kept segmentSize lsn buf m₀ (k + n) (m.modifyFile m.currentSegmentId
      (·.write (Lsn.segmentOffset (lsn + k) segmentSize) ((buf.drop k).take n))) where
  progress := by
    refine ⟨⟨fun id hid => ?_,fun id hid hlt => absurd (hn id hid) (not_le.2 hlt)⟩,
      h.progress.current_le,fun hlt => (h.progress.position hlt).trans (by omega),
      (h.progress.frame.mono fun _ _ hr => ⟨hr.1,hr.2.trans_le (by omega)⟩).trans
        fun id o ho => ?_⟩
    · rw [modifyFile_current] at hid
      rw [modifyFile_dir,WalDir.modify_file_other _ _ hid]
      exact h.progress.is_sealed.others id hid
    by_cases hid : id = m.currentSegmentId
    · subst hid
      rw [modifyFile_dir,WalDir.modify_file_same _ _ m.current_mem]
      refine ⟨SegmentFile.write_data_outside _ fun hin => ho ?_,.inl rfl⟩
      have hdm := Nat.div_add_mod (lsn + k) segmentSize
      rw [length_chunk hle] at hin
      rw [hc]
      unfold WalDir.region Lsn.segmentId
      unfold Lsn.segmentOffset at hin
      rw [Nat.mul_comm]
      omega
    · rw [modifyFile_dir,WalDir.modify_file_other _ _ hid]
      exact ⟨rfl,.inl rfl⟩
  content i hi := by
    rw [dataAt_write_chunk hpos hle hc hfit,Nat.add_sub_cancel_left]
    split
    · rfl
    · exact h.content i (by omega)

theorem walk_kept (hpos : 0 < segmentSize) (lsn : ℕ) (buf : List UInt8) (m₀ : WalSegmentManager) :
    Walk segmentSize lsn buf (fun k m => m.Newest ∧ Kept segmentSize lsn buf m₀ k m)
      (fun k m => (∀ id, (m.dir.file id).Synced) ∧ (∀ id ∈ m.dir.ids, id ≤ m.currentSegmentId + 1) ∧
        Kept segmentSize lsn buf m₀ k m)
      (Progress segmentSize (lsn + buf.length)
        (WalDir.region segmentSize lsn (lsn + buf.length)) m₀) where
  sync h := by
    have hs := h.2.progress.is_sealed.synced_sync
    have hk := h.2.touched (touched_sync _ _) (.of_synced hs)
    exact ⟨⟨h.1,hk⟩,hs,fun id hid => (h.1 id hid).trans (Nat.le_succ _),hk⟩
  touched h _ ht := by
    obtain ⟨hs,hn,hk⟩ := h
    have hs' := fun id => ht.synced (hs id)
    refine ⟨hs',fun id hid => ?_,hk.touched ht (.of_synced hs')⟩
    rw [ht.current]
    exact (ht.ids id hid).elim (·.le) (hn id)
  switch hmem h hlen hle := by
    obtain ⟨hs,hn,hk⟩ := h
    exact ⟨hn,⟨.of_synced hs,hk.progress.current_le.trans (Nat.le_succ _),fun _ => hle,
      hk.progress.frame⟩,hk.content⟩
  write h hle hc hfit := ⟨h.1,h.2.write hpos h.1 hle hc hfit⟩
  stop hk h :=
    have h := h.elim (·.2) (·.2.2)
    h.progress.mono (by omega) fun _ _ hr => ⟨hr.1,hr.2.trans_le (by omega)⟩

theorem writeRecordToSegment_run {segmentSize : ℕ} (hpos : 0 < segmentSize) (buf : List UInt8)
    (lsn : ℕ) (hs : s.manager.Sealed) (hn : s.manager.Newest) :
    Action.Run (writeRecordToSegment segmentSize buf lsn) s
      (fun _ t => Stored segmentSize lsn buf s.manager t.manager)
      (fun _ t => Progress segmentSize (lsn + buf.length)
        (WalDir.region segmentSize lsn (lsn + buf.length)) s.manager t.manager) := by
  have hstart : Kept segmentSize lsn buf s.manager 0 s.manager :=
    ⟨⟨hs,le_rfl,fun hlt => absurd hlt (lt_irrefl _),.refl _ _⟩,nofun⟩
  refine ((walk_kept hpos lsn buf s.manager).run_writeRecordToSegment (c := False) nofun hpos
    ⟨hn,hstart⟩).mono ?_ fun _ _ h => h.2
  rintro - t ⟨-,⟨hn,hk⟩,-⟩
  exact ⟨hk.progress,hn,hk.content⟩

end WalSegmentManager
end PgAm
