import PgAm.WalWriter

/-! Removing old WAL segments. `recycle_before` goes through the directory and deletes the files in
front of the segment of a position, never the open one; it stops at the first failing call, and
what it has deleted by then is gone. -/
namespace PgAm

namespace WalDir

def remove (d : WalDir) (id : ℕ) : WalDir where
  ids := d.ids.filter (· ≠ id)
  file := fun j => if j = id then SegmentFile.blank else d.file j
  blank j hj := by
    by_cases h : j = id
    · rw [if_pos h]
    · rw [if_neg h]
      exact d.blank j fun hm => hj (List.mem_filter.2 ⟨hm,by simpa using h⟩)

@[simp] theorem mem_remove_ids (d : WalDir) (id j : ℕ) :
    j ∈ (d.remove id).ids ↔ j ∈ d.ids ∧ j ≠ id := by
  simp [remove]

theorem remove_file_other (d : WalDir) {id j : ℕ} (h : j ≠ id) :
    (d.remove id).file j = d.file j := if_neg h

theorem remove_synced {d : WalDir} {id j : ℕ} (h : (d.file j).Synced) :
    ((d.remove id).file j).Synced := by
  by_cases hj : j = id
  · rw [show (d.remove id).file j = SegmentFile.blank from if_pos hj]
    exact SegmentFile.blank_synced
  · rwa [remove_file_other d hj]

theorem segment_mem {d : WalDir} {segmentSize p : ℕ} {b : UInt8}
    (h : d.dataAt segmentSize p = some b) : Lsn.segmentId p segmentSize ∈ d.ids := by
  by_contra hno
  rw [dataAt,d.blank _ hno] at h
  cases h

end WalDir

namespace WalSegmentManager

def removeFile (id : ℕ) (m : WalSegmentManager) : WalSegmentManager :=
  if h : id = m.currentSegmentId then m
  else { m with
    dir := m.dir.remove id
    current_mem := (m.dir.mem_remove_ids id _).2 ⟨m.current_mem,Ne.symm h⟩ }

/-- `fault` says which deletions fail; the second component counts the deleted files. -/
def recycleLoop (cutoff : ℕ) (fault : ℕ → Option String) :
    List ℕ → WalSegmentManager → Except StorageError ℕ × WalSegmentManager
  | [],m => (.ok 0,m)
  | id :: rest,m =>
    if id < cutoff then
      match fault id with
      | some msg => (.error (.io msg),m)
      | none =>
        let (res,m) := recycleLoop cutoff fault rest (m.removeFile id)
        (res.map (· + 1),m)
    else recycleLoop cutoff fault rest m

/-- `entries` is the directory as it is listed, `syncFault` a failing sync of the directory. -/
def recycleBefore (segmentSize lsn : ℕ) (entries : List ℕ) (fault : ℕ → Option String)
    (syncFault : Option String) (m : WalSegmentManager) :
    Except StorageError Unit × WalSegmentManager :=
  let cutoff := min (Lsn.segmentId lsn segmentSize) m.currentSegmentId
  match recycleLoop cutoff fault entries m with
  | (.error e,m) => (.error e,m)
  | (.ok removed,m) =>
    if removed = 0 then (.ok (),m)
    else match syncFault with
      | some msg => (.error (.io msg),m)
      | none => (.ok (),m)

structure Recycled (cutoff : ℕ) (m m' : WalSegmentManager) : Prop where
  current : m'.currentSegmentId = m.currentSegmentId
  ids : ∀ id ∈ m'.dir.ids, id ∈ m.dir.ids
  file : ∀ id, cutoff ≤ id → m'.dir.file id = m.dir.file id
  synced : ∀ id, (m.dir.file id).Synced → (m'.dir.file id).Synced

theorem Recycled.refl (cutoff : ℕ) (m : WalSegmentManager) : Recycled cutoff m m :=
  ⟨rfl,fun _ h => h,fun _ _ => rfl,fun _ h => h⟩

variable {cutoff : ℕ}

theorem Recycled.trans {m m' m'' : WalSegmentManager} (h : Recycled cutoff m m')
    (h' : Recycled cutoff m' m'') : Recycled cutoff m m'' where
  current := h'.current.trans h.current
  ids id hid := h.ids id (h'.ids id hid)
  file id hid := (h'.file id hid).trans (h.file id hid)
  synced id hid := h'.synced id (h.synced id hid)

theorem recycled_removeFile {cutoff id : ℕ} (m : WalSegmentManager) (h : id < cutoff) :
    Recycled cutoff m (m.removeFile id) := by
  unfold removeFile
  split
  · exact .refl cutoff m
  · exact ⟨rfl,fun j hj => ((m.dir.mem_remove_ids id j).1 hj).1,
      fun j hj => m.dir.remove_file_other (by omega),fun j hj => WalDir.remove_synced hj⟩

theorem recycleLoop_recycled (cutoff : ℕ) (fault : ℕ → Option String) (entries : List ℕ)
    (m : WalSegmentManager) : Recycled cutoff m (recycleLoop cutoff fault entries m).2 := by
  induction entries generalizing m with
  | nil => exact .refl cutoff m
  | cons id rest ih =>
    unfold recycleLoop
    split
    · rename_i hid
      split
      · exact .refl cutoff m
      · exact (recycled_removeFile m hid).trans (ih _)
    · exact ih m

theorem recycleBefore_recycled (segmentSize lsn : ℕ) (entries : List ℕ)
    (fault : ℕ → Option String) (syncFault : Option String) (m : WalSegmentManager) :
    Recycled (Lsn.segmentId lsn segmentSize) m
      (recycleBefore segmentSize lsn entries fault syncFault m).2 := by
  have hloop := recycleLoop_recycled (min (Lsn.segmentId lsn segmentSize) m.currentSegmentId)
    fault entries m
  have hcut : Recycled (Lsn.segmentId lsn segmentSize) m
      (recycleLoop (min (Lsn.segmentId lsn segmentSize) m.currentSegmentId) fault entries m).2 :=
    { hloop with file := fun id hid => hloop.file id ((min_le_left _ _).trans hid) }
  unfold recycleBefore
  dsimp only
  split
  · rename_i hres
    rwa [hres] at hcut
  · rename_i hres
    rw [hres] at hcut
    split
    · exact hcut
    · split <;> exact hcut

variable {m m' : WalSegmentManager}

theorem Recycled.sealed (h : Recycled cutoff m m') (hs : m.Sealed) : m'.Sealed := by
  refine ⟨fun id hid => h.synced id (hs.others id (h.current ▸ hid)),fun id hid hlt => ?_⟩
  rw [h.current] at hlt ⊢
  exact h.synced _ (hs.newer id (h.ids id hid) hlt)

theorem Recycled.newest (h : Recycled cutoff m m')
    (hn : m.Newest) : m'.Newest := fun id hid => h.current ▸ hn id (h.ids id hid)

theorem Recycled.dataAt {segmentSize lsn p : ℕ}
    (h : Recycled (Lsn.segmentId lsn segmentSize) m m') (hp : lsn ≤ p) :
    m'.dir.dataAt segmentSize p = m.dir.dataAt segmentSize p := by
  unfold WalDir.dataAt
  rw [h.file (Lsn.segmentId p segmentSize) (Nat.div_le_div_right hp)]

end WalSegmentManager

namespace WalWriter

variable {cfg : WalConfig}

def recycleBefore (cfg : WalConfig) (lsn : ℕ) (entries : List ℕ) (fault : ℕ → Option String)
    (syncFault : Option String) (st : WriterState) : Except StorageError Unit × WriterState :=
  match checkError st with
  | .error e => (.error e,st)
  | .ok () =>
    if st.shutdown then (.error (.walWriteFailed "wal writer shut down"),st)
    else
      let (res,m) := st.segmentManager.recycleBefore cfg.walSegmentSize lsn entries fault syncFault
      (res,{ st with segmentManager := m })

theorem recycleBefore_cases (lsn : ℕ) (entries : List ℕ) (fault : ℕ → Option String)
    (syncFault : Option String) (st : WriterState) :
    ∃ m, (recycleBefore cfg lsn entries fault syncFault st).2 = { st with segmentManager := m } ∧
      WalSegmentManager.Recycled (Lsn.segmentId lsn cfg.walSegmentSize) st.segmentManager m := by
  unfold recycleBefore
  split
  · exact ⟨st.segmentManager,rfl,.refl _ _⟩
  · split
    · exact ⟨st.segmentManager,rfl,.refl _ _⟩
    · exact ⟨_,rfl,WalSegmentManager.recycleBefore_recycled ..⟩

theorem Steady.recycled {st : WriterState} {cutoff : ℕ} {m : WalSegmentManager} (h : Steady st)
    (hm : WalSegmentManager.Recycled cutoff st.segmentManager m) :
    Steady { st with segmentManager := m } :=
  ⟨hm.sealed h.is_sealed,fun hn => hm.newest (h.newest hn),h.poisoned⟩

theorem Appended.steady {r : WalRecord} {st st' : WriterState} {res : Except StorageError ℕ}
    (h : Appended cfg r st res st') (hi : Steady st) : Steady st' := by
  cases h with
  | refused e => exact hi
  | stored hnone hbuf hm => exact ⟨hm.progress.is_sealed,fun _ => hm.newest,hi.poisoned⟩
  | poisoned hm => exact ⟨hm.is_sealed,fun hn => by simp at hn,fun _ => rfl⟩

theorem workerBegin_steady {timedOut : Bool} {dupFault : Option String} {st : WriterState}
    (h : Steady st) : Steady (workerBegin cfg timedOut dupFault st).2 ∧
      (workerBegin cfg timedOut dupFault st).2.segmentManager = st.segmentManager ∧
      (workerBegin cfg timedOut dupFault st).2.lsnClock = st.lsnClock := by
  unfold workerBegin
  dsimp only
  split
  · exact ⟨h,rfl,rfl⟩
  split
  · exact ⟨h,rfl,rfl⟩
  split
  · exact ⟨h,rfl,rfl⟩
  cases dupFault with
  | some e => exact ⟨⟨h.is_sealed,fun hn => by simp at hn,fun _ => rfl⟩,rfl,rfl⟩
  | none => exact ⟨h,rfl,rfl⟩

theorem workerEnd_steady {w : Wave} {fsyncFault : Option String} {also : ℕ → Bool}
    {st : WriterState} (h : Steady st) : Steady (workerEnd cfg w fsyncFault also st).2 ∧
      (∀ p, (workerEnd cfg w fsyncFault also st).2.segmentManager.dir.dataAt cfg.walSegmentSize p =
        st.segmentManager.dir.dataAt cfg.walSegmentSize p) ∧
      (workerEnd cfg w fsyncFault also st).2.lsnClock = st.lsnClock := by
  cases fsyncFault with
  | some e =>
    exact ⟨⟨h.is_sealed,fun hn => by simp [workerEnd] at hn,fun _ => rfl⟩,fun _ => rfl,rfl⟩
  | none =>
    have herr : (if st.shutdown then st.lastError else none) = st.lastError := by
      cases hl : st.lastError with
      | none => simp
      | some msg => simp [h.poisoned (by simp [hl])]
    refine ⟨⟨sealed_syncWave h.is_sealed _ _ _,fun hn => h.newest (herr ▸ hn),
      fun hn => h.poisoned (herr ▸ hn)⟩,fun p => syncWave_dataAt _ _ _ _ _ _,rfl⟩

end WalWriter
end PgAm
