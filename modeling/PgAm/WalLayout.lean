import PgAm.WalWriter

/-! Where the bytes of an append end up when it stops at any of its file-system calls: the segment
files in front of the open one are complete, at most one more file has been created, and of the
record a leading part is in place. Without a fault an append that does not start in front of the
open segment goes through. -/
namespace PgAm

/-- The files of the segments up to `n` have their full length and there is no other file. -/
structure WalDir.Laid (segmentSize n : ℕ) (d : WalDir) : Prop where
  mem : ∀ id ≤ n, id ∈ d.ids
  len : ∀ id ≤ n, (d.file id).len = segmentSize
  le : ∀ id ∈ d.ids, id ≤ n

/-- As `Laid`, except that the file of the next segment may have been created. -/
structure WalDir.Spread (segmentSize n : ℕ) (d : WalDir) : Prop where
  mem : ∀ id ≤ n, id ∈ d.ids
  len : ∀ id ≤ n, (d.file id).len = segmentSize
  le : ∀ id ∈ d.ids, id ≤ n + 1

variable {segmentSize n : ℕ}

theorem WalDir.Laid.spread {d : WalDir} (h : d.Laid segmentSize n) : d.Spread segmentSize n :=
  ⟨h.mem,h.len,fun id hid => (h.le id hid).trans (Nat.le_succ n)⟩

/-- The files in front of the newest one are there in full length. -/
def WalDir.Complete (segmentSize : ℕ) (d : WalDir) : Prop :=
  ∀ id < d.discoverLatestSegmentId, id ∈ d.ids ∧ (d.file id).len = segmentSize

theorem WalDir.Spread.complete {d : WalDir} (h : d.Spread segmentSize n) :
    d.Complete segmentSize := by
  intro id hid
  have := h.le _ (d.discoverLatestSegmentId_mem (h.mem n le_rfl))
  exact ⟨h.mem id (by omega),h.len id (by omega)⟩

namespace WalSegmentManager

def Laid (segmentSize : ℕ) (m : WalSegmentManager) : Prop :=
  m.dir.Laid segmentSize m.currentSegmentId

def Spread (segmentSize : ℕ) (m : WalSegmentManager) : Prop :=
  m.dir.Spread segmentSize m.currentSegmentId

/-- The first `k` bytes of `bs` have been written from `pos` on, and nothing else. -/
structure Wrote (segmentSize pos : ℕ) (bs : List UInt8) (k : ℕ) (m m' : WalSegmentManager) :
    Prop where
  le : k ≤ bs.length
  data : ∀ p, m'.dir.dataAt segmentSize p =
    if pos ≤ p ∧ p < pos + k then bs[p - pos]? else m.dir.dataAt segmentSize p
  current_le : m.currentSegmentId ≤ m'.currentSegmentId
  reach : ∀ i < k, Lsn.segmentId (pos + i) segmentSize ≤ m'.currentSegmentId
  position : m.currentSegmentId < m'.currentSegmentId →
    m'.currentSegmentId * segmentSize ≤ pos + bs.length
  files : ∀ id ∈ m'.dir.ids, id ∈ m.dir.ids ∨ id * segmentSize ≤ pos + k

section Layout
variable {segmentSize lsn k n : ℕ} {m m' m₀ : WalSegmentManager} {buf : List UInt8}

theorem wrote_refl (pos : ℕ) (bs : List UInt8) (m : WalSegmentManager) :
    Wrote segmentSize pos bs 0 m m where
  le := Nat.zero_le _
  data p := by rw [if_neg (by omega)]
  current_le := le_rfl
  reach _ h := absurd h (Nat.not_lt_zero _)
  position h := absurd h (lt_irrefl _)
  files _ h := .inl h

theorem Wrote.data_behind (h : Wrote segmentSize lsn buf k m m') (p : ℕ) (hp : lsn + k ≤ p) :
    m'.dir.dataAt segmentSize p = m.dir.dataAt segmentSize p := by
  rw [h.data,if_neg (by omega)]

theorem Wrote.touched {id : ℕ} (h : Wrote segmentSize lsn buf k m₀ m) (ht : Touched id m m')
    (hid : id ∈ m.dir.ids ∨ id * segmentSize ≤ lsn + k) : Wrote segmentSize lsn buf k m₀ m' where
  le := h.le
  data p := (ht.dataAt_eq p).trans (h.data p)
  current_le := h.current_le.trans ht.current.ge
  reach i hi := (h.reach i hi).trans ht.current.ge
  position hlt := by
    rw [ht.current] at hlt ⊢
    exact h.position hlt
  files j hj := by
    rcases ht.ids j hj with rfl | hj
    · exact hid.elim (h.files j) .inr
    · exact h.files j hj

theorem Wrote.write (h : Wrote segmentSize lsn buf k m₀ m) (hpos : 0 < segmentSize)
    (hle : k + n ≤ buf.length) (hc : m.currentSegmentId = Lsn.segmentId (lsn + k) segmentSize)
    (hfit : Lsn.segmentOffset (lsn + k) segmentSize + n ≤ segmentSize) :
    Wrote segmentSize lsn buf (k + n) m₀ (m.modifyFile m.currentSegmentId
      (·.write (Lsn.segmentOffset (lsn + k) segmentSize) ((buf.drop k).take n))) where
  __ := h
  le := hle
  data p := by
    rw [dataAt_write_chunk hpos hle hc hfit,h.data]
    split
    · rw [if_pos (by omega)]
    · by_cases hr : lsn ≤ p ∧ p < lsn + k
      · rw [if_pos hr,if_pos (by omega)]
      · rw [if_neg hr,if_neg (by omega)]
  reach i hi := by
    have hdm := Nat.div_add_mod (lsn + k) segmentSize
    unfold Lsn.segmentOffset at hfit
    rw [modifyFile_current,hc]
    refine Nat.le_of_lt_succ (Nat.div_lt_of_lt_mul ?_)
    rw [Nat.mul_succ,Lsn.segmentId]
    omega
  files id hid := (h.files id hid).imp_right (by omega)

theorem Laid.spread (h : m.Laid segmentSize) : m.Spread segmentSize := WalDir.Laid.spread h

theorem Laid.modify (h : m.Laid segmentSize) {id : ℕ} {f : SegmentFile → SegmentFile}
    (hf : (f (m.dir.file id)).len = segmentSize) : (m.modifyFile id f).Laid segmentSize where
  __ := h
  len j hj := by
    by_cases hid : j = id
    · subst hid
      rw [modifyFile_file_same f (h.mem j hj)]
      exact hf
    · rw [modifyFile_dir,WalDir.modify_file_other _ _ hid]
      exact h.len j hj

theorem Laid.sync (h : m.Laid segmentSize) :
    (m.modifyFile m.currentSegmentId SegmentFile.syncAll).Laid segmentSize :=
  h.modify (h.len _ le_rfl)

theorem Laid.write (h : m.Laid segmentSize) {offset : ℕ} {bs : List UInt8}
    (hfit : offset + bs.length ≤ segmentSize) :
    (m.modifyFile m.currentSegmentId (·.write offset bs)).Laid segmentSize := by
  refine h.modify ?_
  simp only [SegmentFile.write]
  rw [h.len _ le_rfl]
  exact max_eq_left hfit

theorem Spread.touched (h : m.Spread segmentSize) (ht : Touched (m.currentSegmentId + 1) m m') :
    m'.Spread segmentSize := by
  refine ⟨fun id hid => ?_,fun id hid => ?_,fun id hid => ?_⟩ <;> rw [ht.current] at *
  · exact ht.kept id (h.mem id hid)
  · rw [ht.other id (by omega)]
    exact h.len id hid
  · exact (ht.ids id hid).elim (·.le) (h.le id)

theorem Spread.switch (h : m.Spread segmentSize) (hmem : m.currentSegmentId + 1 ∈ m.dir.ids)
    (hlen : (m.dir.file (m.currentSegmentId + 1)).len = segmentSize) :
    m.dir.Laid segmentSize (m.currentSegmentId + 1) := by
  refine ⟨fun id hid => ?_,fun id hid => ?_,h.le⟩ <;> rcases Nat.le_succ_iff.1 hid with hid | rfl
  · exact h.mem id hid
  · exact hmem
  · exact h.len id hid
  · exact hlen

theorem walk_laid (hpos : 0 < segmentSize) (lsn : ℕ) (buf : List UInt8) (m₀ : WalSegmentManager) :
    Walk segmentSize lsn buf
      (fun k m => m.Laid segmentSize ∧ Wrote segmentSize lsn buf k m₀ m)
      (fun k m => m.Spread segmentSize ∧ Wrote segmentSize lsn buf k m₀ m)
      (fun m => m.Spread segmentSize ∧ ∃ k, Wrote segmentSize lsn buf k m₀ m) where
  sync h :=
    have hw := h.2.touched (touched_sync _ _) (.inl (WalSegmentManager.current_mem _))
    ⟨⟨h.1.sync,hw⟩,h.1.sync.spread,hw⟩
  touched h hle ht := ⟨h.1.touched ht,h.2.touched ht (.inr hle)⟩
  switch hmem h hlen hle := ⟨h.1.switch hmem hlen,{ h.2 with
    current_le := h.2.current_le.trans (Nat.le_succ _)
    reach := fun i hi => (h.2.reach i hi).trans (Nat.le_succ _)
    position := fun _ => hle.trans (Nat.add_le_add_left h.2.le _) }⟩
  write h hle hc hfit := ⟨h.1.write (by rwa [length_chunk hle]),h.2.write hpos hle hc hfit⟩
  stop _ h := h.elim (fun h => ⟨h.1.spread,_,h.2⟩) fun h => ⟨h.1,_,h.2⟩

theorem run_writeRecordToSegment_laid {s : SegIo} (hpos : 0 < segmentSize) (buf : List UInt8)
    (lsn : ℕ) (h : s.manager.Laid segmentSize) :
    Action.Run (writeRecordToSegment segmentSize buf lsn) s
      (fun _ t => (s.fault = none → t.fault = none) ∧ t.manager.Laid segmentSize ∧
        (buf ≠ [] → s.manager.currentSegmentId ≤ Lsn.segmentId lsn segmentSize) ∧
        Wrote segmentSize lsn buf buf.length s.manager t.manager)
      (fun _ t => (s.fault = none → buf.length ≤ segmentSize →
          Lsn.segmentId lsn segmentSize < s.manager.currentSegmentId) ∧
        t.manager.Spread segmentSize ∧
        ∃ k, Wrote segmentSize lsn buf k s.manager t.manager) := by
  refine ((walk_laid hpos lsn buf s.manager).run_writeRecordToSegment id hpos
    ⟨h,wrote_refl _ _ _⟩).mono ?_ fun _ _ h => h
  rintro - t ⟨hc,⟨hl,hw⟩,hle⟩
  exact ⟨hc,hl,hle,hw⟩

end Layout
end WalSegmentManager
end PgAm
