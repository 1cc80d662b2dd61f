import PgAm.WalCrash

/-! Which bytes of the segment files have been synced. Bytes are only ever written behind those
already written, so in each file the synced bytes are a leading part of its content. -/
namespace PgAm

/-- If a byte of a file is stable then so are the bytes in front of it. -/
def WalDir.Ordered (segmentSize : ℕ) (d : WalDir) : Prop :=
  ∀ p q, p ≤ q → Lsn.segmentId p segmentSize = Lsn.segmentId q segmentSize →
    d.stableAt segmentSize q ≠ none → d.stableAt segmentSize p = d.dataAt segmentSize p

def WalDir.Virgin (segmentSize pos : ℕ) (d : WalDir) : Prop :=
  ∀ p, pos ≤ p → d.dataAt segmentSize p = none

namespace WalSegmentManager

section Ordered
variable {segmentSize : ℕ}

variable {m : WalSegmentManager}

theorem ordered_modify (h : m.dir.Ordered segmentSize) {id : ℕ} {f : SegmentFile → SegmentFile}
    (hf : ∀ p q, p ≤ q → Lsn.segmentId p segmentSize = id → Lsn.segmentId q segmentSize = id →
      (f (m.dir.file id)).stable (Lsn.segmentOffset q segmentSize) ≠ none →
      (f (m.dir.file id)).stable (Lsn.segmentOffset p segmentSize) =
        (f (m.dir.file id)).data (Lsn.segmentOffset p segmentSize)) :
    (m.modifyFile id f).dir.Ordered segmentSize := by
  intro p q hpq hseg hq
  unfold WalDir.stableAt at hq ⊢
  unfold WalDir.dataAt
  rw [← hseg] at hq
  by_cases hid : Lsn.segmentId p segmentSize = id
  · rw [hid] at hq ⊢
    by_cases hmem : id ∈ m.dir.ids
    · rw [modifyFile_file_same f hmem] at hq ⊢
      exact hf p q hpq hid (hseg ▸ hid) hq
    · have hsame : (m.modifyFile id f).dir.file id = m.dir.file id := by
        simp [WalDir.modify,hmem]
      rw [hsame] at hq ⊢
      have := h p q hpq hseg
      unfold WalDir.stableAt WalDir.dataAt at this
      rw [← hseg,hid] at this
      exact this hq
  · rw [modifyFile_dir,WalDir.modify_file_other _ _ hid] at hq ⊢
    have := h p q hpq hseg
    unfold WalDir.stableAt WalDir.dataAt at this
    rw [← hseg] at this
    exact this hq

theorem ordered_touched {m' : WalSegmentManager} {id : ℕ} (h : m.dir.Ordered segmentSize)
    (ht : Touched id m m') : m'.dir.Ordered segmentSize := by
  intro p q hpq hseg hq
  rw [ht.dataAt_eq]
  rcases ht.file_stable (Lsn.segmentId p segmentSize) with hs | hs
  · unfold WalDir.stableAt at hq ⊢
    rw [← hseg,hs] at hq
    rw [hs]
    exact h p q hpq hseg (by rwa [WalDir.stableAt,← hseg])
  · rw [← ht.dataAt_eq]
    exact congrFun hs _

theorem virgin_touched {m' : WalSegmentManager} {id pos : ℕ} (h : m.dir.Virgin segmentSize pos)
    (ht : Touched id m m') : m'.dir.Virgin segmentSize pos :=
  fun p hp => (ht.dataAt_eq p).trans (h p hp)

theorem ordered_write (h : m.dir.Ordered segmentSize) {pos : ℕ}
    (hv : m.dir.Virgin segmentSize pos) (bs : List UInt8) :
    (m.modifyFile (Lsn.segmentId pos segmentSize)
      (·.write (Lsn.segmentOffset pos segmentSize) bs)).dir.Ordered segmentSize := by
  refine ordered_modify h fun p q hpq hp hq hne => ?_
  rw [SegmentFile.write_stable] at hne ⊢
  have hstable := h p q hpq (hp.trans hq.symm)
  have hself := h q q le_rfl rfl
  have hnone := hv q
  unfold WalDir.stableAt WalDir.dataAt at hstable hself
  unfold WalDir.dataAt at hnone
  rw [hq] at hself hnone hstable
  rw [hp] at hstable
  have hlt : p < pos := by
    by_contra hle
    exact hne ((hself hne).trans (hnone (by omega)))
  have hoff : Lsn.segmentOffset p segmentSize < Lsn.segmentOffset pos segmentSize := by
    unfold Lsn.segmentOffset
    unfold Lsn.segmentId at hp
    have hdp := Nat.div_add_mod p segmentSize
    have hdq := Nat.div_add_mod pos segmentSize
    rw [hp] at hdp
    omega
  rw [SegmentFile.write_data_outside _ (by omega)]
  exact hstable hne

theorem walk_ordered (hpos : 0 < segmentSize) (lsn : ℕ) (buf : List UInt8) :
    Walk segmentSize lsn buf
      (fun k m => m.dir.Ordered segmentSize ∧ m.dir.Virgin segmentSize (lsn + k))
      (fun k m => m.dir.Ordered segmentSize ∧ m.dir.Virgin segmentSize (lsn + k))
      fun _ => True where
  sync h :=
    have hs := ⟨ordered_touched h.1 (touched_sync _ _),virgin_touched h.2 (touched_sync _ _)⟩
    ⟨hs,hs⟩
  touched h _ ht := ⟨ordered_touched h.1 ht,virgin_touched h.2 ht⟩
  switch _ h _ _ := h
  write h hle hc hfit := by
    refine ⟨?_,fun p hp => ?_⟩
    · rw [hc]
      exact ordered_write h.1 h.2 _
    · rw [dataAt_write_chunk hpos hle hc hfit,if_neg (by omega)]
      exact h.2 p (by omega)
  stop _ _ := trivial

end Ordered
end WalSegmentManager

namespace WalWriter
variable {cfg : WalConfig}

theorem appendAs_ordered {name : String} {fault : Option IoFault} {r : WalRecord}
    {st st' : WriterState} {lsn : ℕ} (h : st.segmentManager.dir.Ordered cfg.walSegmentSize)
    (hv : st.segmentManager.dir.Virgin cfg.walSegmentSize st.lsnClock)
    (hok : appendAs cfg name fault r st = (.ok lsn,st')) :
    st'.segmentManager.dir.Ordered cfg.walSegmentSize := by
  unfold appendAs at hok
  split at hok
  · cases hok
  dsimp only at hok
  split at hok
  · cases hok
  split at hok
  · cases hok
  split at hok
  · rename_i buf _ _ io hio
    cases hok
    have hrun := (WalSegmentManager.walk_ordered cfg.size_pos st.lsnClock buf)
      |>.run_writeRecordToSegment (s := ⟨st.segmentManager,fault⟩) id cfg.size_pos ⟨h,hv⟩
    exact (hrun.of_ok hio).2.1.1
  · cases hok

/-- A completed wave covers what stood in the file when it began. -/
theorem syncWave_ordered {m : WalSegmentManager} (h : m.dir.Ordered cfg.walSegmentSize) {w : Wave}
    {also : ℕ → Bool} (halso : ∀ o, also o = false)
    (hbefore : ∀ p < w.coverLsn, Lsn.segmentId p cfg.walSegmentSize = w.coverSegment →
      w.snapshot (Lsn.segmentOffset p cfg.walSegmentSize) = m.dir.dataAt cfg.walSegmentSize p)
    (hbehind : ∀ p, w.coverLsn ≤ p → Lsn.segmentId p cfg.walSegmentSize = w.coverSegment →
      w.snapshot (Lsn.segmentOffset p cfg.walSegmentSize) = none) :
    (m.modifyFile w.coverSegment (syncWave w also)).dir.Ordered cfg.walSegmentSize := by
  refine WalSegmentManager.ordered_modify h fun p q hpq hp hq hne => ?_
  have hold := h p q hpq (hp.trans hq.symm)
  have hp' := hbefore p
  have hq' := hbehind q
  unfold WalDir.stableAt WalDir.dataAt at hold
  unfold WalDir.dataAt at hp'
  rw [hp,hq] at hold
  rw [hp] at hp'
  simp only [syncWave,halso,Bool.false_eq_true,false_or] at hne ⊢
  by_cases hcov : w.snapshot (Lsn.segmentOffset p cfg.walSegmentSize) =
      (m.dir.file w.coverSegment).data (Lsn.segmentOffset p cfg.walSegmentSize)
  · rw [if_pos hcov]
  rw [if_neg hcov]
  have hle : w.coverLsn ≤ p := not_lt.1 fun hlt => hcov (hp' hlt rfl)
  have hnone := hq' (hle.trans hpq) hq
  rw [hnone] at hne
  refine hold ?_
  split at hne
  · rename_i heq
    exact absurd heq.symm hne
  · exact hne

end WalWriter
end PgAm
