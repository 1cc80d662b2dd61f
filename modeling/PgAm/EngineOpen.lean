import PgAm.EngineServer

/-! What opening the engine reads from the log. The search for the front of a segment finds the
first record that starts there, unless the end of a record that reaches into the segment happens
to look like one; the analysis finds the transactions that have records in the part it reads or
are in the list it starts with. -/
namespace PgAm
namespace EngineLog

open Heap
open Engine (Entry Schema Table)
open RecordStream (Item Contiguous stop)

variable {K : Type} {cfg : Config K} {d : Disk K} {l₁ l₂ : List (Item (Record K))}

namespace Disk

def redoSegment (cfg : Config K) (d : Disk K) : ℕ := Lsn.segmentId d.redoStart cfg.segmentSize

def segStart (cfg : Config K) (d : Disk K) : ℕ := d.redoSegment cfg * cfg.segmentSize

/-- The rest of a record that reaches into the redo point's segment does not look like one. -/
def Quiet (cfg : Config K) (d : Disk K) : Prop :=
  ∀ p < d.redoStart, d.segStart cfg ≤ p → (∀ i ∈ d.log, d.segStart cfg ≤ i.pos → p < i.pos) →
    cfg.inside p = none

end Disk

theorem readFrom_eq (hc : Contiguous Lsn.first d.log) (heq : d.log = l₁ ++ l₂) :
    d.readFrom cfg (stop Lsn.first l₁) = l₂.map fun i => (i.pos,i.value) := by
  have hlen : l₂.length ≤ d.logEnd := by
    have hle := hc.length_le
    have hl : d.log.length = l₁.length + l₂.length := by rw [heq,List.length_append]
    rw [Disk.logEnd]
    omega
  rw [Disk.readFrom,Disk.decodeAt]
  rw [heq] at hc ⊢
  exact hc.readFrom_eq hlen

theorem recordsFrom_eq (hc : Contiguous Lsn.first d.log) (heq : d.log = l₁ ++ l₂) :
    d.recordsFrom cfg (stop Lsn.first l₁) = l₂.map Item.value := by
  rw [Disk.recordsFrom,readFrom_eq hc heq,List.map_map]
  rfl

section Segment

theorem segStart_le : d.segStart cfg ≤ d.redoStart :=
  Nat.div_mul_le_self d.redoStart cfg.segmentSize

theorem redoStart_lt : d.redoStart < d.segStart cfg + cfg.segmentSize := by
  have h := Nat.lt_mul_div_succ d.redoStart cfg.pos
  rw [Disk.segStart,Disk.redoSegment,Lsn.segmentId,mul_comm (d.redoStart / cfg.segmentSize)]
  rw [Nat.mul_succ] at h
  exact h

theorem segStart_le_of_segmentId {p : ℕ}
    (h : d.redoSegment cfg ≤ Lsn.segmentId p cfg.segmentSize) : d.segStart cfg ≤ p :=
  (Nat.mul_le_mul_right _ h).trans (Nat.div_mul_le_self p cfg.segmentSize)

theorem decodeAt_eq_none {p : ℕ} (hq : d.Quiet cfg) (hlt : p < d.redoStart)
    (hle : d.segStart cfg ≤ p) (hafter : ∀ i ∈ d.log, d.segStart cfg ≤ i.pos → p < i.pos) :
    d.decodeAt cfg p = none :=
  RecordStream.decodeAt_eq_none (fun i hi he => (hafter i hi (he ▸ hle)).ne' he)
    (hq p hlt hle hafter)

theorem firstRecord_eq_none (hq : d.Quiet cfg)
    (hnone : ∀ i ∈ d.log, d.segStart cfg ≤ i.pos → d.redoStart ≤ i.pos) :
    d.firstRecordLsnInSegment cfg (d.redoSegment cfg) d.redoStart = none := by
  simp only [Disk.firstRecordLsnInSegment,Option.bind_eq_none_iff]
  intro i hi
  refine if_neg fun hlt => ?_
  have hlt' : d.segStart cfg + i * lsnAlignment < d.redoStart := hlt
  have hdec := List.find?_some hi
  rw [decide_eq_true_eq] at hdec
  have hread := decodeAt_eq_none hq hlt' (Nat.le_add_right _ _) fun a ha hseg =>
    hlt'.trans_le (hnone a ha hseg)
  obtain ⟨-,hdec⟩ := hdec
  change ((d.decodeAt cfg (d.segStart cfg + i * lsnAlignment)).any _) = true at hdec
  rw [hread] at hdec
  cases hdec

theorem firstRecord_eq_some (hc : Contiguous Lsn.first d.log) (hq : d.Quiet cfg)
    {a : Item (Record K)} (heq : d.log = l₁ ++ a :: l₂)
    (hsizes : ∀ i ∈ l₁ ++ [a], walRecordHeaderSize ≤ i.size ∧ lsnAlignment ∣ i.size ∧
      i.size ≤ maxRecord)
    (hlo : ∀ i ∈ l₁, i.pos < d.segStart cfg) (hhi : d.segStart cfg ≤ a.pos)
    (hend : a.pos + a.size ≤ d.redoStart) (hseg : d.redoSegment cfg ≠ 0) :
    d.firstRecordLsnInSegment cfg (d.redoSegment cfg) d.redoStart = some a.pos := by
  have hc' := hc
  rw [heq] at hc'
  have hpos := hc'.pos_eq
  obtain ⟨hal,⟨hahead,-,hamax⟩⟩ := List.forall_mem_append.1 hsizes |>.imp id
    List.forall_mem_singleton.1
  have hsegpos : cfg.segmentSize ≤ d.segStart cfg :=
    Nat.le_mul_of_pos_left _ (Nat.pos_of_ne_zero hseg)
  have hoff : a.pos ≤ d.segStart cfg + maxRecord := by
    rcases List.eq_nil_or_concat' l₁ with rfl | ⟨l,b,rfl⟩
    · have hfirst : a.pos = Lsn.first := hpos
      have hmax : Lsn.first ≤ maxRecord := by decide
      omega
    · have hb : b ∈ l ++ [b] := List.mem_append_right _ List.mem_cons_self
      have hbpos : b.pos = stop Lsn.first l := by
        rw [List.append_assoc] at hc'
        exact hc'.pos_eq
      have hstop : a.pos = b.pos + b.size := by
        rw [hpos,RecordStream.stop_append,← hbpos]
        rfl
      have hlt := hlo b hb
      have hmax := (hal b hb).2.2
      omega
  have hdvd : lsnAlignment ∣ a.pos - d.segStart cfg := by
    refine Nat.dvd_sub ?_ ((cfg.dvd).trans (Nat.dvd_mul_left ..))
    rw [hpos]
    exact RecordStream.dvd_stop (dvd_refl _) fun i hi => (hal i hi).2.1
  obtain ⟨i,hi⟩ := hdvd
  have hi' : d.segStart cfg + i * lsnAlignment = a.pos := by
    rw [mul_comm,← hi]
    omega
  have hwindow : a.pos + a.size ≤ d.segStart cfg + min (2 * maxRecord) cfg.segmentSize := by
    have hlt := @redoStart_lt _ cfg d
    omega
  have hfound : (List.range (maxRecord / lsnAlignment + 1)).find? (fun i =>
      (decide (i * lsnAlignment + walRecordHeaderSize ≤ min (2 * maxRecord) cfg.segmentSize ∧
        (d.decodeAt cfg (d.segStart cfg + i * lsnAlignment)).any fun r =>
          r.2 ≤ d.segStart cfg + min (2 * maxRecord) cfg.segmentSize)) = true) = some i := by
    refine List.find?_range_eq_some.2 ⟨?_,?_,fun j hj => ?_⟩
    · have hread : d.decodeAt cfg a.pos = some (a.value,a.pos + a.size) := by
        rw [Disk.decodeAt]
        rw [heq] at hc ⊢
        exact hc.decodeAt_eq
      rw [hi',hread]
      refine decide_eq_true (decide_eq_true ⟨?_,decide_eq_true hwindow⟩)
      omega
    · rw [List.mem_range]
      have hle : i * lsnAlignment ≤ maxRecord := by omega
      exact Nat.lt_succ_of_le ((Nat.le_div_iff_mul_le (by decide)).2 hle)
    · have hlt : d.segStart cfg + j * lsnAlignment < a.pos := by
        rw [← hi']
        exact Nat.add_lt_add_left (Nat.mul_lt_mul_of_pos_right hj (by decide)) _
      have hread : d.decodeAt cfg (d.segStart cfg + j * lsnAlignment) = none := by
        refine decodeAt_eq_none hq (by omega) (Nat.le_add_right _ _) fun b hb hle => ?_
        rw [heq] at hb
        rcases List.mem_append.1 hb with hb | hb
        · exact absurd (hlo b hb) (not_lt.2 hle)
        · exact hlt.trans_le (hpos ▸ hc'.after hb)
      rw [hread]
      simp
  have hlt : a.pos < d.redoStart :=
    (Nat.lt_add_of_pos_right (Nat.lt_of_lt_of_le (by decide) hahead)).trans_le hend
  rw [Disk.firstRecordLsnInSegment]
  change (List.find? _ _).bind _ = _
  simp only [decide_eq_true_eq] at hfound
  change List.find? (fun i => decide (i * lsnAlignment + walRecordHeaderSize ≤ _ ∧ _)) _ = _
    at hfound
  rw [show d.redoSegment cfg * cfg.segmentSize = d.segStart cfg from rfl,hfound,Option.bind_some,
    hi',if_pos hlt]

/-- The search reads all records that start in the segment of the redo point or later. -/
theorem scanStart_spec (hc : Contiguous Lsn.first d.log) (hq : d.Quiet cfg)
    (heq : d.log = l₁ ++ l₂) (hredo : d.redoStart = stop Lsn.first l₁)
    (hsizes : ∀ i ∈ l₁, walRecordHeaderSize ≤ i.size ∧ lsnAlignment ∣ i.size ∧
      i.size ≤ maxRecord) :
    ∃ m₁ m₂, d.log = m₁ ++ m₂ ∧ d.scanStart cfg = stop Lsn.first m₁ ∧
      ∀ i ∈ d.log, d.redoSegment cfg ≤ Lsn.segmentId i.pos cfg.segmentSize → i ∈ m₂ := by
  by_cases hseg : d.redoSegment cfg = 0
  · exact ⟨[],d.log,rfl,if_pos hseg,fun i hi _ => hi⟩
  have hstart : d.scanStart cfg = (d.firstRecordLsnInSegment cfg (d.redoSegment cfg)
      d.redoStart).getD d.redoStart := if_neg hseg
  have hcl := hc
  rw [heq] at hcl
  have hback : ∀ i ∈ l₂, d.redoStart ≤ i.pos := fun i hi => hredo ▸ hcl.after hi
  by_cases hfront : ∃ i ∈ d.log, d.segStart cfg ≤ i.pos ∧ i.pos < d.redoStart
  · obtain ⟨i,hi,hle,hlt⟩ := hfront
    obtain ⟨m₁,m₂,hm,hlo,hhi⟩ := RecordStream.exists_split (d.segStart cfg) hc
    have hmem : ∀ j ∈ d.log, d.segStart cfg ≤ j.pos → j ∈ m₂ := fun j hj hle => by
      rw [hm] at hj
      exact (List.mem_append.1 hj).resolve_left fun h => absurd (hlo j h) (not_lt.2 hle)
    cases m₂ with
    | nil => cases hmem i hi hle
    | cons a m₂ =>
      have hcm := hc
      rw [hm] at hcm
      have ha := hcm.pos_eq
      have hai : a.pos ≤ i.pos := ha ▸ hcm.after (hmem i hi hle)
      have hin : ∀ j ∈ m₁ ++ [a], j ∈ l₁ := fun j hj => by
        have hjlog : j ∈ d.log := by
          rw [hm]
          exact (List.mem_append.1 hj).elim (fun h => List.mem_append_left _ h) fun h =>
            List.mem_append_right _ (List.mem_singleton.1 h ▸ List.mem_cons_self)
        have hjlt : j.pos < d.redoStart := by
          rcases List.mem_append.1 hj with hj | hj
          · exact (hlo j hj).trans_le segStart_le
          · rw [List.mem_singleton.1 hj]
            exact hai.trans_lt hlt
        rw [heq] at hjlog
        exact (List.mem_append.1 hjlog).resolve_right fun h => absurd (hback j h) (not_le.2 hjlt)
      have haend : a.pos + a.size ≤ d.redoStart := by
        have ha₁ := hin a (List.mem_append_right _ List.mem_cons_self)
        rw [hredo]
        exact ((RecordStream.contiguous_append.1 hcl).1.bounds ha₁).2.2
      refine ⟨m₁,a :: m₂,hm,?_,fun j hj hs => hmem j hj (segStart_le_of_segmentId hs)⟩
      rw [hstart,firstRecord_eq_some hc hq hm (fun j hj => hsizes j (hin j hj)) hlo
        (hhi a List.mem_cons_self) haend hseg,Option.getD_some,ha]
  · refine ⟨l₁,l₂,heq,?_,fun i hi hs => ?_⟩
    · rw [hstart,firstRecord_eq_none hq fun i hi hle => not_lt.1 fun hlt => hfront ⟨i,hi,hle,hlt⟩,
        Option.getD_none,hredo]
    · have hle := segStart_le_of_segmentId hs
      have hi' := hi
      rw [heq] at hi'
      refine (List.mem_append.1 hi').resolve_left fun h => hfront ⟨i,hi,hle,?_⟩
      rw [hredo]
      obtain ⟨-,hpos,hend⟩ := (RecordStream.contiguous_append.1 hcl).1.bounds h
      omega

end Segment

section Analysis

variable {rs : List (Record K)} {att : List ℕ} {x : ℕ} {r : Record K}

theorem mem_analyze (hend : r.ends ≠ some x) (h : x ∈ att ∨ (r.txnId = x ∧ x ≠ TxnId.invalid)) :
    x ∈ Disk.analyze att r := by
  rw [Disk.analyze]
  split
  · rename_i y hy
    have hxy : x ≠ y := by
      rintro rfl
      exact hend hy
    refine List.mem_filter.2 ⟨h.resolve_right ?_,decide_eq_true hxy⟩
    rintro ⟨rfl,-⟩
    cases r <;> cases hy
    · exact hxy rfl
    · exact hxy rfl
  · split
    · rename_i hr
      exact h.resolve_right fun ⟨he,hne⟩ => hne (he.symm.trans hr)
    · by_cases hx : x = r.txnId
      · exact hx ▸ List.mem_cons_self
      · refine List.mem_cons_of_mem _ (List.mem_filter.2 ⟨h.resolve_right ?_,decide_eq_true hx⟩)
        rintro ⟨rfl,-⟩
        exact hx rfl

/-- A transaction without an end is found in the list or by a record. -/
theorem mem_foldl_analyze (hend : ∀ r ∈ rs, r.ends ≠ some x)
    (h : x ∈ att ∨ ∃ r ∈ rs, r.txnId = x ∧ x ≠ TxnId.invalid) : x ∈ rs.foldl Disk.analyze att := by
  induction rs generalizing att with
  | nil => exact h.resolve_right nofun
  | cons r rs ih =>
    obtain ⟨hr,hrs⟩ := List.forall_mem_cons.1 hend
    refine ih hrs ?_
    rcases h with h | ⟨r',hr',hx⟩
    · exact .inl (mem_analyze hr (.inl h))
    · rcases List.mem_cons.1 hr' with rfl | hr'
      · exact .inl (mem_analyze hr (.inr hx))
      · exact .inr ⟨r',hr',hx⟩

theorem findLatest_append (rs' : List (Record K)) : Disk.findLatestCheckpointEnd (rs ++ rs') =
    (Disk.findLatestCheckpointEnd rs').or (Disk.findLatestCheckpointEnd rs) := by
  induction rs with
  | nil => exact (Option.or_none).symm
  | cons r rs ih =>
    cases r with
    | checkpointEnd b =>
      change Option.or (Disk.findLatestCheckpointEnd (rs ++ rs')) _ = Option.or _ (Option.or _ _)
      rw [ih,Option.or_assoc]
    | extend _ | heapInsert _ _ _ _ | heapDelete _ _ | heapUpdate _ _ _ _ _
    | heapHotUpdate _ _ _ _ _ _ | index _ | txnCommit _ | txnAbort _ | checkpointBegin | page =>
      exact ih

theorem findLatest_isSome {b : ℕ} (h : .checkpointEnd b ∈ rs) :
    ∃ b', Disk.findLatestCheckpointEnd rs = some b' := by
  obtain ⟨l,l',rfl⟩ := List.append_of_mem h
  rw [findLatest_append]
  change ∃ b', Option.or (Option.or _ (some b)) _ = some b'
  cases Disk.findLatestCheckpointEnd l' with
  | none => exact ⟨b,rfl⟩
  | some b' => exact ⟨b',rfl⟩

end Analysis

end EngineLog
end PgAm
