import PgAm.Checksum
import PgAm.WalReadBack

/-! A byte of the log is changed on the disk. A record that fails its checksum passes for the torn
end of the log only if nothing but zeros follows it; a complete record behind it starts with its
position, which is not zero, so the damage is reported. -/
namespace PgAm

open WalWriter (openSegments openWithScanStart)

def WalDir.setByte (d : WalDir) (segmentSize p : ℕ) (b : UInt8) : WalDir :=
  d.modify (Lsn.segmentId p segmentSize) fun f =>
    { f with data := Function.update f.data (Lsn.segmentOffset p segmentSize) (some b) }

namespace WalReader

variable {segmentSize : ℕ} {d : WalDir} {p : ℕ} {b : UInt8}

theorem setByte_len (id : ℕ) : ((d.setByte segmentSize p b).file id).len = (d.file id).len := by
  simp only [WalDir.setByte,WalDir.modify]
  split <;> rfl

theorem readByte_setByte_of_ne {q : ℕ} (h : q ≠ p) :
    readByte segmentSize (d.setByte segmentSize p b) q = readByte segmentSize d q := by
  have hdata : ((d.setByte segmentSize p b).file (Lsn.segmentId q segmentSize)).data
      (Lsn.segmentOffset q segmentSize) =
      (d.file (Lsn.segmentId q segmentSize)).data (Lsn.segmentOffset q segmentSize) := by
    simp only [WalDir.setByte,WalDir.modify]
    split
    · rename_i hid
      refine Function.update_of_ne (fun hoff => h ?_) _ _
      rw [← Nat.div_add_mod q segmentSize,← Nat.div_add_mod p segmentSize]
      exact congrArg₂ (segmentSize * · + ·) hid.1 hoff
    · rfl
  simp only [readByte,setByte_len,hdata]
  rfl

theorem readByte_setByte_same {c : UInt8} (h : readByte segmentSize d p = some c) :
    readByte segmentSize (d.setByte segmentSize p b) p = some b := by
  unfold readByte at h ⊢
  simp only [Option.ite_none_right_eq_some,setByte_len] at h ⊢
  refine ⟨h.1,?_⟩
  simp only [WalDir.setByte]
  rw [WalDir.modify_file_same d _ h.1.1]
  simp

theorem tryReadExact_setByte_of_outside {q n : ℕ} (h : p < q ∨ q + n ≤ p) :
    tryReadExact segmentSize (d.setByte segmentSize p b) q n = tryReadExact segmentSize d q n := by
  induction n generalizing q with
  | zero => rfl
  | succ n ih => rw [tryReadExact,tryReadExact,readByte_setByte_of_ne (by omega),ih (by omega)]

theorem tryReadExact_setByte {q i : ℕ} {bs : List UInt8}
    (h : tryReadExact segmentSize d q bs.length = some bs) (hi : i < bs.length) :
    tryReadExact segmentSize (d.setByte segmentSize (q + i) b) q bs.length =
      some (bs.set i b) := by
  obtain ⟨-,hall⟩ := tryReadExact_iff.1 h
  refine tryReadExact_iff.2 ⟨List.length_set,fun j hj => ?_⟩
  rw [List.getElem?_set]
  split
  · rename_i he
    subst he
    have hbyte := hall i hi
    rw [List.getElem?_eq_getElem hi] at hbyte
    exact readByte_setByte_same hbyte
  · rw [readByte_setByte_of_ne (by omega),hall j hj]

end WalReader

namespace WalRecord

variable {crc32 : List UInt8 → UInt32} {r : WalRecord} {buf : List UInt8}

def covered (buf : List UInt8) : List UInt8 := buf.take 28 ++ buf.drop 32

theorem fromLe_injective {bs cs : List UInt8} (hlen : bs.length = cs.length)
    (h : fromLe bs = fromLe cs) : bs = cs := by
  induction bs generalizing cs with
  | nil => exact (List.length_eq_zero_iff.1 hlen.symm).symm
  | cons b bs ih =>
    cases cs with
    | nil => cases hlen
    | cons c cs =>
      have hb := b.toNat_lt
      have hc := c.toNat_lt
      simp only [fromLe] at h
      have hhead : b.toNat = c.toNat := by omega
      rw [UInt8.toNat_inj.1 hhead,ih (Nat.succ.inj hlen) (by omega)]

theorem crc_encode (h : r.encode crc32 = .ok buf) :
    (crc32 (covered buf)).toNat = fromLe ((buf.drop 28).take 4) := by
  rw [covered,take_header h,drop_header h,(encode_fields h).2.2.2.2.2.2]
  exact (fromLe_leBytes (by simpa using UInt32.toNat_lt _)).symm

theorem payloadLen_set {i : ℕ} {b : UInt8} (hi : i ≠ 26 ∧ i ≠ 27) :
    payloadLen (buf.set i b) = payloadLen buf := by
  have hbytes : ((buf.set i b).drop 26).take 2 = (buf.drop 26).take 2 := by
    refine List.ext_getElem? fun j => ?_
    simp only [List.getElem?_take,List.getElem?_drop,List.getElem?_set]
    split
    · rw [if_neg (by omega)]
    · rfl
  rw [payloadLen,payloadLen,hbytes]

theorem covered_set {i : ℕ} {b : UInt8} (hi : i < buf.length) (hcrc : i < 28 ∨ 32 ≤ i) :
    ∃ j, j < (covered buf).length ∧ (covered buf)[j]? = buf[i]? ∧
      covered (buf.set i b) = (covered buf).set j b := by
  rcases hcrc with hlt | hle
  · refine ⟨i,?_,?_,?_⟩
    · simp only [covered,List.length_append,List.length_take]
      omega
    · rw [covered,List.getElem?_append_left (by rw [List.length_take]; omega),List.getElem?_take,
        if_pos hlt]
    · rw [covered,covered,List.set_append_left _ _ (by rw [List.length_take]; omega),
        List.take_set,List.drop_set_of_lt (by omega)]
  · have hlen : (buf.take 28).length = 28 := List.length_take_of_le (by omega)
    refine ⟨i - 4,?_,?_,?_⟩
    · simp only [covered,List.length_append,hlen,List.length_drop]
      omega
    · rw [covered,List.getElem?_append_right (by omega),hlen,List.getElem?_drop]
      congr 1
      omega
    · rw [covered,covered,List.set_append_right _ _ (by omega),hlen,List.take_set_of_le (by omega),
        List.drop_set,if_neg (by omega)]
      congr 2

theorem crcFails_set (hdet : DetectsByte crc32) (h : r.encode crc32 = .ok buf) {i : ℕ} {b : UInt8}
    (hi : i < buf.length) (hlen : i ≠ 26 ∧ i ≠ 27) (hb : buf[i]? ≠ some b) :
    CrcFails crc32 (buf.set i b) := by
  have htotal : total (buf.set i b) = (buf.set i b).length := by
    rw [total,payloadLen_set hlen,List.length_set,encode_length crc32 h,← total_encode h]
    rfl
  have hfails : (crc32 (covered (buf.set i b))).toNat ≠
      fromLe (((buf.set i b).drop 28).take 4) := by
    by_cases hcrc : i < 28 ∨ 32 ≤ i
    · obtain ⟨j,hj,hget,hset⟩ := @covered_set buf i b hi hcrc
      have hstored : ((buf.set i b).drop 28).take 4 = (buf.drop 28).take 4 := by
        refine List.ext_getElem? fun k => ?_
        simp only [List.getElem?_take,List.getElem?_drop,List.getElem?_set]
        split
        · rw [if_neg (by omega)]
        · rfl
      rw [hset,hstored,← crc_encode h]
      intro heq
      exact hdet (covered buf) j b hj (by rwa [hget]) (UInt32.toNat_inj.1 heq)
    · have hcov : covered (buf.set i b) = covered buf := by
        rw [covered,covered,List.take_set_of_le (by omega),List.drop_set_of_lt (by omega)]
      rw [hcov,crc_encode h]
      intro heq
      have hsame := fromLe_injective (by simp) heq
      have hget := congrArg (·[i - 28]?) hsame
      simp only [List.getElem?_take,List.getElem?_drop,show 28 + (i - 28) = i by omega,
        if_pos (show i - 28 < 4 by omega)] at hget
      rw [List.getElem?_set,if_pos rfl,if_pos hi] at hget
      exact hb hget
  unfold CrcFails
  rw [htotal,List.take_length]
  exact hfails

theorem toU8_ne_zero (t : WalRecordType) : t.toU8 ≠ 0 := by
  cases t <;> decide

theorem header_set_nonzero (hf : r.Fits) (h : r.encode crc32 = .ok buf) (hlsn : r.lsn ≠ 0)
    (i : ℕ) (b : UInt8) : ¬((buf.set i b).take walRecordHeaderSize).all (· == 0) = true := by
  have hlen : 32 ≤ buf.length := by
    rw [encode_length crc32 h,← total_encode h]
    exact header_le_total buf
  by_cases hi : i < 8
  · intro hz
    have htype : (buf.set i b)[24]? = some r.recordType.toU8 := by
      have hget := (encode_fields h).2.2.2.1
      rw [List.getD_eq_getElem?_getD,List.getElem?_eq_getElem (by omega),Option.getD_some] at hget
      rw [List.getElem?_set,if_neg (by omega),List.getElem?_eq_getElem (by omega),hget]
    have hmem : r.recordType.toU8 ∈ (buf.set i b).take walRecordHeaderSize := by
      refine List.mem_of_getElem? (i := 24) ?_
      rw [List.getElem?_take,if_pos (by decide),htype]
    exact toU8_ne_zero _ (by simpa using List.all_eq_true.1 hz _ hmem)
  · refine WalReader.header_nonzero ?_
    rw [List.take_set_of_le (by omega),(encode_fields h).1,fromLe_leBytes hf.lsn]
    exact hlsn

end WalRecord

namespace WalReader

variable {segmentSize : ℕ} {crc32 : List UInt8 → UInt32} {d : WalDir}

theorem zeroToEnd_before {r : WalRecord} {buf : List UInt8} {p : ℕ} (hpos : 0 < segmentSize)
    (hf : r.Fits) (henc : r.encode crc32 = .ok buf) (hlsn : r.lsn ≠ 0)
    (hread : tryReadExact segmentSize d p buf.length = some buf) :
    zeroToEnd segmentSize d (streamBound segmentSize d) p = false := by
  have hlen : 0 < buf.length := by
    rw [WalRecord.encode_length crc32 henc]
    exact WalRecord.recordSize_pos r
  obtain ⟨-,hall⟩ := tryReadExact_iff.1 hread
  have hlast := hall (buf.length - 1) (by omega)
  rw [List.getElem?_eq_getElem (by omega)] at hlast
  have hbound := lt_streamBound hpos hlast
  have hfuel : streamBound segmentSize d =
      buf.length + (streamBound segmentSize d - buf.length) := by omega
  have hnz : buf.all (· == 0) = false := by
    rw [Bool.eq_false_iff]
    intro hz
    refine hlsn ?_
    rw [← fromLe_leBytes hf.lsn,← (WalRecord.encode_fields henc).1]
    exact fromLe_eq_zero (List.all_eq_true.2 fun b hb =>
      List.all_eq_true.1 hz b (List.mem_of_mem_take hb))
  rw [hfuel,zeroToEnd_of_read hread,hnz,Bool.false_and]

/-- A damaged record in front of a complete one is an error. -/
theorem nextRecord_damaged {x y : WalRecord} {bx bz : List UInt8} {p i : ℕ} {b : UInt8}
    (hpos : 0 < segmentSize) (hdet : DetectsByte crc32)
    (hx : x.Fits) (hencx : x.encode crc32 = .ok bx) (hlsnx : x.lsn ≠ 0)
    (hy : y.Fits) (hency : y.encode crc32 = .ok bz) (hlsny : y.lsn ≠ 0)
    (hi : i < bx.length) (hlen : i ≠ 26 ∧ i ≠ 27) (hb : bx[i]? ≠ some b)
    (hreadx : tryReadExact segmentSize d p bx.length = some (bx.set i b))
    (hready : tryReadExact segmentSize d (p + bx.length) bz.length = some bz) :
    ∃ l, nextRecord segmentSize crc32 d p = .error (.walCorrupted l) := by
  have htotal : WalRecord.total (bx.set i b) = bx.length := by
    rw [WalRecord.total,WalRecord.payloadLen_set hlen,WalRecord.encode_length crc32 hencx,
      ← WalRecord.total_encode hencx]
    rfl
  have hheader : ∀ header, tryReadExact segmentSize d p walRecordHeaderSize = some header →
      header = (bx.set i b).take walRecordHeaderSize := fun header hh =>
    (Option.some.inj ((tryReadExact_take hreadx
      (htotal ▸ WalRecord.header_le_total _)).symm.trans hh)).symm
  obtain ⟨l,hl⟩ := WalRecord.decode_of_crcFails (WalRecord.crcFails_set hdet hencx hi hlen hb)
    (by rw [htotal,List.length_set])
  rw [htotal,List.take_of_length_le (by rw [List.length_set])] at hl
  rw [nextRecord_nonzero hheader (WalRecord.header_set_nonzero hx hencx hlsnx i b),htotal,hreadx]
  simp only [hl]
  refine ⟨l,if_neg ?_⟩
  rw [isTornTail,zeroToEnd_before hpos hy hency hlsny hready,Bool.and_false]
  exact Bool.false_ne_true

end WalReader

namespace WalCrash

open WalSystem (Logged logged)

variable {cfg : WalConfig}

/-- All records of `log` stand in the files; those of `gone` may have been recycled. -/
structure Written (cfg : WalConfig) (d : WalDir) (gone log : List Logged) : Prop where
  contiguous : RecordStream.Contiguous Lsn.first ((gone ++ log).map item)
  encoded : ∀ r ∈ gone ++ log, r.record.lsn = r.lsn ∧ r.record.encode cfg.crc32 = .ok r.bytes ∧
    r.record.Fits
  stored : Holds cfg d log
  len : ∀ id ∈ d.ids, (d.file id).len = cfg.walSegmentSize

theorem Run.written {calls : List (Entry × WalRecord)} {s : Sys} (h : Run cfg calls s) :
    Written cfg s.writer.segmentManager.dir [] s.log := by
  obtain ⟨w,hw,hdir,-⟩ := h.files
  rw [← hdir]
  exact { hw.inv with len := fun id hid => hw.inv.ready.laid.len id (hw.inv.ready.laid.le id hid) }

def resumeStart (cfg : WalConfig) (d : WalDir) (scanStartHint : ℕ) : ℕ :=
  let oldest := d.discoverOldestSegmentId
  let oldestStart := if oldest = 0 then Lsn.first else oldest * cfg.walSegmentSize
  if Lsn.isValid scanStartHint ∧ oldestStart < scanStartHint then scanStartHint else oldestStart

theorem open_of_error {d : WalDir} {hint : ℕ} {rs : List WalRecord} {e : StorageError}
    (hpos : 0 < resumeStart cfg (openSegments cfg d).dir hint)
    (hopen : WalReader.openAt cfg.walSegmentSize (openSegments cfg d).dir
      (resumeStart cfg (openSegments cfg d).dir hint) = .ok ())
    (hy : WalReader.Yields cfg.walSegmentSize cfg.crc32 (openSegments cfg d).dir
      (resumeStart cfg (openSegments cfg d).dir hint) rs (.error e)) :
    openWithScanStart cfg d hint = .error e := by
  have hscan : WalWriter.discoverResumeLsn cfg (openSegments cfg d).dir hint =
      .error e := by
    change (WalReader.openAt cfg.walSegmentSize (openSegments cfg d).dir
      (resumeStart cfg (openSegments cfg d).dir hint) >>= fun _ => _) = _
    rw [hopen]
    exact hy.scanEnd_eq (hy.length_lt cfg.size_pos hpos)
  unfold openWithScanStart
  simp only [hscan]
  rfl

theorem openSegments_full {d : WalDir} {id : ℕ} (hid : id ∈ d.ids)
    (hlen : ∀ id ∈ d.ids, (d.file id).len = cfg.walSegmentSize) :
    (openSegments cfg d).dir.ids = d.ids ∧
      ∀ p, WalReader.readByte cfg.walSegmentSize (openSegments cfg d).dir p =
        WalReader.readByte cfg.walSegmentSize d p := by
  have hlatest := d.discoverLatestSegmentId_mem hid
  have hcreate : d.create d.discoverLatestSegmentId = d := by
    unfold WalDir.create
    simp only [if_pos hlatest]
  have hfull : (d.file d.discoverLatestSegmentId).len = cfg.walSegmentSize := hlen _ hlatest
  have hdir : (openSegments cfg d).dir =
      d.modify d.discoverLatestSegmentId SegmentFile.syncAll := by
    unfold openSegments
    simp only [hcreate,hfull,ne_eq,not_true,if_false]
    rw [WalSegmentManager.modifyFile_dir]
  rw [hdir]
  refine ⟨rfl,fun p => ?_⟩
  have hfile : ∀ j, ((d.modify d.discoverLatestSegmentId SegmentFile.syncAll).file j).len =
      (d.file j).len ∧ ((d.modify d.discoverLatestSegmentId SegmentFile.syncAll).file j).data =
      (d.file j).data := by
    intro j
    simp only [WalDir.modify]
    split <;> exact ⟨rfl,rfl⟩
  simp only [WalReader.readByte,(hfile _).1,(hfile _).2]
  rfl

theorem resumeStart_congr {d d' : WalDir} (h : d'.ids = d.ids) (hint : ℕ) :
    resumeStart cfg d' hint = resumeStart cfg d hint := by
  unfold resumeStart WalDir.discoverOldestSegmentId
  rw [h]

/-- The log after byte `i` of the record `x` became `b`. -/
structure Damaged (cfg : WalConfig) (d : WalDir) (before : List Logged) (x y : Logged) (i : ℕ)
    (b : UInt8) : Prop where
  before : Holds cfg d before
  damaged : WalReader.tryReadExact cfg.walSegmentSize d x.lsn x.bytes.length =
    some (x.bytes.set i b)
  behind : WalReader.tryReadExact cfg.walSegmentSize d y.lsn y.bytes.length = some y.bytes

theorem Damaged.congr {d d' : WalDir} {before : List Logged} {x y : Logged} {i : ℕ} {b : UInt8}
    (h : Damaged cfg d before x y i b)
    (hbytes : ∀ p, WalReader.readByte cfg.walSegmentSize d' p =
      WalReader.readByte cfg.walSegmentSize d p) : Damaged cfg d' before x y i b := by
  have hsame : ∀ p n, WalReader.tryReadExact cfg.walSegmentSize d' p n =
      WalReader.tryReadExact cfg.walSegmentSize d p n := by
    intro p n
    induction n generalizing p with
    | zero => rfl
    | succ n ih => rw [WalReader.tryReadExact,WalReader.tryReadExact,hbytes,ih]
  exact ⟨fun r hr => (hsame _ _).trans (h.before r hr),(hsame _ _).trans h.damaged,
    (hsame _ _).trans h.behind⟩

section Log
variable {d : WalDir} {gone l₁ l₂ l₃ : List Logged} {x y : Logged} {i : ℕ} {b : UInt8}

theorem Written.positions (h : Written cfg d gone (l₁ ++ (l₂ ++ x :: y :: l₃))) :
    RecordStream.Contiguous Lsn.first (((gone ++ l₁) ++ l₂).map item) ∧
      x.lsn = stop ((gone ++ l₁) ++ l₂) ∧ y.lsn = x.lsn + x.bytes.length := by
  have hsplit : gone ++ (l₁ ++ (l₂ ++ x :: y :: l₃)) = ((gone ++ l₁) ++ l₂) ++ x :: y :: l₃ := by
    simp
  have hcont := h.contiguous
  rw [hsplit,List.map_append,RecordStream.contiguous_append,List.map_cons,List.map_cons] at hcont
  obtain ⟨hfront,hx,-,hy,-⟩ := hcont
  have hlsn : x.lsn = stop ((gone ++ l₁) ++ l₂) := hx
  refine ⟨hfront,hlsn,?_⟩
  rw [hlsn]
  exact hy

theorem Written.damaged (h : Written cfg d gone (l₁ ++ (l₂ ++ x :: y :: l₃)))
    (hi : i < x.bytes.length) :
    Damaged cfg (d.setByte cfg.walSegmentSize (x.lsn + i) b) l₂ x y i b := by
  obtain ⟨hfront,hx,hy⟩ := h.positions
  refine ⟨fun r hr => ?_,WalReader.tryReadExact_setByte (h.stored x (by simp)) hi,?_⟩
  · have hle : r.lsn + r.bytes.length ≤ x.lsn := by
      rw [hx]
      exact (hfront.bounds (List.mem_map_of_mem (List.mem_append_right _ hr))).2.2
    rw [WalReader.tryReadExact_setByte_of_outside (.inr (by omega))]
    exact h.stored r (by simp [hr])
  · rw [WalReader.tryReadExact_setByte_of_outside (.inl (by omega))]
    exact h.stored y (by simp)

/-- Reading from a boundary in front of the damage ends in an error. -/
theorem Written.yields_damaged (hdet : DetectsByte cfg.crc32)
    (h : Written cfg d gone (l₁ ++ (l₂ ++ x :: y :: l₃))) (hi : i < x.bytes.length)
    (hlen : i ≠ 26 ∧ i ≠ 27) (hb : x.bytes[i]? ≠ some b) {d' : WalDir}
    (hd : Damaged cfg d' l₂ x y i b) :
    ∃ e, WalReader.Yields cfg.walSegmentSize cfg.crc32 d' (stop (gone ++ l₁))
      (l₂.map Logged.record) (.error e) := by
  obtain ⟨hfront,hlsnx,hlsny⟩ := h.positions
  obtain ⟨hx₁,hx₂,hx₃⟩ := h.encoded x (by simp)
  obtain ⟨hy₁,hy₂,hy₃⟩ := h.encoded y (by simp)
  have hxpos : x.lsn ≠ 0 := by
    rw [hlsnx]
    exact (stop_pos _).ne'
  have hypos : y.lsn ≠ 0 := by omega
  have hbehind := hd.behind
  rw [hlsny] at hbehind
  obtain ⟨l,hl⟩ := WalReader.nextRecord_damaged cfg.size_pos hdet hx₃ hx₂ (by rwa [hx₁]) hy₃ hy₂
    (by rwa [hy₁]) hi hlen hb hd.damaged hbehind
  rw [hlsnx] at hl
  have hyields := yields_log hfront (fun r hr => h.encoded r (by simp [hr])) hd.before (.fail hl)
  rw [List.append_nil] at hyields
  exact ⟨_,hyields⟩

theorem Written.openAt {l : List Logged} (h : Written cfg d gone (l₁ ++ l)) (hl : l ≠ [])
    {d' : WalDir} (hids : d'.ids = d.ids) :
    Lsn.segmentId (stop (gone ++ l₁)) cfg.walSegmentSize ∈ d'.ids ∧
      WalReader.openAt cfg.walSegmentSize d' (stop (gone ++ l₁)) = .ok () := by
  have hmem : Lsn.segmentId (stop (gone ++ l₁)) cfg.walSegmentSize ∈ d'.ids := by
    obtain ⟨z,l,rfl⟩ := List.exists_cons_of_ne_nil hl
    have hcont := h.contiguous
    rw [← List.append_assoc,List.map_append,List.map_cons] at hcont
    have hpos : z.lsn = stop (gone ++ l₁) := hcont.pos_eq
    have hsize : 0 < z.bytes.length := (hcont.bounds (a := item z) (by simp)).2.1
    obtain ⟨-,hall⟩ := WalReader.tryReadExact_iff.1 (h.stored z (by simp))
    have hbyte := hall 0 hsize
    rw [List.getElem?_eq_getElem hsize,hpos] at hbyte
    rw [hids]
    exact segment_of_readByte hbyte
  have halign : 8 ∣ stop (gone ++ l₁) := by
    refine RecordStream.dvd_stop (by decide) fun a ha => ?_
    obtain ⟨r,hr,rfl⟩ := List.mem_map.1 ha
    have henc := (h.encoded r (by rw [← List.append_assoc]; exact List.mem_append_left _ hr)).2.1
    change 8 ∣ r.bytes.length
    rw [WalRecord.encode_length cfg.crc32 henc]
    exact dvd_alignUp _ _
  have hmod : stop (gone ++ l₁) % lsnAlignment = 0 := Nat.mod_eq_zero_of_dvd halign
  have hvalid : Lsn.isValid (stop (gone ++ l₁)) = true := by
    simpa [Lsn.isValid] using (stop_pos (gone ++ l₁)).ne'
  refine ⟨hmem,?_⟩
  rw [WalReader.openAt,if_neg,if_pos hmem]
  rw [hvalid,hmod]
  simp

/-- If one byte of a record that is not the last one is changed, its length field apart, then a
reader gets the records up to it and then an error, and an opening that scans from there fails. -/
theorem damage_not_silent (hdet : DetectsByte cfg.crc32)
    (h : Written cfg d gone (l₁ ++ (l₂ ++ x :: y :: l₃))) (hi : i < x.bytes.length)
    (hlen : i ≠ 26 ∧ i ≠ 27) (hb : x.bytes[i]? ≠ some b) :
    (∃ rd e, SegmentReader.openAt cfg.walSegmentSize
        (d.setByte cfg.walSegmentSize (x.lsn + i) b) (stop (gone ++ l₁)) = .ok rd ∧
      ∀ short, SegmentReader.nextRecords cfg.walSegmentSize cfg.crc32
        (d.setByte cfg.walSegmentSize (x.lsn + i) b) short (l₂.length + 1) rd =
          l₂.map (fun r => .ok (some r.record)) ++ [.error e]) ∧
    ∀ hint, resumeStart cfg (d.setByte cfg.walSegmentSize (x.lsn + i) b) hint =
        stop (gone ++ l₁) →
      ∃ e, openWithScanStart cfg (d.setByte cfg.walSegmentSize (x.lsn + i) b) hint =
        .error e := by
  have hdamaged := @Written.damaged cfg d gone l₁ l₂ l₃ x y i b h hi
  set d' := d.setByte cfg.walSegmentSize (x.lsn + i) b
  have hne : l₂ ++ x :: y :: l₃ ≠ [] := by simp
  obtain ⟨hmem,hopen⟩ := h.openAt hne (show d'.ids = d.ids from rfl)
  constructor
  · obtain ⟨e,he⟩ := h.yields_damaged hdet hi hlen hb hdamaged
    refine ⟨⟨Lsn.segmentId (stop (gone ++ l₁)) cfg.walSegmentSize,stop (gone ++ l₁)⟩,e,?_,?_⟩
    · rw [SegmentReader.openAt,hopen]
      rfl
    · intro short
      have hcalls := @SegmentReader.nextRecords_of_error _ _ _ cfg.size_pos short _ _ _
        ⟨_,_⟩ hmem rfl he
      rw [List.length_map,List.map_map] at hcalls
      exact hcalls
  · intro hint hstart
    have hfull : ∀ id ∈ d'.ids, (d'.file id).len = cfg.walSegmentSize := fun id hid =>
      (WalReader.setByte_len id).trans (h.len id hid)
    obtain ⟨hids,hbytes⟩ := openSegments_full hmem hfull
    obtain ⟨e,he⟩ := h.yields_damaged hdet hi hlen hb (hdamaged.congr hbytes)
    have hresume := (resumeStart_congr hids hint).trans hstart
    refine ⟨e,open_of_error ?_ ?_ (hresume ▸ he)⟩
    · rw [hresume]
      exact stop_pos _
    · rw [hresume]
      exact (h.openAt hne hids).2

end Log

/-- The type byte of the second of three records becomes zero. -/
theorem damage_not_silent_second :
    ∃ x y z, crossed.log = [x,y,z] ∧
      (∃ rd e, SegmentReader.openAt 128
          (crossed.writer.segmentManager.dir.setByte 128 (y.lsn + 24) 0) 8 = .ok rd ∧
        ∀ short, SegmentReader.nextRecords 128 crc32Ieee
          (crossed.writer.segmentManager.dir.setByte 128 (y.lsn + 24) 0) short 2 rd =
            [.ok (some x.record),.error e]) ∧
      ∃ e, openWithScanStart tinyConfig
        (crossed.writer.segmentManager.dir.setByte 128 (y.lsn + 24) 0) Lsn.invalid =
          .error e := by
  have hbytes : crossed.log.map (fun r => r.bytes[24]?) = [some 40,some 40,some 40] := by
    decide +kernel
  have hstart : resumeStart tinyConfig crossed.writer.segmentManager.dir Lsn.invalid = 8 := by
    decide +kernel
  obtain ⟨x,y,z,hl⟩ := List.length_eq_three.1 (by simpa using congrArg List.length hbytes)
  obtain ⟨w,hw,hfresh⟩ := fresh_freshSys
  have hrun : Run tinyConfig crossing crossed := by
    refine run_calls ?_ crossing crossed_fits
    rw [hfresh]
    exact fresh_run hw
  have hwritten := hrun.written
  rw [hl] at hwritten hbytes
  simp only [List.map_cons,List.map_nil,List.cons.injEq,and_true] at hbytes
  obtain ⟨hread,hopen⟩ := @damage_not_silent tinyConfig _ [] [] [x] [] y z 24 0
    crc32Ieee_detects hwritten (List.getElem?_eq_some_iff.1 hbytes.2.1).1 (by decide)
    (by rw [hbytes.2.1]; decide)
  exact ⟨x,y,z,hl,hread,hopen Lsn.invalid ((resumeStart_congr rfl _).trans hstart)⟩

end WalCrash
end PgAm
