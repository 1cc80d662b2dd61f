import PgAm.WalCrash
import PgAm.WalTail

/-! What is read back after a crash of the process: the complete records, whatever part of the
last one was written, as long as nothing stands behind the place where the log ends. -/
namespace PgAm
namespace WalCrash

open WalSystem (Logged logged logged_bytes)
open WalReader (nextRecord_blank nextRecord_whole openAt readByte records tryReadExact
  tryReadExact_iff)

variable {cfg : WalConfig}

def item (r : Logged) : RecordStream.Item WalRecord := ⟨r.lsn,r.bytes.length,r.record⟩

def stop (log : List Logged) : ℕ := RecordStream.stop Lsn.first (log.map item)

def Holds (cfg : WalConfig) (d : WalDir) (log : List Logged) : Prop :=
  ∀ r ∈ log, tryReadExact cfg.walSegmentSize d r.lsn r.bytes.length = some r.bytes

structure Inv (cfg : WalConfig) (s : Sys) : Prop where
  ready : Ready cfg s
  contiguous : RecordStream.Contiguous Lsn.first (s.log.map item)
  clock : s.writer.lsnClock = stop s.log
  encoded : ∀ r ∈ s.log, r.record.lsn = r.lsn ∧ r.record.encode cfg.crc32 = .ok r.bytes ∧
    r.record.Fits
  stored : Holds cfg s.writer.segmentManager.dir s.log
  origin : Lsn.segmentId Lsn.first cfg.walSegmentSize = 0

/-- Behind the clock all bytes are zero or have never been written. -/
def StaleFree (cfg : WalConfig) (s : Sys) : Prop :=
  ∀ p, s.writer.lsnClock ≤ p →
    (s.writer.segmentManager.dir.dataAt cfg.walSegmentSize p).getD 0 = 0

@[simp] theorem stop_nil : stop [] = Lsn.first := rfl

theorem stop_append (l₁ l₂ : List Logged) :
    stop (l₁ ++ l₂) = RecordStream.stop (stop l₁) (l₂.map item) := by
  rw [stop,List.map_append,RecordStream.stop_append]
  rfl

theorem stop_pos (l : List Logged) : 0 < stop l :=
  lt_of_lt_of_le (by decide) RecordStream.start_le_stop

theorem stop_concat (l : List Logged) (r : Logged) : stop (l ++ [r]) = stop l + r.bytes.length :=
  stop_append l [r]

theorem readByte_eq {d : WalDir} {p : ℕ} {b : UInt8}
    (h : readByte cfg.walSegmentSize d p = some b) :
    b = (d.dataAt cfg.walSegmentSize p).getD 0 := by
  unfold readByte at h
  simp only [Option.ite_none_right_eq_some,Option.some.injEq] at h
  exact h.2.symm

theorem segment_of_readByte {d : WalDir} {p : ℕ} {b : UInt8}
    (h : readByte cfg.walSegmentSize d p = some b) :
    Lsn.segmentId p cfg.walSegmentSize ∈ d.ids := by
  unfold readByte at h
  simp only [Option.ite_none_right_eq_some] at h
  exact h.1.1

theorem readByte_of_mem {d : WalDir} {p : ℕ}
    (hmem : Lsn.segmentId p cfg.walSegmentSize ∈ d.ids)
    (hlen : (d.file (Lsn.segmentId p cfg.walSegmentSize)).len = cfg.walSegmentSize) :
    readByte cfg.walSegmentSize d p =
      some ((d.dataAt cfg.walSegmentSize p).getD 0) := by
  unfold readByte
  rw [if_pos ⟨hmem,by rw [hlen]; exact Nat.mod_lt p cfg.size_pos⟩]
  rfl

theorem Inv.holds {s : Sys} (h : Inv cfg s) {n : ℕ} {d : WalDir}
    (hd : d.Spread cfg.walSegmentSize n) (hn : s.writer.segmentManager.currentSegmentId ≤ n)
    (hdata : ∀ p < s.writer.lsnClock, d.dataAt cfg.walSegmentSize p =
      s.writer.segmentManager.dir.dataAt cfg.walSegmentSize p) : Holds cfg d s.log := by
  intro r hr
  obtain ⟨-,hall⟩ := tryReadExact_iff.1 (h.stored r hr)
  refine tryReadExact_iff.2 ⟨rfl,fun i hi => ?_⟩
  have hbyte := hall i hi
  rw [List.getElem?_eq_getElem hi] at hbyte ⊢
  have hle := (h.ready.laid.le _ (segment_of_readByte hbyte)).trans hn
  have hbound := (h.contiguous.bounds (List.mem_map_of_mem hr)).2.2
  have hlt : r.lsn + i < s.writer.lsnClock := by
    rw [h.clock]
    exact lt_of_lt_of_le (Nat.add_lt_add_left hi r.lsn) hbound
  rw [readByte_of_mem (hd.mem _ hle) (hd.len _ hle),hdata _ hlt,← readByte_eq hbyte]

variable {d : WalDir} {out : Except StorageError ℕ} {rs : List WalRecord}

variable {l₁ l₂ : List Logged}

theorem yields_log (hcont : RecordStream.Contiguous Lsn.first ((l₁ ++ l₂).map item))
    (henc : ∀ r ∈ l₂, r.record.lsn = r.lsn ∧ r.record.encode cfg.crc32 = .ok r.bytes ∧
      r.record.Fits)
    (hd : Holds cfg d l₂)
    (hend : WalReader.Yields cfg.walSegmentSize cfg.crc32 d (stop (l₁ ++ l₂)) rs out) :
    WalReader.Yields cfg.walSegmentSize cfg.crc32 d (stop l₁) (l₂.map Logged.record ++ rs) out := by
  induction l₂ generalizing l₁ with
  | nil => simpa using hend
  | cons a l ih =>
    obtain ⟨ha,hl⟩ := List.forall_mem_cons.1 henc
    obtain ⟨hda,hdl⟩ := List.forall_mem_cons.1 hd
    have hpos : a.lsn = stop l₁ := by
      rw [List.map_append,List.map_cons] at hcont
      exact hcont.pos_eq
    have hfirst : stop l₁ ≠ 0 := by
      have hle : Lsn.first ≤ stop l₁ := RecordStream.start_le_stop
      have : Lsn.first = 8 := rfl
      omega
    have hnext := nextRecord_whole ha.2.2 ha.2.1 (by rw [ha.1,hpos]; exact hfirst) hda
    rw [hpos] at hnext
    have hsplit : l₁ ++ a :: l = (l₁ ++ [a]) ++ l := by simp
    rw [hsplit] at hcont hend
    have hrest := ih hcont hl hdl hend
    rw [stop_concat] at hrest
    exact .step hnext hrest

variable {r : WalRecord} {buf : List UInt8}

/-- The end of the log, the record itself if only zeros are missing, or an error if its position is
lost. -/
theorem yields_tail {k p : ℕ} (hf : r.Fits)
    (henc : r.encode cfg.crc32 = .ok buf) (hlsn : r.lsn = p) (hp : p ≠ 0)
    (hread : WalReader.ReadsAs cfg.walSegmentSize d p (torn k buf))
    (hcrc : torn k buf ≠ buf → WalRecord.CrcFails cfg.crc32 (torn k buf)) :
    (¬WalReader.PositionLost cfg.walSegmentSize d p k →
      WalReader.Yields cfg.walSegmentSize cfg.crc32 d p [] (.ok p) ∨
        torn k buf = buf ∧ tryReadExact cfg.walSegmentSize d p buf.length = some buf ∧
          WalReader.Yields cfg.walSegmentSize cfg.crc32 d p [r] (.ok (p + buf.length))) ∧
      (WalReader.PositionLost cfg.walSegmentSize d p k →
        ∃ l, WalReader.Yields cfg.walSegmentSize cfg.crc32 d p [] (.error (.walCorrupted l))) := by
  by_cases hwhole : torn k buf = buf
  · rw [hwhole] at hread
    constructor
    · intro _
      cases ht : tryReadExact cfg.walSegmentSize d p buf.length with
      | none => exact .inl (.done (WalReader.nextRecord_short hf henc (hlsn ▸ hp) hread ht))
      | some bs =>
        have hbs := hread.tryReadExact ht le_rfl
        rw [List.take_length] at hbs
        rw [hbs] at ht ⊢
        refine .inr ⟨hwhole,rfl,.step (nextRecord_whole hf henc (hlsn ▸ hp) ht) (.done ?_)⟩
        refine nextRecord_blank fun i b hb => ?_
        rw [Nat.add_assoc] at hb
        rw [hread _ _ hb,List.getD_eq_getElem?_getD,List.getElem?_eq_none (Nat.le_add_right _ _)]
        rfl
    · rintro ⟨-,hcut,-⟩
      have hlsnField := WalRecord.encode_take_lsn hf henc k
      rw [hwhole,(WalRecord.encode_fields henc).1,fromLe_leBytes hf.lsn,hlsn] at hlsnField
      exact absurd hlsnField.symm hcut
  · obtain ⟨hkept,hlost⟩ := WalReader.nextRecord_torn hf henc hlsn hp hread (hcrc hwhole)
    exact ⟨fun h => .inl (.done (hkept h)),fun h => (hlost h).imp fun l hl => .fail hl⟩

def scanStart (hint : ℕ) : ℕ := if Lsn.isValid hint ∧ Lsn.first < hint then hint else Lsn.first

theorem oldest_eq_zero {n : ℕ} (h : d.Laid cfg.walSegmentSize n) :
    d.discoverOldestSegmentId = 0 := by
  have hmem := h.mem 0 (Nat.zero_le n)
  unfold WalDir.discoverOldestSegmentId
  cases hm : d.ids.min? with
  | none => rfl
  | some m => exact Nat.le_zero.1 ((List.min?_eq_some_iff.1 hm).2 0 hmem)

variable {hint : ℕ}

theorem open_of_yields (hlaid : (WalWriter.openSegments cfg d).Laid cfg.walSegmentSize)
    (halign : 8 ∣ scanStart hint)
    (hmem : Lsn.segmentId (scanStart hint) cfg.walSegmentSize ∈
      (WalWriter.openSegments cfg d).dir.ids)
    (hy : WalReader.Yields cfg.walSegmentSize cfg.crc32 (WalWriter.openSegments cfg d).dir
      (scanStart hint) rs out) :
    WalWriter.openWithScanStart cfg d hint = out.map fun e =>
      WalWriter.openWithSegmentManager (WalWriter.openSegments cfg d) e
        (if Lsn.first < e then e else Lsn.invalid) := by
  have hpos : 0 < scanStart hint := by
    unfold scanStart
    split
    · rename_i h
      exact lt_trans (by decide) h.2
    · decide
  have hopen : openAt cfg.walSegmentSize (WalWriter.openSegments cfg d).dir
      (scanStart hint) = .ok () := by
    have hmod : scanStart hint % lsnAlignment = 0 := Nat.mod_eq_zero_of_dvd halign
    unfold openAt
    rw [if_neg,if_pos hmem]
    simp only [Lsn.isValid,hmod,not_or,not_not]
    exact ⟨by simpa using hpos.ne',trivial⟩
  have hscan : WalWriter.discoverResumeLsn cfg (WalWriter.openSegments cfg d).dir hint = out := by
    unfold WalWriter.discoverResumeLsn
    simp only [oldest_eq_zero hlaid,if_true]
    change (openAt cfg.walSegmentSize (WalWriter.openSegments cfg d).dir
      (scanStart hint) >>= fun _ => _) = _
    rw [hopen]
    exact hy.scanEnd_eq (hy.length_lt cfg.size_pos hpos)
  unfold WalWriter.openWithScanStart
  simp only [hscan]
  cases out <;> rfl

variable {w : WriterState}

theorem mem_of_open (hlaid : (WalWriter.openSegments cfg d).Laid cfg.walSegmentSize)
    (h : WalWriter.openWithScanStart cfg d hint = .ok w) :
    Lsn.segmentId (scanStart hint) cfg.walSegmentSize ∈
      (WalWriter.openSegments cfg d).dir.ids := by
  by_contra hmem
  have hopen : ∃ e, openAt cfg.walSegmentSize (WalWriter.openSegments cfg d).dir
      (scanStart hint) = .error e := by
    unfold openAt
    split
    · exact ⟨_,rfl⟩
    · exact ⟨_,rfl⟩
  obtain ⟨e,he⟩ := hopen
  have hscan : WalWriter.discoverResumeLsn cfg (WalWriter.openSegments cfg d).dir hint =
      .error e := by
    unfold WalWriter.discoverResumeLsn
    simp only [oldest_eq_zero hlaid,if_true]
    change (openAt cfg.walSegmentSize (WalWriter.openSegments cfg d).dir
      (scanStart hint) >>= fun _ => _) = _
    rw [he]
    rfl
  unfold WalWriter.openWithScanStart at h
  simp only [hscan] at h
  cases h

/-- `k` bytes of `buf` have been written at the clock of `s`, with the files that this takes. -/
structure Torn (cfg : WalConfig) (s : Sys) (buf : List UInt8) (k : ℕ) (d : WalDir) : Prop where
  spread : ∃ n, d.Spread cfg.walSegmentSize n ∧ s.writer.segmentManager.currentSegmentId ≤ n ∧
    ∀ i < k, Lsn.segmentId (s.writer.lsnClock + i) cfg.walSegmentSize ≤ n
  files : ∀ id ∈ d.ids, id ≤ s.writer.segmentManager.currentSegmentId ∨
    id * cfg.walSegmentSize ≤ s.writer.lsnClock + k
  data : ∀ p, d.dataAt cfg.walSegmentSize p =
    if s.writer.lsnClock ≤ p ∧ p < s.writer.lsnClock + k then buf[p - s.writer.lsnClock]?
    else s.writer.segmentManager.dir.dataAt cfg.walSegmentSize p

variable {s : Sys}

variable {fault : IoFault}

/-- An append stopped anywhere leaves such a directory. -/
theorem torn_of_append (h : Ready cfg s) {k : ℕ}
    (hw : WalSegmentManager.Wrote cfg.walSegmentSize s.writer.lsnClock buf k
      s.writer.segmentManager (WalWriter.append cfg (some fault) r s.writer).2.segmentManager) :
    Torn cfg s buf k (tornDir cfg s r fault) := by
  have hout := append_outcome h.healthy h.laid r (some fault)
  refine ⟨⟨_,?_,hw.current_le,hw.reach⟩,fun id hid => ?_,hw.data⟩
  swap
  · exact (hw.files id hid).imp_left (h.laid.le id)
  unfold tornDir
  generalize WalWriter.append cfg (some fault) r s.writer = out at hout
  obtain ⟨res,w⟩ := out
  cases hout with
  | stored hbuf hlaid hle hw => exact hlaid.spread
  | stopped hspread hw hcalm => exact hspread

theorem exists_wrote (h : Ready cfg s) (r : WalRecord) (fault : IoFault) :
    ∃ k, WalSegmentManager.Wrote cfg.walSegmentSize s.writer.lsnClock
      (logged cfg r s.writer.lsnClock).bytes k s.writer.segmentManager
      (WalWriter.append cfg (some fault) r s.writer).2.segmentManager := by
  have hout := append_outcome h.healthy h.laid r (some fault)
  generalize WalWriter.append cfg (some fault) r s.writer = out at hout
  obtain ⟨res,w⟩ := out
  cases hout with
  | stored hbuf hlaid hle hw =>
    rw [logged_bytes hbuf]
    exact ⟨_,hw⟩
  | stopped hspread hw hcalm => exact ⟨_,hw⟩

namespace Torn

variable {s : Sys} {buf : List UInt8} {k : ℕ} {d : WalDir}

theorem complete (h : Torn cfg s buf k d) : d.Complete cfg.walSegmentSize :=
  h.spread.elim fun _ hn => hn.1.complete

theorem opened (h : Torn cfg s buf k d) :
    Torn cfg s buf k (WalWriter.openSegments cfg d).dir := by
  obtain ⟨hlaid,hdata,hcur⟩ := openSegments_laid h.complete
  obtain ⟨n,hn,hle,hreach⟩ := h.spread
  have hlatest := d.le_discoverLatestSegmentId (hn.mem n le_rfl)
  refine ⟨⟨_,hlaid.spread,?_,fun i hi => ?_⟩,fun id hid => ?_,fun p => (hdata p).trans (h.data p)⟩
  · rw [hcur]
    exact hle.trans hlatest
  · rw [hcur]
    exact (hreach i hi).trans hlatest
  · have ht := @WalWriter.openSegments_touched cfg d
    have hnewest := d.discoverLatestSegmentId_mem (hn.mem n le_rfl)
    rcases ht.ids id hid with rfl | hid
    · exact h.files _ hnewest
    · rcases (WalDir.mem_create_ids _ _ _).1 hid with rfl | hid
      · exact h.files _ hnewest
      · exact h.files id hid

theorem holds (h : Torn cfg s buf k d) (hi : Inv cfg s) : Holds cfg d s.log := by
  obtain ⟨n,hn,hle,-⟩ := h.spread
  refine hi.holds hn hle fun p hp => ?_
  rw [h.data,if_neg (by omega)]

theorem readsAs (h : Torn cfg s buf k d) (hs : StaleFree cfg s) (hk : k ≤ buf.length) :
    WalReader.ReadsAs cfg.walSegmentSize d s.writer.lsnClock (torn k buf) := by
  intro i b hb
  rw [readByte_eq hb,h.data]
  by_cases hi : i < k
  · rw [if_pos (by omega),List.getD_eq_getElem?_getD,torn_getElem? (by omega),if_pos hi]
    congr 2
    omega
  · rw [if_neg (by omega),torn_getD_of_le buf (not_lt.1 hi)]
    exact hs _ (Nat.le_add_right _ _)

end Torn

theorem Inv.clock_ne (h : Inv cfg s) : s.writer.lsnClock ≠ 0 := by
  have hle : Lsn.first ≤ stop s.log := RecordStream.start_le_stop
  have hfirst : Lsn.first = 8 := rfl
  have hclock := h.clock
  omega

theorem Torn.from_boundary {s : Sys} {buf : List UInt8} {k : ℕ} {d : WalDir}
    (h : Torn cfg s buf k d) (hi : Inv cfg s) {rs : List WalRecord} {out : Except StorageError ℕ}
    (hy : WalReader.Yields cfg.walSegmentSize cfg.crc32 d s.writer.lsnClock rs out)
    {l₁ l₂ : List Logged} (hl : s.log = l₁ ++ l₂) :
    WalReader.Yields cfg.walSegmentSize cfg.crc32 d (stop l₁) (l₂.map Logged.record ++ rs) out := by
  have hholds := h.holds hi
  have hcont := hi.contiguous
  have henc := hi.encoded
  have hclock := hi.clock
  rw [hl] at hholds hcont henc hclock
  exact yields_log hcont (fun x hx => henc x (List.mem_append_right _ hx))
    (fun x hx => hholds x (List.mem_append_right _ hx)) (hclock ▸ hy)

theorem Torn.blank (h : Torn cfg s buf 0 d) (hs : StaleFree cfg s) :
    WalReader.Yields cfg.walSegmentSize cfg.crc32 d s.writer.lsnClock []
      (.ok s.writer.lsnClock) := by
  refine .done (nextRecord_blank fun i b hb => ?_)
  rw [readByte_eq hb,h.data,if_neg (by omega)]
  exact hs _ (Nat.le_add_right _ _)

/-- A position the scan may start at: that of a record, or none. -/
def Hint (s : Sys) (hint : ℕ) : Prop := hint = Lsn.invalid ∨ ∃ x ∈ s.log, hint = x.lsn

theorem Inv.dvd_stop (h : Inv cfg s) (hl : s.log = l₁ ++ l₂) : 8 ∣ stop l₁ := by
  refine RecordStream.dvd_stop (by decide) fun a ha => ?_
  obtain ⟨x,hx,rfl⟩ := List.mem_map.1 ha
  have henc := (h.encoded x (hl ▸ List.mem_append_left _ hx)).2.1
  change 8 ∣ x.bytes.length
  rw [WalRecord.encode_length cfg.crc32 henc]
  exact dvd_alignUp _ _

theorem scanStart_of_mem {log : List Logged}
    (hcont : RecordStream.Contiguous Lsn.first (log.map item)) {x : Logged} (hx : x ∈ log) :
    ∃ l₁ l₂, log = l₁ ++ x :: l₂ ∧ x.lsn = stop l₁ ∧ scanStart x.lsn = stop l₁ := by
  obtain ⟨l₁,l₂,hl⟩ := List.append_of_mem hx
  rw [hl,List.map_append,List.map_cons] at hcont
  have hpos : x.lsn = stop l₁ := hcont.pos_eq
  have hle : Lsn.first ≤ stop l₁ := RecordStream.start_le_stop
  refine ⟨l₁,l₂,hl,hpos,?_⟩
  rw [scanStart,hpos]
  split
  · rfl
  · rename_i hn
    by_contra hne
    refine hn ⟨?_,lt_of_le_of_ne hle hne⟩
    have hfirst : Lsn.first = 8 := rfl
    simp only [Lsn.isValid,bne_iff_ne]
    omega

theorem Inv.segment_mem (h : Inv cfg s) {x : Logged} (hx : x ∈ s.log) :
    Lsn.segmentId x.lsn cfg.walSegmentSize ∈ s.writer.segmentManager.dir.ids := by
  obtain ⟨-,hall⟩ := tryReadExact_iff.1 (h.stored x hx)
  have hlen : 0 < x.bytes.length := (h.contiguous.bounds (List.mem_map_of_mem hx)).2.1
  have hbyte := hall 0 hlen
  rw [List.getElem?_eq_getElem hlen] at hbyte
  exact segment_of_readByte hbyte

theorem Inv.boundary (h : Inv cfg s) (hh : Hint s hint) :
    ∃ l₁ l₂, s.log = l₁ ++ l₂ ∧ scanStart hint = stop l₁ ∧
      Lsn.segmentId (stop l₁) cfg.walSegmentSize ≤ s.writer.segmentManager.currentSegmentId := by
  rcases hh with rfl | ⟨x,hx,rfl⟩
  · exact ⟨[],s.log,rfl,rfl,h.origin.trans_le (Nat.zero_le _)⟩
  · obtain ⟨l₁,l₂,hl,hpos,hstart⟩ := scanStart_of_mem h.contiguous hx
    refine ⟨l₁,x :: l₂,hl,hstart,?_⟩
    rw [← hpos]
    exact h.ready.laid.le _ (h.segment_mem hx)

/-- Opening a torn directory is the scan from a record boundary. -/
theorem Torn.open_eq {k hint : ℕ} {l₁ : List Logged} (h : Torn cfg s buf k d)
    (hstart : scanStart hint = stop l₁) (halign : 8 ∣ stop l₁)
    (hseg : Lsn.segmentId (stop l₁) cfg.walSegmentSize ≤
      s.writer.segmentManager.currentSegmentId)
    (hy : WalReader.Yields cfg.walSegmentSize cfg.crc32 (WalWriter.openSegments cfg d).dir
      (stop l₁) rs out) :
    WalWriter.openWithScanStart cfg d hint = out.map fun e =>
      WalWriter.openWithSegmentManager (WalWriter.openSegments cfg d) e
        (if Lsn.first < e then e else Lsn.invalid) := by
  obtain ⟨n,hn,hle,-⟩ := h.opened.spread
  rw [← hstart] at halign hseg hy
  exact open_of_yields (openSegments_laid h.complete).1 halign (hn.mem _ (hseg.trans hle)) hy

def Typed (s : Sys) (r : WalRecord) : Prop :=
  WalRecord.Fits { r with lsn := s.writer.lsnClock }

theorem Inv.extend (h : Inv cfg s)
    (henc : WalRecord.encode cfg.crc32 { r with lsn := s.writer.lsnClock } = .ok buf)
    (hf : Typed s r) (hready : Ready cfg ⟨w,s.log ++ [logged cfg r s.writer.lsnClock]⟩)
    (hclock : w.lsnClock = s.writer.lsnClock + buf.length)
    (hold : Holds cfg w.segmentManager.dir s.log)
    (hnew : tryReadExact cfg.walSegmentSize w.segmentManager.dir s.writer.lsnClock
      buf.length = some buf) :
    Inv cfg ⟨w,s.log ++ [logged cfg r s.writer.lsnClock]⟩ := by
  have hbytes := logged_bytes henc
  have hpos : 0 < buf.length := by
    rw [WalRecord.encode_length cfg.crc32 henc]
    exact WalRecord.recordSize_pos _
  refine ⟨hready,?_,?_,fun x hx => ?_,fun x hx => ?_,h.origin⟩
  · rw [List.map_append,RecordStream.contiguous_append]
    exact ⟨h.contiguous,h.clock,hpos.trans_eq (congrArg List.length hbytes.symm),trivial⟩
  · rw [stop_concat,hbytes,← h.clock]
    exact hclock
  · rcases List.mem_append.1 hx with hx | hx
    · exact h.encoded x hx
    · rw [List.mem_singleton.1 hx,hbytes]
      exact ⟨rfl,henc,hf⟩
  · rcases List.mem_append.1 hx with hx | hx
    · exact hold x hx
    · rw [List.mem_singleton.1 hx,hbytes]
      exact hnew

def grown (st : WriterState) (n : ℕ) (m : WalSegmentManager) : WriterState :=
  { st with lsnClock := st.lsnClock + n, segmentManager := m, pending := st.pending + 1 }

theorem Inv.stored_append (h : Inv cfg s) {m : WalSegmentManager} (hf : Typed s r)
    (hbuf : WalRecord.encode cfg.crc32 { r with lsn := s.writer.lsnClock } = .ok buf)
    (hlaid : m.Laid cfg.walSegmentSize)
    (hw : WalSegmentManager.Wrote cfg.walSegmentSize s.writer.lsnClock buf buf.length
      s.writer.segmentManager m) :
    Inv cfg ⟨grown s.writer buf.length m,s.log ++ [logged cfg r s.writer.lsnClock]⟩ := by
  refine h.extend hbuf hf ⟨h.ready.healthy,hlaid⟩ rfl ?_ ?_
  · refine h.holds hlaid.spread hw.current_le fun p hp => ?_
    change m.dir.dataAt _ _ = _
    rw [hw.data,if_neg (by omega)]
  · refine tryReadExact_iff.2 ⟨rfl,fun i hi => ?_⟩
    have hseg := hw.reach i hi
    change readByte _ m.dir _ = _
    rw [readByte_of_mem (hlaid.mem _ hseg) (hlaid.len _ hseg)]
    rw [hw.data,if_pos (by omega),Nat.add_sub_cancel_left,List.getElem?_eq_getElem hi,
      Option.getD_some]

theorem append_data {s s' : Sys} (h : Ready cfg s) (hstep : step cfg s (.append r) = some s') :
    s.writer.lsnClock ≤ s'.writer.lsnClock ∧ ∀ p, s'.writer.lsnClock ≤ p →
      s'.writer.segmentManager.dir.dataAt cfg.walSegmentSize p =
        s.writer.segmentManager.dir.dataAt cfg.walSegmentSize p := by
  have hout := append_outcome h.healthy h.laid r none
  simp only [step] at hstep
  generalize WalWriter.append cfg none r s.writer = out at hout hstep
  obtain ⟨res,w⟩ := out
  cases hout with
  | stopped hspread hw hcalm => cases hstep
  | @stored buf m hbuf hlaid hle hw =>
    cases hstep
    exact ⟨Nat.le_add_right _ _,hw.data_behind⟩

theorem StaleFree.append {s s' : Sys} (hs : StaleFree cfg s) (h : Ready cfg s) {r : WalRecord}
    (hstep : step cfg s (.append r) = some s') : StaleFree cfg s' := by
  obtain ⟨hle,hdata⟩ := append_data h hstep
  intro p hp
  rw [hdata p hp]
  exact hs p (hle.trans hp)

theorem Inv.append {s s' : Sys} (h : Inv cfg s) {r : WalRecord} (hf : Typed s r)
    (hstep : step cfg s (.append r) = some s') : Inv cfg s' := by
  have hout := append_outcome h.ready.healthy h.ready.laid r none
  simp only [step] at hstep
  generalize WalWriter.append cfg none r s.writer = out at hout hstep
  obtain ⟨res,w⟩ := out
  cases hout with
  | stopped hspread hw hcalm => cases hstep
  | stored hbuf hlaid hle hw =>
    cases hstep
    exact h.stored_append hf hbuf hlaid hw

/-- A partly written record whose missing bytes are not all zero fails its checksum. -/
def CrcSound (cfg : WalConfig) (bs : List UInt8) : Prop :=
  ∀ k ≤ bs.length, torn k bs ≠ bs → WalRecord.CrcFails cfg.crc32 (torn k bs)

instance (cfg : WalConfig) (bs : List UInt8) : Decidable (CrcSound cfg bs) :=
  inferInstanceAs (Decidable (∀ k ≤ _, _ → _))

theorem Inv.tear {s s' : Sys} (h : Inv cfg s) (hs : StaleFree cfg s) (hf : Typed s r)
    (hh : Hint s hint)
    (hcrc : CrcSound cfg (logged cfg r s.writer.lsnClock).bytes)
    (hstep : step cfg s (.tear r fault hint) = some s') : Inv cfg s' := by
  have hready := step_ready h.ready hstep
  obtain ⟨k,hw⟩ := exists_wrote h.ready r fault
  have ht := torn_of_append h.ready hw
  obtain ⟨l₁,l₂,hl,hstart,hseg⟩ := h.boundary hh
  have halign := h.dvd_stop hl
  have hsame : ∀ w : WriterState, Ready cfg ⟨w,s.log⟩ → w.lsnClock = s.writer.lsnClock →
      Holds cfg w.segmentManager.dir s.log → Inv cfg ⟨w,s.log⟩ := fun w hr hc hd =>
    ⟨hr,h.contiguous,hc.trans h.clock,h.encoded,hd,h.origin⟩
  simp only [step] at hstep
  split at hstep
  · cases hstep
  rename_i w hopen
  cases hstep
  cases henc : WalRecord.encode cfg.crc32 { r with lsn := s.writer.lsnClock } with
  | error e =>
    have hbytes : (logged cfg r s.writer.lsnClock).bytes = [] := by
      simp [logged,henc,Except.toOption]
    have hk := hw.le
    rw [hbytes,List.length_nil,Nat.le_zero] at hk
    subst hk
    rw [ht.open_eq hstart halign hseg (ht.opened.from_boundary h (ht.opened.blank hs) hl)] at hopen
    cases hopen
    rw [if_neg (by exact lt_irrefl _)] at hready ⊢
    exact hsame _ hready rfl (ht.opened.holds h)
  | ok buf =>
    rw [logged_bytes henc] at hw ht hcrc
    have hboundary := fun {rs out} => @Torn.from_boundary cfg s buf k _ ht.opened h rs out
    obtain ⟨hkept,hlost⟩ := yields_tail hf henc rfl h.clock_ne (ht.opened.readsAs hs hw.le)
      (hcrc k hw.le)
    by_cases hpos : WalReader.PositionLost cfg.walSegmentSize
      (WalWriter.openSegments cfg (tornDir cfg s r fault)).dir s.writer.lsnClock k
    · obtain ⟨l,hy⟩ := hlost hpos
      rw [ht.open_eq hstart halign hseg (hboundary hy hl)] at hopen
      cases hopen
    rcases hkept hpos with hy | ⟨-,hread,hy⟩
    · rw [ht.open_eq hstart halign hseg (hboundary hy hl)] at hopen
      cases hopen
      rw [if_neg (by exact lt_irrefl _)] at hready ⊢
      exact hsame _ hready rfl (ht.opened.holds h)
    · have hpos : 0 < buf.length := by
        rw [WalRecord.encode_length cfg.crc32 henc]
        exact WalRecord.recordSize_pos _
      rw [ht.open_eq hstart halign hseg (hboundary hy hl)] at hopen
      cases hopen
      rw [if_pos (by exact Nat.lt_add_of_pos_right hpos)] at hready ⊢
      exact h.extend henc hf hready rfl (ht.opened.holds h) hread

theorem fresh_inv {s : Sys} (h : Fresh cfg s) : Inv cfg s ∧ StaleFree cfg s := by
  have hready := fresh_ready h
  obtain ⟨w,hw,rfl⟩ := h
  have hempty : WalDir.empty.Complete cfg.walSegmentSize := fun id hid =>
    absurd hid (Nat.not_lt_zero id)
  obtain ⟨hlaid,hdata,hcur⟩ := openSegments_laid hempty
  have hmem := mem_of_open hlaid hw
  have hblank : WalReader.ReadsAs cfg.walSegmentSize (WalWriter.openSegments cfg WalDir.empty).dir
      (scanStart Lsn.invalid) [] := by
    intro i b hb
    rw [readByte_eq hb,hdata]
    rfl
  rw [open_of_yields hlaid (by decide) hmem (.done (nextRecord_blank hblank))] at hw
  cases hw
  refine ⟨⟨hready,trivial,rfl,nofun,nofun,?_⟩,fun p _ => ?_⟩
  · have hle := hlaid.le _ hmem
    rw [hcur] at hle
    exact Nat.le_zero.1 hle
  · change ((WalWriter.openSegments cfg WalDir.empty).dir.dataAt cfg.walSegmentSize p).getD 0 = 0
    rw [hdata]
    rfl

def Appends (s : Sys) : Step → Prop
  | .append r => Typed s r
  | .tear .. => False

/-- A crash finds nothing stale, checksums tell torn records, and the scan starts at a record. -/
def Sound (cfg : WalConfig) (s : Sys) : Step → Prop
  | .append r => Typed s r
  | .tear r _ hint => Typed s r ∧ StaleFree cfg s ∧ Hint s hint ∧
      CrcSound cfg (logged cfg r s.writer.lsnClock).bytes

theorem reach_appends (h : Machine.Reach (step cfg) (Fresh cfg) Appends s) :
    Inv cfg s ∧ StaleFree cfg s ∧ Abreast cfg s := by
  refine h.invariant (I := fun s => Inv cfg s ∧ StaleFree cfg s ∧ Abreast cfg s)
    (fun _ hs => ⟨(fresh_inv hs).1,(fresh_inv hs).2,fresh_abreast hs⟩) fun t a u ht ha hstep => ?_
  cases a with
  | append r =>
    exact ⟨ht.1.append ha hstep,ht.2.1.append ht.1.ready hstep,step_abreast ht.1.ready hstep⟩
  | tear r fault hint => exact ha.elim

theorem reach_sound (h : Machine.Reach (step cfg) (Fresh cfg) (Sound cfg) s) : Inv cfg s := by
  refine h.invariant (fun _ hs => (fresh_inv hs).1) fun t a u ht ha hstep => ?_
  cases a with
  | append r => exact ht.append ha hstep
  | tear r fault hint =>
    obtain ⟨hf,hs,hh,hcrc⟩ := ha
    exact ht.tear hs hf hh hcrc hstep

/-- The cut leaves a part of the position field, and the header stays within its segment. -/
def PositionCut (cfg : WalConfig) (s : Sys) (k : ℕ) : Prop :=
  s.writer.lsnClock % 256 ^ k ≠ 0 ∧ s.writer.lsnClock % 256 ^ k ≠ s.writer.lsnClock ∧
    Lsn.segmentOffset s.writer.lsnClock cfg.walSegmentSize + walRecordHeaderSize ≤
      cfg.walSegmentSize

theorem Torn.next_missing {s : Sys} {buf : List UInt8} {k : ℕ} {d : WalDir}
    (h : Torn cfg s buf k d) (hi : Inv cfg s) (ha : Abreast cfg s) (hk : k < 8) {id : ℕ}
    (hid : Lsn.segmentId s.writer.lsnClock cfg.walSegmentSize < id) : id ∉ d.ids := by
  intro hmem
  rcases h.files id hmem with hle | hle
  · exact absurd (hle.trans ha) (not_le.2 hid)
  · obtain ⟨a,hclock⟩ : 8 ∣ s.writer.lsnClock :=
      hi.clock ▸ hi.dvd_stop (List.append_nil s.log).symm
    obtain ⟨b,hsize⟩ : 8 ∣ cfg.walSegmentSize := Nat.dvd_of_mod_eq_zero cfg.size_aligned
    have hmul := Nat.mul_le_mul_right cfg.walSegmentSize (Nat.succ_le_of_lt hid)
    have hlt := Nat.lt_mul_div_succ s.writer.lsnClock cfg.size_pos
    rw [Nat.mul_comm,← Nat.succ_eq_add_one] at hlt
    unfold Lsn.segmentId at hmul
    generalize (s.writer.lsnClock / cfg.walSegmentSize).succ = q at hmul hlt
    have hq : q * cfg.walSegmentSize = 8 * (q * b) := by rw [hsize]; ring
    omega

theorem Torn.positionLost_iff {s : Sys} {buf : List UInt8} {k : ℕ} {d : WalDir}
    (h : Torn cfg s buf k d) (hi : Inv cfg s) (ha : Abreast cfg s)
    (hlsn : s.writer.lsnClock < 256 ^ 8) :
    WalReader.PositionLost cfg.walSegmentSize d s.writer.lsnClock k ↔ PositionCut cfg s k := by
  refine and_congr_right fun hzero => and_congr_right fun hcut => ?_
  have hk := WalReader.lt_of_mod_ne hlsn hcut
  have hpos : 0 < k := by
    refine Nat.pos_of_ne_zero fun hk => hzero ?_
    rw [hk,pow_zero,Nat.mod_one]
  have hdm := Nat.div_add_mod s.writer.lsnClock cfg.walSegmentSize
  constructor
  · intro hread
    by_contra hcross
    obtain ⟨bs,hbs⟩ := Option.ne_none_iff_exists'.1 hread
    obtain ⟨hlen,hall⟩ := tryReadExact_iff.1 hbs
    have hlast := hall 31 (by decide)
    rw [List.getElem?_eq_getElem (by rw [hlen]; decide)] at hlast
    refine h.next_missing hi ha hk ?_ (segment_of_readByte hlast)
    rw [Lsn.segmentId,Lsn.segmentId,Nat.lt_iff_add_one_le,Nat.le_div_iff_mul_le cfg.size_pos,
      Nat.add_mul,one_mul,Nat.mul_comm]
    simp only [Lsn.segmentOffset,walRecordHeaderSize] at hcross
    omega
  · intro hfit
    obtain ⟨n,hn,-,hreach⟩ := h.spread
    refine WalReader.tryReadExact_ne_none fun i hi => ?_
    have hseg : Lsn.segmentId (s.writer.lsnClock + i) cfg.walSegmentSize =
        Lsn.segmentId s.writer.lsnClock cfg.walSegmentSize := by
      simp only [Lsn.segmentOffset,walRecordHeaderSize] at hfit hi
      refine Nat.div_eq_of_lt_le ?_ ?_
      · rw [Lsn.segmentId,Nat.mul_comm]
        omega
      · rw [Lsn.segmentId,Nat.add_mul,one_mul,Nat.mul_comm]
        omega
    have hle := hreach 0 hpos
    rw [Nat.add_zero,← hseg] at hle
    rw [readByte_of_mem (hn.mem _ hle) (hn.len _ hle)]
    exact Option.some_ne_none _

theorem typed_new (t : WalRecordType) (payload : List UInt8)
    (h : s.writer.lsnClock < 256 ^ 8) : Typed s (WalRecord.new t payload) where
  lsn := h
  prevLsn := Nat.pow_pos (by norm_num)
  txnId := Nat.pow_pos (by norm_num)

/-- The process stops in the first write of an append, after one byte of it. -/
def stopAfterOneByte : IoFault := ⟨1,1,"killed"⟩

/-- Neither a reader nor the writer gets past the one byte at position 288. -/
def unreadable (s : Sys) : Bool :=
  let d := tornDir tinyConfig s (filler 8) stopAfterOneByte
  let bs := (logged tinyConfig (filler 8) 288).bytes
  s.writer.lsnClock == 288 &&
    (List.range bs.length).all
      (fun i => d.dataAt 128 (288 + i) == if i < 1 then bs[i]? else none) &&
    decide (WalRecord.CrcFails crc32Ieee (torn 1 bs)) &&
    !(records 128 crc32Ieee d Lsn.first).toOption.isSome &&
    !(WalWriter.openWithScanStart tinyConfig d Lsn.invalid).toOption.isSome

instance (s : Sys) (a : Step) : Decidable (Appends s a) :=
  match a with
  | .append r => decidable_of_iff (_ ∧ _ ∧ _)
      ⟨fun h => WalRecord.Fits.mk (r := { r with lsn := s.writer.lsnClock }) h.1 h.2.1 h.2.2,
        fun h => ⟨h.lsn,h.prevLsn,h.txnId⟩⟩
  | .tear .. => .isFalse id

/-- Over any number of crashes, if nothing is left behind the end of the log, a later opening
resumes there and a reader gives exactly the complete records. -/
theorem reopened_log_exact {s : Sys} (h : Machine.Reach (step cfg) (Fresh cfg) (Sound cfg) s)
    (hs : StaleFree cfg s) {hint : ℕ} (hh : Hint s hint) {l₁ l₂ : List Logged}
    (hl : s.log = l₁ ++ l₂) :
    (∃ w, WalWriter.openWithScanStart cfg s.writer.segmentManager.dir hint = .ok w ∧
      w.lsnClock = s.writer.lsnClock) ∧
      records cfg.walSegmentSize cfg.crc32 s.writer.segmentManager.dir (stop l₁) =
        .ok (l₂.map Logged.record,s.writer.lsnClock) := by
  have hi := reach_sound h
  have ht : Torn cfg s [] 0 s.writer.segmentManager.dir :=
    ⟨⟨_,hi.ready.laid.spread,le_rfl,nofun⟩,fun id hid => .inl (hi.ready.laid.le id hid),
      fun p => by rw [if_neg (by omega)]⟩
  obtain ⟨l₃,l₄,hl',hstart,hseg⟩ := hi.boundary hh
  constructor
  · have hy := ht.opened.from_boundary hi (ht.opened.blank hs) hl'
    exact ⟨_,ht.open_eq hstart (hi.dvd_stop hl') hseg hy,rfl⟩
  · have hy := ht.from_boundary hi (ht.blank hs) hl
    rw [List.append_nil] at hy
    exact hy.records_eq cfg.size_pos (stop_pos l₁)

theorem tear_stale {s s' : Sys} (h : Ready cfg s) (hs : StaleFree cfg s)
    (hstep : step cfg s (.tear r fault hint) = some s') {p : ℕ}
    (hp : s.writer.lsnClock + (logged cfg r s.writer.lsnClock).bytes.length ≤ p) :
    (s'.writer.segmentManager.dir.dataAt cfg.walSegmentSize p).getD 0 = 0 := by
  obtain ⟨k,hw⟩ := exists_wrote h r fault
  have ht := torn_of_append h hw
  have hk := hw.le
  simp only [step] at hstep
  split at hstep
  · cases hstep
  rename_i w hopen
  cases hstep
  obtain ⟨startLsn,rfl⟩ := WalWriter.openWithScanStart_ok hopen
  change ((WalWriter.openSegments cfg (tornDir cfg s r fault)).dir.dataAt cfg.walSegmentSize p).getD
    0 = 0
  rw [ht.opened.data,if_neg (by omega)]
  exact hs p (by omega)

/-- A later opening of the WAL as `s` leaves it fails. -/
def broken (s : Sys) : Bool :=
  !(WalWriter.openWithScanStart tinyConfig s.writer.segmentManager.dir Lsn.invalid).toOption.isSome

theorem sound_tear_first :
    Sound tinyConfig freshSys (.tear (filler 8) stopInPayload Lsn.invalid) := by
  have hcrc : CrcSound tinyConfig (logged tinyConfig (filler 8) Lsn.first).bytes := by
    decide +kernel
  exact ⟨typed_new _ _ (by decide),(fresh_inv fresh_freshSys).2,.inl rfl,hcrc⟩

theorem sound_append (n : ℕ) (h : s.writer.lsnClock = Lsn.first) :
    Sound tinyConfig s (.append (filler n)) := by
  have hlt : s.writer.lsnClock < 256 ^ 8 := by
    rw [h]
    decide
  exact typed_new _ _ hlt

/-- Behind the shorter next record stand bytes of the torn one, and the WAL cannot be opened
again. -/
theorem stale_bytes_break_log :
    ∃ s, Machine.Reach (step tinyConfig) (Fresh tinyConfig) (Sound tinyConfig) s ∧
      broken s = true := by
  have hrun : ((step tinyConfig freshSys (.tear (filler 8) stopInPayload Lsn.invalid)).any
      fun s => decide (s.writer.lsnClock = Lsn.first) &&
        (step tinyConfig s (.append (filler 0))).any broken) = true := by decide +kernel
  rw [Option.any_eq_true] at hrun
  obtain ⟨s,hs,hp⟩ := hrun
  rw [Bool.and_eq_true,Option.any_eq_true,decide_eq_true_eq] at hp
  obtain ⟨hclock,t,ht,hbad⟩ := hp
  exact ⟨t,.next (.next (.start fresh_freshSys) sound_tear_first hs) (sound_append 0 hclock) ht,
    hbad⟩

/-- The torn record of 40 bytes is overwritten by the next one, and the log is read back. -/
theorem reopened_log_exact_overwritten :
    ∃ s, Machine.Reach (step tinyConfig) (Fresh tinyConfig) (Sound tinyConfig) s ∧
      s.log.length = 1 ∧
      records tinyConfig.walSegmentSize tinyConfig.crc32 s.writer.segmentManager.dir
        Lsn.first = .ok (s.log.map Logged.record,48) := by
  have hrun : ((step tinyConfig freshSys (.tear (filler 8) stopInPayload Lsn.invalid)).any
      fun s => decide (s.writer.lsnClock = Lsn.first) &&
        (step tinyConfig s (.append (filler 8))).any fun t =>
          decide (t.writer.lsnClock = 48 ∧ t.log.length = 1)) = true := by decide +kernel
  rw [Option.any_eq_true] at hrun
  obtain ⟨s,hs,hp⟩ := hrun
  rw [Bool.and_eq_true,Option.any_eq_true,decide_eq_true_eq] at hp
  obtain ⟨hclock,t,ht,hend⟩ := hp
  obtain ⟨hclock',hlen⟩ := of_decide_eq_true hend
  have hreach := Machine.Reach.next (.next (.start fresh_freshSys) sound_tear_first hs)
    (sound_append 8 hclock) ht
  have hready := fresh_ready fresh_freshSys
  have hstale : StaleFree tinyConfig t := by
    intro p hp
    have hbytes : (logged tinyConfig (filler 8) Lsn.first).bytes.length = 40 := by decide +kernel
    rw [(append_data (step_ready hready hs) ht).2 p hp]
    refine tear_stale hready (fresh_inv fresh_freshSys).2 hs ?_
    change Lsn.first + (logged tinyConfig (filler 8) Lsn.first).bytes.length ≤ p
    rw [hbytes]
    exact hclock'.ge.trans hp
  have hexact := reopened_log_exact hreach hstale (.inl rfl) (List.nil_append t.log).symm
  rw [hclock'] at hexact
  exact ⟨t,hreach,hlen,hexact.2⟩

end WalCrash
end PgAm
