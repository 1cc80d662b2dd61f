import PgAm.RecordStream
import PgAm.WalBytes

/-! What the reader makes of a log whose last record may be incomplete. The positions behind the
complete records hold the bytes of one record up to some point and zeros from there on; the reader
takes this for the end of the log as long as the part that is there starts with the whole position
field, or with nothing. -/
namespace PgAm
namespace WalReader

section Reading
variable (segmentSize : ℕ) (crc32 : List UInt8 → UInt32)

def readLog (d : WalDir) : ℕ → ℕ → Except StorageError (List WalRecord × ℕ)
  | 0, p => .ok ([],p)
  | fuel+1, p =>
    match nextRecord segmentSize crc32 d p with
    | .error e => .error e
    | .ok none => .ok ([],p)
    | .ok (some (r,q)) =>
      match readLog d fuel q with
      | .error e => .error e
      | .ok (rs,e) => .ok (r :: rs,e)

def records (d : WalDir) (start : ℕ) : Except StorageError (List WalRecord × ℕ) :=
  readLog segmentSize crc32 d (streamBound segmentSize d) start

/-- Reading from a position gives these records and then the end of the log or an error. -/
inductive Yields (d : WalDir) : ℕ → List WalRecord → Except StorageError ℕ → Prop
  | done {p : ℕ} (h : nextRecord segmentSize crc32 d p = .ok none) : Yields d p [] (.ok p)
  | fail {p : ℕ} {e : StorageError} (h : nextRecord segmentSize crc32 d p = .error e) :
      Yields d p [] (.error e)
  | step {p q : ℕ} {r : WalRecord} {rs : List WalRecord} {out : Except StorageError ℕ}
      (h : nextRecord segmentSize crc32 d p = .ok (some (r,q))) (hrs : Yields d q rs out) :
      Yields d p (r :: rs) out

/-- The bytes that can be read from `p` on are `bs` and then zeros. -/
def ReadsAs (d : WalDir) (p : ℕ) (bs : List UInt8) : Prop :=
  ∀ i b, readByte segmentSize d (p + i) = some b → b = bs.getD i 0

end Reading

variable {segmentSize : ℕ} {crc32 : List UInt8 → UInt32} {d : WalDir} {p : ℕ}

variable {bs : List UInt8}

theorem tryReadExact_iff {n : ℕ} : tryReadExact segmentSize d p n = some bs ↔
      bs.length = n ∧ ∀ i < n, readByte segmentSize d (p + i) = bs[i]? := by
  induction n generalizing p bs with
  | zero =>
    simp only [tryReadExact,Option.some.injEq,Nat.not_lt_zero,false_implies,implies_true,and_true]
    rw [List.length_eq_zero_iff,eq_comm]
  | succ n ih =>
    simp only [tryReadExact,Option.bind_eq_bind,Option.bind_eq_some_iff,Option.pure_def,
      Option.some.injEq]
    constructor
    · rintro ⟨b,hb,cs,hcs,rfl⟩
      obtain ⟨hlen,hall⟩ := ih.1 hcs
      refine ⟨by rw [List.length_cons,hlen],fun i hi => ?_⟩
      cases i with
      | zero => exact hb
      | succ i =>
        rw [List.getElem?_cons_succ,← hall i (by omega)]
        congr 1
        omega
    · rintro ⟨hlen,hall⟩
      cases bs with
      | nil => simp at hlen
      | cons b cs =>
        refine ⟨b,hall 0 (Nat.succ_pos n),cs,ih.2 ⟨by simpa using hlen,fun i hi => ?_⟩,rfl⟩
        have h := hall (i + 1) (by omega)
        rw [List.getElem?_cons_succ] at h
        rw [← h]
        congr 1
        omega

theorem tryReadExact_take {n m : ℕ} (h : tryReadExact segmentSize d p n = some bs)
    (hm : m ≤ n) : tryReadExact segmentSize d p m = some (bs.take m) := by
  obtain ⟨hlen,hall⟩ := tryReadExact_iff.1 h
  refine tryReadExact_iff.2 ⟨by rw [List.length_take,hlen,min_eq_left hm],fun i hi => ?_⟩
  rw [hall i (by omega),List.getElem?_take,if_pos hi]

theorem tryReadExact_ne_none {n : ℕ} (h : ∀ i < n, readByte segmentSize d (p + i) ≠ none) :
    tryReadExact segmentSize d p n ≠ none := by
  induction n generalizing p with
  | zero => exact nofun
  | succ n ih =>
    obtain ⟨b,hb⟩ := Option.ne_none_iff_exists'.1 (h 0 (Nat.succ_pos n))
    obtain ⟨bs,hbs⟩ := Option.ne_none_iff_exists'.1 (@ih (p + 1) fun i hi => by
      rw [Nat.add_assoc,Nat.add_comm 1]
      exact h (i + 1) (Nat.succ_lt_succ hi))
    rw [Nat.add_zero] at hb
    simp only [tryReadExact,hb,hbs,Option.bind_eq_bind,Option.bind_some,Option.pure_def]
    exact nofun

theorem ReadsAs.tryReadExact {n : ℕ} {bs cs : List UInt8} (h : ReadsAs segmentSize d p bs)
    (hcs : tryReadExact segmentSize d p n = some cs) (hn : n ≤ bs.length) : cs = bs.take n := by
  obtain ⟨hlen,hall⟩ := tryReadExact_iff.1 hcs
  refine List.ext_getElem? fun i => ?_
  by_cases hi : i < n
  · have hb := hall i hi
    rw [List.getElem?_eq_getElem (by omega)] at hb
    rw [List.getElem?_take,if_pos hi,List.getElem?_eq_getElem (by omega),
      List.getElem?_eq_getElem (by omega),h i _ hb,List.getD_eq_getElem?_getD,
      List.getElem?_eq_getElem (by omega),Option.getD_some]
  · rw [List.getElem?_eq_none (by omega),List.getElem?_eq_none (by rw [List.length_take]; omega)]

theorem zeroToEnd_of_zeros (fuel : ℕ) {p : ℕ}
    (h : ∀ q b, p ≤ q → readByte segmentSize d q = some b → b = 0) :
    zeroToEnd segmentSize d fuel p = true := by
  induction fuel generalizing p with
  | zero => rfl
  | succ fuel ih =>
    rw [zeroToEnd]
    split
    · rfl
    · rename_i b hb
      rw [h p b le_rfl hb,ih fun q b hq => h q b (by omega)]
      rfl

theorem ReadsAs.zeros (h : ReadsAs segmentSize d p []) {q n : ℕ} (hq : p ≤ q)
    (hbs : WalReader.tryReadExact segmentSize d q n = some bs) : bs.all (· == 0) = true := by
  obtain ⟨hlen,hall⟩ := tryReadExact_iff.1 hbs
  rw [List.all_eq_true]
  intro b hb
  obtain ⟨i,hi,rfl⟩ := List.getElem_of_mem hb
  have hbyte := hall i (by omega)
  rw [List.getElem?_eq_getElem hi,show q + i = p + (q + i - p) by omega] at hbyte
  rw [h _ _ hbyte]
  rfl

theorem nextRecord_blank (h : ReadsAs segmentSize d p []) :
    nextRecord segmentSize crc32 d p = .ok none := by
  unfold nextRecord
  split
  · rfl
  rename_i header hheader
  rw [if_pos (h.zeros le_rfl hheader)]
  dsimp only
  split
  · rfl
  rename_i probe hprobe
  have hz := h.zeros (Nat.le_add_right p _) hprobe
  rw [if_neg]
  rw [List.any_eq_true]
  rintro ⟨b,hb,hne⟩
  have := List.all_eq_true.1 hz b hb
  simp_all

theorem nextRecord_nonzero
    (hread : ∀ header, tryReadExact segmentSize d p walRecordHeaderSize = some header →
      header = bs.take walRecordHeaderSize)
    (hnz : ¬(bs.take walRecordHeaderSize).all (· == 0) = true) :
    nextRecord segmentSize crc32 d p =
      match tryReadExact segmentSize d p (WalRecord.total bs) with
      | none => .ok none
      | some buf =>
        match WalRecord.decode crc32 buf with
        | .ok (r,_) => .ok (some (r,p + WalRecord.total bs))
        | .error (.walCorrupted l) =>
          if isTornTail segmentSize d p (p + WalRecord.total bs) bs then .ok none
          else .error (.walCorrupted l)
        | .error e => .error e := by
  have h32 : walRecordHeaderSize ≤ WalRecord.total bs := WalRecord.header_le_total bs
  unfold nextRecord
  cases hh : tryReadExact segmentSize d p walRecordHeaderSize with
  | none =>
    cases ht : tryReadExact segmentSize d p (WalRecord.total bs) with
    | none => rfl
    | some buf =>
      rw [tryReadExact_take ht h32] at hh
      cases hh
  | some header =>
    have hheader := hread header hh
    have htake : (bs.take walRecordHeaderSize).take 8 = bs.take 8 := List.take_take ..
    have hlen : fromLe ((header.drop 26).take 2) = WalRecord.payloadLen bs := by
      rw [hheader,List.drop_take,List.take_take]
      rfl
    have hall : ¬header.all (· == 0) = true := hheader ▸ hnz
    have htorn : isTornTail segmentSize d p (p + WalRecord.total bs) header =
        isTornTail segmentSize d p (p + WalRecord.total bs) bs := by
      rw [isTornTail,isTornTail,hheader,htake]
    simp only [hall,hlen]
    unfold WalRecord.total at htorn ⊢
    rw [htorn]
    rfl

theorem header_nonzero (hnz : fromLe (bs.take 8) ≠ 0) :
    ¬(bs.take walRecordHeaderSize).all (· == 0) = true := by
  have htake : (bs.take walRecordHeaderSize).take 8 = bs.take 8 := List.take_take ..
  intro hz
  refine hnz (fromLe_eq_zero ?_)
  rw [← htake]
  exact List.all_eq_true.2 fun b hb => List.all_eq_true.1 hz b (List.mem_of_mem_take hb)

variable {r : WalRecord} {buf : List UInt8}

/-- A record that stands at `p` in full is read, and the reader goes on behind it. -/
theorem nextRecord_whole (hf : r.Fits) (henc : r.encode crc32 = .ok buf) (hlsn : r.lsn ≠ 0)
    (hread : tryReadExact segmentSize d p buf.length = some buf) :
    nextRecord segmentSize crc32 d p = .ok (some (r,p + buf.length)) := by
  have htotal : WalRecord.total buf = buf.length :=
    (WalRecord.total_encode henc).trans (WalRecord.encode_length crc32 henc).symm
  have h32 : walRecordHeaderSize ≤ buf.length := htotal ▸ WalRecord.header_le_total buf
  have hzero : fromLe (buf.take 8) ≠ 0 := by
    rwa [(WalRecord.encode_fields henc).1,fromLe_leBytes hf.lsn]
  have hheader : ∀ header, tryReadExact segmentSize d p walRecordHeaderSize = some header →
      header = buf.take walRecordHeaderSize := fun header hh =>
    (Option.some.inj ((tryReadExact_take hread h32).symm.trans hh)).symm
  rw [nextRecord_nonzero hheader (header_nonzero hzero),htotal,hread]
  simp only [WalRecord.decode_encode hf henc]

theorem readsAs_nil_of_cut {k : ℕ} (hf : r.Fits)
    (henc : r.encode crc32 = .ok buf) (hlsn : r.lsn = p) (hp : p ≠ 0)
    (hread : ReadsAs segmentSize d p (torn k buf)) (hcut : p % 256 ^ k = 0) :
    ReadsAs segmentSize d p [] := by
  have hlsnField := WalRecord.encode_take_lsn hf henc k
  rw [hlsn] at hlsnField
  have hk : k < 8 := by
    by_contra hk
    have hpow : p < 256 ^ k := by
      rw [← hlsn]
      exact hf.lsn.trans_le (Nat.pow_le_pow_right (by norm_num) (by omega))
    rw [Nat.mod_eq_of_lt hpow] at hcut
    exact hp hcut
  have hlen : 8 ≤ (torn k buf).length := by
    rw [torn_length,WalRecord.encode_length crc32 henc]
    exact le_trans (by decide) ((WalRecord.header_le_total _).trans
      (WalRecord.total_torn_le henc k))
  have hz := List.all_eq_true.1 (all_zero_of_fromLe (hlsnField.trans hcut))
  intro i b hb
  rw [hread i b hb]
  by_cases hi : i < 8
  · have hmem : (torn k buf).getD i 0 ∈ (torn k buf).take 8 := by
      rw [List.getD_eq_getElem?_getD,List.getElem?_eq_getElem (by omega),Option.getD_some]
      exact List.mem_take_iff_getElem.2 ⟨i,by omega,rfl⟩
    simpa using hz _ hmem
  · exact torn_getD_of_le buf (by omega)

/-- What is left of the position field is neither the position nor nothing. -/
def PositionLost (segmentSize : ℕ) (d : WalDir) (p k : ℕ) : Prop :=
  p % 256 ^ k ≠ 0 ∧ p % 256 ^ k ≠ p ∧ tryReadExact segmentSize d p walRecordHeaderSize ≠ none

theorem total_torn_of_lt {k : ℕ} (henc : r.encode crc32 = .ok buf) (hk : k < 8) :
    WalRecord.total (torn k buf) = walRecordHeaderSize := by
  rw [WalRecord.total,WalRecord.payloadLen_torn henc,Nat.sub_eq_zero_of_le (by omega),pow_zero,
    Nat.mod_one]
  rfl

theorem lt_of_mod_ne {k : ℕ} (hp : p < 256 ^ 8) (h : p % 256 ^ k ≠ p) : k < 8 := by
  by_contra hk
  exact h (Nat.mod_eq_of_lt (hp.trans_le (Nat.pow_le_pow_right (by norm_num) (not_lt.1 hk))))

/-- A torn record is the end of the log unless its position is lost. -/
theorem nextRecord_torn {k : ℕ} (hf : r.Fits)
    (henc : r.encode crc32 = .ok buf) (hlsn : r.lsn = p) (hp : p ≠ 0)
    (hread : ReadsAs segmentSize d p (torn k buf))
    (hcrc : WalRecord.CrcFails crc32 (torn k buf)) :
    (¬PositionLost segmentSize d p k → nextRecord segmentSize crc32 d p = .ok none) ∧
      (PositionLost segmentSize d p k →
        ∃ l, nextRecord segmentSize crc32 d p = .error (.walCorrupted l)) := by
  by_cases hzero : p % 256 ^ k = 0
  · exact ⟨fun _ => nextRecord_blank (readsAs_nil_of_cut hf henc hlsn hp hread hzero),
      fun hlost => absurd hzero hlost.1⟩
  have hlsnField := WalRecord.encode_take_lsn hf henc k
  rw [hlsn] at hlsnField
  have hle : WalRecord.total (torn k buf) ≤ (torn k buf).length := by
    rw [torn_length,WalRecord.encode_length crc32 henc]
    exact WalRecord.total_torn_le henc k
  have hheader : ∀ header, tryReadExact segmentSize d p walRecordHeaderSize = some header →
      header = (torn k buf).take walRecordHeaderSize := fun header hh =>
    hread.tryReadExact hh ((WalRecord.header_le_total _).trans hle)
  rw [nextRecord_nonzero hheader (header_nonzero (hlsnField ▸ hzero))]
  cases ht : tryReadExact segmentSize d p (WalRecord.total (torn k buf)) with
  | none =>
    refine ⟨fun _ => rfl,fun hlost => absurd ?_ hlost.2.2⟩
    rw [← total_torn_of_lt henc (lt_of_mod_ne (hlsn ▸ hf.lsn) hlost.2.1)]
    exact ht
  | some bs =>
    obtain ⟨l,hl⟩ := WalRecord.decode_of_crcFails hcrc hle
    have htorn : isTornTail segmentSize d p (p + WalRecord.total (torn k buf)) (torn k buf) =
        decide (p % 256 ^ k = p) := by
      rw [isTornTail,hlsnField]
      by_cases hcut : p % 256 ^ k = p
      · rw [hcut,beq_self_eq_true,Bool.true_and,decide_eq_true rfl]
        refine zeroToEnd_of_zeros _ fun q b hq hb => ?_
        rw [show q = p + (q - p) by omega] at hb
        rw [hread _ _ hb]
        exact WalRecord.torn_behind_total henc (by omega)
      · rw [decide_eq_false hcut,beq_eq_false_iff_ne.2 hcut,Bool.false_and]
    simp only [hread.tryReadExact ht hle,hl,htorn,decide_eq_true_eq]
    constructor
    · intro hkept
      rw [if_pos]
      by_contra hcut
      refine hkept ⟨hzero,hcut,?_⟩
      rw [tryReadExact_take ht (WalRecord.header_le_total _)]
      exact nofun
    · rintro ⟨-,hcut,-⟩
      rw [if_neg hcut]
      exact ⟨l,rfl⟩

theorem nextRecord_short (hf : r.Fits)
    (henc : r.encode crc32 = .ok buf) (hlsn : r.lsn ≠ 0) (hread : ReadsAs segmentSize d p buf)
    (hshort : tryReadExact segmentSize d p buf.length = none) :
    nextRecord segmentSize crc32 d p = .ok none := by
  have htotal : WalRecord.total buf = buf.length :=
    (WalRecord.total_encode henc).trans (WalRecord.encode_length crc32 henc).symm
  have hzero : fromLe (buf.take 8) ≠ 0 := by
    rwa [(WalRecord.encode_fields henc).1,fromLe_leBytes hf.lsn]
  rw [nextRecord_nonzero (fun header hh => hread.tryReadExact hh
    (htotal ▸ WalRecord.header_le_total buf)) (header_nonzero hzero),htotal,hshort]

theorem nextRecord_bounds {q : ℕ} (h : nextRecord segmentSize crc32 d p = .ok (some (r,q))) :
    p + 32 ≤ q ∧ ∃ b, readByte segmentSize d (q - 1) = some b := by
  have hbytes : ∀ n bs, tryReadExact segmentSize d p n = some bs → 32 ≤ n →
      p + 32 ≤ p + n ∧ ∃ b, readByte segmentSize d (p + n - 1) = some b := by
    intro n bs hbs hn
    obtain ⟨hlen,hall⟩ := tryReadExact_iff.1 hbs
    refine ⟨by omega,bs[n - 1],?_⟩
    rw [show p + n - 1 = p + (n - 1) by omega,hall (n - 1) (by omega),
      List.getElem?_eq_getElem (by omega)]
  unfold nextRecord at h
  split at h
  · cases h
  split at h
  · dsimp only at h
    repeat' split at h
    all_goals cases h
  · dsimp only at h
    split at h
    · cases h
    · rename_i header _ _ _ buf hbuf
      repeat' split at h
      all_goals cases h
      exact hbytes _ buf hbuf (WalRecord.header_le_total header)

theorem lt_streamBound {b : UInt8} (hpos : 0 < segmentSize)
    (h : readByte segmentSize d p = some b) :
    p < streamBound segmentSize d := by
  unfold readByte at h
  simp only [Option.ite_none_right_eq_some] at h
  have hle := d.le_discoverLatestSegmentId h.1.1
  have hdm := Nat.lt_mul_div_succ p hpos
  unfold streamBound
  calc p < segmentSize * (p / segmentSize + 1) := hdm
    _ ≤ segmentSize * (d.discoverLatestSegmentId + 1) :=
        Nat.mul_le_mul_left _ (Nat.succ_le_succ hle)
    _ = (d.discoverLatestSegmentId + 1) * segmentSize := Nat.mul_comm _ _

namespace Yields

variable {rs : List WalRecord} {out : Except StorageError ℕ}

theorem length_le (hpos : 0 < segmentSize) (h : Yields segmentSize crc32 d p rs out) :
    rs.length ≤ streamBound segmentSize d - p := by
  induction h with
  | done h | fail h => exact Nat.zero_le _
  | step h _ ih =>
    obtain ⟨hle,b,hb⟩ := nextRecord_bounds h
    have hlt := lt_streamBound hpos hb
    rw [List.length_cons]
    omega

theorem length_lt (hpos : 0 < segmentSize) (hp : 0 < p)
    (h : Yields segmentSize crc32 d p rs out) : rs.length < streamBound segmentSize d := by
  have hle := h.length_le hpos
  have hbound : 0 < streamBound segmentSize d := Nat.mul_pos (Nat.succ_pos _) hpos
  omega

theorem readLog_eq {fuel : ℕ} (h : Yields segmentSize crc32 d p rs out) (hfuel : rs.length < fuel) :
    readLog segmentSize crc32 d fuel p = out.map fun e => (rs,e) := by
  induction h generalizing fuel with
  | done h | fail h =>
    obtain ⟨n,rfl⟩ := Nat.exists_eq_succ_of_ne_zero (Nat.ne_zero_of_lt hfuel)
    rw [readLog,h]
    rfl
  | @step _ _ _ rs out h _ ih =>
    obtain ⟨n,rfl⟩ := Nat.exists_eq_succ_of_ne_zero (Nat.ne_zero_of_lt hfuel)
    rw [List.length_cons] at hfuel
    rw [readLog,h]
    simp only [ih (Nat.lt_of_succ_lt_succ hfuel)]
    cases out <;> rfl

theorem scanEnd_eq {fuel : ℕ} (h : Yields segmentSize crc32 d p rs out) (hfuel : rs.length < fuel) :
    scanEnd segmentSize crc32 d fuel p = out := by
  induction h generalizing fuel with
  | done h | fail h =>
    obtain ⟨n,rfl⟩ := Nat.exists_eq_succ_of_ne_zero (Nat.ne_zero_of_lt hfuel)
    rw [scanEnd,h]
  | step h _ ih =>
    obtain ⟨n,rfl⟩ := Nat.exists_eq_succ_of_ne_zero (Nat.ne_zero_of_lt hfuel)
    rw [List.length_cons] at hfuel
    rw [scanEnd,h]
    exact ih (Nat.lt_of_succ_lt_succ hfuel)

theorem records_eq (hpos : 0 < segmentSize) (hp : 0 < p)
    (h : Yields segmentSize crc32 d p rs out) :
    records segmentSize crc32 d p = out.map fun e => (rs,e) :=
  h.readLog_eq (h.length_lt hpos hp)

end Yields

end WalReader
end PgAm
