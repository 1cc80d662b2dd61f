import PgAm.WalTail

/-! The reader as it works on the files. It keeps one segment file open and goes to another one
when a read crosses a boundary; a single `read` may return fewer bytes than it was asked for. In
whatever pieces the bytes arrive, the reader gets what stands in the stream. -/
namespace PgAm

structure SegmentReader where
  currentSegmentId : ℕ
  currentLsn : ℕ

namespace SegmentReader

section SegmentSize
variable (segmentSize : ℕ)

/-- `read` on a file: nothing at its end, else one byte and up to `short` more. -/
def readFile (f : SegmentFile) (short offset chunk : ℕ) : List UInt8 :=
  (List.range (min (short + 1) (min chunk (f.len - offset)))).map fun i =>
    (f.data (offset + i)).getD 0

/-- One round of a reading loop, for at most `want` bytes; `none` if the segment has no file. -/
def readRound (d : WalDir) (short cur pos want : ℕ) : Option (List UInt8) :=
  let segmentId := Lsn.segmentId pos segmentSize
  let offset := Lsn.segmentOffset pos segmentSize
  if segmentId ≠ cur ∧ segmentId ∉ d.ids then none
  else some (readFile (d.file segmentId) short offset (min (segmentSize - offset) want))

/-- Every round gets at least one byte, so `want` rounds are enough. -/
def tryReadExactAt (d : WalDir) (short : ℕ → ℕ) : ℕ → ℕ → ℕ → ℕ → Option (List UInt8) × ℕ
  | 0, cur, _, want => (if want = 0 then some [] else none,cur)
  | fuel+1, cur, pos, want =>
    if want = 0 then (some [],cur)
    else
      match readRound segmentSize d (short pos) cur pos want with
      | none => (none,cur)
      | some [] => (none,Lsn.segmentId pos segmentSize)
      | some (b :: bs) =>
        let n := (b :: bs).length
        let (rest,last) := tryReadExactAt d short fuel (Lsn.segmentId pos segmentSize) (pos + n)
          (want - n)
        (rest.map ((b :: bs) ++ ·),last)

def tryReadExact (d : WalDir) (short : ℕ → ℕ) (rd : SegmentReader) (n : ℕ) :
    Option (List UInt8) × SegmentReader :=
  match tryReadExactAt segmentSize d short n rd.currentSegmentId rd.currentLsn n with
  | (none,cur) => (none,{ rd with currentSegmentId := cur })
  | (some bs,cur) => (some bs,⟨cur,rd.currentLsn + n⟩)

def scanBuffer : ℕ := 64 * 1024

def zeroTail (d : WalDir) (short : ℕ → ℕ) : ℕ → ℕ → ℕ → Bool × ℕ
  | 0, cur, _ => (true,cur)
  | fuel+1, cur, pos =>
    match readRound segmentSize d (short pos) cur pos scanBuffer with
    | none => (true,cur)
    | some [] => (true,Lsn.segmentId pos segmentSize)
    | some (b :: bs) =>
      if (b :: bs).any (· != 0) then (false,Lsn.segmentId pos segmentSize)
      else zeroTail d short fuel (Lsn.segmentId pos segmentSize) (pos + (b :: bs).length)

def isTornTail (d : WalDir) (short : ℕ → ℕ) (cur startLsn recordEnd : ℕ) (header : List UInt8) :
    Bool × ℕ :=
  if fromLe (header.take 8) ≠ startLsn then (false,cur)
  else zeroTail segmentSize d short (WalReader.streamBound segmentSize d) cur recordEnd

variable (crc32 : List UInt8 → UInt32)

/-- `short` says how the bytes arrive. An error leaves the position behind the bytes read. -/
def nextRecord (d : WalDir) (short : ℕ → ℕ → ℕ) (rd : SegmentReader) :
    Except StorageError (Option WalRecord) × SegmentReader :=
  let startLsn := rd.currentLsn
  match tryReadExact segmentSize d (short 0) rd walRecordHeaderSize with
  | (none,rd) => (.ok none,rd)
  | (some header,rd) =>
    if header.all (· == 0) then
      let probePos := startLsn + walRecordHeaderSize
      match tryReadExactAt segmentSize d (short 1) walRecordHeaderSize rd.currentSegmentId probePos
          walRecordHeaderSize with
      | (none,cur) => (.ok none,⟨cur,startLsn⟩)
      | (some probe,cur) =>
        if probe.any (· != 0) then
          (.error (.metadataCorrupted ("WAL hole detected: zero-filled header at " ++
            Lsn.display startLsn ++ " followed by non-zero data at " ++ Lsn.display probePos ++
            "; an unflushed reserved slot truncated the log")),{ rd with currentSegmentId := cur })
        else (.ok none,⟨cur,startLsn⟩)
    else
      let payloadLen := fromLe ((header.drop 26).take 2)
      let total := alignUp (walRecordHeaderSize + payloadLen) 8
      match tryReadExact segmentSize d (short 1) rd (total - walRecordHeaderSize) with
      | (none,rd) => (.ok none,{ rd with currentLsn := startLsn })
      | (some rest,rd) =>
        match WalRecord.decode crc32 (header ++ rest) with
        | .ok (r,_) => (.ok (some r),rd)
        | .error (.walCorrupted l) =>
          match isTornTail segmentSize d (short 2) rd.currentSegmentId startLsn (startLsn + total)
              header with
          | (true,cur) => (.ok none,⟨cur,startLsn⟩)
          | (false,cur) => (.error (.walCorrupted l),{ rd with currentSegmentId := cur })
        | .error e => (.error e,rd)

def nextRecords (d : WalDir) (short : ℕ → ℕ → ℕ → ℕ) :
    ℕ → SegmentReader → List (Except StorageError (Option WalRecord))
  | 0, _ => []
  | n+1, rd =>
    let out := nextRecord segmentSize crc32 d (short n) rd
    out.1 :: nextRecords d short n out.2

/-- `open_at`: the reader starts in the file of its first position. -/
def openAt (d : WalDir) (startLsn : ℕ) : Except StorageError SegmentReader :=
  (WalReader.openAt segmentSize d startLsn).map fun _ =>
    ⟨Lsn.segmentId startLsn segmentSize,startLsn⟩

end SegmentSize

variable {segmentSize : ℕ} {crc32 : List UInt8 → UInt32} {d : WalDir} {cur pos : ℕ}

@[simp] theorem readFile_length (f : SegmentFile) (short offset chunk : ℕ) :
    (readFile f short offset chunk).length = min (short + 1) (min chunk (f.len - offset)) := by
  simp [readFile]

theorem readFile_getElem? {f : SegmentFile} {short offset chunk i : ℕ}
    (hi : i < (readFile f short offset chunk).length) :
    (readFile f short offset chunk)[i]? = some ((f.data (offset + i)).getD 0) := by
  rw [readFile_length] at hi
  rw [readFile,List.getElem?_map,List.getElem?_range hi,Option.map_some]

theorem segment_add {i : ℕ} (hi : Lsn.segmentOffset pos segmentSize + i < segmentSize) :
    Lsn.segmentId (pos + i) segmentSize = Lsn.segmentId pos segmentSize ∧
      Lsn.segmentOffset (pos + i) segmentSize = Lsn.segmentOffset pos segmentSize + i := by
  have hpos : 0 < segmentSize := by omega
  have hsplit : pos + i = (pos % segmentSize + i) + segmentSize * (pos / segmentSize) := by
    have := Nat.mod_add_div pos segmentSize
    omega
  unfold Lsn.segmentId Lsn.segmentOffset at *
  constructor
  · rw [hsplit,Nat.add_mul_div_left _ _ hpos,Nat.div_eq_of_lt hi,Nat.zero_add]
  · rw [hsplit,Nat.add_mul_mod_self_left,Nat.mod_eq_of_lt hi]

theorem readRound_cases {short want : ℕ} (hpos : 0 < segmentSize) (hcur : cur ∈ d.ids)
    (hwant : 0 < want) :
    (WalReader.readByte segmentSize d pos = none ∧
      (readRound segmentSize d short cur pos want = none ∨
        Lsn.segmentId pos segmentSize ∈ d.ids ∧
          readRound segmentSize d short cur pos want = some [])) ∨
    ∃ b bs, Lsn.segmentId pos segmentSize ∈ d.ids ∧
      readRound segmentSize d short cur pos want = some (b :: bs) ∧ (b :: bs).length ≤ want ∧
      WalReader.tryReadExact segmentSize d pos (b :: bs).length = some (b :: bs) := by
  by_cases hid : Lsn.segmentId pos segmentSize ∈ d.ids
  swap
  · refine .inl ⟨?_,.inl ?_⟩
    · rw [WalReader.readByte,if_neg fun h => hid h.1]
    · rw [readRound,if_pos]
      exact ⟨fun he => hid (he ▸ hcur),hid⟩
  have hround : readRound segmentSize d short cur pos want = some (readFile
      (d.file (Lsn.segmentId pos segmentSize)) short (Lsn.segmentOffset pos segmentSize)
      (min (segmentSize - Lsn.segmentOffset pos segmentSize) want)) := by
    rw [readRound,if_neg fun h => h.2 hid]
  have hoff : Lsn.segmentOffset pos segmentSize < segmentSize := Nat.mod_lt _ hpos
  cases hbs : readFile (d.file (Lsn.segmentId pos segmentSize)) short
      (Lsn.segmentOffset pos segmentSize)
      (min (segmentSize - Lsn.segmentOffset pos segmentSize) want) with
  | nil =>
    refine .inl ⟨?_,.inr ⟨hid,by rw [hround,hbs]⟩⟩
    have hlen := congrArg List.length hbs
    rw [readFile_length,List.length_nil] at hlen
    rw [WalReader.readByte,if_neg]
    rintro ⟨-,hlt⟩
    omega
  | cons b bs =>
    have hlen := congrArg List.length hbs
    rw [readFile_length] at hlen
    refine .inr ⟨b,bs,hid,by rw [hround,hbs],by omega,?_⟩
    refine WalReader.tryReadExact_iff.2 ⟨rfl,fun i hi => ?_⟩
    have hseg : Lsn.segmentOffset pos segmentSize + i < segmentSize := by omega
    obtain ⟨hseg₁,hseg₂⟩ := segment_add hseg
    have hi' := hi
    rw [← hbs] at hi' ⊢
    rw [readFile_getElem? hi',WalReader.readByte]
    simp only [hseg₁,hseg₂]
    rw [if_pos ⟨hid,by omega⟩]

end SegmentReader

namespace WalReader

variable {segmentSize : ℕ} {crc32 : List UInt8 → UInt32} {d : WalDir} {p : ℕ}

theorem tryReadExact_add (m n : ℕ) :
    tryReadExact segmentSize d p (m + n) =
      (tryReadExact segmentSize d p m).bind fun bs =>
        (tryReadExact segmentSize d (p + m) n).map (bs ++ ·) := by
  induction m generalizing p with
  | zero => simp [tryReadExact]
  | succ m ih =>
    have hp : p + (m + 1) = p + 1 + m := by omega
    rw [Nat.succ_add,tryReadExact,tryReadExact,ih,hp]
    cases readByte segmentSize d p with
    | none => rfl
    | some b =>
      cases tryReadExact segmentSize d (p + 1) m with
      | none => rfl
      | some bs => cases tryReadExact segmentSize d (p + 1 + m) n <;> rfl

theorem tryReadExact_none {n : ℕ} (h : readByte segmentSize d p = none) (hn : 0 < n) :
    tryReadExact segmentSize d p n = none := by
  obtain ⟨m,rfl⟩ := Nat.exists_eq_succ_of_ne_zero hn.ne'
  rw [tryReadExact,h]
  rfl

theorem zeroToEnd_of_read {fuel : ℕ} {bs : List UInt8}
    (h : tryReadExact segmentSize d p bs.length = some bs) :
    zeroToEnd segmentSize d (bs.length + fuel) p =
      (bs.all (· == 0) && zeroToEnd segmentSize d fuel (p + bs.length)) := by
  induction bs generalizing p with
  | nil => simp
  | cons b bs ih =>
    obtain ⟨-,hall⟩ := tryReadExact_iff.1 h
    have hb : readByte segmentSize d p = some b := hall 0 (Nat.succ_pos _)
    have hrest : tryReadExact segmentSize d (p + 1) bs.length = some bs := by
      refine tryReadExact_iff.2 ⟨rfl,fun i hi => ?_⟩
      have := hall (i + 1) (Nat.succ_lt_succ hi)
      rw [List.getElem?_cons_succ] at this
      rw [← this]
      congr 1
      omega
    have hp : p + (b :: bs).length = p + 1 + bs.length := by
      rw [List.length_cons]
      omega
    rw [List.length_cons,Nat.succ_add,zeroToEnd,hb]
    simp only [ih hrest,List.all_cons,Bool.and_assoc]
    rw [← hp,List.length_cons]

theorem zeroToEnd_none {fuel : ℕ} (h : readByte segmentSize d p = none) :
    zeroToEnd segmentSize d fuel p = true := by
  cases fuel with
  | zero => rfl
  | succ fuel => rw [zeroToEnd,h]

end WalReader

namespace SegmentReader

variable {segmentSize : ℕ} {crc32 : List UInt8 → UInt32} {d : WalDir} {cur pos : ℕ}

/-- In whatever pieces the bytes arrive, the loop reads the stream. -/
theorem tryReadExactAt_eq (hpos : 0 < segmentSize) (short : ℕ → ℕ) {fuel want : ℕ}
    (hcur : cur ∈ d.ids) (hfuel : want ≤ fuel) :
    (tryReadExactAt segmentSize d short fuel cur pos want).1 =
        WalReader.tryReadExact segmentSize d pos want ∧
      (tryReadExactAt segmentSize d short fuel cur pos want).2 ∈ d.ids := by
  induction fuel generalizing cur pos want with
  | zero =>
    obtain rfl : want = 0 := by omega
    exact ⟨rfl,hcur⟩
  | succ fuel ih =>
    rw [tryReadExactAt]
    by_cases hw : want = 0
    · subst hw
      exact ⟨rfl,hcur⟩
    have hwant : 0 < want := Nat.pos_of_ne_zero hw
    rw [if_neg hw]
    rcases @readRound_cases segmentSize d cur pos (short pos) want hpos hcur hwant with
      ⟨hnone,hr | ⟨hid,hr⟩⟩ | ⟨b,bs,hid,hr,hle,hread⟩
    · rw [hr,WalReader.tryReadExact_none hnone hwant]
      exact ⟨rfl,hcur⟩
    · rw [hr,WalReader.tryReadExact_none hnone hwant]
      exact ⟨rfl,hid⟩
    · have hlen : 0 < (b :: bs).length := List.length_pos_of_ne_nil (List.cons_ne_nil b bs)
      obtain ⟨hrest,hlast⟩ := @ih (Lsn.segmentId pos segmentSize) (pos + (b :: bs).length)
        (want - (b :: bs).length) hid (by omega)
      rw [hr]
      dsimp only
      refine ⟨?_,hlast⟩
      have hsplit : want = (b :: bs).length + (want - (b :: bs).length) := by omega
      conv_rhs => rw [hsplit]
      rw [WalReader.tryReadExact_add,hread,hrest]
      rfl

theorem tryReadExact_eq (hpos : 0 < segmentSize) (short : ℕ → ℕ) {rd : SegmentReader}
    (hcur : rd.currentSegmentId ∈ d.ids) (n : ℕ) :
    ∃ last ∈ d.ids, tryReadExact segmentSize d short rd n =
      match WalReader.tryReadExact segmentSize d rd.currentLsn n with
      | none => (none,⟨last,rd.currentLsn⟩)
      | some bs => (some bs,⟨last,rd.currentLsn + n⟩) := by
  obtain ⟨hout,hlast⟩ := @tryReadExactAt_eq segmentSize d rd.currentSegmentId rd.currentLsn hpos
    short n n hcur le_rfl
  refine ⟨_,hlast,?_⟩
  unfold tryReadExact
  rw [← hout]
  generalize tryReadExactAt segmentSize d short n rd.currentSegmentId rd.currentLsn n = out
  obtain ⟨res,last⟩ := out
  cases res <;> rfl

theorem zeroTail_eq (hpos : 0 < segmentSize) (short : ℕ → ℕ) {fuel fuel' : ℕ}
    (hcur : cur ∈ d.ids) (hfuel : WalReader.streamBound segmentSize d ≤ pos + fuel)
    (hfuel' : WalReader.streamBound segmentSize d ≤ pos + fuel') :
    (zeroTail segmentSize d short fuel cur pos).1 =
        WalReader.zeroToEnd segmentSize d fuel' pos ∧
      (zeroTail segmentSize d short fuel cur pos).2 ∈ d.ids := by
  induction fuel generalizing cur pos fuel' with
  | zero =>
    have hnone : WalReader.readByte segmentSize d pos = none := by
      by_contra hne
      obtain ⟨b,hb⟩ := Option.ne_none_iff_exists'.1 hne
      have := WalReader.lt_streamBound hpos hb
      omega
    rw [WalReader.zeroToEnd_none hnone]
    exact ⟨rfl,hcur⟩
  | succ fuel ih =>
    rw [zeroTail]
    rcases @readRound_cases segmentSize d cur pos (short pos) scanBuffer hpos hcur (by decide) with
      ⟨hnone,hr | ⟨hid,hr⟩⟩ | ⟨b,bs,hid,hr,-,hread⟩
    · rw [hr,WalReader.zeroToEnd_none hnone]
      exact ⟨rfl,hcur⟩
    · rw [hr,WalReader.zeroToEnd_none hnone]
      exact ⟨rfl,hid⟩
    · rw [hr]
      dsimp only
      have hlen : 0 < (b :: bs).length := List.length_pos_of_ne_nil (List.cons_ne_nil b bs)
      obtain ⟨-,hall⟩ := WalReader.tryReadExact_iff.1 hread
      have hlast := hall ((b :: bs).length - 1) (by omega)
      rw [List.getElem?_eq_getElem (by omega)] at hlast
      have hbound := WalReader.lt_streamBound hpos hlast
      have hsplit : fuel' = (b :: bs).length + (fuel' - (b :: bs).length) := by omega
      rw [hsplit,WalReader.zeroToEnd_of_read hread]
      rw [show (b :: bs).any (· != 0) = !(b :: bs).all (· == 0) from
        (List.not_all_eq_any_not ..).symm]
      cases (b :: bs).all (· == 0) with
      | true => exact ih hid (by omega) (by omega)
      | false => exact ⟨rfl,hid⟩

theorem isTornTail_eq (hpos : 0 < segmentSize) (short : ℕ → ℕ) (hcur : cur ∈ d.ids)
    (startLsn recordEnd : ℕ) (header : List UInt8) :
    (isTornTail segmentSize d short cur startLsn recordEnd header).1 =
        WalReader.isTornTail segmentSize d startLsn recordEnd header ∧
      (isTornTail segmentSize d short cur startLsn recordEnd header).2 ∈ d.ids := by
  unfold isTornTail WalReader.isTornTail
  by_cases hlsn : fromLe (header.take 8) = startLsn
  · rw [if_neg (not_not.2 hlsn),hlsn,beq_self_eq_true,Bool.true_and]
    exact zeroTail_eq hpos short hcur (Nat.le_add_left _ _) (Nat.le_add_left _ _)
  · rw [if_pos hlsn,beq_eq_false_iff_ne.2 hlsn,Bool.false_and]
    exact ⟨rfl,hcur⟩

/-- The record, the end of the log with the position where it was, or an error. -/
def Follows (d : WalDir) (rd : SegmentReader) :
    Except StorageError (Option (WalRecord × ℕ)) →
      Except StorageError (Option WalRecord) × SegmentReader → Prop
  | .ok none, out => out.1 = .ok none ∧ out.2.currentLsn = rd.currentLsn ∧
      out.2.currentSegmentId ∈ d.ids
  | .ok (some (r,q)), out => out.1 = .ok (some r) ∧ out.2.currentLsn = q ∧
      out.2.currentSegmentId ∈ d.ids
  | .error e, out => out.1 = .error e

theorem nextRecord_follows (hpos : 0 < segmentSize) (short : ℕ → ℕ → ℕ) {rd : SegmentReader}
    (hcur : rd.currentSegmentId ∈ d.ids) :
    Follows d rd (WalReader.nextRecord segmentSize crc32 d rd.currentLsn)
      (nextRecord segmentSize crc32 d short rd) := by
  obtain ⟨last,hlast,hheader⟩ := tryReadExact_eq hpos (short 0) hcur walRecordHeaderSize
  unfold nextRecord WalReader.nextRecord
  rw [hheader]
  cases hh : WalReader.tryReadExact segmentSize d rd.currentLsn walRecordHeaderSize with
  | none => exact ⟨rfl,rfl,hlast⟩
  | some header =>
    dsimp only
    split
    · obtain ⟨hprobe,hmem⟩ := @tryReadExactAt_eq segmentSize d last
        (rd.currentLsn + walRecordHeaderSize) hpos (short 1) walRecordHeaderSize
        walRecordHeaderSize hlast le_rfl
      rw [← hprobe]
      generalize tryReadExactAt segmentSize d (short 1) walRecordHeaderSize last
        (rd.currentLsn + walRecordHeaderSize) walRecordHeaderSize = out at hmem
      obtain ⟨probe,cur⟩ := out
      cases probe with
      | none => exact ⟨rfl,rfl,hmem⟩
      | some probe =>
        dsimp only
        split
        · exact rfl
        · exact ⟨rfl,rfl,hmem⟩
    · have hle := WalRecord.header_le_total header
      unfold WalRecord.total WalRecord.payloadLen at hle
      generalize alignUp (walRecordHeaderSize + fromLe ((header.drop 26).take 2)) 8 = total at hle
      obtain ⟨last',hlast',hrest⟩ := @tryReadExact_eq segmentSize d hpos (short 1)
        ⟨last,rd.currentLsn + walRecordHeaderSize⟩ hlast (total - walRecordHeaderSize)
      have hsplit : WalReader.tryReadExact segmentSize d rd.currentLsn total =
          (WalReader.tryReadExact segmentSize d (rd.currentLsn + walRecordHeaderSize)
            (total - walRecordHeaderSize)).map (header ++ ·) := by
        conv_lhs => rw [show total = walRecordHeaderSize + (total - walRecordHeaderSize) by omega]
        rw [WalReader.tryReadExact_add,hh,Option.bind_some]
      rw [hrest,hsplit]
      dsimp only
      cases WalReader.tryReadExact segmentSize d (rd.currentLsn + walRecordHeaderSize)
          (total - walRecordHeaderSize) with
      | none => exact ⟨rfl,rfl,hlast'⟩
      | some rest =>
        simp only [Option.map_some]
        cases WalRecord.decode crc32 (header ++ rest) with
        | ok res =>
          refine ⟨rfl,?_,hlast'⟩
          change rd.currentLsn + walRecordHeaderSize + (total - walRecordHeaderSize) = _
          omega
        | error e =>
          cases e with
          | walCorrupted l =>
            obtain ⟨htorn,hmem⟩ := isTornTail_eq hpos (short 2) hlast' rd.currentLsn
              (rd.currentLsn + total) header
            dsimp only
            rw [← htorn]
            generalize isTornTail segmentSize d (short 2) last' rd.currentLsn
              (rd.currentLsn + total) header = out at hmem
            obtain ⟨b,cur⟩ := out
            cases b with
            | true => exact ⟨rfl,rfl,hmem⟩
            | false => exact rfl
          | _ => exact rfl

theorem nextRecords_succ (short : ℕ → ℕ → ℕ → ℕ) (n : ℕ) (rd : SegmentReader) :
    nextRecords segmentSize crc32 d short (n + 1) rd =
      (nextRecord segmentSize crc32 d (short n) rd).1 ::
        nextRecords segmentSize crc32 d short n
          (nextRecord segmentSize crc32 d (short n) rd).2 := by
  rw [nextRecords]

theorem nextRecords_done (hpos : 0 < segmentSize) (short : ℕ → ℕ → ℕ → ℕ) (n : ℕ)
    {rd : SegmentReader} (hcur : rd.currentSegmentId ∈ d.ids)
    (h : WalReader.nextRecord segmentSize crc32 d rd.currentLsn = .ok none) :
    nextRecords segmentSize crc32 d short n rd = List.replicate n (.ok none) := by
  induction n generalizing rd with
  | zero => rfl
  | succ n ih =>
    have hf := @nextRecord_follows segmentSize crc32 d hpos (short n) rd hcur
    rw [h] at hf
    obtain ⟨hout,hlsn,hmem⟩ := hf
    rw [nextRecords_succ,List.replicate_succ,hout,ih hmem (by rw [hlsn]; exact h)]

/-- The records of the stream, and then the end of the log as often as it is called. -/
theorem nextRecords_of_yields (hpos : 0 < segmentSize) (short : ℕ → ℕ → ℕ → ℕ) {p e n : ℕ}
    {rs : List WalRecord} {rd : SegmentReader} (hcur : rd.currentSegmentId ∈ d.ids)
    (hp : rd.currentLsn = p) (h : WalReader.Yields segmentSize crc32 d p rs (.ok e)) :
    nextRecords segmentSize crc32 d short (rs.length + n) rd =
      rs.map (fun r => .ok (some r)) ++ List.replicate n (.ok none) := by
  generalize hout : (Except.ok e : Except StorageError ℕ) = out at h
  induction h generalizing rd with
  | done h =>
    rw [List.length_nil,Nat.zero_add]
    exact nextRecords_done hpos short n hcur (hp ▸ h)
  | fail h => cases hout
  | @step p q r rs out h hrs ih =>
    have hlen : (r :: rs).length + n = (rs.length + n) + 1 := by
      rw [List.length_cons]
      omega
    have hf := @nextRecord_follows segmentSize crc32 d hpos (short (rs.length + n)) rd hcur
    rw [hp,h] at hf
    obtain ⟨hfirst,hlsn,hmem⟩ := hf
    rw [hlen,nextRecords_succ,List.map_cons,List.cons_append,hfirst,ih hmem hlsn hout]

theorem nextRecords_of_error (hpos : 0 < segmentSize) (short : ℕ → ℕ → ℕ → ℕ) {p : ℕ}
    {e : StorageError} {rs : List WalRecord} {rd : SegmentReader}
    (hcur : rd.currentSegmentId ∈ d.ids) (hp : rd.currentLsn = p)
    (h : WalReader.Yields segmentSize crc32 d p rs (.error e)) :
    nextRecords segmentSize crc32 d short (rs.length + 1) rd =
      rs.map (fun r => .ok (some r)) ++ [.error e] := by
  generalize hout : (Except.error e : Except StorageError ℕ) = out at h
  induction h generalizing rd with
  | done h => cases hout
  | fail h =>
    cases hout
    have hf := @nextRecord_follows segmentSize crc32 d hpos (short 0) rd hcur
    rw [hp,h] at hf
    rw [List.length_nil,Nat.zero_add,nextRecords_succ,show _ = _ from hf]
    rfl
  | @step p q r rs out h hrs ih =>
    have hf := @nextRecord_follows segmentSize crc32 d hpos (short (rs.length + 1)) rd hcur
    rw [hp,h] at hf
    obtain ⟨hfirst,hlsn,hmem⟩ := hf
    rw [List.length_cons,nextRecords_succ,List.map_cons,List.cons_append,hfirst,ih hmem hlsn hout]

end SegmentReader
end PgAm
