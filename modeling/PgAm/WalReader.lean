import PgAm.WalSegment

/-! Sequential reading of the WAL. The reader treats the segment files as one byte
stream and stops at the end of the log: a missing file, an all-zero header, or a
record that the last write before a crash left incomplete. -/
namespace PgAm
namespace WalReader

section SegmentSize
variable (segmentSize : ℕ)

/-- The byte at a position; `none` behind the end of a file or without a file. -/
def readByte (d : WalDir) (p : ℕ) : Option UInt8 :=
  let file := d.file (Lsn.segmentId p segmentSize)
  let offset := Lsn.segmentOffset p segmentSize
  if Lsn.segmentId p segmentSize ∈ d.ids ∧ offset < file.len then
    some ((file.data offset).getD 0)
  else none

def tryReadExact (d : WalDir) (p : ℕ) : ℕ → Option (List UInt8)
  | 0 => some []
  | n+1 => do
    let b ← readByte segmentSize d p
    let bs ← tryReadExact d (p + 1) n
    return b :: bs

def zeroToEnd (d : WalDir) : ℕ → ℕ → Bool
  | 0, _ => true
  | fuel+1, p =>
    match readByte segmentSize d p with
    | none => true
    | some b => b == 0 && zeroToEnd d fuel (p + 1)

def streamBound (d : WalDir) : ℕ := (d.discoverLatestSegmentId + 1) * segmentSize

/-- Its header names its own position, and nothing but zeros follows it. -/
def isTornTail (d : WalDir) (startLsn recordEnd : ℕ) (header : List UInt8) : Bool :=
  fromLe (header.take 8) == startLsn &&
    zeroToEnd segmentSize d (streamBound segmentSize d) recordEnd

variable (crc32 : List UInt8 → UInt32)

/-- The record at `startLsn` with the position behind it, or the end of the log. -/
def nextRecord (d : WalDir) (startLsn : ℕ) :
    Except StorageError (Option (WalRecord × ℕ)) :=
  match tryReadExact segmentSize d startLsn walRecordHeaderSize with
  | none => .ok none
  | some header =>
    if header.all (· == 0) then
      let probePos := startLsn + walRecordHeaderSize
      match tryReadExact segmentSize d probePos walRecordHeaderSize with
      | none => .ok none
      | some probe =>
        if probe.any (· != 0) then
          .error (.metadataCorrupted ("WAL hole detected: zero-filled header at " ++
            Lsn.display startLsn ++ " followed by non-zero data at " ++ Lsn.display probePos ++
            "; an unflushed reserved slot truncated the log"))
        else .ok none
    else
      let payloadLen := fromLe ((header.drop 26).take 2)
      let total := alignUp (walRecordHeaderSize + payloadLen) 8
      match tryReadExact segmentSize d startLsn total with
      | none => .ok none
      | some buf =>
        match WalRecord.decode crc32 buf with
        | .ok (r,_) => .ok (some (r,startLsn + total))
        | .error (.walCorrupted l) =>
          if isTornTail segmentSize d startLsn (startLsn + total) header then .ok none
          else .error (.walCorrupted l)
        | .error e => .error e

def scanEnd (d : WalDir) : ℕ → ℕ → Except StorageError ℕ
  | 0, p => .ok p
  | fuel+1, p =>
    match nextRecord segmentSize crc32 d p with
    | .error e => .error e
    | .ok none => .ok p
    | .ok (some (_,q)) => scanEnd d fuel q

/-- `WalReader::open_at`: the start must be aligned and its segment file present. -/
def openAt (d : WalDir) (startLsn : ℕ) : Except StorageError Unit :=
  if ¬Lsn.isValid startLsn ∨ startLsn % lsnAlignment ≠ 0 then
    .error (.invalidConfig ("invalid WAL start LSN " ++ Lsn.display startLsn))
  else if Lsn.segmentId startLsn segmentSize ∈ d.ids then .ok ()
  else .error (.io "No such file or directory (os error 2)")

variable {segmentSize} {crc32}

theorem nextRecord_le {d : WalDir} {p q : ℕ} {r : WalRecord}
    (h : nextRecord segmentSize crc32 d p = .ok (some (r,q))) : p ≤ q := by
  unfold nextRecord at h
  split at h
  · cases h
  · split at h
    · dsimp only at h
      repeat' split at h
      all_goals cases h
    · dsimp only at h
      split at h
      · cases h
      · repeat' split at h
        all_goals cases h
        exact Nat.le_add_right _ _

theorem scanEnd_le {d : WalDir} {fuel p q : ℕ} (h : scanEnd segmentSize crc32 d fuel p = .ok q) :
    p ≤ q := by
  induction fuel generalizing p with
  | zero =>
    cases h
    exact le_rfl
  | succ fuel ih =>
    simp only [scanEnd] at h
    split at h
    · cases h
    · cases h
      exact le_rfl
    · rename_i hr
      exact (nextRecord_le hr).trans (ih h)

theorem openAt_pos {d : WalDir} {p : ℕ} (h : openAt segmentSize d p = .ok ()) : 0 < p := by
  by_contra hp
  have hzero : p = 0 := by omega
  subst hzero
  simp [openAt,Lsn.isValid] at h

end SegmentSize
end WalReader
end PgAm
