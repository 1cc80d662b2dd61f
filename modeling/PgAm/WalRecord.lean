import PgAm.Types

/-! The WAL record format: a 32-byte header, the payload and zero padding up to a
multiple of eight bytes. The checksum is the CRC-32 of the `crc32fast` crate; it
is a parameter here. -/
namespace PgAm

inductive WalRecordType
  | heapInsert | heapUpdate | heapDelete
  | btreeInsert | btreeSplitPrepare | btreeDelete
  | heapHotUpdate | heapCleanup
  | fullPageImage
  | txnBegin | txnCommit | txnAbort
  | checkpointBegin | checkpointEnd
  | pageAlloc | pageFree
  | btreeSplitCLR | btreeSplitCopy | btreeSplitCommit
  | logicalHnsw | logicalInverted | logicalGraph | logicalTimeSeries
  | segmentSeal | segmentMerge
  deriving DecidableEq, Repr

namespace WalRecordType

def toU8 : WalRecordType → UInt8
  | heapInsert => 1 | heapUpdate => 2 | heapDelete => 3
  | btreeInsert => 4 | btreeSplitPrepare => 5 | btreeDelete => 6
  | heapHotUpdate => 7 | heapCleanup => 8
  | fullPageImage => 10
  | txnBegin => 20 | txnCommit => 21 | txnAbort => 22
  | checkpointBegin => 30 | checkpointEnd => 31
  | pageAlloc => 40 | pageFree => 41
  | btreeSplitCLR => 50 | btreeSplitCopy => 51 | btreeSplitCommit => 52
  | logicalHnsw => 100 | logicalInverted => 101 | logicalGraph => 102
  | logicalTimeSeries => 103
  | segmentSeal => 110 | segmentMerge => 111

def fromU8 (v : UInt8) : Except StorageError WalRecordType :=
  match v.toNat with
  | 1 => .ok heapInsert | 2 => .ok heapUpdate | 3 => .ok heapDelete
  | 4 => .ok btreeInsert | 5 => .ok btreeSplitPrepare | 6 => .ok btreeDelete
  | 7 => .ok heapHotUpdate | 8 => .ok heapCleanup
  | 10 => .ok fullPageImage
  | 20 => .ok txnBegin | 21 => .ok txnCommit | 22 => .ok txnAbort
  | 30 => .ok checkpointBegin | 31 => .ok checkpointEnd
  | 40 => .ok pageAlloc | 41 => .ok pageFree
  | 50 => .ok btreeSplitCLR | 51 => .ok btreeSplitCopy | 52 => .ok btreeSplitCommit
  | 100 => .ok logicalHnsw | 101 => .ok logicalInverted | 102 => .ok logicalGraph
  | 103 => .ok logicalTimeSeries
  | 110 => .ok segmentSeal | 111 => .ok segmentMerge
  | n => .error (.walReadFailed s!"unknown WAL record type discriminant {n}")

theorem fromU8_toU8 (t : WalRecordType) : fromU8 t.toU8 = .ok t := by
  cases t <;> rfl

end WalRecordType

def walRecordHeaderSize : ℕ := 32
def u16Max : ℕ := 65535

/-- The `w` low bytes of `n`, least significant first. -/
def leBytes : ℕ → ℕ → List UInt8
  | 0, _ => []
  | w+1, n => UInt8.ofNat (n % 256) :: leBytes w (n / 256)

@[simp] theorem leBytes_length (w n : ℕ) : (leBytes w n).length = w := by
  induction w generalizing n with
  | zero => rfl
  | succ w ih => simp [leBytes,ih]

def fromLe : List UInt8 → ℕ
  | [] => 0
  | b :: bs => b.toNat + 256 * fromLe bs

theorem fromLe_leBytes {w n : ℕ} (h : n < 256 ^ w) : fromLe (leBytes w n) = n := by
  induction w generalizing n with
  | zero =>
    have : n = 0 := by simpa using h
    simp [leBytes,fromLe,this]
  | succ w ih =>
    have hn : n / 256 < 256 ^ w := by
      rw [Nat.div_lt_iff_lt_mul (by norm_num)]
      simpa [pow_succ] using h
    have hb : (UInt8.ofNat (n % 256)).toNat = n % 256 := by
      simp [UInt8.toNat_ofNat']
    simp only [leBytes,fromLe,hb,ih hn]
    omega

/-- The variable-length integer of bincode's standard configuration. -/
def varint (n : ℕ) : List UInt8 :=
  if n < 251 then [UInt8.ofNat n]
  else if n < 2 ^ 16 then 251 :: leBytes 2 n
  else if n < 2 ^ 32 then 252 :: leBytes 4 n
  else 253 :: leBytes 8 n

def crcBit (c : UInt32) : UInt32 :=
  if c &&& 1 = 1 then (c >>> 1) ^^^ 0xEDB88320 else c >>> 1

/-- Only concrete configurations use it; the theorems hold for any checksum. -/
def crc32Ieee (bs : List UInt8) : UInt32 :=
  bs.foldl (fun c b => crcBit^[8] (c ^^^ b.toUInt32)) 0xFFFFFFFF ^^^ 0xFFFFFFFF

structure WalRecord where
  lsn : ℕ
  prevLsn : ℕ
  txnId : ℕ
  recordType : WalRecordType
  flags : UInt8
  payload : List UInt8
  deriving DecidableEq, Repr

namespace WalRecord

def new (t : WalRecordType) (payload : List UInt8) : WalRecord :=
  ⟨Lsn.invalid,Lsn.invalid,TxnId.invalid,t,0,payload⟩

def txnCommit (xid : ℕ) : WalRecord :=
  { new .txnCommit (varint xid) with txnId := xid }

def txnAbort (xid : ℕ) : WalRecord :=
  { new .txnAbort (varint xid) with txnId := xid }

def recordSize (r : WalRecord) : ℕ := alignUp (walRecordHeaderSize + r.payload.length) 8

theorem recordSize_pos (r : WalRecord) : 0 < r.recordSize := by
  have h := le_alignUp_eight (walRecordHeaderSize + r.payload.length)
  have : walRecordHeaderSize = 32 := rfl
  unfold recordSize
  omega

def encodeHeader (r : WalRecord) : List UInt8 :=
  leBytes 8 r.lsn ++ leBytes 8 r.prevLsn ++ leBytes 8 r.txnId ++
    [r.recordType.toU8,r.flags] ++ leBytes 2 r.payload.length

@[simp] theorem encodeHeader_length (r : WalRecord) : r.encodeHeader.length = 28 := by
  simp [encodeHeader]

def encodeBody (r : WalRecord) : List UInt8 :=
  r.payload ++ List.replicate (r.recordSize - (walRecordHeaderSize + r.payload.length)) 0

theorem encodeBody_length (r : WalRecord) :
    walRecordHeaderSize + r.encodeBody.length = r.recordSize := by
  have h := le_alignUp_eight (walRecordHeaderSize + r.payload.length)
  simp only [encodeBody,List.length_append,List.length_replicate,recordSize] at h ⊢
  omega

section Checksum
variable (crc32 : List UInt8 → UInt32)

def encode (r : WalRecord) : Except StorageError (List UInt8) :=
  if u16Max < r.payload.length then
    let n := r.payload.length
    .error (.walWriteFailed s!"payload length {n} exceeds maximum {u16Max}")
  else
    .ok (r.encodeHeader ++ leBytes 4 (crc32 (r.encodeHeader ++ r.encodeBody)).toNat
      ++ r.encodeBody)

theorem encode_length {r : WalRecord} {buf : List UInt8} (h : r.encode crc32 = .ok buf) :
    buf.length = r.recordSize := by
  unfold encode at h
  split at h
  · cases h
  · cases h
    rw [← encodeBody_length]
    simp only [List.length_append,encodeHeader_length,leBytes_length,walRecordHeaderSize]

def decode (buf : List UInt8) : Except StorageError (WalRecord × ℕ) :=
  if buf.length < walRecordHeaderSize then .error (.walCorrupted Lsn.invalid)
  else
    let lsn := fromLe (buf.take 8)
    let prevLsn := fromLe ((buf.drop 8).take 8)
    let txnId := fromLe ((buf.drop 16).take 8)
    let typeByte := buf.getD 24 0
    let flags := buf.getD 25 0
    let payloadLen := fromLe ((buf.drop 26).take 2)
    let storedCrc := fromLe ((buf.drop 28).take 4)
    let total := alignUp (walRecordHeaderSize + payloadLen) 8
    if buf.length < total then .error (.walCorrupted lsn)
    else if (crc32 (buf.take 28 ++ (buf.take total).drop 32)).toNat ≠ storedCrc then
      .error (.walCorrupted lsn)
    else do
      let recordType ← WalRecordType.fromU8 typeByte
      .ok (⟨lsn,prevLsn,txnId,recordType,flags,(buf.drop 32).take payloadLen⟩,total)

end Checksum

end WalRecord
end PgAm
