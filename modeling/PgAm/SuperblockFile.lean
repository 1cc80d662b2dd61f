import PgAm.WalRecord

/-! The superblock file: two copies of 512 bytes, each with its own checksum. A write goes to the
copy that is not active; the active one is the valid copy with the higher checkpoint position.
Copies of the first version are upgraded when they are read, and written back. -/
namespace PgAm
namespace SuperblockFile

def superblockMagic : ℕ := 0x50475253
def superblockVersion : UInt32 := 2
def superblockVersionV1 : UInt32 := 1
def superblockSize : ℕ := 512
def superblockFileSize : ℕ := superblockSize * 2

def firstUserOid : UInt64 := 16384

/-- In memory the version is always the current one, as `encode` asserts. -/
structure Superblock where
  version : UInt32
  pageSize : UInt32
  checkpointLsn : UInt64
  nextPageId : UInt64
  nextTxnId : UInt64
  nextOid : UInt64
  createdAt : UInt64
  current : version = superblockVersion
  deriving DecidableEq

def Superblock.new (pageSize : UInt32) (now : UInt64) : Superblock :=
  ⟨superblockVersion,pageSize,UInt64.ofNat Lsn.invalid,UInt64.ofNat PageId.first,
    UInt64.ofNat TxnId.first,firstUserOid,now,rfl⟩

def encodeHeader (sb : Superblock) : List UInt8 :=
  leBytes 4 superblockMagic ++ leBytes 4 sb.version.toNat ++ leBytes 4 sb.pageSize.toNat ++
    leBytes 4 0 ++ leBytes 8 sb.checkpointLsn.toNat ++ leBytes 8 sb.nextPageId.toNat ++
    leBytes 8 sb.nextTxnId.toNat ++ leBytes 8 sb.nextOid.toNat ++ leBytes 8 sb.createdAt.toNat

def reserved : List UInt8 := List.replicate (superblockSize - 60) 0

def word32 (bytes : List UInt8) (offset : ℕ) : UInt32 :=
  UInt32.ofNat (fromLe ((bytes.drop offset).take 4))

def word64 (bytes : List UInt8) (offset : ℕ) : UInt64 :=
  UInt64.ofNat (fromLe ((bytes.drop offset).take 8))

def hex (n : ℕ) : String := "0x" ++ String.ofList (Nat.toDigits 16 n)

section Checksum
variable (crc32 : List UInt8 → UInt32)

def encode (sb : Superblock) : List UInt8 :=
  encodeHeader sb ++ leBytes 4 (crc32 (encodeHeader sb ++ reserved)).toNat ++ reserved

def decodeV2 (bytes : List UInt8) : Except StorageError Superblock :=
  if crc32 (bytes.take 56 ++ bytes.drop 60) ≠ word32 bytes 56 then
    .error (.metadataCorrupted "checksum mismatch")
  else .ok ⟨superblockVersion,word32 bytes 8,word64 bytes 16,word64 bytes 24,word64 bytes 32,
    word64 bytes 40,word64 bytes 48,rfl⟩

/-- The first version had no `next_oid`; the fields behind it stood eight bytes further ahead. -/
def decodeV1 (bytes : List UInt8) : Except StorageError Superblock :=
  if crc32 (bytes.take 48 ++ bytes.drop 52) ≠ word32 bytes 48 then
    .error (.metadataCorrupted "checksum mismatch (v1)")
  else .ok ⟨superblockVersion,word32 bytes 8,word64 bytes 16,word64 bytes 24,word64 bytes 32,
    firstUserOid,word64 bytes 40,rfl⟩

/-- One copy, and whether it was of the first version. -/
def decode (bytes : List UInt8) : Except StorageError (Superblock × Bool) :=
  if bytes.length ≠ superblockSize then
    .error (.metadataCorrupted "superblock copy has wrong size")
  else
    let magic := fromLe (bytes.take 4)
    if magic ≠ superblockMagic then
      .error (.metadataCorrupted ("bad magic: expected " ++ hex superblockMagic ++ ", got " ++
        hex magic))
    else
      let version := word32 bytes 4
      if version = superblockVersion then (decodeV2 crc32 bytes).map (·,false)
      else if version = superblockVersionV1 then (decodeV1 crc32 bytes).map (·,true)
      else
        let n := version.toNat
        .error (.metadataCorrupted s!"unsupported version {n}")

/-- The active copy of two, its offset, and whether a valid copy is of the first version. -/
def choose : Except StorageError (Superblock × Bool) → Except StorageError (Superblock × Bool) →
    Except StorageError (Superblock × ℕ × Bool)
  | .ok (a,migratedA), .ok (b,migratedB) =>
    let migrated := migratedA || migratedB
    if a.checkpointLsn < b.checkpointLsn then .ok (b,superblockSize,migrated)
    else .ok (a,0,migrated)
  | .ok (a,migratedA), .error _ => .ok (a,0,migratedA)
  | .error _, .ok (b,migratedB) => .ok (b,superblockSize,migratedB)
  | .error a, .error b => .error (.metadataCorrupted ("both copies are corrupted: copy A: " ++
      a.display ++ "; copy B: " ++ b.display))

def readWithOffset (file : List UInt8) : Except StorageError (Superblock × ℕ × Bool) :=
  if file.length < superblockFileSize then .error (.io "failed to fill whole buffer")
  else choose (decode crc32 (file.take superblockSize))
    (decode crc32 ((file.drop superblockSize).take superblockSize))

/-- The copies an operation writes, in order, before its one `sync_all`. -/
abbrev Writes := List (ℕ × Superblock)

def writeBothCopies (sb : Superblock) : Writes := [(0,sb),(superblockSize,sb)]

def writeAt (file : List UInt8) (offset : ℕ) (buf : List UInt8) : List UInt8 :=
  file.take offset ++ List.replicate (offset - file.length) 0 ++ buf ++
    file.drop (offset + buf.length)

def writeCopies (ws : Writes) (file : List UInt8) : List UInt8 :=
  ws.foldl (fun f w => writeAt f w.1 (encode crc32 w.2)) file

def create (pageSize : UInt32) (now : UInt64) : Superblock × List UInt8 :=
  let sb := Superblock.new pageSize now
  (sb,writeCopies crc32 [(0,sb),(superblockSize,sb)] [])

/-- `Superblock::read`: its result, and the copies it writes back. -/
def read (file : List UInt8) : Except StorageError Superblock × Writes :=
  match readWithOffset crc32 file with
  | .error e => (.error e,[])
  | .ok (sb,_,migrated) => (.ok sb,if migrated then writeBothCopies sb else [])

def write (sb : Superblock) (file : List UInt8) : Except StorageError Unit × Writes :=
  match readWithOffset crc32 file with
  | .error _ => (.ok (),writeBothCopies sb)
  | .ok (cur,activeOffset,_) =>
    if sb.checkpointLsn ≤ cur.checkpointLsn then
      let new := sb.checkpointLsn.toNat
      let old := cur.checkpointLsn.toNat
      (.error (.checkpointFailed s!"new checkpoint_lsn {new} is not greater than current {old}"),[])
    else (.ok (),[(if activeOffset = 0 then superblockSize else 0,sb)])

end Checksum

variable {crc32 : List UInt8 → UInt32}

@[simp] theorem encodeHeader_length (sb : Superblock) : (encodeHeader sb).length = 56 := by
  simp [encodeHeader]

@[simp] theorem encode_length (sb : Superblock) : (encode crc32 sb).length = superblockSize := by
  simp only [encode,reserved,List.length_append,encodeHeader_length,leBytes_length,
    List.length_replicate]
  rfl

theorem word64_toNat (x : UInt64) : UInt64.ofNat (fromLe (leBytes 8 x.toNat)) = x := by
  rw [fromLe_leBytes (by simpa using x.toNat_lt)]
  exact UInt64.ofNat_toNat

theorem word32_toNat (x : UInt32) : UInt32.ofNat (fromLe (leBytes 4 x.toNat)) = x := by
  rw [fromLe_leBytes (by simpa using x.toNat_lt)]
  exact UInt32.ofNat_toNat

theorem encode_words (sb : Superblock) :
    word32 (encode crc32 sb) 4 = sb.version ∧ word32 (encode crc32 sb) 8 = sb.pageSize ∧
      word64 (encode crc32 sb) 16 = sb.checkpointLsn ∧
      word64 (encode crc32 sb) 24 = sb.nextPageId ∧ word64 (encode crc32 sb) 32 = sb.nextTxnId ∧
      word64 (encode crc32 sb) 40 = sb.nextOid ∧ word64 (encode crc32 sb) 48 = sb.createdAt ∧
      word32 (encode crc32 sb) 56 = crc32 (encodeHeader sb ++ reserved) := by
  simp only [word32,word64,encode]
  generalize crc32 (encodeHeader sb ++ reserved) = c
  generalize reserved = rest
  refine ⟨?_,?_,?_,?_,?_,?_,?_,?_⟩ <;>
    simp [encodeHeader,List.drop_append,List.drop_of_length_le,word32_toNat,word64_toNat]

theorem decode_encode (sb : Superblock) : decode crc32 (encode crc32 sb) = .ok (sb,false) := by
  obtain ⟨h4,h8,h16,h24,h32,h40,h48,h56⟩ := @encode_words crc32 sb
  have hmagic : fromLe ((encode crc32 sb).take 4) = superblockMagic := by
    rw [← fromLe_leBytes (show superblockMagic < 256 ^ 4 by decide)]
    simp [encode,encodeHeader]
  have hhead : (encode crc32 sb).take 56 = encodeHeader sb := by
    rw [encode,List.append_assoc,List.take_left' (encodeHeader_length sb)]
  have htail : (encode crc32 sb).drop 60 = reserved := by
    rw [encode,List.drop_left' (by simp)]
  have hv : sb.version = superblockVersion := sb.current
  unfold decode
  rw [if_neg (not_not.2 (encode_length sb)),if_neg (not_not.2 hmagic),h4,if_pos hv,decodeV2,hhead,
    htail,h56,if_neg (not_not.2 rfl),h8,h16,h24,h32,h40,h48]
  clear h4 h8 h16 h24 h32 h40 h48 h56 hmagic hhead htail hv
  obtain ⟨version,_,_,_,_,_,_,rfl⟩ := sb
  rfl

end SuperblockFile
end PgAm
