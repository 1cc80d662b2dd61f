import PgAm.WalReader

/-! Records as bytes: an encoded record decodes to itself, and what the header says once the
bytes from some point on are lost and read as zeros. -/
namespace PgAm

/-- The first `k` bytes, and zeros in place of the others. -/
def torn (k : ℕ) (bs : List UInt8) : List UInt8 :=
  bs.take k ++ List.replicate (bs.length - k) 0

@[simp] theorem torn_length (k : ℕ) (bs : List UInt8) : (torn k bs).length = bs.length := by
  simp only [torn,List.length_append,List.length_take,List.length_replicate]
  omega

@[simp] theorem torn_nil (k : ℕ) : torn k [] = [] := by simp [torn]

@[simp] theorem torn_zero (bs : List UInt8) : torn 0 bs = List.replicate bs.length 0 := by
  simp [torn]

@[simp] theorem torn_succ_cons (k : ℕ) (b : UInt8) (bs : List UInt8) :
    torn (k + 1) (b :: bs) = b :: torn k bs := by simp [torn]

theorem torn_append (k : ℕ) (bs cs : List UInt8) :
    torn k (bs ++ cs) = torn k bs ++ torn (k - bs.length) cs := by
  induction bs generalizing k with
  | nil => simp
  | cons b bs ih =>
    cases k with
    | zero => simp [List.replicate_succ,List.replicate_append_replicate]
    | succ k => simp [ih]

theorem torn_take (k n : ℕ) (bs : List UInt8) : (torn k bs).take n = torn k (bs.take n) := by
  conv_lhs => rw [← List.take_append_drop n bs,torn_append]
  rcases le_total n bs.length with h | h
  · exact List.take_left' (by simp [h])
  · rw [List.drop_of_length_le h,torn_nil,List.append_nil,List.take_of_length_le]
    rw [torn_length]
    exact List.length_take_le n bs

theorem torn_drop (k n : ℕ) (bs : List UInt8) :
    (torn k bs).drop n = torn (k - n) (bs.drop n) := by
  rcases le_total n bs.length with h | h
  · conv_lhs => rw [← List.take_append_drop n bs,torn_append]
    have hlen : (bs.take n).length = n := List.length_take_of_le h
    rw [List.drop_left' (by rw [torn_length,hlen]),hlen]
  · rw [List.drop_of_length_le h,torn_nil,List.drop_of_length_le (by rwa [torn_length])]

theorem torn_getElem? {k i : ℕ} {bs : List UInt8} (hi : i < bs.length) :
    (torn k bs)[i]? = if i < k then bs[i]? else some 0 := by
  induction bs generalizing k i with
  | nil => simp at hi
  | cons b bs ih =>
    cases k with
    | zero =>
      rw [torn_zero,List.getElem?_replicate,if_pos hi,if_neg (Nat.not_lt_zero i)]
    | succ k =>
      cases i with
      | zero => simp
      | succ i => simp [ih (Nat.lt_of_succ_lt_succ hi)]

theorem torn_getD_of_le {k i : ℕ} (bs : List UInt8) (h : k ≤ i) : (torn k bs).getD i 0 = 0 := by
  rw [List.getD_eq_getElem?_getD]
  by_cases hi : i < bs.length
  · rw [torn_getElem? hi,if_neg (not_lt.2 h),Option.getD_some]
  · rw [List.getElem?_eq_none (by rwa [torn_length,← not_lt]),Option.getD_none]

theorem fromLe_replicate_zero (n : ℕ) : fromLe (List.replicate n 0) = 0 := by
  induction n with
  | zero => rfl
  | succ n ih => simp [List.replicate_succ,fromLe,ih]

theorem fromLe_eq_zero {bs : List UInt8} (h : bs.all (· == 0) = true) : fromLe bs = 0 := by
  have hrep : bs = List.replicate bs.length 0 :=
    List.eq_replicate_of_mem fun b hb => by simpa using List.all_eq_true.1 h b hb
  rw [hrep,fromLe_replicate_zero]

theorem all_zero_of_fromLe {bs : List UInt8} (h : fromLe bs = 0) : bs.all (· == 0) = true := by
  induction bs with
  | nil => rfl
  | cons b bs ih =>
    simp only [fromLe] at h
    have hb : b = 0 := UInt8.toNat_inj.1 (by simpa using (by omega : b.toNat = 0))
    simp [hb,ih (by omega)]

theorem fromLe_torn (k : ℕ) (bs : List UInt8) : fromLe (torn k bs) = fromLe bs % 256 ^ k := by
  induction bs generalizing k with
  | nil => simp [fromLe]
  | cons b bs ih =>
    cases k with
    | zero => simp [fromLe_replicate_zero,Nat.mod_one]
    | succ k =>
      have hb : b.toNat < 256 := by simpa using b.toNat_lt
      rw [torn_succ_cons,fromLe,fromLe,ih,pow_succ,Nat.mul_comm _ 256,Nat.mod_mul,
        Nat.add_mul_mod_self_left,Nat.mod_eq_of_lt hb,Nat.add_mul_div_left _ _ (by norm_num),
        Nat.div_eq_of_lt hb,Nat.zero_add]

namespace WalRecord

structure Fits (r : WalRecord) : Prop where
  lsn : r.lsn < 256 ^ 8
  prevLsn : r.prevLsn < 256 ^ 8
  txnId : r.txnId < 256 ^ 8

def payloadLen (buf : List UInt8) : ℕ := fromLe ((buf.drop 26).take 2)

def total (buf : List UInt8) : ℕ := alignUp (walRecordHeaderSize + payloadLen buf) 8

section Checksum
variable (crc32 : List UInt8 → UInt32)

/-- The checksum over a buffer does not match the stored one. -/
def CrcFails (buf : List UInt8) : Prop :=
  (crc32 (buf.take 28 ++ (buf.take (total buf)).drop 32)).toNat ≠ fromLe ((buf.drop 28).take 4)

instance (buf : List UInt8) : Decidable (CrcFails crc32 buf) :=
  inferInstanceAs (Decidable (_ ≠ _))

variable {crc32} {r : WalRecord} {buf : List UInt8}

theorem encode_eq (h : r.encode crc32 = .ok buf) :
    r.payload.length ≤ u16Max ∧
      buf = r.encodeHeader ++ (leBytes 4 (crc32 (r.encodeHeader ++ r.encodeBody)).toNat ++
        r.encodeBody) := by
  unfold encode at h
  split at h
  · cases h
  · rename_i hle
    cases h
    exact ⟨not_lt.1 hle,List.append_assoc _ _ _⟩

theorem take_header (h : r.encode crc32 = .ok buf) : buf.take 28 = r.encodeHeader := by
  rw [(encode_eq h).2,List.take_left' (encodeHeader_length r)]

theorem drop_header (h : r.encode crc32 = .ok buf) : buf.drop 32 = r.encodeBody := by
  rw [(encode_eq h).2,← List.append_assoc,List.drop_left' (by simp)]

theorem encode_fields (h : r.encode crc32 = .ok buf) :
    buf.take 8 = leBytes 8 r.lsn ∧ (buf.drop 8).take 8 = leBytes 8 r.prevLsn ∧
      (buf.drop 16).take 8 = leBytes 8 r.txnId ∧ buf.getD 24 0 = r.recordType.toU8 ∧
      buf.getD 25 0 = r.flags ∧ (buf.drop 26).take 2 = leBytes 2 r.payload.length ∧
      (buf.drop 28).take 4 = leBytes 4 (crc32 (r.encodeHeader ++ r.encodeBody)).toNat := by
  obtain ⟨-,rfl⟩ := encode_eq h
  generalize (crc32 (r.encodeHeader ++ r.encodeBody)).toNat = c
  refine ⟨?_,?_,?_,?_,?_,?_,?_⟩
  · simp [encodeHeader]
  · simp [encodeHeader]
  · simp [encodeHeader,List.drop_append,List.drop_of_length_le]
  · simp [encodeHeader,List.getD_eq_getElem?_getD,List.getElem?_append]
  · simp [encodeHeader,List.getD_eq_getElem?_getD,List.getElem?_append]
  · simp [encodeHeader,List.drop_append,List.drop_of_length_le]
  · rw [List.drop_left' (encodeHeader_length r),List.take_left' (leBytes_length 4 c)]

theorem payloadLen_encode (h : r.encode crc32 = .ok buf) : payloadLen buf = r.payload.length := by
  have hle := (encode_eq h).1
  rw [payloadLen,(encode_fields h).2.2.2.2.2.1]
  exact fromLe_leBytes (lt_of_le_of_lt hle (by decide))

theorem total_encode (h : r.encode crc32 = .ok buf) : total buf = r.recordSize := by
  rw [total,payloadLen_encode h,recordSize]

theorem decode_encode (hf : r.Fits) (h : r.encode crc32 = .ok buf) :
    decode crc32 buf = .ok (r,r.recordSize) := by
  obtain ⟨h₁,h₂,h₃,h₄,h₅,h₆,h₇⟩ := encode_fields h
  have hlen := encode_length crc32 h
  have htotal := total_encode h
  have hpay := payloadLen_encode h
  have hpos : ¬r.recordSize < walRecordHeaderSize := by
    rw [← encodeBody_length]
    omega
  have hcrc : fromLe (leBytes 4 (crc32 (r.encodeHeader ++ r.encodeBody)).toNat) =
      (crc32 (r.encodeHeader ++ r.encodeBody)).toNat :=
    fromLe_leBytes (by simpa using (crc32 (r.encodeHeader ++ r.encodeBody)).toNat_lt)
  have hpayload : (buf.drop 32).take r.payload.length = r.payload := by
    rw [drop_header h,encodeBody,List.take_left]
  unfold total payloadLen at htotal
  unfold payloadLen at hpay
  simp only [decode,htotal,hlen,if_neg hpos,lt_irrefl,if_false]
  rw [h₁,h₂,h₃,h₄,h₅,hpay,h₇,hcrc,take_header h,List.take_of_length_le hlen.le,drop_header h,
    WalRecordType.fromU8_toU8,fromLe_leBytes hf.lsn,fromLe_leBytes hf.prevLsn,
    fromLe_leBytes hf.txnId]
  rw [drop_header h] at hpayload
  simp [bind,Except.bind,hpayload]

theorem header_le_total (buf : List UInt8) : walRecordHeaderSize ≤ total buf :=
  le_trans (Nat.le_add_right _ (payloadLen buf)) (le_alignUp_eight _)

theorem encode_take_lsn (hf : r.Fits) (h : r.encode crc32 = .ok buf) (k : ℕ) :
    fromLe ((torn k buf).take 8) = r.lsn % 256 ^ k := by
  rw [torn_take,(encode_fields h).1,fromLe_torn,fromLe_leBytes hf.lsn]

theorem payloadLen_torn (h : r.encode crc32 = .ok buf) (k : ℕ) :
    payloadLen (torn k buf) = r.payload.length % 256 ^ (k - 26) := by
  rw [payloadLen,torn_drop,torn_take,fromLe_torn]
  exact congrArg (· % _) (payloadLen_encode h)

theorem total_torn_le (h : r.encode crc32 = .ok buf) (k : ℕ) :
    total (torn k buf) ≤ r.recordSize := by
  have hle : r.payload.length % 256 ^ (k - 26) ≤ r.payload.length := Nat.mod_le _ _
  rw [total,payloadLen_torn h,recordSize,alignUp,alignUp]
  omega

/-- Either the length field survived or the cut is in front of the payload. -/
theorem torn_behind_total (h : r.encode crc32 = .ok buf) {k i : ℕ}
    (hi : total (torn k buf) ≤ i) : (torn k buf).getD i 0 = 0 := by
  by_cases hk : k ≤ i
  · exact torn_getD_of_le buf hk
  · have h32 : 32 ≤ total (torn k buf) := header_le_total _
    have hpow : r.payload.length < 256 ^ (k - 26) :=
      calc r.payload.length ≤ u16Max := (encode_eq h).1
        _ < 256 ^ 2 := by decide
        _ ≤ 256 ^ (k - 26) := Nat.pow_le_pow_right (by norm_num) (by omega)
    have hwhole : total (torn k buf) = buf.length := by
      rw [total,payloadLen_torn h,Nat.mod_eq_of_lt hpow,encode_length crc32 h,recordSize]
    rw [List.getD_eq_getElem?_getD,List.getElem?_eq_none (by rwa [torn_length,← hwhole]),
      Option.getD_none]

theorem decode_of_crcFails (h : CrcFails crc32 buf) (hlen : total buf ≤ buf.length) :
    ∃ l, decode crc32 (buf.take (total buf)) = .error (.walCorrupted l) := by
  have h32 : 32 ≤ total buf := header_le_total buf
  have hsize : (buf.take (total buf)).length = total buf := List.length_take_of_le hlen
  have hpay : ((buf.take (total buf)).drop 26).take 2 = (buf.drop 26).take 2 := by
    rw [List.drop_take,List.take_take,min_eq_left (by omega)]
  have hstored : ((buf.take (total buf)).drop 28).take 4 = (buf.drop 28).take 4 := by
    rw [List.drop_take,List.take_take,min_eq_left (by omega)]
  have htotal : alignUp (walRecordHeaderSize + fromLe (((buf.take (total buf)).drop 26).take 2)) 8 =
      total buf := by rw [hpay]; rfl
  refine ⟨fromLe ((buf.take (total buf)).take 8),?_⟩
  simp only [decode]
  rw [if_neg (not_lt.2 ((header_le_total buf).trans hsize.ge)),htotal,if_neg
    (by rw [hsize]; exact lt_irrefl _),
    if_pos]
  rwa [hstored,List.take_take,List.take_take,min_self,min_eq_left (by omega)]

end Checksum
end WalRecord
end PgAm
