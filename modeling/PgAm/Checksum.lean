import PgAm.WalRecord

/-! What the checksum of a record can be relied on for. One step of the CRC loses neither its state
nor the byte it takes in, so two texts of the same length that differ in a single byte have
different checksums. -/
namespace PgAm

/-- A checksum that differs whenever one byte does. -/
def DetectsByte (crc32 : List UInt8 → UInt32) : Prop :=
  ∀ (bs : List UInt8) (i : ℕ) (b : UInt8), i < bs.length → bs[i]? ≠ some b →
    crc32 (bs.set i b) ≠ crc32 bs

theorem foldl_set_ne {σ β : Type*} {step : σ → β → σ} (hs : ∀ b, Function.Injective (step · b))
    (hb : ∀ s, Function.Injective (step s)) {bs : List β} {i : ℕ} {b : β} (hi : i < bs.length)
    (hne : bs[i]? ≠ some b) (s : σ) : (bs.set i b).foldl step s ≠ bs.foldl step s := by
  have hinj : ∀ (cs : List β), Function.Injective fun s => cs.foldl step s := by
    intro cs
    induction cs with
    | nil => exact fun _ _ h => h
    | cons c cs ih => exact fun _ _ h => hs c (ih h)
  induction bs generalizing i s with
  | nil => cases hi
  | cons c cs ih =>
    cases i with
    | zero =>
      rw [List.set_cons_zero,List.foldl_cons,List.foldl_cons]
      intro heq
      have := hb s (hinj cs heq)
      exact hne (by rw [this]; rfl)
    | succ i =>
      rw [List.set_cons_succ,List.foldl_cons,List.foldl_cons]
      exact ih (Nat.lt_of_succ_lt_succ hi) hne _

theorem low_bit_iff (c : UInt32) : c &&& 1 = 1 ↔ c.toNat % 2 = 1 := by
  rw [← UInt32.toNat_inj,UInt32.toNat_and]
  exact Iff.of_eq (congrArg (· = 1) (Nat.and_one_is_mod c.toNat))

/-- The bit that is shifted out can be told from the top bit of the result. -/
theorem crcBit_injective : Function.Injective crcBit := by
  intro c c' h
  have hone : (1 : UInt32).toNat % 32 = 1 := rfl
  have htop : ∀ x y : UInt32, ((x >>> 1) ^^^ 0xEDB88320 : UInt32) ≠ y >>> 1 := by
    intro x y hxy
    have := congrArg (fun z : UInt32 => z.toNat.testBit 31) hxy
    simp only [UInt32.toNat_xor,UInt32.toNat_shiftRight,Nat.testBit_xor] at this
    have hx : ∀ z : UInt32, (z.toNat >>> ((1 : UInt32).toNat % 32)).testBit 31 = false := by
      intro z
      have hz := z.toNat_lt
      refine Nat.testBit_lt_two_pow ?_
      rw [hone,Nat.shiftRight_eq_div_pow]
      omega
    rw [hx,hx] at this
    revert this
    decide
  have hsame : ∀ x y : UInt32, x >>> 1 = y >>> 1 → (x &&& 1 = 1 ↔ y &&& 1 = 1) → x = y := by
    intro x y hxy hb
    have h₁ := congrArg UInt32.toNat hxy
    rw [UInt32.toNat_shiftRight,UInt32.toNat_shiftRight,hone,Nat.shiftRight_eq_div_pow,
      Nat.shiftRight_eq_div_pow] at h₁
    rw [low_bit_iff,low_bit_iff] at hb
    refine UInt32.toNat_inj.1 ?_
    omega
  unfold crcBit at h
  split at h <;> split at h
  · exact hsame c c' (by simpa using h) (by simp_all)
  · exact absurd h (htop c c')
  · exact absurd h.symm (htop c' c)
  · exact hsame c c' h (by simp_all)

theorem crcStep_injective_left (b : UInt8) :
    Function.Injective fun c : UInt32 => crcBit^[8] (c ^^^ b.toUInt32) :=
  (crcBit_injective.iterate 8).comp fun _ _ h => (UInt32.xor_left_inj _).1 h

theorem crcStep_injective_right (c : UInt32) :
    Function.Injective fun b : UInt8 => crcBit^[8] (c ^^^ b.toUInt32) :=
  (crcBit_injective.iterate 8).comp fun _ _ h => UInt8.toUInt32_inj.1 ((UInt32.xor_right_inj _).1 h)

/-- The CRC-32 of the source tells any two texts apart that differ in one byte. -/
theorem crc32Ieee_detects : DetectsByte crc32Ieee := by
  intro bs i b hi hne h
  exact foldl_set_ne crcStep_injective_left crcStep_injective_right hi hne 0xFFFFFFFF
    ((UInt32.xor_left_inj _).1 h)

def crcBitNat (c : ℕ) : ℕ := bif (c % 2).beq 1 then (c / 2).xor 0xEDB88320 else c / 2

def forced (n : ℕ) (k : ℕ → ℕ) : ℕ :=
  match n with
  | 0 => k 0
  | n+1 => k (n + 1)

theorem forced_eq (n : ℕ) (k : ℕ → ℕ) : forced n k = k n := by
  cases n <;> rfl

/-- The checksum with its state evaluated after every byte. -/
def crcLoop : List UInt8 → ℕ → ℕ
  | [], c => c
  | b :: bs, c => forced (crcBitNat^[8] (c.xor b.toNat)) (crcLoop bs)

theorem toNat_crcBit (c : UInt32) : (crcBit c).toNat = crcBitNat c.toNat := by
  have hshift : (c >>> 1).toNat = c.toNat / 2 := by
    rw [UInt32.toNat_shiftRight,show (1 : UInt32).toNat % 32 = 1 from rfl,
      Nat.shiftRight_eq_div_pow,pow_one]
  unfold crcBit crcBitNat
  by_cases h : c.toNat % 2 = 1
  · rw [if_pos ((low_bit_iff c).2 h),h,UInt32.toNat_xor,hshift]
    rfl
  · rw [if_neg fun hc => h ((low_bit_iff c).1 hc),show c.toNat % 2 = 0 by omega,hshift]
    rfl

theorem toNat_crcStep (c : UInt32) (b : UInt8) :
    (crcBit^[8] (c ^^^ b.toUInt32)).toNat = crcBitNat^[8] (c.toNat.xor b.toNat) := by
  have hiter : ∀ n x, (crcBit^[n] x).toNat = crcBitNat^[n] x.toNat := by
    intro n
    induction n with
    | zero => exact fun _ => rfl
    | succ n ih => exact fun x => by rw [Function.iterate_succ_apply,ih,toNat_crcBit]; rfl
  rw [hiter,UInt32.toNat_xor,UInt8.toNat_toUInt32]
  rfl

theorem crcLoop_eq (bs : List UInt8) (c : UInt32) :
    crcLoop bs c.toNat = (bs.foldl (fun c b => crcBit^[8] (c ^^^ b.toUInt32)) c).toNat := by
  induction bs generalizing c with
  | nil => rfl
  | cons b bs ih => rw [crcLoop,forced_eq,← toNat_crcStep c b,ih,List.foldl_cons]

theorem crc32Ieee_eq_loop :
    crc32Ieee = fun bs => UInt32.ofNat (crcLoop bs 0xFFFFFFFF) ^^^ 0xFFFFFFFF := by
  funext bs
  have h := crcLoop_eq bs 0xFFFFFFFF
  rw [show (0xFFFFFFFF : ℕ) = (0xFFFFFFFF : UInt32).toNat from rfl,h,UInt32.ofNat_toNat]
  rfl

end PgAm
