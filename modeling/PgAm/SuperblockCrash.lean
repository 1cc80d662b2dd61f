import PgAm.Machine
import PgAm.SuperblockFile

/-! Crashes while the superblock file is read or written. A crash leaves any of the sectors
written since the last sync on the disk; a copy that mixes old and new sectors fails its checksum.
What the file reads as is told from what the crash left of its two copies. -/
namespace PgAm
namespace SuperblockFile

/-- Two contents of the same place: new where the sector was kept, old elsewhere. -/
def mixFrom (sector : ℕ) (keep : ℕ → Bool) : ℕ → List UInt8 → List UInt8 → List UInt8
  | base, o :: old, n :: new =>
    (if keep (base / sector) then n else o) :: mixFrom sector keep (base + 1) old new
  | _, [], _ => []
  | _, o :: old, [] => o :: old

def copyA (file : List UInt8) : List UInt8 := file.take superblockSize
def copyB (file : List UInt8) : List UInt8 := (file.drop superblockSize).take superblockSize

/-- The file, and the content that the next read has to return. -/
structure Sys where
  file : List UInt8
  value : Superblock

/-- `crashWrite` and `crashRead` stop the operation after `k` of its copy writes. -/
inductive Step
  | create (pageSize : UInt32) (now : UInt64)
  | write (sb : Superblock)
  | read
  | crashWrite (sb : Superblock) (k : ℕ) (keep : ℕ → Bool)
  | crashRead (k : ℕ) (keep : ℕ → Bool)

section System
variable (crc32 : List UInt8 → UInt32) (sector : ℕ)

def content (file : List UInt8) : Option Superblock :=
  (readWithOffset crc32 file).toOption.map (·.1)

def crash (ws : Writes) (k : ℕ) (keep : ℕ → Bool) (file : List UInt8) : List UInt8 :=
  mixFrom sector keep 0 file (writeCopies crc32 (ws.take k) file)

/-- A crashed write has happened if its content is found afterwards. -/
def step (s : Sys) : Step → Option Sys
  | .create pageSize now =>
    let (sb,file) := create crc32 pageSize now
    some ⟨file,sb⟩
  | .write sb =>
    match write crc32 sb s.file with
    | (.ok (),ws) => some ⟨writeCopies crc32 ws s.file,sb⟩
    | (.error _,ws) => some ⟨writeCopies crc32 ws s.file,s.value⟩
  | .read => some ⟨writeCopies crc32 (read crc32 s.file).2 s.file,s.value⟩
  | .crashWrite sb k keep =>
    let file := crash crc32 sector (write crc32 sb s.file).2 k keep s.file
    some ⟨file,if content crc32 file = some sb then sb else s.value⟩
  | .crashRead k keep =>
    some ⟨crash crc32 sector (read crc32 s.file).2 k keep s.file,s.value⟩

def Start (s : Sys) : Prop :=
  s.file.length = superblockFileSize ∧ content crc32 s.file = some s.value

/-- The checksum detects a copy that mixes old sectors with those of `sb`. -/
def Detected (sb : Superblock) (old file : List UInt8) : Prop :=
  ∀ copy ∈ [copyA,copyB], copy file = copy old ∨ copy file = encode crc32 sb ∨
    ∃ e, decode crc32 (copy file) = .error e

/-- A copy with the content `v` comes out of the crash whole: rewritten in full, or as it was. -/
def Spared (v : Superblock) (old file : List UInt8) : Prop :=
  ∃ copy ∈ [copyA,copyB], copy file = encode crc32 v ∨
    copy file = copy old ∧ ∃ migrated, decode crc32 (copy old) = .ok (v,migrated)

/-- The checksum detects torn copies, and a crash inside a read spares a copy. -/
def Allowed (s : Sys) : Step → Prop
  | .crashWrite sb k keep =>
    Detected crc32 sb s.file (crash crc32 sector (write crc32 sb s.file).2 k keep s.file)
  | .crashRead k keep =>
    let file := crash crc32 sector (read crc32 s.file).2 k keep s.file
    Detected crc32 s.value s.file file ∧ Spared crc32 s.value s.file file
  | .create .. | .write _ | .read => True

end System

variable {crc32 : List UInt8 → UInt32} {sector : ℕ} {keep : ℕ → Bool}

theorem mixFrom_self (base : ℕ) (a : List UInt8) : mixFrom sector keep base a a = a := by
  induction a generalizing base with
  | nil => rfl
  | cons x a ih => rw [mixFrom,ite_self,ih]

@[simp] theorem mixFrom_length (base : ℕ) (a b : List UInt8) :
    (mixFrom sector keep base a b).length = a.length := by
  induction a generalizing base b with
  | nil => cases b <;> rfl
  | cons x a ih =>
    cases b with
    | nil => rfl
    | cons y b => rw [mixFrom,List.length_cons,List.length_cons,ih]

theorem mixFrom_append {a a' : List UInt8} (h : a.length = a'.length) (base : ℕ)
    (b b' : List UInt8) :
    mixFrom sector keep base (a ++ b) (a' ++ b') =
      mixFrom sector keep base a a' ++ mixFrom sector keep (base + a.length) b b' := by
  induction a generalizing base a' with
  | nil =>
    rw [List.length_eq_zero_iff.1 h.symm]
    cases b <;> cases b' <;> rfl
  | cons x a ih =>
    cases a' with
    | nil => cases h
    | cons y a' =>
      have hbase : base + (x :: a).length = base + 1 + a.length := by
        rw [List.length_cons]
        omega
      rw [List.cons_append,List.cons_append,mixFrom,mixFrom,ih (Nat.succ.inj h),hbase,
        List.cons_append]

variable {file : List UInt8}

theorem exists_copies (h : file.length = superblockFileSize) :
    ∃ a b, file = a ++ b ∧ a.length = superblockSize ∧ b.length = superblockSize := by
  have hsize : superblockFileSize = superblockSize + superblockSize := rfl
  refine ⟨file.take superblockSize,file.drop superblockSize,(List.take_append_drop _ _).symm,?_,?_⟩
  · rw [List.length_take,h,hsize]
    omega
  · rw [List.length_drop,h,hsize,Nat.add_sub_cancel]

variable {a b : List UInt8}

theorem copyA_append (ha : a.length = superblockSize) : copyA (a ++ b) = a :=
  List.take_left' ha

theorem copyB_append (ha : a.length = superblockSize)
    (hb : b.length = superblockSize) : copyB (a ++ b) = b := by
  rw [copyB,List.drop_left' ha,List.take_of_length_le hb.le]

theorem readWithOffset_append (ha : a.length = superblockSize) (hb : b.length = superblockSize) :
    readWithOffset crc32 (a ++ b) = choose (decode crc32 a) (decode crc32 b) := by
  have hlen : ¬(a ++ b).length < superblockFileSize := by
    rw [List.length_append,ha,hb]
    decide
  rw [readWithOffset,if_neg hlen]
  exact congrArg₂ _ (congrArg _ (copyA_append ha)) (congrArg _ (copyB_append ha hb))

theorem writeAt_first {a b buf : List UInt8} (ha : a.length = superblockSize)
    (hbuf : buf.length = superblockSize) : writeAt (a ++ b) 0 buf = buf ++ b := by
  rw [writeAt,Nat.zero_add,hbuf,← ha,List.drop_left]
  simp

theorem writeAt_second {a b buf : List UInt8} (ha : a.length = superblockSize)
    (hb : b.length = superblockSize) (hbuf : buf.length = superblockSize) :
    writeAt (a ++ b) superblockSize buf = a ++ buf := by
  have hdrop : (a ++ b).drop (superblockSize + buf.length) = [] := by
    refine List.drop_eq_nil_of_le ?_
    rw [List.length_append,ha,hb,hbuf]
  have hpad : superblockSize - (a ++ b).length = 0 := by
    rw [List.length_append,ha]
    omega
  rw [writeAt,hdrop,hpad,← ha,List.take_left]
  simp

variable {da db : Except StorageError (Superblock × Bool)} {v : Superblock}

theorem choose_eq_ok {off : ℕ} {mig : Bool} (h : choose da db = .ok (v,off,mig)) :
    (off = 0 ∧ (∃ m, da = .ok (v,m)) ∧
      ∀ b m, db = .ok (b,m) → b.checkpointLsn ≤ v.checkpointLsn) ∨
    (off = superblockSize ∧ (∃ m, db = .ok (v,m)) ∧
      ∀ a m, da = .ok (a,m) → a.checkpointLsn < v.checkpointLsn) := by
  cases da with
  | error ea =>
    cases db with
    | error eb => cases h
    | ok rb =>
      cases h
      exact .inr ⟨rfl,⟨_,rfl⟩,nofun⟩
  | ok ra =>
    cases db with
    | error eb =>
      cases h
      exact .inl ⟨rfl,⟨_,rfl⟩,nofun⟩
    | ok rb =>
      simp only [choose] at h
      split at h
      · rename_i hlt
        cases h
        refine .inr ⟨rfl,⟨_,rfl⟩,?_⟩
        rintro a m ⟨⟩
        exact hlt
      · rename_i hle
        cases h
        refine .inl ⟨rfl,⟨_,rfl⟩,?_⟩
        rintro b m ⟨⟩
        exact UInt64.not_lt.1 hle

/-- One copy has the content `v`, the first has nothing else as new, the second nothing newer. -/
theorem choose_iff : (∃ off mig, choose da db = .ok (v,off,mig)) ↔
      ((∃ m, da = .ok (v,m)) ∨ ∃ m, db = .ok (v,m)) ∧
      (∀ x m, da = .ok (x,m) → x = v ∨ x.checkpointLsn < v.checkpointLsn) ∧
      ∀ x m, db = .ok (x,m) → x.checkpointLsn ≤ v.checkpointLsn := by
  constructor
  · rintro ⟨off,mig,h⟩
    rcases choose_eq_ok h with ⟨-,⟨m,hm⟩,hle⟩ | ⟨-,⟨m,hm⟩,hlt⟩
    · refine ⟨.inl ⟨m,hm⟩,fun x m' hx => .inl ?_,hle⟩
      rw [hm] at hx
      cases hx
      rfl
    · refine ⟨.inr ⟨m,hm⟩,fun x m' hx => .inr (hlt x m' hx),fun x m' hx => ?_⟩
      rw [hm] at hx
      cases hx
      exact UInt64.le_refl _
  · rintro ⟨hsome,ha,hb⟩
    cases da with
    | error ea =>
      obtain ⟨m,hm⟩ | ⟨m,hm⟩ := hsome
      · cases hm
      · rw [hm]
        exact ⟨_,_,rfl⟩
    | ok ra =>
      obtain ⟨x,mx⟩ := ra
      cases db with
      | error eb =>
        obtain ⟨m,hm⟩ | ⟨m,hm⟩ := hsome
        · cases hm
          exact ⟨_,_,rfl⟩
        · cases hm
      | ok rb =>
        obtain ⟨y,my⟩ := rb
        have hle := hb y my rfl
        simp only [choose]
        rcases ha x mx rfl with rfl | hlt
        · rw [if_neg (UInt64.not_lt.2 hle)]
          exact ⟨_,_,rfl⟩
        · obtain ⟨m,hm⟩ | ⟨m,hm⟩ := hsome
          · cases hm
            exact absurd hlt (UInt64.lt_irrefl _)
          · cases hm
            rw [if_pos hlt]
            exact ⟨_,_,rfl⟩

theorem content_eq_some :
    content crc32 file = some v ↔ ∃ off mig, readWithOffset crc32 file = .ok (v,off,mig) := by
  unfold content
  cases readWithOffset crc32 file with
  | error e => simp [Except.toOption]
  | ok r =>
    obtain ⟨w,off,mig⟩ := r
    simp [Except.toOption]

section Copies
variable {a b m n : List UInt8} {v sb : Superblock}

theorem content_append (ha : a.length = superblockSize) (hb : b.length = superblockSize) :
    content crc32 (a ++ b) = some v ↔
      ((∃ m, decode crc32 a = .ok (v,m)) ∨ ∃ m, decode crc32 b = .ok (v,m)) ∧
      (∀ x m, decode crc32 a = .ok (x,m) → x = v ∨ x.checkpointLsn < v.checkpointLsn) ∧
      ∀ x m, decode crc32 b = .ok (x,m) → x.checkpointLsn ≤ v.checkpointLsn := by
  rw [content_eq_some,readWithOffset_append ha hb,choose_iff]

def Left (crc32 : List UInt8 → UInt32) (sb : Superblock) (old m : List UInt8) : Prop :=
  m = old ∨ m = encode crc32 sb ∨ ∃ e, decode crc32 m = .error e

theorem Detected.left (ha : a.length = superblockSize) (hb : b.length = superblockSize)
    (hm : m.length = superblockSize) (hn : n.length = superblockSize)
    (h : Detected crc32 sb (a ++ b) (m ++ n)) : Left crc32 sb a m ∧ Left crc32 sb b n := by
  have h₁ := h copyA (by simp)
  have h₂ := h copyB (by simp)
  rw [copyA_append ha,copyA_append hm] at h₁
  rw [copyB_append ha hb,copyB_append hm hn] at h₂
  exact ⟨h₁,h₂⟩

theorem Left.cases (h : Left crc32 sb a m) (hm : m ≠ encode crc32 sb) :
    ∀ x mig, decode crc32 m = .ok (x,mig) → decode crc32 a = .ok (x,mig) := by
  intro x mig hx
  rcases h with rfl | rfl | ⟨e,he⟩
  · exact hx
  · exact absurd rfl hm
  · rw [he] at hx
    cases hx

theorem eq_of_decode {x : Superblock} {mig mig' : Bool} (hv : decode crc32 a = .ok (v,mig))
    (hx : decode crc32 a = .ok (x,mig')) : x = v := by
  rw [hv] at hx
  cases hx
  rfl

theorem content_both (sb : Superblock) :
    content crc32 (encode crc32 sb ++ encode crc32 sb) = some sb :=
  (content_append (encode_length sb) (encode_length sb)).2 ⟨.inl ⟨false,decode_encode sb⟩,
    fun _ _ hx => .inl (eq_of_decode (decode_encode sb) hx),
    fun _ _ hx => UInt64.le_of_eq (by rw [eq_of_decode (decode_encode sb) hx])⟩

variable {mig : Bool}

theorem content_second_new (ha : a.length = superblockSize)
    (hv : decode crc32 a = .ok (v,mig)) (hlt : v.checkpointLsn < sb.checkpointLsn) :
    content crc32 (a ++ encode crc32 sb) = some sb := by
  refine (content_append ha (encode_length sb)).2
    ⟨.inr ⟨false,decode_encode sb⟩,fun x m hx => .inr ?_,fun x m hx => ?_⟩
  · rw [eq_of_decode hv hx]
    exact hlt
  · rw [eq_of_decode (decode_encode sb) hx]
    exact UInt64.le_refl _

theorem content_second_old (ha : a.length = superblockSize) (hn : n.length = superblockSize)
    (hv : decode crc32 a = .ok (v,mig))
    (hle : ∀ x m, decode crc32 n = .ok (x,m) → x.checkpointLsn ≤ v.checkpointLsn) :
    content crc32 (a ++ n) = some v :=
  (content_append ha hn).2 ⟨.inl ⟨mig,hv⟩,fun _ _ hx => .inl (eq_of_decode hv hx),hle⟩

theorem content_first_new (hb : b.length = superblockSize)
    (hv : decode crc32 b = .ok (v,mig)) (hlt : v.checkpointLsn < sb.checkpointLsn) :
    content crc32 (encode crc32 sb ++ b) = some sb := by
  refine (content_append (encode_length sb) hb).2
    ⟨.inl ⟨false,decode_encode sb⟩,fun x m hx => .inl ?_,fun x m hx => ?_⟩
  · exact eq_of_decode (decode_encode sb) hx
  · rw [eq_of_decode hv hx]
    exact UInt64.le_of_lt hlt

theorem content_first_old (hm : m.length = superblockSize) (hb : b.length = superblockSize)
    (hv : decode crc32 b = .ok (v,mig))
    (hlt : ∀ x m', decode crc32 m = .ok (x,m') → x.checkpointLsn < v.checkpointLsn) :
    content crc32 (m ++ b) = some v := by
  refine (content_append hm hb).2 ⟨.inr ⟨mig,hv⟩,fun x m' hx => .inr (hlt x m' hx),
    fun x m' hx => ?_⟩
  rw [eq_of_decode hv hx]
  exact UInt64.le_refl _

/-- A read that is cut short keeps the content exactly if a copy with it comes out whole. -/
theorem content_migrate (ha : a.length = superblockSize) (hb : b.length = superblockSize)
    (hm : m.length = superblockSize) (hn : n.length = superblockSize)
    (hv : content crc32 (a ++ b) = some v) (hd : Detected crc32 v (a ++ b) (m ++ n)) :
    content crc32 (m ++ n) = some v ↔ Spared crc32 v (a ++ b) (m ++ n) := by
  obtain ⟨hleftA,hleftB⟩ := hd.left ha hb hm hn
  rw [content_append ha hb] at hv
  obtain ⟨-,hA,hB⟩ := hv
  have hA' : ∀ x m', decode crc32 m = .ok (x,m') → x = v ∨ x.checkpointLsn < v.checkpointLsn := by
    intro x m' hx
    rcases hleftA with rfl | rfl | ⟨e,he⟩
    · exact hA x m' hx
    · rw [decode_encode] at hx
      cases hx
      exact .inl rfl
    · rw [he] at hx
      cases hx
  have hB' : ∀ x m', decode crc32 n = .ok (x,m') → x.checkpointLsn ≤ v.checkpointLsn := by
    intro x m' hx
    rcases hleftB with rfl | rfl | ⟨e,he⟩
    · exact hB x m' hx
    · rw [decode_encode] at hx
      cases hx
      exact UInt64.le_refl _
    · rw [he] at hx
      cases hx
  have hsome : ∀ {old new : List UInt8}, Left crc32 v old new →
      ((∃ m', decode crc32 new = .ok (v,m')) ↔ new = encode crc32 v ∨
        new = old ∧ ∃ m', decode crc32 old = .ok (v,m')) := by
    intro old new hleft
    constructor
    · rintro ⟨m',hm'⟩
      rcases hleft with rfl | rfl | ⟨e,he⟩
      · exact .inr ⟨rfl,m',hm'⟩
      · exact .inl rfl
      · rw [he] at hm'
        cases hm'
    · rintro (rfl | ⟨rfl,h⟩)
      · exact ⟨false,decode_encode v⟩
      · exact h
  rw [content_append hm hn,and_iff_left ⟨hA',hB'⟩,hsome hleftA,hsome hleftB]
  simp only [Spared,List.mem_cons,List.not_mem_nil,or_false,exists_eq_or_imp,exists_eq_left,
    copyA_append ha,copyA_append hm,copyB_append ha hb,copyB_append hm hn]

end Copies

section Crash
variable {a b : List UInt8}

theorem crash_second (ha : a.length = superblockSize) (hb : b.length = superblockSize)
    (sb : Superblock) (k : ℕ) :
    ∃ n, n.length = superblockSize ∧
      crash crc32 sector [(superblockSize,sb)] k keep (a ++ b) = a ++ n := by
  have hfile : ∃ b', b'.length = superblockSize ∧
      writeCopies crc32 ([(superblockSize,sb)].take k) (a ++ b) = a ++ b' := by
    cases k with
    | zero => exact ⟨b,hb,rfl⟩
    | succ k =>
      rw [List.take_succ_cons,List.take_nil]
      exact ⟨_,encode_length sb,writeAt_second ha hb (encode_length sb)⟩
  obtain ⟨b',hb',hw⟩ := hfile
  rw [crash,hw,mixFrom_append rfl,mixFrom_self]
  exact ⟨_,(mixFrom_length _ _ _).trans hb,rfl⟩

theorem crash_first (ha : a.length = superblockSize) (sb : Superblock) (k : ℕ) :
    ∃ m, m.length = superblockSize ∧
      crash crc32 sector [(0,sb)] k keep (a ++ b) = m ++ b := by
  have hfile : ∃ a', a'.length = superblockSize ∧
      writeCopies crc32 ([(0,sb)].take k) (a ++ b) = a' ++ b := by
    cases k with
    | zero => exact ⟨a,ha,rfl⟩
    | succ k =>
      rw [List.take_succ_cons,List.take_nil]
      exact ⟨_,encode_length sb,writeAt_first ha (encode_length sb)⟩
  obtain ⟨a',ha',hw⟩ := hfile
  rw [crash,hw,mixFrom_append (ha.trans ha'.symm),mixFrom_self]
  exact ⟨_,(mixFrom_length _ _ _).trans ha,rfl⟩

theorem crash_length (ws : Writes) (k : ℕ) (file : List UInt8) :
    (crash crc32 sector ws k keep file).length = file.length := mixFrom_length _ _ _

end Crash

end SuperblockFile
end PgAm
