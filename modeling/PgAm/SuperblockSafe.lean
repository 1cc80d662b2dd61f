import PgAm.Checksum
import PgAm.SuperblockCrash

/-! What becomes of the superblock over crashes. A write touches only the copy that is not active,
so the other one stays. A read that upgrades an old file rewrites both copies with one sync, and
both may be cut unless the disk keeps a copy in one sector. -/
namespace PgAm
namespace SuperblockFile

variable {crc32 : List UInt8 → UInt32} {sector : ℕ} {keep : ℕ → Bool}

structure Inv (crc32 : List UInt8 → UInt32) (s : Sys) : Prop where
  len : s.file.length = superblockFileSize
  readable : content crc32 s.file = some s.value

theorem crash_nil (k : ℕ) (file : List UInt8) : crash crc32 sector [] k keep file = file := by
  rw [crash,List.take_nil]
  exact mixFrom_self 0 file

/-- The three ways a write goes: refused, to the second copy, or to the first one. -/
inductive WriteCase (crc32 : List UInt8 → UInt32) (sb v : Superblock) (a b : List UInt8) :
    Except StorageError Unit × Writes → Prop
  | refused (e : StorageError) : WriteCase crc32 sb v a b (.error e,[])
  | second {mig : Bool} (hv : decode crc32 a = .ok (v,mig))
      (hlt : v.checkpointLsn < sb.checkpointLsn)
      (hb : ∀ x m, decode crc32 b = .ok (x,m) → x.checkpointLsn ≤ v.checkpointLsn) :
      WriteCase crc32 sb v a b (.ok (),[(superblockSize,sb)])
  | first {mig : Bool} (hv : decode crc32 b = .ok (v,mig))
      (hlt : v.checkpointLsn < sb.checkpointLsn)
      (ha : ∀ x m, decode crc32 a = .ok (x,m) → x.checkpointLsn < v.checkpointLsn) :
      WriteCase crc32 sb v a b (.ok (),[(0,sb)])

variable {v : Superblock} {a b : List UInt8}

theorem write_case (ha : a.length = superblockSize)
    (hb : b.length = superblockSize) (hv : content crc32 (a ++ b) = some v)
    (sb : Superblock) : WriteCase crc32 sb v a b (write crc32 sb (a ++ b)) := by
  obtain ⟨off,mig,hread⟩ := content_eq_some.1 hv
  unfold write
  rw [hread]
  dsimp only
  split
  · exact .refused _
  · rename_i hlt
    rw [readWithOffset_append ha hb] at hread
    have hlt' := UInt64.not_le.1 hlt
    rcases choose_eq_ok hread with ⟨rfl,⟨m,hm⟩,hle⟩ | ⟨rfl,⟨m,hm⟩,hlt''⟩
    · rw [if_pos rfl]
      exact .second hm hlt' hle
    · rw [if_neg (by decide)]
      exact .first hm hlt' hlt''

variable {s : Sys}

theorem Inv.start (h : Start crc32 s) : Inv crc32 s := ⟨h.1,h.2⟩

theorem inv_create (pageSize : UInt32) (now : UInt64) :
    Inv crc32 ⟨(create crc32 pageSize now).2,(create crc32 pageSize now).1⟩ := by
  set sb := Superblock.new pageSize now with hsb
  have hfile : (create crc32 pageSize now).2 = encode crc32 sb ++ encode crc32 sb := by
    have h₁ : writeAt [] 0 (encode crc32 sb) = encode crc32 sb ++ [] := by
      simp [writeAt]
    have h₂ : writeAt (encode crc32 sb ++ []) superblockSize (encode crc32 sb) =
        encode crc32 sb ++ encode crc32 sb := by
      have hdrop : (encode crc32 sb).drop (superblockSize + superblockSize) = [] :=
        List.drop_eq_nil_of_le (by rw [encode_length]; omega)
      rw [List.append_nil,writeAt,encode_length,hdrop,Nat.sub_self,
        List.take_of_length_le (encode_length sb).le]
      simp
    change writeAt (writeAt [] 0 (encode crc32 sb)) superblockSize (encode crc32 sb) = _
    rw [h₁,h₂]
  have hvalue : (create crc32 pageSize now).1 = sb := rfl
  rw [hfile,hvalue]
  refine ⟨?_,?_⟩
  · change (encode crc32 sb ++ encode crc32 sb).length = _
    rw [List.length_append,encode_length]
    rfl
  · exact content_both sb

theorem content_write {a b : List UInt8} (ha : a.length = superblockSize)
    (hb : b.length = superblockSize) {v sb : Superblock} (hv : content crc32 (a ++ b) = some v) :
    ((write crc32 sb (a ++ b)).1 = .ok () →
      content crc32 (writeCopies crc32 (write crc32 sb (a ++ b)).2 (a ++ b)) =
        some sb) ∧
    ∀ k, Detected crc32 sb (a ++ b)
        (crash crc32 sector (write crc32 sb (a ++ b)).2 k keep (a ++ b)) →
      content crc32 (crash crc32 sector (write crc32 sb (a ++ b)).2 k keep
        (a ++ b)) = some v ∨
      content crc32 (crash crc32 sector (write crc32 sb (a ++ b)).2 k keep
        (a ++ b)) = some sb := by
  have hcase := write_case ha hb hv sb
  generalize write crc32 sb (a ++ b) = out at hcase
  cases hcase with
  | refused e =>
    refine ⟨nofun,fun k _ => .inl ?_⟩
    rw [crash_nil]
    exact hv
  | second hva hlt hle =>
    refine ⟨fun _ => ?_,fun k hd => ?_⟩
    · change content crc32 (writeAt (a ++ b) superblockSize (encode crc32 sb)) = _
      rw [writeAt_second ha hb (encode_length sb)]
      exact content_second_new ha hva hlt
    · obtain ⟨n,hn,hcrash⟩ := @crash_second crc32 sector keep a b ha hb sb k
      rw [hcrash] at hd ⊢
      by_cases hnew : n = encode crc32 sb
      · rw [hnew]
        exact .inr (content_second_new ha hva hlt)
      · exact .inl (content_second_old ha hn hva fun x m hx =>
          hle x m ((hd.left ha hb ha hn).2.cases hnew x m hx))
  | first hvb hlt hlt' =>
    refine ⟨fun _ => ?_,fun k hd => ?_⟩
    · change content crc32 (writeAt (a ++ b) 0 (encode crc32 sb)) = _
      rw [writeAt_first ha (encode_length sb)]
      exact content_first_new hb hvb hlt
    · obtain ⟨m,hm,hcrash⟩ := @crash_first crc32 sector keep a b ha sb k
      rw [hcrash] at hd ⊢
      by_cases hnew : m = encode crc32 sb
      · rw [hnew]
        exact .inr (content_first_new hb hvb hlt)
      · exact .inl (content_first_old hm hb hvb fun x m' hx =>
          hlt' x m' ((hd.left ha hb hm hb).1.cases hnew x m' hx))

variable {file : List UInt8}

theorem length_writeCopies (h : file.length = superblockFileSize) {ws : Writes}
    (hws : ∀ w ∈ ws, w.1 = 0 ∨ w.1 = superblockSize) :
    (writeCopies crc32 ws file).length = superblockFileSize := by
  induction ws generalizing file with
  | nil => exact h
  | cons w ws ih =>
    obtain ⟨a,b,rfl,ha,hb⟩ := exists_copies h
    have hnext : (writeAt (a ++ b) w.1 (encode crc32 w.2)).length = superblockFileSize := by
      rcases hws w (by simp) with hw | hw
      · rw [hw,writeAt_first ha (encode_length _),List.length_append,encode_length,hb]
        rfl
      · rw [hw,writeAt_second ha hb (encode_length _),List.length_append,encode_length,ha]
        rfl
    exact ih hnext fun w' hw' => hws w' (List.mem_cons_of_mem _ hw')

theorem read_case (hv : content crc32 file = some v) :
    ∃ mig : Bool, read crc32 file = (.ok v,if mig then writeBothCopies v else []) := by
  obtain ⟨off,mig,hread⟩ := content_eq_some.1 hv
  unfold read
  rw [hread]
  exact ⟨mig,rfl⟩

theorem content_read (ha : a.length = superblockSize)
    (hb : b.length = superblockSize) (hv : content crc32 (a ++ b) = some v) :
    (read crc32 (a ++ b)).1 = .ok v ∧
      content crc32 (writeCopies crc32 (read crc32 (a ++ b)).2 (a ++ b)) = some v := by
  obtain ⟨mig,hread⟩ := read_case hv
  rw [hread]
  refine ⟨rfl,?_⟩
  cases mig with
  | false => exact hv
  | true =>
    change content crc32 (writeAt (writeAt (a ++ b) 0 (encode crc32 v)) superblockSize
      (encode crc32 v)) = some v
    rw [writeAt_first ha (encode_length v),
      writeAt_second (encode_length v) hb (encode_length v)]
    exact content_both v

/-- A crash inside a read keeps the content exactly if it spares a copy that has it. -/
theorem crashed_read_iff (h : file.length = superblockFileSize)
    (hv : content crc32 file = some v) {k : ℕ}
    (hd : Detected crc32 v file (crash crc32 sector (read crc32 file).2 k keep file)) :
    content crc32 (crash crc32 sector (read crc32 file).2 k keep file) = some v ↔
      Spared crc32 v file (crash crc32 sector (read crc32 file).2 k keep file) := by
  generalize hws : (read crc32 file).2 = ws at hd ⊢
  obtain ⟨m,n,hcrash,hm,hn⟩ := exists_copies
    ((@crash_length crc32 sector keep ws k file).trans h)
  rw [hcrash] at hd ⊢
  obtain ⟨a,b,rfl,ha,hb⟩ := exists_copies h
  exact content_migrate ha hb hm hn hv hd

theorem writes_offsets {file : List UInt8} (sb : Superblock) :
    (∀ w ∈ (write crc32 sb file).2, w.1 = 0 ∨ w.1 = superblockSize) ∧
      ∀ w ∈ (read crc32 file).2, w.1 = 0 ∨ w.1 = superblockSize := by
  have hboth : ∀ sb : Superblock, ∀ w ∈ writeBothCopies sb, w.1 = 0 ∨ w.1 = superblockSize := by
    simp [writeBothCopies]
  constructor
  · unfold write
    split
    · exact hboth sb
    · split
      · simp
      · simp only [List.mem_singleton,forall_eq]
        split
        · exact .inr rfl
        · exact .inl rfl
  · unfold read
    split
    · simp
    · split
      · exact hboth _
      · simp

theorem step_inv {s s' : Sys} {x : Step} (h : Inv crc32 s) (hok : Allowed crc32 sector s x)
    (hstep : step crc32 sector s x = some s') : Inv crc32 s' := by
  obtain ⟨hlen,hv⟩ := h
  obtain ⟨file,v⟩ := s
  cases x with
  | create pageSize now =>
    cases hstep
    exact inv_create pageSize now
  | write sb =>
    obtain ⟨a,b,rfl,ha,hb⟩ := exists_copies hlen
    have hoff := (@writes_offsets crc32 (a ++ b) sb).1
    have hnew := (@content_write crc32 0 (fun _ => false) a b ha hb v sb hv).1
    have hcase := write_case ha hb hv sb
    simp only [step] at hstep
    generalize write crc32 sb (a ++ b) = out at hstep hoff hnew hcase
    cases hcase with
    | refused e =>
      cases hstep
      exact ⟨hlen,hv⟩
    | second | first =>
      cases hstep
      exact ⟨length_writeCopies hlen hoff,hnew rfl⟩
  | read =>
    cases hstep
    obtain ⟨a,b,rfl,ha,hb⟩ := exists_copies hlen
    exact ⟨length_writeCopies hlen (writes_offsets v).2,(content_read ha hb hv).2⟩
  | crashWrite sb k keep =>
    cases hstep
    refine ⟨(crash_length _ _ _).trans hlen,?_⟩
    obtain ⟨a,b,rfl,ha,hb⟩ := exists_copies hlen
    rcases (@content_write crc32 sector keep a b ha hb v sb hv).2 k hok with hc | hc
    · by_cases he : v = sb
      · rw [hc,he,if_pos rfl]
      · rw [hc,if_neg (fun h => he (Option.some.inj h))]
    · rw [hc,if_pos rfl]
  | crashRead k keep =>
    cases hstep
    exact ⟨(crash_length _ _ _).trans hlen,(crashed_read_iff hlen hv hok.1).2 hok.2⟩

/-- After any writes, reads and crashes inside them, the next read returns the content of the last
write, or of the crashed one if that is found, as long as a crash inside a read that upgrades the
file spares a copy. -/
theorem superblock_not_lost {s : Sys}
    (h : Machine.Reach (step crc32 sector) (Start crc32) (Allowed crc32 sector) s) :
    (read crc32 s.file).1 = .ok s.value := by
  have hinv : Inv crc32 s := h.invariant (fun _ hs => Inv.start hs)
    fun _ _ _ ht hok hstep => step_inv ht hok hstep
  obtain ⟨mig,hread⟩ := read_case hinv.readable
  rw [hread]

theorem mixFrom_const {base : ℕ} (hlen : a.length = b.length) {c : Bool}
    (h : ∀ i < a.length, keep ((base + i) / sector) = c) :
    mixFrom sector keep base a b = if c then b else a := by
  induction a generalizing base b with
  | nil =>
    rw [List.length_eq_zero_iff.1 hlen.symm]
    cases c <;> rfl
  | cons x a ih =>
    cases b with
    | nil => cases hlen
    | cons y b =>
      have hhead : keep (base / sector) = c := h 0 (Nat.succ_pos _)
      have hrest : ∀ i < a.length, keep ((base + 1 + i) / sector) = c := fun i hi => by
        have := h (i + 1) (Nat.succ_lt_succ hi)
        rwa [show base + 1 + i = base + (i + 1) by omega]
      have htail := ih (Nat.succ.inj hlen) hrest
      rw [mixFrom,hhead,htail]
      cases c <;> rfl

theorem mixFrom_whole (hs : superblockSize ∣ sector) {a b : List UInt8}
    (ha : a.length = superblockSize) (hb : b.length = superblockSize) (j : ℕ) :
    mixFrom sector keep (j * superblockSize) a b = a ∨
      mixFrom sector keep (j * superblockSize) a b = b := by
  obtain ⟨t,rfl⟩ := hs
  have hconst : ∀ i < a.length,
      keep ((j * superblockSize + i) / (superblockSize * t)) = keep (j / t) := by
    intro i hi
    rw [ha] at hi
    rw [← Nat.div_div_eq_div_mul,Nat.mul_comm j,Nat.mul_add_div (by decide),Nat.div_eq_of_lt hi,
      Nat.add_zero]
  rw [mixFrom_const (ha.trans hb.symm) hconst]
  cases keep (j / t)
  · exact .inl rfl
  · exact .inr rfl

section Whole
variable {a b m n : List UInt8} {sb : Superblock}

def OldOrNew (crc32 : List UInt8 → UInt32) (sb : Superblock) (a m : List UInt8) : Prop :=
  m = a ∨ m = encode crc32 sb

theorem OldOrNew.length (h : OldOrNew crc32 sb a m) (ha : a.length = superblockSize) :
    m.length = superblockSize := by
  rcases h with rfl | rfl
  · exact ha
  · exact encode_length sb

theorem writeCopies_old_or_new (ha : a.length = superblockSize) (hb : b.length = superblockSize)
    {ws : Writes} (hws : ∀ w ∈ ws, (w.1 = 0 ∨ w.1 = superblockSize) ∧ w.2 = sb)
    (hm : OldOrNew crc32 sb a m) (hn : OldOrNew crc32 sb b n) :
    ∃ m' n', writeCopies crc32 ws (m ++ n) = m' ++ n' ∧ OldOrNew crc32 sb a m' ∧
      OldOrNew crc32 sb b n' := by
  induction ws generalizing m n with
  | nil => exact ⟨m,n,rfl,hm,hn⟩
  | cons w ws ih =>
    obtain ⟨hoff,hsb⟩ := hws w (by simp)
    have hrest := fun w' hw' => hws w' (List.mem_cons_of_mem _ hw')
    change ∃ m' n', writeCopies crc32 ws (writeAt (m ++ n) w.1 (encode crc32 w.2)) = _ ∧ _
    rw [hsb]
    rcases hoff with hoff | hoff
    · rw [hoff,writeAt_first (hm.length ha) (encode_length sb)]
      exact ih hrest (.inr rfl) hn
    · rw [hoff,writeAt_second (hm.length ha) (hn.length hb) (encode_length sb)]
      exact ih hrest hm (.inr rfl)

/-- With sectors that hold whole copies a crash leaves each copy as it was or as it was written. -/
theorem crash_whole (hs : superblockSize ∣ sector) (ha : a.length = superblockSize)
    (hb : b.length = superblockSize) {ws : Writes}
    (hws : ∀ w ∈ ws, (w.1 = 0 ∨ w.1 = superblockSize) ∧ w.2 = sb) (k : ℕ) :
    ∃ m n, crash crc32 sector ws k keep (a ++ b) = m ++ n ∧ OldOrNew crc32 sb a m ∧
      OldOrNew crc32 sb b n := by
  obtain ⟨m,n,hw,hm,hn⟩ := @writeCopies_old_or_new crc32 a b a b sb ha hb (ws.take k)
    (fun w hw => hws w (List.mem_of_mem_take hw)) (.inl rfl) (.inl rfl)
  have hlen := hm.length ha
  have hfirst := @mixFrom_whole sector keep hs a m ha hlen 0
  have hsecond := @mixFrom_whole sector keep hs b n hb (hn.length hb) 1
  rw [Nat.zero_mul] at hfirst
  rw [Nat.one_mul] at hsecond
  refine ⟨_,_,by rw [crash,hw,mixFrom_append (ha.trans hlen.symm),ha,Nat.zero_add],?_,?_⟩
  · rcases hfirst with h | h
    · exact .inl h
    · rwa [h]
  · rcases hsecond with h | h
    · exact .inl h
    · rwa [h]

theorem detected_of_whole (ha : a.length = superblockSize) (hb : b.length = superblockSize)
    (hm : OldOrNew crc32 sb a m) (hn : OldOrNew crc32 sb b n) :
    Detected crc32 sb (a ++ b) (m ++ n) := by
  intro copy hcopy
  simp only [List.mem_cons,List.not_mem_nil,or_false] at hcopy
  rcases hcopy with rfl | rfl
  · rw [copyA_append ha,copyA_append (hm.length ha)]
    exact Or.imp_right .inl hm
  · rw [copyB_append ha hb,copyB_append (hm.length ha) (hn.length hb)]
    exact Or.imp_right .inl hn

theorem spared_of_whole (ha : a.length = superblockSize) (hb : b.length = superblockSize)
    (hv : content crc32 (a ++ b) = some sb) (hm : OldOrNew crc32 sb a m)
    (hn : OldOrNew crc32 sb b n) : Spared crc32 sb (a ++ b) (m ++ n) := by
  rcases ((content_append ha hb).1 hv).1 with h | h
  · refine ⟨copyA,by simp,?_⟩
    rw [copyA_append ha,copyA_append (hm.length ha)]
    exact Or.elim hm (fun he => .inr ⟨he,h⟩) .inl
  · refine ⟨copyB,by simp,?_⟩
    rw [copyB_append ha hb,copyB_append (hm.length ha) (hn.length hb)]
    exact Or.elim hn (fun he => .inr ⟨he,h⟩) .inl

end Whole

theorem allowed_of_whole (hs : superblockSize ∣ sector) (h : Inv crc32 s) (x : Step) :
    Allowed crc32 sector s x := by
  obtain ⟨hlen,hv⟩ := h
  obtain ⟨file,v⟩ := s
  obtain ⟨a,b,rfl,ha,hb⟩ := exists_copies hlen
  cases x with
  | create | write | read => exact trivial
  | crashWrite sb k keep =>
    have hws : ∀ w ∈ (write crc32 sb (a ++ b)).2, w.2 = sb := by
      have hcase := write_case ha hb hv sb
      generalize write crc32 sb (a ++ b) = out at hcase
      cases hcase <;> simp
    obtain ⟨m,n,hcrash,hm,hn⟩ := @crash_whole crc32 sector keep a b sb hs ha hb _
      (fun w hw => ⟨(writes_offsets sb).1 w hw,hws w hw⟩) k
    change Detected crc32 sb (a ++ b) (crash crc32 sector _ k keep (a ++ b))
    rw [hcrash]
    exact detected_of_whole ha hb hm hn
  | crashRead k keep =>
    have hws : ∀ w ∈ (read crc32 (a ++ b)).2, w.2 = v := by
      obtain ⟨mig,hread⟩ := read_case hv
      rw [hread]
      cases mig <;> simp [writeBothCopies]
    obtain ⟨m,n,hcrash,hm,hn⟩ := @crash_whole crc32 sector keep a b v hs ha hb _
      (fun w hw => ⟨(writes_offsets v).2 w hw,hws w hw⟩) k
    change Detected crc32 v (a ++ b) (crash crc32 sector _ k keep (a ++ b)) ∧
      Spared crc32 v (a ++ b) (crash crc32 sector _ k keep (a ++ b))
    rw [hcrash]
    exact ⟨detected_of_whole ha hb hm hn,spared_of_whole ha hb hv hm hn⟩

/-- On a disk whose sectors hold whole copies nothing is lost, whatever the checksum. -/
theorem not_lost_on_whole_sectors (hs : superblockSize ∣ sector)
    (h : Machine.Reach (step crc32 sector) (Start crc32) Machine.anyStep s) :
    (read crc32 s.file).1 = .ok s.value := by
  have hinv : Inv crc32 s := h.invariant (fun _ hs => Inv.start hs)
    fun _ x _ ht _ hstep => step_inv ht (allowed_of_whole hs ht x) hstep
  obtain ⟨mig,hread⟩ := read_case hinv.readable
  rw [hread]

section Decidable
variable (sb : Superblock) (old file : List UInt8)

instance {α : Type} (x : Except StorageError α) : Decidable (∃ e, x = .error e) :=
  match x with
  | .error e => .isTrue ⟨e,rfl⟩
  | .ok _ => .isFalse nofun

instance (bytes : List UInt8) :
    Decidable (∃ migrated, decode crc32 bytes = .ok (sb,migrated)) :=
  decidable_of_iff (decode crc32 bytes = .ok (sb,true) ∨ decode crc32 bytes = .ok (sb,false))
    ⟨fun h => h.elim (⟨_,·⟩) (⟨_,·⟩),fun ⟨m,hm⟩ => by cases m; exacts [.inr hm,.inl hm]⟩

instance : Decidable (Detected crc32 sb old file) :=
  inferInstanceAs (Decidable (∀ copy ∈ [copyA,copyB], _))

instance : Decidable (Spared crc32 sb old file) :=
  inferInstanceAs (Decidable (∃ copy ∈ [copyA,copyB], _))

instance (s : Sys) (x : Step) : Decidable (Allowed crc32 sector s x) :=
  match x with
  | .crashWrite _ _ _ => inferInstanceAs (Decidable (Detected ..))
  | .crashRead _ _ => inferInstanceAs (Decidable (Detected .. ∧ Spared ..))
  | .create .. | .write _ | .read => .isTrue trivial

end Decidable

def oldHeader : List UInt8 :=
  leBytes 4 superblockMagic ++ leBytes 4 1 ++ leBytes 4 8192 ++ leBytes 4 0 ++ leBytes 8 64 ++
    leBytes 8 5 ++ leBytes 8 7 ++ leBytes 8 1000

def oldCopy (crc32 : List UInt8 → UInt32) : List UInt8 :=
  let rest := List.replicate (superblockSize - 52) 0
  oldHeader ++ leBytes 4 (crc32 (oldHeader ++ rest)).toNat ++ rest

/-- A superblock of the first version with checkpoint position 64, and what it is upgraded to. -/
def oldSys (crc32 : List UInt8 → UInt32) : Sys :=
  ⟨oldCopy crc32 ++ oldCopy crc32,⟨superblockVersion,8192,64,5,7,firstUserOid,1000,rfl⟩⟩

theorem start_oldSys : Start crc32Ieee (oldSys crc32Ieee) := by
  rw [crc32Ieee_eq_loop]
  exact ⟨by decide +kernel,by decide +kernel⟩

/-- Of each copy only the first sector of 32 bytes, with the version, reaches the disk. -/
def firstSectors (i : ℕ) : Bool := i % 16 == 0

/-- After the step the checksum has detected what is torn, and the file cannot be read. -/
def lost (crc32 : List UInt8 → UInt32) (s : Sys) (x : Step) : Bool :=
  (step crc32 32 s x).any fun s' : Sys => decide (Detected crc32 s.value s.file s'.file) &&
    decide (∃ e, (read crc32 s'.file).1 = .error e)

/-- A crash inside the upgrade of a file of the first version cuts both copies. -/
theorem upgrade_loses_superblock :
    ∃ s s', Start crc32Ieee s ∧ step crc32Ieee 32 s (.crashRead 2 firstSectors) = some s' ∧
      Detected crc32Ieee s.value s.file s'.file ∧ ∃ e, (read crc32Ieee s'.file).1 = .error e := by
  have hlost : lost crc32Ieee (oldSys crc32Ieee) (.crashRead 2 firstSectors) = true := by
    rw [crc32Ieee_eq_loop]
    decide +kernel
  rw [lost,Option.any_eq_true] at hlost
  obtain ⟨s',hstep,hs'⟩ := hlost
  rw [Bool.and_eq_true,decide_eq_true_eq,decide_eq_true_eq] at hs'
  exact ⟨_,s',start_oldSys,hstep,hs'⟩

/-- With whole sectors the same crash does no harm. -/
theorem not_lost_on_whole_sectors_upgrade :
    ∃ s, step crc32Ieee 512 (oldSys crc32Ieee) (.crashRead 2 firstSectors) = some s ∧
      (read crc32Ieee s.file).1 = .ok (oldSys crc32Ieee).value := by
  have hstep : ∃ s, step crc32Ieee 512 (oldSys crc32Ieee) (.crashRead 2 firstSectors) = some s ∧
      s.value = (oldSys crc32Ieee).value := ⟨_,rfl,rfl⟩
  obtain ⟨s,hs,hv⟩ := hstep
  exact ⟨s,hs,hv ▸ not_lost_on_whole_sectors (by decide) (.next (.start start_oldSys) trivial hs)⟩

def later (checkpointLsn : UInt64) : Superblock :=
  ⟨superblockVersion,8192,checkpointLsn,9,11,firstUserOid,1000,rfl⟩

/-- The upgrade is cut behind the first copy, a write completes, and the next one is torn. -/
def cutTwice : List Step :=
  [.crashRead 1 fun i => i < 16,.write (later 128),.crashWrite (later 200) 1 firstSectors]

theorem superblock_not_lost_cut_twice :
    ∃ s, Machine.Reach (step crc32Ieee 32) (Start crc32Ieee) (Allowed crc32Ieee 32) s ∧
      s.value = later 128 ∧ (read crc32Ieee s.file).1 = .ok (later 128) := by
  have hrun : ∃ s, Machine.Reach (step crc32Ieee 32) (Start crc32Ieee) (Allowed crc32Ieee 32) s ∧
      decide (s.value = later 128) = true := by
    refine Machine.exists_reach start_oldSys cutTwice ?_
    rw [crc32Ieee_eq_loop]
    decide +kernel
  obtain ⟨s,hs,hvalue⟩ := hrun
  have hread := superblock_not_lost hs
  rw [of_decide_eq_true hvalue] at hread
  exact ⟨s,hs,of_decide_eq_true hvalue,hread⟩

end SuperblockFile
end PgAm
