import PgAm.PageCalls

/-! No page is handed out twice. The saved freelist and the superblock are each at most as new as
the records that recovery replays over them, at every step of a checkpoint. -/
namespace PgAm
namespace PageAllocator

open Machine (anyStep exists_reach)

/-- The saved freelist is free as of the begin record, and the next page is behind all known
ones. -/
structure Anchored (log : List Rec) (m : FreelistMeta) (next : ℕ) : Prop where
  nodup : m.pageIds.Nodup
  free : ∀ p ∈ m.pageIds, last p (log.take (m.checkpointLsn - 1)) = some true
  behind : Behind (log.take (m.checkpointLsn - 1)) next
  next_pos : 1 ≤ next

def PhaseInv (w : Wal) (a : Allocator) : Checkpoint → Prop
  | .idle => True
  | .begun m => m.checkpointLsn ≤ w.log.length ∧ Anchored w.log m a.nextPageId
  | .sampled m next => m.checkpointLsn ≤ w.log.length ∧ Anchored w.log m next ∧
      Mentioned w.log next
  | .endAppended m next lsn => m.checkpointLsn < lsn ∧ lsn ≤ w.log.length ∧
      Anchored w.log m next ∧ Mentioned (w.log.take (lsn - 1)) next
  | .endFlushed m next | .freelistWritten m next => m.checkpointLsn ≤ w.synced ∧
      Anchored w.log m next ∧ Mentioned (w.log.take w.synced) next

structure Inv (s : Sys) : Prop where
  tidy : Tidy s.wal s.allocator
  synced_le : s.wal.synced ≤ s.wal.log.length
  redo_le : s.superblock.checkpointLsn ≤ s.wal.synced
  behind : Behind (s.wal.log.take (s.superblock.checkpointLsn - 1)) s.superblock.nextPageId
  mentioned : Mentioned (s.wal.log.take s.wal.synced) s.superblock.nextPageId
  next_pos : 1 ≤ s.superblock.nextPageId
  saved : ∀ m ∈ s.freelistMeta, m.checkpointLsn ≤ s.wal.synced ∧ m.pageIds.Nodup ∧
    ∀ p ∈ m.pageIds, last p (s.wal.log.take (m.checkpointLsn - 1)) = some true
  checkpoint : PhaseInv s.wal s.allocator s.checkpoint

variable {l l' : List Rec}

theorem take_of_prefixed (h : l <+: l') {k : ℕ} (hk : k ≤ l.length) : l'.take k = l.take k := by
  obtain ⟨extra,rfl⟩ := h
  exact List.take_append_of_le_length hk

theorem Mentioned.mono {next : ℕ} (h : Mentioned l next) (hl : l <+: l') : Mentioned l' next := by
  obtain ⟨extra,rfl⟩ := hl
  exact fun p hp hlt => last_ne_none_of_append (h p hp hlt)

theorem Anchored.mono {m : FreelistMeta} {next next' : ℕ}
    (h : Anchored l m next) (hl : l <+: l') (hm : m.checkpointLsn ≤ l.length)
    (hn : next ≤ next') : Anchored l' m next' := by
  have htake := take_of_prefixed hl ((Nat.sub_le m.checkpointLsn 1).trans hm)
  refine ⟨h.nodup,?_,?_,h.next_pos.trans hn⟩
  · rw [htake]
    exact h.free
  · rw [htake]
    exact fun p hp => (h.behind p hp).imp id fun hlt => hlt.trans_le hn

theorem PhaseInv.mono {w w' : Wal} {a a' : Allocator} {c : Checkpoint} (h : PhaseInv w a c)
    (hs : w.synced ≤ w.log.length) (hl : w.log <+: w'.log) (hsync : w.synced ≤ w'.synced)
    (hn : a.nextPageId ≤ a'.nextPageId) :
    PhaseInv w' a' c := by
  have hlen := hl.length_le
  have hflushed : ∀ m next, m.checkpointLsn ≤ w.synced ∧ Anchored w.log m next ∧
      Mentioned (w.log.take w.synced) next → m.checkpointLsn ≤ w'.synced ∧
      Anchored w'.log m next ∧ Mentioned (w'.log.take w'.synced) next := by
    rintro m next ⟨hm,ha,hmen⟩
    refine ⟨hm.trans hsync,ha.mono hl (hm.trans hs) le_rfl,hmen.mono ?_⟩
    rw [← take_of_prefixed hl hs]
    exact List.take_prefix_take_left hsync
  cases c with
  | idle => trivial
  | begun m => exact ⟨h.1.trans hlen,h.2.mono hl h.1 hn⟩
  | sampled m next => exact ⟨h.1.trans hlen,h.2.1.mono hl h.1 le_rfl,h.2.2.mono hl⟩
  | endAppended m next lsn =>
    obtain ⟨hm,hle,ha,hmen⟩ := h
    refine ⟨hm,hle.trans hlen,ha.mono hl (hm.le.trans hle) le_rfl,?_⟩
    rwa [take_of_prefixed hl ((Nat.sub_le _ _).trans hle)]
  | endFlushed m next | freelistWritten m next => exact hflushed m next h

theorem Inv.next {s : Sys} (h : Inv s) {w : Wal} {a : Allocator} {c : Checkpoint}
    (ht : Tidy w a) (hlog : w.log.take s.wal.synced = s.wal.log.take s.wal.synced)
    (hsync : s.wal.synced ≤ w.synced) (hle : w.synced ≤ w.log.length) (hc : PhaseInv w a c) :
    Inv { s with wal := w, allocator := a, checkpoint := c } := by
  have htake {k : ℕ} (hk : k ≤ s.wal.synced) : w.log.take (k - 1) = s.wal.log.take (k - 1) := by
    rw [← min_eq_left ((Nat.sub_le k 1).trans hk),← List.take_take,hlog,List.take_take]
  refine ⟨ht,hle,h.redo_le.trans hsync,?_,?_,h.next_pos,fun m hm => ?_,hc⟩
  · exact (htake h.redo_le).symm ▸ h.behind
  · exact h.mentioned.mono (hlog ▸ List.take_prefix_take_left hsync)
  · obtain ⟨hle,hnodup,hfree⟩ := h.saved m hm
    exact ⟨hle.trans hsync,hnodup,(htake hle).symm ▸ hfree⟩

theorem Inv.append {s : Sys} (h : Inv s) {w : Wal} {a : Allocator}
    (hk : Keeps s.wal s.allocator w a) {c : Checkpoint} (hc : PhaseInv w a c) :
    Inv { s with wal := w, allocator := a, checkpoint := c } :=
  h.next hk.tidy (take_of_prefixed hk.log h.synced_le) hk.synced.ge
    (hk.synced.trans_le (h.synced_le.trans hk.log.length_le)) hc

variable {s : Sys} {a : Allocator}

theorem Inv.phase (h : Inv s) {w : Wal}
    (hk : Keeps s.wal s.allocator w a) : PhaseInv w a s.checkpoint :=
  h.checkpoint.mono h.synced_le hk.log hk.synced.ge hk.next

theorem Inv.at_phase (h : Inv s) {c : Checkpoint} (hc : s.checkpoint = c) :
    PhaseInv s.wal s.allocator c :=
  hc ▸ h.checkpoint

theorem replay_aligned {l : List Rec} (h : pageSize ∣ a.currentFileLen) :
    pageSize ∣ (l.foldl replayRecord a).currentFileLen := by
  induction l generalizing a with
  | nil => exact h
  | cons r l ih =>
    refine ih ?_
    cases r with
    | pageAlloc p =>
      rw [replayRecord,applyPageAlloc]
      generalize hb : (if a.nextPageId ≤ p then { a with nextPageId := p + 1 } else a) = b
      obtain ⟨res,len,hcap,hlen,-⟩ := ensureDataFileCapacity_eq none p
        { b with freelist := b.freelist.filter (· ≠ p) }
      dsimp only
      rw [hcap]
      refine hlen ?_
      subst hb
      split <;> exact h
    | pageFree p =>
      rw [replayRecord,applyPageFree]
      split <;> exact h
    | checkpointBegin | checkpointEnd | other => exact h

def seeded (readable : Bool) (fileLen : ℕ) (sb : Superblock) (saved : Option FreelistMeta) :
    Allocator :=
  match saved with
  | some m => if readable ∧ m.checkpointLsn = sb.checkpointLsn then
      ⟨fileLen,sb.nextPageId,m.pageIds,false⟩ else ⟨fileLen,sb.nextPageId,[],false⟩
  | none => ⟨fileLen,sb.nextPageId,[],false⟩

variable {fileLen : ℕ}

theorem recover_eq (readable : Bool) (log : List Rec) (hlen : pageSize ∣ fileLen)
    (sb : Superblock) (saved : Option FreelistMeta) :
    recover readable log fileLen sb saved = .ok (markRecoveryComplete
      ((log.drop (sb.checkpointLsn - 1)).foldl replayRecord
      (seeded readable fileLen sb saved))) := by
  have hopen : openAt fileLen sb.nextPageId = .ok ⟨fileLen,sb.nextPageId,[],false⟩ := by
    rw [openAt,if_neg (not_not.2 (Nat.mod_eq_zero_of_dvd hlen))]
  unfold recover seeded
  rw [hopen]
  cases saved with
  | none => rfl
  | some m =>
    simp only [bind,Except.bind,pure,Except.pure,seedFreelist]

theorem seeded_next (readable : Bool) (fileLen : ℕ) (sb : Superblock)
    (saved : Option FreelistMeta) :
    (seeded readable fileLen sb saved).nextPageId = sb.nextPageId ∧
      (seeded readable fileLen sb saved).currentFileLen = fileLen := by
  unfold seeded
  split
  · split <;> exact ⟨rfl,rfl⟩
  · exact ⟨rfl,rfl⟩

theorem mem_seeded {readable : Bool} {sb : Superblock} {saved : Option FreelistMeta}
    {p : ℕ} : p ∈ (seeded readable fileLen sb saved).freelist ↔
      readable = true ∧ ∃ m ∈ saved, m.checkpointLsn = sb.checkpointLsn ∧ p ∈ m.pageIds := by
  unfold seeded
  cases saved with
  | none => simp
  | some m =>
    dsimp only
    split
    · rename_i h
      simp [h]
    · rename_i h
      simp only [List.not_mem_nil,Option.mem_def,Option.some.injEq,exists_eq_left',false_iff]
      exact fun hm => h ⟨hm.1,hm.2.1⟩

/-- Recovery restores an allocator that agrees with the records found. -/
theorem recover_tidy (h : Inv s) {n : ℕ} (hn : s.wal.synced ≤ n) (readable : Bool) :
    Tidy ⟨s.wal.log.take n,n,none⟩ (markRecoveryComplete
      (((s.wal.log.take n).drop (s.superblock.checkpointLsn - 1)).foldl replayRecord
        (seeded readable s.allocator.currentFileLen s.superblock s.freelistMeta))) := by
  have hfront : (s.wal.log.take n).take (s.superblock.checkpointLsn - 1) =
      s.wal.log.take (s.superblock.checkpointLsn - 1) := by
    rw [List.take_take,min_eq_left ((Nat.sub_le _ _).trans (h.redo_le.trans hn))]
  have hsplit := List.take_append_drop (s.superblock.checkpointLsn - 1) (s.wal.log.take n)
  rw [hfront] at hsplit
  have hground := h.tidy.grounded.take n
  obtain ⟨hnext,hfile⟩ := seeded_next readable s.allocator.currentFileLen s.superblock
    s.freelistMeta
  have hlisted : Listed (s.wal.log.take (s.superblock.checkpointLsn - 1))
      (seeded readable s.allocator.currentFileLen s.superblock s.freelistMeta) := by
    have hfree : ∀ p ∈ (seeded readable s.allocator.currentFileLen s.superblock
        s.freelistMeta).freelist,
        last p (s.wal.log.take (s.superblock.checkpointLsn - 1)) = some true := by
      intro p hp
      obtain ⟨-,m,hm,heq,hp⟩ := mem_seeded.1 hp
      rw [← heq]
      exact (h.saved m hm).2.2 p hp
    refine ⟨?_,fun p hp => ?_,hfree,hnext ▸ h.next_pos⟩
    · unfold seeded
      split
      · rename_i m hm
        split
        · exact (h.saved m hm).2.1
        · exact List.nodup_nil
      · exact List.nodup_nil
    · rw [hnext]
      exact h.behind p (by rw [hfree p hp]; exact Option.some_ne_none _)
  obtain ⟨hl,hb⟩ := hlisted.replay (hnext ▸ h.behind) (hsplit.symm ▸ hground)
  rw [hsplit] at hl hb
  refine ⟨hground,{ hl with },fun _ => hb,?_,
    replay_aligned (h.tidy.aligned.trans (dvd_of_eq hfile.symm))⟩
  have hfound : Mentioned (s.wal.log.take n) s.superblock.nextPageId :=
    h.mentioned.mono (List.take_prefix_take_left hn)
  change Mentioned _ (List.foldl replayRecord _ _).nextPageId
  rcases replay_next ((s.wal.log.take n).drop (s.superblock.checkpointLsn - 1))
    (seeded readable s.allocator.currentFileLen s.superblock s.freelistMeta) with he | ⟨p,hp,he⟩
  · rw [he,hnext]
    exact hfound
  · rw [he]
    exact hground.mentioned (List.mem_of_mem_drop hp)

section Steps

variable {s s' : Sys}

theorem Inv.checkpointBegin {fault : Option AppendFault} (h : Inv s)
    (hstep : step s (.checkpointBegin fault) = some s') : Inv s' := by
  simp only [step] at hstep
  split at hstep
  · have happ := append_appended s.wal .checkpointBegin fault
    have hk := h.tidy.append (r := .checkpointBegin) rfl (fun _ => trivial) happ
    have hphase := h.phase hk
    generalize s.wal.append .checkpointBegin fault = out at happ hk hphase hstep
    obtain ⟨res,w⟩ := out
    cases happ with
    | refused | failed hlog hw => cases hstep; exact h.append hk hphase
    | done hw =>
      cases hstep
      refine h.append hk ⟨?_,h.tidy.listed.nodup,fun p hp => ?_,?_,h.tidy.listed.next_pos⟩
      · simp [snapshot]
      · simpa [snapshot] using h.tidy.listed.free p hp
      · simpa [snapshot] using h.tidy.behind hw
  · cases hstep

theorem Inv.checkpointEnd {fault : Option AppendFault} (h : Inv s)
    (hstep : step s (.checkpointEnd fault) = some s') : Inv s' := by
  simp only [step] at hstep
  split at hstep
  · rename_i m next hc
    have happ := append_appended s.wal (.checkpointEnd m.checkpointLsn next) fault
    have hk := h.tidy.append (r := .checkpointEnd m.checkpointLsn next) rfl
      (fun _ => trivial) happ
    generalize s.wal.append (.checkpointEnd m.checkpointLsn next) fault = out at happ hk hstep
    obtain ⟨res,w⟩ := out
    cases happ with
    | refused | failed hlog hw => cases hstep; exact h.append hk trivial
    | done hw =>
      cases hstep
      obtain ⟨hm,hanch,hmen⟩ := h.at_phase hc
      refine h.append hk ⟨Nat.lt_succ_of_le hm,by simp,hanch.mono hk.log hm le_rfl,?_⟩
      rw [Nat.add_sub_cancel,List.take_left']
      · exact hmen
      · rfl
  · cases hstep

theorem Inv.checkpointEndFlush (h : Inv s) (hstep : step s .checkpointEndFlush = some s') :
    Inv s' := by
  simp only [step] at hstep
  split at hstep
  · rename_i m next lsn hc
    split at hstep <;> cases hstep
    rename_i hle
    obtain ⟨hm,-,hanch,hmen⟩ := h.at_phase hc
    refine h.append (.refl h.tidy) ⟨by omega,hanch,hmen.mono ?_⟩
    exact List.take_prefix_take_left (by omega)
  · cases hstep

theorem Inv.checkpointFreelist {written : Bool} (h : Inv s)
    (hstep : step s (.checkpointFreelist written) = some s') : Inv s' := by
  simp only [step] at hstep
  split at hstep <;> cases hstep
  rename_i m next hc
  have hphase := h.at_phase hc
  refine { h with saved := fun k hk => ?_, checkpoint := hphase }
  dsimp only at hk
  split at hk
  · cases hk
    exact ⟨hphase.1,hphase.2.1.nodup,hphase.2.1.free⟩
  · exact h.saved k hk

theorem Inv.checkpointSuperblock {written : Bool} (h : Inv s)
    (hstep : step s (.checkpointSuperblock written) = some s') : Inv s' := by
  simp only [step] at hstep
  split at hstep <;> cases hstep
  rename_i m next hc
  have hphase := h.at_phase hc
  cases written with
  | false => exact h.append (.refl h.tidy) trivial
  | true =>
    exact ⟨h.tidy,h.synced_le,hphase.1,hphase.2.1.behind,hphase.2.2,hphase.2.1.next_pos,h.saved,
      trivial⟩

theorem Inv.crash {n : ℕ} {readable : Bool} (h : Inv s)
    (hstep : step s (.crash n readable) = some s') : Inv s' := by
  simp only [step] at hstep
  split at hstep
  · rename_i hn
    rw [recover_eq _ _ h.tidy.aligned] at hstep
    cases hstep
    exact h.next (recover_tidy h hn.1 readable) (by rw [List.take_take,min_eq_left hn.1]) hn.1
      (by rw [List.length_take,min_eq_left hn.2]) trivial
  · cases hstep

theorem step_inv {a : Step} (h : Inv s) (hstep : step s a = some s') : Inv s' := by
  cases a with
  | alloc grow fault =>
    cases hstep
    have hk := (allocPage_spec h.tidy grow fault).1
    exact h.append hk (h.phase hk)
  | free p fault =>
    cases hstep
    have hk := freePage_spec h.tidy fault p
    exact h.append hk (h.phase hk)
  | log fault =>
    cases hstep
    have hk := h.tidy.append (r := .other) rfl (fun _ => trivial) (append_appended s.wal _ fault)
    exact h.append hk (h.phase hk)
  | walSync n =>
    obtain ⟨hn,rfl⟩ := of_guard hstep
    exact h.next { h.tidy with } rfl hn.1 hn.2
      (h.checkpoint.mono h.synced_le List.prefix_rfl hn.1 le_rfl)
  | checkpointSample =>
    simp only [step] at hstep
    split at hstep <;> cases hstep
    obtain ⟨hm,hanch⟩ := h.at_phase ‹_›
    exact h.append (.refl h.tidy) ⟨hm,hanch,h.tidy.mentioned⟩
  | checkpointAbort =>
    cases hstep
    exact h.append (.refl h.tidy) trivial
  | checkpointBegin fault => exact h.checkpointBegin hstep
  | checkpointEnd fault => exact h.checkpointEnd hstep
  | checkpointEndFlush => exact h.checkpointEndFlush hstep
  | checkpointFreelist written => exact h.checkpointFreelist hstep
  | checkpointSuperblock written => exact h.checkpointSuperblock hstep
  | crash n readable => exact h.crash hstep

end Steps

def Fresh (s : Sys) : Prop := s = fresh

theorem fresh_fresh : Fresh fresh := rfl

theorem fresh_inv : Inv fresh := by
  refine ⟨⟨grounded_nil,⟨List.nodup_nil,nofun,nofun,le_rfl⟩,fun _ p hp => absurd rfl hp,?_,
    dvd_zero _⟩,le_rfl,le_rfl,fun p hp => absurd rfl hp,?_,le_rfl,nofun,trivial⟩
  · intro p hp hlt
    exact absurd hlt (not_lt.2 hp)
  · intro p hp hlt
    exact absurd hlt (not_lt.2 hp)

theorem reach_inv (h : Machine.Reach step Fresh anyStep s) : Inv s :=
  h.invariant (fun _ hs => hs ▸ fresh_inv) fun _ _ _ hi _ hstep => step_inv hi hstep

theorem last_split (p n : ℕ) (l : List Rec) :
    last p l = (last p (l.drop n)).or (last p (l.take n)) := by
  conv_lhs => rw [← List.take_append_drop n l]
  exact EventLog.last_append

theorem pageFree_mem {p : ℕ} {l : List Rec} (h : last p l = some true) : .pageFree p ∈ l := by
  obtain ⟨r,hr,he⟩ := EventLog.exists_of_last h
  cases r <;> cases he
  exact hr

/-- An allocation never returns a page whose last record is an allocation; the free that makes a
page available may still be volatile. -/
theorem alloc_page_not_in_use {s : Sys} (h : Machine.Reach step Fresh anyStep s) :
    s.allocator.freelist.Nodup ∧
      (∀ p ∈ s.allocator.freelist, 1 ≤ p ∧ p < s.allocator.nextPageId) ∧
      ∀ grow fault p, (allocPage grow fault s.allocator s.wal).1 = .ok p →
        last p s.wal.log ≠ some false ∧
          (last p (s.wal.log.take s.wal.synced) = some false →
            .pageFree p ∈ s.wal.log.drop s.wal.synced) := by
  have hi := reach_inv h
  refine ⟨hi.tidy.listed.nodup,hi.tidy.listed.range,fun grow fault p hp => ?_⟩
  have hlog := (allocPage_spec hi.tidy grow fault).2 p hp
  refine ⟨hlog,fun hdurable => pageFree_mem ?_⟩
  rw [last_split p s.wal.synced] at hlog
  cases hbehind : last p (s.wal.log.drop s.wal.synced) with
  | none => exact absurd (by rw [hbehind,hdurable]; rfl) hlog
  | some b =>
    cases b with
    | true => rfl
    | false => exact absurd (by rw [hbehind]; rfl) hlog

def freedInMemory : List Step := [.alloc none none,.walSync 1,.free 1 none]

theorem alloc_page_before_free_durable :
    ∃ s, Machine.Reach step Fresh anyStep s ∧
      last 1 (s.wal.log.take s.wal.synced) = some false ∧
      (allocPage none none s.allocator s.wal).1 = .ok 1 := by
  have hrun : ∃ s, Machine.Reach step Fresh anyStep s ∧
      decide (last 1 (s.wal.log.take s.wal.synced) = some false ∧
        (allocPage none none s.allocator s.wal).1.toOption = some 1) = true :=
    exists_reach fresh_fresh freedInMemory (by decide +kernel)
  obtain ⟨s,hs,hd⟩ := hrun
  obtain ⟨hlast,hok⟩ := of_decide_eq_true hd
  refine ⟨s,hs,hlast,?_⟩
  cases hres : (allocPage none none s.allocator s.wal).1 with
  | error e =>
    rw [hres] at hok
    cases hok
  | ok p =>
    rw [hres] at hok
    cases hok
    rfl

/-- Two pages, of which one is freed, a checkpoint and a crash. -/
def freedAndRecovered : List Step :=
  [.alloc none none,.alloc none none,.free 1 none,.checkpointBegin none,.checkpointSample,
    .checkpointEnd none,.walSync 5,.checkpointEndFlush,.checkpointFreelist true,
    .checkpointSuperblock true,.crash 5 true]

theorem alloc_page_not_in_use_recovered :
    ∃ s, Machine.Reach step Fresh anyStep s ∧ s.allocator.freelist = [1] ∧
      s.allocator.nextPageId = 3 ∧ s.allocator.freelist.Nodup ∧
      ∀ grow fault p, (allocPage grow fault s.allocator s.wal).1 = .ok p →
        last p s.wal.log ≠ some false := by
  have hrun : ∃ s, Machine.Reach step Fresh anyStep s ∧
      decide (s.allocator.freelist = [1] ∧ s.allocator.nextPageId = 3) = true :=
    exists_reach fresh_fresh freedAndRecovered (by decide +kernel)
  obtain ⟨s,hs,hd⟩ := hrun
  obtain ⟨hfree,hnext⟩ := of_decide_eq_true hd
  have hsafe := alloc_page_not_in_use hs
  exact ⟨s,hs,hfree,hnext,hsafe.1,fun grow fault p hp => (hsafe.2.2 grow fault p hp).1⟩

end PageAllocator
end PgAm
