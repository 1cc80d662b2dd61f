import PgAm.PageReuse

/-! Freed pages across recovery. While no call fails the freelist is the set of pages whose last
record is a free, and so is the saved freelist as of its begin record. A checkpoint replaces the
saved freelist before it moves the superblock; a crash between the two starts the replay from an
empty freelist at the old redo point. -/
namespace PgAm
namespace PageAllocator

/-- The pages whose last record is a free. -/
def Exact (log : List Rec) (pages : List ℕ) : Prop := ∀ p, p ∈ pages ↔ last p log = some true

/-- Every page that is free as of the redo point is in the loaded freelist, or has a later
record. -/
def SeedKnown (s : Sys) (n : ℕ) : Prop :=
  (∃ m ∈ s.freelistMeta, m.checkpointLsn = s.superblock.checkpointLsn) ∨
    ∀ p, last p (s.wal.log.take (s.superblock.checkpointLsn - 1)) = some true →
      last p ((s.wal.log.take n).drop (s.superblock.checkpointLsn - 1)) ≠ none

def Working : Sys → Step → Prop
  | _, .alloc grow fault => grow = none ∧ fault.isNone
  | _, .free _ fault | _, .log fault | _, .checkpointBegin fault | _, .checkpointEnd fault =>
    fault.isNone
  | _, .checkpointFreelist written | _, .checkpointSuperblock written => written = true
  | _, .crash _ readable => readable = true
  | _, _ => True

instance (s : Sys) (a : Step) : Decidable (Working s a) := by
  cases a <;> unfold Working <;> infer_instance

def Calm (s : Sys) (a : Step) : Prop :=
  Working s a ∧ ∀ n readable, a = .crash n readable → SeedKnown s n

def Checkpoint.snap : Checkpoint → Option FreelistMeta
  | .idle => none
  | .begun m | .sampled m _ | .endAppended m _ _ | .endFlushed m _ | .freelistWritten m _ => some m

variable {a : Allocator} {w : Wal}

theorem PhaseInv.snap_le {c : Checkpoint} (h : PhaseInv w a c)
    (hs : w.synced ≤ w.log.length) : ∀ m ∈ c.snap, m.checkpointLsn ≤ w.log.length := by
  intro m hm
  cases c with
  | idle => cases hm
  | begun k | sampled k next =>
    cases hm
    exact h.1
  | endAppended k next lsn =>
    cases hm
    exact h.1.le.trans h.2.1
  | endFlushed k next | freelistWritten k next =>
    cases hm
    exact h.1.trans hs

structure Complete (s : Sys) : Prop where
  inv : Inv s
  healthy : s.wal.lastError = none
  exact : Exact s.wal.log s.allocator.freelist
  saved : ∀ m ∈ s.freelistMeta, Exact (s.wal.log.take (m.checkpointLsn - 1)) m.pageIds
  snap : ∀ m ∈ s.checkpoint.snap, Exact (s.wal.log.take (m.checkpointLsn - 1)) m.pageIds

theorem Wal.append_none (hw : w.lastError = none) (r : Rec) :
    w.append r none = (.ok (w.log.length + 1),{ w with log := w.log ++ [r] }) := by
  rw [Wal.append,hw]

theorem allocPage_exact (h : Tidy w a) (hw : w.lastError = none) (he : Exact w.log a.freelist) :
    (allocPage none none a w).2.2.lastError = none ∧
      Exact (allocPage none none a w).2.2.log (allocPage none none a w).2.1.freelist := by
  unfold allocPage
  dsimp only
  split
  · exact ⟨hw,he⟩
  have hp := popPage_popped h
  generalize popPage a = out at hp
  obtain ⟨p,b⟩ := out
  obtain ⟨res,len,hcap,-,hres⟩ := ensureDataFileCapacity_eq none p b
  cases hres rfl
  dsimp only at hp hcap ⊢
  rw [hcap,Wal.append_none hw]
  refine ⟨hw,fun q => ?_⟩
  dsimp only
  rw [last_concat,about_pageAlloc]
  have hmem : q ∈ (if p = b.nextPageId then
      { b with currentFileLen := len, nextPageId := b.nextPageId + 1 } else
      { b with currentFileLen := len } : Allocator).freelist ↔ q ∈ a.freelist ∧ q ≠ p := by
    split <;> exact hp.mem q
  rw [hmem]
  split
  · rename_i heq
    exact iff_of_false (fun hq => hq.2 heq) nofun
  · rename_i hne
    rw [and_iff_left hne,he q,Option.none_or]

theorem freePage_exact (hw : w.lastError = none) (he : Exact w.log a.freelist) (p : ℕ) :
    (freePage none p a w).2.2.lastError = none ∧
      Exact (freePage none p a w).2.2.log (freePage none p a w).2.1.freelist := by
  unfold freePage
  split
  · exact ⟨hw,he⟩
  split
  · exact ⟨hw,he⟩
  split
  · exact ⟨hw,he⟩
  rw [Wal.append_none hw]
  refine ⟨hw,fun q => ?_⟩
  dsimp only
  rw [last_concat,about_pageFree,List.mem_append,List.mem_singleton]
  split
  · rename_i heq
    exact iff_of_true (.inr heq) rfl
  · rename_i hne
    rw [or_iff_left hne,he q,Option.none_or]

theorem Exact.log {l : List Rec} {pages : List ℕ} (h : Exact l pages) {r : Rec}
    (hr : event r = none) : Exact (l ++ [r]) pages := by
  intro p
  rw [last_concat,EventLog.about_eq_none (by simp [hr]),Option.none_or]
  exact h p

theorem Complete.append {s : Sys} (h : Complete s) {w : Wal} {a : Allocator} {c : Checkpoint}
    (hi : Inv { s with wal := w, allocator := a, checkpoint := c }) (hl : s.wal.log <+: w.log)
    (hw : w.lastError = none) (he : Exact w.log a.freelist)
    (hc : ∀ m ∈ c.snap, m ∈ s.checkpoint.snap ∨
      Exact (w.log.take (m.checkpointLsn - 1)) m.pageIds) :
    Complete { s with wal := w, allocator := a, checkpoint := c } := by
  have hkeep : ∀ m : FreelistMeta, m.checkpointLsn ≤ s.wal.log.length →
      Exact (s.wal.log.take (m.checkpointLsn - 1)) m.pageIds →
      Exact (w.log.take (m.checkpointLsn - 1)) m.pageIds := by
    intro m hm hex
    rwa [take_of_prefixed hl ((Nat.sub_le _ _).trans hm)]
  refine ⟨hi,hw,he,fun m hm => ?_,fun m hm => ?_⟩
  · exact hkeep m ((h.inv.saved m hm).1.trans h.inv.synced_le) (h.saved m hm)
  · rcases hc m hm with hold | hex
    · exact hkeep m (h.inv.checkpoint.snap_le h.inv.synced_le m hold) (h.snap m hold)
    · exact hex

def recovered (s : Sys) (n : ℕ) : Allocator :=
  markRecoveryComplete (((s.wal.log.take n).drop
  (s.superblock.checkpointLsn - 1)).foldl replayRecord
    (seeded true s.allocator.currentFileLen s.superblock s.freelistMeta))

variable {s : Sys}

theorem mem_recovered {n p : ℕ} : p ∈ (recovered s n).freelist ↔
    (last p ((s.wal.log.take n).drop (s.superblock.checkpointLsn - 1))).elim
      (∃ m ∈ s.freelistMeta, m.checkpointLsn = s.superblock.checkpointLsn ∧ p ∈ m.pageIds)
      (· = true) := by
  change p ∈ (List.foldl replayRecord _ _).freelist ↔ _
  rw [mem_replay,mem_seeded]
  simp

/-- Recovery finds all free pages exactly if it knows those of the redo point. -/
theorem recovered_exact_iff (h : Complete s) {n : ℕ} (hn : s.wal.synced ≤ n) :
    Exact (s.wal.log.take n) (recovered s n).freelist ↔ SeedKnown s n := by
  have hfront : (s.wal.log.take n).take (s.superblock.checkpointLsn - 1) =
      s.wal.log.take (s.superblock.checkpointLsn - 1) := by
    rw [List.take_take,min_eq_left ((Nat.sub_le _ _).trans (h.inv.redo_le.trans hn))]
  have hlast : ∀ p, last p (s.wal.log.take n) =
      (last p ((s.wal.log.take n).drop (s.superblock.checkpointLsn - 1))).or
        (last p (s.wal.log.take (s.superblock.checkpointLsn - 1))) := by
    intro p
    rw [last_split p (s.superblock.checkpointLsn - 1),hfront]
  constructor
  · intro he
    by_contra hno
    obtain ⟨hnone,hlost⟩ := not_or.1 hno
    push Not at hlost
    obtain ⟨p,hfree,hsilent⟩ := hlost
    have hp := (he p).2 (by rw [hlast,hsilent,hfree]; rfl)
    rw [mem_recovered,hsilent] at hp
    obtain ⟨m,hm,heq,-⟩ := hp
    exact hnone ⟨m,hm,heq⟩
  · intro hseed p
    rw [mem_recovered,hlast]
    cases hbehind : last p ((s.wal.log.take n).drop (s.superblock.checkpointLsn - 1)) with
    | some b => simp
    | none =>
      rw [Option.elim_none,Option.none_or]
      constructor
      · rintro ⟨m,hm,heq,hp⟩
        rw [← heq]
        exact (h.saved m hm p).1 hp
      · intro hfree
        rcases hseed with ⟨m,hm,heq⟩ | hknown
        · refine ⟨m,hm,heq,(h.saved m hm p).2 ?_⟩
          rwa [heq]
        · exact absurd hbehind (hknown p hfree)

theorem recover_recovered (h : Inv s) (n : ℕ) :
    recover true (s.wal.log.take n) s.allocator.currentFileLen s.superblock s.freelistMeta =
      .ok (recovered s n) :=
  recover_eq _ _ h.tidy.aligned _ _

theorem step_complete {s s' : Sys} {a : Step} (h : Complete s) (hok : Calm s a)
    (hstep : step s a = some s') : Complete s' := by
  have hi := step_inv h.inv hstep
  obtain ⟨hworks,hseed⟩ := hok
  have hsnap : ∀ {w : Wal}, ∀ m ∈ s.checkpoint.snap, m ∈ s.checkpoint.snap ∨
      Exact (w.log.take (m.checkpointLsn - 1)) m.pageIds := fun _ hm => .inl hm
  cases a with
  | alloc grow fault =>
    obtain ⟨rfl,hnone⟩ := hworks
    cases Option.isNone_iff_eq_none.1 hnone
    cases hstep
    obtain ⟨hw,he⟩ := allocPage_exact h.inv.tidy h.healthy h.exact
    exact h.append hi (allocPage_spec h.inv.tidy none none).1.log hw he hsnap
  | free p fault =>
    cases Option.isNone_iff_eq_none.1 hworks
    cases hstep
    obtain ⟨hw,he⟩ := freePage_exact h.healthy h.exact p
    exact h.append hi (freePage_spec h.inv.tidy none p).log hw he hsnap
  | log fault =>
    cases Option.isNone_iff_eq_none.1 hworks
    simp only [step,Wal.append_none h.healthy] at hstep
    cases hstep
    exact h.append hi (List.prefix_append _ _) h.healthy (h.exact.log rfl) hsnap
  | walSync n =>
    obtain ⟨-,rfl⟩ := of_guard hstep
    exact h.append hi List.prefix_rfl h.healthy h.exact hsnap
  | checkpointBegin fault =>
    cases Option.isNone_iff_eq_none.1 hworks
    simp only [step,Wal.append_none h.healthy] at hstep
    split at hstep <;> cases hstep
    refine h.append hi (List.prefix_append _ _) h.healthy (h.exact.log rfl) fun m hm => .inr ?_
    cases hm
    simpa [snapshot] using h.exact
  | checkpointSample =>
    simp only [step] at hstep
    split at hstep <;> cases hstep
    rename_i m hc
    exact h.append hi List.prefix_rfl h.healthy h.exact (by rw [hc]; exact fun _ hm => .inl hm)
  | checkpointEnd fault =>
    cases Option.isNone_iff_eq_none.1 hworks
    simp only [step,Wal.append_none h.healthy] at hstep
    split at hstep <;> cases hstep
    rename_i m next hc
    exact h.append hi (List.prefix_append _ _) h.healthy (h.exact.log rfl)
      (by rw [hc]; exact fun _ hm => .inl hm)
  | checkpointEndFlush =>
    simp only [step] at hstep
    split at hstep
    · rename_i m next lsn hc
      split at hstep <;> cases hstep
      exact h.append hi List.prefix_rfl h.healthy h.exact (by rw [hc]; exact fun _ hm => .inl hm)
    · cases hstep
  | checkpointFreelist written =>
    cases hworks
    simp only [step] at hstep
    split at hstep <;> cases hstep
    rename_i m next hc
    have hm := h.snap
    rw [hc] at hm
    refine ⟨hi,h.healthy,h.exact,fun k hk => ?_,hm⟩
    cases hk
    exact hm m rfl
  | checkpointSuperblock written =>
    cases hworks
    simp only [step] at hstep
    split at hstep <;> cases hstep
    exact ⟨hi,h.healthy,h.exact,h.saved,by rintro _ ⟨⟩⟩
  | checkpointAbort =>
    cases hstep
    exact h.append hi List.prefix_rfl h.healthy h.exact (by rintro _ ⟨⟩)
  | crash n readable =>
    cases hworks
    simp only [step] at hstep
    split at hstep
    · rename_i hn
      rw [recover_recovered h.inv] at hstep
      cases hstep
      refine ⟨hi,rfl,(recovered_exact_iff h hn.1).2 (hseed n true rfl),fun m hm => ?_,
        by rintro _ ⟨⟩⟩
      have hle := (Nat.sub_le _ 1).trans ((h.inv.saved m hm).1.trans hn.1)
      change Exact ((s.wal.log.take n).take _) _
      rw [List.take_take,min_eq_left hle]
      exact h.saved m hm
    · cases hstep

theorem fresh_complete : Complete fresh :=
  ⟨fresh_inv,rfl,fun _ => iff_of_false nofun nofun,nofun,nofun⟩

theorem reach_complete (h : Machine.Reach step Fresh Calm s) : Complete s :=
  h.invariant (fun _ hs => hs ▸ fresh_complete) fun _ _ _ hc hok hstep => step_complete hc hok hstep

/-- The freelist stays exact as long as crashes know the free pages of the redo point, and a crash
that does not know them loses pages. -/
theorem freed_pages_recovered_iff {s : Sys} (h : Machine.Reach step Fresh Calm s) :
    Exact s.wal.log s.allocator.freelist ∧
      ∀ n, s.wal.synced ≤ n → n ≤ s.wal.log.length →
        ∃ a, recover true (s.wal.log.take n) s.allocator.currentFileLen s.superblock
            s.freelistMeta = .ok a ∧
          (Exact (s.wal.log.take n) a.freelist ↔ SeedKnown s n) := by
  have hc := reach_complete h
  exact ⟨hc.exact,fun n hn _ => ⟨recovered s n,recover_recovered hc.inv n,
    recovered_exact_iff hc hn⟩⟩

/-- A page is taken and freed, and a checkpoint saves the freelist. -/
def savedFree : List Step :=
  [.alloc none none,.free 1 none,.checkpointBegin none,.checkpointSample,.checkpointEnd none,
    .walSync 4,.checkpointEndFlush,.checkpointFreelist true,.checkpointSuperblock true]

def savedAgain : List Step :=
  savedFree ++ [.checkpointBegin none,.checkpointSample,.checkpointEnd none,.walSync 6,
    .checkpointEndFlush,.checkpointFreelist true,.crash 6 true]

/-- The freed page is on no list after the crash. -/
theorem freed_page_lost : ∃ s, Machine.Reach step Fresh Working s ∧
    last 1 s.wal.log = some true ∧ 1 ∉ s.allocator.freelist := by
  have hrun : ∃ s, Machine.Reach step Fresh Working s ∧
      decide (last 1 s.wal.log = some true ∧ 1 ∉ s.allocator.freelist) = true :=
    Machine.exists_reach fresh_fresh savedAgain (by decide +kernel)
  obtain ⟨s,hs,hd⟩ := hrun
  exact ⟨s,hs,of_decide_eq_true hd⟩

def Step.isCrash : Step → Bool
  | .crash .. => true
  | _ => false

def Up (s : Sys) (a : Step) : Prop := Working s a ∧ a.isCrash = false

instance (s : Sys) (a : Step) : Decidable (Up s a) := inferInstanceAs (Decidable (_ ∧ _))

theorem calm_of_up {a : Step} (h : Up s a) : Calm s a := by
  refine ⟨h.1,fun n readable ha => ?_⟩
  subst ha
  exact Bool.noConfusion h.2

theorem freed_pages_recovered_one : ∃ s, Machine.Reach step Fresh Calm s ∧
    ∃ a, recover true (s.wal.log.take 4) s.allocator.currentFileLen s.superblock s.freelistMeta =
        .ok a ∧ Exact (s.wal.log.take 4) a.freelist ∧ last 1 (s.wal.log.take 4) = some true := by
  have hrun : ∃ s, Machine.Reach step Fresh Up s ∧
      decide (s.wal.synced = 4 ∧ s.wal.log.length = 4 ∧ last 1 s.wal.log = some true ∧
        s.freelistMeta = some ⟨3,[1]⟩ ∧ s.superblock.checkpointLsn = 3) = true :=
    Machine.exists_reach fresh_fresh savedFree (by decide +kernel)
  obtain ⟨s,hs,hd⟩ := hrun
  obtain ⟨hsync,hlen,hlast,hmeta,hsb⟩ := of_decide_eq_true hd
  have hcalm := hs.mono fun _ _ => calm_of_up
  obtain ⟨a,ha,hiff⟩ := (freed_pages_recovered_iff hcalm).2 4 hsync.le hlen.ge
  refine ⟨s,hcalm,a,ha,hiff.2 (.inl ⟨_,hmeta,hsb.symm⟩),?_⟩
  rwa [← hlen,List.take_length]

end PageAllocator
end PgAm
