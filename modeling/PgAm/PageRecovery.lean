import PgAm.Machine
import PgAm.PageAllocator

/-! The allocator over checkpoints and crashes. A checkpoint saves the freelist as of its begin
record, reads the next page later, and writes the superblock last; recovery starts from the saved
freelist if it belongs to the superblock's checkpoint. -/
namespace PgAm
namespace PageAllocator

structure Superblock where
  checkpointLsn : ℕ
  nextPageId : ℕ
  deriving DecidableEq

/-- Progress of `trigger_checkpoint` with the freelist it has taken. -/
inductive Checkpoint
  | idle
  | begun (snap : FreelistMeta)
  | sampled (snap : FreelistMeta) (nextPageId : ℕ)
  | endAppended (snap : FreelistMeta) (nextPageId endLsn : ℕ)
  | endFlushed (snap : FreelistMeta) (nextPageId : ℕ)
  | freelistWritten (snap : FreelistMeta) (nextPageId : ℕ)
  deriving DecidableEq

structure Sys where
  wal : Wal
  allocator : Allocator
  superblock : Superblock
  freelistMeta : Option FreelistMeta
  checkpoint : Checkpoint

/-- A crash finds the first `n` records; `readable`: the saved freelist passes its checksum. -/
inductive Step
  | alloc (grow : Option String) (fault : Option AppendFault)
  | free (pageId : ℕ) (fault : Option AppendFault)
  | log (fault : Option AppendFault)
  | walSync (n : ℕ)
  | checkpointBegin (fault : Option AppendFault)
  | checkpointSample
  | checkpointEnd (fault : Option AppendFault)
  | checkpointEndFlush
  | checkpointFreelist (written : Bool)
  | checkpointSuperblock (written : Bool)
  | checkpointAbort
  | crash (n : ℕ) (readable : Bool)

/-- The allocator as `recover_with_redo_handlers` rebuilds it. -/
def recover (readable : Bool) (log : List Rec) (fileLen : ℕ) (sb : Superblock)
    (saved : Option FreelistMeta) : Except StorageError Allocator := do
  let a ← openAt fileLen sb.nextPageId
  let a := match saved with
    | some m =>
      if readable ∧ m.checkpointLsn = sb.checkpointLsn then seedFreelist m.pageIds a else a
    | none => a
  return markRecoveryComplete ((log.drop (sb.checkpointLsn - 1)).foldl replayRecord a)

def step (s : Sys) : Step → Option Sys
  | .alloc grow fault =>
    let out := allocPage grow fault s.allocator s.wal
    some { s with allocator := out.2.1, wal := out.2.2 }
  | .free p fault =>
    let out := freePage fault p s.allocator s.wal
    some { s with allocator := out.2.1, wal := out.2.2 }
  | .log fault => some { s with wal := (s.wal.append .other fault).2 }
  | .walSync n =>
    if s.wal.synced ≤ n ∧ n ≤ s.wal.log.length then
      some { s with wal := { s.wal with synced := n } } else none
  | .checkpointBegin fault =>
    match s.checkpoint with
    | .idle =>
      match s.wal.append .checkpointBegin fault with
      | (.ok lsn,w) => some { s with wal := w, checkpoint := .begun (snapshot lsn s.allocator) }
      | (.error _,w) => some { s with wal := w }
    | _ => none
  | .checkpointSample =>
    match s.checkpoint with
    | .begun m => some { s with checkpoint := .sampled m s.allocator.nextPageId }
    | _ => none
  | .checkpointEnd fault =>
    match s.checkpoint with
    | .sampled m next =>
      match s.wal.append (.checkpointEnd m.checkpointLsn next) fault with
      | (.ok lsn,w) => some { s with wal := w, checkpoint := .endAppended m next lsn }
      | (.error _,w) => some { s with wal := w, checkpoint := .idle }
    | _ => none
  | .checkpointEndFlush =>
    match s.checkpoint with
    | .endAppended m next lsn =>
      if lsn ≤ s.wal.synced + 1 then some { s with checkpoint := .endFlushed m next } else none
    | _ => none
  | .checkpointFreelist written =>
    match s.checkpoint with
    | .endFlushed m next => some { s with
        freelistMeta := if written then some m else s.freelistMeta
        checkpoint := .freelistWritten m next }
    | _ => none
  | .checkpointSuperblock written =>
    match s.checkpoint with
    | .freelistWritten m next => some { s with
        superblock := if written then ⟨m.checkpointLsn,next⟩ else s.superblock
        checkpoint := .idle }
    | _ => none
  | .checkpointAbort => some { s with checkpoint := .idle }
  | .crash n readable =>
    if s.wal.synced ≤ n ∧ n ≤ s.wal.log.length then
      match recover readable (s.wal.log.take n) s.allocator.currentFileLen s.superblock
          s.freelistMeta with
      | .ok a => some ⟨⟨s.wal.log.take n,n,none⟩,a,s.superblock,s.freelistMeta,.idle⟩
      | .error _ => none
    else none

def fresh : Sys :=
  ⟨⟨[],0,none⟩,⟨0,PageId.first,[],false⟩,⟨Lsn.invalid,PageId.first⟩,none,.idle⟩

/-- Pages are taken in order, and only known pages are freed. -/
def Rooted (l : List Rec) : Rec → Prop
  | .pageAlloc p => 1 ≤ p ∧ ∀ q, 1 ≤ q → q < p → last q l ≠ none
  | .pageFree p => 1 ≤ p ∧ last p l ≠ none
  | _ => True

def Grounded (l : List Rec) : Prop := ∀ l₁ r l₂, l = l₁ ++ r :: l₂ → Rooted l₁ r

theorem grounded_nil : Grounded [] := by
  intro l₁ r l₂ h
  simp at h

variable {l : List Rec}

theorem Grounded.concat {r : Rec} (h : Grounded l) (hr : Rooted l r) : Grounded (l ++ [r]) := by
  intro l₁ x l₂ hl
  rcases List.eq_nil_or_concat l₂ with rfl | ⟨l₃,y,rfl⟩
  · obtain ⟨rfl,hx⟩ := List.append_inj' hl rfl
    cases hx
    exact hr
  · rw [List.concat_eq_append,← List.cons_append,← List.append_assoc] at hl
    obtain ⟨hl,-⟩ := List.append_inj' hl rfl
    exact h l₁ x l₃ hl

theorem Grounded.take (h : Grounded l) (n : ℕ) : Grounded (l.take n) := by
  intro l₁ r l₂ hl
  refine h l₁ r (l₂ ++ l.drop n) ?_
  rw [← List.cons_append,← List.append_assoc,← hl,List.take_append_drop]

/-- The freelist and the next page agree with the records. -/
structure Listed (log : List Rec) (a : Allocator) : Prop where
  nodup : a.freelist.Nodup
  range : ∀ p ∈ a.freelist, 1 ≤ p ∧ p < a.nextPageId
  free : ∀ p ∈ a.freelist, last p log = some true
  next_pos : 1 ≤ a.nextPageId

def Behind (log : List Rec) (next : ℕ) : Prop := ∀ p, last p log ≠ none → 1 ≤ p ∧ p < next

def Mentioned (log : List Rec) (next : ℕ) : Prop := ∀ p, 1 ≤ p → p < next → last p log ≠ none

theorem last_concat (p : ℕ) (l : List Rec) (r : Rec) :
    last p (l ++ [r]) = (EventLog.about event p r).or (last p l) := by
  rw [last,EventLog.last_append,EventLog.last_singleton]

theorem last_ne_none_of_append {p : ℕ} {l l' : List Rec} (h : last p l ≠ none) :
    last p (l ++ l') ≠ none := by
  rw [last,EventLog.last_append,ne_eq,Option.or_eq_none_iff]
  exact fun hn => h hn.2

theorem replayRecord_next (a : Allocator) (r : Rec) :
    (replayRecord a r).nextPageId = a.nextPageId ∧ (∀ p, r ≠ .pageAlloc p) ∨
      ∃ p, r = .pageAlloc p ∧ (replayRecord a r).nextPageId = max a.nextPageId (p + 1) := by
  cases r with
  | pageAlloc p => exact .inr ⟨p,rfl,applyPageAlloc_nextPageId p a⟩
  | pageFree p =>
    refine .inl ⟨?_,by rintro _ ⟨⟩⟩
    rw [replayRecord,applyPageFree]
    split <;> rfl
  | checkpointBegin | checkpointEnd | other => exact .inl ⟨rfl,by rintro _ ⟨⟩⟩

variable {a : Allocator}

theorem Listed.replayRecord {r : Rec} (h : Listed l a)
    (hb : Behind l a.nextPageId) (hr : Rooted l r) :
    Listed (l ++ [r]) (replayRecord a r) ∧ Behind (l ++ [r]) (replayRecord a r).nextPageId := by
  have hle : a.nextPageId ≤ (PageAllocator.replayRecord a r).nextPageId := by
    rcases replayRecord_next a r with ⟨he,-⟩ | ⟨p,-,he⟩
    · exact he.ge
    · exact he ▸ le_max_left _ _
  have hfree : ∀ p ∈ (PageAllocator.replayRecord a r).freelist, last p (l ++ [r]) = some true := by
    intro p hp
    rw [mem_replayRecord] at hp
    rw [last_concat]
    cases habout : EventLog.about event p r with
    | none =>
      rw [habout] at hp
      exact h.free p hp
    | some b =>
      rw [habout] at hp
      exact congrArg some hp
  have hbehind : Behind (l ++ [r]) (PageAllocator.replayRecord a r).nextPageId := by
    intro p hp
    by_cases hold : last p l = none
    · rw [last_concat,hold,Option.or_none] at hp
      cases r with
      | pageAlloc q =>
        rw [about_pageAlloc] at hp
        split at hp
        · rename_i heq
          subst heq
          refine ⟨hr.1,?_⟩
          rw [PageAllocator.replayRecord,applyPageAlloc_nextPageId]
          exact lt_max_of_lt_right (Nat.lt_succ_self p)
        · exact absurd rfl hp
      | pageFree q =>
        rw [about_pageFree] at hp
        split at hp
        · rename_i heq
          exact absurd (heq ▸ hold) hr.2
        · exact absurd rfl hp
      | checkpointBegin | checkpointEnd | other => exact absurd rfl hp
    · exact (hb p hold).imp id fun hlt => hlt.trans_le hle
  refine ⟨⟨?_,fun p hp => ?_,hfree,h.next_pos.trans hle⟩,hbehind⟩
  · cases r with
    | pageAlloc p =>
      rw [PageAllocator.replayRecord,applyPageAlloc_freelist]
      exact h.nodup.filter _
    | pageFree p =>
      rw [PageAllocator.replayRecord,applyPageFree]
      split
      · exact h.nodup
      · rename_i hp
        refine List.nodup_append.2 ⟨h.nodup,List.nodup_singleton p,fun x hx y hy hxy => hp ?_⟩
        rwa [← List.mem_singleton.1 hy,← hxy]
    | checkpointBegin | checkpointEnd | other => exact h.nodup
  · exact hbehind p (by rw [hfree p hp]; exact Option.some_ne_none _)

theorem Listed.replay {l l' : List Rec} (h : Listed l a)
    (hb : Behind l a.nextPageId) (hg : Grounded (l ++ l')) :
    Listed (l ++ l') (l'.foldl PageAllocator.replayRecord a) ∧
      Behind (l ++ l') (l'.foldl PageAllocator.replayRecord a).nextPageId := by
  induction l' generalizing l a with
  | nil =>
    rw [List.append_nil]
    exact ⟨h,hb⟩
  | cons r l' ih =>
    obtain ⟨h',hb'⟩ := h.replayRecord hb (hg l r l' rfl)
    rw [List.append_cons] at hg ⊢
    exact ih h' hb' hg

theorem replay_next (l : List Rec) (a : Allocator) :
    (l.foldl replayRecord a).nextPageId = a.nextPageId ∨
      ∃ p, .pageAlloc p ∈ l ∧ (l.foldl replayRecord a).nextPageId = p + 1 := by
  induction l generalizing a with
  | nil => exact .inl rfl
  | cons r l ih =>
    rcases ih (replayRecord a r) with he | ⟨p,hp,he⟩
    · rcases replayRecord_next a r with ⟨hr,-⟩ | ⟨p,rfl,hr⟩
      · exact .inl (he.trans hr)
      · rcases max_choice a.nextPageId (p + 1) with hm | hm
        · exact .inl (he.trans (hr.trans hm))
        · exact .inr ⟨p,List.mem_cons_self ..,he.trans (hr.trans hm)⟩
    · exact .inr ⟨p,List.mem_cons_of_mem _ hp,he⟩

theorem Grounded.mentioned (h : Grounded l) {p : ℕ} (hp : .pageAlloc p ∈ l) :
    Mentioned l (p + 1) := by
  intro q hq hlt
  obtain ⟨l₁,l₂,rfl⟩ := List.append_of_mem hp
  have hroot := h l₁ _ l₂ rfl
  rcases (Nat.lt_succ_iff.1 hlt).eq_or_lt with rfl | hlt
  · rw [List.append_cons]
    refine last_ne_none_of_append ?_
    rw [last_concat,about_pageAlloc,if_pos rfl]
    exact Option.some_ne_none _
  · exact last_ne_none_of_append (hroot.2 q hq hlt)

end PageAllocator
end PgAm
