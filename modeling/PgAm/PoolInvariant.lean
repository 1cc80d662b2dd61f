import PgAm.BufferPool
import PgAm.Threads

/-! No page write of the pool is lost or misdirected as long as eviction does not take a
frame whose flush is in flight. Every step is described by what the moving thread may
change; the facts of the other threads follow from the locks it holds. -/
namespace PgAm
namespace BufferPool

open Threads Machine Function

variable {C : Type} {n : ℕ} {fmt : PageFormat C} {frameCount : ℕ}

namespace Pc

def pinned : Pc → Option (ℕ × ℕ)
  | .markNew p f | .latch _ p f | .markDirty _ p f | .fpiCheck p f | .fpiGate p f _
  | .fpiAppend p f | .fpiMeta p f _ | .reading p f | .writing p f | .dropMut p f _ _
  | .unpin p f _ => some (p,f)
  | _ => none

def pinsOn (pc : Pc) (f : ℕ) : ℕ :=
  match pc with
  | .insert _ _ g => if g = f then 1 else 0
  | _ => if pc.pinned.map Prod.snd = some f then 1 else 0

def inFlight : Pc → Option (ℕ × ℕ)
  | .flushing _ f page _ _ => some (f,page)
  | _ => none

/-- The thread has claimed the frame and not written it yet, or will restore the dirty flag. -/
def preWrite : Pc → Option ℕ
  | .flushing _ f _ _ .latch | .flushing _ f _ _ (.wal _) | .flushing _ f _ _ .write
  | .flushing _ f _ _ (.failed ..) => some f
  | _ => none

/-- The thread may have changed the frame and will still mark it dirty. -/
def unsaved : Pc → Option ℕ
  | .markNew _ f | .fpiCheck _ f | .fpiGate _ f _ | .fpiAppend _ f | .fpiMeta _ f _
  | .writing _ f | .dropMut _ f _ _ => some f
  | _ => none

/-- The frame has a page but no mapping: the thread is about to reset or to map it. -/
def homeless : Pc → Option ℕ
  | .reset _ _ f | .insert _ _ f => some f
  | _ => none

end Pc

structure Victim (s : Shared C) (f : ℕ) : Prop where
  evicting : (s.frameMeta f).evicting = true
  pinCount : (s.frameMeta f).pinCount = 0

structure Settled (s : Shared C) (f : ℕ) : Prop where
  dirty : (s.frameMeta f).dirty = false
  flushing : (s.frameMeta f).flushing = false

def Unmapped (s : Shared C) (f : ℕ) : Prop := ∀ q, s.pageTable q ≠ some f

structure Wanted (s : Shared C) (p : ℕ) : Prop where
  valid : p ≠ PageId.invalid
  missing : s.pageTable p = none

/-- What is known while a thread stands at a program counter. -/
def PcInv (s : Shared C) : Pc → Prop
  | .allocWait _ p | .resident _ p | .absent _ p => p ≠ PageId.invalid
  | .scan _ p _ | .probe _ p _ _ => Wanted s p
  | .flushClaim (.evict _ p old) f => Wanted s p ∧ Victim s f ∧ s.pageTable old = some f
  | .flushing .call f page _ _ => (s.frameMeta f).flushing = true ∧ s.pageTable page = some f
  | .flushing (.evict _ p old) f page _ _ =>
    ((s.frameMeta f).flushing = true ∧ s.pageTable page = some f) ∧ Wanted s p ∧ Victim s f ∧
      page = old ∧ (s.frameMeta f).dirty = false
  | .unmap _ p f old => Wanted s p ∧ Victim s f ∧ Settled s f ∧ (s.frameMeta f).pageId = old ∧
      (old ≠ PageId.invalid → s.pageTable old = some f ∧ s.content f = s.onDisk old)
  | .reset _ p f => Wanted s p ∧ Victim s f ∧ Settled s f ∧ Unmapped s f
  | .fill _ p f | .load _ p f => Wanted s p ∧ s.frameMeta f = FrameMeta.default ∧ Unmapped s f
  | .sample a p f | .install a p f _ => Wanted s p ∧ s.frameMeta f = FrameMeta.default ∧
      Unmapped s f ∧ (a = .newPage ∨ s.content f = s.onDisk p)
  | .insert a p f => Wanted s p ∧ (s.frameMeta f).pageId = p ∧ Settled s f ∧ Unmapped s f ∧
      (a = .newPage ∨ s.content f = s.onDisk p)
  | .markNew p f | .latch _ p f | .markDirty _ p f | .fpiCheck p f | .fpiGate p f _
  | .fpiAppend p f | .fpiMeta p f _ | .reading p f | .writing p f | .dropMut p f _ _
  | .unpin p f _ => s.pageTable p = some f
  | .idle | .returned _ | .flushClaim .call _ | .evictFailed .. => True

structure Inv (s : Pool C n) : Prop where
  alloc : Exclusive (fun pc => pc.allocating = true) s.threads
  writer : ∀ f, Exclusive (fun pc => pc.writes = some f) s.threads
  reader : ∀ f, Apart (fun pc => pc.writes = some f) (fun pc => pc.reads = some f) s.threads
  claimed : ∀ f, Exclusive (fun pc => pc.inFlight.map Prod.fst = some f) s.threads
  pins : ∀ f, (s.frameMeta f).pinCount = ∑ t, (s.threads t).pinsOn f
  table : ∀ p f, s.pageTable p = some f → (s.frameMeta f).pageId = p ∧ p ≠ PageId.invalid
  home : ∀ f, (s.frameMeta f).pageId ≠ PageId.invalid →
    s.pageTable (s.frameMeta f).pageId = some f ∨ ∃ t, (s.threads t).homeless = some f
  empty : ∀ f, (s.frameMeta f).dirty = true → (s.frameMeta f).pageId ≠ PageId.invalid
  content : ∀ p f, s.pageTable p = some f → s.content f = s.onDisk p ∨
    (s.frameMeta f).dirty = true ∨ (∃ t, (s.threads t).unsaved = some f) ∨
    ∃ t, (s.threads t).preWrite = some f
  pc : ∀ t, PcInv s.toShared (s.threads t)

/-- What a step of the thread at `pc` may change, as the other threads see it. -/
structure Effect (s s' : Shared C) (pc : Pc) : Prop where
  mapped : ∀ p f, s.pageTable p = some f → s'.pageTable p = some f ∨ ∃ a q, pc = .unmap a q f p
  inserted : ∀ p f, s'.pageTable p = some f → s.pageTable p = some f ∨ ∃ a, pc = .insert a p f
  evicting : ∀ f, (s.frameMeta f).evicting = true →
    (s'.frameMeta f).evicting = true ∨ pc.allocating = true
  pinCount : ∀ f, (s.frameMeta f).evicting = true → (s.frameMeta f).pinCount = 0 →
    (s'.frameMeta f).pinCount = 0 ∨ pc.allocating = true
  clean : ∀ f, (s.frameMeta f).dirty = false → (s'.frameMeta f).dirty = false ∨
    pc.pinned.map Prod.snd = some f ∨ pc.inFlight.map Prod.fst = some f
  unclaimed : ∀ f, (s.frameMeta f).flushing = false → (s'.frameMeta f).flushing = false ∨
    (s.frameMeta f).dirty = true
  claimed : ∀ f, (s.frameMeta f).flushing = true → (s'.frameMeta f).flushing = true ∨
    pc.inFlight.map Prod.fst = some f ∨ ∃ a p, pc = .reset a p f
  pageId : ∀ f, (s'.frameMeta f).pageId = (s.frameMeta f).pageId ∨
    (pc.allocating = true ∧ Unmapped s f)
  unused : ∀ f, s.frameMeta f = FrameMeta.default → Unmapped s f →
    s'.frameMeta f = FrameMeta.default ∨ pc.allocating = true
  content : ∀ f, s'.content f = s.content f ∨ pc.writes = some f ∨
    (pc.allocating = true ∧ Unmapped s f)
  onDisk : ∀ p, s'.onDisk p = s.onDisk p ∨ ∃ f, pc.inFlight = some (f,p)

variable {pc : Pc} {f : ℕ}

theorem Pc.pinned_of_writes (h : pc.writes = some f) : ∃ p, pc.pinned = some (p,f) := by
  cases pc <;> simp_all [Pc.writes,Pc.pinned]

theorem Pc.pinned_of_map (h : pc.pinned.map Prod.snd = some f) : ∃ p, pc.pinned = some (p,f) := by
  obtain ⟨⟨p,g⟩,hp,rfl⟩ := Option.map_eq_some_iff.1 h
  exact ⟨p,hp⟩

theorem Pc.inFlight_of_map (h : pc.inFlight.map Prod.fst = some f) :
    ∃ p, pc.inFlight = some (f,p) := by
  obtain ⟨⟨g,p⟩,hp,rfl⟩ := Option.map_eq_some_iff.1 h
  exact ⟨p,hp⟩

theorem Pc.pinsOn_of_pinned {p f : ℕ} (h : pc.pinned = some (p,f)) : pc.pinsOn f = 1 := by
  cases pc <;> simp_all [Pc.pinned,Pc.pinsOn]

namespace Effect

variable {s s' : Shared C} {pc : Pc} {p f : ℕ}

theorem keep_wanted (he : Effect s s' pc) (ht : pc.allocating = false) (hw : Wanted s p) :
    Wanted s' p := by
  refine ⟨hw.valid,?_⟩
  cases hm : s'.pageTable p with
  | none => rfl
  | some f =>
    rcases he.inserted p f hm with hm' | ⟨a,rfl⟩
    · rw [hw.missing] at hm'
      cases hm'
    · cases ht

theorem keep_unmapped (he : Effect s s' pc) (ht : pc.allocating = false) (hu : Unmapped s f) :
    Unmapped s' f := by
  intro q hq
  rcases he.inserted q f hq with hq' | ⟨a,rfl⟩
  · exact hu q hq'
  · cases ht

theorem keep_mapped (he : Effect s s' pc) (ht : pc.allocating = false)
    (hm : s.pageTable p = some f) : s'.pageTable p = some f := by
  rcases he.mapped p f hm with hm' | ⟨a,q,rfl⟩
  · exact hm'
  · cases ht

theorem keep_victim (he : Effect s s' pc) (ht : pc.allocating = false) (hv : Victim s f) :
    Victim s' f := by
  have hno : ¬pc.allocating = true := by simp [ht]
  exact ⟨(he.evicting f hv.evicting).resolve_right hno,
    (he.pinCount f hv.evicting hv.pinCount).resolve_right hno⟩

theorem keep_clean (he : Effect s s' pc) (hd : (s.frameMeta f).dirty = false)
    (hpin : ∀ q, pc.pinned ≠ some (q,f)) (hfl : ∀ q, pc.inFlight ≠ some (f,q)) :
    (s'.frameMeta f).dirty = false := by
  rcases he.clean f hd with hd' | hd' | hd'
  · exact hd'
  · obtain ⟨q,hq⟩ := Pc.pinned_of_map hd'
    exact absurd hq (hpin q)
  · obtain ⟨q,hq⟩ := Pc.inFlight_of_map hd'
    exact absurd hq (hfl q)

theorem keep_pageId (he : Effect s s' pc) (ht : pc.allocating = false) :
    (s'.frameMeta f).pageId = (s.frameMeta f).pageId :=
  (he.pageId f).resolve_right fun hn => by simp [ht] at hn

theorem keep_unused (he : Effect s s' pc) (ht : pc.allocating = false)
    (hm : s.frameMeta f = FrameMeta.default) (hu : Unmapped s f) :
    s'.frameMeta f = FrameMeta.default :=
  (he.unused f hm hu).resolve_right fun hn => by simp [ht] at hn

theorem keep_content (he : Effect s s' pc) (ht : pc.allocating = false)
    (hpin : ∀ q, pc.pinned ≠ some (q,f)) : s'.content f = s.content f := by
  rcases he.content f with hc | hc | ⟨hc,-⟩
  · exact hc
  · obtain ⟨q,hq⟩ := Pc.pinned_of_writes hc
    exact absurd hq (hpin q)
  · rw [ht] at hc
    cases hc

end Effect

section Keep

variable {s : Pool C n} {t u : Fin n} {s' : Shared C} {p f : ℕ}

theorem Inv.mapped_of_pinned (h : Inv s) (hp : (s.threads u).pinned = some (p,f)) :
    s.pageTable p = some f := by
  have hpc := h.pc u
  cases hu : s.threads u <;> rw [hu] at hp hpc <;> simp [Pc.pinned] at hp <;>
    (obtain ⟨rfl,rfl⟩ := hp; exact hpc)

theorem Inv.claim_of_inFlight (h : Inv s) (hp : (s.threads u).inFlight = some (f,p)) :
    (s.frameMeta f).flushing = true ∧ s.pageTable p = some f := by
  have hpc := h.pc u
  cases hu : s.threads u <;> rw [hu] at hp hpc <;> simp [Pc.inFlight] at hp
  case flushing o g page saved st =>
    obtain ⟨rfl,rfl⟩ := hp
    cases o with
    | call => exact hpc
    | evict a q old => exact hpc.1

theorem Inv.pinCount_pos (h : Inv s) (hp : (s.threads u).pinned = some (p,f)) :
    0 < (s.frameMeta f).pinCount := by
  rw [h.pins f]
  have hle := Finset.single_le_sum (f := fun v => (s.threads v).pinsOn f)
    (fun _ _ => Nat.zero_le _) (Finset.mem_univ u)
  rw [Pc.pinsOn_of_pinned hp] at hle
  exact hle

/-- A victim is pinned by nobody, so nobody has it latched for writing either. -/
theorem Inv.victim_not_pinned (h : Inv s) (hv : Victim s.toShared f) :
    (s.threads u).pinned ≠ some (p,f) := fun hp => by
  have hpos := h.pinCount_pos hp
  rw [hv.pinCount] at hpos
  exact lt_irrefl 0 hpos

theorem Inv.keep_pinned (h : Inv s) (he : Effect s.toShared s' (s.threads t))
    (hp : (s.threads u).pinned = some (p,f)) : s'.pageTable p = some f := by
  rcases he.mapped p f (h.mapped_of_pinned hp) with hm | ⟨a,q,ht⟩
  · exact hm
  · have hpc := h.pc t
    rw [ht] at hpc
    exact absurd hp (h.victim_not_pinned hpc.2.1)

theorem Inv.keep_inFlight (h : Inv s) (hut : u ≠ t) (he : Effect s.toShared s' (s.threads t))
    (hp : (s.threads u).inFlight = some (f,p)) :
    (s'.frameMeta f).flushing = true ∧ s'.pageTable p = some f := by
  obtain ⟨hf,hm⟩ := h.claim_of_inFlight hp
  have hpc := h.pc t
  refine ⟨?_,?_⟩
  · rcases he.claimed f hf with hf' | hf' | ⟨a,q,ht⟩
    · exact hf'
    · exact absurd (h.claimed f u t (by simp [hp]) hf') hut
    · rw [ht] at hpc
      exact absurd hf (by simp [hpc.2.2.1.flushing])
  · rcases he.mapped p f hm with hm' | ⟨a,q,ht⟩
    · exact hm'
    · rw [ht] at hpc
      exact absurd hf (by simp [hpc.2.2.1.flushing])

theorem Inv.keep_settled (h : Inv s) (he : Effect s.toShared s' (s.threads t))
    (hs : Settled s.toShared f) (hpin : ∀ q, (s.threads t).pinned ≠ some (q,f)) :
    Settled s' f := by
  refine ⟨he.keep_clean hs.dirty hpin fun q hq => ?_,?_⟩
  · have hf := (h.claim_of_inFlight hq).1
    rw [hs.flushing] at hf
    cases hf
  · rcases he.unclaimed f hs.flushing with hf | hf
    · exact hf
    · rw [hs.dirty] at hf
      cases hf

theorem Inv.keep_onDisk (h : Inv s) (he : Effect s.toShared s' (s.threads t))
    (hfl : ∀ f, s.pageTable p = some f → (s.frameMeta f).flushing = false) :
    s'.onDisk p = s.onDisk p := by
  rcases he.onDisk p with hd | ⟨f,hd⟩
  · exact hd
  · obtain ⟨hf,hm⟩ := h.claim_of_inFlight hd
    rw [hfl f hm] at hf
    cases hf

theorem Inv.keep_loaded (h : Inv s) (he : Effect s.toShared s' (s.threads t))
    (ht : (s.threads t).allocating = false) (hw : Wanted s.toShared p)
    (hun : Unmapped s.toShared f) (hc : s.content f = s.onDisk p) : s'.content f = s'.onDisk p := by
  rw [he.keep_content ht fun q hq => hun q (h.mapped_of_pinned hq),hc]
  refine (h.keep_onDisk he fun g hg => ?_).symm
  rw [hw.missing] at hg
  cases hg

/-- Another thread's step keeps what is known of this one. -/
theorem Inv.keep_pc (h : Inv s) (hut : u ≠ t) (he : Effect s.toShared s' (s.threads t)) :
    PcInv s' (s.threads u) := by
  have hpc := h.pc u
  have hpinned := @Inv.keep_pinned _ _ s t u s'
  have hflight := @Inv.keep_inFlight _ _ s t u s'
  have halloc : (s.threads u).allocating = true → (s.threads t).allocating = false := fun hu => by
    by_contra hne
    exact hut (h.alloc u t hu (by simpa using hne))
  cases hu : s.threads u <;> rw [hu] at hpc hpinned hflight halloc
  case idle | returned | evictFailed => trivial
  case allocWait | resident | absent => exact hpc
  case scan | probe => exact he.keep_wanted (halloc rfl) hpc
  case markNew | latch | markDirty | fpiCheck | fpiGate | fpiAppend | fpiMeta | reading | writing |
      dropMut | unpin => exact hpinned h he rfl
  case flushClaim o f =>
    cases o with
    | call => trivial
    | evict a p old =>
      have ht := halloc rfl
      exact ⟨he.keep_wanted ht hpc.1,he.keep_victim ht hpc.2.1,he.keep_mapped ht hpc.2.2⟩
  case flushing o f page saved st =>
    have hfl := hflight h hut he rfl
    cases o with
    | call => exact hfl
    | evict a p old =>
      obtain ⟨-,hw,hv,hold,hd⟩ := hpc
      have ht := halloc rfl
      refine ⟨hfl,he.keep_wanted ht hw,he.keep_victim ht hv,hold,
        he.keep_clean hd (fun q => h.victim_not_pinned hv) fun q hq => ?_⟩
      exact hut (h.claimed f u t (by simp [hu,Pc.inFlight]) (by simp [hq]))
  case unmap a p f old =>
    obtain ⟨hw,hv,hs,hold,hdisk⟩ := hpc
    have ht := halloc rfl
    have hnp : ∀ q, (s.threads t).pinned ≠ some (q,f) := fun q => h.victim_not_pinned hv
    refine ⟨he.keep_wanted ht hw,he.keep_victim ht hv,h.keep_settled he hs hnp,
      (he.keep_pageId ht).trans hold,fun h0 => ?_⟩
    obtain ⟨hm,hc⟩ := hdisk h0
    refine ⟨he.keep_mapped ht hm,?_⟩
    rw [he.keep_content ht hnp,hc]
    refine (h.keep_onDisk he fun g hg => ?_).symm
    rw [hm,Option.some.injEq] at hg
    exact hg ▸ hs.flushing
  case reset a p f =>
    obtain ⟨hw,hv,hs,hun⟩ := hpc
    have ht := halloc rfl
    exact ⟨he.keep_wanted ht hw,he.keep_victim ht hv,
      h.keep_settled he hs fun q => h.victim_not_pinned hv,he.keep_unmapped ht hun⟩
  case fill a p f | load a p f =>
    obtain ⟨hw,hm,hun⟩ := hpc
    have ht := halloc rfl
    exact ⟨he.keep_wanted ht hw,he.keep_unused ht hm hun,he.keep_unmapped ht hun⟩
  case sample a p f | install a p f lsn =>
    obtain ⟨hw,hm,hun,hc⟩ := hpc
    have ht := halloc rfl
    exact ⟨he.keep_wanted ht hw,he.keep_unused ht hm hun,he.keep_unmapped ht hun,
      hc.imp id (h.keep_loaded he ht hw hun)⟩
  case insert a p f =>
    obtain ⟨hw,hid,hs,hun,hc⟩ := hpc
    have ht := halloc rfl
    exact ⟨he.keep_wanted ht hw,(he.keep_pageId ht).trans hid,
      h.keep_settled he hs fun q hq => hun q (h.mapped_of_pinned hq),he.keep_unmapped ht hun,
      hc.imp id (h.keep_loaded he ht hw hun)⟩

end Keep

/-- What a step of thread `t` to the state and program counter `r` has to satisfy. -/
structure Move (s : Pool C n) (t : Fin n) (r : Shared C × Pc) : Prop where
  effect : Effect s.toShared r.1 (s.threads t)
  pc : PcInv r.1 r.2
  alloc : r.2.allocating = true →
    (s.threads t).allocating = true ∨ ∀ u, ¬(s.threads u).allocating = true
  writes : ∀ f, r.2.writes = some f → (s.threads t).writes = some f ∨
    ∀ u, (s.threads u).writes ≠ some f ∧ (s.threads u).reads ≠ some f
  reads : ∀ f, r.2.reads = some f → (s.threads t).reads = some f ∨
    ∀ u, (s.threads u).writes ≠ some f
  claim : ∀ f, r.2.inFlight.map Prod.fst = some f →
    (s.threads t).inFlight.map Prod.fst = some f ∨ (s.frameMeta f).flushing = false
  pins : ∀ f, (r.1.frameMeta f).pinCount + (s.threads t).pinsOn f =
    (s.frameMeta f).pinCount + r.2.pinsOn f
  table : ∀ p f, r.1.pageTable p = some f → s.pageTable p = some f ∨
    (((r.1.frameMeta f).pageId = p ∧ p ≠ PageId.invalid) ∧
      (r.1.content f = r.1.onDisk p ∨ r.2.unsaved = some f))
  unmapped : ∀ a q f p, s.threads t = .unmap a q f p → r.2.homeless = some f
  housed : ∀ f, (s.threads t).homeless = some f → r.2.homeless = some f ∨
    (r.1.frameMeta f).pageId = PageId.invalid ∨
    r.1.pageTable (r.1.frameMeta f).pageId = some f
  renamed : ∀ f, (r.1.frameMeta f).pageId = (s.frameMeta f).pageId ∨
    (r.1.frameMeta f).pageId = PageId.invalid ∨ r.2.homeless = some f
  dirty : ∀ f, ¬Unmapped s.toShared f → (s.frameMeta f).dirty = true →
    (r.1.frameMeta f).dirty = true ∨ r.2.preWrite = some f
  written : ∀ f, (s.threads t).writes = some f →
    r.1.content f = s.content f ∨ r.2.unsaved = some f
  flushed : ∀ f p, (s.threads t).inFlight = some (f,p) →
    r.1.onDisk p = s.onDisk p ∨ r.1.onDisk p = r.1.content f
  unsaved : ∀ f, (s.threads t).unsaved = some f →
    r.2.unsaved = some f ∨ (r.1.frameMeta f).dirty = true
  preWrite : ∀ f p, (s.threads t).preWrite = some f → (s.threads t).inFlight = some (f,p) →
    r.2.preWrite = some f ∨ (r.1.frameMeta f).dirty = true ∨ r.1.content f = r.1.onDisk p

theorem Pc.not_reads_of_writes (h : pc.writes = some f) : pc.reads ≠ some f := by
  cases pc <;> simp_all [Pc.writes,Pc.reads]

theorem Pc.inFlight_of_preWrite (h : pc.preWrite = some f) : ∃ p, pc.inFlight = some (f,p) := by
  cases pc <;> simp_all [Pc.preWrite,Pc.inFlight]
  case flushing o g page saved st =>
    cases st <;> simp_all

section Move

variable {s : Pool C n} {t : Fin n} {r : Shared C × Pc}

theorem Inv.page_unique (h : Inv s) {p q f : ℕ} (hp : s.pageTable p = some f)
    (hq : s.pageTable q = some f) : p = q :=
  (h.table p f hp).1.symm.trans (h.table q f hq).1

theorem Inv.mapped_of_dirty (h : Inv s) {f : ℕ} (hd : (s.frameMeta f).dirty = true) :
    s.pageTable (s.frameMeta f).pageId = some f := by
  rcases h.home f (h.empty f hd) with hm | ⟨u,hu⟩
  · exact hm
  · have hpc := h.pc u
    cases hth : s.threads u <;> rw [hth] at hu hpc <;> simp [Pc.homeless] at hu <;> subst hu
    case reset =>
      rw [hpc.2.2.1.dirty] at hd
      cases hd
    case insert =>
      rw [hpc.2.2.1.dirty] at hd
      cases hd

theorem Inv.move_empty (h : Inv s) (hm : Move s t r) (f : ℕ)
    (hd : (r.1.frameMeta f).dirty = true) : (r.1.frameMeta f).pageId ≠ PageId.invalid := by
  have hmapped : ∃ p, s.pageTable p = some f := by
    cases hold : (s.frameMeta f).dirty with
    | true => exact ⟨_,h.mapped_of_dirty hold⟩
    | false =>
      rcases hm.effect.clean f hold with hd' | hp | hp
      · rw [hd] at hd'
        cases hd'
      · obtain ⟨p,hp⟩ := Pc.pinned_of_map hp
        exact ⟨p,h.mapped_of_pinned hp⟩
      · obtain ⟨p,hp⟩ := Pc.inFlight_of_map hp
        exact ⟨p,(h.claim_of_inFlight hp).2⟩
  obtain ⟨p,hp⟩ := hmapped
  rcases hm.effect.pageId f with hid | ⟨-,hun⟩
  · rw [hid,(h.table p f hp).1]
    exact (h.table p f hp).2
  · exact absurd hp (hun p)

theorem Inv.move_table (h : Inv s) (hm : Move s t r) (p f : ℕ) (hp : r.1.pageTable p = some f) :
    (r.1.frameMeta f).pageId = p ∧ p ≠ PageId.invalid := by
  rcases hm.table p f hp with hp' | ⟨hid,-⟩
  · rcases hm.effect.pageId f with hid | ⟨-,hun⟩
    · exact ⟨hid.trans (h.table p f hp').1,(h.table p f hp').2⟩
    · exact absurd hp' (hun p)
  · exact hid

theorem Inv.move_home (h : Inv s) (hm : Move s t r) (f : ℕ)
    (hf : (r.1.frameMeta f).pageId ≠ PageId.invalid) :
    r.1.pageTable (r.1.frameMeta f).pageId = some f ∨
      ∃ u, ((s.setThread t r).threads u).homeless = some f := by
  have hself : (s.setThread t r).threads t = r.2 := update_self ..
  rcases hm.renamed f with hid | hid | hid
  · rw [hid] at hf ⊢
    rcases h.home f hf with hp | ⟨u,hu⟩
    · rcases hm.effect.mapped _ f hp with hp' | ⟨a,q,ht⟩
      · exact .inl hp'
      · exact .inr ⟨t,by rw [hself]; exact hm.unmapped a q f _ ht⟩
    · by_cases hut : u = t
      · subst hut
        rcases hm.housed f hu with hu' | hu' | hu'
        · exact .inr ⟨u,by rw [hself]; exact hu'⟩
        · exact absurd (hid.symm.trans hu') hf
        · exact .inl (hid ▸ hu')
      · refine .inr ⟨u,?_⟩
        change (update s.threads t r.2 u).homeless = some f
        rwa [update_of_ne hut]
  · exact absurd hid hf
  · exact .inr ⟨t,by rw [hself]; exact hid⟩

theorem Inv.move_content (h : Inv s) (hm : Move s t r) (p f : ℕ) (hp : r.1.pageTable p = some f) :
    r.1.content f = r.1.onDisk p ∨ (r.1.frameMeta f).dirty = true ∨
      (∃ u, ((s.setThread t r).threads u).unsaved = some f) ∨
      ∃ u, ((s.setThread t r).threads u).preWrite = some f := by
  have hself : (s.setThread t r).threads t = r.2 := update_self ..
  have hother : ∀ u, u ≠ t → (s.setThread t r).threads u = s.threads u := fun u hu =>
    update_of_ne hu ..
  rcases hm.table p f hp with hp' | ⟨-,hc | hc⟩
  case inr.inl => exact .inl hc
  case inr.inr => exact .inr (.inr (.inl ⟨t,by rw [hself]; exact hc⟩))
  have hnot : ¬Unmapped s.toShared f := fun hun => hun p hp'
  rcases h.content p f hp' with hc | hc | ⟨u,hu⟩ | ⟨u,hu⟩
  · have hcont : r.1.content f = s.content f ∨ r.2.unsaved = some f := by
      rcases hm.effect.content f with hsame | hw | ⟨-,hun⟩
      · exact .inl hsame
      · exact hm.written f hw
      · exact absurd hun hnot
    rcases hcont with hcont | hcont
    · rcases hm.effect.onDisk p with hd | ⟨g,hg⟩
      · exact .inl (by rw [hcont,hd,hc])
      · have hgf : g = f := by
          have hg' := (h.claim_of_inFlight hg).2
          rw [hp',Option.some.injEq] at hg'
          exact hg'.symm
        subst hgf
        rcases hm.flushed g p hg with hd | hd
        · exact .inl (by rw [hcont,hd,hc])
        · exact .inl hd.symm
    · exact .inr (.inr (.inl ⟨t,by rw [hself]; exact hcont⟩))
  · rcases hm.dirty f hnot hc with hd | hd
    · exact .inr (.inl hd)
    · exact .inr (.inr (.inr ⟨t,by rw [hself]; exact hd⟩))
  · by_cases hut : u = t
    · subst hut
      rcases hm.unsaved f hu with hu' | hu'
      · exact .inr (.inr (.inl ⟨u,by rw [hself]; exact hu'⟩))
      · exact .inr (.inl hu')
    · exact .inr (.inr (.inl ⟨u,by rw [hother u hut]; exact hu⟩))
  · by_cases hut : u = t
    · subst hut
      obtain ⟨q,hq⟩ := Pc.inFlight_of_preWrite hu
      have hqp : q = p := h.page_unique (h.claim_of_inFlight hq).2 hp'
      subst hqp
      rcases hm.preWrite f q hu hq with hu' | hu' | hu'
      · exact .inr (.inr (.inr ⟨u,by rw [hself]; exact hu'⟩))
      · exact .inr (.inl hu')
      · exact .inl hu'
    · exact .inr (.inr (.inr ⟨u,by rw [hother u hut]; exact hu⟩))

theorem Inv.move (h : Inv s) (hm : Move s t r) : Inv (s.setThread t r) where
  alloc := h.alloc.update hm.alloc
  writer f := (h.writer f).update fun hw => (hm.writes f hw).imp id fun hn u => (hn u).1
  reader f := (h.reader f).update (fun hw => (hm.writes f hw).imp id fun hn u => (hn u).2)
    (fun hr => (hm.reads f hr).imp id fun hn u => hn u) Pc.not_reads_of_writes
  claimed f := (h.claimed f).update fun hc => (hm.claim f hc).imp id fun hf u hu => by
    obtain ⟨p,hp⟩ := Pc.inFlight_of_map hu
    rw [(h.claim_of_inFlight hp).1] at hf
    cases hf
  pins f := by
    have hsum := sum_update (fun pc : Pc => pc.pinsOn f) s.threads t r.2
    have hmove := hm.pins f
    have hold := h.pins f
    change (r.1.frameMeta f).pinCount = ∑ u, (update s.threads t r.2 u).pinsOn f
    omega
  table := h.move_table hm
  home := h.move_home hm
  empty := h.move_empty hm
  content := h.move_content hm
  pc := forall_update hm.pc fun u hu => h.keep_pc hu hm.effect

end Move

end BufferPool
end PgAm
