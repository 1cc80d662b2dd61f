import PgAm.PoolLatch

/-! How a change of a page travels from its frame to the disk. A predicate on images says that
an image carries the change; it is followed from the guard that makes it through dirty flag,
claim, page write and group sync to an image that a completed sync covers. -/
namespace PgAm
namespace BufferPool

open Function

variable {C : Type} {n : ℕ} {fmt : PageFormat C} {frameCount : ℕ}

/-- Some image of the page that carries the change is on disk for good. -/
def Shared.Durable (s : Shared C) (p : ℕ) (Q : C → Prop) : Prop :=
  Q (s.base p) ∨ ∃ i c, i < s.synced ∧ s.writes[i]? = some (p,c) ∧ Q c

theorem Shared.durable_iff (s : Shared C) (p : ℕ) (Q : C → Prop) :
    Q (s.base p) ∨ (∃ w ∈ s.writes.take s.synced, w.1 = p ∧ Q w.2) ↔ s.Durable p Q := by
  refine or_congr_right ⟨?_,?_⟩
  · rintro ⟨⟨q,c⟩,hw,rfl,hQ⟩
    obtain ⟨i,hi⟩ := List.getElem?_of_mem hw
    rw [List.getElem?_take] at hi
    split at hi
    · exact ⟨i,c,‹_›,hi,hQ⟩
    · cases hi
  · rintro ⟨i,c,hi,hw,hQ⟩
    refine ⟨(p,c),List.mem_of_getElem? (i := i) ?_,rfl,hQ⟩
    rw [List.getElem?_take,if_pos hi,hw]

instance (s : Shared C) (p : ℕ) (Q : C → Prop) [DecidablePred Q] : Decidable (s.Durable p Q) :=
  decidable_of_iff _ (s.durable_iff p Q)

def Shared.StageBound (s : Shared C) : Stage → Prop
  | .mark gen | .check gen | .sync gen _ | .publish gen => gen ≤ s.flushGen
  | _ => True

/-- Generations that threads carry or have published are bounded by the counter. -/
structure GenInv (s : Pool C n) : Prop where
  published : s.syncedGen ≤ s.flushGen
  stage : ∀ t st, (s.threads t).stage = some st → s.StageBound st

/-- Whoever finds generation `g` synced may rely on the write with index `i`. -/
structure GenSafe (s : Pool C n) (i g : ℕ) : Prop where
  written : i < s.writes.length
  published : g ≤ s.syncedGen → i < s.synced
  syncing : ∀ t covered upTo, (s.threads t).stage = some (.sync covered upTo) →
    g ≤ covered → i < upTo
  publishing : ∀ t covered, (s.threads t).stage = some (.publish covered) →
    g ≤ covered → i < s.synced

def Shared.Wrote (s : Shared C) (p : ℕ) (Q : C → Prop) (i : ℕ) : Prop :=
  ∃ c, s.writes[i]? = some (p,c) ∧ Q c

/-- What a flush in flight has done for the change; a failed one gives the frame back dirty. -/
def Carries (s : Pool C n) (p : ℕ) (Q : C → Prop) : Stage → Prop
  | .latch | .wal _ | .write | .failed .. => True
  | .bump => ∃ i, s.Wrote p Q i
  | .mark gen | .check gen => ∃ i, s.Wrote p Q i ∧ GenSafe s i gen
  | .sync _ upTo => ∃ i < upTo, s.Wrote p Q i
  | .publish _ | .done => False

section Advance

variable {s : Pool C n} {t : Fin n} {fault : Option StorageError} {lsn : ℕ} {r : Shared C × Pc}

variable {sh : Shared C}

theorem advance_calm (hpc : (s.threads t).stage = none)
    (hr : advance fmt frameCount s t fault lsn = some r) :
    r.1.file = s.file ∧ (r.2.stage = none ∨ r.2.stage = some .latch) := by
  have hg := goes hr
  generalize s.threads t = pc at hg hpc
  cases hg with
  | clean => exact ⟨rfl,.inl (afterFlush_quiet ..).2.2⟩
  | claim => exact ⟨rfl,.inr rfl⟩
  | flush => cases hpc
  | hit hpin => exact ⟨(tryPinResident_files hpin).1,.inl (afterPin_quiet ..).2.2⟩
  | insert => exact ⟨rfl,.inl (afterPin_quiet ..).2.2⟩
  | _ => exact ⟨rfl,.inl rfl⟩

variable {f page saved : ℕ}

variable {st : Stage} {o : Owner}

theorem advance_flushing (hpc : s.threads t = .flushing o f page saved st)
    (hr : advance fmt frameCount s t fault lsn = some r) :
    advanceFlush fmt s.toShared (s.writeLatched f) o f page saved fault st = some r := by
  simpa only [advance,hpc] using hr

inductive FlushStep (s : Shared C) (f page : ℕ) : Stage → Shared C → Option Stage → Prop
  | latch {l : ℕ} : FlushStep s f page .latch s (some (.wal l))
  | wal {l : ℕ} : FlushStep s f page (.wal l) s (some .write)
  | write : FlushStep s f page .write { s with writes := s.writes ++ [(page,s.content f)] }
      (some .bump)
  | bump : FlushStep s f page .bump { s with flushGen := s.flushGen + 1 }
      (some (.mark (s.flushGen + 1)))
  | mark {gen : ℕ} {sh : Shared C} (hfile : sh.file = s.file) :
      FlushStep s f page (.mark gen) sh (some (.check gen))
  | behind {gen : ℕ} : FlushStep s f page (.check gen) s
      (some (.sync s.flushGen s.writes.length))
  | covered {gen : ℕ} (h : gen ≤ s.syncedGen) : FlushStep s f page (.check gen) s (some .done)
  | sync {covered upTo : ℕ} : FlushStep s f page (.sync covered upTo)
      { s with synced := max s.synced upTo } (some (.publish covered))
  | publish {covered : ℕ} : FlushStep s f page (.publish covered)
      { s with syncedGen := max s.syncedGen covered } (some .done)
  | fail {st : Stage} {e : StorageError} {latched : Bool} :
      FlushStep s f page st s (some (.failed e latched))
  | done {sh : Shared C} (hfile : sh.file = s.file) : FlushStep s f page .done sh none
  | failed {e : StorageError} {latched : Bool} {sh : Shared C} (hfile : sh.file = s.file)
      (hdirty : (sh.frameMeta f).dirty = true) : FlushStep s f page (.failed e latched) sh none

variable {wl : Bool}

theorem advanceFlush_step (h : advanceFlush fmt sh wl o f page saved fault st = some r) :
    FlushStep sh f page st r.1 r.2.stage ∧
      ∀ st', r.2.stage = some st' → r.2 = .flushing o f page saved st' := by
  cases st <;> simp only [advanceFlush] at h
  case latch =>
    split at h <;> cases h
    exact ⟨.latch,fun st' h => by cases h; rfl⟩
  case wal l =>
    split at h <;> cases h
    · exact ⟨.wal,fun st' h => by cases h; rfl⟩
    · exact ⟨.fail,fun st' h => by cases h; rfl⟩
  case write =>
    split at h <;> cases h
    · exact ⟨.write,fun st' h => by cases h; rfl⟩
    · exact ⟨.fail,fun st' h => by cases h; rfl⟩
  case bump =>
    cases h
    exact ⟨.bump,fun st' h => by cases h; rfl⟩
  case mark gen =>
    cases h
    exact ⟨.mark rfl,fun st' h => by cases h; rfl⟩
  case check gen =>
    split at h <;> cases h
    · exact ⟨.behind,fun st' h => by cases h; rfl⟩
    · exact ⟨.covered (not_lt.1 ‹_›),fun st' h => by cases h; rfl⟩
  case sync covered upTo =>
    split at h <;> cases h
    · exact ⟨.sync,fun st' h => by cases h; rfl⟩
    · exact ⟨.fail,fun st' h => by cases h; rfl⟩
  case publish covered =>
    cases h
    exact ⟨.publish,fun st' h => by cases h; rfl⟩
  case done =>
    cases h
    have hst := (afterFlush_quiet o f none).2.2
    exact ⟨by rw [hst]; exact .done rfl,fun st' h => absurd (hst.symm.trans h) (by rintro ⟨⟩)⟩
  case failed e latched =>
    cases h
    have hst := (afterFlush_quiet o f (some e)).2.2
    refine ⟨?_,fun st' h => absurd (hst.symm.trans h) (by rintro ⟨⟩)⟩
    rw [hst]
    exact .failed rfl (by rw [setMeta_self]; rfl)

theorem advanceFlush_returns
    (h : advanceFlush fmt sh wl o f page saved fault st = some r) (hr : r.2.stage = none) :
    (st = .done ∧ r.2 = afterFlush o f none) ∨
      ∃ e b, st = .failed e b ∧ r.2 = afterFlush o f (some e) := by
  cases st <;> simp only [advanceFlush] at h
  case done =>
    cases h
    exact .inl ⟨rfl,rfl⟩
  case failed e b =>
    cases h
    exact .inr ⟨e,b,rfl,rfl⟩
  all_goals
    try split at h
    all_goals cases h
  all_goals cases hr

theorem advanceFlush_failed
    {e : StorageError} {b : Bool} (h : advanceFlush fmt sh wl o f page saved fault st = some r)
    (hr : r.2.stage = some (.failed e b)) : fault = some e := by
  cases st <;> simp only [advanceFlush] at h
  case done | failed =>
    cases h
    cases (afterFlush_quiet ..).2.2.symm.trans hr
  all_goals
    try split at h
    all_goals cases h
  all_goals cases hr
  all_goals rfl

end Advance

section Generations

variable {s s' : Pool C n} {t : Fin n} {r : Shared C × Pc} {i g : ℕ}

variable {st : Stage}

theorem setThread_stage_cases {u : Fin n} (h : ((s.setThread t r).threads u).stage = some st) :
    (u = t ∧ r.2.stage = some st) ∨ (u ≠ t ∧ (s.threads u).stage = some st) := by
  change (update s.threads t r.2 u).stage = some st at h
  by_cases hu : u = t
  · rw [hu,update_self] at h
    exact .inl ⟨hu,h⟩
  · rw [update_of_ne hu] at h
    exact .inr ⟨hu,h⟩

theorem Shared.file_eq {s s' : Shared C} (h : s'.file = s.file) : s'.base = s.base ∧
    s'.writes = s.writes ∧ s'.synced = s.synced ∧ s'.flushGen = s.flushGen ∧
    s'.syncedGen = s.syncedGen := by
  simpa only [Shared.file,Prod.mk.injEq] using h

theorem Shared.StageBound.mono {s s' : Shared C} (h : s.flushGen ≤ s'.flushGen)
    (hst : s.StageBound st) : s'.StageBound st := by
  cases st <;> first | trivial | exact le_trans hst h

theorem GenInv.setThread (h : GenInv s) (hpub : r.1.syncedGen ≤ r.1.flushGen)
    (hgen : s.flushGen ≤ r.1.flushGen) (hst : ∀ st, r.2.stage = some st → r.1.StageBound st) :
    GenInv (s.setThread t r) := by
  refine ⟨hpub,fun u st hu => ?_⟩
  rcases setThread_stage_cases hu with ⟨-,hu⟩ | ⟨-,hu⟩
  · exact hst st hu
  · exact (h.stage u st hu).mono hgen

theorem GenInv.setThread_calm (h : GenInv s) (hfile : r.1.file = s.file)
    (hst : r.2.stage = none ∨ r.2.stage = some .latch) : GenInv (s.setThread t r) := by
  obtain ⟨-,-,-,hf,hg⟩ := Shared.file_eq hfile
  refine h.setThread (hf ▸ hg ▸ h.published) hf.ge fun st hr => ?_
  rcases hst with hst | hst <;> cases hst.symm.trans hr
  trivial

variable {f page : ℕ}

theorem GenInv.setThread_flush (h : GenInv s)
    (hst : (s.threads t).stage = some st) (hf : FlushStep s.toShared f page st r.1 r.2.stage) :
    GenInv (s.setThread t r) := by
  have hown := h.stage t st hst
  have hpub := h.published
  obtain ⟨sh,pc⟩ := r
  dsimp only at hf
  generalize hst' : pc.stage = st' at hf
  have hkeep : ∀ {sh' : Shared C}, sh'.file = s.file → (∀ x, st' = some x → sh'.StageBound x) →
      GenInv (s.setThread t (sh',pc)) := by
    intro sh' hfile hb
    obtain ⟨-,-,-,hfg,hsg⟩ := Shared.file_eq hfile
    exact h.setThread (hfg ▸ hsg ▸ hpub) hfg.ge fun x hx => hb x (hst'.symm.trans hx)
  cases hf with
  | latch | wal | fail | covered => exact hkeep rfl fun x hx => by cases hx; trivial
  | write => exact h.setThread hpub le_rfl fun x hx => by cases hst'.symm.trans hx; trivial
  | bump =>
    exact h.setThread (hpub.trans (Nat.le_succ _)) (Nat.le_succ _) fun x hx => by
      cases hst'.symm.trans hx
      exact le_rfl
  | mark hfile =>
    obtain ⟨-,-,-,hfg,-⟩ := Shared.file_eq hfile
    exact hkeep hfile fun x hx => by
      cases hx
      exact le_of_le_of_eq hown hfg.symm
  | behind => exact hkeep rfl fun x hx => by cases hx; exact le_rfl
  | sync => exact h.setThread hpub le_rfl fun x hx => by cases hst'.symm.trans hx; exact hown
  | publish =>
    exact h.setThread (max_le hpub hown) le_rfl fun x hx => by cases hst'.symm.trans hx; trivial
  | done hfile | failed hfile => exact hkeep hfile nofun

theorem Pc.flushing_of_stage {pc : Pc} (h : pc.stage = some st) :
    ∃ o f page saved, pc = .flushing o f page saved st := by
  cases pc <;> cases h
  exact ⟨_,_,_,_,rfl⟩

theorem GenInv.step {a : Step C n} (h : GenInv s) (hs : step fmt frameCount s a = some s') :
    GenInv s' := by
  cases step_case hs with
  | @run t fault lsn r hr =>
    cases hst : (s.threads t).stage with
    | none =>
      obtain ⟨hfile,hst'⟩ := advance_calm hst hr
      exact h.setThread_calm hfile hst'
    | some st =>
      obtain ⟨o,f,page,saved,hpc⟩ := Pc.flushing_of_stage hst
      exact h.setThread_flush hst (advanceFlush_step (advance_flushing hpc hr)).1
  | begins hb => exact h.setThread_calm hb.file (.inl hb.stage')
  | modify hpc | setCheckpointLsn => exact { h with }

theorem GenSafe.setThread_calm (h : GenSafe s i g) (hfile : r.1.file = s.file)
    (hst : r.2.stage = none ∨ r.2.stage = some .latch) : GenSafe (s.setThread t r) i g := by
  obtain ⟨-,hw,hs,-,hg⟩ := Shared.file_eq hfile
  refine ⟨?_,?_,fun u covered upTo hu => ?_,fun u covered hu => ?_⟩
  · exact hw ▸ h.written
  · exact hs ▸ hg ▸ h.published
  all_goals
    rcases setThread_stage_cases hu with ⟨-,hu⟩ | ⟨-,hu⟩
    · rcases hst with hst | hst <;> cases hst.symm.trans hu
  · exact h.syncing u covered upTo hu
  · exact hs ▸ h.publishing u covered hu

theorem GenSafe.setThread_flush (h : GenSafe s i g)
    (hst : (s.threads t).stage = some st) (hf : FlushStep s.toShared f page st r.1 r.2.stage) :
    GenSafe (s.setThread t r) i g := by
  obtain ⟨sh,pc⟩ := r
  dsimp only at hf
  generalize hst' : pc.stage = st' at hf
  have hkeep : ∀ {sh' : Shared C}, s.writes.length ≤ sh'.writes.length →
      s.synced ≤ sh'.synced → (g ≤ sh'.syncedGen → i < sh'.synced) →
      (∀ covered upTo, st' = some (.sync covered upTo) → g ≤ covered → i < upTo) →
      (∀ covered, st' = some (.publish covered) → g ≤ covered → i < sh'.synced) →
      GenSafe (s.setThread t (sh',pc)) i g := by
    intro sh' hw hs hp hsync hpub
    refine ⟨h.written.trans_le hw,hp,fun u covered upTo hu => ?_,fun u covered hu => ?_⟩ <;>
      rcases setThread_stage_cases hu with ⟨-,hu⟩ | ⟨-,hu⟩
    · exact hsync covered upTo (hst'.symm.trans hu)
    · exact h.syncing u covered upTo hu
    · exact hpub covered (hst'.symm.trans hu)
    · exact fun hg => (h.publishing u covered hu hg).trans_le hs
  cases hf with
  | latch | wal | fail | covered | bump => exact hkeep le_rfl le_rfl h.published nofun nofun
  | write => exact hkeep (by simp) le_rfl h.published nofun nofun
  | mark hfile | done hfile | failed hfile =>
    obtain ⟨-,hw,hs,-,hsg⟩ := Shared.file_eq hfile
    exact hkeep (by rw [hw]) hs.ge (by rw [hs,hsg]; exact h.published) nofun nofun
  | behind =>
    refine hkeep le_rfl le_rfl h.published (fun covered upTo heq _ => ?_) nofun
    cases heq
    exact h.written
  | sync =>
    refine hkeep le_rfl (le_max_left ..) (fun hg => (h.published hg).trans_le
      (le_max_left ..)) nofun
      (fun covered heq hg => ?_)
    cases heq
    exact (h.syncing t _ _ hst hg).trans_le (le_max_right ..)
  | publish =>
    refine hkeep le_rfl le_rfl (fun hg => ?_) nofun nofun
    rcases le_max_iff.1 hg with hg | hg
    · exact h.published hg
    · exact h.publishing t _ hst hg

theorem GenSafe.fresh (h : GenInv s) (hi : i < s.writes.length) (hg : s.flushGen < g) :
    GenSafe s i g := by
  refine ⟨hi,fun hle => ?_,fun t covered upTo hst hle => ?_,fun t covered hst hle => ?_⟩
  · have := h.published
    omega
  all_goals
    have hb : covered ≤ s.flushGen := h.stage t _ hst
    omega

end Generations

structure Shared.Grows (s s' : Shared C) : Prop where
  base : s'.base = s.base
  writes : ∃ ws, s'.writes = s.writes ++ ws
  synced : s.synced ≤ s'.synced

variable {s s' : Shared C}

theorem Shared.Grows.of_file (h : s'.file = s.file) : s.Grows s' := by
  obtain ⟨hb,hw,hs,-⟩ := Shared.file_eq h
  exact ⟨hb,⟨[],by rw [hw,List.append_nil]⟩,hs.ge⟩

theorem FlushStep.grows {f page : ℕ} {st : Stage} {st' : Option Stage}
    (h : FlushStep s f page st s' st') : s.Grows s' := by
  cases h with
  | latch | wal | fail | covered | behind => exact .of_file rfl
  | bump | publish => exact ⟨rfl,⟨[],by simp⟩,le_rfl⟩
  | write => exact ⟨rfl,⟨_,rfl⟩,le_rfl⟩
  | mark hfile | done hfile | failed hfile => exact .of_file hfile
  | sync => exact ⟨rfl,⟨[],by simp⟩,le_max_left ..⟩

section Changes

variable {p : ℕ} {Q : C → Prop}

variable {i : ℕ}

theorem Shared.Wrote.grows {s s' : Shared C} (h : s.Wrote p Q i) (hg : s.Grows s') :
    s'.Wrote p Q i := by
  obtain ⟨c,hc,hQ⟩ := h
  obtain ⟨ws,hw⟩ := hg.writes
  refine ⟨c,?_,hQ⟩
  rw [hw,List.getElem?_append_left (List.getElem?_eq_some_iff.1 hc).1]
  exact hc

theorem Shared.Durable.grows {s s' : Shared C} (h : s.Durable p Q) (hg : s.Grows s') :
    s'.Durable p Q := by
  rcases h with h | ⟨i,c,hi,hc⟩
  · exact .inl (hg.base ▸ h)
  · obtain ⟨c',hc'⟩ := Shared.Wrote.grows ⟨c,hc⟩ hg
    exact .inr ⟨i,c',hi.trans_le hg.synced,hc'⟩

theorem Shared.Wrote.durable {s : Shared C} (h : s.Wrote p Q i) (hi : i < s.synced) :
    s.Durable p Q := by
  obtain ⟨c,hc⟩ := h
  exact .inr ⟨i,c,hi,hc⟩

theorem Shared.Wrote.lt {s : Shared C} (h : s.Wrote p Q i) : i < s.writes.length := by
  obtain ⟨c,hc,-⟩ := h
  exact (List.getElem?_eq_some_iff.1 hc).1

variable {s s' : Pool C n} {t : Fin n} {r : Shared C × Pc} {f : ℕ}

theorem Carries.other {st : Stage} (h : Carries s p Q st) (hg : s.toShared.Grows s'.toShared)
    (hsafe : ∀ i g, GenSafe s i g → GenSafe s' i g) : Carries s' p Q st := by
  cases st with
  | latch | wal | write | failed => trivial
  | bump =>
    obtain ⟨i,hi⟩ := h
    exact ⟨i,hi.grows hg⟩
  | mark gen | check gen =>
    obtain ⟨i,hi,hs⟩ := h
    exact ⟨i,hi.grows hg,hsafe i gen hs⟩
  | sync covered upTo =>
    obtain ⟨i,hlt,hi⟩ := h
    exact ⟨i,hlt,hi.grows hg⟩
  | publish | done => exact h

/-- The change becomes durable, stays under way, or the frame is dirty again. -/
theorem Carries.next {page : ℕ} {st : Stage} (hgen : GenInv s) (h : Carries s page Q st)
    (hpc : (s.threads t).stage = some st) (hf : FlushStep s.toShared f page st r.1 r.2.stage)
    (hQ : st = .write → Q (s.content f)) :
    r.1.Durable page Q ∨ ((∃ e b, st = .failed e b) ∧ (r.1.frameMeta f).dirty = true) ∨
      ∃ st', r.2.stage = some st' ∧ Carries (s.setThread t r) page Q st' := by
  have hsafe : ∀ i g, GenSafe s i g → GenSafe (s.setThread t r) i g :=
    fun i g hs => hs.setThread_flush hpc hf
  obtain ⟨sh,pc⟩ := r
  dsimp only at hf
  generalize pc.stage = st' at hf
  cases hf with
  | latch | wal | fail => exact .inr (.inr ⟨_,rfl,trivial⟩)
  | write =>
    refine .inr (.inr ⟨_,rfl,s.writes.length,s.content f,?_,hQ rfl⟩)
    change (s.writes ++ [(page,s.content f)])[s.writes.length]? = _
    simp
  | bump =>
    obtain ⟨i,hi⟩ := h
    exact .inr (.inr ⟨_,rfl,i,hi,hsafe i _ (.fresh hgen hi.lt (Nat.lt_succ_self _))⟩)
  | mark hfile =>
    obtain ⟨i,hi,hs⟩ := h
    exact .inr (.inr ⟨_,rfl,i,hi.grows (.of_file hfile),hsafe i _ hs⟩)
  | behind =>
    obtain ⟨i,hi,-⟩ := h
    exact .inr (.inr ⟨_,rfl,i,hi.lt,hi⟩)
  | covered hle =>
    obtain ⟨i,hi,hs⟩ := h
    exact .inl (hi.durable (hs.published hle))
  | sync =>
    obtain ⟨i,hlt,hi⟩ := h
    refine .inl (Shared.Wrote.durable (i := i) ?_ (hlt.trans_le (le_max_right ..)))
    exact hi.grows ⟨rfl,⟨[],by simp⟩,le_max_left ..⟩
  | publish | done => exact h.elim
  | failed hfile hdirty => exact .inr (.inl ⟨⟨_,_,rfl⟩,hdirty⟩)

end Changes

/-- The frame carries the change, or the holder of its write guard still owes it. -/
def Held (s : Pool C n) (p f : ℕ) (Q : C → Prop) (owes : Fin n → Prop) : Prop :=
  Q (s.content f) ∨ ∃ t, s.threads t = .writing p f ∧ owes t

/-- The frame is dirty, or a flush of it is under way that does for the change what is left
to do. -/
def Pending (s : Pool C n) (p f : ℕ) (Q : C → Prop) : Prop :=
  (s.frameMeta f).dirty = true ∨
    ∃ t o saved st, s.threads t = .flushing o f p saved st ∧ Carries s p Q st

/-- The step takes the change out of no image, and no guard is dropped that still owes it. -/
structure Keeps (fmt : PageFormat C) (s : Pool C n) (a : Step C n) (Q : C → Prop)
    (owes : Fin n → Prop) : Prop where
  stamp : ∀ c l, Q c → Q (fmt.setPdLsn c l)
  modify : ∀ t c p f, a = .modify t c → s.threads t = .writing p f → Q (s.content f) → Q c
  drop : ∀ t p f, a = .drop t → s.threads t = .writing p f → owes t → Q (s.content f)

section Tracking

variable {s s' : Pool C n} {a : Step C n} {p f : ℕ} {Q : C → Prop} {owes : Fin n → Prop}

theorem not_unmapped (hp : s.pageTable p = some f) : ¬Unmapped s.toShared f := fun hu => hu p hp

theorem Held.step (h : Inv s) (hk : Keeps fmt s a Q owes) (hclean : Clean s a)
    (hs : step fmt frameCount s a = some s') (hp : s.pageTable p = some f)
    (hh : Held s p f Q owes) : Held s' p f Q owes := by
  cases step_case hs with
  | @run t fault lsn r hr =>
    have hm := move_advance h hclean hr
    have hsec : Section fmt s t lsn r := advance_section hr
    rcases hh with hQ | ⟨u,hu,howe⟩
    · refine .inl ?_
      change Q (r.1.content f)
      rcases hsec.content f with hc | ⟨hfree,-⟩ | ⟨q,-,hc⟩
      · exact hc ▸ hQ
      · rcases hm.effect.content f with hc | hw | ⟨-,hu⟩
        · exact hc ▸ hQ
        · exact absurd hw (latched_eq_false hfree t).1
        · exact absurd hu (not_unmapped hp)
      · exact hc ▸ hk.stamp _ _ hQ
    · refine .inr ⟨u,?_,howe⟩
      have hut : u ≠ t := by
        rintro rfl
        simp [advance,hu,Pc.allocating,advanceGuard] at hr
      change update s.threads t r.2 u = _
      rw [update_of_ne hut,hu]
  | @begins _ t r hb =>
    rcases hh with hQ | ⟨u,hu,howe⟩
    · exact .inl (by change Q (r.1.content f); rw [hb.content]; exact hQ)
    · by_cases hut : u = t
      · subst hut
        refine .inl ?_
        change Q (r.1.content f)
        rw [hb.content]
        exact hk.drop u p f (hb.guard p f hu) hu howe
      · refine .inr ⟨u,?_,howe⟩
        change update s.threads t r.2 u = _
        rw [update_of_ne hut,hu]
  | @modify t q g c hpc =>
    rcases hh with hQ | hu
    · refine .inl ?_
      change Q (update s.content g c f)
      by_cases hg : f = g
      · subst hg
        rw [update_self]
        exact hk.modify t c q f rfl hpc hQ
      · rw [update_of_ne hg]
        exact hQ
    · exact .inr hu
  | setCheckpointLsn => exact hh

variable {t : Fin n}

theorem Held.of_reader (hh : Held s p f Q owes) (h : Inv s)
    (ht : (s.threads t).reads = some f) : Q (s.content f) := by
  rcases hh with hQ | ⟨u,hu,-⟩
  · exact hQ
  · exact absurd ht (h.reader f u t (by rw [hu]; rfl))

theorem unsaved_step (h : Inv s) (hclean : Clean s a) (hs : step fmt frameCount s a = some s')
    (hp : s.pageTable p = some f) (hu : ∃ t, (s.threads t).unsaved = some f) :
    s'.pageTable p = some f ∧
      ((s'.frameMeta f).dirty = true ∨ ∃ t, (s'.threads t).unsaved = some f) := by
  obtain ⟨u,hu⟩ := hu
  cases step_case hs with
  | @run t fault lsn r hr =>
    have hm := move_advance h hclean hr
    constructor
    · rcases hm.effect.mapped p f hp with hmap | ⟨a,q,hpc⟩
      · exact hmap
      · have hinv := h.pc t
        rw [hpc] at hinv
        obtain ⟨x,hx⟩ := Pc.pinned_of_unsaved hu
        exact absurd hx (h.victim_not_pinned hinv.2.1)
    · by_cases hut : u = t
      · subst hut
        rcases hm.unsaved f hu with hu' | hd
        · refine .inr ⟨u,?_⟩
          change (update s.threads u r.2 u).unsaved = _
          rw [update_self,hu']
        · exact .inl hd
      · refine .inr ⟨u,?_⟩
        change (update s.threads t r.2 u).unsaved = _
        rw [update_of_ne hut,hu]
  | @begins _ t r hb =>
    refine ⟨by change r.1.pageTable p = _; rw [hb.pageTable,hp],.inr ⟨u,?_⟩⟩
    change (update s.threads t r.2 u).unsaved = _
    by_cases hut : u = t
    · subst hut
      rw [update_self]
      exact hb.unsaved f hu
    · rw [update_of_ne hut,hu]
  | modify hpc | setCheckpointLsn => exact ⟨hp,.inr ⟨u,hu⟩⟩

variable {r : Shared C × Pc}

theorem Pending.other {t u : Fin n} {o : Owner} {saved : ℕ} {st : Stage}
    (hut : u ≠ t) (hu : s.threads u = .flushing o f p saved st) (hc : Carries s p Q st)
    (hg : s.toShared.Grows r.1) (hsafe : ∀ i g, GenSafe s i g → GenSafe (s.setThread t r) i g) :
    Pending (s.setThread t r) p f Q := by
  refine .inr ⟨u,o,saved,st,?_,hc.other hg hsafe⟩
  change update s.threads t r.2 u = _
  rw [update_of_ne hut,hu]

theorem Pc.flushing_of_preWrite {pc : Pc} (h : pc.preWrite = some f) :
    ∃ o page saved st, pc = .flushing o f page saved st := by
  cases pc <;> first | cases h | skip
  rename_i o g page saved st
  cases st <;> cases h <;> exact ⟨_,_,_,_,rfl⟩

theorem carries_of_preWrite {o : Owner} {page saved : ℕ} {st : Stage}
    (h : (Pc.flushing o f page saved st).preWrite = some f) : Carries s p Q st := by
  cases st <;> trivial

theorem Pending.of_dirty (h : Inv s) (hm : Move s t r)
    (hp : s.pageTable p = some f) (hp' : r.1.pageTable p = some f)
    (hd : (s.frameMeta f).dirty = true) : Pending (s.setThread t r) p f Q := by
  rcases hm.dirty f (not_unmapped hp) hd with hd' | hpre
  · exact .inl hd'
  · obtain ⟨o,page,saved,st,hr⟩ := Pc.flushing_of_preWrite hpre
    have hinv := hm.pc
    rw [hr] at hinv hpre
    have hpage : page = p := (h.move hm).page_unique hinv.mapped_of_flushing hp'
    subst hpage
    refine .inr ⟨t,o,saved,st,?_,carries_of_preWrite hpre⟩
    change update s.threads t r.2 t = _
    rw [update_self,hr]

/-- A frame that is dirty or being flushed keeps its page until the change is durable. -/
theorem Inv.keep_mapped_of_pending {sh : Shared C} (h : Inv s)
    (he : Effect s.toShared sh (s.threads t)) (hp : s.pageTable p = some f)
    (hst : Pending s p f Q) : sh.pageTable p = some f := by
  rcases he.mapped p f hp with hmap | ⟨a,q,hpc⟩
  · exact hmap
  · have hinv := h.pc t
    rw [hpc] at hinv
    obtain ⟨-,-,hset,-⟩ := hinv
    rcases hst with hd | ⟨u,o,saved,st,hu,-⟩
    · rw [hset.dirty] at hd
      cases hd
    · have hfl := (h.claim_of_inFlight (by rw [hu]; rfl : (s.threads u).inFlight = some (f,p))).1
      rw [hset.flushing] at hfl
      cases hfl

theorem Pending.step (h : Inv s) (hgen : GenInv s) (hclean : Clean s a)
    (hs : step fmt frameCount s a = some s') (hp : s.pageTable p = some f)
    (hh : Held s p f Q owes) (hst : Pending s p f Q) :
    s'.Durable p Q ∨ (s'.pageTable p = some f ∧ Pending s' p f Q) := by
  cases step_case hs with
  | @run t fault lsn r hr =>
    have hm := move_advance h hclean hr
    have hp' := h.keep_mapped_of_pending hm.effect hp hst
    rcases hst with hd | ⟨u,o,saved,st,hu,hc⟩
    · exact .inr ⟨hp',.of_dirty h hm hp hp' hd⟩
    cases ht : (s.threads t).stage with
    | none =>
      obtain ⟨hfile,hst'⟩ := advance_calm ht hr
      have hut : u ≠ t := by
        rintro rfl
        rw [hu] at ht
        cases ht
      exact .inr ⟨hp',.other hut hu hc (.of_file hfile) fun i g hs => hs.setThread_calm hfile hst'⟩
    | some st₀ =>
      obtain ⟨o₀,f₀,page,saved₀,hpc⟩ := Pc.flushing_of_stage ht
      obtain ⟨hf,hnext⟩ := advanceFlush_step (advance_flushing hpc hr)
      by_cases hut : u = t
      · subst hut
        cases hu.symm.trans hpc
        have hQ : st = .write → Q (s.content f) := by
          rintro rfl
          exact hh.of_reader h (by rw [hu]; rfl)
        rcases hc.next hgen ht hf hQ with hdur | ⟨-,hd⟩ | ⟨st',hst',hc'⟩
        · exact .inl hdur
        · exact .inr ⟨hp',.inl hd⟩
        · refine .inr ⟨hp',.inr ⟨u,o,saved,st',?_,hc'⟩⟩
          change update s.threads u r.2 u = _
          rw [update_self,hnext st' hst']
      · exact .inr ⟨hp',.other hut hu hc hf.grows fun i g hs => hs.setThread_flush ht hf⟩
  | @begins _ t r hb =>
    refine .inr ⟨by change r.1.pageTable p = _; rw [hb.pageTable,hp],?_⟩
    rcases hst with hd | ⟨u,o,saved,st,hu,hc⟩
    · exact .inl ((hb.dirty f).trans hd)
    · have hut : u ≠ t := by
        rintro rfl
        have := hb.stage
        rw [hu] at this
        cases this
      exact .other hut hu hc (.of_file hb.file) fun i g hs => hs.setThread_calm hb.file
        (.inl hb.stage')
  | modify hpc | setCheckpointLsn =>
    refine .inr ⟨hp,hst.imp_right ?_⟩
    rintro ⟨u,o,saved,st,hu,hc⟩
    exact ⟨u,o,saved,st,hu,hc.other (.of_file rfl) fun i g hs =>
      { hs with }⟩

theorem Inv.not_pending (h : Inv s) (hd : (s.frameMeta f).dirty = false)
    (hf : (s.frameMeta f).flushing = false) : ¬Pending s p f Q := by
  rintro (hd' | ⟨u,o,saved,st,hu,-⟩)
  · cases hd.symm.trans hd'
  · have hfl := (h.claim_of_inFlight (by rw [hu]; rfl : (s.threads u).inFlight = some (f,p))).1
    cases hf.symm.trans hfl

/-- The flush that `t` was called for is about to look at the frame, or is under way. -/
def FlushCall (s : Pool C n) (t : Fin n) (p f : ℕ) (Q : C → Prop) : Prop :=
  s.threads t = .flushClaim .call f ∨
    ∃ saved st, s.threads t = .flushing .call f p saved st ∧ Carries s p Q st

theorem FlushCall.not_free (hc : FlushCall s t p f Q) : (s.threads t).free = false := by
  rcases hc with hc | ⟨saved,st,hc,-⟩ <;> rw [hc] <;> rfl

theorem FlushCall.other {t u : Fin n} (hc : FlushCall s t p f Q) (htu : t ≠ u)
    (hg : s.toShared.Grows r.1) (hsafe : ∀ i g, GenSafe s i g → GenSafe (s.setThread u r) i g) :
    FlushCall (s.setThread u r) t p f Q := by
  have hpc := s.setThread_other r htu
  rcases hc with hc | ⟨saved,st,hc,hcar⟩
  · exact .inl (hpc.trans hc)
  · exact .inr ⟨saved,st,hpc.trans hc,hcar.other hg hsafe⟩

/-- The call has made the change durable, or it returns the error of the operation that failed. -/
theorem FlushCall.advance {fault : Option StorageError} {lsn : ℕ}
    (h : Inv s) (hgen : GenInv s) (hp : s.pageTable p = some f) (hh : Held s p f Q owes)
    (hq : Pending s p f Q) (hc : FlushCall s t p f Q)
    (hr : advance fmt frameCount s t fault lsn = some r) :
    r.1.Durable p Q ∨ FlushCall (s.setThread t r) t p f Q ∨
      ∃ e b, (s.threads t).stage = some (.failed e b) ∧ r.2 = .returned (some e) := by
  have hself := s.setThread_self t r
  rcases hc with hc | ⟨saved,st,hc,hcar⟩
  · have hg := goes hr
    rw [hc] at hg
    obtain ⟨hid,hvalid⟩ := h.table p f hp
    cases hg with
    | clean hf hclean =>
      have hd : (s.frameMeta f).dirty = false := by
        rw [hid] at hclean
        simpa [hvalid] using hclean
      exact absurd hq (h.not_pending hd (by simpa using hf))
    | claim => exact .inr (.inl (.inr ⟨_,.latch,by rw [← hid]; exact hself,trivial⟩))
  · have hadv := advance_flushing hc hr
    obtain ⟨hf,hnext⟩ := advanceFlush_step hadv
    have hQ : st = .write → Q (s.content f) := by
      rintro rfl
      exact hh.of_reader h (by rw [hc]; rfl)
    rcases hcar.next hgen (by rw [hc]; rfl) hf hQ with hd | ⟨⟨e,b,rfl⟩,-⟩ | ⟨st',hst',hcar'⟩
    · exact .inl hd
    · cases hadv
      exact .inr (.inr ⟨e,b,by rw [hc]; rfl,rfl⟩)
    · exact .inr (.inl (.inr ⟨saved,st',hself.trans (hnext st' hst'),hcar'⟩))

theorem FlushCall.step {t : Fin n} (h : Inv s) (hgen : GenInv s)
    (hs : BufferPool.step fmt frameCount s a = some s') (hp : s.pageTable p = some f)
    (hh : Held s p f Q owes) (hq : Pending s p f Q) (hc : FlushCall s t p f Q) :
    s'.Durable p Q ∨ FlushCall s' t p f Q ∨ (∃ fault lsn, a = .run t fault lsn) ∧
      ∃ e b, (s.threads t).stage = some (.failed e b) ∧ s'.threads t = .returned (some e) := by
  cases step_case hs with
  | @run u fault lsn r hr =>
    by_cases htu : t = u
    · subst htu
      rw [Pool.setThread_self]
      exact (hc.advance h hgen hp hh hq hr).imp_right (.imp_right fun hf => ⟨⟨fault,lsn,rfl⟩,hf⟩)
    · refine .inr (.inl ?_)
      cases hst : (s.threads u).stage with
      | none =>
        obtain ⟨hfile,hst'⟩ := advance_calm hst hr
        exact hc.other htu (.of_file hfile) fun i g hs => hs.setThread_calm hfile hst'
      | some st =>
        obtain ⟨o,g,page,saved,hpc⟩ := Pc.flushing_of_stage hst
        have hf := (advanceFlush_step (advance_flushing hpc hr)).1
        exact hc.other htu hf.grows fun i g hs => hs.setThread_flush hst hf
  | @begins _ u r hb =>
    by_cases htu : t = u
    · subst htu
      rcases hb.starts with ⟨x,q,y,rfl⟩ | ⟨q,rfl⟩ | ⟨rfl,-,hclaim⟩
      · simp [BufferPool.step,hc.not_free] at hs
      · simp [BufferPool.step,hc.not_free] at hs
      · rcases hc with hc | ⟨saved,st,hc,-⟩
        · exact absurd hc (hclaim _ _)
        · have hst := hb.stage
          rw [hc] at hst
          cases hst
    · exact .inr (.inl (hc.other htu (.of_file hb.file) fun i g hs =>
        hs.setThread_calm hb.file (.inl hb.stage')))
  | modify hpc | setCheckpointLsn =>
    refine .inr (.inl (hc.imp_right ?_))
    rintro ⟨saved,st,hst,hcar⟩
    exact ⟨saved,st,hst,hcar.other (.of_file rfl) fun i g hs =>
      { hs with }⟩

theorem step_grows (hs : step fmt frameCount s a = some s') : s.toShared.Grows s'.toShared := by
  cases step_case hs with
  | @run t fault lsn r hr =>
    cases ht : (s.threads t).stage with
    | none => exact .of_file (advance_calm ht hr).1
    | some st =>
      obtain ⟨o,f,page,saved,hpc⟩ := Pc.flushing_of_stage ht
      exact (advanceFlush_step (advance_flushing hpc hr)).1.grows
  | begins hb => exact .of_file hb.file
  | modify hpc | setCheckpointLsn => exact .of_file rfl

end Tracking

structure Bounded (frameCount : ℕ) (s : Pool C n) : Prop where
  table : ∀ p f, s.pageTable p = some f → f < frameCount
  victim : ∀ t f, (s.threads t).victim = some f → f < frameCount
  scan : ∀ t a p left, s.threads t = .scan a p left → left = 0 ∨ 0 < frameCount

section Bounds

variable {s s' : Pool C n} {t : Fin n} {r : Shared C × Pc} {fault : Option StorageError} {lsn : ℕ}

theorem afterFlush_victim {o : Owner} {f g page saved : ℕ} {err : Option StorageError} {st : Stage}
    (h : (afterFlush o f err).victim = some g) :
    (Pc.flushing o f page saved st).victim = some g ∧ (Pc.flushClaim o f).victim = some g := by
  cases o <;> cases err <;> exact ⟨h,h⟩

theorem afterFlush_ne_scan (o : Owner) (f : ℕ) (err : Option StorageError) (a : Access)
    (p left : ℕ) : afterFlush o f err ≠ .scan a p left := by
  cases o <;> cases err <;> nofun

theorem advance_victim (hb : Bounded frameCount s)
    (h : advance fmt frameCount s t fault lsn = some r) :
    (∀ f, r.2.victim = some f → f < frameCount) ∧
      ∀ a p left, r.2 = .scan a p left → left = 0 ∨ 0 < frameCount := by
  have hv := hb.victim t
  have hscan := hb.scan t
  have hg := goes h
  generalize s.threads t = pc at hv hscan hg
  cases hg with
  | @clean o f =>
    exact ⟨fun g hg => hv g (@afterFlush_victim o f g 0 0 none .done hg).2,
      fun a p left hx => absurd hx (afterFlush_ne_scan o f none a p left)⟩
  | @claim o =>
    refine ⟨fun g hg => hv g ?_,by rintro _ _ _ ⟨⟩⟩
    cases o <;> exact hg
  | @flush o f page saved st r h =>
    obtain ⟨-,hnext⟩ := advanceFlush_step h
    cases hst : r.2.stage with
    | some st' =>
      rw [hnext st' hst]
      refine ⟨fun g hg => hv g ?_,nofun⟩
      cases o <;> exact hg
    | none =>
      obtain ⟨err,hr⟩ : ∃ err, r.2 = afterFlush o f err := by
        rcases advanceFlush_returns h hst with ⟨-,hr⟩ | ⟨e,-,-,hr⟩
        · exact ⟨none,hr⟩
        · exact ⟨some e,hr⟩
      rw [hr]
      exact ⟨fun g hg => hv g (afterFlush_victim hg).1,
        fun a p left hx => absurd hx (afterFlush_ne_scan o f err a p left)⟩
  | @hit a p | @insert a p =>
    obtain ⟨hn,hs⟩ := afterPin_victim a p _
    exact ⟨by simp [hn],fun x q left hx => absurd hx (hs x q left)⟩
  | absent => exact ⟨by rintro _ ⟨⟩,fun x q left hx => by cases hx; omega⟩
  | @scan a p left =>
    have hpos : 0 < frameCount := (hscan a p _ rfl).resolve_left (by omega)
    exact ⟨fun f hf => by cases hf; exact Nat.mod_lt _ hpos,by rintro _ _ _ ⟨⟩⟩
  | @skip _ _ _ f | @spare _ _ _ f =>
    have hf := hv f rfl
    exact ⟨by rintro _ ⟨⟩,fun _ _ _ _ => .inr (by omega)⟩
  | evictDirty | evict | unmapped | unmap | reset | fillNew | fill | load | sample | install =>
    exact ⟨fun g hg => hv g hg,by rintro _ _ _ ⟨⟩⟩
  | _ => exact ⟨by rintro _ ⟨⟩,by rintro _ _ _ ⟨⟩⟩

theorem Bounded.step {a : Step C n} (hb : Bounded frameCount s)
    (hs : step fmt frameCount s a = some s') : Bounded frameCount s' := by
  have htable : ∀ p f, s'.pageTable p = some f → f < frameCount := by
    intro p f hp
    rcases (step_files hs).2 with ht | ⟨t,x,q,g,old,-,-,ht⟩ | ⟨t,x,q,g,hpc,ht⟩
    · exact hb.table p f (ht ▸ hp)
    · rw [ht] at hp
      obtain ⟨-,⟨⟩⟩ | ⟨-,hp⟩ := of_update_eq hp
      exact hb.table p f hp
    · rw [ht] at hp
      rcases of_update_eq hp with ⟨-,hp⟩ | ⟨-,hp⟩
      · exact hb.victim t f (by rw [hpc]; exact hp)
      · exact hb.table p f hp
  have hmove : ∀ (t : Fin n) (r : Shared C × Pc), s' = s.setThread t r →
      (∀ f, r.2.victim = some f → f < frameCount) →
      (∀ a p left, r.2 = .scan a p left → left = 0 ∨ 0 < frameCount) → Bounded frameCount s' := by
    rintro t r rfl hv hscan
    refine ⟨htable,fun u f hu => ?_,fun u x p left hu => ?_⟩
    · change (update s.threads t r.2 u).victim = some f at hu
      by_cases hut : u = t
      · rw [hut,update_self] at hu
        exact hv f hu
      · rw [update_of_ne hut] at hu
        exact hb.victim u f hu
    · change update s.threads t r.2 u = _ at hu
      rcases of_update_eq hu with ⟨-,hu⟩ | ⟨-,hu⟩
      · exact hscan x p left hu
      · exact hb.scan u x p left hu
  cases step_case hs with
  | run hr =>
    obtain ⟨hv,hscan⟩ := advance_victim hb hr
    exact hmove _ _ rfl hv hscan
  | begins h =>
    exact hmove _ _ rfl (by simp [h.victim.1]) fun a p left hx => absurd hx (h.victim.2 a p left)
  | modify hpc | setCheckpointLsn => exact ⟨htable,hb.victim,hb.scan⟩

end Bounds

end BufferPool
end PgAm
