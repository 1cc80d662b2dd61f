import PgAm.PoolSafety

/-! What the content latches guarantee in every run, whatever the evictions do: a writer is
alone on its frame, and the content a reader has sampled stays as it is. -/
namespace PgAm
namespace BufferPool

open Threads

variable {C : Type} {n : ℕ} {fmt : PageFormat C} {frameCount : ℕ}

structure Latches (s : Pool C n) : Prop where
  writer : ∀ f, Exclusive (fun pc => pc.writes = some f) s.threads
  reader : ∀ f, Apart (fun pc => pc.writes = some f) (fun pc => pc.reads = some f) s.threads

/-- What a section of thread `t` does to latches and contents. -/
structure Section (fmt : PageFormat C) (s : Pool C n) (t : Fin n) (lsn : ℕ)
    (r : Shared C × Pc) : Prop where
  writes : ∀ f, r.2.writes = some f → (s.threads t).writes = some f ∨ ¬s.latched f = true
  reads : ∀ f, r.2.reads = some f → (s.threads t).reads = some f ∨ ¬s.writeLatched f = true
  content : ∀ f, r.1.content f = s.content f ∨
    ¬s.latched f = true ∧ (r.1.content f = fmt.zero ∨ ∃ p, r.1.content f = s.onDisk p) ∨
    ∃ p, s.threads t = .fpiAppend p f ∧ r.1.content f = fmt.setPdLsn (s.content f) lsn
  written : r.1.written = s.written ∨ ∃ o f p saved, s.threads t = .flushing o f p saved .write ∧
    r.1.written = (s.base,s.writes ++ [(p,s.content f)])
  wal : ∀ o f p saved l, r.2 = .flushing o f p saved (.wal l) →
    l = fmt.pdLsn (s.content f) ∧ r.1 = s.toShared
  write : ∀ o f p saved, r.2 = .flushing o f p saved .write →
    ∃ l, s.threads t = .flushing o f p saved (.wal l) ∧ r.1 = s.toShared

def Pc.stage : Pc → Option Stage
  | .flushing _ _ _ _ st => some st
  | _ => none

def Pc.victim : Pc → Option ℕ
  | .probe _ _ _ f | .flushClaim (.evict ..) f | .flushing (.evict ..) f _ _ _
  | .evictFailed _ _ f _ | .unmap _ _ f _ | .reset _ _ f | .fill _ _ f | .load _ _ f
  | .sample _ _ f | .install _ _ f _ | .insert _ _ f => some f
  | _ => none

theorem Pc.stage_of_writes {pc : Pc} {f : ℕ} (hw : pc.writes = some f) : pc.stage = none := by
  cases pc <;> first | rfl | cases hw

theorem Pc.reads_of_writes {pc : Pc} {f : ℕ} (hw : pc.writes = some f) : pc.reads = none := by
  cases pc <;> simp_all [Pc.writes,Pc.reads]

section Sections

variable {s : Pool C n} {t : Fin n} {lsn : ℕ} {fault : Option StorageError} {r : Shared C × Pc}

theorem Section.quiet (hw : ∀ f, r.2.writes = some f → (s.threads t).writes = some f)
    (hr : ∀ f, r.2.reads = some f → (s.threads t).reads = some f)
    (hc : r.1.content = s.content) (hd : r.1.written = s.written)
    (hst : ∀ l, r.2.stage ≠ some (.wal l)) (hwr : r.2.stage ≠ some .write) :
    Section fmt s t lsn r :=
  ⟨fun f h => .inl (hw f h),fun f h => .inl (hr f h),fun f => .inl (congrFun hc f),
    .inl hd,fun _ _ _ _ l h => absurd (congrArg Pc.stage h) (hst l),
    fun _ _ _ _ h => absurd (congrArg Pc.stage h) hwr⟩

theorem afterPin_quiet (a : Access) (p f : ℕ) : (afterPin a p f).writes = none ∧
    (afterPin a p f).reads = none ∧ (afterPin a p f).stage = none := by
  cases a <;> exact ⟨rfl,rfl,rfl⟩

theorem afterPin_victim (a : Access) (p f : ℕ) : (afterPin a p f).victim = none ∧
    ∀ x q left, afterPin a p f ≠ .scan x q left := by
  cases a <;> exact ⟨rfl,nofun⟩

theorem afterFlush_quiet (o : Owner) (f : ℕ) (err : Option StorageError) :
    (afterFlush o f err).writes = none ∧ (afterFlush o f err).reads = none ∧
      (afterFlush o f err).stage = none := by
  cases o <;> cases err <;> exact ⟨rfl,rfl,rfl⟩

theorem Section.released (hc : r.1.content = s.content) (hd : r.1.written = s.written)
    (hw : r.2.writes = none) (hr : r.2.reads = none) : Section fmt s t lsn r := by
  have hst : ∀ st, r.2.stage = some st → ∀ l, st ≠ .wal l ∧ st ≠ .write := by
    intro st hst l
    generalize r.2 = pc at hr hst
    cases pc <;> cases hst
    cases st <;> simp_all [Pc.reads]
  exact .quiet (by simp [hw]) (by simp [hr]) hc hd (fun l h => (hst _ h l).1 rfl)
    fun h => (hst _ h 0).2 rfl

variable {f : ℕ}

theorem Section.loaded (hf : ¬s.latched f = true)
    (hother : ∀ g, g ≠ f → r.1.content g = s.content g)
    (hself : r.1.content f = fmt.zero ∨ ∃ p, r.1.content f = s.onDisk p)
    (hd : r.1.written = s.written) (hpc : r.2.writes = none ∧ r.2.reads = none) :
    Section fmt s t lsn r := by
  obtain ⟨hw,hr⟩ := hpc
  refine ⟨by simp [hw],by simp [hr],fun g => ?_,.inl hd,
    fun o f p saved l h => ?_,fun o f p saved h => ?_⟩
  · by_cases hg : g = f
    · exact hg ▸ .inr (.inl ⟨hf,hself⟩)
    · exact .inl (hother g hg)
  all_goals
    rw [h] at hr
    cases hr

theorem advanceFlush_section {o : Owner} {f page saved : ℕ} {st : Stage}
    (hpc : s.threads t = .flushing o f page saved st)
    (h : advanceFlush fmt s.toShared (s.writeLatched f) o f page saved fault st = some r) :
    Section fmt s t lsn r := by
  cases st <;> simp only [advanceFlush] at h
  case latch =>
    split at h <;> cases h
    rename_i hfree
    exact ⟨by rintro _ ⟨⟩,fun g hg => .inr (by cases hg; exact hfree),fun _ => .inl rfl,
      .inl rfl,fun o f p saved l heq => by cases heq; exact ⟨rfl,rfl⟩,
      by rintro _ _ _ _ ⟨⟩⟩
  case wal l =>
    split at h <;> cases h
    · exact ⟨by rintro _ ⟨⟩,fun g hg => .inl (by rw [hpc]; exact hg),fun _ => .inl rfl,
        .inl rfl,by rintro _ _ _ _ _ ⟨⟩,
        fun o f p saved heq => by cases heq; exact ⟨l,hpc,rfl⟩⟩
    · exact .quiet (by rintro _ ⟨⟩) (fun g hg => by rw [hpc]; exact hg) rfl rfl (by rintro _ ⟨⟩)
        (by rintro ⟨⟩)
  case write =>
    split at h <;> cases h
    · exact ⟨by rintro _ ⟨⟩,fun g hg => .inl (by rw [hpc]; exact hg),fun _ => .inl rfl,
        .inr ⟨o,f,page,saved,hpc,rfl⟩,by rintro _ _ _ _ _ ⟨⟩,by rintro _ _ _ _ ⟨⟩⟩
    · exact .quiet (by rintro _ ⟨⟩) (fun g hg => by rw [hpc]; exact hg) rfl rfl (by rintro _ ⟨⟩)
        (by rintro ⟨⟩)
  case bump =>
    cases h
    exact .quiet (by rintro _ ⟨⟩) (fun g hg => by rw [hpc]; exact hg) rfl rfl (by rintro _ ⟨⟩)
      (by rintro ⟨⟩)
  case done | failed =>
    cases h
    obtain ⟨hw,hr,-⟩ := afterFlush_quiet o f _
    exact .released rfl rfl hw hr
  all_goals
    try split at h
    all_goals cases h; exact .released rfl rfl rfl rfl

theorem Section.writer (hpc : (s.threads t).writes = some f) (hw : r.2.writes = some f)
    (hc : r.1.content = s.content) (hd : r.1.written = s.written) : Section fmt s t lsn r := by
  have hst := Pc.stage_of_writes hw
  refine .quiet (fun g hg => by rw [hpc,← hw]; exact hg) (fun g hg => ?_) hc hd (by simp [hst])
    (by simp [hst])
  rw [Pc.reads_of_writes hw] at hg
  cases hg

theorem Section.latchWrite (hfree : ¬s.latched f = true) (hw : r.2.writes = some f)
    (hc : r.1.content = s.content) (hd : r.1.written = s.written) : Section fmt s t lsn r := by
  have hst := Pc.stage_of_writes hw
  have hr := Pc.reads_of_writes hw
  exact ⟨fun g hg => .inr (by cases hw.symm.trans hg; exact hfree),by simp [hr],
    fun g => .inl (congrFun hc g),.inl hd,
    fun _ _ _ _ _ h => absurd (hst.symm.trans (congrArg Pc.stage h)) nofun,
    fun _ _ _ _ h => absurd (hst.symm.trans (congrArg Pc.stage h)) nofun⟩

theorem advance_section (h : advance fmt frameCount s t fault lsn = some r) :
    Section fmt s t lsn r := by
  have hg := goes h
  generalize hpc : s.threads t = pc at hg
  cases hg with
  | @clean o f =>
    obtain ⟨hw,hr,-⟩ := afterFlush_quiet o f none
    exact .released rfl rfl hw hr
  | flush h => exact advanceFlush_section hpc h
  | @hit a p f _ hpin =>
    obtain ⟨hw,hr,-⟩ := afterPin_quiet a p f
    obtain ⟨hfile,-,hc,-⟩ := tryPinResident_files hpin
    exact .released hc (Shared.written_of_file hfile) hw hr
  | fillNew _ hfree | fill _ hfree =>
    exact .loaded hfree (fun _ hg => setContent_other _ _ hg) (.inl (setContent_self ..)) rfl
      ⟨rfl,rfl⟩
  | @load _ p _ hfree =>
    exact .loaded hfree (fun _ hg => setContent_other _ _ hg) (.inr ⟨p,setContent_self ..⟩) rfl
      ⟨rfl,rfl⟩
  | @insert a p f =>
    obtain ⟨hw,hr,-⟩ := afterPin_quiet a p f
    exact .released rfl rfl hw hr
  | pin hfree =>
    exact ⟨by rintro _ ⟨⟩,fun g hg => .inr (by cases hg; exact hfree),fun _ => .inl rfl,
      .inl rfl,by rintro _ _ _ _ _ ⟨⟩,by rintro _ _ _ _ ⟨⟩⟩
  | pinNew hfree | pinMut _ hfree => exact .latchWrite hfree rfl rfl rfl
  | markDirty | markDirtyOnly | fpiCheck | fpiNeeded | fpiSpared | fpiMeta =>
    exact .writer (by rw [hpc]; rfl) rfl rfl rfl
  | @fpiAppend p f =>
    refine ⟨fun g hg => .inl (by rw [hpc]; exact hg),by rintro _ ⟨⟩,fun g => ?_,
      .inl rfl,by rintro _ _ _ _ _ ⟨⟩,by rintro _ _ _ _ ⟨⟩⟩
    by_cases hg : g = f
    · exact .inr (.inr ⟨p,hg ▸ hpc,by rw [hg]; exact setContent_self ..⟩)
    · exact .inl (setContent_other _ _ hg)
  | _ => exact .released rfl rfl rfl rfl

theorem writeLatched_eq_false (h : ¬s.writeLatched f = true) (u : Fin n) :
    (s.threads u).writes ≠ some f := by
  simp only [Pool.writeLatched,decide_eq_true_eq,not_exists] at h
  exact h u

theorem Latches.move (h : Latches s) (hr : Section fmt s t lsn r) : Latches (s.setThread t r) where
  writer f := (h.writer f).update fun hw => (hr.writes f hw).imp_right fun hf u =>
    (latched_eq_false hf u).1
  reader f := (h.reader f).update
    (fun hw => (hr.writes f hw).imp_right fun hf u => (latched_eq_false hf u).2)
    (fun hrd => (hr.reads f hrd).imp_right fun hf u => writeLatched_eq_false hf u)
    fun hw => by rw [Pc.reads_of_writes hw]; nofun

def Starts (s : Pool C n) (a : Step C n) (t : Fin n) : Prop :=
  (∃ x p contended, a = .access t x p contended) ∨ (∃ p, a = .flush t p) ∨
    a = .drop t ∧ (s.threads t).free = false ∧ ∀ o f, s.threads t ≠ .flushClaim o f

structure Begins (s : Pool C n) (a : Step C n) (t : Fin n) (r : Shared C × Pc) : Prop where
  starts : Starts s a t
  stage : (s.threads t).stage = none
  stage' : r.2.stage = none
  content : r.1.content = s.content
  file : r.1.file = s.file
  pageTable : r.1.pageTable = s.pageTable
  dirty : ∀ f, (r.1.frameMeta f).dirty = (s.frameMeta f).dirty
  unsaved : ∀ f, (s.threads t).unsaved = some f → r.2.unsaved = some f
  guard : ∀ p f, s.threads t = .writing p f → a = .drop t
  victim : r.2.victim = none ∧ ∀ x p left, r.2 ≠ .scan x p left
  writes : r.2.writes = none
  reads : r.2.reads = none

/-- A section, the beginning of a call, a drop, a change under a guard, or a publication. -/
inductive StepCase (fmt : PageFormat C) (frameCount : ℕ) (s : Pool C n) :
    Step C n → Pool C n → Prop
  | run {t : Fin n} {fault : Option StorageError} {lsn : ℕ} {r : Shared C × Pc}
      (hr : advance fmt frameCount s t fault lsn = some r) :
      StepCase fmt frameCount s (.run t fault lsn) (s.setThread t r)
  | begins {a : Step C n} {t : Fin n} {r : Shared C × Pc} (h : Begins s a t r) :
      StepCase fmt frameCount s a (s.setThread t r)
  | modify {t : Fin n} {p f : ℕ} {c : C} (hpc : s.threads t = .writing p f) :
      StepCase fmt frameCount s (.modify t c) { s with toShared := s.setContent f c }
  | setCheckpointLsn {lsn : ℕ} :
      StepCase fmt frameCount s (.setCheckpointLsn lsn) { s with checkpointLsn := lsn }

variable {a : Step C n}

theorem Begins.section (h : Begins s a t r) : Section fmt s t lsn r :=
  .released h.content (Shared.written_of_file h.file) h.writes h.reads

theorem Begins.of_free {a : Step C n} {pc : Pc} (ha : Starts s a t)
    (hfree : (s.threads t).free = true) (hw : pc.writes = none) (hr : pc.reads = none)
    (hst : pc.stage = none)
    (hv : pc.victim = none ∧ ∀ x p left, pc ≠ .scan x p left) : Begins s a t (s.toShared,pc) := by
  have hpc : (s.threads t).stage = none ∧ (s.threads t).unsaved = none ∧
      ∀ p f, s.threads t ≠ .writing p f := by
    generalize s.threads t = q at hfree
    cases q <;> first | cases hfree; done | exact ⟨rfl,rfl,nofun⟩
  exact ⟨ha,hpc.1,hst,rfl,rfl,rfl,fun _ => rfl,by simp [hpc.2.1],
    fun p f h => absurd h (hpc.2.2 p f),hv,hw,hr⟩

theorem step_case {s' : Pool C n} (hs : step fmt frameCount s a = some s') :
    StepCase fmt frameCount s a s' := by
  cases a with
  | access t a p contended =>
    obtain ⟨hfree,hs⟩ := Option.ite_none_right_eq_some.1 hs
    split at hs
    · split at hs <;> cases hs
      exact .begins (.of_free (.inl ⟨_,_,_,rfl⟩) hfree rfl rfl rfl ⟨rfl,by rintro _ _ _ ⟨⟩⟩)
    · split at hs
      · cases hs
        exact .begins (.of_free (.inl ⟨_,_,_,rfl⟩) hfree rfl rfl rfl ⟨rfl,by rintro _ _ _ ⟨⟩⟩)
      · split at hs
        · rename_i f sh hpin
          cases hs
          obtain ⟨hfile,htab,hc,hd⟩ := tryPinResident_files hpin
          obtain ⟨hw,hr,hf⟩ := afterPin_quiet a p f
          obtain ⟨h0,h1,-,-,-,-,-,h7,h8,-,-,-⟩ := @Begins.of_free _ _ s t
            (.access t a p contended) .idle
            (.inl ⟨_,_,_,rfl⟩) hfree rfl rfl rfl ⟨rfl,by rintro _ _ _ ⟨⟩⟩
          exact .begins ⟨h0,h1,hf,hc,hfile,htab,hd,fun g hg => absurd (h7 g hg) (by rintro ⟨⟩),h8,
            afterPin_victim a p f,hw,hr⟩
        · cases hs
          exact .begins (.of_free (.inl ⟨_,_,_,rfl⟩) hfree rfl rfl rfl ⟨rfl,by rintro _ _ _ ⟨⟩⟩)
  | flush t p =>
    obtain ⟨hfree,hs⟩ := Option.ite_none_right_eq_some.1 hs
    split at hs
    · cases hs
      exact .begins (.of_free (.inr (.inl ⟨_,rfl⟩)) hfree rfl rfl rfl ⟨rfl,by rintro _ _ _ ⟨⟩⟩)
    · split at hs <;> cases hs <;>
        exact .begins (.of_free (.inr (.inl ⟨_,rfl⟩)) hfree rfl rfl rfl ⟨rfl,by rintro _ _ _ ⟨⟩⟩)
  | run t fault lsn =>
    simp only [step,Option.map_eq_some_iff] at hs
    obtain ⟨r,hr,rfl⟩ := hs
    exact .run hr
  | modify t c =>
    simp only [step] at hs
    split at hs <;> cases hs
    exact .modify ‹_›
  | drop t =>
    simp only [step] at hs
    split at hs <;> cases hs <;> rename_i hpc <;> refine .begins ?_
    · exact ⟨.inr (.inr ⟨rfl,by rw [hpc]; rfl,by simp [hpc]⟩),by rw [hpc]; rfl,rfl,rfl,rfl,rfl,
        fun _ => rfl,by rw [hpc]; rintro _ ⟨⟩,fun _ _ _ => rfl,⟨rfl,by rintro _ _ _ ⟨⟩⟩,rfl,rfl⟩
    · exact ⟨.inr (.inr ⟨rfl,by rw [hpc]; rfl,by simp [hpc]⟩),by rw [hpc]; rfl,rfl,rfl,rfl,rfl,
        fun _ => rfl,by rw [hpc]; exact fun _ h => h,fun _ _ _ => rfl,⟨rfl,by rintro _ _ _ ⟨⟩⟩,
        rfl,rfl⟩
  | setCheckpointLsn lsn =>
    cases hs
    exact .setCheckpointLsn

/-- What another thread has latched for reading stays as it is. -/
theorem Section.content_of_reader (hr : Section fmt s t lsn r) (h : Latches s) {u : Fin n}
    (hu : (s.threads u).reads = some f) : r.1.content f = s.content f := by
  rcases hr.content f with hc | ⟨hf,-⟩ | ⟨p,hpc,-⟩
  · exact hc
  · exact absurd hu (latched_eq_false hf u).2
  · exact absurd hu (h.reader f t u (by rw [hpc]; rfl))

end Sections

end BufferPool
end PgAm
