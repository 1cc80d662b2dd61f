import PgAm.PoolMoves

/-! No page write of the pool is lost or misdirected as long as evictions leave frames alone
whose flush is in flight. `evict_frame` does not check that, and the last section shows a run
in which the content of one page reaches the disk in the place of another. -/
namespace PgAm
namespace BufferPool

open Machine Function

variable {C : Type} {n : ℕ}

def Shared.file (s : Shared C) : (ℕ → C) × List (ℕ × C) × ℕ × ℕ × ℕ :=
  (s.base,s.writes,s.synced,s.flushGen,s.syncedGen)

/-- The data file: its content at opening and the page writes since. -/
def Shared.written (s : Shared C) : (ℕ → C) × List (ℕ × C) := (s.base,s.writes)

theorem Shared.written_of_file {s s' : Shared C} (h : s'.file = s.file) : s'.written = s.written :=
  congrArg (fun x => (x.1,x.2.1)) h

theorem Shared.writes_of_file {s s' : Shared C} (h : s'.file = s.file) : s'.writes = s.writes :=
  congrArg (fun x => x.2.1) h

section Files

variable {s : Pool C n} {s' : Pool C n} {fmt : PageFormat C} {frameCount : ℕ}

variable {sh : Shared C}

theorem tryPinResident_files {p f : ℕ} {contended : Bool} {sh' : Shared C}
    (h : tryPinResident sh p contended = some (f,sh')) :
    sh'.file = sh.file ∧ sh'.pageTable = sh.pageTable ∧ sh'.content = sh.content ∧
      ∀ g, (sh'.frameMeta g).dirty = (sh.frameMeta g).dirty := by
  obtain ⟨-,-,rfl⟩ := tryPinResident_some h
  refine ⟨rfl,rfl,rfl,fun g => ?_⟩
  by_cases hg : g = f
  · rw [hg,setMeta_self]
  · rw [setMeta_other _ _ hg]

variable {r : Shared C × Pc} {fault : Option StorageError}

theorem advanceFlush_files {wl : Bool} {o : Owner} {f page saved : ℕ} {st : Stage}
    (h : advanceFlush fmt sh wl o f page saved fault st = some r) :
    (r.1.writes = sh.writes ∨ st = .write ∧ r.1.writes = sh.writes ++ [(page,sh.content f)]) ∧
      r.1.pageTable = sh.pageTable := by
  cases st
  case write =>
    simp only [advanceFlush] at h
    split at h <;> cases h
    · exact ⟨.inr ⟨rfl,rfl⟩,rfl⟩
    · exact ⟨.inl rfl,rfl⟩
  all_goals
    simp only [advanceFlush] at h
    try split at h
    all_goals first | (cases h; exact ⟨.inl rfl,rfl⟩) | cases h

theorem Goes.files {pc : Pc} {lsn : ℕ} (h : Goes fmt frameCount s fault lsn pc r) :
    (r.1.writes = s.writes ∨ ∃ o f p saved, pc = .flushing o f p saved .write ∧
      r.1.writes = s.writes ++ [(p,s.content f)]) ∧
    (r.1.pageTable = s.pageTable ∨
      (∃ a p f old, pc = .unmap a p f old ∧ old ≠ PageId.invalid ∧
        r.1.pageTable = update s.pageTable old none) ∨
      ∃ a p f, pc = .insert a p f ∧ r.1.pageTable = update s.pageTable p (some f)) := by
  cases h with
  | flush h =>
    obtain ⟨hw | ⟨rfl,hw⟩,ht⟩ := advanceFlush_files h
    · exact ⟨.inl hw,.inl ht⟩
    · exact ⟨.inr ⟨_,_,_,_,rfl,hw⟩,.inl ht⟩
  | hit hpin =>
    obtain ⟨hfile,ht,-⟩ := tryPinResident_files hpin
    exact ⟨.inl (Shared.writes_of_file hfile),.inl ht⟩
  | unmap h0 => exact ⟨.inl rfl,.inr (.inl ⟨_,_,_,_,rfl,h0,rfl⟩)⟩
  | insert => exact ⟨.inl rfl,.inr (.inr ⟨_,_,_,rfl,rfl⟩)⟩
  | _ => exact ⟨.inl rfl,.inl rfl⟩

/-- Only the write section of `flush_frame` writes to the file; only evictions and installations
change the page table. -/
theorem step_files {a : Step C n} (hs : step fmt frameCount s a = some s') :
    (s'.writes = s.writes ∨ ∃ t o f p saved, s.threads t = .flushing o f p saved .write ∧
      s'.writes = s.writes ++ [(p,s.content f)]) ∧
    (s'.pageTable = s.pageTable ∨
      (∃ t a p f old, s.threads t = .unmap a p f old ∧ old ≠ PageId.invalid ∧
        s'.pageTable = update s.pageTable old none) ∨
      ∃ t a p f, s.threads t = .insert a p f ∧
        s'.pageTable = update s.pageTable p (some f)) := by
  cases a with
  | access t a p contended =>
    simp only [step] at hs
    split at hs
    case isFalse => cases hs
    repeat' split at hs
    all_goals cases hs
    case h_1 hpin => exact ⟨.inl (Shared.writes_of_file (tryPinResident_files hpin).1),.inl
      (tryPinResident_files hpin).2.1⟩
    all_goals exact ⟨.inl rfl,.inl rfl⟩
  | flush t p =>
    simp only [step] at hs
    repeat' split at hs
    all_goals cases hs
    all_goals exact ⟨.inl rfl,.inl rfl⟩
  | run t fault lsn =>
    simp only [step,Option.map_eq_some_iff] at hs
    obtain ⟨r,hr,rfl⟩ := hs
    obtain ⟨hw,ht⟩ := (goes hr).files
    exact ⟨hw.imp_right fun h => ⟨t,h⟩,ht.imp_right (.imp (fun h => ⟨t,h⟩) fun h => ⟨t,h⟩)⟩
  | modify t c =>
    simp only [step] at hs
    split at hs <;> cases hs
    exact ⟨.inl rfl,.inl rfl⟩
  | drop t =>
    simp only [step] at hs
    split at hs <;> cases hs <;> exact ⟨.inl rfl,.inl rfl⟩
  | setCheckpointLsn lsn =>
    cases hs
    exact ⟨.inl rfl,.inl rfl⟩

end Files

/-- As long as no eviction takes a frame whose flush is in flight, a page write carries the content
of the frame that caches the page, and a page that loses its frame is in the data file. -/
theorem page_writes_safe {fmt : PageFormat C} {frameCount : ℕ} {base : ℕ → C} {s s' : Pool C n}
    {a : Step C n} (h : Reach (step fmt frameCount) (· = opened base fmt) Clean s)
    (hs : step fmt frameCount s a = some s') :
    (∀ p c, s'.writes = s.writes ++ [(p,c)] →
      ∃ f, s.pageTable p = some f ∧ (s.frameMeta f).pageId = p ∧ c = s.content f) ∧
    (∀ p f, s.pageTable p = some f → s'.pageTable p ≠ some f → s.onDisk p = s.content f) := by
  have hi := reach_inv h
  obtain ⟨hw,ht⟩ := step_files hs
  refine ⟨fun p c hpc => ?_,fun p f hp hp' => ?_⟩
  · rcases hw with hw | ⟨t,o,f,p',saved,hpc',hw⟩
    · simp [hw] at hpc
    · have heq : (p',s.content f) = (p,c) := by simpa [hw] using hpc
      cases heq
      have hinv := hi.pc t
      rw [hpc'] at hinv
      have hm := hinv.mapped_of_flushing
      exact ⟨f,hm,(hi.table _ _ hm).1,rfl⟩
  · rcases ht with ht | ⟨t,a,q,g,old,hpc,hold,ht⟩ | ⟨t,a,q,g,hpc,ht⟩
    · exact absurd (ht ▸ hp) hp'
    · have hinv := hi.pc t
      rw [hpc] at hinv
      by_cases hpo : p = old
      · subst hpo
        obtain ⟨hmap,hcontent⟩ := hinv.2.2.2.2 hold
        have hfg : f = g := Option.some.inj (hp.symm.trans hmap)
        rw [hfg,hcontent]
      · exact absurd (by rw [ht,update_of_ne hpo]; exact hp) hp'
    · have hinv := hi.pc t
      rw [hpc] at hinv
      by_cases hpq : p = q
      · subst hpq
        exact absurd (hinv.1.missing ▸ hp) nofun
      · exact absurd (by rw [ht,update_of_ne hpq]; exact hp) hp'

def stampedPage : PageFormat (ℕ × ℕ) where
  zero := (0,0)
  pdLsn := Prod.fst
  setPdLsn := fun c l => (l,c.2)
  pdLsn_zero := rfl
  pdLsn_setPdLsn := fun _ _ => rfl

def blankPool {n : ℕ} : Pool (ℕ × ℕ) n := opened (fun _ => (0,0)) stampedPage

def createPage : List (Step (ℕ × ℕ) 3) :=
  .access 0 .newPage 1 false :: useNewPage id 0 [.modify 0 (5,11)]

/-- Thread 1 claims page 1 for a flush; thread 2 is about to remove its mapping. -/
def stealFrame : List (Step (ℕ × ℕ) 3) :=
  createPage ++ .flush 1 1 :: runs id 1 1 ++ .access 2 .newPage 2 false :: runs id 2 7

/-- Thread 2 gets the frame and fills it; thread 1 is about to write. -/
def reuseFrame : List (Step (ℕ × ℕ) 3) :=
  stealFrame ++ runs id 2 8 ++ .modify 2 (7,22) :: .drop 2 :: runs id 2 2 ++ runs id 1 2

/-- The next section of `t` takes the frame away from `p`, whose content is not on disk. -/
def losesPage (t : Fin 3) (p : ℕ) (s : Pool (ℕ × ℕ) 3) : Bool :=
  match step stampedPage 1 s (.run t none 0), s.pageTable p with
  | some s', some f => s'.pageTable p != some f && s.onDisk p != s.content f
  | _, _ => false

def misdirects (t : Fin 3) (p : ℕ) (s : Pool (ℕ × ℕ) 3) : Bool :=
  match step stampedPage 1 s (.run t none 0) with
  | some s' => s.pageTable p == none && s'.writes == s.writes ++ [(p,s.content 0)]
  | none => false

/-- The content of page 1 is dropped, and the flush then writes that of page 2 in its place. -/
theorem flush_in_flight_loses_page :
    (∃ s, Reach (step stampedPage 1) (· = blankPool) anyStep s ∧ losesPage 2 1 s = true) ∧
      ∃ s, Reach (step stampedPage 1) (· = blankPool) anyStep s ∧ misdirects 1 1 s = true :=
  ⟨@exists_reach _ _ (step stampedPage 1) (· = blankPool) anyStep _ blankPool rfl stealFrame
      (losesPage 2 1) (by decide +kernel),
    @exists_reach _ _ (step stampedPage 1) (· = blankPool) anyStep _ blankPool rfl reuseFrame
      (misdirects 1 1) (by decide +kernel)⟩

def writesNext (t : Fin 3) (p : ℕ) (c : ℕ × ℕ) (s : Pool (ℕ × ℕ) 3) : Bool :=
  match step stampedPage 1 s (.run t none 0) with
  | some s' => s'.writes == s.writes ++ [(p,c)]
  | none => false

theorem page_writes_safe_one_flush :
    ∃ s, Reach (step stampedPage 1) (· = blankPool) Clean s ∧ writesNext 1 1 (5,11) s = true ∧
      ∃ f, s.pageTable 1 = some f ∧ (s.frameMeta f).pageId = 1 ∧ (5,11) = s.content f := by
  have hrun := @exists_reach _ _ (step stampedPage 1) (· = blankPool) Clean _ blankPool rfl
    (createPage ++ .flush 1 1 :: runs id 1 3) (writesNext 1 1 (5,11)) (by decide +kernel)
  obtain ⟨s,hs,hp⟩ := hrun
  refine ⟨s,hs,hp,?_⟩
  unfold writesNext at hp
  split at hp
  · rename_i s' hstep
    exact (page_writes_safe hs hstep).1 1 (5,11) (beq_iff_eq.1 hp)
  · cases hp

end BufferPool
end PgAm
