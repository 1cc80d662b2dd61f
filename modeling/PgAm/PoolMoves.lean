import PgAm.PoolInvariant

/-! Every step of the pool is a move in the sense of the invariant, the eviction of a frame
with a flush in flight excepted. -/
namespace PgAm
namespace BufferPool

open Threads Machine Function

variable {C : Type} {n : ℕ} {fmt : PageFormat C} {frameCount : ℕ}

@[simp] theorem setMeta_self (s : Shared C) (f : ℕ) (m : FrameMeta) :
    (s.setMeta f m).frameMeta f = m := update_self ..

theorem setMeta_other (s : Shared C) {f g : ℕ} (m : FrameMeta) (h : g ≠ f) :
    (s.setMeta f m).frameMeta g = s.frameMeta g := update_of_ne h ..

theorem forall_setMeta {s : Shared C} {f : ℕ} {m : FrameMeta} (P : ℕ → FrameMeta → Prop)
    (hf : P f m) (h : ∀ g, P g (s.frameMeta g)) (g : ℕ) : P g ((s.setMeta f m).frameMeta g) := by
  by_cases hg : g = f
  · subst hg
    rw [setMeta_self]
    exact hf
  · rw [setMeta_other s m hg]
    exact h g

@[simp] theorem setContent_frameMeta (s : Shared C) (f : ℕ) (c : C) :
    (s.setContent f c).frameMeta = s.frameMeta := rfl

@[simp] theorem setContent_self (s : Shared C) (f : ℕ) (c : C) :
    (s.setContent f c).content f = c := update_self ..

theorem setContent_other (s : Shared C) {f g : ℕ} (c : C) (h : g ≠ f) :
    (s.setContent f c).content g = s.content g := update_of_ne h ..

theorem onDisk_write (s : Shared C) (p : ℕ) (c : C) :
    ({ s with writes := s.writes ++ [(p,c)] } : Shared C).onDisk = update s.onDisk p c := by
  simp [Shared.onDisk,List.foldl_append]

/-- A step that takes no pin, latch or claim. -/
structure Pc.Passes (pc pc' : Pc) : Prop where
  allocating : pc'.allocating = true → pc.allocating = true
  writes : ∀ f, pc'.writes = some f → pc.writes = some f
  reads : ∀ f, pc'.reads = some f → pc.reads = some f
  inFlight : ∀ f, pc'.inFlight.map Prod.fst = some f → pc.inFlight.map Prod.fst = some f
  pinsOn : ∀ f, pc'.pinsOn f = pc.pinsOn f
  homeless : pc.homeless = none
  unmap : ∀ a q f p, pc = .unmap a q f p → pc'.homeless = some f
  unsaved : ∀ f, pc.unsaved = some f → pc'.unsaved = some f
  preWrite : ∀ f, pc.preWrite = some f → pc'.preWrite = some f

structure Same (s s' : Shared C) : Prop where
  frameMeta : s'.frameMeta = s.frameMeta
  content : s'.content = s.content
  pageTable : s'.pageTable = s.pageTable
  onDisk : s'.onDisk = s.onDisk

theorem Same.rfl {s : Shared C} : Same s s := ⟨.refl _,.refl _,.refl _,.refl _⟩

variable {s s' : Shared C}

theorem Same.unmapped (h : Same s s') {f : ℕ} (hu : Unmapped s f) : Unmapped s' f := by
  intro q
  rw [h.pageTable]
  exact hu q

theorem Same.effect (h : Same s s') (pc : Pc) : Effect s s' pc where
  mapped p f hp := .inl (by rw [h.pageTable]; exact hp)
  inserted p f hp := .inl (by rw [← h.pageTable]; exact hp)
  evicting f hf := .inl (by rw [h.frameMeta]; exact hf)
  pinCount f _ hf := .inl (by rw [h.frameMeta]; exact hf)
  clean f hf := .inl (by rw [h.frameMeta]; exact hf)
  unclaimed f hf := .inl (by rw [h.frameMeta]; exact hf)
  claimed f hf := .inl (by rw [h.frameMeta]; exact hf)
  pageId f := .inl (by rw [h.frameMeta])
  unused f hf _ := .inl (by rw [h.frameMeta]; exact hf)
  content f := .inl (by rw [h.content])
  onDisk p := .inl (by rw [h.onDisk])

/-- A permitted change of the meta data of one frame, by a thread that leaves `pc` for
`pc'`. -/
structure MetaChange (s : Shared C) (f : ℕ) (m : FrameMeta) (pc pc' : Pc) : Prop where
  evicting : (s.frameMeta f).evicting = true → m.evicting = true ∨ pc.allocating = true
  pinCount : (s.frameMeta f).evicting = true → (s.frameMeta f).pinCount = 0 →
    m.pinCount = 0 ∨ pc.allocating = true
  clean : (s.frameMeta f).dirty = false → m.dirty = false ∨
    pc.pinned.map Prod.snd = some f ∨ pc.inFlight.map Prod.fst = some f
  unclaimed : (s.frameMeta f).flushing = false → m.flushing = false ∨
    (s.frameMeta f).dirty = true
  claimed : (s.frameMeta f).flushing = true → m.flushing = true ∨
    pc.inFlight.map Prod.fst = some f ∨ ∃ a p, pc = .reset a p f
  pageId : m.pageId = (s.frameMeta f).pageId ∨ (pc.allocating = true ∧ Unmapped s f)
  unused : s.frameMeta f = FrameMeta.default → Unmapped s f →
    m = FrameMeta.default ∨ pc.allocating = true
  dirty : ¬Unmapped s f → (s.frameMeta f).dirty = true →
    m.dirty = true ∨ pc'.preWrite = some f
  renamed : m.pageId = (s.frameMeta f).pageId ∨ m.pageId = PageId.invalid ∨
    pc'.homeless = some f

theorem MetaChange.effect {s : Shared C} {f : ℕ} {m : FrameMeta} {pc pc' : Pc}
    (h : MetaChange s f m pc pc') : Effect s (s.setMeta f m) pc :=
  { Same.rfl.effect pc with
    evicting := forall_setMeta (fun g m => (s.frameMeta g).evicting = true →
      m.evicting = true ∨ _) h.evicting fun _ h => .inl h
    pinCount := forall_setMeta (fun g m => (s.frameMeta g).evicting = true →
      (s.frameMeta g).pinCount = 0 → m.pinCount = 0 ∨ _) h.pinCount fun _ _ h => .inl h
    clean := forall_setMeta (fun g m => (s.frameMeta g).dirty = false → m.dirty = false ∨
      pc.pinned.map Prod.snd = some g ∨ pc.inFlight.map Prod.fst = some g) h.clean fun _ h => .inl h
    unclaimed := forall_setMeta (fun g m => (s.frameMeta g).flushing = false →
      m.flushing = false ∨ (s.frameMeta g).dirty = true) h.unclaimed fun _ h => .inl h
    claimed := forall_setMeta (fun g m => (s.frameMeta g).flushing = true → m.flushing = true ∨
      pc.inFlight.map Prod.fst = some g ∨ ∃ a p, pc = .reset a p g) h.claimed fun _ h => .inl h
    pageId := forall_setMeta (fun g m => m.pageId = (s.frameMeta g).pageId ∨
      pc.allocating = true ∧ Unmapped s g) h.pageId fun _ => .inl rfl
    unused := forall_setMeta (fun g m => s.frameMeta g = FrameMeta.default → Unmapped s g →
      m = FrameMeta.default ∨ _) h.unused fun _ h _ => .inl h }

section Moves

variable {s : Pool C n} {t : Fin n} {sh : Shared C} {pc pc' : Pc}

theorem Move.same (hpc : s.threads t = pc) (hs : Same s.toShared sh) (hinv : PcInv sh pc')
    (halloc : pc'.allocating = true →
      pc.allocating = true ∨ ∀ u, ¬(s.threads u).allocating = true)
    (hwrites : ∀ f, pc'.writes = some f → pc.writes = some f ∨
      ∀ u, (s.threads u).writes ≠ some f ∧ (s.threads u).reads ≠ some f)
    (hreads : ∀ f, pc'.reads = some f → pc.reads = some f ∨ ∀ u, (s.threads u).writes ≠ some f)
    (hflight : ∀ f, pc'.inFlight.map Prod.fst = some f → pc.inFlight.map Prod.fst = some f)
    (hpins : ∀ f, pc'.pinsOn f = pc.pinsOn f) (hhome : pc.homeless = none)
    (hunmap : ∀ a q f p, pc = .unmap a q f p → pc'.homeless = some f)
    (hunsaved : ∀ f, pc.unsaved = some f → pc'.unsaved = some f)
    (hpre : ∀ f, pc.preWrite = some f → pc'.preWrite = some f) : Move s t (sh,pc') where
  effect := hs.effect _
  pc := hinv
  alloc := by rw [hpc]; exact halloc
  writes := by rw [hpc]; exact hwrites
  reads := by rw [hpc]; exact hreads
  claim f hf := .inl (by rw [hpc]; exact hflight f hf)
  pins f := by rw [hpc,hs.frameMeta,hpins f]
  table p f hp := .inl (by rw [← hs.pageTable]; exact hp)
  unmapped := by rw [hpc]; exact hunmap
  housed f hf := by rw [hpc,hhome] at hf; cases hf
  renamed f := .inl (by rw [hs.frameMeta])
  dirty f _ hf := .inl (by rw [hs.frameMeta]; exact hf)
  written f _ := .inl (by rw [hs.content])
  flushed f p _ := .inl (by rw [hs.onDisk])
  unsaved f hf := .inl (hunsaved f (hpc ▸ hf))
  preWrite f p hf _ := .inl (hpre f (hpc ▸ hf))

theorem Move.pass (hpc : s.threads t = pc) (hs : Same s.toShared sh) (hinv : PcInv sh pc')
    (hp : pc.Passes pc') : Move s t (sh,pc') :=
  .same hpc hs hinv (fun h => .inl (hp.allocating h)) (fun f h => .inl (hp.writes f h))
    (fun f h => .inl (hp.reads f h)) hp.inFlight hp.pinsOn hp.homeless hp.unmap hp.unsaved
    hp.preWrite

/-- A step that changes the meta data of one frame. -/
theorem Move.setMeta {f : ℕ} {m : FrameMeta} (hpc : s.threads t = pc)
    (hinv : PcInv (s.toShared.setMeta f m) pc') (hc : MetaChange s.toShared f m pc pc')
    (halloc : pc'.allocating = true → pc.allocating = true)
    (hwrites : ∀ g, pc'.writes = some g → pc.writes = some g)
    (hreads : ∀ g, pc'.reads = some g → pc.reads = some g)
    (hclaim : ∀ g, pc'.inFlight.map Prod.fst = some g →
      pc.inFlight.map Prod.fst = some g ∨ (s.frameMeta g).flushing = false)
    (hpin : m.pinCount + pc.pinsOn f = (s.frameMeta f).pinCount + pc'.pinsOn f)
    (hpins : ∀ g, g ≠ f → pc'.pinsOn g = pc.pinsOn g)
    (hunmap : ∀ a q g p, pc ≠ .unmap a q g p)
    (hhome : ∀ g, pc.homeless = some g → pc'.homeless = some g ∨
      (g = f ∧ m.pageId = PageId.invalid))
    (hunsaved : ∀ g, pc.unsaved = some g → pc'.unsaved = some g ∨ (g = f ∧ m.dirty = true))
    (hpre : ∀ g p, pc.preWrite = some g → pc.inFlight = some (g,p) → pc'.preWrite = some g ∨
      (g = f ∧ m.dirty = true) ∨ s.content g = s.onDisk p) :
    Move s t (s.toShared.setMeta f m,pc') where
  effect := by rw [hpc]; exact hc.effect
  pc := hinv
  alloc h := .inl (by rw [hpc]; exact halloc h)
  writes g h := .inl (by rw [hpc]; exact hwrites g h)
  reads g h := .inl (by rw [hpc]; exact hreads g h)
  claim := by rw [hpc]; exact hclaim
  pins g := by
    rw [hpc]
    by_cases hg : g = f
    · subst hg
      rw [setMeta_self]
      exact hpin
    · rw [setMeta_other _ m hg,hpins g hg]
  table p g hp := .inl hp
  unmapped a q g p h := absurd (hpc.symm.trans h) (hunmap a q g p)
  housed g h := by
    rw [hpc] at h
    rcases hhome g h with h' | ⟨rfl,h'⟩
    · exact .inl h'
    · exact .inr (.inl (by rw [setMeta_self]; exact h'))
  renamed := forall_setMeta (fun g m => m.pageId = (s.frameMeta g).pageId ∨
    m.pageId = PageId.invalid ∨ pc'.homeless = some g) hc.renamed fun _ => .inl rfl
  dirty := forall_setMeta (fun g m => ¬Unmapped s.toShared g → (s.frameMeta g).dirty = true →
    m.dirty = true ∨ pc'.preWrite = some g) hc.dirty fun _ _ h => .inl h
  written g _ := .inl rfl
  flushed g p _ := .inl rfl
  unsaved g h := by
    rw [hpc] at h
    rcases hunsaved g h with h' | ⟨rfl,h'⟩
    · exact .inl h'
    · exact .inr (by rw [setMeta_self]; exact h')
  preWrite g p h hf := by
    rw [hpc] at h hf
    rcases hpre g p h hf with h' | ⟨rfl,h'⟩ | h'
    · exact .inl h'
    · exact .inr (.inl (by rw [setMeta_self]; exact h'))
    · exact .inr (.inr h')

theorem Move.setMetaPass {f : ℕ} {m : FrameMeta} (hpc : s.threads t = pc)
    (hinv : PcInv (s.toShared.setMeta f m) pc') (hc : MetaChange s.toShared f m pc pc')
    (hp : pc.Passes pc') (hpin : m.pinCount = (s.frameMeta f).pinCount)
    (hunmap : ∀ a q g p, pc ≠ .unmap a q g p) : Move s t (s.toShared.setMeta f m,pc') :=
  .setMeta hpc hinv hc hp.allocating hp.writes hp.reads (fun g h => .inl (hp.inFlight g h))
    (by rw [hpin,hp.pinsOn]) (fun g _ => hp.pinsOn g) hunmap (by simp [hp.homeless])
    (fun g h => .inl (hp.unsaved g h)) fun g _ h _ => .inl (hp.preWrite g h)

theorem Move.setContent {f : ℕ} {c : C} (hpc : s.threads t = pc)
    (hinv : PcInv (s.toShared.setContent f c) pc')
    (hc : (pc.writes = some f ∧ pc'.unsaved = some f) ∨
      (pc.allocating = true ∧ Unmapped s.toShared f))
    (hp : pc.Passes pc') : Move s t (s.toShared.setContent f c,pc') where
  effect := by
    rw [hpc]
    refine { Same.rfl.effect pc with content := fun g => ?_ }
    by_cases hg : g = f
    · subst hg
      exact .inr (hc.imp (fun h => h.1) id)
    · exact .inl (setContent_other _ c hg)
  pc := hinv
  alloc h := .inl (by rw [hpc]; exact hp.allocating h)
  writes g h := .inl (by rw [hpc]; exact hp.writes g h)
  reads g h := .inl (by rw [hpc]; exact hp.reads g h)
  claim g h := .inl (by rw [hpc]; exact hp.inFlight g h)
  pins g := by rw [hpc,setContent_frameMeta,hp.pinsOn]
  table p g h := .inl h
  unmapped := by rw [hpc]; exact hp.unmap
  housed g h := by rw [hpc,hp.homeless] at h; cases h
  renamed g := .inl rfl
  dirty g _ h := .inl h
  written g h := by
    rw [hpc] at h
    by_cases hg : g = f
    · subst hg
      rcases hc with hc | hc
      · exact .inr hc.2
      · have ha := hc.1
        cases pc <;> simp [Pc.allocating] at ha <;> cases h
    · exact .inl (setContent_other _ c hg)
  flushed g p _ := .inl rfl
  unsaved g h := .inl (hp.unsaved g (hpc ▸ h))
  preWrite g p h _ := .inl (hp.preWrite g (hpc ▸ h))

theorem Move.unmapPage {a : Access} {p f old : ℕ} (hpc : s.threads t = .unmap a p f old)
    (hinv : PcInv s.toShared (.unmap a p f old)) (hold : s.pageTable old = some f)
    (htable : ∀ q, s.pageTable q = some f → q = old) :
    Move s t ({ s.toShared with pageTable := update s.pageTable old none },
      .reset a p f) := by
  obtain ⟨hw,hv,hs,hid,-⟩ := hinv
  have hsub : ∀ q g, update s.pageTable old none q = some g → s.pageTable q = some g := by
    intro q g hq
    obtain ⟨-,⟨⟩⟩ | ⟨-,hq⟩ := of_update_eq hq
    exact hq
  refine ⟨{ Same.rfl.effect _ with
      mapped := fun q g h => ?_, inserted := fun q g h => .inl (hsub q g h) },
    ⟨⟨hw.valid,?_⟩,{ hv with },{ hs with },fun q hq => ?_⟩,fun _ => .inl (by rw [hpc]; rfl),nofun,
    nofun,nofun,fun g => by rw [hpc]; rfl,fun q g h => .inl (hsub q g h),fun b q g p' h => ?_,
    fun g h => ?_,
    fun _ => .inl rfl,fun _ _ h => .inl h,fun g h => ?_,fun g q h => ?_,fun g h => ?_,
    fun g q h => ?_⟩
  · by_cases hqo : q = old
    · subst hqo
      rw [hold,Option.some.injEq] at h
      exact .inr ⟨a,p,by rw [hpc,h]⟩
    · refine .inl ?_
      change update s.pageTable old none q = some g
      rwa [update_of_ne hqo]
  · change update s.pageTable old none p = none
    rcases eq_or_ne p old with rfl | hpo
    · exact update_self ..
    · rw [update_of_ne hpo]
      exact hw.missing
  · have hq' : update s.pageTable old none q = some f := hq
    have hqo := htable q (hsub q f hq')
    rw [hqo,update_self] at hq'
    cases hq'
  · rw [hpc] at h
    cases h
    rfl
  all_goals
    rw [hpc] at h
    cases h

theorem Move.insertPage {a : Access} {p f : ℕ} (hpc : s.threads t = .insert a p f)
    (hinv : PcInv s.toShared (.insert a p f)) (hinv' : ∀ sh : Shared C,
      sh.pageTable p = some f → PcInv sh pc')
    (hroles : pc'.allocating = false ∧ pc'.writes = none ∧ pc'.reads = none ∧
      pc'.inFlight = none ∧ ∀ g, pc'.pinsOn g = if g = f then 1 else 0)
    (hnew : a = .newPage → pc'.unsaved = some f) :
    Move s t ({ s.toShared with pageTable := update s.pageTable p (some f) },pc') := by
  obtain ⟨hw,hid,hs,hun,hc⟩ := hinv
  obtain ⟨h1,h2,h3,h4,h5⟩ := hroles
  have hself : update s.pageTable p (some f) p = some f := update_self ..
  have hother : ∀ q, q ≠ p → update s.pageTable p (some f) q = s.pageTable q :=
    fun q hq => update_of_ne hq ..
  refine ⟨{ Same.rfl.effect _ with
      mapped := fun q g h => .inl ?_, inserted := fun q g h => ?_ },hinv' _ hself,by simp [h1],
      by simp [h2],by simp [h3],
    by simp [h4],fun g => ?_,fun q g h => ?_,fun b q g p' h => ?_,fun g h => ?_,
    fun _ => .inl rfl,fun _ _ h => .inl h,fun g h => ?_,fun g q h => ?_,fun g h => ?_,
    fun g q h => ?_⟩
  · change update s.pageTable p (some f) q = some g
    rw [hother q fun hq => by rw [hq,hw.missing] at h; cases h]
    exact h
  · have h' : update s.pageTable p (some f) q = some g := h
    by_cases hq : q = p
    · subst hq
      rw [hself,Option.some.injEq] at h'
      exact .inr ⟨a,by rw [hpc,h']⟩
    · rw [hother q hq] at h'
      exact .inl h'
  · rw [hpc,h5]
    simp [Pc.pinsOn,eq_comm]
  · have h' : update s.pageTable p (some f) q = some g := h
    by_cases hq : q = p
    · subst hq
      rw [hself,Option.some.injEq] at h'
      subst h'
      exact .inr ⟨⟨hid,hw.valid⟩,hc.elim (fun ha => .inr (hnew ha)) .inl⟩
    · rw [hother q hq] at h'
      exact .inl h'
  · rw [hpc] at h
    cases h
  · rw [hpc] at h
    cases h
    refine .inr (.inr ?_)
    change update s.pageTable p (some f) (s.frameMeta f).pageId = some f
    rw [hid,hself]
  all_goals
    rw [hpc] at h
    cases h

end Moves

section Changes

variable {s : Shared C} {f p : ℕ} {m : FrameMeta} {pc pc' : Pc}

theorem MetaChange.held (hmap : s.pageTable p = some f)
    (hpc : pc.pinned = some (p,f) ∨ pc.inFlight = some (f,p))
    (hev : m.evicting = (s.frameMeta f).evicting) (hpin : m.pinCount = (s.frameMeta f).pinCount)
    (hfl : m.flushing = (s.frameMeta f).flushing ∨ m.flushing = false ∧ pc.inFlight = some (f,p))
    (hid : m.pageId = (s.frameMeta f).pageId)
    (hd : (s.frameMeta f).dirty = true → m.dirty = true) : MetaChange s f m pc pc' where
  evicting h := .inl (hev.trans h)
  pinCount _ h := .inl (hpin.trans h)
  clean _ := .inr (hpc.imp (fun h => by simp [h]) fun h => by simp [h])
  unclaimed h := .inl (hfl.elim (fun hs => hs.trans h) fun hs => hs.1)
  claimed h := hfl.imp (fun hs => hs.trans h) fun hs => .inl (by simp [hs.2])
  pageId := .inl hid
  unused _ hu := absurd hmap (hu p)
  dirty _ h := .inl (hd h)
  renamed := .inl hid

theorem MetaChange.reserve (hpc : pc.allocating = true) (hd : m.dirty = (s.frameMeta f).dirty)
    (hfl : m.flushing = (s.frameMeta f).flushing) (hid : m.pageId = (s.frameMeta f).pageId) :
    MetaChange s f m pc pc' where
  evicting _ := .inr hpc
  pinCount _ _ := .inr hpc
  clean h := .inl (hd.trans h)
  unclaimed h := .inl (hfl.trans h)
  claimed h := .inl (hfl.trans h)
  pageId := .inl hid
  unused _ _ := .inr hpc
  dirty _ h := .inl (hd.trans h)
  renamed := .inl hid

theorem MetaChange.pin (hmap : s.pageTable p = some f)
    (hev : (s.frameMeta f).evicting = false) :
    MetaChange s f { s.frameMeta f with
      pinCount := (s.frameMeta f).pinCount + 1, reference := true } pc pc' where
  evicting h := .inl h
  pinCount h := by rw [hev] at h; cases h
  clean h := .inl h
  unclaimed h := .inl h
  claimed h := .inl h
  pageId := .inl rfl
  unused _ hu := absurd hmap (hu p)
  dirty _ h := .inl h
  renamed := .inl rfl

end Changes

section Steps

variable {s : Pool C n} {t : Fin n} {r : Shared C × Pc}

variable {sh : Shared C}

theorem afterPin_inv {p f : ℕ} (a : Access) (h : sh.pageTable p = some f) :
    PcInv sh (afterPin a p f) := by
  cases a <;> exact h

@[simp] theorem afterPin_roles (a : Access) (p f : ℕ) :
    (afterPin a p f).allocating = false ∧ (afterPin a p f).writes = none ∧
      (afterPin a p f).reads = none ∧ (afterPin a p f).inFlight = none ∧
      (afterPin a p f).homeless = none ∧ (afterPin a p f).preWrite = none ∧
      ∀ g, (afterPin a p f).pinsOn g = if g = f then 1 else 0 := by
  refine ⟨?_,?_,?_,?_,?_,?_,fun g => ?_⟩ <;> cases a <;>
    simp [afterPin,Pc.allocating,Pc.writes,Pc.reads,Pc.inFlight,Pc.homeless,Pc.preWrite,
      Pc.pinsOn,Pc.pinned,eq_comm]

variable {contended : Bool}

theorem tryPinResident_some {sh sh' : Shared C} {p f : ℕ}
    (h : tryPinResident sh p contended = some (f,sh')) : sh.pageTable p = some f ∧
      (sh.frameMeta f).evicting = false ∧ sh' = sh.setMeta f { sh.frameMeta f with
        pinCount := (sh.frameMeta f).pinCount + 1, reference := true } := by
  unfold tryPinResident at h
  split at h
  · cases h
  · rename_i g hg
    dsimp only at h
    split at h
    · cases h
    · rename_i hcond
      cases h
      simp only [not_or,Bool.not_eq_true] at hcond
      exact ⟨hg,hcond.2.2,rfl⟩

variable {pc : Pc}

theorem move_pin {a : Access} {p f : ℕ}
    (hpc : s.threads t = pc) (hfree : pc.free = true ∨ ∃ b q, pc = .resident b q)
    (h : tryPinResident s.toShared p contended = some (f,sh)) :
    Move s t (sh,afterPin a p f) := by
  obtain ⟨hmap,hev,rfl⟩ := tryPinResident_some h
  obtain ⟨ha,hw,hr,hi,hh,hp,hpins⟩ := afterPin_roles a p f
  have hroles : pc.homeless = none ∧ pc.unsaved = none ∧ pc.preWrite = none ∧
      ∀ g, pc.pinsOn g = 0 := by
    rcases hfree with hf | ⟨b,q,rfl⟩
    · cases pc <;> simp [Pc.free] at hf <;>
        simp [Pc.homeless,Pc.unsaved,Pc.preWrite,Pc.pinsOn,Pc.pinned]
    · simp [Pc.homeless,Pc.unsaved,Pc.preWrite,Pc.pinsOn,Pc.pinned]
  obtain ⟨h1,h2,h3,h4⟩ := hroles
  refine .setMeta hpc (afterPin_inv a hmap) (.pin hmap hev) (by simp [ha]) (by simp [hw])
    (by simp [hr]) (by simp [hi]) (by rw [h4,hpins]; simp) (fun g hg => by rw [h4,hpins,if_neg hg])
    ?_ (by simp [h1]) (by simp [h2]) (by simp [h3])
  rintro b q g p' rfl
  rcases hfree with hf | ⟨_,_,hf⟩ <;> cases hf

theorem Pc.Passes.of_eq {pc' : Pc} (ha : pc'.allocating = pc.allocating := by rfl)
    (hw : pc'.writes = pc.writes := by rfl) (hr : pc'.reads = pc.reads := by rfl)
    (hf : pc'.inFlight = pc.inFlight := by rfl) (hp : pc'.pinsOn = pc.pinsOn := by rfl)
    (hh : pc.homeless = none := by rfl) (hu : pc'.unsaved = pc.unsaved := by rfl)
    (hq : pc'.preWrite = pc.preWrite := by rfl)
    (hunmap : ∀ a q f p, pc ≠ .unmap a q f p := by simp) : pc.Passes pc' where
  allocating h := ha ▸ h
  writes _ h := hw ▸ h
  reads _ h := hr ▸ h
  inFlight _ h := hf ▸ h
  pinsOn f := congrFun hp f
  homeless := hh
  unmap a q f p h := absurd h (hunmap a q f p)
  unsaved _ h := hu ▸ h
  preWrite _ h := hq ▸ h

theorem Pc.Passes.of_none {pc' : Pc} (ha : pc'.allocating = false := by rfl)
    (hw : pc'.writes = none := by rfl) (hr : pc'.reads = none := by rfl)
    (hf : pc'.inFlight = none := by rfl) (hp : pc'.pinsOn = pc.pinsOn := by rfl)
    (hh : pc.homeless = none := by rfl) (hu : pc'.unsaved = pc.unsaved := by rfl)
    (hq : pc.preWrite = none := by rfl) (hunmap : ∀ a q f p, pc ≠ .unmap a q f p := by simp) :
    pc.Passes pc' where
  allocating := by simp [ha]
  writes := by simp [hw]
  reads := by simp [hr]
  inFlight := by simp [hf]
  pinsOn f := congrFun hp f
  homeless := hh
  unmap a q f p h := absurd h (hunmap a q f p)
  unsaved _ h := hu ▸ h
  preWrite := by simp [hq]

theorem Pc.pinned_of_unsaved {f : ℕ} (h : pc.unsaved = some f) : ∃ p, pc.pinned = some (p,f) := by
  cases pc <;> simp_all [Pc.unsaved,Pc.pinned]

theorem Inv.at_pc (h : Inv s) (hpc : s.threads t = pc) : PcInv s.toShared pc := hpc ▸ h.pc t

theorem Inv.content_onDisk (h : Inv s) {p f : ℕ} (hp : s.pageTable p = some f)
    (hpin : (s.frameMeta f).pinCount = 0) (hd : (s.frameMeta f).dirty = false)
    (hpre : ∀ u, (s.threads u).preWrite ≠ some f) : s.content f = s.onDisk p := by
  rcases h.content p f hp with hc | hc | ⟨u,hu⟩ | ⟨u,hu⟩
  · exact hc
  · rw [hd] at hc
    cases hc
  · obtain ⟨q,hq⟩ := Pc.pinned_of_unsaved hu
    have hpos := h.pinCount_pos hq
    omega
  · exact absurd hu (hpre u)

theorem Inv.not_preWrite (h : Inv s) {f : ℕ} (hf : (s.frameMeta f).flushing = false) (u : Fin n) :
    (s.threads u).preWrite ≠ some f := fun hu => by
  obtain ⟨q,hq⟩ := Pc.inFlight_of_preWrite hu
  have hf' := (h.claim_of_inFlight hq).1
  rw [hf] at hf'
  cases hf'

variable {o : Owner}

theorem move_clean (h : Inv s) {f : ℕ} (hpc : s.threads t = .flushClaim o f)
    (hf : ¬(s.frameMeta f).flushing = true)
    (hclean : (!(s.frameMeta f).dirty) = true ∨ (s.frameMeta f).pageId = PageId.invalid) :
    Move s t (s.toShared,afterFlush o f none) := by
  have hinv := h.at_pc hpc
  rw [Bool.not_eq_true] at hf
  cases o with
  | call =>
    exact .pass hpc .rfl trivial .of_eq
  | evict a p old =>
    obtain ⟨hw,hv,hm⟩ := hinv
    obtain ⟨hid,hvalid⟩ := h.table old f hm
    have hd : (s.frameMeta f).dirty = false := by
      rcases hclean with hclean | hclean
      · simpa using hclean
      · exact absurd (hid.symm.trans hclean) hvalid
    exact .pass hpc .rfl ⟨hw,hv,⟨hd,hf⟩,hid,fun _ => ⟨hm,h.content_onDisk hm hv.pinCount hd
      (h.not_preWrite hf)⟩⟩ .of_eq

theorem move_claim (h : Inv s) {f : ℕ} (hpc : s.threads t = .flushClaim o f)
    (hf : ¬(s.frameMeta f).flushing = true)
    (hclean : ¬((!(s.frameMeta f).dirty) = true ∨ (s.frameMeta f).pageId = PageId.invalid)) :
    Move s t (s.setMeta f { s.frameMeta f with
        flushing := true, dirty := false, firstDirtyLsn := Lsn.invalid },
      .flushing o f (s.frameMeta f).pageId (s.frameMeta f).firstDirtyLsn .latch) := by
  have hinv := h.at_pc hpc
  simp only [not_or,Bool.not_eq_true,Bool.not_eq_false'] at hf hclean
  have hd := hclean.1
  have hm := h.mapped_of_dirty hd
  have hchange : ∀ pc', pc'.preWrite = some f → MetaChange s.toShared f { s.frameMeta f with
      flushing := true, dirty := false, firstDirtyLsn := Lsn.invalid } (.flushClaim o f) pc' :=
    fun pc' hpre => ⟨fun hev => .inl hev,fun _ hpin => .inl hpin,fun _ => .inl rfl,
      fun _ => .inr hd,fun _ => .inl rfl,.inl rfl,fun hdef => by simp [hdef,
        FrameMeta.default] at hd,
      fun _ _ => .inr hpre,.inl rfl⟩
  refine .setMeta hpc ?_ (hchange _ rfl) ?_ nofun nofun ?_ rfl (fun _ _ => rfl) nofun nofun nofun
    nofun
  · cases o with
    | call => exact ⟨by simp,hm⟩
    | evict a p old =>
      obtain ⟨hw,hv,hold⟩ := hinv
      exact ⟨⟨by simp,hm⟩,{ hw with },⟨by simpa using hv.evicting,
        by simpa using hv.pinCount⟩,h.page_unique hm hold,by simp⟩
  · intro ha
    cases o with
    | call => cases ha
    | evict a p old => rfl
  · intro g hg
    simp only [Pc.inFlight,Option.map_some,Option.some.injEq] at hg
    exact .inr (hg ▸ hf)

variable {f page saved : ℕ} {st : Stage}

theorem PcInv.stage (st' : Stage)
    (h : PcInv sh (.flushing o f page saved st)) : PcInv sh (.flushing o f page saved st') := by
  cases o <;> exact h

theorem PcInv.flushing_same {sh sh' : Shared C}
    (h : PcInv sh (.flushing o f page saved st)) (hm : sh'.frameMeta = sh.frameMeta)
    (ht : sh'.pageTable = sh.pageTable) : PcInv sh' (.flushing o f page saved st) := by
  cases o with
  | call =>
    change (sh'.frameMeta f).flushing = true ∧ sh'.pageTable page = some f
    rw [hm,ht]
    exact h
  | evict a p old =>
    obtain ⟨hf,hw,hv,hrest⟩ := h
    exact ⟨by rwa [hm,ht],⟨hw.valid,by rw [ht]; exact hw.missing⟩,
      ⟨by rw [hm]; exact hv.evicting,by rw [hm]; exact hv.pinCount⟩,by rwa [hm]⟩

theorem PcInv.mapped_of_flushing
    (h : PcInv sh (.flushing o f page saved st)) : sh.pageTable page = some f := by
  cases o with
  | call => exact h.2
  | evict a p old => exact h.1.2

theorem Pc.passes_stage {st st' : Stage}
    (hreads : ∀ g, (Pc.flushing o f page saved st').reads = some g →
      (Pc.flushing o f page saved st).reads = some g)
    (hpre : ∀ g, (Pc.flushing o f page saved st).preWrite = some g →
      (Pc.flushing o f page saved st').preWrite = some g) :
    (Pc.flushing o f page saved st).Passes (.flushing o f page saved st') :=
  ⟨fun h => by cases o <;> exact h,nofun,hreads,fun _ h => h,fun _ => rfl,rfl,nofun,nofun,hpre⟩

theorem move_write (hpc : s.threads t = .flushing o f page saved .write)
    (hinv : PcInv s.toShared (.flushing o f page saved .write)) :
    Move s t ({ s.toShared with writes := s.writes ++ [(page,s.content f)] },
      .flushing o f page saved .bump) := by
  have hdisk := onDisk_write s.toShared page (s.content f)
  have hother : ∀ q, q ≠ page → ({ s.toShared with
      writes := s.writes ++ [(page,s.content f)] } : Shared C).onDisk q = s.onDisk q :=
      fun q hq => by
    rw [hdisk,update_of_ne hq]
  have hpage : ({ s.toShared with
      writes := s.writes ++ [(page,s.content f)] } : Shared C).onDisk page = s.content f := by
    rw [hdisk,update_self]
  refine ⟨{ Same.rfl.effect _ with onDisk := fun q => ?_ },
    (hinv.stage .bump).flushing_same rfl rfl,?_,nofun,fun g h => .inl ?_,fun g h => .inl ?_,
    fun g => ?_,fun _ _ h => .inl h,?_,fun g h => ?_,fun _ => .inl rfl,fun _ _ h => .inl h,
    fun g h => ?_,fun g q h => ?_,fun g h => ?_,fun g q h hfl => ?_⟩
  · by_cases hq : q = page
    · exact .inr ⟨f,by rw [hpc,hq]; rfl⟩
    · exact .inl (hother q hq)
  · intro ha
    refine .inl ?_
    rw [hpc]
    cases o with
    | call => cases ha
    | evict a p old => rfl
  · rw [hpc]
    exact h
  · rw [hpc]
    exact h
  · rw [hpc]
    rfl
  · intro a q g p h
    rw [hpc] at h
    cases h
  all_goals rw [hpc] at h
  · cases h
  · cases h
  · cases h
    exact .inr hpage
  · cases h
  · rw [hpc] at hfl
    cases h
    cases hfl
    exact .inr (.inr hpage.symm)

theorem Inv.afterFlush_done (h : Inv s) (hpc : s.threads t = .flushing o f page saved .done) :
    PcInv (s.toShared.setMeta f { s.frameMeta f with flushing := false })
      (afterFlush o f none) := by
  have hinv := h.at_pc hpc
  cases o with
  | call => trivial
  | evict a p old =>
    obtain ⟨⟨hf,hm⟩,hw,hv,rfl,hd⟩ := hinv
    refine ⟨{ hw with },⟨by simpa using hv.evicting,by simpa using hv.pinCount⟩,
      ⟨by simpa using hd,by simp⟩,by simpa using (h.table page f hm).1,
      fun _ => ⟨hm,h.content_onDisk hm hv.pinCount hd fun u hu => ?_⟩⟩
    obtain ⟨q,hq⟩ := Pc.inFlight_of_preWrite hu
    have hut := h.claimed f u t (by simp [hq]) (by simp [hpc,Pc.inFlight])
    rw [hut,hpc] at hu
    cases hu

theorem afterFlush_roles (o : Owner) (f : ℕ) (err : Option StorageError) :
    (afterFlush o f err).writes = none ∧ (afterFlush o f err).reads = none ∧
      (afterFlush o f err).inFlight = none ∧ ∀ g, (afterFlush o f err).pinsOn g = 0 := by
  cases o <;> cases err <;> simp [afterFlush,Pc.writes,Pc.reads,Pc.inFlight,Pc.pinsOn,Pc.pinned]

theorem allocating_of_afterFlush {err : Option StorageError}
    (h : (afterFlush o f err).allocating = true) :
    (Pc.flushing o f page saved st).allocating = true := by
  cases o with
  | call => cases err <;> cases h
  | evict a p old => rfl

variable {pc' : Pc} {m : FrameMeta}

theorem move_flush_meta (h : Inv s) (hpc : s.threads t = .flushing o f page saved st)
    (hev : m.evicting = (s.frameMeta f).evicting) (hpin : m.pinCount = (s.frameMeta f).pinCount)
    (hfl : m.flushing = (s.frameMeta f).flushing ∨ m.flushing = false)
    (hid : m.pageId = (s.frameMeta f).pageId)
    (hd : (s.frameMeta f).dirty = true → m.dirty = true)
    (hpre : (Pc.flushing o f page saved st).preWrite = some f → m.dirty = true)
    (halloc : pc'.allocating = true → (Pc.flushing o f page saved st).allocating = true)
    (hwrites : pc'.writes = none) (hreads : pc'.reads = none) (hpins : ∀ g, pc'.pinsOn g = 0)
    (hclaim : ∀ g, pc'.inFlight.map Prod.fst = some g → g = f)
    (hinv : PcInv (s.toShared.setMeta f m) pc') : Move s t (s.toShared.setMeta f m,pc') := by
  have hmap := (h.at_pc hpc).mapped_of_flushing
  refine .setMeta hpc hinv (.held hmap (.inr rfl) hev hpin (hfl.imp id fun h => ⟨h,rfl⟩) hid hd)
    halloc (by simp [hwrites]) (by simp [hreads]) (fun g hg => .inl (by rw [hclaim g hg]; rfl)) ?_
    ?_ nofun nofun nofun ?_
  · rw [hpins f,hpin]
    rfl
  · intro g _
    rw [hpins g]
    rfl
  · intro g q hg hq
    have hgf : g = f := by
      simp only [Pc.inFlight,Option.some.injEq,Prod.mk.injEq] at hq
      exact hq.1.symm
    subst hgf
    exact .inr (.inl ⟨rfl,hpre hg⟩)

variable {fault : Option StorageError}

theorem move_flush (h : Inv s) (hpc : s.threads t = .flushing o f page saved st)
    (hs : advanceFlush fmt s.toShared (s.writeLatched f) o f page saved fault st = some r) :
    Move s t r := by
  have hinv := h.at_pc hpc
  cases st with
  | latch =>
    obtain ⟨hfree,hs⟩ := Option.ite_none_left_eq_some.1 hs
    cases hs
    simp only [Pool.writeLatched,decide_eq_true_eq,not_exists] at hfree
    refine .same hpc .rfl (hinv.stage _) (fun ha => .inl ?_) (by rintro _ ⟨⟩) (fun g hg => .inr ?_)
      (fun _ hg => hg) (fun _ => rfl) rfl (by rintro _ _ _ _ ⟨⟩) (by rintro _ ⟨⟩) fun _ hg => hg
    · cases o <;> exact ha
    · simp only [Pc.reads,Option.some.injEq] at hg
      exact hg ▸ hfree
  | wal lsn =>
    simp only [advanceFlush] at hs
    split at hs <;> cases hs
    · exact .pass hpc .rfl (hinv.stage _) (Pc.passes_stage (fun _ hg => hg) fun _ hg => hg)
    · exact .pass hpc .rfl (hinv.stage _) (Pc.passes_stage (fun _ hg => hg) fun _ hg => hg)
  | write =>
    simp only [advanceFlush] at hs
    split at hs <;> cases hs
    · exact move_write hpc hinv
    · exact .pass hpc .rfl (hinv.stage _) (Pc.passes_stage (fun _ hg => hg) fun _ hg => hg)
  | bump =>
    cases hs
    exact .pass hpc ⟨rfl,rfl,rfl,rfl⟩ ((hinv.stage _).flushing_same rfl rfl)
      (Pc.passes_stage (fun _ hg => hg) (by rintro _ ⟨⟩))
  | mark gen =>
    cases hs
    refine move_flush_meta h hpc rfl rfl (.inl rfl) rfl id (by rintro ⟨⟩) ?_ rfl rfl
      (fun _ => rfl) ?_ ?_
    · intro ha
      cases o <;> exact ha
    · intro g hg
      simpa [Pc.inFlight] using hg.symm
    · cases o with
      | call => exact ⟨by simpa using hinv.1,hinv.2⟩
      | evict a p old =>
        obtain ⟨⟨hf,hm⟩,hw,hv,hold,hd⟩ := hinv
        exact ⟨⟨by simpa using hf,hm⟩,{ hw with },⟨by simpa using hv.evicting,
          by simpa using hv.pinCount⟩,hold,by simpa using hd⟩
  | check gen =>
    simp only [advanceFlush] at hs
    split at hs <;> cases hs
    · exact .pass hpc .rfl (hinv.stage _) (Pc.passes_stage (by rintro _ ⟨⟩) (by rintro _ ⟨⟩))
    · exact .pass hpc .rfl (hinv.stage _) (Pc.passes_stage (by rintro _ ⟨⟩) (by rintro _ ⟨⟩))
  | sync covered upTo =>
    simp only [advanceFlush] at hs
    split at hs <;> cases hs
    · exact .pass hpc ⟨rfl,rfl,rfl,rfl⟩ ((hinv.stage _).flushing_same rfl rfl)
        (Pc.passes_stage (by rintro _ ⟨⟩) (by rintro _ ⟨⟩))
    · exact .pass hpc .rfl (hinv.stage _) (Pc.passes_stage (by rintro _ ⟨⟩) (by rintro _ ⟨⟩))
  | publish covered =>
    cases hs
    exact .pass hpc ⟨rfl,rfl,rfl,rfl⟩ ((hinv.stage _).flushing_same rfl rfl)
      (Pc.passes_stage (by rintro _ ⟨⟩) (by rintro _ ⟨⟩))
  | done =>
    cases hs
    obtain ⟨hw,hr,hi,hp⟩ := afterFlush_roles o f none
    exact move_flush_meta h hpc rfl rfl (.inr rfl) rfl id (by rintro ⟨⟩) allocating_of_afterFlush
      hw hr hp (by simp [hi]) (h.afterFlush_done hpc)
  | failed e latched =>
    cases hs
    obtain ⟨hw,hr,hi,hp⟩ := afterFlush_roles o f (some e)
    refine move_flush_meta h hpc rfl rfl (.inr rfl) rfl (fun _ => rfl) (fun _ => rfl)
      allocating_of_afterFlush hw hr hp (by simp [hi]) ?_
    cases o <;> trivial

def Pc.probed : Pc → Option ℕ
  | .probe _ _ _ f => some f
  | _ => none

/-- The frame is taken as clean although a flush of it is in flight. -/
def FrameMeta.stealable (m : FrameMeta) : Bool :=
  m.pinCount == 0 && !m.evicting && !m.reference && !m.dirty && m.flushing

/-- The thread is about to evict a frame with a flush in flight. -/
def Steals (s : Pool C n) (t : Fin n) : Prop :=
  ((s.threads t).probed.any fun f => (s.frameMeta f).stealable) = true

instance (s : Pool C n) (t : Fin n) : Decidable (Steals s t) := inferInstanceAs (Decidable (_ = _))

theorem victim_setMeta {f : ℕ} (hf : ¬(fault.isSome = true ∨ 0 < (s.frameMeta f).pinCount ∨
    (s.frameMeta f).evicting = true)) :
    Victim (s.toShared.setMeta f { s.frameMeta f with evicting := true }) f := by
  simp only [not_or,not_lt,Nat.le_zero_eq] at hf
  exact ⟨by simp,by simpa using hf.2.1⟩

/-- A clean frame that nobody flushes is what the file has. -/
theorem move_evict (h : Inv s) {a : Access} {p left f : ℕ} (hpc : s.threads t = .probe a p left f)
    (hclean : ¬Steals s t) (hf : ¬(fault.isSome = true ∨ 0 < (s.frameMeta f).pinCount ∨
      (s.frameMeta f).evicting = true)) (href : ¬(s.frameMeta f).reference = true)
    (hdirty : ¬((s.frameMeta f).dirty = true ∧ (s.frameMeta f).pageId ≠ PageId.invalid)) :
    Move s t (s.setMeta f { s.frameMeta f with evicting := true },
      .unmap a p f (s.frameMeta f).pageId) := by
  have hw : Wanted s.toShared p := h.at_pc hpc
  have hvictim := victim_setMeta hf
  simp only [not_or,not_lt,Nat.le_zero_eq,Bool.not_eq_true] at hf href
  obtain ⟨-,hpin,hev⟩ := hf
  have hd : (s.frameMeta f).dirty = false := by
    by_contra hd
    rw [Bool.not_eq_false] at hd
    exact hdirty ⟨hd,h.empty f hd⟩
  have hfl : (s.frameMeta f).flushing = false := by
    by_contra hfl
    rw [Bool.not_eq_false] at hfl
    exact hclean (by simp [Steals,hpc,Pc.probed,FrameMeta.stealable,hpin,hev,href,hd,hfl])
  refine .setMetaPass hpc ⟨{ hw with },hvictim,⟨by simpa using hd,by simpa using hfl⟩,
    by simp,fun h0 => ?_⟩ (.reserve rfl rfl rfl rfl)
    .of_eq rfl (by simp)
  have hmap : s.pageTable (s.frameMeta f).pageId = some f := by
    rcases h.home f h0 with hm | ⟨u,hu⟩
    · exact hm
    · have hut : u = t := h.alloc u t (by
        cases hth : s.threads u <;> rw [hth] at hu <;> simp [Pc.homeless] at hu <;> rfl)
        (by rw [hpc]; rfl)
      rw [hut,hpc] at hu
      cases hu
  exact ⟨hmap,h.content_onDisk hmap hpin hd (h.not_preWrite hfl)⟩

theorem move_guard_meta {pc pc' : Pc} {p f : ℕ} (hpc : s.threads t = pc)
    (hmap : s.pageTable p = some f) (hpin : pc.pinned = some (p,f))
    (hpin' : pc'.pinned = some (p,f)) (hinv : PcInv (s.toShared.setMeta f m) pc')
    (hev : m.evicting = (s.frameMeta f).evicting)
    (hcount : m.pinCount = (s.frameMeta f).pinCount)
    (hfl : m.flushing = (s.frameMeta f).flushing) (hid : m.pageId = (s.frameMeta f).pageId)
    (hd : m.dirty = true) (hwrites : ∀ g, pc'.writes = some g → pc.writes = some g)
    (hreads : pc'.reads = none) : Move s t (s.toShared.setMeta f m,pc') := by
  have hroles : ∀ {q : Pc}, q.pinned = some (p,f) → q.allocating = false ∧ q.inFlight = none ∧
      q.homeless = none ∧ q.preWrite = none ∧ (∀ a x g y, q ≠ .unmap a x g y) ∧
      (∀ g, q.unsaved = some g → g = f) ∧ ∀ g, q.pinsOn g = if f = g then 1 else 0 := by
    intro q hq
    cases q <;> simp only [Pc.pinned,Option.some.injEq,Prod.mk.injEq,reduceCtorEq] at hq <;>
      obtain ⟨rfl,rfl⟩ := hq <;>
      simp [Pc.allocating,Pc.inFlight,Pc.homeless,Pc.preWrite,Pc.unsaved,Pc.pinsOn,Pc.pinned]
  obtain ⟨h1,h2,h3,h4,h5,h6,h7⟩ := hroles hpin
  obtain ⟨g1,g2,-,-,-,-,g7⟩ := hroles hpin'
  exact .setMeta hpc hinv (.held hmap (.inl hpin) hev hcount (.inl hfl) hid fun _ => hd)
    (by simp [g1]) hwrites (by simp [hreads]) (by simp [g2]) (by rw [hcount,h7,g7])
    (fun g _ => by rw [h7,g7]) h5 (by simp [h3]) (fun g hg => .inr ⟨h6 g hg,hd⟩) (by simp [h4])

theorem latched_eq_false {f : ℕ} (h : ¬s.latched f = true) (u : Fin n) :
    (s.threads u).writes ≠ some f ∧ (s.threads u).reads ≠ some f := by
  simp only [Pool.latched,decide_eq_true_eq,not_exists,not_or] at h
  exact h u

theorem move_writeLatch {a : Access} {p f : ℕ} (hpc : s.threads t = .latch a p f)
    (hmap : s.pageTable p = some f) (hfree : ¬s.latched f = true)
    (hpc' : pc' = .writing p f ∨ pc' = .markDirty a p f) : Move s t (s.toShared,pc') := by
  rcases hpc' with rfl | rfl
  all_goals
    refine .same hpc .rfl hmap nofun (fun g hg => .inr fun u => ?_) nofun nofun (fun _ => rfl) rfl
      nofun nofun nofun
    cases hg
    exact latched_eq_false hfree u

theorem move_unmapped (h : Inv s) {a : Access} {p f old : ℕ} (hpc : s.threads t = .unmap a p f old)
    (hinv : PcInv s.toShared (.unmap a p f old)) (h0 : old = PageId.invalid) :
    Move s t (s.toShared,.reset a p f) := by
  obtain ⟨hw,hv,hset,hid,hdisk⟩ := hinv
  refine .pass hpc .rfl ⟨hw,hv,hset,fun q hq => ?_⟩
    ⟨fun _ => rfl,nofun,nofun,nofun,fun _ => rfl,rfl,fun _ _ _ _ he => ?_,nofun,nofun⟩
  · obtain ⟨hq,hvalid⟩ := h.table q _ hq
    exact hvalid (hq.symm.trans (hid.trans h0))
  · cases he
    rfl

theorem move_reset {a : Access} {p f : ℕ} (hpc : s.threads t = .reset a p f)
    (hinv : PcInv s.toShared (.reset a p f)) :
    Move s t (s.setMeta f FrameMeta.default,.fill a p f) := by
  obtain ⟨hw,hv,hset,hun⟩ := hinv
  refine .setMeta hpc ⟨{ hw with },by simp,hun⟩ ⟨fun _ => .inr rfl,fun _ _ => .inr rfl,
    fun _ => .inl rfl,fun _ => .inl rfl,fun _ => .inr (.inr ⟨_,_,rfl⟩),.inr ⟨rfl,hun⟩,
    fun _ _ => .inr rfl,fun hn _ => absurd hun hn,.inr (.inl rfl)⟩ (fun _ => rfl)
    nofun nofun nofun ?_ (fun _ _ => rfl) (by simp) (fun g hg => .inr ?_) nofun nofun
  · rw [hv.pinCount]
    rfl
  · cases hg
    exact ⟨rfl,rfl⟩

theorem move_install {a : Access} {p f lsn : ℕ} (hpc : s.threads t = .install a p f lsn)
    (hinv : PcInv s.toShared (.install a p f lsn)) :
    Move s t (s.setMeta f { s.frameMeta f with
      pageId := p, pinCount := 1, reference := true, dirty := false, cachedLsn := lsn,
      firstDirtyLsn := Lsn.invalid, needsFpi := true },.insert a p f) := by
  obtain ⟨hw,hm,hun,hc⟩ := hinv
  refine .setMeta hpc ⟨{ hw with },by simp,⟨by simp,by simp [hm,FrameMeta.default]⟩,
    hun,hc⟩ ⟨fun _ => .inr rfl,fun _ _ => .inr rfl,fun _ => .inl rfl,fun hf => .inl hf,
    fun hf => .inl hf,.inr ⟨rfl,hun⟩,fun _ _ => .inr rfl,fun hn _ => absurd hun hn,
    .inr (.inr rfl)⟩ (fun _ => rfl) nofun nofun nofun ?_ (fun g hg => ?_) (by simp) nofun nofun
    nofun
  · simp [hm,FrameMeta.default,Pc.pinsOn,Pc.pinned]
  · simp [Pc.pinsOn,Pc.pinned,hg.symm]

theorem move_unpin (h : Inv s) {p f : ℕ} {err : Option StorageError}
    (hpc : s.threads t = .unpin p f err) (hinv : PcInv s.toShared (.unpin p f err)) :
    Move s t (s.setMeta f { s.frameMeta f with
      pinCount := (s.frameMeta f).pinCount - 1 },.returned err) := by
  have hpos := h.pinCount_pos (u := t) (p := p) (f := f) (by rw [hpc]; rfl)
  refine .setMeta hpc trivial ⟨fun hev => .inl hev,fun _ h0 => .inl ?_,fun hd => .inl hd,
    fun hf => .inl hf,fun hf => .inl hf,.inl rfl,fun _ hu => absurd hinv (hu p),
    fun _ hd => .inl hd,.inl rfl⟩ nofun nofun nofun nofun ?_ (fun g hg => ?_) (by simp) nofun nofun
    nofun
  · change (s.frameMeta f).pinCount - 1 = 0
    rw [h0]
  · simp [Pc.pinsOn,Pc.pinned]
    omega
  · simp [Pc.pinsOn,Pc.pinned,hg.symm]

/-- Every section is a move, the eviction of a frame with a flush in flight excepted. -/
theorem move_advance (h : Inv s) {lsn : ℕ} (hclean : ¬Steals s t)
    (hs : advance fmt frameCount s t fault lsn = some r) : Move s t r := by
  have hinv := h.pc t
  have hg := goes hs
  generalize hpc : s.threads t = pc at hg hinv
  cases hg with
  | lock hlock =>
    exact .same hpc .rfl hinv (fun _ => .inr hlock) nofun nofun nofun (fun _ => rfl) rfl nofun
      nofun nofun
  | clean hf hc => exact move_clean h hpc hf hc
  | claim hf hc => exact move_claim h hpc hf hc
  | flush hs => exact move_flush h hpc hs
  | hit hpin => exact move_pin hpc (.inr ⟨_,_,rfl⟩) hpin
  | miss | again | skip | sample | fpiCheck | fpiNeeded | fpiSpared =>
    exact .pass hpc .rfl hinv .of_eq
  | absent hnone =>
    exact .pass hpc .rfl ⟨hinv,by simpa using hnone⟩ .of_eq
  | full | loadFails =>
    exact .pass hpc .rfl trivial .of_none
  | scan =>
    exact .pass hpc ⟨rfl,rfl,rfl,rfl⟩ { hinv with } .of_eq
  | spare =>
    exact .setMetaPass hpc { hinv with } (.reserve rfl rfl rfl rfl)
      .of_eq rfl (by simp)
  | evictDirty hf hd =>
    exact .setMetaPass hpc ⟨{ hinv with },victim_setMeta hf,h.mapped_of_dirty hd.1⟩
      (.reserve rfl rfl rfl rfl) .of_eq rfl (by simp)
  | evict hf href hd => exact move_evict h hpc hclean hf href hd
  | evictFailed =>
    exact .setMetaPass hpc trivial (.reserve rfl rfl rfl rfl)
      .of_none rfl (by simp)
  | unmapped h0 => exact move_unmapped h hpc hinv h0
  | unmap h0 =>
    have hid := hinv.2.2.2.1
    exact .unmapPage hpc hinv (hinv.2.2.2.2 h0).1 fun q hq => (h.table q _ hq).1.symm.trans hid
  | reset => exact move_reset hpc hinv
  | fillNew ha =>
    obtain ⟨hw,hm,hun⟩ := hinv
    exact .setContent hpc ⟨{ hw with },hm,hun,.inl ha⟩ (.inr ⟨rfl,hun⟩) .of_eq
  | fill =>
    obtain ⟨hw,hm,hun⟩ := hinv
    exact .setContent hpc ⟨{ hw with },hm,hun⟩ (.inr ⟨rfl,hun⟩) .of_eq
  | load =>
    obtain ⟨hw,hm,hun⟩ := hinv
    exact .setContent hpc ⟨{ hw with },hm,hun,.inr (setContent_self ..)⟩ (.inr ⟨rfl,hun⟩) .of_eq
  | install => exact move_install hpc hinv
  | @insert a p f =>
    obtain ⟨h1,h2,h3,h4,-,-,h5⟩ := afterPin_roles a p f
    refine .insertPage hpc hinv (fun sh hsh => afterPin_inv a hsh) ⟨h1,h2,h3,h4,h5⟩ ?_
    rintro rfl
    rfl
  | markNew | dropMut =>
    exact move_guard_meta hpc hinv rfl rfl hinv rfl rfl rfl rfl rfl (by rintro _ ⟨⟩) rfl
  | pin hfree =>
    simp only [Pool.writeLatched,decide_eq_true_eq,not_exists] at hfree
    refine .same hpc .rfl hinv nofun nofun (fun g hg => .inr ?_) nofun (fun _ => rfl) rfl nofun
      nofun nofun
    cases hg
    exact hfree
  | pinNew hfree => exact move_writeLatch hpc hinv hfree (.inl rfl)
  | pinMut _ hfree => exact move_writeLatch hpc hinv hfree (.inr rfl)
  | markDirty | markDirtyOnly | fpiMeta =>
    exact move_guard_meta hpc hinv rfl rfl hinv rfl rfl rfl rfl rfl (fun _ hg => hg) rfl
  | fpiAppend =>
    exact .setContent hpc hinv (.inl ⟨rfl,rfl⟩) .of_eq
  | fpiFails =>
    exact .pass hpc .rfl hinv .of_none
  | @dropped p f _ _ h0 =>
    obtain ⟨hid,hvalid⟩ := h.table p f hinv
    exact absurd (hid.symm.trans h0) hvalid
  | unpin => exact move_unpin h hpc hinv

theorem PcInv.of_same {sh sh' : Shared C} {pc : Pc} (hs : Same sh sh') (h : PcInv sh pc) :
    PcInv sh' pc := by
  have hw : ∀ {p}, Wanted sh p → Wanted sh' p := fun hw =>
    ⟨hw.valid,by rw [hs.pageTable]; exact hw.missing⟩
  have hv : ∀ {f}, Victim sh f → Victim sh' f := fun hv =>
    ⟨by rw [hs.frameMeta]; exact hv.evicting,by rw [hs.frameMeta]; exact hv.pinCount⟩
  have hset : ∀ {f}, Settled sh f → Settled sh' f := fun h =>
    ⟨by rw [hs.frameMeta]; exact h.dirty,by rw [hs.frameMeta]; exact h.flushing⟩
  cases pc with
  | flushClaim o f =>
    cases o with
    | call => trivial
    | evict a p old => exact ⟨hw h.1,hv h.2.1,by rw [hs.pageTable]; exact h.2.2⟩
  | flushing o f page saved st => exact h.flushing_same hs.frameMeta hs.pageTable
  | unmap a p f old =>
    refine ⟨hw h.1,hv h.2.1,hset h.2.2.1,by rw [hs.frameMeta]; exact h.2.2.2.1,?_⟩
    rw [hs.pageTable,hs.content,hs.onDisk]
    exact h.2.2.2.2
  | reset a p f => exact ⟨hw h.1,hv h.2.1,hset h.2.2.1,hs.unmapped h.2.2.2⟩
  | fill | load => exact ⟨hw h.1,by rw [hs.frameMeta]; exact h.2.1,hs.unmapped h.2.2⟩
  | sample | install =>
    refine ⟨hw h.1,by rw [hs.frameMeta]; exact h.2.1,hs.unmapped h.2.2.1,?_⟩
    rw [hs.content,hs.onDisk]
    exact h.2.2.2
  | insert a p f =>
    refine ⟨hw h.1,by rw [hs.frameMeta]; exact h.2.1,hset h.2.2.1,hs.unmapped h.2.2.2.1,?_⟩
    rw [hs.content,hs.onDisk]
    exact h.2.2.2.2
  | scan | probe => exact hw h
  | allocWait | resident | absent => exact h
  | idle | returned | evictFailed => trivial
  | _ =>
    change sh'.pageTable _ = _
    rw [hs.pageTable]
    exact h

theorem Pc.passes_free {pc pc' : Pc} (hpc : pc.free = true)
    (hpc' : pc'.free = true ∨ (∃ a p, pc' = .allocWait a p) ∨ ∃ f, pc' = .flushClaim .call f) :
    pc.Passes pc' := by
  have hroles : ∀ {q : Pc}, q.free = true ∨ (∃ a p, q = .allocWait a p) ∨
      (∃ f, q = .flushClaim .call f) → q.allocating = false ∧ q.writes = none ∧ q.reads = none ∧
      q.inFlight = none ∧ q.homeless = none ∧ q.unsaved = none ∧ q.preWrite = none ∧
      (∀ a x g y, q ≠ .unmap a x g y) ∧ ∀ g, q.pinsOn g = 0 := by
    rintro q (hq | ⟨a,p,rfl⟩ | ⟨f,rfl⟩)
    · cases q <;> simp [Pc.free] at hq <;> simp [Pc.allocating,Pc.writes,Pc.reads,Pc.inFlight,
        Pc.homeless,Pc.unsaved,Pc.preWrite,Pc.pinsOn,Pc.pinned]
    all_goals simp [Pc.allocating,Pc.writes,Pc.reads,Pc.inFlight,
        Pc.homeless,Pc.unsaved,Pc.preWrite,Pc.pinsOn,Pc.pinned]
  obtain ⟨-,-,-,-,h5,h6,h7,h8,h9⟩ := hroles (.inl hpc)
  obtain ⟨g1,g2,g3,g4,-,-,-,-,g9⟩ := hroles hpc'
  exact ⟨by simp [g1],by simp [g2],by simp [g3],by simp [g4],fun f => by rw [g9,h9],h5,
    fun a q f p h => absurd h (h8 a q f p),by simp [h6],by simp [h7]⟩

theorem move_free (hfree : (s.threads t).free = true)
    (hpc' : pc'.free = true ∨ (∃ a p, pc' = .allocWait a p) ∨ ∃ f, pc' = .flushClaim .call f)
    (hinv : PcInv s.toShared pc') : Move s t (s.toShared,pc') :=
  .pass rfl .rfl hinv (Pc.passes_free hfree hpc')

theorem Pool.setThread_self (s : Pool C n) (t : Fin n) (r : Shared C × Pc) :
    (s.setThread t r).threads t = r.2 := update_self ..

theorem Pool.setThread_other (s : Pool C n) {t u : Fin n} (r : Shared C × Pc) (h : u ≠ t) :
    (s.setThread t r).threads u = s.threads u := update_of_ne h ..

inductive Ran (fmt : PageFormat C) (frameCount : ℕ) (s : Pool C n) :
    Step C n → Fin n → Shared C × Pc → Prop
  | newPage {t : Fin n} {p : ℕ} {contended : Bool} (hfree : (s.threads t).free = true)
      (hp : p ≠ PageId.invalid) :
      Ran fmt frameCount s (.access t .newPage p contended) t (s.toShared,.allocWait .newPage p)
  | hit {t : Fin n} {x : Access} {p f : ℕ} {contended : Bool} {sh : Shared C}
      (hfree : (s.threads t).free = true) (hx : x ≠ .newPage)
      (hpin : tryPinResident s.toShared p contended = some (f,sh)) :
      Ran fmt frameCount s (.access t x p contended) t (sh,afterPin x p f)
  | miss {t : Fin n} {x : Access} {p : ℕ} {contended : Bool} (hfree : (s.threads t).free = true)
      (hx : x ≠ .newPage) (hp : p ≠ PageId.invalid) :
      Ran fmt frameCount s (.access t x p contended) t (s.toShared,.allocWait x p)
  | flush {t : Fin n} {p f : ℕ} (hfree : (s.threads t).free = true)
      (hf : s.pageTable p = some f) :
      Ran fmt frameCount s (.flush t p) t (s.toShared,.flushClaim .call f)
  | answered {a : Step C n} {t : Fin n} {err : Option StorageError}
      (hfree : (s.threads t).free = true) (ha : ∀ u fault lsn, a ≠ .run u fault lsn) :
      Ran fmt frameCount s a t (s.toShared,.returned err)
  | run {t : Fin n} {fault : Option StorageError} {lsn : ℕ} {r : Shared C × Pc}
      (hr : advance fmt frameCount s t fault lsn = some r) :
      Ran fmt frameCount s (.run t fault lsn) t r
  | modify {t : Fin n} {p f : ℕ} {c : C} (hpc : s.threads t = .writing p f) :
      Ran fmt frameCount s (.modify t c) t (s.setContent f c,.writing p f)
  | dropRead {t : Fin n} {p f : ℕ} (hpc : s.threads t = .reading p f) :
      Ran fmt frameCount s (.drop t) t (s.toShared,.unpin p f none)
  | dropWrite {t : Fin n} {p f : ℕ} (hpc : s.threads t = .writing p f) :
      Ran fmt frameCount s (.drop t) t
        (s.toShared,.dropMut p f (fmt.pdLsn (s.content f)) none)

variable {a : Step C n}

theorem step_ran {s' : Pool C n} (hs : step fmt frameCount s a = some s') :
    (∃ t r, Ran fmt frameCount s a t r ∧ s' = s.setThread t r) ∨
      ∃ lsn, a = .setCheckpointLsn lsn ∧ s' = { s with checkpointLsn := lsn } := by
  cases a with
  | access t x p contended =>
    obtain ⟨hfree,hs⟩ := Option.ite_none_right_eq_some.1 hs
    split at hs
    · rename_i hx
      subst hx
      split at hs <;> cases hs
      exact .inl ⟨t,_,.newPage hfree ‹_›,rfl⟩
    · rename_i hx
      split at hs
      · cases hs
        exact .inl ⟨t,_,.answered hfree nofun,rfl⟩
      · rename_i hp
        split at hs
        · rename_i hpin
          cases hs
          exact .inl ⟨t,_,.hit hfree hx hpin,rfl⟩
        · cases hs
          exact .inl ⟨t,_,.miss hfree hx hp,rfl⟩
  | flush t p =>
    obtain ⟨hfree,hs⟩ := Option.ite_none_right_eq_some.1 hs
    split at hs
    · cases hs
      exact .inl ⟨t,_,.answered hfree nofun,rfl⟩
    · split at hs <;> cases hs
      · exact .inl ⟨t,_,.answered hfree nofun,rfl⟩
      · exact .inl ⟨t,_,.flush hfree ‹_›,rfl⟩
  | run t fault lsn =>
    obtain ⟨r,hr,rfl⟩ := Option.map_eq_some_iff.1 hs
    exact .inl ⟨t,r,.run hr,rfl⟩
  | modify t c =>
    simp only [step] at hs
    split at hs <;> cases hs
    rename_i p f hpc
    refine .inl ⟨t,_,.modify hpc,?_⟩
    unfold Pool.setThread
    dsimp only
    rw [← hpc,update_eq_self]
  | drop t =>
    simp only [step] at hs
    split at hs <;> cases hs
    · exact .inl ⟨t,_,.dropRead ‹_›,rfl⟩
    · exact .inl ⟨t,_,.dropWrite ‹_›,rfl⟩
  | setCheckpointLsn lsn =>
    cases hs
    exact .inr ⟨lsn,rfl,rfl⟩

theorem Inv.setCheckpointLsn (h : Inv s) (lsn : ℕ) : Inv { s with checkpointLsn := lsn } :=
  { h with pc := fun t => @PcInv.of_same _ s.toShared _ _ ⟨rfl,rfl,rfl,rfl⟩ (h.pc t) }

def Clean (s : Pool C n) : Step C n → Prop
  | .run t _ _ => ¬Steals s t
  | _ => True

instance (s : Pool C n) (a : Step C n) : Decidable (Clean s a) :=
  match a with
  | .run t _ _ => inferInstanceAs (Decidable (¬Steals s t))
  | .access .. | .flush .. | .modify .. | .drop .. | .setCheckpointLsn .. => .isTrue trivial

theorem Ran.move (h : Inv s) (hclean : Clean s a) (hr : Ran fmt frameCount s a t r) :
    Move s t r := by
  cases hr with
  | newPage hfree hp | miss hfree hx hp => exact move_free hfree (.inr (.inl ⟨_,_,rfl⟩)) hp
  | hit hfree hx hpin => exact move_pin rfl (.inl hfree) hpin
  | flush hfree hf => exact move_free hfree (.inr (.inr ⟨_,rfl⟩)) trivial
  | answered hfree => exact move_free hfree (.inl rfl) trivial
  | run hr => exact move_advance h hclean hr
  | modify hpc =>
    exact .setContent hpc (h.at_pc hpc) (.inl ⟨rfl,rfl⟩) .of_eq
  | dropRead hpc | dropWrite hpc =>
    have hinv := h.at_pc hpc
    exact .pass hpc .rfl hinv .of_none

theorem step_inv {s' : Pool C n} (h : Inv s) (hclean : Clean s a)
    (hs : step fmt frameCount s a = some s') : Inv s' := by
  rcases step_ran hs with ⟨t,r,hr,rfl⟩ | ⟨lsn,rfl,rfl⟩
  · exact h.move (hr.move h hclean)
  · exact h.setCheckpointLsn lsn

theorem opened_inv (base : ℕ → C) : Inv (opened base fmt : Pool C n) := by
  refine ⟨nofun,fun _ => nofun,fun _ => nofun,fun _ => nofun,fun f => ?_,nofun,
    fun f hf => absurd rfl hf,nofun,nofun,fun _ => trivial⟩
  simp [opened,FrameMeta.default,Pc.pinsOn,Pc.pinned]

theorem reach_inv {base : ℕ → C} (h : Reach (step fmt frameCount) (· = opened base fmt) Clean s) :
    Inv s :=
  h.invariant (fun _ hs => hs ▸ opened_inv base) fun _ _ _ hi hc hs => step_inv hi hc hs

end Steps

end BufferPool
end PgAm
