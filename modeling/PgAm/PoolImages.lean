import PgAm.PoolDurable

/-! A property of page images that the zero page has and that every modification of a page
establishes holds of every image of the page: in its frame, in the data file and in a frame
that an allocation is filling. -/
namespace PgAm
namespace BufferPool

open Threads Function

variable {C : Type} {n : ℕ} {fmt : PageFormat C} {frameCount : ℕ}

def Pc.loaded : Pc → Option (ℕ × ℕ)
  | .sample _ p f | .install _ p f _ | .insert _ p f => some (p,f)
  | _ => none

structure Images (P : ℕ → C → Prop) (s : Pool C n) : Prop where
  cached : ∀ p f, s.pageTable p = some f → P p (s.content f)
  onDisk : ∀ p, P p (s.onDisk p)
  loaded : ∀ t p f, (s.threads t).loaded = some (p,f) → P p (s.content f)

theorem Images.mono {P Q : ℕ → C → Prop} {s : Pool C n} (h : Images P s)
    (hPQ : ∀ p c, P p c → Q p c) : Images Q s :=
  ⟨fun p f hp => hPQ _ _ (h.cached p f hp),fun p => hPQ _ _ (h.onDisk p),
    fun t p f hl => hPQ _ _ (h.loaded t p f hl)⟩

variable {pc : Pc}

theorem Pc.victim_of_loaded {p f : ℕ} (h : pc.loaded = some (p,f)) : pc.victim = some f := by
  cases pc <;> cases h <;> rfl

theorem Pc.allocating_of_loaded {x : ℕ × ℕ} (h : pc.loaded = some x) : pc.allocating = true := by
  cases pc <;> first | rfl | cases h

theorem PcInv.unmapped_of_loaded {sh : Shared C} {p f : ℕ} (h : PcInv sh pc)
    (hl : pc.loaded = some (p,f)) : Unmapped sh f := by
  cases pc <;> cases hl
  case sample => exact h.2.2.1
  case install => exact h.2.2.1
  case insert => exact h.2.2.2.1

section Sections

variable {s : Pool C n} {t : Fin n} {fault : Option StorageError} {lsn : ℕ} {r : Shared C × Pc}

theorem afterPin_loaded (a : Access) (p f : ℕ) : (afterPin a p f).loaded = none := by
  cases a <;> rfl

theorem afterFlush_loaded (o : Owner) (f : ℕ) (err : Option StorageError) :
    (afterFlush o f err).loaded = none := by
  cases o <;> cases err <;> rfl

variable {p f : ℕ}

theorem advance_loaded (h : advance fmt frameCount s t fault lsn = some r)
    (hl : r.2.loaded = some (p,f)) :
    ((s.threads t).loaded = some (p,f) ∧ r.1.content = s.content) ∨ r.1.content f = fmt.zero ∨
      r.1.content f = s.onDisk p := by
  have hg := goes h
  generalize s.threads t = pc at hg
  cases hg with
  | clean =>
    rw [afterFlush_loaded] at hl
    cases hl
  | flush h =>
    rcases hst : r.2.stage with _ | st'
    · rcases advanceFlush_returns h hst with ⟨-,hr⟩ | ⟨e,b,-,hr⟩ <;>
        rw [hr,afterFlush_loaded] at hl <;> cases hl
    · obtain ⟨o,g,page,saved,hr⟩ := Pc.flushing_of_stage hst
      rw [hr] at hl
      cases hl
  | hit | insert =>
    rw [afterPin_loaded] at hl
    cases hl
  | fillNew =>
    cases hl
    exact .inr (.inl (setContent_self ..))
  | load =>
    cases hl
    exact .inr (.inr (setContent_self ..))
  | sample | install => exact .inl ⟨hl,rfl⟩
  | _ => cases hl

theorem insert_content {a : Access} (hpc : s.threads t = .insert a p f)
    (h : advance fmt frameCount s t fault lsn = some r) : r.1.content = s.content := by
  simp only [advance,hpc,Pc.allocating,if_true,advanceAlloc,Option.some.injEq] at h
  rw [← h]

theorem advance_cached (h : Inv s) (he : Effect s.toShared r.1 (s.threads t))
    (hr : Section fmt s t lsn r) (hp : s.pageTable p = some f) :
    r.1.content f = s.content f ∨
      s.threads t = .fpiAppend p f ∧ r.1.content f = fmt.setPdLsn (s.content f) lsn := by
  rcases hr.content f with hc | ⟨hf,-⟩ | ⟨q,hpc,hc⟩
  · exact .inl hc
  · rcases he.content f with hc | hw | ⟨-,hu⟩
    · exact .inl hc
    · exact absurd hw (latched_eq_false hf t).1
    · exact absurd hp (hu p)
  · have hq : s.pageTable q = some f := h.mapped_of_pinned (u := t) (by rw [hpc]; rfl)
    cases h.page_unique hp hq
    exact .inr ⟨hpc,hc⟩

end Sections

section Steps

variable {P : ℕ → C → Prop} {s s' : Pool C n} {a : Step C n}

theorem Images.onDisk_step (h : Inv s) (hi : Images P s) (hs : step fmt frameCount s a = some s')
    (p : ℕ) : P p (s'.onDisk p) := by
  have hbase := (step_grows hs).base
  rcases (step_files hs).1 with hw | ⟨t,o,f,q,saved,hpc,hw⟩
  · simpa only [Shared.onDisk,hw,hbase] using hi.onDisk p
  · have hmap := (h.at_pc hpc).mapped_of_flushing
    have hd : s'.onDisk = update s.onDisk q (s.content f) := by
      simp only [Shared.onDisk,hw,hbase,List.foldl_append,List.foldl_cons,List.foldl_nil]
    rw [hd]
    by_cases hpq : p = q
    · subst hpq
      rw [update_self]
      exact hi.cached p f hmap
    · rw [update_of_ne hpq]
      exact hi.onDisk p

/-- It is enough that what a guard stores and the stamp of an image keep the property. -/
theorem Images.step (h : Inv s) (hi : Images P s) (hclean : Clean s a)
    (hs : step fmt frameCount s a = some s') (hzero : ∀ p, P p fmt.zero)
    (hmodify : ∀ t c p f, a = .modify t c → s.threads t = .writing p f → P p c)
    (hstamp : ∀ t lsn p f, a = .run t none lsn → s.threads t = .fpiAppend p f →
      P p (fmt.setPdLsn (s.content f) lsn)) : Images P s' := by
  have hdisk := hi.onDisk_step h hs
  cases step_case hs with
  | @run t fault lsn r hr =>
    have hm := move_advance h hclean hr
    refine ⟨fun p f hp => ?_,hdisk,fun u p f hl => ?_⟩
    · change P p (r.1.content f)
      rcases hm.effect.inserted p f hp with hp | ⟨x,hpc⟩
      · rcases advance_cached h hm.effect (advance_section hr) hp with hc | ⟨hpc,hc⟩
        · rw [hc]
          exact hi.cached p f hp
        · cases fault with
          | none => exact hc ▸ hstamp t lsn p f rfl hpc
          | some e =>
            simp only [advance,hpc,Pc.allocating,Bool.false_eq_true,if_false,advanceGuard] at hr
            cases hr
            exact hi.cached p f hp
      · rw [insert_content hpc hr]
        exact hi.loaded t p f (by rw [hpc]; rfl)
    · change P p (r.1.content f)
      by_cases hut : u = t
      · subst hut
        replace hl : r.2.loaded = some (p,f) := by
          simpa only [Pool.setThread,update_self] using hl
        rcases advance_loaded hr hl with ⟨hl,hc⟩ | hc | hc
        · rw [hc]
          exact hi.loaded u p f hl
        · rw [hc]
          exact hzero p
        · rw [hc]
          exact hi.onDisk p
      · replace hl : (s.threads u).loaded = some (p,f) := by
          simpa only [Pool.setThread,update_of_ne hut] using hl
        have ht : (s.threads t).allocating = false := by
          by_contra hta
          exact hut (h.alloc u t (Pc.allocating_of_loaded hl) (by simpa using hta))
        have hun := (h.pc u).unmapped_of_loaded hl
        rw [hm.effect.keep_content ht fun q hq => hun q (h.mapped_of_pinned hq)]
        exact hi.loaded u p f hl
  | @begins _ t r hb =>
    refine ⟨fun p f hp => ?_,hdisk,fun u p f hl => ?_⟩
    · change P p (r.1.content f)
      rw [hb.content]
      exact hi.cached p f (hb.pageTable ▸ hp)
    · change P p (r.1.content f)
      rw [hb.content]
      by_cases hut : u = t
      · subst hut
        have hv := Pc.victim_of_loaded (show r.2.loaded = some (p,f) by
          simpa only [Pool.setThread,update_self] using hl)
        rw [hb.victim.1] at hv
        cases hv
      · exact hi.loaded u p f (by simpa only [Pool.setThread,update_of_ne hut] using hl)
  | @modify t q g c hpc =>
    have hq : s.pageTable q = some g := h.mapped_of_pinned (u := t) (by rw [hpc]; rfl)
    have hother : ∀ f, f ≠ g → (s.setContent g c).content f = s.content f := fun f hf =>
      setContent_other _ _ hf
    refine ⟨fun p f hp => ?_,hdisk,fun u p f hl => ?_⟩
    · change P p ((s.setContent g c).content f)
      by_cases hf : f = g
      · subst hf
        cases h.page_unique hp hq
        rw [setContent_self]
        exact hmodify t c _ f rfl hpc
      · rw [hother f hf]
        exact hi.cached p f hp
    · change P p ((s.setContent g c).content f)
      have hun := (h.pc u).unmapped_of_loaded hl
      rw [hother f fun hf => hun q (hf ▸ hq)]
      exact hi.loaded u p f hl
  | setCheckpointLsn => exact ⟨hi.cached,hdisk,hi.loaded⟩

theorem tryPinResident_checkpointLsn {sh sh' : Shared C} {p f : ℕ} {contended : Bool}
    (h : tryPinResident sh p contended = some (f,sh')) : sh'.checkpointLsn = sh.checkpointLsn := by
  obtain ⟨-,-,rfl⟩ := tryPinResident_some h
  rfl

theorem advance_checkpointLsn {t : Fin n} {fault : Option StorageError} {lsn : ℕ}
    {r : Shared C × Pc} (h : advance fmt frameCount s t fault lsn = some r) :
    r.1.checkpointLsn = s.checkpointLsn := by
  have hg := goes h
  generalize s.threads t = pc at hg
  cases hg with
  | hit hpin => exact tryPinResident_checkpointLsn hpin
  | @flush _ _ _ _ st _ h =>
    cases st <;> simp only [advanceFlush] at h
    all_goals
      repeat' split at h
      all_goals cases h
    all_goals rfl
  | _ => rfl

theorem step_checkpointLsn (hs : step fmt frameCount s a = some s')
    (ha : ∀ lsn, a ≠ .setCheckpointLsn lsn) : s'.checkpointLsn = s.checkpointLsn := by
  rcases step_ran hs with ⟨t,r,hr,rfl⟩ | ⟨lsn,rfl,-⟩
  · cases hr with
    | hit _ _ hpin => exact tryPinResident_checkpointLsn hpin
    | run hr => exact advance_checkpointLsn hr
    | _ => rfl
  · exact absurd rfl (ha lsn)

theorem step_writing {t : Fin n} {p f : ℕ} (hs : step fmt frameCount s a = some s')
    (hpc : s.threads t = .writing p f) (ha : a ≠ .drop t) : s'.threads t = .writing p f := by
  have hother : ∀ {u : Fin n} {r : Shared C × Pc}, t ≠ u →
      (s.setThread u r).threads t = .writing p f := fun hu => by
    simpa only [Pool.setThread,update_of_ne hu] using hpc
  cases step_case hs with
  | @run u fault lsn r hr =>
    refine hother fun htu => ?_
    subst htu
    simp [advance,hpc,Pc.allocating,advanceGuard] at hr
  | @begins _ u r hb =>
    refine hother fun htu => ?_
    subst htu
    exact ha (hb.guard p f hpc)
  | modify | setCheckpointLsn => exact hpc

end Steps

end BufferPool
end PgAm
