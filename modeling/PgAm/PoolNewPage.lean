import PgAm.PoolImages
import PgAm.PoolSafety

/-! New pages of the pool together with the page allocator. Freeing a page does not touch the
pool, so a page can come back from the freelist while a frame still caches it; when it is not
cached and nobody else works on it, its guard shows a zero page. -/
namespace PgAm
namespace BufferPool

open Threads

variable {C : Type} {n : ℕ} {fmt : PageFormat C} {frameCount : ℕ}

namespace Pc

def access : Pc → Option (Access × ℕ)
  | .allocWait a p | .resident a p | .absent a p | .scan a p _ | .probe a p _ _
  | .flushClaim (.evict a p _) _ | .flushing (.evict a p _) .. | .evictFailed a p _ _
  | .unmap a p _ _ | .reset a p _ | .fill a p _ | .load a p _ | .sample a p _
  | .install a p _ _ | .insert a p _ | .latch a p _ | .markDirty a p _ => some (a,p)
  | .markNew p _ => some (.newPage,p)
  | .fpiCheck p _ | .fpiGate p _ _ | .fpiAppend p _ | .fpiMeta p _ _ => some (.pinMut,p)
  | _ => none

def page (pc : Pc) : Option ℕ := (pc.access.map Prod.snd).or (pc.pinned.map Prod.fst)

/-- The page of `new_page` before the call knows that the page is not resident. -/
def looking : Pc → Option ℕ
  | .allocWait .newPage p | .resident .newPage p | .absent .newPage p => some p
  | _ => none

/-- The page and the frame of `new_page` once the frame is zeroed. -/
def made : Pc → Option (ℕ × ℕ)
  | .sample .newPage p f | .install .newPage p f _ | .insert .newPage p f | .markNew p f
  | .latch .newPage p f => some (p,f)
  | _ => none

def stray : Pc → Bool
  | .load .newPage .. | .markDirty .newPage .. => true
  | _ => false

def guarding : Pc → Option (ℕ × ℕ)
  | .writing p f => some (p,f)
  | _ => none

variable {pc : Pc}

theorem page_of_access {a : Access} {p : ℕ} (h : pc.access = some (a,p)) : pc.page = some p := by
  simp only [page,h,Option.map_some,Option.some_or]

theorem page_of_pinned {p f : ℕ} (h : pc.pinned = some (p,f)) : pc.page = some p := by
  cases pc <;> cases h <;> rfl

theorem access_of_looking {p : ℕ} (h : pc.looking = some p) : pc.access = some (.newPage,p) := by
  cases pc
  case allocWait a q => cases a <;> cases h; rfl
  case resident a q => cases a <;> cases h; rfl
  case absent a q => cases a <;> cases h; rfl
  all_goals cases h

theorem access_of_made {p f : ℕ} (h : pc.made = some (p,f)) : pc.access = some (.newPage,p) := by
  cases pc
  case sample a q g => cases a <;> cases h; rfl
  case install a q g l => cases a <;> cases h; rfl
  case insert a q g => cases a <;> cases h; rfl
  case latch a q g => cases a <;> cases h; rfl
  case markNew q g => cases h; rfl
  all_goals cases h

theorem pinned_or_loaded_of_made {p f : ℕ} (h : pc.made = some (p,f)) :
    pc.pinned = some (p,f) ∨ pc.loaded = some (p,f) := by
  cases pc
  case sample a q g => cases a <;> cases h; exact .inr rfl
  case install a q g l => cases a <;> cases h; exact .inr rfl
  case insert a q g => cases a <;> cases h; exact .inr rfl
  case latch a q g => cases a <;> cases h; exact .inl rfl
  case markNew q g => cases h; exact .inl rfl
  all_goals cases h

end Pc

section Sections

variable {s : Pool C n} {t : Fin n} {fault : Option StorageError} {lsn : ℕ} {r : Shared C × Pc}

theorem afterPin_access (a : Access) (p f : ℕ) : (afterPin a p f).access = some (a,p) := by
  cases a <;> rfl

theorem afterPin_page (a : Access) (p f : ℕ) : (afterPin a p f).page = some p :=
  Pc.page_of_access (afterPin_access a p f)

structure SameCall (pc pc' : Pc) : Prop where
  access : pc'.access = none ∨ pc'.access = pc.access
  page : pc'.page = none ∨ pc'.page = pc.page

variable {pc : Pc}

theorem afterFlush_sameCall (o : Owner) (f : ℕ) (err : Option StorageError)
    (hpc : pc = .flushClaim o f ∨ ∃ page saved st, pc = .flushing o f page saved st) :
    SameCall pc (afterFlush o f err) := by
  rcases hpc with rfl | ⟨page,saved,st,rfl⟩ <;> cases o <;> cases err <;> exact ⟨.inr rfl,.inr rfl⟩

theorem advance_sameCall (h : advance fmt frameCount s t fault lsn = some r) :
    SameCall (s.threads t) r.2 := by
  have hg := goes h
  generalize s.threads t = pc at hg
  cases hg with
  | clean => exact afterFlush_sameCall _ _ none (.inl rfl)
  | @claim o => cases o <;> exact ⟨.inr rfl,.inr rfl⟩
  | @flush o _ _ _ st _ h =>
    cases st <;> simp only [advanceFlush] at h
    all_goals
      repeat' split at h
      all_goals cases h
    all_goals cases o <;> exact ⟨.inr rfl,.inr rfl⟩
  | hit | insert => exact ⟨.inr (afterPin_access ..),.inr (afterPin_page ..)⟩
  | full | loadFails | evictFailed | unpin => exact ⟨.inl rfl,.inl rfl⟩
  | pin | pinNew | markDirtyOnly | fpiSpared | fpiFails | fpiMeta | dropped | dropMut =>
    exact ⟨.inl rfl,.inr rfl⟩
  | markDirty ha =>
    cases ha
    exact ⟨.inr rfl,.inr rfl⟩
  | _ => exact ⟨.inr rfl,.inr rfl⟩

variable {sh : Shared C}

/-- `new_page` does not load the page; it goes on with the mapped frame or with a zeroed one. -/
structure NewPageSection (fmt : PageFormat C) (sh : Shared C) (pc : Pc) (r : Shared C × Pc) :
    Prop where
  stray : r.2.stray = false
  looking : ∀ p, r.2.looking = some p → pc.looking = some p ∧ r.1.pageTable = sh.pageTable
  made : ∀ p f, r.2.made = some (p,f) → (pc.made = some (p,f) ∧ r.1.content = sh.content) ∨
    r.1.content f = fmt.zero ∨ pc = .load .newPage p f ∨
    pc.looking = some p ∧ sh.pageTable p = some f
  guard : ∀ p f, r.2 = .writing p f → (∃ q, pc.access = some (.newPage,q)) → pc.stray = false →
    pc.made = some (p,f) ∧ r.1.content = sh.content

theorem NewPageSection.unguarded {r : Shared C × Pc}
    (hstray : r.2.stray = false) (hguard : r.2.guarding = none)
    (hlook : ∀ p, r.2.looking = some p → pc.looking = some p ∧ r.1.pageTable = sh.pageTable)
    (hmade : ∀ p f, r.2.made = some (p,f) → (pc.made = some (p,f) ∧ r.1.content = sh.content) ∨
      r.1.content f = fmt.zero ∨ pc = .load .newPage p f ∨
      pc.looking = some p ∧ sh.pageTable p = some f) : NewPageSection fmt sh pc r := by
  refine ⟨hstray,hlook,hmade,fun p f hr => ?_⟩
  rw [hr] at hguard
  cases hguard

theorem NewPageSection.other {r : Shared C × Pc}
    (hstray : r.2.stray = false) (hlook : r.2.looking = none)
    (hmade : r.2.made = none) (hguard : r.2.guarding = none) : NewPageSection fmt sh pc r :=
  .unguarded hstray hguard (by simp [hlook]) (by simp [hmade])

theorem afterFlush_newPage (sh sh' : Shared C) (pc : Pc) (o : Owner) (f : ℕ)
    (err : Option StorageError) : NewPageSection fmt sh pc (sh',afterFlush o f err) := by
  cases o <;> cases err <;> exact .other rfl rfl rfl rfl

theorem NewPageSection.writing {sh sh' : Shared C} {p f : ℕ}
    (hpc : ∀ q, pc.access = some (.newPage,q) → pc.stray = true) :
    NewPageSection fmt sh pc (sh',.writing p f) := by
  refine ⟨rfl,nofun,nofun,?_⟩
  rintro _ _ - ⟨q,hq⟩ hstray
  rw [hpc q hq] at hstray
  cases hstray

theorem advance_newPage (h : advance fmt frameCount s t fault lsn = some r) :
    NewPageSection fmt s.toShared (s.threads t) r := by
  have hg := goes h
  generalize s.threads t = pc at hg
  cases hg with
  | @lock a | @miss a | @again a =>
    cases a
    case newPage => exact .unguarded rfl rfl (fun q hq => ⟨hq,rfl⟩) (by rintro _ _ ⟨⟩)
    all_goals exact .other rfl rfl rfl rfl
  | clean => exact afterFlush_newPage ..
  | @flush o f page saved st r h =>
    cases st <;> simp only [advanceFlush] at h
    all_goals
      repeat' split at h
      all_goals cases h
    all_goals first | exact afterFlush_newPage .. | exact .other rfl rfl rfl rfl
  | @hit a p f sh' hpin =>
    have htab := (tryPinResident_some hpin).1
    cases a
    case newPage =>
      refine .unguarded rfl rfl (by rintro _ ⟨⟩) ?_
      rintro _ _ ⟨⟩
      exact .inr (.inr (.inr ⟨rfl,htab⟩))
    all_goals exact .other rfl rfl rfl rfl
  | fillNew ha =>
    cases ha
    refine .unguarded rfl rfl (by rintro _ ⟨⟩) ?_
    rintro _ _ ⟨⟩
    exact .inr (.inl (setContent_self _ _ _))
  | @fill a _ _ ha | @pinMut a _ _ ha =>
    cases a <;> first | exact absurd rfl ha | exact .other rfl rfl rfl rfl
  | @load a =>
    cases a
    case newPage =>
      refine .unguarded rfl rfl (by rintro _ ⟨⟩) ?_
      rintro _ _ ⟨⟩
      exact .inr (.inr (.inl rfl))
    all_goals exact .other rfl rfl rfl rfl
  | @sample a | @install a | @insert a =>
    cases a
    case newPage => exact .unguarded rfl rfl (by rintro _ ⟨⟩) fun q g hm => .inl ⟨hm,rfl⟩
    all_goals exact .other rfl rfl rfl rfl
  | markNew => exact .unguarded rfl rfl (by rintro _ ⟨⟩) fun q g hm => .inl ⟨hm,rfl⟩
  | pinNew =>
    refine ⟨rfl,by rintro _ ⟨⟩,by rintro _ _ ⟨⟩,?_⟩
    rintro _ _ ⟨⟩ - -
    exact ⟨rfl,rfl⟩
  | @markDirtyOnly a =>
    cases a
    case newPage => exact .writing fun _ _ => rfl
    all_goals exact .writing (by rintro _ ⟨⟩)
  | fpiSpared | fpiMeta => exact .writing (by rintro _ ⟨⟩)
  | _ => exact .other rfl rfl rfl rfl

theorem Ran.newPage_section {a : Step C n} (hr : Ran fmt frameCount s a t r) :
    (∃ p contended, a = .access t .newPage p contended ∧ r = (s.toShared,.allocWait .newPage p)) ∨
      NewPageSection fmt s.toShared (s.threads t) r := by
  cases hr with
  | newPage hfree hp => exact .inl ⟨_,_,rfl,rfl⟩
  | @hit _ x p f contended sh hfree hx hpin | @miss _ x p contended hfree hx hp =>
    refine .inr ?_
    cases x <;> first | exact .other rfl rfl rfl rfl | exact absurd rfl hx
  | run hr => exact .inr (advance_newPage hr)
  | modify hpc =>
    rw [hpc]
    exact .inr (.writing nofun)
  | _ => exact .inr (.other rfl rfl rfl rfl)

theorem Ran.sameCall {a : Step C n} (hr : Ran fmt frameCount s a t r) :
    (∃ x p contended, a = .access t x p contended ∧ r.2.access = some (x,p)) ∨
      SameCall (s.threads t) r.2 := by
  cases hr with
  | newPage hfree hp | miss hfree hx hp => exact .inl ⟨_,_,_,rfl,rfl⟩
  | hit hfree hx hpin => exact .inl ⟨_,_,_,rfl,afterPin_access _ _ _⟩
  | flush hfree hf | answered hfree => exact .inr ⟨.inl rfl,.inl rfl⟩
  | run hr => exact .inr (advance_sameCall hr)
  | modify hpc | dropRead hpc | dropWrite hpc =>
    rw [hpc]
    exact .inr ⟨.inl rfl,.inr rfl⟩

end Sections

/-- `new_page` gets a page that is not cached, and no other call works on it before the guard. -/
def Fresh (s : Pool C n) : Step C n → Prop
  | .access _ .newPage p _ => s.pageTable p = none ∧ ∀ u, (s.threads u).page ≠ some p
  | .access _ _ p _ => ∀ u, (s.threads u).access ≠ some (.newPage,p)
  | a => Clean s a

instance (s : Pool C n) (a : Step C n) : Decidable (Fresh s a) :=
  match a with
  | .access _ .newPage p _ =>
    inferInstanceAs (Decidable (s.pageTable p = none ∧ ∀ u, (s.threads u).page ≠ some p))
  | .access _ .pin p _ | .access _ .pinMut p _ | .access _ .pinMutWithoutFpi p _ =>
    inferInstanceAs (Decidable (∀ u, (s.threads u).access ≠ some (.newPage,p)))
  | .run t fault lsn => inferInstanceAs (Decidable (Clean s (.run t fault lsn)))
  | .flush .. | .modify .. | .drop .. | .setCheckpointLsn .. => .isTrue trivial

theorem Fresh.clean {s : Pool C n} {a : Step C n} (h : Fresh s a) : Clean s a := by
  cases a with
  | access => trivial
  | _ => exact h

structure Making (fmt : PageFormat C) (s : Pool C n) : Prop where
  alone : ∀ t u p, (s.threads t).access = some (.newPage,p) → (s.threads u).page = some p → u = t
  stray : ∀ t, (s.threads t).stray = false
  looking : ∀ t p, (s.threads t).looking = some p → s.pageTable p = none
  made : ∀ t p f, (s.threads t).made = some (p,f) → s.content f = fmt.zero

section Steps

variable {s : Pool C n} {t : Fin n} {r : Shared C × Pc} {a : Step C n}

theorem Making.alone_ran (hm : Making fmt s) (hf : Fresh s a) (hr : Ran fmt frameCount s a t r)
    {u v : Fin n} {p : ℕ} (hu : ((s.setThread t r).threads u).access = some (.newPage,p))
    (hv : ((s.setThread t r).threads v).page = some p) : v = u := by
  by_cases hut : u = t
  · by_cases hvt : v = t
    · rw [hut,hvt]
    rw [hut,Pool.setThread_self] at hu
    rw [Pool.setThread_other _ r hvt] at hv
    rcases hr.sameCall with ⟨x,q,c,rfl,hacc⟩ | hcall
    · rw [hacc] at hu
      cases hu
      exact absurd hv (hf.2 v)
    · rcases hcall.access with hnone | hsame
      · rw [hnone] at hu
        cases hu
      · rw [hut]
        exact hm.alone t v p (hsame ▸ hu) hv
  · rw [Pool.setThread_other _ r hut] at hu
    by_cases hvt : v = t
    · rw [hvt,Pool.setThread_self] at hv
      rcases hr.sameCall with ⟨x,q,c,rfl,hacc⟩ | hcall
      · rw [Pc.page_of_access hacc] at hv
        cases hv
        cases x
        case newPage => exact absurd (Pc.page_of_access hu) (hf.2 u)
        all_goals exact absurd hu (hf u)
      · rcases hcall.page with hnone | hsame
        · rw [hnone] at hv
          cases hv
        · exact absurd (hm.alone u t p hu (hsame ▸ hv)) (Ne.symm hut)
    · rw [Pool.setThread_other _ r hvt] at hv
      exact hm.alone u v p hu hv

/-- The frame of a new page is out of reach for everybody else. -/
theorem Making.made_other (h : Inv s) (hm : Making fmt s) (he : Effect s.toShared r.1 (s.threads t))
    {u : Fin n} (hut : u ≠ t) {p f : ℕ} (hu : (s.threads u).made = some (p,f)) :
    r.1.content f = s.content f := by
  rcases he.content f with hc | hw | ⟨halloc,hun⟩
  · exact hc
  · obtain ⟨q,hq⟩ := Pc.pinned_of_writes hw
    have htab := h.mapped_of_pinned hq
    rcases Pc.pinned_or_loaded_of_made hu with hpin | hload
    · cases h.page_unique htab (h.mapped_of_pinned hpin)
      exact absurd (hm.alone u t p (Pc.access_of_made hu) (Pc.page_of_pinned hq)) (Ne.symm hut)
    · exact absurd htab ((h.pc u).unmapped_of_loaded hload q)
  · rcases Pc.pinned_or_loaded_of_made hu with hpin | hload
    · exact absurd (h.mapped_of_pinned hpin) (hun p)
    · exact absurd (h.alloc u t (Pc.allocating_of_loaded hload) halloc) hut

theorem Making.ran (h : Inv s) (hm : Making fmt s) (hf : Fresh s a)
    (hr : Ran fmt frameCount s a t r) : Making fmt (s.setThread t r) := by
  have he := (hr.move h hf.clean).effect
  refine ⟨fun u v p hu hv => hm.alone_ran hf hr hu hv,fun u => ?_,fun u p hu => ?_,
    fun u p f hu => ?_⟩
  · by_cases hut : u = t
    · rw [hut,Pool.setThread_self]
      rcases hr.newPage_section with ⟨q,c,-,rfl⟩ | hsec
      · rfl
      · exact hsec.stray
    · rw [Pool.setThread_other _ r hut]
      exact hm.stray u
  · change r.1.pageTable p = none
    by_cases hut : u = t
    · rw [hut,Pool.setThread_self] at hu
      rcases hr.newPage_section with ⟨q,c,rfl,rfl⟩ | hsec
      · cases hu
        exact hf.1
      · obtain ⟨hlook,htab⟩ := hsec.looking p hu
        rw [htab]
        exact hm.looking t p hlook
    · rw [Pool.setThread_other _ r hut] at hu
      have hnone := hm.looking u p hu
      cases htab : r.1.pageTable p with
      | none => rfl
      | some f =>
        rcases he.inserted p f htab with htab | ⟨x,hpc⟩
        · rw [hnone] at htab
          cases htab
        · exact absurd (hm.alone u t p (Pc.access_of_looking hu) (by rw [hpc]; rfl)) (Ne.symm hut)
  · change r.1.content f = fmt.zero
    by_cases hut : u = t
    · rw [hut,Pool.setThread_self] at hu
      rcases hr.newPage_section with ⟨q,c,rfl,rfl⟩ | hsec
      · cases hu
      · rcases hsec.made p f hu with ⟨hmade,hc⟩ | hc | hpc | ⟨hlook,htab⟩
        · rw [hc]
          exact hm.made t p f hmade
        · exact hc
        · have hstray := hm.stray t
          rw [hpc] at hstray
          cases hstray
        · rw [hm.looking t p hlook] at htab
          cases htab
    · rw [Pool.setThread_other _ r hut] at hu
      rw [hm.made_other h he hut hu]
      exact hm.made u p f hu

theorem opened_making (base : ℕ → C) : Making fmt (opened base fmt : Pool C n) :=
  ⟨nofun,fun _ => rfl,nofun,nofun⟩

/-- The step in which `new_page` returns its guard. -/
theorem Making.guard (hm : Making fmt s) {u : Fin n} (hr : Ran fmt frameCount s a u r)
    {p q f : ℕ} (hpc : (s.threads t).access = some (.newPage,p))
    (hpc' : (s.setThread u r).threads t = .writing q f) :
    q = p ∧ (s.setThread u r).content f = fmt.zero := by
  have htu : t = u := by
    by_contra htu
    rw [Pool.setThread_other _ r htu] at hpc'
    rw [hpc'] at hpc
    cases hpc
  subst htu
  rw [Pool.setThread_self] at hpc'
  refine ⟨?_,?_⟩
  · rcases hr.sameCall with ⟨x,q,c,-,hacc⟩ | hcall
    · rw [hpc'] at hacc
      cases hacc
    · have hpage := hcall.page
      rw [hpc',Pc.page_of_access hpc] at hpage
      rcases hpage with hpage | hpage <;> cases hpage
      rfl
  · rcases hr.newPage_section with ⟨x,c,-,rfl⟩ | hsec
    · cases hpc'
    · obtain ⟨hmade,hc⟩ := hsec.guard q f hpc' ⟨p,hpc⟩ (hm.stray t)
      change r.1.content f = fmt.zero
      rw [hc]
      exact hm.made t q f hmade

end Steps

end BufferPool
end PgAm
