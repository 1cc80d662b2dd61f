import PgAm.PoolImages

/-! The `needs_fpi` flag of a frame. The pool has it set for every resident page that has been
loaded, or written since `new_page` handed it out, except while the flush that has written the
page still holds its content latch. So whoever has the page latched for writing reads it set. -/
namespace PgAm
namespace BufferPool

open Threads Function

variable {C : Type} {n : ℕ} {fmt : PageFormat C} {frameCount : ℕ}

/-- The pages that `new_page` has handed out and that nobody has written or loaded since. -/
def sectionUnflushed (unflushed : ℕ → Bool) : Pc → Option StorageError → ℕ → Bool
  | .markNew p _,_ => update unflushed p true
  | .install _ p _ _,_ => update unflushed p false
  | .flushing _ _ p _ .write,none => update unflushed p false
  | _,_ => unflushed

def nextUnflushed (s : Pool C n) (unflushed : ℕ → Bool) : Step C n → ℕ → Bool
  | .run t fault _ => sectionUnflushed unflushed (s.threads t) fault
  | _ => unflushed

namespace Pc

/-- The frame whose page the thread has written and not flagged yet. -/
def unmarked : Pc → Option ℕ
  | .flushing _ f _ _ .bump | .flushing _ f _ _ (.mark _) => some f
  | _ => none

def flagged : Pc → Bool
  | .insert .. | .fpiGate .. => true
  | _ => false

theorem reads_of_unmarked {pc : Pc} {f : ℕ} (h : pc.unmarked = some f) : pc.reads = some f := by
  cases pc with
  | flushing o g page saved st => cases st <;> cases h <;> rfl
  | _ => cases h

end Pc

structure Flags (unflushed : ℕ → Bool) (s : Pool C n) : Prop where
  cached : ∀ p f, s.pageTable p = some f → (s.frameMeta f).needsFpi = true ∨
    unflushed p = true ∨ ∃ t, (s.threads t).unmarked = some f
  installed : ∀ t a p f, s.threads t = .insert a p f → (s.frameMeta f).needsFpi = true
  checked : ∀ t p f b, s.threads t = .fpiGate p f b → b = true ∨ unflushed p = true

structure FlagMove (s : Shared C) (pc : Pc) (r : Shared C × Pc) : Prop where
  needsFpi : ∀ f, (r.1.frameMeta f).needsFpi = (s.frameMeta f).needsFpi ∨
    (r.1.frameMeta f).needsFpi = true ∨ (∃ p, pc = .markNew p f) ∨ ∃ a p, pc = .reset a p f
  marked : ∀ f, pc.unmarked = some f → r.2.unmarked = some f ∨ (r.1.frameMeta f).needsFpi = true
  installed : ∀ a p f, r.2 = .insert a p f → (r.1.frameMeta f).needsFpi = true
  checked : ∀ p f b, r.2 = .fpiGate p f b → pc = .fpiCheck p f ∧ b = (s.frameMeta f).needsFpi

section Moves

variable {sh : Shared C} {pc : Pc} {r : Shared C × Pc} {f : ℕ} {m : FrameMeta}

theorem FlagMove.same (hm : ∀ f, (r.1.frameMeta f).needsFpi = (sh.frameMeta f).needsFpi)
    (hr : r.2.flagged = false) (hpc : pc.unmarked = none := by rfl) : FlagMove sh pc r where
  needsFpi f := .inl (hm f)
  marked f hf := by cases hpc.symm.trans hf
  installed a p f hi := by
    rw [hi] at hr
    cases hr
  checked p f b hb := by
    rw [hb] at hr
    cases hr

theorem needsFpi_setMeta (hm : m.needsFpi = (sh.frameMeta f).needsFpi) (g : ℕ) :
    ((sh.setMeta f m).frameMeta g).needsFpi = (sh.frameMeta g).needsFpi :=
  forall_setMeta (fun g m => m.needsFpi = (sh.frameMeta g).needsFpi) hm (fun _ => rfl) g

theorem FlagMove.setMeta {pc' : Pc} (hm : m.needsFpi = (sh.frameMeta f).needsFpi := by rfl)
    (hr : pc'.flagged = false := by rfl) (hpc : pc.unmarked = none := by rfl) :
    FlagMove sh pc (sh.setMeta f m,pc') :=
  .same (needsFpi_setMeta hm) hr hpc

theorem afterPin_flagged (a : Access) (p f : ℕ) : (afterPin a p f).flagged = false := by
  cases a <;> rfl

theorem afterFlush_flagged (o : Owner) (f : ℕ) (err : Option StorageError) :
    (afterFlush o f err).flagged = false := by
  cases o <;> cases err <;> rfl

theorem FlagMove.pin {a : Access} {p : ℕ} {contended : Bool} {sh' : Shared C}
    (h : tryPinResident sh p contended = some (f,sh')) (hpc : pc.unmarked = none) :
    FlagMove sh pc (sh',afterPin a p f) := by
  obtain ⟨-,-,rfl⟩ := tryPinResident_some h
  exact .setMeta rfl (afterPin_flagged a p f) hpc

theorem advanceFlush_flags {o : Owner} {page saved : ℕ} {st : Stage} {wl : Bool}
    {fault : Option StorageError}
    (h : advanceFlush fmt sh wl o f page saved fault st = some r) :
    FlagMove sh (.flushing o f page saved st) r := by
  cases st <;> simp only [advanceFlush] at h
  case bump =>
    cases h
    exact ⟨fun _ => .inl rfl,fun _ hf => .inl hf,by rintro _ _ _ ⟨⟩,by rintro _ _ _ ⟨⟩⟩
  case mark gen =>
    cases h
    refine ⟨forall_setMeta (fun g m => m.needsFpi = _ ∨ m.needsFpi = true ∨ _) (.inr (.inl rfl))
      fun _ => .inl rfl,fun g hg => .inr ?_,by rintro _ _ _ ⟨⟩,by rintro _ _ _ ⟨⟩⟩
    cases hg
    rw [setMeta_self]
  case done =>
    cases h
    exact .setMeta rfl (afterFlush_flagged ..)
  case failed =>
    cases h
    exact .setMeta rfl (afterFlush_flagged ..)
  all_goals
    repeat' split at h
    all_goals cases h
    all_goals exact .same (fun _ => rfl) rfl

variable {s : Pool C n} {t : Fin n} {fault : Option StorageError} {lsn : ℕ}

theorem advance_flags (h : advance fmt frameCount s t fault lsn = some r) :
    FlagMove s.toShared (s.threads t) r := by
  have hg := goes h
  generalize s.threads t = pc at hg
  cases hg with
  | flush h => exact advanceFlush_flags h
  | clean => exact .same (fun _ => rfl) (afterFlush_flagged ..)
  | hit hpin => exact .pin hpin rfl
  | insert => exact .same (fun _ => rfl) (afterPin_flagged ..)
  | install =>
    refine ⟨forall_setMeta (fun g m => m.needsFpi = _ ∨ m.needsFpi = true ∨ _) (.inr (.inl rfl))
      fun _ => .inl rfl,nofun,fun a p f hi => ?_,nofun⟩
    cases hi
    rw [setMeta_self]
  | @markNew p f =>
    exact ⟨forall_setMeta (fun g m => m.needsFpi = _ ∨ m.needsFpi = true ∨
      (∃ q, Pc.markNew p f = .markNew q g) ∨ _) (.inr (.inr (.inl ⟨p,rfl⟩))) fun _ => .inl rfl,
      nofun,nofun,nofun⟩
  | @reset a p f =>
    exact ⟨forall_setMeta (fun g m => m.needsFpi = _ ∨ m.needsFpi = true ∨
      (∃ q, Pc.reset a p f = .markNew q g) ∨ ∃ b q, Pc.reset a p f = .reset b q g)
      (.inr (.inr (.inr ⟨a,p,rfl⟩))) fun _ => .inl rfl,nofun,nofun,nofun⟩
  | fpiCheck =>
    refine ⟨fun _ => .inl rfl,nofun,nofun,fun p f b hb => ?_⟩
    cases hb
    exact ⟨rfl,rfl⟩
  | claim | spare | evictDirty | evict | evictFailed | markDirty | markDirtyOnly | fpiMeta
  | dropMut | unpin => exact .setMeta
  | _ => exact .same (fun _ => rfl) rfl

theorem Ran.flags {a : Step C n} (hr : Ran fmt frameCount s a t r) :
    FlagMove s.toShared (s.threads t) r := by
  have hfree : (s.threads t).free = true → (s.threads t).unmarked = none := fun hf => by
    generalize s.threads t = pc at hf
    cases pc <;> first | rfl | cases hf
  cases hr with
  | hit hf _ hpin => exact .pin hpin (hfree hf)
  | run hr => exact advance_flags hr
  | newPage hf | miss hf | flush hf | answered hf => exact .same (fun _ => rfl) rfl (hfree hf)
  | modify hpc | dropRead hpc | dropWrite hpc =>
    rw [hpc]
    exact .same (fun _ => rfl) rfl

end Moves

section Steps

variable {s : Pool C n} {t : Fin n} {r : Shared C × Pc} {a : Step C n} {unflushed : ℕ → Bool}

theorem sectionUnflushed_true (pc : Pc) (fault : Option StorageError) {p : ℕ}
    (hu : unflushed p = true) : sectionUnflushed unflushed pc fault p = true ∨
      (∃ x f lsn, pc = .install x p f lsn) ∨
      ∃ o f saved, pc = .flushing o f p saved .write ∧ fault = none := by
  have hother : ∀ q b, p ≠ q → update unflushed q b p = true := fun q b hq => by
    rwa [update_of_ne hq]
  unfold sectionUnflushed
  split
  case h_1 q f =>
    by_cases hq : p = q
    · exact .inl (by rw [hq,update_self])
    · exact .inl (hother q true hq)
  case h_2 x q f lsn =>
    by_cases hq : p = q
    · exact .inr (.inl ⟨x,f,lsn,by rw [hq]⟩)
    · exact .inl (hother q false hq)
  case h_3 o f q saved =>
    by_cases hq : p = q
    · exact .inr (.inr ⟨o,f,saved,by rw [hq],rfl⟩)
    · exact .inl (hother q false hq)
  case h_4 => exact .inl hu

theorem Ran.clears_unflushed {p : ℕ} (hr : Ran fmt frameCount s a t r) (hu : unflushed p = true) :
    nextUnflushed s unflushed a p = true ∨ (∃ x f lsn, s.threads t = .install x p f lsn) ∨
      ∃ o f saved, s.threads t = .flushing o f p saved .write ∧ r.2.unmarked = some f := by
  cases hr with
  | @run _ fault lsn _ hr =>
    rcases sectionUnflushed_true (s.threads t) fault hu with
      hn | hi | ⟨o,f,saved,hpc,rfl⟩
    · exact .inl hn
    · exact .inr (.inl hi)
    · cases advance_flushing hpc hr
      exact .inr (.inr ⟨o,f,saved,hpc,rfl⟩)
  | answered _ ha =>
    cases a with
    | run => exact (ha _ _ _ rfl).elim
    | _ => exact .inl hu
  | _ => exact .inl hu

theorem Ran.marksNew {p f : ℕ} (hr : Ran fmt frameCount s a t r)
    (hpc : s.threads t = .markNew p f) : nextUnflushed s unflushed a p = true := by
  cases hr with
  | run hr => simp only [nextUnflushed,hpc,sectionUnflushed,update_self]
  | newPage hfree | hit hfree | miss hfree | flush hfree | answered hfree =>
    rw [hpc] at hfree
    cases hfree
  | modify hpc' | dropRead hpc' | dropWrite hpc' => cases hpc.symm.trans hpc'

/-- The flag of a mapped frame stays set, unless `new_page` hands its page out again. -/
theorem Ran.keeps_flag {p f : ℕ} (hr : Ran fmt frameCount s a t r) (h : Inv s)
    (hp : s.pageTable p = some f) (hset : (s.frameMeta f).needsFpi = true) :
    (r.1.frameMeta f).needsFpi = true ∨ nextUnflushed s unflushed a p = true := by
  rcases hr.flags.needsFpi f with he | hn | ⟨q,hpc⟩ | ⟨x,q,hpc⟩
  · exact .inl (he.trans hset)
  · exact .inl hn
  · cases h.page_unique hp (h.at_pc hpc)
    exact .inr (hr.marksNew hpc)
  · exact absurd hp ((h.at_pc hpc).2.2.2 p)

/-- A new page stays new while it is mapped, unless a flush writes it. -/
theorem Ran.keeps_unflushed {p f : ℕ} (hr : Ran fmt frameCount s a t r) (h : Inv s)
    (hp : s.pageTable p = some f) (hu : unflushed p = true) :
    nextUnflushed s unflushed a p = true ∨
      (s.threads t).reads = some f ∧ r.2.unmarked = some f := by
  rcases hr.clears_unflushed hu with hn | ⟨x,g,lsn,hpc⟩ | ⟨o,g,saved,hpc,hm⟩
  · exact .inl hn
  · cases hp.symm.trans (h.at_pc hpc).1.missing
  · cases hp.symm.trans (h.at_pc hpc).mapped_of_flushing
    exact .inr ⟨by rw [hpc]; rfl,hm⟩

theorem Inv.unmarked_of_writes {u v : Fin n} {f : ℕ} (h : Inv s)
    (hw : (s.threads u).writes = some f) : (s.threads v).unmarked ≠ some f :=
  fun hm => h.reader f u v hw (Pc.reads_of_unmarked hm)

theorem Flags.cached_ran (hfl : Flags unflushed s) (h : Inv s) (hm : Move s t r)
    (hr : Ran fmt frameCount s a t r) {p f : ℕ} (hp : r.1.pageTable p = some f) :
    (r.1.frameMeta f).needsFpi = true ∨ nextUnflushed s unflushed a p = true ∨
      ∃ u, ((s.setThread t r).threads u).unmarked = some f := by
  have hself : ∀ {f}, r.2.unmarked = some f →
      ∃ u, ((s.setThread t r).threads u).unmarked = some f :=
    fun hu => ⟨t,by rwa [Pool.setThread_self]⟩
  rcases hm.effect.inserted p f hp with hold | ⟨x,hpc⟩
  · rcases hfl.cached p f hold with hset | hu | ⟨u,hu⟩
    · exact (hr.keeps_flag h hold hset).imp_right .inl
    · rcases hr.keeps_unflushed h hold hu with hn | ⟨-,hm⟩
      · exact .inr (.inl hn)
      · exact .inr (.inr (hself hm))
    · by_cases hut : u = t
      · subst hut
        rcases hr.flags.marked f hu with hm | hset
        · exact .inr (.inr (hself hm))
        · exact .inl hset
      · exact .inr (.inr ⟨u,by rwa [Pool.setThread_other _ _ hut]⟩)
  · refine .inl ?_
    rcases hr.flags.needsFpi f with he | hn | ⟨q,hpc'⟩ | ⟨y,q,hpc'⟩
    · exact he.trans (hfl.installed t x p f hpc)
    · exact hn
    · cases hpc.symm.trans hpc'
    · cases hpc.symm.trans hpc'

theorem Flags.installed_ran (hfl : Flags unflushed s) (h : Inv s)
    (hr : Ran fmt frameCount s a t r) (u : Fin n) (x : Access) (p f : ℕ)
    (hpc : (s.setThread t r).threads u = .insert x p f) : (r.1.frameMeta f).needsFpi = true := by
  by_cases hut : u = t
  · subst hut
    exact hr.flags.installed x p f (by rwa [Pool.setThread_self] at hpc)
  · rw [Pool.setThread_other _ _ hut] at hpc
    rcases hr.flags.needsFpi f with he | hn | ⟨q,hpc'⟩ | ⟨y,q,hpc'⟩
    · exact he.trans (hfl.installed u x p f hpc)
    · exact hn
    · exact absurd (h.at_pc hpc') ((h.at_pc hpc).2.2.2.1 q)
    · exact absurd (h.alloc u t (by rw [hpc]; rfl) (by rw [hpc']; rfl)) hut

theorem Flags.checked_ran (hfl : Flags unflushed s) (h : Inv s)
    (hr : Ran fmt frameCount s a t r) (u : Fin n) (p f : ℕ) (b : Bool)
    (hpc : (s.setThread t r).threads u = .fpiGate p f b) :
    b = true ∨ nextUnflushed s unflushed a p = true := by
  by_cases hut : u = t
  · subst hut
    rw [Pool.setThread_self] at hpc
    obtain ⟨hck,rfl⟩ := hr.flags.checked p f b hpc
    have hp : s.pageTable p = some f := h.at_pc hck
    rcases hfl.cached p f hp with hset | hu | ⟨v,hv⟩
    · exact .inl hset
    · refine .inr ((hr.keeps_unflushed h hp hu).resolve_right fun hread => ?_)
      rw [hck] at hread
      cases hread.1
    · exact absurd hv (h.unmarked_of_writes (u := u) (by rw [hck]; rfl))
  · rw [Pool.setThread_other _ _ hut] at hpc
    refine (hfl.checked u p f b hpc).imp_right fun hu => ?_
    refine (hr.keeps_unflushed h (h.at_pc hpc) hu).resolve_right fun hread => ?_
    exact h.reader f u t (by rw [hpc]; rfl) hread.1

theorem Flags.step {s' : Pool C n} (hfl : Flags unflushed s) (h : Inv s) (hclean : Clean s a)
    (hs : step fmt frameCount s a = some s') : Flags (nextUnflushed s unflushed a) s' := by
  rcases step_ran hs with ⟨t,r,hr,rfl⟩ | ⟨lsn,rfl,rfl⟩
  · exact ⟨fun _ _ => hfl.cached_ran h (hr.move h hclean) hr,hfl.installed_ran h hr,
      hfl.checked_ran h hr⟩
  · exact { hfl with }

theorem opened_flags (base : ℕ → C) : Flags unflushed (opened base fmt : Pool C n) :=
  ⟨nofun,nofun,nofun⟩

end Steps

end BufferPool
end PgAm
