import PgAm.PoolDurable
import PgAm.PoolSafety

/-! What a successful `flush` promises. The changes that guards make are numbered and every page
image carries the numbers of the changes in it, so that an image in the data file can be asked
which changes it contains. -/
namespace PgAm
namespace FlushDurable

open Machine BufferPool Function

variable {D : Type} {n : ℕ} {fmt : PageFormat D} {frameCount : ℕ}

abbrev Marked (D : Type) := D × List ℕ

/-- Stamping a full-page image into a page is not a change. -/
def marked (fmt : PageFormat D) : PageFormat (Marked D) where
  zero := (fmt.zero,[])
  pdLsn c := fmt.pdLsn c.1
  setPdLsn c l := (fmt.setPdLsn c.1 l,c.2)
  pdLsn_zero := fmt.pdLsn_zero
  pdLsn_setPdLsn _ _ := fmt.pdLsn_setPdLsn ..

def Has (m : ℕ) (c : Marked D) : Prop := m ∈ c.2

instance (m : ℕ) (c : Marked D) : Decidable (Has m c) := inferInstanceAs (Decidable (m ∈ c.2))

/-- The pool, the changes under open guards, those under dropped guards, and for each running
`flush` the changes that were dropped before the call. -/
structure Sys (D : Type) (n : ℕ) where
  pool : Pool (Marked D) n
  next : ℕ
  made : Fin n → List ℕ
  dropped : ℕ → List ℕ
  due : Fin n → Option (ℕ × List ℕ)

inductive Step (D : Type) (n : ℕ)
  | modify (t : Fin n) (d : D)
  | flush (t : Fin n) (p : ℕ)
  | pool (a : BufferPool.Step (Marked D) n)

def Sys.letGo (s : Sys D n) (t : Fin n) : Sys D n :=
  match s.pool.threads t with
  | .unpin p _ _ => { s with
      made := update s.made t []
      dropped := update s.dropped p (s.made t ++ s.dropped p) }
  | _ => s

/-- The running calls; that of thread `t` is over when it may start another one. -/
def Sys.dueIn (s : Sys D n) (pool : Pool (Marked D) n) (t : Fin n) (call : Option (ℕ × List ℕ)) :
    Fin n → Option (ℕ × List ℕ) :=
  update s.due t (if (pool.threads t).free then none else call)

def step (fmt : PageFormat D) (frameCount : ℕ) (s : Sys D n) : Step D n → Option (Sys D n)
  | .modify t d =>
    match s.pool.threads t with
    | .writing _ f =>
      (BufferPool.step (marked fmt) frameCount s.pool
        (.modify t (d,s.next :: (s.pool.content f).2))).map fun pool =>
          { s with pool := pool, next := s.next + 1
                   made := update s.made t (s.next :: s.made t) }
    | _ => none
  | .flush t p =>
    (BufferPool.step (marked fmt) frameCount s.pool (.flush t p)).map fun pool =>
      { s with pool := pool, due := s.dueIn pool t (some (p,s.dropped p)) }
  | .pool (.run t fault lsn) =>
    (BufferPool.step (marked fmt) frameCount s.pool (.run t fault lsn)).map fun pool =>
      { s.letGo t with pool := pool, due := s.dueIn pool t (s.due t) }
  | .pool (.modify ..) | .pool (.flush ..) => none
  | .pool a =>
    (BufferPool.step (marked fmt) frameCount s.pool a).map fun pool => { s with pool := pool }

def Start (fmt : PageFormat D) (s : Sys D n) : Prop :=
  ∃ base : ℕ → D, s = ⟨opened (fun p => (base p,[])) (marked fmt),0,fun _ => [],fun _ => [],
    fun _ => none⟩

def Allowed (s : Sys D n) : Step D n → Prop
  | .pool a => Clean s.pool a
  | _ => True

/-- The change is in the frame of its page, and the frame is dirty or is being flushed. -/
structure Queued (s : Pool (Marked D) n) (p m f : ℕ) : Prop where
  mapped : s.pageTable p = some f
  has : Has m (s.content f)
  pending : Pending s p f (Has m)

def Safe (s : Pool (Marked D) n) (p m : ℕ) : Prop := s.Durable p (Has m) ∨ ∃ f, Queued s p m f

/-- Where the changes of a thread are until its guard is dropped. -/
def Kept (s : Pool (Marked D) n) (m : ℕ) : Pc → Prop
  | .writing _ f | .dropMut _ f _ _ => Has m (s.content f)
  | .unpin p _ _ => Safe s p m
  | _ => False

structure Inv (s : Sys D n) : Prop where
  pool : BufferPool.Inv s.pool
  gen : GenInv s.pool
  base : ∀ p, (s.pool.base p).2 = []
  made : ∀ t, ∀ m ∈ s.made t, Kept s.pool m (s.pool.threads t)
  dropped : ∀ p, ∀ m ∈ s.dropped p, Safe s.pool p m
  due : ∀ t p ms, s.due t = some (p,ms) → ∀ m ∈ ms, s.pool.Durable p (Has m) ∨
    ∃ f, Queued s.pool p m f ∧ FlushCall s.pool t p f (Has m)

section Pool

variable {s s' : Pool (Marked D) n} {a : BufferPool.Step (Marked D) n} {p m f : ℕ}

def Adds (s : Pool (Marked D) n) (a : BufferPool.Step (Marked D) n) : Prop :=
  ∀ t c p f, a = .modify t c → s.threads t = .writing p f → ∀ m, Has m (s.content f) → Has m c

theorem Adds.keeps (h : Adds s a) (m : ℕ) : Keeps (marked fmt) s a (Has m) fun _ => False :=
  ⟨fun _ _ hm => hm,fun t c p f ha hpc hm => h t c p f ha hpc m hm,fun _ _ _ _ _ ho => ho.elim⟩

theorem has_step (h : BufferPool.Inv s) (hadds : Adds s a) (hclean : Clean s a)
    (hs : BufferPool.step (marked fmt) frameCount s a = some s') (hp : s.pageTable p = some f)
    (hm : Has m (s.content f)) : Has m (s'.content f) := by
  rcases Held.step h (hadds.keeps m) hclean hs hp (.inl hm) with hm | ⟨t,-,ho⟩
  · exact hm
  · exact ho.elim

theorem Queued.step (h : BufferPool.Inv s) (hgen : GenInv s) (hadds : Adds s a) (hclean : Clean s a)
    (hs : BufferPool.step (marked fmt) frameCount s a = some s') (hq : Queued s p m f) :
    s'.Durable p (Has m) ∨ Queued s' p m f := by
  have hheld : Held s p f (Has m) fun _ => False := .inl hq.has
  rcases Pending.step h hgen hclean hs hq.mapped hheld hq.pending with hd | ⟨hmap,hpend⟩
  · exact .inl hd
  · exact .inr ⟨hmap,has_step h hadds hclean hs hq.mapped hq.has,hpend⟩

theorem Safe.step (h : BufferPool.Inv s) (hgen : GenInv s) (hadds : Adds s a) (hclean : Clean s a)
    (hs : BufferPool.step (marked fmt) frameCount s a = some s') (hsafe : Safe s p m) :
    Safe s' p m := by
  rcases hsafe with hd | ⟨f,hq⟩
  · exact .inl (hd.grows (step_grows hs))
  · exact (hq.step h hgen hadds hclean hs).imp_right fun hq' => ⟨f,hq'⟩

theorem step_thread (hs : BufferPool.step (marked fmt) frameCount s a = some s') (t : Fin n) :
    s'.threads t = s.threads t ∨ ∃ r, Ran
    (marked fmt) frameCount s a t r ∧ s' = s.setThread t r := by
  rcases step_ran hs with ⟨u,r,hr,rfl⟩ | ⟨lsn,-,rfl⟩
  · by_cases htu : t = u
    · subst htu
      exact .inr ⟨r,hr,rfl⟩
    · exact .inl (update_of_ne htu ..)
  · exact .inl rfl

theorem flush_started {t : Fin n} (hs : BufferPool.step (marked fmt) frameCount s
    (.flush t p) = some s')
    (hfree : (s'.threads t).free = false) :
    ∃ g, s.pageTable p = some g ∧ s' = s.setThread t (s.toShared,.flushClaim .call g) := by
  simp only [BufferPool.step] at hs
  repeat' split at hs
  all_goals cases hs
  · rw [Pool.setThread_self] at hfree
    cases hfree
  · rw [Pool.setThread_self] at hfree
    cases hfree
  · exact ⟨_,‹_›,rfl⟩

def Unpins (s : Pool (Marked D) n) (a : BufferPool.Step (Marked D) n) (t : Fin n) (p : ℕ) : Prop :=
  ∃ fault lsn f err, a = .run t fault lsn ∧ s.threads t = .unpin p f err

/-- Until a thread drops its guard its changes are in the frame, and then the frame is dirty. -/
theorem Kept.step {t : Fin n} (h : BufferPool.Inv s) (hgen : GenInv s) (hadds : Adds s a)
    (hclean : Clean s a) (hs : BufferPool.step (marked fmt) frameCount s a = some s')
    (hk : Kept s m (s.threads t)) :
    Kept s' m (s'.threads t) ∨ ∃ p, Unpins s a t p ∧ Safe s' p m := by
  cases hpc : s.threads t <;> rw [hpc] at hk <;> try exact hk.elim
  case writing p f =>
    have hmap := h.mapped_of_pinned (u := t) (by rw [hpc]; rfl)
    have hm : Has m (s'.content f) := has_step h hadds hclean hs hmap hk
    refine .inl ?_
    rcases step_thread hs t with heq | ⟨r,hr,rfl⟩
    · rw [heq,hpc]
      exact hm
    · rw [Pool.setThread_self]
      cases hr with
      | newPage hfree | hit hfree | miss hfree | flush hfree | answered hfree =>
        rw [hpc] at hfree
        cases hfree
      | run hr => simp [advance,hpc,Pc.allocating,advanceGuard] at hr
      | modify hpc' | dropWrite hpc' =>
        cases hpc.symm.trans hpc'
        exact hm
      | dropRead hpc' => cases hpc.symm.trans hpc'
  case dropMut p f l err =>
    have hmap := h.mapped_of_pinned (u := t) (by rw [hpc]; rfl)
    have hm : Has m (s'.content f) := has_step h hadds hclean hs hmap hk
    refine .inl ?_
    rcases step_thread hs t with heq | ⟨r,hr,rfl⟩
    · rw [heq,hpc]
      exact hm
    · have hmove := hr.move h hclean
      rw [Pool.setThread_self]
      cases hr with
      | newPage hfree | hit hfree | miss hfree | flush hfree | answered hfree =>
        rw [hpc] at hfree
        cases hfree
      | run hr =>
        have hpc' : r.2 = .unpin p f err := by
          simp only [advance,hpc,Pc.allocating,Bool.false_eq_true,if_false,advanceGuard,
            Option.some.injEq] at hr
          rw [← hr]
        have hmap' := hmove.pc
        have hdirty := (hmove.unsaved f (by rw [hpc]; rfl)).resolve_left (by simp [hpc',Pc.unsaved])
        rw [hpc'] at hmap' ⊢
        exact .inr ⟨f,hmap',hm,.inl hdirty⟩
      | modify hpc' | dropRead hpc' | dropWrite hpc' => cases hpc.symm.trans hpc'
  case unpin p f err =>
    have hsafe : Safe s' p m := Safe.step h hgen hadds hclean hs hk
    rcases step_thread hs t with heq | ⟨r,hr,rfl⟩
    · rw [heq,hpc]
      exact .inl hsafe
    · cases hr with
      | newPage hfree | hit hfree | miss hfree | flush hfree | answered hfree =>
        rw [hpc] at hfree
        cases hfree
      | run hr => exact .inr ⟨p,⟨_,_,f,err,rfl,hpc⟩,hsafe⟩
      | modify hpc' | dropRead hpc' | dropWrite hpc' => cases hpc.symm.trans hpc'

end Pool

section Steps

variable {s s' : Sys D n}

structure After (s : Sys D n) (b : BufferPool.Step (Marked D) n) (q : Pool
(Marked D) n) : Prop where
  pool : BufferPool.Inv q
  gen : GenInv q
  base : ∀ p, (q.base p).2 = []
  made : ∀ t, ∀ m ∈ s.made t, Kept q m (q.threads t) ∨ ∃ p, Unpins s.pool b t p ∧ Safe q p m
  dropped : ∀ p, ∀ m ∈ s.dropped p, Safe q p m
  due : ∀ t p ms, s.due t = some (p,ms) → ∀ m ∈ ms, q.Durable p (Has m) ∨
    (∃ f, Queued q p m f ∧ FlushCall q t p f (Has m)) ∨
    (∃ fault lsn, b = .run t fault lsn) ∧ ∃ e, q.threads t = .returned (some e)

variable {b : BufferPool.Step (Marked D) n} {q : Pool (Marked D) n}

theorem Inv.after (h : Inv s) (hadds : Adds s.pool b) (hclean : Clean s.pool b)
    (hs : BufferPool.step (marked fmt) frameCount s.pool b = some q) : After s b q := by
  refine ⟨step_inv h.pool hclean hs,h.gen.step hs,fun p => ?_,fun t m hm => ?_,fun p m hm => ?_,
    fun t p ms hdue m hm => ?_⟩
  · rw [(step_grows hs).base]
    exact h.base p
  · exact (h.made t m hm).step h.pool h.gen hadds hclean hs
  · exact (h.dropped p m hm).step h.pool h.gen hadds hclean hs
  · rcases h.due t p ms hdue m hm with hd | ⟨f,hq,hc⟩
    · exact .inl (hd.grows (step_grows hs))
    · have hheld : Held s.pool p f (Has m) fun _ => False := .inl hq.has
      rcases hc.step h.pool h.gen hs hq.mapped hheld hq.pending with hd | hc' | ⟨hrun,e,b,-,hret⟩
      · exact .inl hd
      · rcases hq.step h.pool h.gen hadds hclean hs with hd | hq'
        · exact .inl hd
        · exact .inr (.inl ⟨f,hq',hc'⟩)
      · exact .inr (.inr ⟨hrun,e,hret⟩)

theorem After.inv (h : After s b q)
    (hb : ∀ t fault lsn, b ≠ .run t fault lsn) : Inv { s with pool := q } := by
  refine { h with made := fun t m hm => ?_, due := fun t p ms hdue m hm => ?_ }
  · refine (h.made t m hm).resolve_right ?_
    rintro ⟨p,⟨fault,lsn,f,err,heq,-⟩,-⟩
    exact hb t fault lsn heq
  · refine (h.due t p ms hdue m hm).imp_right fun hc => hc.resolve_right ?_
    rintro ⟨⟨fault,lsn,heq⟩,-⟩
    exact hb t fault lsn heq

theorem adds_of_ne (hb : ∀ t c, b ≠ .modify t c) :
    Adds s.pool b := fun t c _ _ heq => absurd heq (hb t c)

theorem Inv.modify {t : Fin n} {d : D} (h : Inv s) (hs : step fmt frameCount s
    (.modify t d) = some s') :
    Inv s' := by
  simp only [step] at hs
  split at hs
  case h_2 => cases hs
  rename_i p f hpc
  obtain ⟨q,hq,rfl⟩ := Option.map_eq_some_iff.1 hs
  have hadds : Adds s.pool (.modify t (d,s.next :: (s.pool.content f).2)) := by
    rintro _ _ x g ⟨⟩ hpc' m hm
    cases hpc.symm.trans hpc'
    exact List.mem_cons_of_mem _ hm
  have hafter := (h.after hadds trivial hq).inv nofun
  refine { hafter with made := fun u m hm => ?_ }
  by_cases hut : u = t
  · subst hut
    dsimp only at hm ⊢
    rw [update_self] at hm
    rcases List.mem_cons.1 hm with rfl | hm
    · simp only [BufferPool.step,hpc,Option.some.injEq] at hq
      subst hq
      rw [hpc]
      change s.next ∈ ((s.pool.setContent f (d,s.next :: (s.pool.content f).2)).content f).2
      rw [setContent_self]
      exact List.mem_cons_self
    · exact hafter.made u m hm
  · dsimp only at hm
    rw [update_of_ne hut] at hm
    exact hafter.made u m hm

theorem dueIn_cases {t u : Fin n} {call : Option (ℕ × List ℕ)}
    {x : ℕ × List ℕ} (h : s.dueIn q t call u = some x) :
    (u ≠ t ∧ s.due u = some x) ∨ (u = t ∧ (q.threads t).free = false ∧ call = some x) := by
  unfold Sys.dueIn at h
  rcases of_update_eq h with ⟨hut,h⟩ | ⟨hut,h⟩
  · split at h
    · cases h
    · rename_i hfree
      exact .inr ⟨hut,by simpa using hfree,h⟩
  · exact .inl ⟨hut,h⟩

/-- The changes that were dropped before the call are in the frame that the call looks at. -/
theorem Inv.flush {t : Fin n} {p : ℕ} (h : Inv s) (hs : step fmt frameCount s
    (.flush t p) = some s') :
    Inv s' := by
  obtain ⟨q,hq,rfl⟩ := Option.map_eq_some_iff.1 hs
  have hafter := (h.after (b := .flush t p) (adds_of_ne nofun) trivial hq).inv nofun
  refine { hafter with due := fun u x ms hdue m hm => ?_ }
  rcases dueIn_cases hdue with ⟨-,hdue⟩ | ⟨rfl,hfree,hcall⟩
  · exact hafter.due u x ms hdue m hm
  · cases hcall
    rcases hafter.dropped p m hm with hd | ⟨f,hqd⟩
    · exact .inl hd
    · refine .inr ⟨f,hqd,.inl ?_⟩
      obtain ⟨g,hg,rfl⟩ := flush_started hq hfree
      cases hg.symm.trans hqd.mapped
      exact Pool.setThread_self ..

theorem letGo_made {t u : Fin n} {m : ℕ} (hm : m ∈ (s.letGo t).made u) :
    m ∈ s.made u ∧ ∀ p f err, s.pool.threads t = .unpin p f err → u ≠ t := by
  unfold Sys.letGo at hm
  split at hm
  · obtain ⟨-,⟨⟩⟩ | ⟨hut,hm⟩ := of_mem_update hm
    exact ⟨hm,fun _ _ _ _ => hut⟩
  · rename_i hno
    exact ⟨hm,fun p f err hpc => absurd hpc (hno p f err)⟩

theorem letGo_dropped {t : Fin n} {p m : ℕ} (hm : m ∈ (s.letGo t).dropped p) :
    m ∈ s.dropped p ∨ m ∈ s.made t ∧ ∃ f err, s.pool.threads t = .unpin p f err := by
  unfold Sys.letGo at hm
  split at hm
  · rename_i q f err hpc
    rcases of_mem_update hm with ⟨rfl,hm⟩ | ⟨-,hm⟩
    · exact (List.mem_append.1 hm).symm.imp_right fun hm => ⟨hm,f,err,hpc⟩
    · exact .inl hm
  · exact .inl hm

theorem Inv.run {t : Fin n} {fault : Option StorageError} {lsn : ℕ} (h : Inv s)
    (hclean : Clean s.pool (.run t fault lsn))
    (hs : step fmt frameCount s (.pool (.run t fault lsn)) = some s') : Inv s' := by
  obtain ⟨q,hq,rfl⟩ := Option.map_eq_some_iff.1 hs
  have hadds : Adds s.pool (.run t fault lsn) := adds_of_ne nofun
  have hafter := h.after hadds hclean hq
  refine ⟨hafter.pool,hafter.gen,hafter.base,fun u m hm => ?_,fun p m hm => ?_,
    fun u p ms hdue m hm => ?_⟩
  · obtain ⟨hm,hother⟩ := letGo_made hm
    refine (hafter.made u m hm).resolve_right ?_
    rintro ⟨p,⟨_,_,f,err,heq,hpc⟩,-⟩
    cases heq
    exact hother p f err hpc rfl
  · rcases letGo_dropped hm with hm | ⟨hm,f,err,hpc⟩
    · exact hafter.dropped p m hm
    · have hsafe : Safe s.pool p m := by
        have hkept := h.made t m hm
        rw [hpc] at hkept
        exact hkept
      exact hsafe.step h.pool h.gen hadds hclean hq
  · rcases dueIn_cases hdue with ⟨hut,hdue⟩ | ⟨rfl,hfree,hdue⟩
    · refine (hafter.due u p ms hdue m hm).imp_right fun hc => hc.resolve_right ?_
      rintro ⟨⟨_,_,heq⟩,-⟩
      cases heq
      exact hut rfl
    · refine (hafter.due u p ms hdue m hm).imp_right fun hc => hc.resolve_right ?_
      rintro ⟨-,e,hret⟩
      rw [hret] at hfree
      cases hfree

theorem Inv.next {a : Step D n} (h : Inv s) (hok : Allowed s a)
    (hs : step fmt frameCount s a = some s') : Inv s' := by
  cases a with
  | modify t d => exact h.modify hs
  | flush t p => exact h.flush hs
  | pool b =>
    cases b with
    | run t fault lsn => exact h.run hok hs
    | modify t c | flush t p => cases hs
    | access t x p contended =>
      obtain ⟨q,hq,rfl⟩ := Option.map_eq_some_iff.1 hs
      exact (h.after (b := .access t x p contended) (adds_of_ne nofun) hok hq).inv nofun
    | drop t =>
      obtain ⟨q,hq,rfl⟩ := Option.map_eq_some_iff.1 hs
      exact (h.after (b := .drop t) (adds_of_ne nofun) hok hq).inv nofun
    | setCheckpointLsn lsn =>
      cases hs
      have hq : BufferPool.step (marked fmt) frameCount s.pool
        (.setCheckpointLsn lsn) = some _ := rfl
      exact (h.after (b := .setCheckpointLsn lsn) (adds_of_ne nofun) hok hq).inv nofun

theorem start_inv (hs : Start fmt s) : Inv s := by
  obtain ⟨base,rfl⟩ := hs
  refine ⟨opened_inv _,⟨le_rfl,nofun⟩,fun _ => rfl,nofun,nofun,nofun⟩

theorem reach_inv (h : Reach (step fmt frameCount) (Start fmt) Allowed s) : Inv s :=
  h.invariant (fun _ hs => start_inv hs) fun _ _ _ hi hok hs => hi.next hok hs

theorem step_pool {a : Step D n} (hs : step fmt frameCount s a = some s') :
    ∃ b, BufferPool.step (marked fmt) frameCount s.pool b = some s'.pool := by
  cases a with
  | modify t d =>
    simp only [step] at hs
    split at hs
    · obtain ⟨q,hq,rfl⟩ := Option.map_eq_some_iff.1 hs
      exact ⟨_,hq⟩
    · cases hs
  | flush t p =>
    obtain ⟨q,hq,rfl⟩ := Option.map_eq_some_iff.1 hs
    exact ⟨_,hq⟩
  | pool b =>
    cases b with
    | modify t c | flush t p => cases hs
    | run t fault lsn | access t x p contended | drop t =>
      obtain ⟨q,hq,rfl⟩ := Option.map_eq_some_iff.1 hs
      exact ⟨_,hq⟩
    | setCheckpointLsn lsn =>
      cases hs
      exact ⟨.setCheckpointLsn lsn,rfl⟩

/-- A `flush` that returns `Ok` leaves every change dropped before the call in a synced image. -/
theorem flush_ok_durable {a : Step D n} {t : Fin n} {p : ℕ} {ms : List ℕ}
    (h : Reach (step fmt frameCount) (Start fmt) Allowed s)
    (hs : step fmt frameCount s a = some s') (hcall : s.due t = some (p,ms))
    (hret : s'.pool.threads t = .returned none) :
    ∀ m ∈ ms, ∃ i c, i < s'.pool.synced ∧ s'.pool.writes[i]? = some (p,c) ∧ m ∈ c.2 := by
  have hinv := reach_inv h
  obtain ⟨b,hb⟩ := step_pool hs
  intro m hm
  have hd : s'.pool.Durable p (Has m) := by
    rcases hinv.due t p ms hcall m hm with hd | ⟨f,hq,hc⟩
    · exact hd.grows (step_grows hb)
    · have hheld : Held s.pool p f (Has m) fun _ => False := .inl hq.has
      rcases hc.step hinv.pool hinv.gen hb hq.mapped hheld hq.pending with hd | hc' | ⟨-,e,x,-,herr⟩
      · exact hd
      · have hfree := hc'.not_free
        rw [hret] at hfree
        cases hfree
      · cases hret.symm.trans herr
  rcases hd with hbase | hd
  · rw [Has,(step_grows hb).base,hinv.base p] at hbase
    cases hbase
  · exact hd

end Steps

instance (s : Sys D n) (a : Step D n) : Decidable (Allowed s a) :=
  match a with
  | .pool a => inferInstanceAs (Decidable (Clean s.pool a))
  | .modify .. | .flush .. => .isTrue trivial

def freshSys : Sys (ℕ × ℕ) 3 :=
  ⟨opened (fun _ => ((0,0),[])) (marked stampedPage),0,fun _ => [],fun _ => [],fun _ => none⟩

theorem freshSys_start : Start stampedPage freshSys := ⟨fun _ => (0,0),rfl⟩

/-- Thread 0 creates page 1 in the only frame, changes it and drops the guard. -/
def changedPage : List (Step (ℕ × ℕ) 3) :=
  .pool (.access 0 .newPage 1 false) :: useNewPage .pool 0 [.modify 0 (5,11)]

/-- Thread 0 returns `Ok` from `flush(p)`; `stored`: a synced image has change `m`. -/
def returnsOk (p m : ℕ) (stored : Bool) (s : Sys (ℕ × ℕ) 3) : Bool :=
  match s.due 0, step stampedPage 1 s (.pool (.run 0 none 0)) with
  | some (q,ms), some s' => q == p && ms.contains m && s'.pool.threads 0 == .returned none &&
      ((s'.pool.writes.take s'.pool.synced).any fun w => w.1 == p && w.2.2.contains m) == stored
  | _, _ => false

/-- Thread 2 evicts the frame that thread 1 flushes, after thread 0 has looked the page up. -/
def evictInFlight : List (Step (ℕ × ℕ) 3) :=
  changedPage ++ .flush 1 1 :: runs .pool 1 1 ++ .flush 0 1 ::
    .pool (.access 2 .newPage 2 false) :: runs .pool 2 9

/-- The eviction resets `flushing`, and `flush` returns `Ok` although nothing was written. -/
theorem flush_ok_without_write :
    ∃ s, Reach (step stampedPage 1) (Start stampedPage) anyStep s ∧ returnsOk 1 0 false s = true :=
  exists_reach freshSys_start evictInFlight (by decide +kernel)

theorem flush_ok_durable_once :
    ∃ s s' : Sys (ℕ × ℕ) 3, Reach (step stampedPage 1) (Start stampedPage) Allowed s ∧
      s.due 0 = some (1,[0]) ∧ s'.pool.threads 0 = .returned none ∧
      ∃ i c, i < s'.pool.synced ∧ s'.pool.writes[i]? = some (1,c) ∧ 0 ∈ c.2 := by
  have hrun : ∃ s, Reach (step stampedPage 1) (Start stampedPage) Allowed s ∧
      (decide (s.due 0 = some (1,[0])) && (step stampedPage 1 s (.pool (.run 0 none 0))).any
        fun s' : Sys (ℕ × ℕ) 3 => s'.pool.threads 0 == .returned none) = true :=
    exists_reach freshSys_start (changedPage ++ .flush 0 1 :: runs .pool 0 9) (by decide +kernel)
  obtain ⟨s,hs,hp⟩ := hrun
  simp only [Bool.and_eq_true,decide_eq_true_eq,Option.any_eq_true,beq_iff_eq] at hp
  obtain ⟨hdue,s',hstep,hret⟩ := hp
  exact ⟨s,s',hs,hdue,hret,flush_ok_durable hs hstep hdue hret 0 List.mem_cons_self⟩

end FlushDurable
end PgAm
