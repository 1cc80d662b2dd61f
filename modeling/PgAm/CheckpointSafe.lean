import PgAm.Checkpoint

/-! A completed checkpoint covers the log before its begin record, as long as
`dirty_page_ids` never passes a frame over that a flush in flight or an open write guard only
makes look clean. -/
namespace PgAm
namespace Checkpoint

open BufferPool Function

variable {n : ℕ} {cfg : Config n}

/-- An image of the page with the record applied is covered by a completed sync. -/
def Stored (s : Sys n) (p l : ℕ) : Prop := s.pool.Durable p (Applied l)

/-- The change is in the frame of its page, or owed by the holder of the guard. -/
structure Located (s : Sys n) (p l f : ℕ) : Prop where
  mapped : s.pool.pageTable p = some f
  held : Held s.pool p f (Applied l) fun t => l ∈ s.unapplied t

def Queued (s : Sys n) (p l f : ℕ) : Prop := Pending s.pool p f (Applied l)

def Guarded (s : Sys n) (f : ℕ) : Prop := ∃ t, (s.pool.threads t).unsaved = some f

def InCall (c : Fin n) (s : Sys n) (p l f : ℕ) : Prop :=
  s.pool.threads c = .flushClaim .call f ∨
    (∃ saved st, s.pool.threads c = .flushing .call f p saved st ∧
      Carries s.pool p (Applied l) st) ∨
    ∃ e, s.pool.threads c = .returned (some e) ∧ notFound e = false

/-- How the whereabouts of every change develop in a step. -/
structure Moves (s s' : Sys n) : Prop where
  stored : ∀ p l, Stored s p l → Stored s' p l
  queued : ∀ p l f, Located s p l f → Queued s p l f →
    Stored s' p l ∨ (Located s' p l f ∧ Queued s' p l f)
  guarded : ∀ p l f, Located s p l f → Guarded s f →
    Located s' p l f ∧ (Queued s' p l f ∨ Guarded s' f)

structure CallMoves (c : Fin n) (s s' : Sys n) : Prop extends Moves s s' where
  inCall : ∀ p l f, Located s p l f → Queued s p l f → InCall c s p l f →
    Stored s' p l ∨ (Located s' p l f ∧ Queued s' p l f ∧ InCall c s' p l f)

/-- Where the changes logged before the begin record may be in each phase. -/
def Place (c : Fin n) (s : Sys n) (p l f : ℕ) : Phase → Prop
  | .examine _ i found =>
    (p ∈ found ∧ Queued s p l f) ∨ (i ≤ f ∧ (Queued s p l f ∨ Guarded s f))
  | .flush _ todo => p ∈ todo ∧ Queued s p l f
  | .wait _ q todo =>
    (p ∈ todo ∧ Queued s p l f) ∨ (p = q ∧ Queued s p l f ∧ InCall c s p l f)
  | .complete _ => False
  | .idle | .publish _ | .done _ => Queued s p l f ∨ Guarded s f

def Due (l : ℕ) : Phase → Prop
  | .examine b _ _ | .flush b _ | .wait b _ _ | .complete b => l < b
  | .idle | .publish _ | .done _ => True

def Phase.begun : Phase → Option ℕ
  | .publish b | .examine b _ _ | .flush b _ | .wait b _ _ | .complete b | .done b => some b
  | .idle => none

def Phase.frame : Phase → Option ℕ
  | .examine _ i _ => some i
  | _ => none

structure Inv (cfg : Config n) (s : Sys n) : Prop where
  pool : BufferPool.Inv s.pool
  gen : GenInv s.pool
  bound : Bounded cfg.frameCount s.pool
  failed : ∀ t e b, (s.pool.threads t).stage = some (.failed e b) → notFound e = false
  begun : ∀ b, s.phase.begun = some b → b ≤ s.log.length
  tracked : ∀ p l, Modifies s p l →
    Stored s p l ∨ ∃ f, Located s p l f ∧ (Queued s p l f ∨ Guarded s f)
  phase : ∀ p l, Modifies s p l → Due l s.phase →
    Stored s p l ∨ ∃ f, Located s p l f ∧ Place cfg.coordinator s p l f s.phase

section Steps

variable {s s' : Sys n} {a : BufferPool.Step Image n} {q : Pool Image n} {p l f : ℕ}

variable {c : Fin n}

theorem InCall.flushCall (h : InCall c s p l f) : FlushCall s.pool c p f (Applied l) ∨
      ∃ e, s.pool.threads c = .returned (some e) ∧ notFound e = false := by
  rcases h with hc | hc | hc
  · exact .inl (.inl hc)
  · exact .inl (.inr hc)
  · exact .inr hc

theorem inCall_of_flushCall (h : FlushCall s.pool c p f (Applied l)) : InCall c s p l f := by
  rcases h with hc | hc
  · exact .inl hc
  · exact .inr (.inl hc)

/-- The coordinator goes on with its flush, or another thread moves. -/
theorem InCall.step (h : Inv cfg s)
    (hs : BufferPool.step imageFormat cfg.frameCount s.pool a = some q)
    (ha : ∀ x p y, a ≠ .access cfg.coordinator x p y) (ha' : ∀ p, a ≠ .flush cfg.coordinator p)
    (hloc : Located s p l f) (hq : Queued s p l f) (hc : InCall cfg.coordinator s p l f) :
    q.Durable p (Applied l) ∨ InCall cfg.coordinator { s with pool := q } p l f := by
  rcases hc.flushCall with hc | ⟨e,hc,he⟩
  · rcases hc.step h.pool h.gen hs hloc.mapped hloc.held hq with hd | hc' | ⟨-,e,b,hst,hret⟩
    · exact .inl hd
    · exact .inr (inCall_of_flushCall hc')
    · exact .inr (.inr (.inr ⟨e,hret,h.failed _ e b hst⟩))
  · refine .inr (.inr (.inr ⟨e,?_,he⟩))
    cases step_case hs with
    | @run t fault lsn r hr =>
      by_cases hct : cfg.coordinator = t
      · subst hct
        simp [advance,hc,Pc.allocating,advanceGuard] at hr
      · exact (update_of_ne hct ..).trans hc
    | @begins _ t r hb =>
      by_cases hct : cfg.coordinator = t
      · subst hct
        rcases hb.starts with ⟨x,p,y,rfl⟩ | ⟨p,rfl⟩ | ⟨rfl,hfree,-⟩
        · exact absurd rfl (ha x p y)
        · exact absurd rfl (ha' p)
        · rw [hc] at hfree
          cases hfree
      · exact (update_of_ne hct ..).trans hc
    | modify | setCheckpointLsn => exact hc

theorem moves_of_step (h : Inv cfg s) (hclean : BufferPool.Clean s.pool a)
    (hs : BufferPool.step imageFormat cfg.frameCount s.pool a = some q)
    (hk : ∀ l, Keeps imageFormat s.pool a (Applied l) fun t => l ∈ s.unapplied t) :
    Moves s { s with pool := q } := by
  have hheld : ∀ p l f, Located s p l f →
      Held q p f (Applied l) fun t => l ∈ s.unapplied t := fun p l f hl =>
    hl.held.step h.pool (hk l) hclean hs hl.mapped
  refine ⟨fun p l hst => hst.grows (step_grows hs),fun p l f hl hq => ?_,fun p l f hl hg => ?_⟩
  · rcases Pending.step h.pool h.gen hclean hs hl.mapped hl.held hq with hd | ⟨hm,hp⟩
    · exact .inl hd
    · exact .inr ⟨⟨hm,hheld p l f hl⟩,hp⟩
  · obtain ⟨hm,hd | hg'⟩ := unsaved_step h.pool hclean hs hl.mapped hg
    · exact ⟨⟨hm,hheld p l f hl⟩,.inl (.inl hd)⟩
    · exact ⟨⟨hm,hheld p l f hl⟩,.inr hg'⟩

theorem callMoves_of_step (h : Inv cfg s) (hclean : BufferPool.Clean s.pool a)
    (hs : BufferPool.step imageFormat cfg.frameCount s.pool a = some q)
    (hk : ∀ l, Keeps imageFormat s.pool a (Applied l) fun t => l ∈ s.unapplied t)
    (ha : ∀ x p y, a ≠ .access cfg.coordinator x p y) (ha' : ∀ p, a ≠ .flush cfg.coordinator p) :
    CallMoves cfg.coordinator s { s with pool := q } := by
  have hm := moves_of_step h hclean hs hk
  refine ⟨hm,fun p l f hl hq hc => ?_⟩
  rcases hm.queued p l f hl hq with hd | ⟨hl',hq'⟩
  · exact .inl hd
  · exact (InCall.step h hs ha ha' hl hq hc).imp_right fun hc' => ⟨hl',hq',hc'⟩

theorem Moves.tracked (hm : Moves s s')
    (h : Stored s p l ∨ ∃ f, Located s p l f ∧ (Queued s p l f ∨ Guarded s f)) :
    Stored s' p l ∨ ∃ f, Located s' p l f ∧ (Queued s' p l f ∨ Guarded s' f) := by
  rcases h with hst | ⟨f,hl,hq | hg⟩
  · exact .inl (hm.stored p l hst)
  · exact (hm.queued p l f hl hq).imp_right fun h => ⟨f,h.1,.inl h.2⟩
  · exact .inr ⟨f,hm.guarded p l f hl hg⟩

variable {w : Phase}

theorem CallMoves.refl {log : List Rec} : CallMoves c s { s with log := log, phase := w } :=
  ⟨⟨fun _ _ h => h,fun _ _ _ hl hq => .inr ⟨⟨hl.1,hl.2⟩,hq⟩,
    fun _ _ _ hl hg => ⟨⟨hl.1,hl.2⟩,.inr hg⟩⟩,fun _ _ _ hl hq hc => .inr ⟨⟨hl.1,hl.2⟩,hq,hc⟩⟩

theorem CallMoves.keep (hm : CallMoves c s s')
    (h : Stored s p l ∨ ∃ f, Located s p l f ∧ Place c s p l f w) :
    Stored s' p l ∨ ∃ f, Located s' p l f ∧ Place c s' p l f w := by
  rcases h with hst | ⟨f,hl,hp⟩
  · exact .inl (hm.stored p l hst)
  cases w with
  | examine b i found =>
    rcases hp with ⟨hin,hq⟩ | ⟨hi,hq | hg⟩
    · exact (hm.queued p l f hl hq).imp_right fun h => ⟨f,h.1,.inl ⟨hin,h.2⟩⟩
    · exact (hm.queued p l f hl hq).imp_right fun h => ⟨f,h.1,.inr ⟨hi,.inl h.2⟩⟩
    · obtain ⟨hl',hqg⟩ := hm.guarded p l f hl hg
      exact .inr ⟨f,hl',.inr ⟨hi,hqg⟩⟩
  | flush b todo =>
    exact (hm.queued p l f hl hp.2).imp_right fun h => ⟨f,h.1,hp.1,h.2⟩
  | wait b q todo =>
    rcases hp with ⟨hin,hq⟩ | ⟨heq,hq,hc⟩
    · exact (hm.queued p l f hl hq).imp_right fun h => ⟨f,h.1,.inl ⟨hin,h.2⟩⟩
    · exact (hm.inCall p l f hl hq hc).imp_right fun h => ⟨f,h.1,.inr ⟨heq,h.2⟩⟩
  | complete b => exact hp.elim
  | idle | publish | done => exact hm.tracked (.inr ⟨f,hl,hp⟩)

structure PoolOk (cfg : Config n) (q : Pool Image n) : Prop where
  pool : BufferPool.Inv q
  gen : GenInv q
  bound : Bounded cfg.frameCount q
  failed : ∀ t e b, (q.threads t).stage = some (.failed e b) → notFound e = false

theorem Inv.ok (h : Inv cfg s) : PoolOk cfg s.pool := { h with }

theorem PoolOk.step {q' : Pool Image n} (h : PoolOk cfg q) (hclean : BufferPool.Clean q a)
    (hs : BufferPool.step imageFormat cfg.frameCount q a = some q')
    (hfault : ∀ t e x, a = .run t (some e) x → notFound e = false) : PoolOk cfg q' := by
  refine ⟨BufferPool.step_inv h.pool hclean hs,h.gen.step hs,h.bound.step hs,fun u e b hu => ?_⟩
  cases step_case hs with
  | @run t fault lsn r hr =>
    rcases setThread_stage_cases hu with ⟨-,hst⟩ | ⟨-,hst⟩
    · cases ht : (q.threads t).stage with
      | none =>
        rcases (advance_calm ht hr).2 with hn | hn <;> cases hn.symm.trans hst
      | some st =>
        obtain ⟨o,g,page,saved,hpc⟩ := Pc.flushing_of_stage ht
        have := advanceFlush_failed (advance_flushing hpc hr) hst
        exact hfault t e lsn (by rw [this])
    · exact h.failed u e b hst
  | begins hb =>
    rcases setThread_stage_cases hu with ⟨-,hst⟩ | ⟨-,hst⟩
    · cases hb.stage'.symm.trans hst
    · exact h.failed u e b hst
  | modify hpc | setCheckpointLsn => exact h.failed u e b hu

theorem recordAt_append {r x : Rec} (hlog : s'.log = s.log ++ [r]) (h : recordAt s' l = some x) :
    recordAt s l = some x ∨ (l = nextLsn s ∧ r = x) := by
  unfold recordAt at h ⊢
  split at h
  · cases h
  · rename_i hl
    rw [hlog] at h
    rw [if_neg hl]
    by_cases hlt : l - 1 < s.log.length
    · rw [List.getElem?_append_left hlt] at h
      exact .inl h
    · rw [List.getElem?_append_right (not_lt.1 hlt),List.getElem?_singleton] at h
      split at h
      · cases h
        exact .inr ⟨by unfold nextLsn; omega,rfl⟩
      · cases h

theorem modifies_of_append {r : Rec} (hlog : s'.log = s.log ++ [r]) (hr : r.targets = [])
    (h : Modifies s' p l) : Modifies s p l := by
  obtain ⟨x,hrec,hp⟩ := h
  rcases recordAt_append hlog hrec with hrec | ⟨-,rfl⟩
  · exact ⟨x,hrec,hp⟩
  · rw [hr] at hp
    cases hp

theorem Inv.same_phase (h : Inv cfg s) (hok : PoolOk cfg s'.pool)
    (hm : CallMoves cfg.coordinator s s') (hphase : s'.phase = s.phase)
    (hlog : s.log.length ≤ s'.log.length) (hmod : ∀ p l, Modifies s' p l → Modifies s p l) :
    Inv cfg s' := by
  refine ⟨hok.pool,hok.gen,hok.bound,hok.failed,fun b hb => ?_,fun p l hmo => ?_,
    fun p l hmo hdue => ?_⟩
  · exact (h.begun b (hphase ▸ hb)).trans hlog
  · exact hm.tracked (h.tracked p l (hmod p l hmo))
  · rw [hphase] at hdue ⊢
    exact hm.keep (h.phase p l (hmod p l hmo) hdue)

theorem Inv.next_phase (h : Inv cfg s) (hbegun : ∀ b, w.begun = some b → b ≤ s.log.length)
    (hplace : ∀ p l, Modifies s p l → Due l w →
      Stored s p l ∨ ∃ f, Located s p l f ∧ Place cfg.coordinator s p l f w) :
    Inv cfg { s with phase := w } :=
  ⟨h.pool,h.gen,h.bound,h.failed,hbegun,fun p l hmo => by
    rcases h.tracked p l hmo with hst | ⟨f,hl,hq⟩
    · exact .inl hst
    · exact .inr ⟨f,{ hl with },hq⟩,fun p l hmo hdue => by
    rcases hplace p l hmo hdue with hst | ⟨f,hl,hq⟩
    · exact .inl hst
    · exact .inr ⟨f,{ hl with },by cases w <;> exact hq⟩⟩

theorem keeps_of_ne (hmod : ∀ t c, a ≠ .modify t c)
    (hdrop : ∀ t, a = .drop t → s.unapplied t = []) :
    ∀ l, Keeps imageFormat s.pool a (Applied l) fun t => l ∈ s.unapplied t := by
  refine fun l => ⟨fun c x hc => hc,fun t c p f ha => absurd ha (hmod t c),fun t p f ha _ ho => ?_⟩
  rw [hdrop t ha] at ho
  cases ho

theorem Inv.poolOrdinary (h : Inv cfg s) (hord : ordinary cfg s a = true)
    (hclean : BufferPool.Clean s.pool a) (hs : poolStep cfg s a = some s') : Inv cfg s' := by
  obtain ⟨q,hq,rfl⟩ := Option.map_eq_some_iff.1 hs
  have hk := @keeps_of_ne _ s a (fun t c ha => by rw [ha] at hord; cases hord)
    (fun t ha => by rw [ha] at hord; simpa [ordinary] using hord)
  have hm := callMoves_of_step h hclean hq hk
    (fun x p y ha => by rw [ha] at hord; simp [ordinary] at hord)
    (fun p ha => by rw [ha] at hord; simp [ordinary] at hord)
  refine h.same_phase (h.ok.step hclean hq fun t e x ha => ?_) hm rfl le_rfl fun _ _ hmo => hmo
  rw [ha] at hord
  simpa [ordinary] using (Bool.and_eq_true_iff.1 hord).2

theorem Inv.append (targets : List (Fin n × Bool)) (h : Inv cfg s) :
    Inv cfg (appendChange s targets) := by
  have hloc : ∀ p l f, Located s p l f → Located (appendChange s targets) p l f := by
    intro p l f hl
    refine ⟨hl.mapped,hl.held.imp_right fun ⟨t,ht,ho⟩ => ⟨t,ht,?_⟩⟩
    change l ∈ if t ∈ targets.map Prod.fst then nextLsn s :: s.unapplied t else s.unapplied t
    split
    · exact List.mem_cons_of_mem _ ho
    · exact ho
  have hm : CallMoves cfg.coordinator s (appendChange s targets) :=
    ⟨⟨fun _ _ hst => hst,fun p l f hl hq => .inr ⟨hloc p l f hl,hq⟩,
      fun p l f hl hg => ⟨hloc p l f hl,.inr hg⟩⟩,
      fun p l f hl hq hc => .inr ⟨hloc p l f hl,hq,hc⟩⟩
  have hlen : (appendChange s targets).log.length = s.log.length + 1 := by simp [appendChange]
  have hmod : ∀ p l, Modifies (appendChange s targets) p l → Modifies s p l ∨
      (l = nextLsn s ∧ ∃ f, Located (appendChange s targets) p l f ∧
        Guarded (appendChange s targets) f) := by
    rintro p l ⟨ts,hrec,hp⟩
    rcases recordAt_append rfl hrec with hrec | ⟨rfl,hts⟩
    · exact .inl ⟨ts,hrec,hp⟩
    · refine .inr ⟨rfl,?_⟩
      rw [← hts] at hp
      simp only [Rec.targets,List.mem_map,List.mem_filterMap,Option.map_eq_some_iff] at hp
      obtain ⟨⟨p',b⟩,⟨⟨t,b'⟩,hx,q,hg,heq⟩,rfl⟩ := hp
      cases heq
      obtain ⟨f,hpc⟩ : ∃ f, s.pool.threads t = .writing p' f := by
        generalize s.pool.threads t = pc at hg
        cases pc <;> cases hg
        exact ⟨_,rfl⟩
      have hinv := h.pool.pc t
      rw [hpc] at hinv
      refine ⟨f,⟨hinv,.inr ⟨t,hpc,?_⟩⟩,t,?_⟩
      · change nextLsn s ∈ if t ∈ targets.map Prod.fst then _ else _
        rw [if_pos (List.mem_map.2 ⟨_,hx,rfl⟩)]
        exact List.mem_cons_self
      · change (s.pool.threads t).unsaved = some f
        rw [hpc]
        rfl
  refine ⟨h.pool,h.gen,h.bound,h.failed,fun b hb => ?_,fun p l hmo => ?_,fun p l hmo hdue => ?_⟩
  · have := h.begun b hb
    omega
  · rcases hmod p l hmo with hmo | ⟨-,f,hl,hg⟩
    · exact hm.tracked (h.tracked p l hmo)
    · exact .inr ⟨f,hl,.inr hg⟩
  · rcases hmod p l hmo with hmo | ⟨rfl,f,hl,hg⟩
    · exact hm.keep (h.phase p l hmo hdue)
    · refine .inr ⟨f,hl,?_⟩
      change Place _ _ _ _ _ s.phase
      change Due _ s.phase at hdue
      have hb := h.begun
      generalize s.phase = w at hdue hb
      cases w with
      | idle | publish | done => exact .inr hg
      | examine b i found | flush b todo | wait b q todo | complete b =>
        have hb := hb b rfl
        simp only [Due,nextLsn] at hdue
        omega

theorem Inv.apply {t : Fin n} (h : Inv cfg s) (hs : step cfg s (.apply t l) = some s') :
    Inv cfg s' := by
  simp only [step] at hs
  split at hs
  case h_2 => cases hs
  rename_i pg g hpc
  split at hs
  case isFalse => cases hs
  rename_i hmem
  set c : Image := ⟨l,l :: (s.pool.content g).changes⟩ with hcdef
  have hstep : BufferPool.step imageFormat cfg.frameCount s.pool (.modify t c) =
      some { s.pool with toShared := s.pool.setContent g c } := by
    simp [BufferPool.step,hpc]
  unfold poolStep at hs
  rw [hstep] at hs
  cases hs
  have hclean : BufferPool.Clean s.pool (.modify t c) := trivial
  have hk : ∀ l, Keeps imageFormat s.pool (.modify t c) (Applied l) fun t => l ∈ s.unapplied t := by
    refine fun x => ⟨fun _ _ hc => hc,fun u c' p f ha hu hx => ?_,fun u p f ha => by cases ha⟩
    cases ha
    cases hpc.symm.trans hu
    exact List.mem_cons_of_mem _ hx
  have hm := callMoves_of_step h hclean hstep hk (fun _ _ _ => by rintro ⟨⟩) (fun _ => by rintro ⟨⟩)
  have hloc : ∀ p x f,
      Located { s with pool := { s.pool with toShared := s.pool.setContent g c } } p x f →
      Located ⟨{ s.pool with toShared := s.pool.setContent g c },s.log,
        update s.unapplied t ((s.unapplied t).erase l),s.phase⟩ p x f := by
    rintro p x f ⟨hmap,hheld⟩
    refine ⟨hmap,?_⟩
    rcases hheld with hQ | ⟨u,hu,ho⟩
    · exact .inl hQ
    · by_cases hut : u = t
      · subst hut
        cases hpc.symm.trans hu
        by_cases hx : x = l
        · refine .inl ?_
          change Applied x (update s.pool.content g c g)
          rw [update_self,hx]
          exact List.mem_cons_self
        · refine .inr ⟨u,hu,?_⟩
          change x ∈ update s.unapplied u ((s.unapplied u).erase l) u
          rw [update_self]
          exact (List.mem_erase_of_ne hx).2 ho
      · refine .inr ⟨u,hu,?_⟩
        change x ∈ update s.unapplied t ((s.unapplied t).erase l) u
        rw [update_of_ne hut]
        exact ho
  refine h.same_phase (h.ok.step hclean hstep (by rintro _ _ _ ⟨⟩)) ⟨⟨hm.stored,?_,?_⟩,?_⟩ rfl
    le_rfl fun _ _ hmo => hmo
  · exact fun p x f hl hq => (hm.queued p x f hl hq).imp_right fun h' => ⟨hloc p x f h'.1,h'.2⟩
  · exact fun p x f hl hg => ⟨hloc p x f (hm.guarded p x f hl hg).1,(hm.guarded p x f hl hg).2⟩
  · exact fun p x f hl hq hc => (hm.inCall p x f hl hq hc).imp_right fun h' => ⟨hloc p x f h'.1,
      h'.2⟩

theorem Inv.fpiAppend {t : Fin n} {fault : Option StorageError} (h : Inv cfg s)
    (hs : step cfg s (.fpiAppend t fault) = some s') : Inv cfg s' := by
  have hrun : ∀ {pg g : ℕ} {err : Option StorageError} {x : ℕ} {log : List Rec},
      poolStep cfg { s with log := log } (.run t err x) = some s' →
      s.pool.threads t = .fpiAppend pg g → (∀ e, err = some e → notFound e = false) →
      s.log.length ≤ log.length →
      (∀ p l, Modifies { s with log := log } p l → Modifies s p l) → Inv cfg s' := by
    intro pg g err x log hs hpc herr hlen hmod
    obtain ⟨q,hq,rfl⟩ := Option.map_eq_some_iff.1 hs
    have hclean : BufferPool.Clean s.pool (.run t err x) := by
      change ¬Steals s.pool t
      simp [Steals,hpc,Pc.probed]
    have hm := callMoves_of_step h hclean hq
      (keeps_of_ne (fun _ _ => by rintro ⟨⟩) fun _ => by rintro ⟨⟩)
      (fun _ _ _ => by rintro ⟨⟩) (fun _ => by rintro ⟨⟩)
    refine h.same_phase (h.ok.step hclean hq fun u e y ha => ?_)
      ⟨⟨hm.stored,fun p l f hl hq => ?_,fun p l f hl hg => ?_⟩,
      fun p l f hl hq hc => ?_⟩ rfl hlen hmod
    · cases ha
      exact herr e rfl
    · exact (hm.queued p l f hl hq).imp_right fun h' => ⟨⟨h'.1.1,h'.1.2⟩,h'.2⟩
    · obtain ⟨h1,h2⟩ := hm.guarded p l f hl hg
      exact ⟨⟨h1.1,h1.2⟩,h2⟩
    · exact (hm.inCall p l f hl hq hc).imp_right fun h' => ⟨⟨h'.1.1,h'.1.2⟩,h'.2⟩
  simp only [step] at hs
  split at hs
  · refine hrun hs ‹_› (by rintro _ ⟨⟩) (by simp) fun p l hmo => ?_
    exact @modifies_of_append _ s { s with log := s.log ++ [.fullPageImage _ _] } _ _
      (.fullPageImage _ _) rfl rfl hmo
  · split at hs
    · cases hs
    · rename_i hpc hnf
      exact hrun hs hpc (fun e' he => by cases he; simpa using hnf) le_rfl fun _ _ hmo => hmo
  · cases hs

/-- The frame looks clean, no flush of it is in flight, and no write guard of it is open. -/
def FrameSettled (q : Pool Image n) (i : ℕ) : Prop :=
  (q.frameMeta i).dirty = false →
    (q.frameMeta i).flushing = false ∧ ∀ t, (q.threads t).unsaved ≠ some i

instance (q : Pool Image n) (i : ℕ) : Decidable (FrameSettled q i) :=
  inferInstanceAs (Decidable (_ → _ ∧ _))

variable {found : List ℕ}

theorem Inv.examine (h : Inv cfg s) {b i : ℕ} (hph : s.phase = .examine b i found)
    (hset : FrameSettled s.pool i) :
    Inv cfg { s with phase := .examine b (i + 1) (examineFrame (s.pool.frameMeta i) found) } := by
  have hold := h.phase
  rw [hph] at hold
  refine h.next_phase (fun b' hb => h.begun b' (by rw [hph]; exact hb)) fun p l hmo hdue => ?_
  have hsub : ∀ x ∈ found, x ∈ examineFrame (s.pool.frameMeta i) found := by
    intro x hx
    unfold examineFrame
    split
    · exact List.mem_append_left _ hx
    · exact hx
  rcases hold p l hmo hdue with hst | ⟨f,hl,⟨hin,hq⟩ | ⟨hi,hqg⟩⟩
  · exact .inl hst
  · exact .inr ⟨f,hl,.inl ⟨hsub p hin,hq⟩⟩
  · rcases hi.eq_or_lt with rfl | hlt
    · refine .inr ⟨i,hl,.inl ?_⟩
      obtain ⟨hid,hvalid⟩ := h.pool.table p i hl.mapped
      by_cases hd : (s.pool.frameMeta i).dirty = true
      · refine ⟨?_,.inl hd⟩
        unfold examineFrame
        rw [if_pos ⟨hd,by rw [hid]; exact hvalid⟩,hid]
        simp
      · obtain ⟨hfl,hun⟩ := hset (by simpa using hd)
        rcases hqg with hq | ⟨t,ht⟩
        · exact absurd hq (h.pool.not_pending (by simpa using hd) hfl)
        · exact absurd ht (hun t)
    · exact .inr ⟨f,hl,.inr ⟨hlt,hqg⟩⟩

theorem Inv.examined (h : Inv cfg s) {b i : ℕ}
    (hph : s.phase = .examine b i found) (hi : cfg.frameCount ≤ i) :
    Inv cfg { s with phase := .flush b found } := by
  have hold := h.phase
  rw [hph] at hold
  refine h.next_phase (fun b' hb => h.begun b' (by rw [hph]; exact hb)) fun p l hmo hdue => ?_
  rcases hold p l hmo hdue with hst | ⟨f,hl,hpl | ⟨hif,-⟩⟩
  · exact .inl hst
  · exact .inr ⟨f,hl,hpl⟩
  · have := h.bound.table p f hl.mapped
    omega

variable {todo : List ℕ}

theorem Inv.flushCall (h : Inv cfg s) {b pg : ℕ} (hph : s.phase = .flush b (pg :: todo))
    (hs : poolStep cfg { s with phase := .wait b pg todo } (.flush cfg.coordinator pg) = some s') :
    Inv cfg s' := by
  obtain ⟨q,hq,rfl⟩ := Option.map_eq_some_iff.1 hs
  have hclean : BufferPool.Clean s.pool (.flush cfg.coordinator pg) := trivial
  have hm := moves_of_step h hclean hq (keeps_of_ne (fun _ _ => nofun) (fun _ => nofun))
  have hok := h.ok.step hclean hq nofun
  have hold := h.phase
  rw [hph] at hold
  have hrelocate : ∀ p l f, Located { s with pool := q } p l f →
      Located { s with pool := q, phase := .wait b pg todo } p l f := fun p l f hl => ⟨hl.1,hl.2⟩
  refine ⟨hok.pool,hok.gen,hok.bound,hok.failed,fun b' hb => h.begun b' (by rw [hph]; exact hb),
    fun p l hmo => ?_,fun p l hmo hdue => ?_⟩
  · exact (hm.tracked (h.tracked p l hmo)).imp_right fun ⟨f,hl,hqg⟩ => ⟨f,hrelocate p l f hl,hqg⟩
  · rcases hold p l hmo hdue with hst | ⟨f,hl,hin,hqu⟩
    · exact .inl (hm.stored p l hst)
    · rcases hm.queued p l f hl hqu with hst | ⟨hl',hqu'⟩
      · exact .inl hst
      · refine .inr ⟨f,hrelocate p l f hl',?_⟩
        rcases List.mem_cons.1 hin with rfl | hin
        · refine .inr ⟨rfl,hqu',.inl ?_⟩
          have hvalid := (h.pool.table p f hl.mapped).2
          simp only [BufferPool.step,hl.mapped,if_neg hvalid] at hq
          split at hq <;> cases hq
          exact update_self ..
        · exact .inl ⟨hin,hqu'⟩

theorem Inv.flushed (h : Inv cfg s) {b pg : ℕ} {err : Option StorageError}
    (hph : s.phase = .wait b pg todo) (hret : s.pool.threads cfg.coordinator = .returned err) :
    Inv cfg { s with phase := flushedPhase b todo err } := by
  have hold := h.phase
  rw [hph] at hold
  have hbegun := h.begun b (by rw [hph]; rfl)
  have hok : ∀ p l, Modifies s p l → l < b → (∀ e, err = some e → notFound e = true) →
      Stored s p l ∨ ∃ f, Located s p l f ∧ p ∈ todo ∧ Queued s p l f := by
    intro p l hmo hlt herr
    rcases hold p l hmo hlt with hst | ⟨f,hl,hpl | ⟨-,-,hc⟩⟩
    · exact .inl hst
    · exact .inr ⟨f,hl,hpl⟩
    · rcases hc with hc | ⟨saved,st,hc,-⟩ | ⟨e,hc,he⟩ <;> cases hret.symm.trans hc
      cases he.symm.trans (herr e rfl)
  cases err with
  | none =>
    exact h.next_phase (fun b' hb => by cases hb; exact hbegun) fun p l hmo hdue =>
      hok p l hmo hdue nofun
  | some e =>
    simp only [flushedPhase]
    split
    · rename_i he
      exact h.next_phase (fun b' hb => by cases hb; exact hbegun) fun p l hmo hdue =>
        hok p l hmo hdue fun e' heq => by cases heq; exact he
    · exact h.next_phase nofun fun p l hmo _ => h.tracked p l hmo

/-- Evictions leave frames in flight alone, and `dirty_page_ids` passes over settled frames only. -/
def Clean (cfg : Config n) (s : Sys n) : Step n → Prop
  | .pool a => BufferPool.Clean s.pool a
  | .examine => ∀ i ∈ s.phase.frame, i < cfg.frameCount → FrameSettled s.pool i
  | _ => True

theorem step_inv {a : Step n} (h : Inv cfg s) (hclean : Clean cfg s a)
    (hs : step cfg s a = some s') : Inv cfg s' := by
  cases a with
  | pool a =>
    simp only [step] at hs
    split at hs
    · exact h.poolOrdinary ‹_› hclean hs
    · cases hs
  | append targets =>
    obtain ⟨-,rfl⟩ := of_guard hs
    exact h.append targets
  | apply t l => exact h.apply hs
  | fpiAppend t fault => exact h.fpiAppend hs
  | other =>
    cases hs
    refine h.same_phase h.ok .refl rfl (by simp) fun p l hmo => ?_
    exact @modifies_of_append _ s { s with log := s.log ++ [.other] } _ _ .other rfl rfl hmo
  | begin =>
    simp only [step] at hs
    have hlog : Inv cfg { s with log := s.log ++ [.checkpointBegin] } :=
      h.same_phase h.ok .refl rfl (by simp) fun p l hmo => @modifies_of_append _ s
        { s with log := s.log ++ [.checkpointBegin] } _ _ .checkpointBegin rfl rfl hmo
    split at hs <;> cases hs
    all_goals
      refine hlog.next_phase (fun b hb => ?_) fun p l hmo _ => hlog.tracked p l hmo
      cases hb
      simp [nextLsn]
  | publish =>
    simp only [step] at hs
    split at hs
    case h_2 => cases hs
    rename_i b hph
    obtain ⟨q,hq,rfl⟩ := Option.map_eq_some_iff.1 hs
    have hset : BufferPool.Clean s.pool (.setCheckpointLsn b) := trivial
    have hm := callMoves_of_step h hset hq (keeps_of_ne (fun _ _ => nofun) (fun _ => nofun))
      (fun _ _ _ => nofun) (fun _ => nofun)
    have hpub : Inv cfg { s with pool := q } :=
      h.same_phase (h.ok.step hset hq nofun) hm rfl le_rfl fun _ _ hmo => hmo
    refine hpub.next_phase (fun b' hb => h.begun b' (by rw [hph]; exact hb)) fun p l hmo _ => ?_
    exact (hpub.tracked p l hmo).imp_right fun ⟨f,hl,hqg⟩ => ⟨f,hl,.inr ⟨Nat.zero_le f,hqg⟩⟩
  | examine =>
    simp only [step] at hs
    split at hs
    case h_2 => cases hs
    rename_i b i found hph
    split at hs <;> cases hs
    · rename_i hi
      exact h.examine hph (hclean i (by rw [hph]; rfl) hi)
    · rename_i hi
      exact h.examined hph (not_lt.1 hi)
  | flushNext =>
    simp only [step] at hs
    split at hs
    · rename_i b hph
      cases hs
      have hold := h.phase
      rw [hph] at hold
      refine h.next_phase (fun b' hb => h.begun b' (by rw [hph]; exact hb)) fun p l hmo hdue => ?_
      exact (hold p l hmo hdue).imp_right fun ⟨f,hl,hin,_⟩ => by cases hin
    · exact h.flushCall ‹_› hs
    · cases hs
  | flushed =>
    simp only [step] at hs
    split at hs <;> cases hs
    exact h.flushed ‹_› ‹_›
  | writeSuperblock =>
    simp only [step] at hs
    split at hs <;> cases hs
    rename_i b hph
    exact h.next_phase (fun b' hb => h.begun b' (by rw [hph]; exact hb)) fun p l hmo _ =>
      h.tracked p l hmo
  | abort =>
    simp only [step] at hs
    split at hs <;> cases hs <;> exact h.next_phase nofun fun p l hmo _ => h.tracked p l hmo

end Steps

instance (s : Sys n) (a : Step n) : Decidable (Clean cfg s a) :=
  match a with
  | .pool a => inferInstanceAs (Decidable (BufferPool.Clean s.pool a))
  | .examine => inferInstanceAs (Decidable (∀ i ∈ s.phase.frame, _ → _))
  | .append _ | .apply .. | .fpiAppend .. | .other | .begin | .publish | .flushNext | .flushed
  | .writeSuperblock | .abort => .isTrue trivial

theorem fresh_inv {s : Sys n} (h : Fresh s) : Inv cfg s := by
  obtain ⟨k,pd,-,rfl⟩ := h
  have hnone : ∀ p l, ¬Modifies (⟨opened (fun p => ⟨pd p,[]⟩) imageFormat,List.replicate k .other,
      fun _ => [],.idle⟩ : Sys n) p l := by
    rintro p l ⟨r,hrec,hp⟩
    simp only [recordAt,Option.mem_def] at hrec
    split at hrec
    · cases hrec
    · rw [List.getElem?_replicate] at hrec
      split at hrec <;> cases hrec
      cases hp
  exact ⟨opened_inv _,⟨le_rfl,nofun⟩,⟨nofun,nofun,nofun⟩,nofun,nofun,
    fun p l hmo => absurd hmo (hnone p l),fun p l hmo => absurd hmo (hnone p l)⟩

theorem reach_inv {s : Sys n} (h : Machine.Reach (step cfg) Fresh (Clean cfg) s) : Inv cfg s :=
  h.invariant (fun _ hs => fresh_inv hs) fun _ _ _ => step_inv

/-- When the superblock is about to be written, every change logged before the begin record is in an
image of its page that a completed sync covers. -/
theorem checkpoint_complete {s : Sys n} (h : Machine.Reach (step cfg) Fresh (Clean cfg) s) {b : ℕ}
    (hph : s.phase = .complete b) {p l : ℕ} (hl : l < b) (hmod : Modifies s p l) :
    s.pool.Durable p (Applied l) := by
  have hplace := (reach_inv h).phase p l hmod
  rw [hph] at hplace
  rcases hplace hl with hst | ⟨f,-,hf⟩
  · exact hst
  · exact hf.elim

def oneFrame : Config 3 := ⟨1,0⟩

def emptySys : Sys 3 := ⟨opened (fun _ => ⟨0,[]⟩) imageFormat,[],fun _ => [],.idle⟩

theorem fresh_emptySys : Fresh emptySys := ⟨0,fun _ => 0,fun _ => le_rfl,rfl⟩

def logChange : List (Step 3) :=
  .pool (.access 1 .newPage 1 false) :: useNewPage .pool 1 [.append [(1,true)],.apply 1 1]

/-- The superblock is about to put the record at `l` behind the redo point, and no image of `p` with
the record is on disk for good. -/
def forgets (p l : ℕ) (s : Sys 3) : Bool :=
  match s.phase with
  | .complete b => decide (l < b ∧ Modifies s p l ∧ ¬s.pool.Durable p (Applied l))
  | _ => false

/-- A flush in flight has cleared the dirty flag; nothing makes the checkpoint wait for it. -/
theorem checkpoint_forgets_flush_in_flight :
    ∃ s, Machine.Reach (step oneFrame) Fresh Machine.anyStep s ∧ forgets 1 1 s = true :=
  Machine.exists_reach fresh_emptySys
    (logChange ++ .pool (.flush 2 1) :: runs .pool 2 1 ++
      [.begin,.publish,.examine,.examine,.flushNext])
    (by decide +kernel)

def covers (p l : ℕ) (s : Sys 3) : Bool :=
  match s.phase with
  | .complete b => decide (l < b ∧ Modifies s p l)
  | _ => false

theorem checkpoint_complete_one_change :
    ∃ s, Machine.Reach (step oneFrame) Fresh (Clean oneFrame) s ∧ covers 1 1 s = true ∧
      s.pool.Durable 1 (Applied 1) := by
  have hrun : ∃ s, Machine.Reach (step oneFrame) Fresh (Clean oneFrame) s ∧ covers 1 1 s = true :=
    Machine.exists_reach fresh_emptySys
      (logChange ++ [.begin,.publish,.examine,.examine,.flushNext] ++ runs .pool 0 10 ++
        [.flushed,.flushNext])
      (by decide +kernel)
  obtain ⟨s,hs,hp⟩ := hrun
  refine ⟨s,hs,hp,?_⟩
  unfold covers at hp
  split at hp
  · rename_i b hph
    have hp := of_decide_eq_true hp
    exact checkpoint_complete hs hph hp.1 hp.2
  · cases hp

end Checkpoint
end PgAm
