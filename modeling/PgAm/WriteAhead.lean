import PgAm.PoolLatch
import PgAm.WalSystem

/-! The buffer pool on top of the WAL: `flush_frame` reads the horizon and calls `flush_to`
before it writes a page, and full-page images are appended under the guard. The system covers
every interleaving of the two, crashes included, after which the pool starts over on whatever
the data file has kept. -/
namespace PgAm
namespace WriteAhead

open BufferPool Function
open WalSystem (freshSys setCaller settle)

structure Config (C : Type) where
  wal : WalConfig
  format : PageFormat C
  frameCount : ℕ
  fullPageImage : ℕ → C → WalRecord

structure Store (C : Type) (n : ℕ) where
  wal : WalSystem.Sys
  pool : Pool C n

/-- The pool's threads are the first `n` callers of the WAL; joint steps have names of their own. -/
inductive Step (C : Type) (n : ℕ)
  | wal (a : WalSystem.Step)
  | pool (a : BufferPool.Step C n)
  | fpiAppend (t : Fin n) (fault : Option IoFault)
  | walTest (t : Fin n)
  | walReturn (t : Fin n)
  | reopen (keep : ℕ → ℕ → Bool) (scanStartHint : ℕ) (pages : List C)

/-- The data file; page 1 stands at offset 0, and pages behind the end read as zeros. -/
def dataFile {C : Type} (fmt : PageFormat C) (pages : List C) : ℕ → C :=
  fun p => pages.getD (p - 1) fmt.zero

def callsWal : Pc → Bool
  | .flushing _ _ _ _ (.wal _) | .fpiAppend .. => true
  | _ => false

def walOnly (n : ℕ) : WalSystem.Step → Bool
  | .flush u | .commit u .. | .flushTo u _ => n ≤ u
  | .reopen .. => false
  | _ => true

variable {C : Type} {n : ℕ} (cfg : Config C)

def Logged (w : WalSystem.Sys) (l : ℕ) : Prop := l = Lsn.invalid ∨ ∃ r ∈ w.log, r.lsn = l

instance (w : WalSystem.Sys) (l : ℕ) : Decidable (Logged w l) := inferInstanceAs (Decidable (_ ∨ _))

def Stamped (w : WalSystem.Sys) (c : C) : Prop := Logged w (cfg.format.pdLsn c)

instance (w : WalSystem.Sys) (c : C) : Decidable (Stamped cfg w c) :=
  inferInstanceAs (Decidable (Logged _ _))

/-- The holder of a guard stamps the page with the position of a record it has appended. -/
def PoolOnly (s : Store C n) : BufferPool.Step C n → Prop
  | .run t _ _ => callsWal (s.pool.threads t) = false
  | .modify _ c => Stamped cfg s.wal c
  | _ => True

instance (s : Store C n) (a : BufferPool.Step C n) : Decidable (PoolOnly cfg s a) :=
  match a with
  | .run t _ _ => inferInstanceAs (Decidable (callsWal (s.pool.threads t) = false))
  | .modify _ c => inferInstanceAs (Decidable (Stamped cfg s.wal c))
  | .access .. | .flush .. | .drop .. | .setCheckpointLsn .. => .isTrue trivial

def poolStep (s : Store C n) (w : WalSystem.Sys) (a : BufferPool.Step C n) : Option (Store C n) :=
  (BufferPool.step cfg.format cfg.frameCount s.pool a).map (⟨w,·⟩)

/-- A crash leaves the page as an image that it has had since the data file was opened. -/
def Left (s : Store C n) (p : ℕ) (c : C) : Prop :=
  cfg.format.pdLsn c = cfg.format.pdLsn (s.pool.base p) ∨
    ∃ x ∈ s.pool.writes, x.1 = p ∧ cfg.format.pdLsn c = cfg.format.pdLsn x.2

instance (s : Store C n) (p : ℕ) (c : C) : Decidable (Left cfg s p c) :=
  inferInstanceAs (Decidable (_ ∨ _))

def step (s : Store C n) : Step C n → Option (Store C n)
  | .wal a =>
    if walOnly n a then (WalSystem.step cfg.wal s.wal a).map (⟨·,s.pool⟩) else none
  | .pool a => if PoolOnly cfg s a then poolStep cfg s s.wal a else none
  | .fpiAppend t fault =>
    match s.pool.threads t with
    | .fpiAppend p f =>
      match WalSystem.appendStep cfg.wal (WalWriter.append cfg.wal)
          (cfg.fullPageImage p (s.pool.content f)) fault s.wal with
      | (.ok lsn,w) => poolStep cfg s w (.run t none lsn)
      | (.error e,w) => poolStep cfg s w (.run t (some e) 0)
    | _ => none
  | .walTest t =>
    match s.pool.threads t, s.wal.callers t with
    | .flushing _ _ _ _ (.wal lsn), .idle =>
      if Lsn.isValid lsn ∧ lsn ≤ s.wal.writer.lsnClock ∧ s.wal.writer.syncedLsn < lsn then
        some ⟨setCaller s.wal t (.target .flushTo lsn),s.pool⟩
      else poolStep cfg s s.wal (.run t none 0)
    | _, _ => none
  | .walReturn t =>
    match s.pool.threads t, s.wal.callers t with
    | .flushing _ _ _ _ (.wal _), .returned _ _ _ res =>
      let fault := match res with
        | .ok () => none
        | .error e => some e
      poolStep cfg s (setCaller s.wal t .idle) (.run t fault 0)
    | _, _ => none
  | .reopen keep hint pages =>
    if ∀ x ∈ pages.zipIdx 1, Left cfg s x.2 x.1 then
      (WalSystem.step cfg.wal s.wal (.reopen keep hint)).map
        (⟨·,opened (dataFile cfg.format pages) cfg.format⟩)
    else none

def Fresh (s : Store C n) : Prop :=
  WalSystem.Fresh cfg.wal s.wal ∧ s.pool = opened (fun _ => cfg.format.zero) cfg.format

/-- Every record that starts at or before `l` lies behind the horizon. -/
def Covered (w : WalSystem.Sys) (l : ℕ) : Prop :=
  ∀ r ∈ w.log, r.lsn ≤ l → r.stop ≤ w.writer.syncedLsn

/-- A `flush_to` that `flush_frame` has begun for the position `l`. -/
def CallInv (w : WalSystem.Sys) (l : ℕ) : WalSystem.Caller → Prop
  | .idle => True
  | .target _ lsn => lsn = l
  | .waiting _ lsn before | .returned _ lsn before _ =>
    lsn = l ∧ ∀ r ∈ w.log.drop before, l < r.lsn

/-- What holds of a thread of the pool and its call of the WAL. -/
def ThreadInv (w : WalSystem.Sys) (content : ℕ → C) (caller : WalSystem.Caller) : Pc → Prop
  | .flushing _ f _ _ (.wal l) => l = cfg.format.pdLsn (content f) ∧ CallInv w l caller
  | .flushing _ f _ _ .write => caller = .idle ∧ Covered w (cfg.format.pdLsn (content f))
  | _ => caller = .idle

def Positive (w : WalSystem.Sys) : Prop := ∀ r ∈ w.log, Lsn.invalid < r.lsn

/-- The record of the image lies behind the horizon. -/
def Saved (w : WalSystem.Sys) (c : C) : Prop :=
  cfg.format.pdLsn c = Lsn.invalid ∨
    ∃ r ∈ w.log, r.lsn = cfg.format.pdLsn c ∧ r.stop ≤ w.writer.syncedLsn

structure Inv (s : Store C n) : Prop where
  wal : WalSystem.Inv cfg.wal (· < n) s.wal
  clock : 0 < s.wal.writer.lsnClock
  positive : Positive s.wal
  latches : Latches s.pool
  content : ∀ f, Stamped cfg s.wal (s.pool.content f)
  base : ∀ p, Saved cfg s.wal (s.pool.base p)
  writes : ∀ x ∈ s.pool.writes, Saved cfg s.wal x.2
  thread : ∀ t : Fin n, ThreadInv cfg s.wal s.pool.content (s.wal.callers t) (s.pool.threads t)

variable {cfg}

section Wal

variable {w w' : WalSystem.Sys} {l : ℕ}

theorem mem_advances (ha : WalSystem.Advances w w') {r : WalSystem.Logged} (hr : r ∈ w.log) :
    r ∈ w'.log := by
  obtain ⟨extra,hlog,-⟩ := ha.log
  rw [hlog]
  exact List.mem_append_left _ hr

theorem Stamped.advances {c : C} (h : Stamped cfg w c) (ha : WalSystem.Advances w w') :
    Stamped cfg w' c :=
  h.imp_right fun ⟨r,hr,hl⟩ => ⟨r,mem_advances ha hr,hl⟩

theorem Saved.advances {c : C} (h : Saved cfg w c) (ha : WalSystem.Advances w w') :
    Saved cfg w' c :=
  h.imp_right fun ⟨r,hr,hl,hstop⟩ => ⟨r,mem_advances ha hr,hl,hstop.trans ha.synced⟩

theorem Saved.stamped {c : C} (h : Saved cfg w c) : Stamped cfg w c :=
  h.imp_right fun ⟨r,hr,hl,_⟩ => ⟨r,hr,hl⟩

theorem Stamped.lt {c : C} (h : Stamped cfg w c) (hcore : WalSystem.Core cfg.wal w)
    (hclock : 0 < w.writer.lsnClock) : cfg.format.pdLsn c < w.writer.lsnClock := by
  rcases h with h | ⟨r,hr,h⟩
  · rw [h]
    exact hclock
  · have := hcore.lsn_add_eight_le hr
    have := (hcore.log r hr).1
    omega

theorem Stamped.saved {c : C} (h : Stamped cfg w c) (hc : Covered w (cfg.format.pdLsn c)) :
    Saved cfg w c :=
  h.imp_right fun ⟨r,hr,hl⟩ => ⟨r,hr,hl,hc r hr hl.le⟩

theorem saved_zero : Saved cfg w cfg.format.zero := .inl cfg.format.pdLsn_zero

theorem Covered.advances (h : Covered w l) (hl : l < w.writer.lsnClock)
    (ha : WalSystem.Advances w w') : Covered w' l := by
  obtain ⟨extra,hlog,hnew⟩ := ha.log
  intro r hr hle
  rw [hlog] at hr
  rcases List.mem_append.1 hr with hr | hr
  · exact (h r hr hle).trans ha.synced
  · have := hnew r hr
    omega

theorem Positive.advances (h : Positive w) (hclock : 0 < w.writer.lsnClock)
    (ha : WalSystem.Advances w w') : Positive w' := by
  obtain ⟨extra,hlog,hnew⟩ := ha.log
  intro r hr
  rw [hlog] at hr
  rcases List.mem_append.1 hr with hr | hr
  · exact h r hr
  · exact hclock.trans_le (hnew r hr)

theorem drop_advances {before : ℕ} (h : ∀ r ∈ w.log.drop before, l < r.lsn)
    (hl : l < w.writer.lsnClock) (ha : WalSystem.Advances w w') :
    ∀ r ∈ w'.log.drop before, l < r.lsn := by
  obtain ⟨extra,hlog,hnew⟩ := ha.log
  intro r hr
  rw [hlog,List.drop_append] at hr
  rcases List.mem_append.1 hr with hr | hr
  · exact h r hr
  · exact hl.trans_le (hnew r (List.mem_of_mem_drop hr))

variable {c : WalSystem.Caller}

theorem CallInv.advances (h : CallInv w l c) (hl : l < w.writer.lsnClock)
    (ha : WalSystem.Advances w w') : CallInv w' l c := by
  cases c with
  | idle => trivial
  | target call lsn => exact h
  | waiting call lsn before | returned call lsn before res => exact ⟨h.1,drop_advances h.2 hl ha⟩

variable {pc : Pc}

theorem ThreadInv.keep {content content' : ℕ → C}
    (h : ThreadInv cfg w content c pc)
    (hst : ∀ f, cfg.format.pdLsn (content f) < w.writer.lsnClock)
    (ha : WalSystem.Advances w w') (hc : ∀ f, pc.reads = some f → content' f = content f) :
    ThreadInv cfg w' content' c pc := by
  cases pc
  case flushing o f p saved st =>
    cases st
    case wal l =>
      obtain ⟨rfl,hcall⟩ := h
      exact ⟨by rw [hc f rfl],hcall.advances (hst f) ha⟩
    case write =>
      obtain ⟨hidle,hcov⟩ := h
      refine ⟨hidle,?_⟩
      rw [hc f rfl]
      exact hcov.advances (hst f) ha
    all_goals exact h
  all_goals exact h

variable {content : ℕ → C}

theorem ThreadInv.of_busy (h : ThreadInv cfg w content c pc) (hc : c ≠ .idle) :
    ∃ o f p saved l, pc = .flushing o f p saved (.wal l) ∧ CallInv w l c := by
  cases pc
  case flushing o f p saved st =>
    cases st
    case wal l => exact ⟨o,f,p,saved,l,rfl,h.2⟩
    case write => exact absurd h.1 hc
    all_goals exact absurd h hc
  all_goals exact absurd h hc

theorem threadInv_calm (hwal : ∀ o f p saved l, pc ≠ .flushing o f p saved (.wal l))
    (hwr : ∀ o f p saved, pc ≠ .flushing o f p saved .write) :
    ThreadInv cfg w content c pc ↔ c = .idle := by
  cases pc
  case flushing o f p saved st =>
    cases st
    case wal l => exact absurd rfl (hwal o f p saved l)
    case write => exact absurd rfl (hwr o f p saved)
    all_goals exact Iff.rfl
  all_goals exact Iff.rfl

end Wal

theorem wal_caller {w w' : WalSystem.Sys} {a : WalSystem.Step} (ha : walOnly n a = true)
    (hs : WalSystem.step cfg.wal w a = some w') (t : Fin n) :
    w'.callers t = w.callers t ∨ ∃ call l before, w'.log = w.log ∧
      (w.callers t = .target call l ∧ before = w.log.length ∨
        w.callers t = .waiting call l before) ∧
      (w'.callers t = .waiting call l before ∨
        ∃ res, w'.callers t = .returned call l before res) := by
  have hother : ∀ u, n ≤ u → (t : ℕ) ≠ u := fun u hu => by omega
  have hset : ∀ (u : ℕ) (v : WalSystem.Sys) c, n ≤ u →
      (setCaller v u c).callers t = v.callers t := fun u v c hu =>
    update_of_ne (hother u hu) ..
  have hsettle : ∀ (u : ℕ) call l before out,
      (settle w u call l before out).log = w.log ∧
      ((t : ℕ) ≠ u → (settle w u call l before out).callers t = w.callers t) ∧
      ((settle w u call l before out).callers u = .waiting call l before ∨
        ∃ res, (settle w u call l before out).callers u =
          .returned call l before res) := by
    intro u call l before out
    unfold settle
    cases out.1 with
    | none => exact ⟨rfl,fun h => update_of_ne h ..,.inl (update_self ..)⟩
    | some res =>
      exact ⟨rfl,fun h => update_of_ne h ..,.inr ⟨res,update_self ..⟩⟩
  cases a with
  | append r fault | reserveAndAppend r fault =>
    cases hs
    exact .inl (congrFun (WalSystem.appendStep_callers ..) _)
  | flush u =>
    have hu : n ≤ u := by simpa [walOnly] using ha
    simp only [WalSystem.step] at hs
    split at hs
    · split at hs <;> cases hs <;> exact .inl (hset u _ _ hu)
    · cases hs
  | commit u xid fault =>
    have hu : n ≤ u := by simpa [walOnly] using ha
    have happ := congrFun (@WalSystem.appendStep_callers cfg.wal
      (WalWriter.append cfg.wal) (WalRecord.txnCommit xid) fault w) t
    simp only [WalSystem.step] at hs
    split at hs
    · split at hs <;> rename_i hout <;> rw [hout] at happ <;> cases hs <;>
        exact .inl ((hset u _ _ hu).trans happ)
    · cases hs
  | flushTo u lsn =>
    have hu : n ≤ u := by simpa [walOnly] using ha
    obtain ⟨-,rfl⟩ := of_guard hs
    exact .inl ((hsettle u _ _ _ _).2.1 (hother u hu))
  | enter u =>
    simp only [WalSystem.step] at hs
    split at hs <;> cases hs
    rename_i call l htgt
    obtain ⟨hlog,hne,hself⟩ := hsettle u call l w.log.length (WalWriter.flushTo l w.writer)
    by_cases hu : (t : ℕ) = u
    · exact .inr ⟨call,l,w.log.length,hlog,.inl ⟨hu ▸ htgt,rfl⟩,hu ▸ hself⟩
    · exact .inl (hne hu)
  | wake u =>
    simp only [WalSystem.step] at hs
    split at hs <;> cases hs
    rename_i call l before hwait
    obtain ⟨hlog,hne,hself⟩ := hsettle u call l before (WalWriter.flushWait l w.writer)
    by_cases hu : (t : ℕ) = u
    · exact .inr ⟨call,l,before,hlog,.inr (hu ▸ hwait),hu ▸ hself⟩
    · exact .inl (hne hu)
  | workerBegin timedOut dupFault | workerEnd fsyncFault also =>
    simp only [WalSystem.step] at hs
    split at hs <;> cases hs
    exact .inl rfl
  | close =>
    cases hs
    exact .inl rfl
  | reopen keep hint => cases ha

def walArg : Pc → Option ℕ
  | .flushing _ _ _ _ (.wal l) => some l
  | _ => none

/-- Each `flush_to` of a thread of the pool finds a horizon at a record boundary, and a reopened WAL
has all durable records. -/
def Clean (cfg : Config C) (s : Store C n) : Step C n → Prop
  | .wal a => ∀ t ∈ a.reader, t < n → WalSystem.Clean s.wal a
  | .walTest t => ∀ l ∈ walArg (s.pool.threads t),
    ¬WalSystem.Straddled s.wal l s.wal.log.length
  | .reopen keep hint _ => ∀ r ∈ s.wal.log, r.stop ≤ s.wal.writer.syncedLsn →
    ∀ w ∈ (WalWriter.openWithScanStart cfg.wal (s.wal.writer.segmentManager.dir.crash keep)
      hint).toOption, WalSystem.survives cfg.wal w.segmentManager.dir w.lsnClock r = true
  | .pool _ | .fpiAppend .. | .walReturn _ => True

instance (s : Store C n) (a : Step C n) : Decidable (Clean cfg s a) :=
  match a with
  | .wal a => inferInstanceAs (Decidable (∀ t ∈ a.reader, _))
  | .walTest t => inferInstanceAs (Decidable (∀ l ∈ walArg (s.pool.threads t), _))
  | .reopen .. => inferInstanceAs (Decidable (∀ r ∈ _, _))
  | .pool _ | .fpiAppend .. | .walReturn _ => .isTrue trivial

section Steps

variable {s s' : Store C n} {t : Fin n}

variable {w : WalSystem.Sys}

theorem onDisk_cases (sh : Shared C) (p : ℕ) :
    sh.onDisk p = sh.base p ∨ ∃ x ∈ sh.writes, sh.onDisk p = x.2 := by
  unfold Shared.onDisk
  generalize sh.base = base
  induction sh.writes generalizing base with
  | nil => exact .inl rfl
  | cons x xs ih =>
    rcases ih (update base x.1 x.2) with h | ⟨y,hy,h⟩
    · rcases eq_or_ne p x.1 with rfl | hne
      · exact .inr ⟨x,List.mem_cons_self,h.trans (update_self ..)⟩
      · exact .inl (h.trans (update_of_ne hne ..))
    · exact .inr ⟨y,List.mem_cons_of_mem _ hy,h⟩

theorem Inv.onDisk (h : Inv cfg s) (p : ℕ) : Stamped cfg s.wal (s.pool.onDisk p) := by
  rcases onDisk_cases s.pool.toShared p with hd | ⟨x,hx,hd⟩ <;> rw [hd]
  · exact (h.base p).stamped
  · exact (h.writes x hx).stamped

theorem Inv.content_lt (h : Inv cfg s) (f : ℕ) :
    cfg.format.pdLsn (s.pool.content f) < s.wal.writer.lsnClock :=
  (h.content f).lt h.wal.core h.clock

theorem Inv.wal_step {a : WalSystem.Step} (h : Inv cfg s)
    (ha : walOnly n a = true) (hc : ∀ t ∈ a.reader, t < n → WalSystem.Clean s.wal a)
    (hs : WalSystem.step cfg.wal s.wal a = some w) : Inv cfg ⟨w,s.pool⟩ := by
  have hnot : ∀ keep hint, a ≠ .reopen keep hint := by
    rintro keep hint rfl
    cases ha
  have hadv := WalSystem.step_advances h.wal.core hnot hs
  refine ⟨WalSystem.step_inv h.wal hc hs,h.clock.trans_le hadv.clock,
    h.positive.advances h.clock hadv,h.latches,
    fun f => (h.content f).advances hadv,fun p => (h.base p).advances hadv,
    fun x hx => (h.writes x hx).advances hadv,fun t => ?_⟩
  have hkeep := (h.thread t).keep h.content_lt hadv fun _ _ => rfl
  rcases wal_caller ha hs t with hsame | ⟨call,l,before,hlog,hold,hnew⟩
  · change ThreadInv cfg w s.pool.content (w.callers t) _
    rw [hsame]
    exact hkeep
  · have hbusy : s.wal.callers t ≠ .idle := by
      rcases hold with ⟨ho,-⟩ | ho <;> simp [ho]
    obtain ⟨o,f,p,saved,l',hpc,hcall⟩ := (h.thread t).of_busy hbusy
    have hdrop : l = l' ∧ ∀ r ∈ w.log.drop before, l' < r.lsn := by
      rw [hlog]
      rcases hold with ⟨ho,rfl⟩ | ho <;> rw [ho] at hcall
      · exact ⟨hcall,by simp⟩
      · exact hcall
    change ThreadInv cfg w s.pool.content (w.callers t) (s.pool.threads t)
    rw [hpc] at hkeep ⊢
    refine ⟨hkeep.1,?_⟩
    rcases hnew with hn | ⟨res,hn⟩ <;> rw [hn] <;> exact hdrop

variable {r : Shared C × Pc}

/-- A section of a thread of the pool, with whatever the WAL does in it. -/
theorem Inv.pool_section {lsn : ℕ} (h : Inv cfg s)
    (hwal : WalSystem.Inv cfg.wal (· < n) w) (hadv : WalSystem.Advances s.wal w)
    (hsec : Section cfg.format s.pool t lsn r)
    (hcallers : ∀ u : Fin n, u ≠ t → w.callers u = s.wal.callers u)
    (hfpi : ∀ p f, s.pool.threads t = .fpiAppend p f → Logged w lsn)
    (hthread : ThreadInv cfg w r.1.content (w.callers t) r.2) :
    Inv cfg ⟨w,s.pool.setThread t r⟩ := by
  have hfile : r.1.base = s.pool.base ∧ ∀ x ∈ r.1.writes, Saved cfg s.wal x.2 := by
    rcases hsec.written with hf | ⟨o,f,p,saved,hpc,hf⟩ <;> obtain ⟨hb,hw⟩ := Prod.mk.inj hf
    · exact ⟨hb,fun x hx => h.writes x (hw ▸ hx)⟩
    · refine ⟨hb,fun x hx => ?_⟩
      rcases List.mem_append.1 (hw ▸ hx) with hx | hx
      · exact h.writes x hx
      · obtain rfl := List.mem_singleton.1 hx
        have hthread := h.thread t
        rw [hpc] at hthread
        exact (h.content f).saved hthread.2
  refine ⟨hwal,h.clock.trans_le hadv.clock,h.positive.advances h.clock hadv,h.latches.move hsec,
    fun f => ?_,fun p => ?_,fun x hx => (hfile.2 x hx).advances hadv,fun u => ?_⟩
  · change Stamped cfg w (r.1.content f)
    rcases hsec.content f with hc | ⟨-,hc | ⟨p,hc⟩⟩ | ⟨p,hpc,hc⟩ <;> rw [hc]
    · exact (h.content f).advances hadv
    · exact saved_zero.stamped
    · exact (h.onDisk p).advances hadv
    · unfold Stamped
      rw [cfg.format.pdLsn_setPdLsn]
      exact hfpi p f hpc
  · change Saved cfg w (r.1.base p)
    rw [hfile.1]
    exact (h.base p).advances hadv
  · change ThreadInv cfg w r.1.content (w.callers u) (update s.pool.threads t r.2 u)
    by_cases hu : u = t
    · rw [hu,update_self]
      exact hthread
    · rw [update_of_ne hu,hcallers u hu]
      exact (h.thread u).keep h.content_lt hadv fun f hf => hsec.content_of_reader h.latches hf

theorem Inv.section_thread {lsn : ℕ} (h : Inv cfg s)
    (hsec : Section cfg.format s.pool t lsn r) (hcaller : w.callers t = s.wal.callers t)
    (hpc : ∀ o f p saved l, s.pool.threads t ≠ .flushing o f p saved (.wal l)) :
    ThreadInv cfg w r.1.content (w.callers t) r.2 := by
  have hidle : w.callers t = .idle := by
    rw [hcaller]
    by_contra hbusy
    obtain ⟨o,f,p,saved,l,hwal,-⟩ := (h.thread t).of_busy hbusy
    exact hpc o f p saved l hwal
  rw [hidle]
  by_cases hwal : ∃ o f p saved l, r.2 = .flushing o f p saved (.wal l)
  · obtain ⟨o,f,p,saved,l,hr⟩ := hwal
    obtain ⟨hl,hsh⟩ := hsec.wal o f p saved l hr
    rw [hr]
    exact ⟨by rw [hsh]; exact hl,trivial⟩
  · refine (threadInv_calm ?_ ?_).2 rfl
    · exact fun o f p saved l hr => hwal ⟨o,f,p,saved,l,hr⟩
    · intro o f p saved hr
      obtain ⟨l,hl,-⟩ := hsec.write o f p saved hr
      exact hpc o f p saved l hl

theorem Inv.pool_step {a : BufferPool.Step C n} {q : Pool C n} (h : Inv cfg s)
    (ha : PoolOnly cfg s a) (hs : BufferPool.step cfg.format cfg.frameCount s.pool a = some q) :
    Inv cfg ⟨s.wal,q⟩ := by
  have hrefl : WalSystem.Advances s.wal s.wal := .of_writer le_rfl le_rfl
  cases step_case hs with
  | run hr =>
    rename_i t fault lsn r
    have hsec := advance_section hr
    have hnot : ∀ pc, callsWal pc = true → s.pool.threads t ≠ pc := by
      intro pc hpc heq
      rw [← heq] at hpc
      exact absurd (hpc.symm.trans ha) (by decide)
    refine h.pool_section h.wal hrefl hsec (fun _ _ => rfl)
      (fun p f hpc => absurd hpc (hnot _ rfl)) ?_
    exact h.section_thread hsec rfl fun o f p saved l => hnot _ rfl
  | begins hb =>
    have hsec : Section cfg.format s.pool _ Lsn.invalid _ := hb.section
    exact h.pool_section h.wal hrefl hsec (fun _ _ => rfl) (fun _ _ _ => .inl rfl)
      (h.section_thread hsec rfl fun o f p saved l hpc => by simpa [hpc,Pc.stage] using hb.stage)
  | modify hpc =>
    rename_i t p f c
    refine ⟨h.wal,h.clock,h.positive,{ h.latches with },fun g => ?_,h.base,h.writes,
      fun u => ?_⟩
    · change Stamped cfg s.wal (update s.pool.content f c g)
      by_cases hg : g = f
      · rw [hg,update_self]
        exact ha
      · rw [update_of_ne hg]
        exact h.content g
    · refine (h.thread u).keep h.content_lt hrefl fun g hg => update_of_ne ?_ ..
      rintro rfl
      exact h.latches.reader g t u (by rw [hpc]; rfl) hg
  | setCheckpointLsn =>
    exact { h with latches := ⟨h.latches.writer,h.latches.reader⟩ }

variable {f p saved l : ℕ}

theorem advance_wal {o : Owner}
    (hpc : s.pool.threads t = .flushing o f p saved (.wal l)) (fault : Option StorageError)
    (hr : advance cfg.format cfg.frameCount s.pool t fault 0 = some r) :
    r.1 = s.pool.toShared ∧ (fault = none ∧ r.2 = .flushing o f p saved .write ∨
      ∃ e, r.2 = .flushing o f p saved (.failed e true)) := by
  simp only [advance,hpc,advanceFlush] at hr
  cases fault <;> cases hr
  · exact ⟨rfl,.inl ⟨rfl,rfl⟩⟩
  · exact ⟨rfl,.inr ⟨_,rfl⟩⟩

/-- After the WAL section the thread may write if the records of the page are covered. -/
theorem Inv.run_wal {o : Owner} (h : Inv cfg s)
    (hwal : WalSystem.Inv cfg.wal (· < n) w) (hadv : WalSystem.Advances s.wal w)
    (hcallers : ∀ u : Fin n, u ≠ t → w.callers u = s.wal.callers u) (hidle : w.callers t = .idle)
    (hpc : s.pool.threads t = .flushing o f p saved (.wal l)) (fault : Option StorageError)
    (hcov : fault = none → Covered w (cfg.format.pdLsn (s.pool.content f)))
    (hs : poolStep cfg s w (.run t fault 0) = some s') : Inv cfg s' := by
  simp only [poolStep,BufferPool.step,Option.map_map,Option.map_eq_some_iff] at hs
  obtain ⟨r,hr,rfl⟩ := hs
  refine h.pool_section hwal hadv (advance_section hr) hcallers (by simp [hpc]) ?_
  obtain ⟨hsh,⟨hok,hr2⟩ | ⟨e,hr2⟩⟩ := advance_wal hpc fault hr
  · rw [hr2,hsh]
    exact ⟨hidle,hcov hok⟩
  · rw [hr2]
    exact hidle

theorem setCaller_of_ne (w : WalSystem.Sys) (c : WalSystem.Caller) {u : Fin n} (hu : u ≠ t) :
    (setCaller w t c).callers u = w.callers u :=
  update_of_ne (fun h => hu (Fin.ext h)) ..

theorem setCaller_self (w : WalSystem.Sys) (u : ℕ) (c : WalSystem.Caller) :
    (setCaller w u c).callers u = c := update_self ..

theorem Inv.walTest (h : Inv cfg s) (hc : Clean cfg s (.walTest t))
    (hs : step cfg s (.walTest t) = some s') : Inv cfg s' := by
  simp only [step] at hs
  split at hs
  case h_2 => cases hs
  rename_i o f p saved l hpc hidle
  have hthread := h.thread t
  rw [hpc] at hthread
  obtain ⟨hl,-⟩ := hthread
  have hstraddle : ¬WalSystem.Straddled s.wal l s.wal.log.length := by
    exact hc l (by rw [hpc]; rfl)
  split at hs
  · cases hs
    have hadv : WalSystem.Advances s.wal (setCaller s.wal t (.target .flushTo l)) :=
      .of_writer le_rfl le_rfl
    refine { h with wal := h.wal.setCaller t fun _ => trivial, thread := fun u => ?_ }
    by_cases hu : u = t
    · subst hu
      change ThreadInv cfg _ s.pool.content ((setCaller s.wal u _).callers u) _
      rw [setCaller_self,hpc]
      exact ⟨hl,rfl⟩
    · change ThreadInv cfg _ s.pool.content ((setCaller s.wal t _).callers u) _
      rw [setCaller_of_ne _ _ hu]
      exact (h.thread u).keep h.content_lt hadv fun _ _ => rfl
  · rename_i htest
    refine h.run_wal h.wal (.of_writer le_rfl le_rfl) (fun _ _ => rfl) hidle hpc none
      (fun _ r hr hle => ?_) hs
    have hclock : l < s.wal.writer.lsnClock := hl ▸ h.content_lt f
    rw [← hl] at hle
    have hvalid : Lsn.isValid l = true := by
      have := h.positive r hr
      simp only [Lsn.isValid,bne_iff_ne,Lsn.invalid] at this ⊢
      omega
    have hsync : l ≤ s.wal.writer.syncedLsn := by
      by_contra hlt
      exact htest ⟨hvalid,hclock.le,not_le.1 hlt⟩
    by_contra hstop
    refine hstraddle ⟨r,?_,hle,hsync,not_le.1 hstop⟩
    rwa [List.take_length]

theorem Inv.walReturn (h : Inv cfg s) (hs : step cfg s (.walReturn t) = some s') : Inv cfg s' := by
  simp only [step] at hs
  split at hs
  case h_2 => cases hs
  rename_i o f p saved l call lsn before res hpc hret
  have hthread := h.thread t
  have hcaller := h.wal.caller t t.isLt
  rw [hpc,hret] at hthread
  rw [hret] at hcaller
  obtain ⟨hl,rfl,hdrop⟩ := hthread
  have hfree : WalSystem.CallerInv s.wal .idle := trivial
  refine h.run_wal (h.wal.setCaller t fun _ => hfree) (.of_writer le_rfl le_rfl)
    (fun u hu => setCaller_of_ne _ _ hu) (setCaller_self ..) hpc _ (fun hok r hr hle => ?_) hs
  cases res with
  | error e => cases hok
  | ok u =>
    obtain ⟨-,-,hcover⟩ := hcaller
    rw [← hl] at hle
    change r ∈ s.wal.log at hr
    rw [← List.take_append_drop before s.wal.log] at hr
    rcases List.mem_append.1 hr with hr | hr
    · exact hcover r hr hle
    · exact absurd hle (not_le.2 (hdrop r hr))

theorem Inv.fpiAppend {fault : Option IoFault} (h : Inv cfg s)
    (hs : step cfg s (.fpiAppend t fault) = some s') : Inv cfg s' := by
  simp only [step] at hs
  split at hs
  case h_2 => cases hs
  rename_i p f hpc
  have hnot : ∀ o f p saved l, s.pool.threads t ≠ .flushing o f p saved (.wal l) := by simp [hpc]
  set rec := cfg.fullPageImage p (s.pool.content f)
  have hwal := h.wal.append "append" rec fault
  have hadv := WalSystem.appendStep_advances "append" h.wal.core rec fault
  have hlog := (WalSystem.appendStep_core "append" h.wal.core rec fault).2.2
  have hcallers := @WalSystem.appendStep_callers cfg.wal (WalWriter.append cfg.wal) rec fault s.wal
  split at hs
  all_goals
    rename_i w hout
    have heq : WalWriter.append cfg.wal = WalWriter.appendAs cfg.wal "append" := rfl
    rw [heq] at hout hcallers
    rw [hout] at hwal hadv hlog hcallers
    simp only [poolStep,BufferPool.step,Option.map_map,Option.map_eq_some_iff] at hs
    obtain ⟨r,hr,rfl⟩ := hs
    have hsec := advance_section hr
    refine h.pool_section hwal hadv hsec (fun u _ => congrFun hcallers u) (fun _ _ _ => ?_)
      (h.section_thread hsec (congrFun hcallers t) hnot)
  · exact .inr ⟨_,hlog _ rfl,rfl⟩
  · exact .inl rfl

variable {pages : List C}

theorem dataFile_saved (h : ∀ x ∈ pages.zipIdx 1, Saved cfg w x.1) (p : ℕ) :
    Saved cfg w (dataFile cfg.format pages p) := by
  unfold dataFile
  rw [List.getD_eq_getElem?_getD]
  cases hp : pages[p - 1]? with
  | some c => exact h (c,1 + (p - 1)) (List.mk_add_mem_zipIdx_iff_getElem?.2 hp)
  | none => exact saved_zero

theorem opened_inv {base : ℕ → C} (hwal : WalSystem.Inv cfg.wal (· < n) w)
    (hclock : 0 < w.writer.lsnClock) (hpos : Positive w) (hidle : ∀ u, w.callers u = .idle)
    (hbase : ∀ p, Saved cfg w (base p)) : Inv cfg (⟨w,opened base cfg.format⟩ : Store C n) where
  wal := hwal
  clock := hclock
  positive := hpos
  latches := ⟨fun _ => nofun,fun _ => nofun⟩
  content _ := saved_zero.stamped
  base := hbase
  writes := nofun
  thread t := hidle t

/-- An image that the file has had is one whose record was durable. -/
theorem Inv.left_saved (h : Inv cfg s) {p : ℕ} {c : C} (hc : Left cfg s p c) :
    Saved cfg s.wal c := by
  rcases hc with hc | ⟨x,hx,-,hc⟩
  · unfold Saved
    rw [hc]
    exact h.base p
  · unfold Saved
    rw [hc]
    exact h.writes x hx

theorem Saved.reopen {c : C} {st : WriterState} {keep : ℕ → ℕ → Bool} {hint : ℕ}
    (hc : Saved cfg s.wal c) (h : Inv cfg s) (hclean : Clean cfg s (.reopen keep hint pages))
    (hopen : WalWriter.openWithScanStart cfg.wal (s.wal.writer.segmentManager.dir.crash keep)
      hint = .ok st) :
    Saved cfg ⟨st,.idle,fun _ => .idle,
      s.wal.log.filter (WalSystem.survives cfg.wal st.segmentManager.dir st.lsnClock)⟩ c := by
  refine hc.imp_right fun ⟨r,hr,hl,hstop⟩ => ?_
  have hsurv := hclean r hr hstop st (by rw [hopen]; rfl)
  refine ⟨r,List.mem_filter.2 ⟨hr,hsurv⟩,hl,?_⟩
  have hpos := h.positive r hr
  have hsize := h.wal.core.lsn_add_eight_le hr
  have hend : r.stop ≤ st.lsnClock := by
    simp only [WalSystem.survives,Bool.and_eq_true,decide_eq_true_eq] at hsurv
    exact hsurv.1
  obtain ⟨startLsn,rfl⟩ := WalWriter.openWithScanStart_ok hopen
  simp only [WalWriter.openWithSegmentManager] at hend ⊢
  rw [if_pos]
  · exact hend
  · simp only [Lsn.invalid,Lsn.first,lsnAlignment] at hpos ⊢
    omega

theorem Inv.reopen {keep : ℕ → ℕ → Bool} {hint : ℕ} (h : Inv cfg s)
    (hc : Clean cfg s (.reopen keep hint pages))
    (hs : step cfg s (.reopen keep hint pages) = some s') : Inv cfg s' := by
  obtain ⟨hleft,w,hw,rfl⟩ := of_guard_map hs
  have hwal := WalSystem.step_inv (a := .reopen keep hint) h.wal nofun hw
  simp only [WalSystem.step] at hw
  split at hw <;> cases hw
  rename_i st hopen
  refine opened_inv hwal (WalWriter.open_clock_pos hopen) (fun r hr => ?_) (fun _ => rfl)
    (dataFile_saved fun x hx => (h.left_saved (hleft x hx)).reopen h hc hopen)
  exact h.positive r (List.mem_filter.1 hr).1

theorem step_inv {a : Step C n} (h : Inv cfg s) (hc : Clean cfg s a)
    (hs : step cfg s a = some s') : Inv cfg s' := by
  cases a with
  | wal a =>
    simp only [step] at hs
    split at hs
    · rename_i ha
      obtain ⟨w,hw,rfl⟩ := Option.map_eq_some_iff.1 hs
      exact h.wal_step ha hc hw
    · cases hs
  | pool a =>
    simp only [step] at hs
    split at hs
    · rename_i ha
      obtain ⟨q,hq,rfl⟩ := Option.map_eq_some_iff.1 hs
      exact h.pool_step ha hq
    · cases hs
  | fpiAppend t fault => exact h.fpiAppend hs
  | walTest t => exact h.walTest hc hs
  | walReturn t => exact h.walReturn hs
  | reopen keep hint pages => exact h.reopen hc hs

end Steps

theorem reach_inv {s : Store C n} (h : Machine.Reach (step cfg) (Fresh cfg) (Clean cfg) s) :
    Inv cfg s := by
  refine h.invariant (fun s hs => ?_) fun _ _ _ hi hc hs => step_inv hi hc hs
  obtain ⟨w,pool⟩ := s
  obtain ⟨hfresh,hpool⟩ := hs
  have hwal := @WalSystem.fresh_inv _ (· < n) _ hfresh
  obtain ⟨st,hst,rfl⟩ := hfresh
  subst hpool
  have hclock := WalWriter.open_clock_pos hst
  exact opened_inv hwal hclock nofun (fun _ => rfl) fun _ => saved_zero

theorem step_pool {s s' : Store C n} {a : Step C n} (hs : step cfg s a = some s') :
    s'.pool = s.pool ∨ s'.pool.writes = [] ∨
      ∃ b, BufferPool.step cfg.format cfg.frameCount s.pool b = some s'.pool := by
  have hpool : ∀ w b, poolStep cfg s w b = some s' →
      ∃ b, BufferPool.step cfg.format cfg.frameCount s.pool b = some s'.pool := by
    intro w b hb
    obtain ⟨q,hq,rfl⟩ := Option.map_eq_some_iff.1 hb
    exact ⟨b,hq⟩
  cases a with
  | wal a =>
    simp only [step] at hs
    split at hs
    · obtain ⟨w,-,rfl⟩ := Option.map_eq_some_iff.1 hs
      exact .inl rfl
    · cases hs
  | pool a | walReturn t =>
    simp only [step] at hs
    split at hs
    · exact .inr (.inr (hpool _ _ hs))
    · cases hs
  | fpiAppend t fault =>
    simp only [step] at hs
    split at hs
    · split at hs <;> exact .inr (.inr (hpool _ _ hs))
    · cases hs
  | walTest t =>
    simp only [step] at hs
    split at hs
    · split at hs
      · cases hs
        exact .inl rfl
      · exact .inr (.inr (hpool _ _ hs))
    · cases hs
  | reopen keep hint pages =>
    obtain ⟨-,w,-,rfl⟩ := of_guard_map hs
    exact .inr (.inl rfl)

/-- All records up to the position a page carries are durable when the page is written, in every run
in which no test of the horizon cuts a record. -/
theorem page_write_after_wal {s s' : Store C n} {a : Step C n}
    (h : Machine.Reach (step cfg) (Fresh cfg) (Clean cfg) s) (hs : step cfg s a = some s')
    {p : ℕ} {c : C} (hw : s'.pool.writes = s.pool.writes ++ [(p,c)]) :
    ∀ r ∈ s.wal.log, r.lsn ≤ cfg.format.pdLsn c → WalSystem.Durable cfg.wal s.wal r := by
  have hinv := reach_inv h
  intro r hr hle
  rcases step_pool hs with hsame | hnil | ⟨b,hb⟩
  · rw [hsame] at hw
    simp at hw
  · rw [hnil] at hw
    simp at hw
  · rcases (step_files hb).1 with hsame | ⟨t,o,f,q,saved,hpc,hwr⟩
    · rw [hsame] at hw
      simp at hw
    · have heq : (q,s.pool.content f) = (p,c) := by simpa [hwr] using hw
      cases heq
      have hthread := hinv.thread t
      rw [hpc] at hthread
      exact hinv.wal.core.durable hr (hthread.2 r hr hle)

def smallStore : Config (ℕ × ℕ) :=
  ⟨WalSystem.smallConfig,stampedPage,1,fun p _ => WalRecord.new .fullPageImage (varint p)⟩

def freshStore : Store (ℕ × ℕ) 2 :=
  ⟨freshSys,blankPool⟩

theorem fresh_freshStore : Fresh smallStore freshStore := ⟨WalSystem.fresh_freshSys,rfl⟩

def openPage : List (Step (ℕ × ℕ) 2) := .pool (.access 0 .newPage 1 false) :: runs .pool 0 13

/-- Thread 0 stamps its page with `lsn` and lets go of it; thread 1 begins to flush it. -/
def stampAndFlush (lsn : ℕ) : List (Step (ℕ × ℕ) 2) :=
  [.pool (.modify 0 (lsn,7)),.pool (.drop 0)] ++ runs .pool 0 2 ++ .pool (.flush 1 1) ::
    runs .pool 1 2

def syncWal : List (Step (ℕ × ℕ) 2) :=
  [.wal (.workerBegin true none),.wal (.workerEnd none fun _ => false)]

def writesNext (c : ℕ × ℕ) (s : Store (ℕ × ℕ) 2) : Bool :=
  match step smallStore s (.pool (.run 1 none 0)) with
  | some s' => s'.pool.writes == s.pool.writes ++ [(1,c)]
  | none => false

/-- A page stamped `lsn` is about to be written, and the record at `lsn` is not durable. -/
def writesAhead (lsn : ℕ) (s : Store (ℕ × ℕ) 2) : Bool :=
  writesNext (lsn,7) s && s.wal.log.any fun r =>
    r.lsn = lsn && !decide (WalSystem.Durable smallStore.wal s.wal r)

/-- The horizon stands where the record of the page starts, so the page is written without a
sync. -/
theorem page_written_before_record :
    ∃ s, Machine.Reach (step smallStore) (Fresh smallStore) Machine.anyStep s ∧
      writesAhead 48 s = true :=
  Machine.exists_reach fresh_freshStore
    (openPage ++ .wal (.append (WalRecord.txnCommit 1) none) :: syncWal ++
      .wal (.append (WalRecord.txnCommit 2) none) :: stampAndFlush 48 ++ [.walTest 1])
    (by decide +kernel)

theorem page_write_after_wal_one_record :
    ∃ s, Machine.Reach (step smallStore) (Fresh smallStore) (Clean smallStore) s ∧
      writesNext (8,7) s = true ∧ (s.wal.log.any fun r => r.lsn = 8) = true ∧
      ∀ r ∈ s.wal.log, r.lsn ≤ 8 → WalSystem.Durable smallStore.wal s.wal r := by
  have hrun : ∃ s, Machine.Reach (step smallStore) (Fresh smallStore) (Clean smallStore) s ∧
      (writesNext (8,7) s && s.wal.log.any fun r => r.lsn = 8) = true :=
    Machine.exists_reach fresh_freshStore
      (openPage ++ .wal (.append (WalRecord.txnCommit 1) none) :: stampAndFlush 8 ++
        [.walTest 1,.wal (.enter 1)] ++ syncWal ++ [.wal (.wake 1),.walReturn 1])
      (by decide +kernel)
  obtain ⟨s,hs,hp⟩ := hrun
  rw [Bool.and_eq_true] at hp
  refine ⟨s,hs,hp.1,hp.2,?_⟩
  have hnext := hp.1
  unfold writesNext at hnext
  split at hnext
  · rename_i s' hstep
    exact page_write_after_wal hs hstep (beq_iff_eq.1 hnext)
  · cases hnext

end WriteAhead
end PgAm
