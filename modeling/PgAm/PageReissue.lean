import PgAm.PageCalls
import PgAm.PoolNewPage

/-! The page allocator and the buffer pool side by side. `new_page` takes a page from the allocator
and a frame from the pool; `free_page` gives the page back and leaves the pool alone. -/
namespace PgAm
namespace PageReissue

open Machine BufferPool PageAllocator

variable {C : Type} {n : ℕ} {fmt : PageFormat C} {frameCount : ℕ}

structure Sys (C : Type) (n : ℕ) where
  pool : Pool C n
  allocator : Allocator
  wal : Wal

/-- `new_page` begins with `alloc_page`; `free_page` is a call of its own. -/
inductive Step (C : Type) (n : ℕ)
  | newPage (t : Fin n) (grow : Option String) (fault : Option AppendFault)
  | freePage (t : Fin n) (p : ℕ) (fault : Option AppendFault)
  | pool (a : BufferPool.Step C n)

def plain : BufferPool.Step C n → Bool
  | .access _ .newPage .. => false
  | _ => true

def step (fmt : PageFormat C) (frameCount : ℕ) (s : Sys C n) : Step C n → Option (Sys C n)
  | .newPage t grow fault =>
    if (s.pool.threads t).free then
      match allocPage grow fault s.allocator s.wal with
      | (.ok p,a,w) =>
        (BufferPool.step fmt frameCount s.pool (.access t .newPage p false)).map (⟨·,a,w⟩)
      | (.error e,a,w) => some ⟨s.pool.setThread t (s.pool.toShared,.returned (some e)),a,w⟩
    else none
  | .freePage t p fault =>
    if (s.pool.threads t).free then
      match freePage fault p s.allocator s.wal with
      | (.ok (),a,w) => some ⟨s.pool.setThread t (s.pool.toShared,.returned none),a,w⟩
      | (.error e,a,w) => some ⟨s.pool.setThread t (s.pool.toShared,.returned (some e)),a,w⟩
    else none
  | .pool a =>
    if plain a then (BufferPool.step fmt frameCount s.pool a).map (⟨·,s.allocator,s.wal⟩) else none

def Start (fmt : PageFormat C) (s : Sys C n) : Prop :=
  (∃ base, s.pool = opened base fmt) ∧ Tidy s.wal s.allocator

/-- A page is freed only when nobody works on it. -/
def Proper (s : Sys C n) : Step C n → Prop
  | .freePage _ p _ => ∀ u, (s.pool.threads u).page ≠ some p
  | _ => True

/-- The page that `new_page` gets is not cached any more, and nobody works on it before the guard is
there. -/
def Allowed (s : Sys C n) : Step C n → Prop
  | .newPage t grow fault =>
    match (allocPage grow fault s.allocator s.wal).1 with
    | .ok p => Fresh s.pool (.access t .newPage p false)
    | .error _ => True
  | .freePage .. => True
  | .pool a => Fresh s.pool a

structure Moved (fmt : PageFormat C) (frameCount : ℕ) (s : Sys C n) (a : Step C n) (s' : Sys C n)
    (b : BufferPool.Step C n) (t : Fin n) (r : Shared C × Pc) : Prop where
  ran : Ran fmt frameCount s.pool b t r
  eq : s'.pool = s.pool.setThread t r
  fresh : Allowed s a → Fresh s.pool b

variable {s s' : Sys C n} {a : Step C n}

theorem step_moved (hs : step fmt frameCount s a = some s') :
    (∃ b t r, Moved fmt frameCount s a s' b t r) ∨
      ∃ lsn, s'.pool = { s.pool with checkpointLsn := lsn } := by
  cases a with
  | newPage t grow fault =>
    obtain ⟨hfree,hs⟩ := Option.ite_none_right_eq_some.1 hs
    split at hs
    · rename_i p a w hal
      obtain ⟨pool,hp,rfl⟩ := Option.map_eq_some_iff.1 hs
      rcases step_ran hp with ⟨u,r,hr,hp⟩ | ⟨lsn,ha,-⟩
      · exact .inl ⟨_,u,r,hr,hp,by simp only [Allowed,hal]; exact id⟩
      · cases ha
    · cases hs
      exact .inl ⟨.drop t,t,_,.answered hfree nofun,rfl,fun _ => trivial⟩
  | freePage t p fault =>
    obtain ⟨hfree,hs⟩ := Option.ite_none_right_eq_some.1 hs
    split at hs <;> cases hs <;>
      exact .inl ⟨.drop t,t,_,.answered hfree nofun,rfl,fun _ => trivial⟩
  | pool a =>
    simp only [step] at hs
    split at hs
    case isFalse => cases hs
    obtain ⟨pool,hp,rfl⟩ := Option.map_eq_some_iff.1 hs
    rcases step_ran hp with ⟨u,r,hr,hp⟩ | ⟨lsn,-,hp⟩
    · exact .inl ⟨a,u,r,hr,hp,id⟩
    · exact .inr ⟨lsn,hp⟩

theorem reach_making {s : Sys C n} (h : Reach (step fmt frameCount) (Start fmt) Allowed s) :
    BufferPool.Inv s.pool ∧ Making fmt s.pool := by
  refine h.invariant (I := fun s => BufferPool.Inv s.pool ∧ Making fmt s.pool) ?_ ?_
  · rintro s ⟨⟨base,hbase⟩,-⟩
    rw [hbase]
    exact ⟨opened_inv base,opened_making base⟩
  · rintro s a s' ⟨hinv,hm⟩ hok hs
    rcases step_moved hs with ⟨b,t,r,hmove⟩ | ⟨lsn,hp⟩
    · rw [hmove.eq]
      have hfresh := hmove.fresh hok
      exact ⟨hinv.move (hmove.ran.move hinv hfresh.clean),hm.ran hinv hfresh hmove.ran⟩
    · rw [hp]
      exact ⟨hinv.setCheckpointLsn lsn,{ hm with }⟩

/-- The guard that `new_page` returns shows a zero page. -/
theorem new_page_zeroed {s s' : Sys C n} {a : Step C n} {t : Fin n} {p q f : ℕ}
    (h : Reach (step fmt frameCount) (Start fmt) Allowed s)
    (hs : step fmt frameCount s a = some s')
    (hcall : (s.pool.threads t).access = some (.newPage,p))
    (hguard : s'.pool.threads t = .writing q f) : q = p ∧ s'.pool.content f = fmt.zero := by
  obtain ⟨-,hm⟩ := reach_making h
  rcases step_moved hs with ⟨b,u,r,hmove⟩ | ⟨lsn,hp⟩
  · rw [hmove.eq] at hguard ⊢
    exact hm.guard hmove.ran hcall hguard
  · rw [hp] at hguard
    change s.pool.threads t = _ at hguard
    rw [hguard] at hcall
    cases hcall

instance (s : Sys C n) (a : Step C n) : Decidable (Allowed s a) :=
  match a with
  | .newPage t grow fault =>
    match h : (allocPage grow fault s.allocator s.wal).1 with
    | .ok p =>
      decidable_of_iff (Fresh s.pool (.access t .newPage p false)) (by simp only [Allowed,h])
    | .error _ => isTrue (by simp only [Allowed,h])
  | .freePage .. => .isTrue trivial
  | .pool a => inferInstanceAs (Decidable (Fresh s.pool a))

instance (s : Sys C n) (a : Step C n) : Decidable (Proper s a) :=
  match a with
  | .freePage _ p _ => inferInstanceAs (Decidable (∀ u, (s.pool.threads u).page ≠ some p))
  | .newPage .. | .pool .. => .isTrue trivial

def freshSys : Sys (ℕ × ℕ) 1 :=
  ⟨blankPool,⟨0,PageId.first,[],false⟩,⟨[],0,none⟩⟩

theorem freshSys_start : Start stampedPage freshSys := by
  refine ⟨⟨_,rfl⟩,grounded_nil,⟨List.nodup_nil,nofun,nofun,le_rfl⟩,fun _ p hp => absurd rfl hp,?_,
    Nat.dvd_zero _⟩
  exact fun p hp hlt => absurd hp (not_le.2 hlt)

def allocatedPage : List (Step (ℕ × ℕ) 1) :=
  .newPage 0 none none :: useNewPage .pool 0 [.pool (.modify 0 (5,11))]

def returnsGuard (p : ℕ) (c : ℕ × ℕ) (s : Sys (ℕ × ℕ) 1) : Bool :=
  (s.pool.threads 0).access == some (.newPage,p) &&
    (step stampedPage 1 s (.pool (.run 0 none 0))).any fun s' : Sys (ℕ × ℕ) 1 =>
      match s'.pool.threads 0 with
      | .writing q f => q == p && s'.pool.content f == c
      | _ => false

/-- The page is freed while its frame is resident and comes back with its old content. -/
theorem reissued_page_shows_old_content :
    ∃ s, Reach (step stampedPage 1) (Start stampedPage) Proper s ∧ returnsGuard 1 (5,11) s = true :=
  exists_reach freshSys_start
    (allocatedPage ++ .freePage 0 1 none :: .newPage 0 none none :: runs .pool 0 3)
    (by decide +kernel)

/-- Page 2 takes the frame of page 1, and page 1 is then freed and created again. -/
def recreatePage : List (Step (ℕ × ℕ) 1) :=
  allocatedPage ++ .newPage 0 none none :: runs .pool 0 25 ++ .pool (.drop 0) :: runs .pool 0 2 ++
    .freePage 0 1 none :: .newPage 0 none none :: runs .pool 0 24

theorem new_page_zeroed_after_eviction :
    ∃ s s' : Sys (ℕ × ℕ) 1, Reach (step stampedPage 1) (Start stampedPage) Allowed s ∧
      (s.pool.threads 0).access = some (.newPage,1) ∧
      ∃ f, s'.pool.threads 0 = .writing 1 f ∧ s'.pool.content f = stampedPage.zero := by
  have hrun : ∃ s, Reach (step stampedPage 1) (Start stampedPage) Allowed s ∧
      returnsGuard 1 (0,0) s = true :=
    exists_reach freshSys_start recreatePage (by decide +kernel)
  obtain ⟨s,hs,hp⟩ := hrun
  simp only [returnsGuard,Bool.and_eq_true,beq_iff_eq,Option.any_eq_true] at hp
  obtain ⟨hcall,s',hstep,hp⟩ := hp
  split at hp
  · rename_i q f hguard
    obtain ⟨rfl,hzero⟩ := new_page_zeroed hs hstep hcall hguard
    exact ⟨s,s',hs,hcall,f,hguard,hzero⟩
  · cases hp

end PageReissue
end PgAm
