import PgAm.Deadlock

/-! Deadlocks and the wait-for graph. A set of transactions is deadlocked if each of them stays
blocked whatever the others end. Such a set has a cycle in the graph of the wait-for edges and
the queue order; the wait-for edges alone have one if nobody in the set waits only because of
its place in a queue. -/
namespace PgAm
namespace Lock
namespace Waits

open Machine WaitGraph Function

/-- The transaction sleeps: its row blocker is active, or its queued request is refused. -/
def Blocked (s : Waits) (x : ℕ) : Prop :=
  (∃ b, s.waits x = some b ∧ b ≠ x ∧ b ∈ s.active) ∨
    ∃ t, ∃ w ∈ (s.locks.entry t).waitQueue, w.xid = x ∧ (s.locks.entry t).canGrant x w.mode = false

def ended (s : Waits) (x : ℕ) : Waits where
  locks := ⟨(s.locks.manager.clear x).releaseAll x,update s.locks.calls x none⟩
  txnIdClock := s.txnIdClock
  active := s.active.filter fun y => decide (y ≠ x)
  rowWaitRegistry := s.rowWaitRegistry.erase x
  waits := update s.waits x none

/-- Every member of `D` is blocked, also after any others have ended. -/
def Deadlocked (s : Waits) (D : Set ℕ) : Prop :=
  D.Nonempty ∧ ∀ l : List ℕ, (∀ z ∈ l, z ∉ D) → ∀ x ∈ D, (l.foldl ended s).Blocked x

def Ahead (s : Waits) (x y : ℕ) : Prop :=
  ∃ t w w', [w',w].Sublist (s.locks.entry t).waitQueue ∧ w.xid = x ∧ w'.xid = y

def Edge (s : Waits) (x y : ℕ) : Prop := (x,y) ∈ s.waitForEdges

/-- A row wait is registered, and excludes a table request. -/
structure Inv (s : Waits) : Prop where
  locks : Lock.Inv s.locks
  registered : ∀ x b, s.waits x = some b → s.rowWaitRegistry.lookup x = some b
  single : ∀ x, s.waits x ≠ none → s.locks.calls x = none

theorem Inv.empty : Inv .new := ⟨.empty,nofun,nofun⟩

variable {s : Waits}

theorem Inv.unregister (h : Inv s) (x : ℕ) : Inv (s.unregister x) where
  locks := h.locks
  registered y b hy := by
    change update s.waits x none y = some b at hy
    change (s.rowWaitRegistry.erase x).lookup y = some b
    obtain ⟨-,⟨⟩⟩ | ⟨hyx,hy⟩ := of_update_eq hy
    rw [AList.lookup_erase_ne hyx]
    exact h.registered y b hy
  single y hy := by
    change update s.waits x none y ≠ none at hy
    by_cases hyx : y = x
    · rw [hyx,update_self] at hy
      exact absurd rfl hy
    · rw [update_of_ne hyx] at hy
      exact h.single y hy

theorem Inv.register (h : Inv s) {x : ℕ} (hx : s.locks.calls x = none) (b : ℕ) :
    Inv (s.register x b) where
  locks := h.locks
  registered y c hy := by
    change update s.waits x (some b) y = some c at hy
    change (s.rowWaitRegistry.insert x b).lookup y = some c
    by_cases hyx : y = x
    · subst hyx
      rwa [update_self,← AList.lookup_insert s.rowWaitRegistry] at hy
    · rw [update_of_ne hyx] at hy
      rw [AList.lookup_insert_ne hyx]
      exact h.registered y c hy
  single y hy := by
    change update s.waits x (some b) y ≠ none at hy
    by_cases hyx : y = x
    · rw [hyx]
      exact hx
    · rw [update_of_ne hyx] at hy
      exact h.single y hy

theorem Inv.clear (h : Inv s) (x : ℕ) :
    Inv { s with locks := { s.locks with manager := s.locks.manager.clear x } } :=
  ⟨h.locks.step (a := .clear x) rfl,h.registered,h.single⟩

theorem Inv.waitFor (h : Inv s) (x b : ℕ) : Inv (s.waitFor x b) := by
  unfold Waits.waitFor
  split
  · exact h.unregister x
  · split
    · exact (h.unregister x).clear x
    · split
      · exact h.unregister x
      · exact h

theorem calls_round {s : Sys} {x z t : ℕ} {m : LockMode} (h : x ≠ z) :
    (s.round z t m).calls x = s.calls x := by
  unfold Sys.round
  rcases s.manager.acquireRound z t m with ⟨_ | _ | _,manager⟩ <;> exact update_of_ne h _ _

theorem calls_of_step {s s' : Sys} {a : Lock.Step} (h : s.step a = some s') {x : ℕ}
    (hx : s.calls x = none) (ha : caller a ≠ some x) : s'.calls x = none := by
  cases a with
  | acquire z t m =>
    rw [Sys.step,Option.ite_none_right_eq_some,Option.some.injEq] at h
    rw [← h.2,calls_round,hx]
    rintro rfl
    exact ha rfl
  | wake z =>
    obtain ⟨c,hz,rfl⟩ := Option.map_eq_some_iff.1 h
    rw [calls_round,hx]
    rintro rfl
    rw [hx] at hz
    cases hz
  | tryAcquire z t m | releaseAll z =>
    rw [Sys.step,Option.ite_none_right_eq_some,Option.some.injEq] at h
    rw [← h.2,hx]
  | mark z | clear z =>
    cases h
    exact hx

theorem Inv.step {s s' : Waits} {a : Step} (h : Inv s) (hs : s.step a = some s') : Inv s' := by
  cases a with
  | beginTxn =>
    cases hs
    exact { h with }
  | lock a =>
    rw [Waits.step,Option.ite_none_right_eq_some,Option.map_eq_some_iff] at hs
    obtain ⟨hidle,locks,hl,rfl⟩ := hs
    refine ⟨h.locks.step hl,h.registered,fun x hx => ?_⟩
    refine calls_of_step hl (h.single x hx) fun hc => ?_
    rw [hc,Option.all_some,Option.isNone_iff_eq_none] at hidle
    exact hx hidle
  | registerRowWait x b =>
    rw [Waits.step,Option.ite_none_right_eq_some,Option.some.injEq,idle,Bool.and_eq_true,
      Option.isNone_iff_eq_none] at hs
    obtain ⟨⟨hcall,-⟩,rfl⟩ := hs
    exact h.register hcall b
  | waitFor x =>
    obtain ⟨b,-,rfl⟩ := Option.map_eq_some_iff.1 hs
    exact h.waitFor x b
  | endTxn x =>
    rw [Waits.step,Option.ite_none_right_eq_some,Option.some.injEq] at hs
    obtain ⟨-,rfl⟩ := hs
    exact ⟨h.locks.step (a := .clear x) rfl,h.registered,h.single⟩

theorem Inv.reach (h : Reach Waits.step Start anyStep s) : Inv s :=
  h.invariant (fun _ hs => hs ▸ .empty) fun _ _ _ hi _ hs => hi.step hs

theorem entry_ended (s : Waits) (z t : ℕ) :
    (s.ended z).locks.entry t = (s.locks.entry t).release z :=
  congrFun (LockManager.entry_releaseAll _ z) t

/-- `u` is `s` after some transactions outside `D` have ended, with nothing granted to `D`. -/
structure Since (s u : Waits) (D : Set ℕ) : Prop where
  tables : ∀ t, TableInv u.locks.calls t (u.locks.entry t)
  waits : ∀ x ∈ D, u.waits x = s.waits x
  calls : ∀ x ∈ D, u.locks.calls x = s.locks.calls x
  active : u.active ⊆ s.active
  queue : ∀ t, (u.locks.entry t).waitQueue.Sublist (s.locks.entry t).waitQueue
  granted : ∀ t, ∀ x ∈ D,
    (u.locks.entry t).granted.lookup x = (s.locks.entry t).granted.lookup x
  holders : ∀ t x h, (u.locks.entry t).granted.lookup x = some h →
    x ∈ (s.locks.entry t).granted ∨ (s.locks.entry t).Queued x

theorem Inv.since (h : Inv s) (D : Set ℕ) : Since s s D :=
  ⟨h.locks.table,fun _ _ => rfl,fun _ _ => rfl,List.Subset.refl _,fun _ => List.Sublist.refl _,
    fun _ _ _ => rfl,fun t x m hx => .inl (AList.lookup_isSome.1 (by rw [hx]; rfl))⟩

variable {D : Set ℕ}

theorem Since.ended {s u : Waits} (h : Since s u D)
    (hsingle : ∀ x, s.waits x ≠ none → s.locks.calls x = none) {z : ℕ} (hz : z ∉ D)
    (hblocked : ∀ x ∈ D, (u.ended z).Blocked x) : Since s (u.ended z) D := by
  have hne : ∀ {x}, x ∈ D → x ≠ z := fun hx e => hz (e ▸ hx)
  have hcalls : ∀ x ∈ D, (u.ended z).locks.calls x = u.locks.calls x := fun x hx =>
    update_of_ne (hne hx) _ _
  have htables : ∀ t, TableInv (u.ended z).locks.calls t ((u.ended z).locks.entry t) := by
    intro t
    obtain ⟨served,hr⟩ := LockEntry.release_spec (u.locks.entry t) z
    rw [entry_ended]
    exact (h.tables t).regrants hr rfl (LockEntry.compatible_erase (h.tables t).compatible _)
      fun _ hy => AList.lookup_erase_ne hy
  refine ⟨htables,fun x hx => ?_,fun x hx => ?_,?_,fun t => ?_,fun t x hx => ?_,fun t x m hx => ?_⟩
  · exact (update_of_ne (hne hx) _ _).trans (h.waits x hx)
  · exact (hcalls x hx).trans (h.calls x hx)
  · exact fun y hy => h.active (List.mem_filter.1 hy).1
  · obtain ⟨served,hr⟩ := LockEntry.release_spec (u.locks.entry t) z
    rw [entry_ended]
    refine List.Sublist.trans ?_ (h.queue t)
    exact (List.sublist_append_right served _).trans (hr.queue ▸ List.filter_sublist)
  · obtain ⟨served,hr⟩ := LockEntry.release_spec (u.locks.entry t) z
    rw [entry_ended,← h.granted t x hx]
    refine (hr.kept x fun w hw hwx => ?_).trans (AList.lookup_erase_ne (hne hx))
    have hmem : w ∈ (u.locks.entry t).waitQueue := by
      have hw' := List.mem_append_left ((u.locks.entry t).release z).waitQueue hw
      rw [← hr.queue] at hw'
      exact (List.mem_filter.1 hw').1
    have hcall : u.locks.calls x = some (t,w.mode) := hwx ▸ (h.tables t).queued w hmem
    obtain ⟨b,hb,-⟩ | ⟨t',w',hw',hwx',-⟩ := hblocked x hx
    · have hwait : s.waits x = some b := by
        rw [← h.waits x hx,← hb]
        exact (update_of_ne (hne hx) _ _).symm
      have hnone := hsingle x (by simp [hwait])
      rw [← h.calls x hx,hcall] at hnone
      cases hnone
    · have hcall' := (htables t').queued w' hw'
      rw [hwx',hcalls x hx,hcall,Option.some.injEq,Prod.mk.injEq] at hcall'
      obtain ⟨rfl,-⟩ := hcall'
      rw [entry_ended] at hw'
      have hnd : ((served ++ ((u.locks.entry t).release z).waitQueue).map Waiter.xid).Nodup := by
        rw [← hr.queue]
        exact (h.tables t).nodup.sublist (List.filter_sublist.map _)
      rw [List.map_append,List.nodup_append] at hnd
      exact hnd.2.2 _ (List.mem_map_of_mem hw) _ (List.mem_map_of_mem hw') (hwx.trans hwx'.symm)
  · obtain ⟨served,hr⟩ := LockEntry.release_spec (u.locks.entry t) z
    rw [entry_ended] at hx
    by_cases hserved : ∃ w ∈ served, w.xid = x
    · obtain ⟨w,hw,hwx⟩ := hserved
      have hw' := List.mem_append_left ((u.locks.entry t).release z).waitQueue hw
      rw [← hr.queue] at hw'
      exact .inr ⟨w,(h.queue t).subset (List.mem_filter.1 hw').1,hwx⟩
    · rw [hr.kept x fun w hw hwx => hserved ⟨w,hw,hwx⟩] at hx
      have hxz : x ≠ z := by
        rintro rfl
        change ((u.locks.entry t).granted.erase x).lookup x = some m at hx
        rw [AList.lookup_erase] at hx
        cases hx
      exact h.holders t x m ((AList.lookup_erase_ne hxz).symm.trans hx)

def Gone (s : Waits) (z : ℕ) : Prop :=
  z ∉ s.active ∧ ∀ t, (s.locks.entry t).granted.lookup z = none ∧ ¬(s.locks.entry t).Queued z

theorem gone_ended {y z : ℕ} (h : z = y ∨ s.Gone z) : (s.ended y).Gone z := by
  refine ⟨fun hz => ?_,fun t => ?_⟩
  · obtain ⟨hz,hzy⟩ := List.mem_filter.1 hz
    rcases h with rfl | h
    · exact of_decide_eq_true hzy rfl
    · exact h.1 hz
  · obtain ⟨served,hr⟩ := LockEntry.release_spec (s.locks.entry t) y
    rw [entry_ended]
    have hnot : ∀ w ∈ (s.locks.entry t).waitQueue.filter fun w => decide (w.xid ≠ y),
        w.xid ≠ z := by
      intro w hw hwz
      obtain ⟨hw,hwy⟩ := List.mem_filter.1 hw
      rcases h with rfl | h
      · exact of_decide_eq_true hwy hwz
      · exact (h.2 t).2 ⟨w,hw,hwz⟩
    have hqueue : ∀ w ∈ served ++ ((s.locks.entry t).release y).waitQueue, w.xid ≠ z := by
      rw [← hr.queue]
      exact hnot
    refine ⟨?_,?_⟩
    · rw [hr.kept z fun w hw => hqueue w (List.mem_append_left _ hw)]
      by_cases hzy : z = y
      · subst hzy
        exact AList.lookup_erase z _
      · exact (AList.lookup_erase_ne hzy).trans ((h.resolve_left hzy).2 t).1
    · rintro ⟨w,hw,hwz⟩
      exact hqueue w (List.mem_append_right _ hw) hwz

theorem since_ended (h : Inv s) (hD : s.Deadlocked D) (l : List ℕ) (hl : ∀ z ∈ l, z ∉ D) :
    Since s (l.foldl Waits.ended s) D ∧ ∀ z ∈ l, (l.foldl Waits.ended s).Gone z := by
  induction l using List.reverseRecOn with
  | nil => exact ⟨h.since D,nofun⟩
  | append_singleton l z ih =>
    obtain ⟨hsince,hgone⟩ := ih fun y hy => hl y (List.mem_append_left _ hy)
    have hblocked := hD.2 _ hl
    rw [List.foldl_append,List.foldl_cons,List.foldl_nil] at hblocked ⊢
    refine ⟨hsince.ended h.single (hl z (by simp)) hblocked,fun y hy => gone_ended ?_⟩
    rcases List.mem_append.1 hy with hy | hy
    · exact .inr (hgone y hy)
    · exact .inl (List.mem_singleton.1 hy)

def lockUsers (s : Waits) : List ℕ :=
  s.locks.manager.entries.entries.flatMap fun g => g.2.granted.keys ++ g.2.waitQueue.map Waiter.xid

theorem mem_lockUsers {t x : ℕ}
    (h : x ∈ (s.locks.entry t).granted ∨ (s.locks.entry t).Queued x) : x ∈ s.lockUsers := by
  cases hl : s.locks.manager.entries.lookup t with
  | none =>
    rw [Sys.entry,LockManager.entry_of_none hl] at h
    rcases h with h | ⟨w,hw,-⟩
    · exact absurd h (AList.notMem_empty x)
    · cases hw
  | some e =>
    rw [Sys.entry,LockManager.entry_of_lookup hl] at h
    refine List.mem_flatMap.2 ⟨⟨t,e⟩,AList.mem_lookup_iff.1 hl,List.mem_append.2 ?_⟩
    refine h.imp AList.mem_keys.1 ?_
    rintro ⟨w,hw,rfl⟩
    exact List.mem_map_of_mem hw

/-- A member waits for a member: for its row, for its table lock, or for the head of its queue. -/
theorem exists_waits_for (h : Inv s) (hD : s.Deadlocked D) {x : ℕ}
    (hx : x ∈ D) : ∃ y ∈ D, s.Edge x y ∨ s.Ahead x y := by
  classical
  let others := (s.active ++ s.lockUsers).filter fun z => decide (z ∉ D)
  have hothers : ∀ z ∈ others, z ∉ D := fun z hz => of_decide_eq_true (List.mem_filter.1 hz).2
  obtain ⟨hsince,hgone⟩ := since_ended h hD others hothers
  have hblocked := hD.2 others hothers x hx
  generalize others.foldl Waits.ended s = u at hsince hgone hblocked
  have hmember : ∀ z, z ∈ s.active ++ s.lockUsers → ¬u.Gone z → z ∈ D := by
    intro z hz hng
    by_contra hzD
    exact hng (hgone z (List.mem_filter.2 ⟨hz,decide_eq_true hzD⟩))
  obtain ⟨b,hb,-,hact⟩ | ⟨t,w,hw,hwx,hc⟩ := hblocked
  · have hbD := hmember b (List.mem_append_left _ (hsince.active hact)) fun hg => hg.1 hact
    refine ⟨b,hbD,.inl (mem_waitForEdges.2 (.inl (h.registered x b ?_)))⟩
    rw [← hsince.waits x hx,hb]
  · have hno : ¬((u.locks.entry t).canGrant x w.mode = true) := by simp [hc]
    rw [LockEntry.canGrant_iff,not_or] at hno
    cases hq : (u.locks.entry t).waitQueue with
    | nil =>
      rw [hq] at hw
      cases hw
    | cons head rest =>
      by_cases hhead : head.xid = x
      · have hconflict : (u.locks.entry t).Conflict x w.mode := by
          by_contra hfree
          refine hno.2 ⟨fun w' rest' hq' => ?_,hfree⟩
          rw [hq,List.cons.injEq] at hq'
          exact hq'.1 ▸ hhead
        obtain ⟨y,held,hy,hne,hcon⟩ := hconflict
        have hyD : y ∈ D := by
          refine hmember y (List.mem_append_right _ (mem_lockUsers (hsince.holders t y held hy))) ?_
          intro hg
          rw [(hg.2 t).1] at hy
          cases hy
        refine ⟨y,hyD,.inl (mem_waitForEdges.2 (.inr ⟨t,w,?_,hwx,held,?_,hne,hcon⟩))⟩
        · exact (hsince.queue t).subset hw
        · rw [← hsince.granted t y hyD,hy]
      · have hmem : head ∈ (u.locks.entry t).waitQueue := hq ▸ List.mem_cons_self
        have hyD : head.xid ∈ D := by
          refine hmember _ (List.mem_append_right _ (mem_lockUsers (t := t) ?_)) fun hg => ?_
          · exact .inr ⟨head,(hsince.queue t).subset hmem,rfl⟩
          · exact (hg.2 t).2 ⟨head,hmem,rfl⟩
        refine ⟨head.xid,hyD,.inr ⟨t,w,head,?_,hwx,rfl⟩⟩
        have hrest : w ∈ rest := by
          rw [hq] at hw
          rcases List.mem_cons.1 hw with rfl | hw
          · exact absurd hwx hhead
          · exact hw
        refine List.Sublist.trans ?_ (hq ▸ hsince.queue t)
        exact (List.singleton_sublist.2 hrest).cons_cons head

theorem finite_of_deadlocked (h : Inv s) (hD : s.Deadlocked D) : D.Finite := by
  refine (List.finite_toSet (s.rowWaitRegistry.keys ++ s.lockUsers)).subset fun x hx => ?_
  obtain ⟨b,hb,-⟩ | ⟨t,w,hw,hwx,-⟩ := hD.2 [] (by simp) x hx
  · refine List.mem_append_left _ (AList.mem_keys.1 (AList.lookup_isSome.1 ?_))
    rw [h.registered x b hb]
    rfl
  · exact List.mem_append_right _ (mem_lockUsers (t := t) (.inr ⟨w,hw,hwx⟩))

def Conflicting (s : Waits) (D : Set ℕ) : Prop :=
  ∀ x ∈ D, ∀ t, ∀ w ∈ (s.locks.entry t).waitQueue, w.xid = x →
    ∃ y ∈ D, y ≠ x ∧ ∃ held, (s.locks.entry t).granted.lookup y = some held ∧
      held.conflictsWith w.mode = true

/-- A deadlock has a cycle of waits and queue positions, and one of waits alone if every queued
member conflicts with a member. -/
theorem deadlock_has_cycle {s : Waits} (h : Reach Waits.step Start anyStep s) {D : Set ℕ}
    (hD : s.Deadlocked D) : HasCycle D (fun x y => s.Edge x y ∨ s.Ahead x y) ∧
      (s.Conflicting D → HasCycle D s.Edge) := by
  have hinv := Inv.reach h
  have hfin := finite_of_deadlocked hinv hD
  refine ⟨hasCycle_of_successors hfin hD.1 fun x hx => exists_waits_for hinv hD hx,fun hcon => ?_⟩
  refine hasCycle_of_successors hfin hD.1 fun x hx => ?_
  by_cases hqueued : ∃ t, (s.locks.entry t).Queued x
  · obtain ⟨t,w,hw,hwx⟩ := hqueued
    obtain ⟨y,hy,hne,held,hheld,hc⟩ := hcon x hx t w hw hwx
    exact ⟨y,hy,mem_waitForEdges.2 (.inr ⟨t,w,hw,hwx,held,hheld,hne,hc⟩)⟩
  · obtain ⟨y,hy,he | ⟨t,w,w',hsub,hwx,-⟩⟩ := exists_waits_for hinv hD hx
    · exact ⟨y,hy,he⟩
    · exact absurd ⟨t,w,hsub.subset (by simp),hwx⟩ hqueued

section Alone

theorem release_of_absent {e : LockEntry} {z : ℕ} (hg : z ∉ e.granted) (hq : ¬e.Queued z)
    (hw : e.HeadWaits) : e.release z = e := by
  have hgranted : e.granted.erase z = e.granted := AList.ext (List.kerase_of_notMem_keys hg)
  have hqueue : e.waitQueue.filter (fun w => decide (w.xid ≠ z)) = e.waitQueue :=
    List.filter_eq_self.2 fun w hw => decide_eq_true fun hwz => hq ⟨w,hw,hwz⟩
  rw [LockEntry.release,hgranted,hqueue]
  change LockEntry.regrantFrom e.granted e.waitQueue = e
  obtain ⟨g,q⟩ := e
  cases q with
  | nil => rfl
  | cons w rest =>
    have hc := LockEntry.headWaits_iff.1 hw w rest rfl
    simp only [LockEntry.regrantFrom,hc,Bool.false_eq_true,if_false]

/-- If only members use table locks and each has a queued request, they are deadlocked. -/
theorem deadlocked_of_alone {s : Waits} (h : Inv s) {D : Set ℕ} (hne : D.Nonempty)
    (halone : ∀ x ∈ s.lockUsers, x ∈ D)
    (hblocked : ∀ x ∈ D, ∃ t, ∃ w ∈ (s.locks.entry t).waitQueue, w.xid = x ∧
      (s.locks.entry t).canGrant x w.mode = false) : s.Deadlocked D := by
  refine ⟨hne,fun l hl x hx => .inr ?_⟩
  have hentry : ∀ t, (l.foldl Waits.ended s).locks.entry t = s.locks.entry t := by
    intro t
    induction l using List.reverseRecOn with
    | nil => rfl
    | append_singleton l z ih =>
      rw [List.foldl_append,List.foldl_cons,List.foldl_nil,entry_ended,
        ih fun y hy => hl y (List.mem_append_left _ hy)]
      have hz : z ∉ s.lockUsers := fun hz => hl z (by simp) (halone z hz)
      exact release_of_absent (fun hg => hz (mem_lockUsers (.inl hg)))
        (fun hq => hz (mem_lockUsers (.inr hq))) (h.locks.table t).headWaits
  simp only [hentry]
  exact hblocked x hx

def Stuck (s : Waits) (t : ℕ) (members : List ℕ) : Prop :=
  (∀ x ∈ s.lockUsers, x ∈ members) ∧
    ∀ x ∈ members, ∃ w ∈ (s.locks.entry t).waitQueue, w.xid = x ∧
      (s.locks.entry t).canGrant x w.mode = false

instance (s : Waits) (t : ℕ) (members : List ℕ) : Decidable (s.Stuck t members) :=
  inferInstanceAs (Decidable (_ ∧ _))

theorem Stuck.deadlocked {s : Waits} {t : ℕ} {members : List ℕ} (hs : s.Stuck t members)
    (h : Inv s) (hne : members ≠ []) : s.Deadlocked {x | x ∈ members} :=
  deadlocked_of_alone h (List.exists_mem_of_ne_nil _ hne) hs.1 fun x hx => ⟨t,hs.2 x hx⟩

end Alone

/-- Two readers of a table ask for stronger modes. -/
def upgrades (first second : LockMode) : List Step :=
  [.beginTxn,.beginTxn,.lock (.acquire 1 7 .accessShare),.lock (.acquire 2 7 .accessShare),
    .lock (.acquire 1 7 first),.lock (.acquire 2 7 second)]

/-- The second request waits behind the first, which waits for it; the detector sees one edge. -/
theorem deadlock_without_cycle : ∃ s : Waits, ∃ D : Set ℕ, Reach Waits.step Start anyStep s ∧
    s.Deadlocked D ∧ ¬HasCycle D s.Edge := by
  have hrun : ∃ s : Waits, Reach Waits.step Start anyStep s ∧
      decide (s.Stuck 7 [1,2] ∧ s.waitForEdges = [(1,2)]) = true :=
    @exists_reach _ _ Waits.step Start anyStep _ Waits.new rfl
      (upgrades .accessExclusive .rowExclusive) _ (by decide +kernel)
  obtain ⟨s,hs,hp⟩ := hrun
  obtain ⟨hstuck,hedges⟩ := of_decide_eq_true hp
  refine ⟨s,_,hs,hstuck.deadlocked (Inv.reach hs) (by simp),not_hasCycle_of_lt fun a b hab => ?_⟩
  rw [Edge,hedges,List.mem_singleton,Prod.mk.injEq] at hab
  omega

theorem deadlock_has_cycle_upgrades : ∃ s : Waits, ∃ D : Set ℕ,
    Reach Waits.step Start anyStep s ∧ s.Deadlocked D ∧ s.Conflicting D ∧ HasCycle D s.Edge := by
  have hrun : ∃ s : Waits, Reach Waits.step Start anyStep s ∧
      decide (s.Stuck 7 [1,2] ∧ ∀ g ∈ s.locks.manager.entries.entries,
        g.2.waitQueue.all fun w => [1,2].any fun y => decide (y ≠ w.xid) &&
          (g.2.granted.lookup y).any fun held => held.conflictsWith w.mode) = true :=
    @exists_reach _ _ Waits.step Start anyStep _ Waits.new rfl
      (upgrades .accessExclusive .accessExclusive) _ (by decide +kernel)
  obtain ⟨s,hs,hp⟩ := hrun
  obtain ⟨hstuck,hall⟩ := of_decide_eq_true hp
  have hdead := hstuck.deadlocked (Inv.reach hs) (by simp)
  have hcon : s.Conflicting {x | x ∈ [1,2]} := by
    rintro x - t w hw rfl
    cases hl : s.locks.manager.entries.lookup t with
    | none =>
      rw [Sys.entry,LockManager.entry_of_none hl] at hw
      cases hw
    | some e =>
      rw [Sys.entry,LockManager.entry_of_lookup hl] at hw ⊢
      have hw' := List.all_eq_true.1 (hall _ (AList.mem_lookup_iff.1 hl)) w hw
      obtain ⟨y,hy,hc⟩ := List.any_eq_true.1 hw'
      rw [Bool.and_eq_true,decide_eq_true_eq,Option.any_eq_true] at hc
      obtain ⟨hne,held,hheld,hc⟩ := hc
      exact ⟨y,hy,hne,held,hheld,hc⟩
  exact ⟨s,_,hs,hdead,hcon,(deadlock_has_cycle hs hdead).2 hcon⟩

end Waits
end Lock
end PgAm
