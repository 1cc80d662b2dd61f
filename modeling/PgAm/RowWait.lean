import PgAm.HeapTuple
import PgAm.Threads

/-! Row waits at the granularity of the mutex sections of the transaction manager. A waiter has its
edge registered under the page latch; `wait_for` then looks at the victim flags and at the active
set while it holds the mutex of the registry, and goes to sleep on the condition variable of that
mutex. Whoever ends a transaction or marks a victim broadcasts under the same mutex afterwards. -/
namespace PgAm
namespace RowWait

open Machine Heap Function

/-- Each names the section executed next; `broadcast` is a `notify_all` that is due. -/
inductive Pc
  | idle
  | registered (self blocking : ℕ)
  | victimCheck (self blocking : ℕ)
  | activeCheck (self blocking : ℕ)
  | leaving (self : ℕ) (victim : Bool)
  | parking (self blocking : ℕ)
  | asleep (self blocking : ℕ)
  | woken (self blocking : ℕ)
  | failed (self : ℕ)
  | ending (xid : ℕ)
  | broadcast
  deriving DecidableEq

namespace Pc

def holdsRegistry : Pc → Bool
  | .victimCheck .. | .activeCheck .. | .leaving .. | .parking .. => true
  | _ => false

/-- The thread is inside `wait_for`, or between `register_row_wait` and `wait_for`. -/
def waitsAs : Pc → Option ℕ
  | .registered self _ | .victimCheck self _ | .activeCheck self _ | .leaving self _
  | .parking self _ | .asleep self _ | .woken self _ => some self
  | _ => none

def sawUnmarked : Pc → Option ℕ
  | .activeCheck self _ | .parking self _ | .asleep self _ => some self
  | _ => none

def sawActive : Pc → Option ℕ
  | .parking _ blocking | .asleep _ blocking => some blocking
  | _ => none

def wake : Pc → Pc
  | .asleep self blocking => .woken self blocking
  | pc => pc

end Pc

structure Sys (n : ℕ) where
  txnIdClock : ℕ
  active : List ℕ
  deadlockVictims : List ℕ
  rowWaitRegistry : ℕ → Option ℕ
  threads : Fin n → Pc

/-- `gate` is a pass through the row-lock gate, `mark` a mark of the detector, `clear` drops a flag.
A sleeper may wake up without a broadcast. -/
inductive Step (n : ℕ)
  | beginTxn
  | gate (t : Fin n) (live : ℕ → Bool) (getState : ℕ → TxnState) (tid : Tid)
      (header : Option TupleHeader) (holders : List ℕ) (self : ℕ) (request : LockRequest)
  | run (t : Fin n)
  | wakeUp (t : Fin n)
  | endTxn (t : Fin n) (xid : ℕ)
  | mark (t : Fin n) (xid : ℕ)
  | clear (xid : ℕ)

variable {n : ℕ}

def Sys.registryFree (s : Sys n) : Bool := decide (∀ u, (s.threads u).holdsRegistry = false)

def Sys.goto (s : Sys n) (t : Fin n) (pc : Pc) : Sys n :=
  { s with threads := update s.threads t pc }

def Sys.unregister (s : Sys n) (self : ℕ) : Sys n :=
  { s with rowWaitRegistry := update s.rowWaitRegistry self none }

def advance (s : Sys n) (t : Fin n) : Option (Sys n) :=
  match s.threads t with
  | .registered self blocking =>
    if self = blocking then some (s.goto t (.failed self))
    else if s.registryFree then some (s.goto t (.victimCheck self blocking))
    else none
  | .victimCheck self blocking =>
    if self ∈ s.deadlockVictims then
      some ({ s with deadlockVictims := s.deadlockVictims.filter (· ≠ self) }.goto t
        (.leaving self true))
    else some (s.goto t (.activeCheck self blocking))
  | .activeCheck self blocking =>
    if blocking ∉ s.active then some (s.goto t (.leaving self false))
    else some (s.goto t (.parking self blocking))
  | .leaving self victim =>
    some ((s.unregister self).goto t (if victim then .failed self else .idle))
  | .parking self blocking => some (s.goto t (.asleep self blocking))
  | .woken self blocking =>
    if s.registryFree then some (s.goto t (.victimCheck self blocking)) else none
  | .failed self => if s.registryFree then some ((s.unregister self).goto t .idle) else none
  | .ending xid =>
    some ({ s with active := s.active.filter (· ≠ xid) }.goto t .broadcast)
  | .broadcast =>
    if s.registryFree then
      some ({ s with threads := fun u => (s.threads u).wake }.goto t .idle)
    else none
  | .idle | .asleep .. => none

def step (s : Sys n) : Step n → Option (Sys n)
  | .beginTxn => some { s with
      active := s.txnIdClock :: s.active, txnIdClock := s.txnIdClock + 1 }
  | .gate t live getState tid header holders self request =>
    if s.threads t = .idle then
      match (rowLockGate live getState tid header holders self request).1 with
      | .ok (.wait blocking) =>
        if s.registryFree then
          some ({ s with
            rowWaitRegistry := update s.rowWaitRegistry self (some blocking) }.goto t
              (.registered self blocking))
        else none
      | _ => some s
    else none
  | .run t => advance s t
  | .wakeUp t => some { s with threads := update s.threads t (s.threads t).wake }
  | .endTxn t xid =>
    if s.threads t = .idle then
      some ({ s with deadlockVictims := s.deadlockVictims.filter (· ≠ xid) }.goto t (.ending xid))
    else none
  | .mark t xid =>
    if s.threads t = .idle then
      some ({ s with deadlockVictims := xid :: s.deadlockVictims }.goto t .broadcast)
    else none
  | .clear xid => some { s with deadlockVictims := s.deadlockVictims.filter (· ≠ xid) }

def Start (s : Sys n) : Prop :=
  (∀ t, s.threads t = .idle) ∧ ∀ self, s.rowWaitRegistry self = none

/-- Some thread still has to execute `notify_all`. -/
def Sys.Notifying (s : Sys n) : Prop := ∃ u, s.threads u = .broadcast

structure Inv (s : Sys n) : Prop where
  distinct : ∀ t self blocking, s.threads t = .registered self blocking → self ≠ blocking
  blocker : ∀ t blocking, (s.threads t).sawActive = some blocking → blocking ∉ s.active →
    s.Notifying
  victim : ∀ t self, (s.threads t).sawUnmarked = some self → self ∈ s.deadlockVictims → s.Notifying
  edge : ∀ self blocking, s.rowWaitRegistry self = some blocking →
    ∃ t, (s.threads t).waitsAs = some self

theorem rowLockGate_wait_ne {live : ℕ → Bool} {getState : ℕ → TxnState} {tid : Tid}
    {header : Option TupleHeader} {holders : List ℕ} {self blocking : ℕ} {request : LockRequest}
    (h : (rowLockGate live getState tid header holders self request).1 = .ok (.wait blocking)) :
    self ≠ blocking := by
  have hholder : ∀ {l : List ℕ}, (holderGate l self request).1 = .wait blocking →
      self ≠ blocking := by
    intro l hl
    cases request with
    | shared => cases hl
    | writer | exclusive =>
      simp only [holderGate] at hl
      split at hl
      · rename_i b hb
        cases hl
        have hne := List.find?_some hb
        exact (of_decide_eq_true hne).symm
      · cases hl
  cases header with
  | none => cases h
  | some hd =>
    simp only [rowLockGate] at h
    split at h
    · cases h
    split at h
    · rename_i hself
      split at h
      · split at h <;> cases h
      split at h
      · split at h
        · cases h
        · exact hholder (Except.ok.inj h)
      · split at h <;> cases h
    rename_i hself
    split at h
    · have h' := Except.ok.inj h
      unfold shareStampGate at h'
      split at h'
      · exact hholder h'
      · rename_i hmem
        generalize liveShareHolders live holders hd.tXmax = l at h' hmem
        cases l with
        | nil => cases request <;> cases h'
        | cons b l =>
          cases request with
          | shared => cases h'
          | writer | exclusive =>
            cases h'
            exact fun e => hmem (e ▸ List.mem_cons_self)
    · split at h
      · cases h
        exact fun e => hself e.symm
      · split at h <;> cases h

section Moves

variable {s : Sys n} {t : Fin n} {pc : Pc}

theorem Sys.Notifying.goto (h : s.Notifying) (ht : s.threads t ≠ .broadcast) :
    ∃ u, update s.threads t pc u = .broadcast := by
  obtain ⟨u,hu⟩ := h
  have hut : u ≠ t := by
    rintro rfl
    exact ht hu
  exact ⟨u,by rw [update_of_ne hut,hu]⟩

/-- A section that is no broadcast ends a transaction or marks a victim only if one comes next. -/
theorem Inv.goto (hi : Inv s) {active victims : List ℕ} {registry : ℕ → Option ℕ}
    {txnIdClock : ℕ} {pc₀ : Pc} (ht : s.threads t = pc₀) (hne : pc₀ ≠ .broadcast)
    (hdistinct : ∀ self blocking, pc = .registered self blocking → self ≠ blocking)
    (hactive : ∀ b, b ∈ s.active → b ∈ active ∨ pc = .broadcast)
    (hvictims : ∀ x, x ∈ victims → x ∈ s.deadlockVictims ∨ pc = .broadcast)
    (hblocker : ∀ b, pc.sawActive = some b → b ∈ active ∨ pc₀.sawActive = some b)
    (hvictim : ∀ x, pc.sawUnmarked = some x → x ∉ victims ∨ pc₀.sawUnmarked = some x)
    (hregistry : ∀ x b, registry x = some b → pc.waitsAs = some x ∨ s.rowWaitRegistry x = some b)
    (hleave : ∀ x, pc₀.waitsAs = some x → pc.waitsAs = some x ∨ registry x = none) :
    Inv (⟨txnIdClock,active,victims,registry,update s.threads t pc⟩ : Sys n) := by
  have hself : pc = .broadcast → ∃ u, update s.threads t pc u = .broadcast := fun h =>
    ⟨t,by rw [update_self,h]⟩
  have hold : s.Notifying → ∃ u, update s.threads t pc u = .broadcast := fun h =>
    h.goto (ht ▸ hne)
  have hgone : ∀ u b, (s.threads u).sawActive = some b → b ∉ active →
      ∃ u, update s.threads t pc u = .broadcast := fun u b hu hb => by
    by_cases hs : b ∈ s.active
    · exact hself ((hactive b hs).resolve_left hb)
    · exact hold (hi.blocker u b hu hs)
  have hmarked : ∀ u x, (s.threads u).sawUnmarked = some x → x ∈ victims →
      ∃ u, update s.threads t pc u = .broadcast := fun u x hu hx => by
    rcases hvictims x hx with hs | hb
    · exact hold (hi.victim u x hu hs)
    · exact hself hb
  refine ⟨?_,?_,?_,fun x b hx => ?_⟩
  · refine Threads.forall_update (P := fun q : Pc => ∀ x b, q = .registered x b → x ≠ b)
      hdistinct ?_
    exact fun u _ => hi.distinct u
  · refine Threads.forall_update (P := fun q : Pc => ∀ b, q.sawActive = some b → b ∉ active →
      ∃ u, update s.threads t pc u = .broadcast) (fun b hb hno => ?_) fun u _ => hgone u
    exact hgone t b (ht ▸ (hblocker b hb).resolve_left hno) hno
  · refine Threads.forall_update (P := fun q : Pc => ∀ x, q.sawUnmarked = some x → x ∈ victims →
      ∃ u, update s.threads t pc u = .broadcast) (fun x hx hv => ?_) fun u _ => hmarked u
    exact hmarked t x (ht ▸ (hvictim x hx).resolve_left (not_not.2 hv)) hv
  · rcases hregistry x b hx with hpc | hedge
    · exact ⟨t,by simpa using hpc⟩
    · obtain ⟨u,hu⟩ := hi.edge x b hedge
      by_cases hut : u = t
      · subst hut
        rw [ht] at hu
        have hnone : registry x ≠ none := by
          change registry x = some b at hx
          rw [hx]
          nofun
        exact ⟨u,by simpa using (hleave x hu).resolve_right hnone⟩
      · exact ⟨u,by simpa [hut] using hu⟩

theorem unregister_eq {x self b : ℕ} (h : (s.unregister self).rowWaitRegistry x = some b) :
    s.rowWaitRegistry x = some b := by
  change update s.rowWaitRegistry self none x = some b at h
  obtain ⟨-,⟨⟩⟩ | ⟨-,h⟩ := of_update_eq h
  exact h

/-- After a broadcast nobody sleeps, and nobody was between its tests and its sleep. -/
theorem Inv.broadcast (hi : Inv s) (ht : s.threads t = .broadcast) (hfree : s.registryFree = true) :
    Inv ({ s with threads := fun u => (s.threads u).wake }.goto t .idle) := by
  have hpc : ∀ u, (s.threads u).wake.sawActive = none ∧ (s.threads u).wake.sawUnmarked = none ∧
      (s.threads u).wake.waitsAs = (s.threads u).waitsAs ∧
      ∀ x b, (s.threads u).wake = .registered x b → s.threads u = .registered x b := by
    intro u
    have hu := of_decide_eq_true hfree u
    cases hpc : s.threads u <;> rw [hpc] at hu <;> cases hu
    all_goals exact ⟨rfl,rfl,rfl,fun _ _ h => by first | exact h | cases h⟩
  have hsaw : ∀ u, (update (fun u => (s.threads u).wake) t .idle u).sawActive = none ∧
      (update (fun u => (s.threads u).wake) t .idle u).sawUnmarked = none := by
    refine Threads.forall_update (P := fun q : Pc => q.sawActive = none ∧ q.sawUnmarked = none)
      ⟨rfl,rfl⟩ ?_
    exact fun u _ => ⟨(hpc u).1,(hpc u).2.1⟩
  refine ⟨?_,fun u b hu => ?_,fun u x hu => ?_,fun x b hx => ?_⟩
  · refine Threads.forall_update (P := fun q : Pc => ∀ x b, q = .registered x b → x ≠ b) nofun ?_
    exact fun u _ x b hu => hi.distinct u x b ((hpc u).2.2.2 x b hu)
  · cases hu.symm.trans (hsaw u).1
  · cases hu.symm.trans (hsaw u).2
  · obtain ⟨u,hu⟩ := hi.edge x b hx
    have hut : u ≠ t := by
      rintro rfl
      rw [ht] at hu
      cases hu
    refine ⟨u,?_⟩
    simpa [Sys.goto,hut,(hpc u).2.2.1] using hu

theorem Inv.wakeUp (hi : Inv s) (t : Fin n) :
    Inv { s with threads := update s.threads t (s.threads t).wake } := by
  cases hpc : s.threads t with
  | asleep self blocking =>
    exact hi.goto hpc nofun nofun (fun _ h => .inl h) (fun _ h => .inl h) nofun nofun
      (fun _ _ h => .inr h) fun _ h => .inl h
  | _ =>
    have heq : update s.threads t (s.threads t).wake = s.threads := by
      rw [hpc]
      exact update_eq_self_iff.2 hpc.symm
    rw [← hpc,heq]
    exact hi

theorem Inv.advance (hi : Inv s) {s' : Sys n} (h : advance s t = some s') : Inv s' := by
  unfold RowWait.advance at h
  split at h
  case h_1 self blocking hpc =>
    split at h
    · exact absurd ‹self = blocking› (hi.distinct t _ _ hpc)
    split at h
    · obtain rfl := Option.some.inj h
      exact hi.goto hpc nofun nofun (fun _ h => .inl h) (fun _ h => .inl h) nofun nofun
        (fun _ _ h => .inr h) fun _ h => .inl h
    · cases h
  case h_2 self blocking hpc =>
    split at h
    · obtain rfl := Option.some.inj h
      exact hi.goto hpc nofun nofun (fun _ h => .inl h)
        (fun _ h => .inl (List.mem_of_mem_filter h)) nofun nofun (fun _ _ h => .inr h)
        fun _ h => .inl h
    · rename_i hun
      obtain rfl := Option.some.inj h
      refine hi.goto hpc nofun nofun (fun _ h => .inl h) (fun _ h => .inl h) nofun
        (fun x hx => .inl ?_) (fun _ _ h => .inr h) fun _ h => .inl h
      cases hx
      exact hun
  case h_3 self blocking hpc =>
    split at h
    · obtain rfl := Option.some.inj h
      exact hi.goto hpc nofun nofun (fun _ h => .inl h) (fun _ h => .inl h) nofun nofun
        (fun _ _ h => .inr h) fun _ h => .inl h
    · rename_i hact
      obtain rfl := Option.some.inj h
      refine hi.goto hpc nofun nofun (fun _ h => .inl h) (fun _ h => .inl h) (fun b hb => .inl ?_)
        (fun _ h => .inr h) (fun _ _ h => .inr h) fun _ h => .inl h
      cases hb
      exact not_not.1 hact
  case h_4 self victim hpc =>
    obtain rfl := Option.some.inj h
    refine hi.goto hpc nofun (by cases victim <;> nofun) (fun _ h => .inl h) (fun _ h => .inl h)
      (by cases victim <;> nofun) (by cases victim <;> nofun) (fun _ _ h => .inr (unregister_eq h))
      fun x hx => .inr ?_
    cases hx
    exact update_self ..
  case h_5 self blocking hpc =>
    obtain rfl := Option.some.inj h
    exact hi.goto hpc nofun nofun (fun _ h => .inl h) (fun _ h => .inl h) (fun _ h => .inr h)
      (fun _ h => .inr h) (fun _ _ h => .inr h) fun _ h => .inl h
  case h_6 self blocking hpc =>
    split at h
    · obtain rfl := Option.some.inj h
      exact hi.goto hpc nofun nofun (fun _ h => .inl h) (fun _ h => .inl h) nofun nofun
        (fun _ _ h => .inr h) fun _ h => .inl h
    · cases h
  case h_7 self hpc =>
    split at h
    · obtain rfl := Option.some.inj h
      exact hi.goto hpc nofun nofun (fun _ h => .inl h) (fun _ h => .inl h) nofun nofun
        (fun _ _ h => .inr (unregister_eq h)) nofun
    · cases h
  case h_8 xid hpc =>
    obtain rfl := Option.some.inj h
    exact hi.goto hpc nofun nofun (fun _ _ => .inr rfl) (fun _ h => .inl h) nofun nofun
      (fun _ _ h => .inr h) nofun
  case h_9 hpc =>
    split at h
    · obtain rfl := Option.some.inj h
      exact hi.broadcast hpc ‹_›
    · cases h
  all_goals cases h

end Moves

theorem Start.inv {s : Sys n} (h : Start s) : Inv s where
  distinct t _ _ ht := by
    rw [h.1 t] at ht
    cases ht
  blocker t _ ht := by
    rw [h.1 t] at ht
    cases ht
  victim t _ ht := by
    rw [h.1 t] at ht
    cases ht
  edge self _ hx := by
    rw [h.2 self] at hx
    cases hx

theorem Inv.shared {s : Sys n} (hi : Inv s) {active victims : List ℕ} {txnIdClock : ℕ}
    (hactive : ∀ b ∈ s.active, b ∈ active) (hvictims : ∀ x ∈ victims, x ∈ s.deadlockVictims) :
    Inv { s with txnIdClock := txnIdClock, active := active, deadlockVictims := victims } :=
  ⟨hi.distinct,fun t b hb hno => hi.blocker t b hb fun h => hno (hactive b h),
    fun t x hx hv => hi.victim t x hx (hvictims x hv),hi.edge⟩

theorem Inv.step {s s' : Sys n} {a : Step n} (hi : Inv s) (h : step s a = some s') : Inv s' := by
  cases a with
  | beginTxn =>
    obtain rfl := Option.some.inj h
    exact hi.shared (fun _ hb => List.mem_cons_of_mem _ hb) fun _ hx => hx
  | gate t live getState tid header holders self request =>
    simp only [RowWait.step] at h
    split at h
    · rename_i hidle
      split at h
      · rename_i blocking hwait
        split at h
        · obtain rfl := Option.some.inj h
          refine hi.goto hidle nofun (fun x b hx => ?_) (fun _ h => .inl h) (fun _ h => .inl h)
            nofun nofun (fun x b hx => ?_) nofun
          · cases hx
            exact rowLockGate_wait_ne hwait
          · by_cases hs : x = self
            · exact .inl (congrArg some hs.symm)
            · exact .inr ((update_of_ne hs ..).symm.trans hx)
        · cases h
      · obtain rfl := Option.some.inj h
        exact hi
    · cases h
  | run t => exact hi.advance h
  | wakeUp t =>
    obtain rfl := Option.some.inj h
    exact hi.wakeUp t
  | endTxn t xid =>
    simp only [RowWait.step] at h
    split at h
    · rename_i hidle
      obtain rfl := Option.some.inj h
      exact hi.goto hidle nofun nofun (fun _ h => .inl h)
        (fun _ h => .inl (List.mem_of_mem_filter h)) nofun nofun (fun _ _ h => .inr h) nofun
    · cases h
  | mark t xid =>
    simp only [RowWait.step] at h
    split at h
    · rename_i hidle
      obtain rfl := Option.some.inj h
      exact hi.goto hidle nofun nofun (fun _ h => .inl h) (fun _ _ => .inr rfl) nofun nofun
        (fun _ _ h => .inr h) nofun
    · cases h
  | clear xid =>
    obtain rfl := Option.some.inj h
    exact hi.shared (fun _ hb => hb) fun _ hx => List.mem_of_mem_filter hx

/-- A thread sleeps although its blocker has left the active set or itself is marked only while some
thread is about to broadcast, and an edge belongs to a thread that waits. -/
theorem no_missed_wakeup {n : ℕ} {s : Sys n} (h : Reach step Start anyStep s) :
    (∀ t self blocking, s.threads t = .asleep self blocking →
      (blocking ∉ s.active ∨ self ∈ s.deadlockVictims) → s.Notifying) ∧
    ∀ self, (∀ t, (s.threads t).waitsAs ≠ some self) → s.rowWaitRegistry self = none := by
  have hi : Inv s := h.invariant (fun _ hs => hs.inv) fun _ _ _ hi _ hstep => hi.step hstep
  refine ⟨fun t self blocking ht hwhy => ?_,fun self hno => ?_⟩
  · rcases hwhy with hgone | hmarked
    · exact hi.blocker t blocking (by rw [ht]; rfl) hgone
    · exact hi.victim t self (by rw [ht]; rfl) hmarked
  · by_contra hne
    obtain ⟨b,hb⟩ := Option.ne_none_iff_exists'.1 hne
    obtain ⟨t,ht⟩ := hi.edge self b hb
    exact hno t ht

/-- Transaction 2 runs into the stamp of 1, which ends while 2 sleeps; the broadcast is due. -/
def sleepSchedule : List (Step 2) :=
  [.beginTxn,.beginTxn,
    .gate 0 (fun _ => true) (fun _ => .inProgress) ⟨0,0⟩
      (some ((TupleHeader.new 1 0 false).stampDeleted 1 0 false)) [] 2 .writer,
    .run 0,.run 0,.run 0,.run 0,.endTxn 1 1,.run 1]

theorem sleeper_has_broadcast_due : ∃ s : Sys 2, Reach step Start anyStep s ∧
    s.threads 0 = .asleep 2 1 ∧ 1 ∉ s.active ∧ s.Notifying ∧ s.rowWaitRegistry 1 = none := by
  have hrun : ∃ s : Sys 2, Reach step Start anyStep s ∧ decide (s.threads 0 = .asleep 2 1 ∧
      1 ∉ s.active ∧ ∀ t, (s.threads t).waitsAs ≠ some 1) = true :=
    @exists_reach _ _ step Start anyStep _ ⟨1,[],[],fun _ => none,fun _ => .idle⟩
      ⟨fun _ => rfl,fun _ => rfl⟩ sleepSchedule _ (by decide +kernel)
  obtain ⟨s,hs,hd⟩ := hrun
  obtain ⟨hsleep,hgone,hno⟩ := of_decide_eq_true hd
  exact ⟨s,hs,hsleep,hgone,(no_missed_wakeup hs).1 0 2 1 hsleep (.inl hgone),
    (no_missed_wakeup hs).2 1 hno⟩

end RowWait
end PgAm
