import PgAm.LockEntry
import PgAm.Machine

/-! The table lock manager. Each critical section of the entries mutex is one step: a round of
the loop in `acquire`, which ends by waiting on the condition variable if the request is not
granted, a `try_acquire`, a `release_all`, and the marks that the deadlock detector sets. -/
namespace PgAm
namespace Lock

open Machine Function

/-- Update every value of a map, and drop the keys on which the update is undefined. -/
def retain {β : Type*} (f : β → Option β) (s : AList fun _ : ℕ => β) : AList fun _ : ℕ => β where
  entries := s.entries.filterMap fun g => (f g.2).map (Sigma.mk g.1)
  nodupKeys := by
    rw [List.nodupKeys_iff_pairwise,List.pairwise_filterMap]
    refine (List.nodupKeys_iff_pairwise.1 s.nodupKeys).imp ?_
    intro g g' hne h hh h' hh'
    obtain ⟨_,_,rfl⟩ := Option.map_eq_some_iff.1 hh
    obtain ⟨_,_,rfl⟩ := Option.map_eq_some_iff.1 hh'
    exact hne

theorem lookup_retain {β : Type*} (f : β → Option β) (s : AList fun _ : ℕ => β) (a : ℕ) :
    (retain f s).lookup a = (s.lookup a).bind f := by
  ext b
  rw [← Option.mem_def,AList.mem_lookup_iff,Option.bind_eq_some_iff]
  simp only [retain,List.mem_filterMap,Option.map_eq_some_iff]
  constructor
  · rintro ⟨⟨a',v⟩,hv,b',hb',he⟩
    cases he
    exact ⟨v,AList.mem_lookup_iff.2 hv,hb'⟩
  · rintro ⟨v,hv,hb⟩
    exact ⟨⟨a,v⟩,AList.mem_lookup_iff.1 hv,b,hb,rfl⟩

structure LockManager where
  entries : AList fun _ : ℕ => LockEntry
  deadlockVictims : List ℕ

inductive Round
  | granted | deadlockVictim | waits
  deriving DecidableEq, Repr

namespace LockManager

def new : LockManager := ⟨∅,[]⟩

def entry (s : LockManager) (table : ℕ) : LockEntry := (s.entries.lookup table).getD default

/-- One round of the loop in `acquire`. -/
def acquireRound (s : LockManager) (xid table : ℕ) (mode : LockMode) : Round × LockManager :=
  if xid ∈ s.deadlockVictims then
    let s := { s with deadlockVictims := s.deadlockVictims.filter fun v => decide (v ≠ xid) }
    match s.entries.lookup table with
    | none => (.deadlockVictim,s)
    | some entry =>
      let entry := entry.withdraw xid
      (.deadlockVictim,{ s with entries :=
        if entry.isEmpty then s.entries.erase table else s.entries.insert table entry })
  else if (s.entry table).canGrant xid mode then
    (.granted,{ s with entries := s.entries.insert table ((s.entry table).grant xid mode) })
  else
    (.waits,{ s with entries := s.entries.insert table ((s.entry table).enqueueIfAbsent xid mode) })

def tryAcquire (s : LockManager) (xid table : ℕ) (mode : LockMode) : Bool × LockManager :=
  if (s.entries.lookup table).all fun e => e.canGrant xid mode then
    (true,{ s with entries := s.entries.insert table ((s.entry table).grant xid mode) })
  else (false,s)

def releaseAll (s : LockManager) (xid : ℕ) : LockManager :=
  { s with entries := retain (fun e =>
      let e := e.release xid
      if e.isEmpty then none else some e) s.entries }

def mark (s : LockManager) (xid : ℕ) : LockManager :=
  { s with deadlockVictims := xid :: s.deadlockVictims }

def clear (s : LockManager) (xid : ℕ) : LockManager :=
  { s with deadlockVictims := s.deadlockVictims.filter fun v => decide (v ≠ xid) }

/-- No table is mapped to an entry without holders and waiters. -/
def Pruned (s : LockManager) : Prop := ∀ t e, s.entries.lookup t = some e → e.isEmpty = false

end LockManager

namespace LockEntry

variable {e : LockEntry}

theorem isEmpty_iff : e.isEmpty = true ↔ e.granted = ∅ ∧ e.waitQueue = [] := by
  simp only [isEmpty,Bool.and_eq_true,List.isEmpty_iff]
  exact and_congr_left fun _ => ⟨fun h => AList.ext (h.trans AList.empty_entries.symm),
    fun h => h ▸ rfl⟩

theorem eq_default (h : e.isEmpty = true) : e = default := by
  obtain ⟨g,q⟩ := e
  obtain ⟨rfl,rfl⟩ := isEmpty_iff.1 h
  rfl

variable {m : LockMode}

theorem isEmpty_of_holds {x : ℕ} (h : e.holds x m = true) : e.isEmpty = false := by
  by_contra he
  rw [Bool.not_eq_false] at he
  rw [eq_default he] at h
  cases h

theorem isEmpty_enqueueIfAbsent {x : ℕ} : (e.enqueueIfAbsent x m).isEmpty = false := by
  by_contra he
  rw [Bool.not_eq_false] at he
  have hq := (isEmpty_iff.1 he).2
  unfold enqueueIfAbsent at hq
  split at hq
  next hany => simp [hq] at hany
  next => simp at hq

end LockEntry

namespace LockManager

variable {s : LockManager} {t : ℕ} {e : LockEntry}

theorem entry_of_lookup (h : s.entries.lookup t = some e) : s.entry t = e := by
  simp only [entry,h,Option.getD_some]

theorem entry_of_none (h : s.entries.lookup t = none) : s.entry t = default := by
  simp only [entry,h,Option.getD_none]

def put (s : LockManager) (t : ℕ) (e : LockEntry) : LockManager :=
  { s with entries := s.entries.insert t e }

theorem entry_put (s : LockManager) (t : ℕ) (e : LockEntry) :
    (s.put t e).entry = update s.entry t e := by
  funext t'
  by_cases ht : t' = t
  · subst ht
    simp [entry,put]
  · simp [entry,put,ht,AList.lookup_insert_ne ht]

theorem pruned_put (hs : s.Pruned) (he : e.isEmpty = false) : (s.put t e).Pruned := by
  intro t' e' h
  by_cases ht : t' = t
  · subst ht
    rw [put,AList.lookup_insert] at h
    exact Option.some.inj h ▸ he
  · rw [put,AList.lookup_insert_ne ht] at h
    exact hs t' e' h

def drop (s : LockManager) (t : ℕ) : LockManager := { s with entries := s.entries.erase t }

theorem entry_drop (s : LockManager) (t : ℕ) :
    (s.drop t).entry = update s.entry t default := by
  funext t'
  by_cases ht : t' = t
  · subst ht
    simp [entry,drop]
  · simp [entry,drop,ht,AList.lookup_erase_ne ht]

theorem pruned_drop (hs : s.Pruned) : (s.drop t).Pruned := by
  intro t' e' h
  by_cases ht : t' = t
  · subst ht
    simp [drop] at h
  · rw [drop,AList.lookup_erase_ne ht] at h
    exact hs t' e' h

theorem withdraw_default (x : ℕ) : LockEntry.withdraw default x = default := rfl

theorem release_default (x : ℕ) : LockEntry.release default x = default := rfl

variable {s' : LockManager} {m : LockMode}

theorem acquireRound_cases {x : ℕ} {r : Round} (h : s.acquireRound x t m = (r,s')) :
    (r = .deadlockVictim ∧ x ∈ s.deadlockVictims ∧
        s'.entry = update s.entry t ((s.entry t).withdraw x)) ∨
      (r = .granted ∧ (s.entry t).canGrant x m = true ∧
        s'.entry = update s.entry t ((s.entry t).grant x m)) ∨
      (r = .waits ∧ (s.entry t).canGrant x m = false ∧
        s'.entry = update s.entry t ((s.entry t).enqueueIfAbsent x m)) := by
  unfold acquireRound at h
  split at h
  next hv =>
    refine .inl ?_
    dsimp only at h
    split at h
    next hl =>
      cases h
      refine ⟨rfl,hv,?_⟩
      rw [entry_of_none hl,withdraw_default,← entry_of_none hl,update_eq_self]
      rfl
    next e hl =>
      cases h
      refine ⟨rfl,hv,?_⟩
      rw [entry_of_lookup hl]
      split
      next he =>
        rw [LockEntry.eq_default he]
        exact entry_drop _ t
      next => exact entry_put _ t _
  next =>
    split at h
    next hc =>
      cases h
      exact .inr (.inl ⟨rfl,hc,entry_put s t _⟩)
    next hc =>
      cases h
      exact .inr (.inr ⟨rfl,Bool.not_eq_true _ ▸ hc,entry_put s t _⟩)

theorem pruned_acquireRound (hs : s.Pruned) (x : ℕ) (m : LockMode) :
    (s.acquireRound x t m).2.Pruned := by
  unfold acquireRound
  split
  · dsimp only
    split
    · exact hs
    · split
      · exact pruned_drop hs
      next he => exact pruned_put hs (Bool.not_eq_true _ ▸ he)
  · split
    · exact pruned_put hs (LockEntry.isEmpty_of_holds LockEntry.holds_grant)
    · exact pruned_put hs LockEntry.isEmpty_enqueueIfAbsent

theorem tryAcquire_cases {x : ℕ} {r : Bool} (h : s.tryAcquire x t m = (r,s')) :
    (r = true ∧ (s.entry t).canGrant x m = true ∧
        s'.entry = update s.entry t ((s.entry t).grant x m)) ∨
      (r = false ∧ (s.entry t).canGrant x m = false ∧ s' = s) := by
  have hall : ((s.entries.lookup t).all fun e => e.canGrant x m) = (s.entry t).canGrant x m := by
    cases hl : s.entries.lookup t with
    | none => rw [entry_of_none hl]; rfl
    | some e => rw [entry_of_lookup hl]; rfl
  rw [tryAcquire,hall] at h
  split at h
  next hc =>
    cases h
    exact .inl ⟨rfl,hc,entry_put s t _⟩
  next hc =>
    cases h
    exact .inr ⟨rfl,Bool.not_eq_true _ ▸ hc,rfl⟩

theorem pruned_tryAcquire (hs : s.Pruned) (x : ℕ) (m : LockMode) :
    (s.tryAcquire x t m).2.Pruned := by
  unfold tryAcquire
  split
  · exact pruned_put hs (LockEntry.isEmpty_of_holds LockEntry.holds_grant)
  · exact hs

theorem lookup_releaseAll (s : LockManager) (x t : ℕ) : (s.releaseAll x).entries.lookup t =
    (s.entries.lookup t).bind fun e =>
      if (e.release x).isEmpty then none else some (e.release x) :=
  lookup_retain _ _ _

theorem entry_releaseAll (s : LockManager) (x : ℕ) :
    (s.releaseAll x).entry = fun t => (s.entry t).release x := by
  funext t
  cases hl : s.entries.lookup t with
  | none => rw [entry,lookup_releaseAll,hl,entry_of_none hl,release_default]; rfl
  | some e =>
    rw [entry,lookup_releaseAll,hl,entry_of_lookup hl]
    by_cases he : (e.release x).isEmpty = true
    · rw [Option.bind_some,if_pos he,LockEntry.eq_default he]
      rfl
    · rw [Option.bind_some,if_neg he]
      rfl

theorem pruned_releaseAll (s : LockManager) (x : ℕ) : (s.releaseAll x).Pruned := by
  intro t e h
  rw [lookup_releaseAll,Option.bind_eq_some_iff] at h
  obtain ⟨e',-,h⟩ := h
  rw [Option.ite_none_left_eq_some] at h
  obtain ⟨he,h⟩ := h
  exact Option.some.inj h ▸ Bool.not_eq_true _ ▸ he

end LockManager

structure Sys where
  manager : LockManager
  calls : ℕ → Option (ℕ × LockMode)

inductive Step
  | acquire (xid table : ℕ) (mode : LockMode)
  | wake (xid : ℕ)
  | tryAcquire (xid table : ℕ) (mode : LockMode)
  | releaseAll (xid : ℕ)
  | mark (xid : ℕ)
  | clear (xid : ℕ)
  deriving DecidableEq, Repr

namespace Sys

def new : Sys := ⟨.new,fun _ => none⟩

def entry (s : Sys) (table : ℕ) : LockEntry := s.manager.entry table

def round (s : Sys) (xid table : ℕ) (mode : LockMode) : Sys :=
  match s.manager.acquireRound xid table mode with
  | (.waits,manager) => ⟨manager,update s.calls xid (some (table,mode))⟩
  | (_,manager) => ⟨manager,update s.calls xid none⟩

/-- A transaction has one call in progress at a time; a sleeping one may wake at any moment. -/
def step (s : Sys) : Step → Option Sys
  | .acquire xid table mode =>
    if (s.calls xid).isNone then some (s.round xid table mode) else none
  | .wake xid => (s.calls xid).map fun c => s.round xid c.1 c.2
  | .tryAcquire xid table mode =>
    if (s.calls xid).isNone then
      some { s with manager := (s.manager.tryAcquire xid table mode).2 }
    else none
  | .releaseAll xid =>
    if (s.calls xid).isNone then some { s with manager := s.manager.releaseAll xid } else none
  | .mark xid => some { s with manager := s.manager.mark xid }
  | .clear xid => some { s with manager := s.manager.clear xid }

def Start (s : Sys) : Prop := s = .new

end Sys

/-- What a step does to the entries and to the calls in progress. -/
inductive Effect (s s' : Sys) : Prop
  | withdraw (x t : ℕ) (call : ∀ c, s.calls x = some c → c.1 = t)
      (calls : s'.calls = update s.calls x none)
      (entry : s'.entry = update s.entry t ((s.entry t).withdraw x))
  | grant (x t : ℕ) (m : LockMode) (call : ∀ c, s.calls x = some c → c = (t,m))
      (calls : s'.calls = update s.calls x none)
      (can : (s.entry t).canGrant x m = true)
      (entry : s'.entry = update s.entry t ((s.entry t).grant x m))
  | enqueue (x t : ℕ) (m : LockMode) (call : ∀ c, s.calls x = some c → c = (t,m))
      (calls : s'.calls = update s.calls x (some (t,m)))
      (can : (s.entry t).canGrant x m = false)
      (entry : s'.entry = update s.entry t ((s.entry t).enqueueIfAbsent x m))
  | release (x : ℕ) (call : s.calls x = none) (calls : s'.calls = s.calls)
      (entry : s'.entry = fun t => (s.entry t).release x)
  | quiet (calls : s'.calls = s.calls) (entry : s'.entry = s.entry)

namespace Sys

variable {s s' : Sys}

theorem effect_round {x t : ℕ} {m : LockMode} (call : ∀ c, s.calls x = some c → c = (t,m)) :
    Effect s (s.round x t m) := by
  unfold round
  rcases hr : s.manager.acquireRound x t m with ⟨r,manager⟩
  obtain ⟨rfl,-,he⟩ | ⟨rfl,hc,he⟩ | ⟨rfl,hc,he⟩ := LockManager.acquireRound_cases hr
  · exact .withdraw x t (fun c hc => congrArg Prod.fst (call c hc)) rfl he
  · exact .grant x t m call rfl hc he
  · exact .enqueue x t m call rfl hc he

theorem effect_step {a : Step} (h : s.step a = some s') : Effect s s' := by
  cases a with
  | acquire x t m =>
    rw [step,Option.ite_none_right_eq_some,Option.isNone_iff_eq_none] at h
    obtain ⟨hx,h⟩ := h
    cases h
    exact effect_round (by simp [hx])
  | wake x =>
    obtain ⟨⟨t,m⟩,hx,rfl⟩ := Option.map_eq_some_iff.1 h
    exact effect_round fun c hc => Option.some.inj (hc.symm.trans hx)
  | tryAcquire x t m =>
    rw [step,Option.ite_none_right_eq_some,Option.isNone_iff_eq_none] at h
    obtain ⟨hx,h⟩ := h
    cases h
    rcases hr : s.manager.tryAcquire x t m with ⟨r,manager⟩
    have hcalls : s.calls = update s.calls x none := by
      rw [← hx,update_eq_self]
    obtain ⟨-,hc,he⟩ | ⟨-,-,rfl⟩ := LockManager.tryAcquire_cases hr
    · exact .grant x t m (by simp [hx]) hcalls hc he
    · exact .quiet rfl rfl
  | releaseAll x =>
    rw [step,Option.ite_none_right_eq_some,Option.isNone_iff_eq_none] at h
    obtain ⟨hx,h⟩ := h
    cases h
    exact .release x hx rfl (LockManager.entry_releaseAll _ x)
  | mark x | clear x =>
    cases h
    exact .quiet rfl rfl

theorem pruned_step {a : Step} (hs : s.manager.Pruned) (h : s.step a = some s') :
    s'.manager.Pruned := by
  have hround : ∀ x t m, (s.round x t m).manager.Pruned := by
    intro x t m
    have hp := LockManager.pruned_acquireRound (t := t) hs x m
    unfold round
    rcases hr : s.manager.acquireRound x t m with ⟨_ | _ | _,manager⟩ <;> rw [hr] at hp <;> exact hp
  cases a with
  | acquire x t m =>
    rw [step,Option.ite_none_right_eq_some] at h
    exact Option.some.inj h.2 ▸ hround x t m
  | wake x =>
    obtain ⟨c,-,rfl⟩ := Option.map_eq_some_iff.1 h
    exact hround x c.1 c.2
  | tryAcquire x t m =>
    rw [step,Option.ite_none_right_eq_some] at h
    exact Option.some.inj h.2 ▸ LockManager.pruned_tryAcquire hs x m
  | releaseAll x =>
    rw [step,Option.ite_none_right_eq_some] at h
    exact Option.some.inj h.2 ▸ LockManager.pruned_releaseAll s.manager x
  | mark x | clear x =>
    cases h
    exact hs

end Sys
end Lock
end PgAm
