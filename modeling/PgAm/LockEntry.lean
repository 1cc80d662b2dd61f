import Mathlib.Tactic
import Mathlib.Data.List.AList

/-! The lock state of one table: the modes that are granted, the queue of requests, and the
rules by which a request is granted, queued, withdrawn or released. -/
namespace PgAm
namespace Lock

inductive LockMode
  | accessShare | rowExclusive | exclusive | accessExclusive
  deriving DecidableEq, Repr

namespace LockMode

def strength : LockMode → ℕ
  | .accessShare => 0
  | .rowExclusive => 1
  | .exclusive => 2
  | .accessExclusive => 3

instance : LinearOrder LockMode :=
  LinearOrder.lift' strength (by rintro (_ | _ | _ | _) (_ | _ | _ | _) <;> simp [strength])

def conflictsWith : LockMode → LockMode → Bool
  | .accessExclusive, _ | _, .accessExclusive => true
  | .rowExclusive, .exclusive | .exclusive, .rowExclusive | .exclusive, .exclusive => true
  | _, _ => false

theorem conflictsWith_comm (a b : LockMode) : a.conflictsWith b = b.conflictsWith a := by
  cases a <;> cases b <;> rfl

end LockMode

structure Waiter where
  xid : ℕ
  mode : LockMode
  deriving DecidableEq, Repr

/-- `granted` has the strongest mode of a transaction; an upgrade waits with its mode granted. -/
@[ext]
structure LockEntry where
  granted : AList fun _ : ℕ => LockMode
  waitQueue : List Waiter

namespace LockEntry

instance : Inhabited LockEntry := ⟨⟨∅,[]⟩⟩

variable (e : LockEntry) (xid : ℕ) (mode : LockMode)

def holds : Bool := (e.granted.lookup xid).any fun held => decide (mode ≤ held)

def canGrant : Bool :=
  if e.holds xid mode then true
  else if e.waitQueue.head?.any fun head => decide (head.xid ≠ xid) then false
  else e.granted.entries.all fun g => decide (g.1 = xid) || !g.2.conflictsWith mode

/-- The stronger of the two modes is granted, and the head of the queue has its request dropped. -/
def grant : LockEntry where
  granted :=
    match e.granted.lookup xid with
    | none => e.granted.insert xid mode
    | some held => if held < mode then e.granted.insert xid mode else e.granted
  waitQueue := if e.waitQueue.head?.any fun w => decide (w.xid = xid) then e.waitQueue.tail
    else e.waitQueue

def enqueueIfAbsent : LockEntry :=
  if e.waitQueue.any fun w => decide (w.xid = xid) then e
  else { e with waitQueue := e.waitQueue ++ [⟨xid,mode⟩] }

/-- Grant the heads of a queue one after the other, up to the first that has to wait. -/
def regrantFrom (granted : AList fun _ : ℕ => LockMode) : List Waiter → LockEntry
  | [] => ⟨granted,[]⟩
  | head :: rest =>
    if canGrant ⟨granted,head :: rest⟩ head.xid head.mode then
      regrantFrom (grant ⟨granted,head :: rest⟩ head.xid head.mode).granted rest
    else ⟨granted,head :: rest⟩

def regrantHeads : LockEntry := regrantFrom e.granted e.waitQueue

/-- A waiter gives up its request and keeps what it holds. -/
def withdraw : LockEntry :=
  regrantHeads { e with waitQueue := e.waitQueue.filter fun w => decide (w.xid ≠ xid) }

def release : LockEntry :=
  regrantHeads ⟨e.granted.erase xid,e.waitQueue.filter fun w => decide (w.xid ≠ xid)⟩

def isEmpty : Bool := e.granted.entries.isEmpty && e.waitQueue.isEmpty

end LockEntry

def LockEntry.Conflict (e : LockEntry) (xid : ℕ) (mode : LockMode) : Prop :=
  ∃ holder held, e.granted.lookup holder = some held ∧ holder ≠ xid ∧ held.conflictsWith mode = true

def LockEntry.Compatible (e : LockEntry) : Prop :=
  ∀ x m y m', e.granted.lookup x = some m → e.granted.lookup y = some m' → x ≠ y →
    m.conflictsWith m' = false

/-- The head of the queue asks for more than it holds, and another transaction is in its way. -/
def LockEntry.HeadWaits (e : LockEntry) : Prop :=
  ∀ w rest, e.waitQueue = w :: rest → e.holds w.xid w.mode = false ∧ e.Conflict w.xid w.mode

namespace LockEntry

variable {e : LockEntry} {x y : ℕ} {m : LockMode}

theorem holds_iff : e.holds x m = true ↔ ∃ h, e.granted.lookup x = some h ∧ m ≤ h := by
  simp only [holds,Option.any_eq_true,decide_eq_true_eq]

theorem holds_congr {e' : LockEntry} (h : e'.granted.lookup x = e.granted.lookup x) :
    e'.holds x m = e.holds x m := by
  simp only [holds,h]

theorem all_entries_iff :
    (e.granted.entries.all fun g => decide (g.1 = x) || !g.2.conflictsWith m) = true ↔
      ¬e.Conflict x m := by
  simp only [List.all_eq_true,Bool.or_eq_true,decide_eq_true_eq,Bool.not_eq_true',Conflict,
    not_exists,
    not_and,Bool.not_eq_true]
  constructor
  · intro h y held hy hne
    exact (h ⟨y,held⟩ (AList.mem_lookup_iff.1 hy)).resolve_left hne
  · rintro h ⟨y,held⟩ hg
    by_cases hy : y = x
    · exact .inl hy
    · exact .inr (h y held (AList.mem_lookup_iff.2 hg) hy)

theorem canGrant_iff : e.canGrant x m = true ↔
    e.holds x m = true ∨
      ((∀ w rest, e.waitQueue = w :: rest → w.xid = x) ∧ ¬e.Conflict x m) := by
  rw [← all_entries_iff]
  unfold canGrant
  cases e.holds x m with
  | true => simp
  | false =>
    cases e.waitQueue with
    | nil => simp
    | cons w rest => by_cases hw : w.xid = x <;> simp [hw]

theorem canGrant_head {w : Waiter} {rest : List Waiter} (hq : e.waitQueue = w :: rest) :
    e.canGrant w.xid w.mode = true ↔ e.holds w.xid w.mode = true ∨ ¬e.Conflict w.xid w.mode := by
  rw [canGrant_iff]
  have hhead : ∀ w' rest', e.waitQueue = w' :: rest' → w'.xid = w.xid := by
    intro w' rest' h
    rw [hq,List.cons.injEq] at h
    rw [h.1]
  rw [and_iff_right hhead]

theorem headWaits_iff :
    e.HeadWaits ↔ ∀ w rest, e.waitQueue = w :: rest → e.canGrant w.xid w.mode = false := by
  refine forall₂_congr fun w rest => forall_congr' fun hq => ?_
  rw [← Bool.not_eq_true (e.canGrant _ _),canGrant_head hq,not_or,not_not,Bool.not_eq_true]

theorem lookup_grant_ne (h : y ≠ x) : (e.grant x m).granted.lookup y = e.granted.lookup y := by
  simp only [grant]
  split
  · exact AList.lookup_insert_ne h
  · split
    · exact AList.lookup_insert_ne h
    · rfl

theorem lookup_grant_self : (e.grant x m).granted.lookup x =
    some ((e.granted.lookup x).elim m (max · m)) := by
  simp only [grant]
  cases hx : e.granted.lookup x with
  | none => simp
  | some held =>
    by_cases hlt : held < m
    · simp [hlt,max_eq_right hlt.le]
    · simp [hlt,hx,max_eq_left (not_lt.1 hlt)]

theorem holds_grant : (e.grant x m).holds x m = true := by
  rw [holds_iff]
  refine ⟨_,lookup_grant_self,?_⟩
  cases e.granted.lookup x with
  | none => exact le_rfl
  | some held => exact le_max_right held m

theorem granted_grant_of_holds (h : e.holds x m = true) : (e.grant x m).granted = e.granted := by
  obtain ⟨held,hx,hle⟩ := holds_iff.1 h
  simp [grant,hx,not_lt.2 hle]

theorem compatible_grant (hc : e.Compatible) (h : e.canGrant x m = true) :
    (e.grant x m).Compatible := by
  rcases canGrant_iff.1 h with hh | ⟨-,hfree⟩
  · simpa only [Compatible,granted_grant_of_holds hh] using hc
  have hnew : ∀ m₀ y m', (e.grant x m).granted.lookup x = some m₀ → e.granted.lookup y = some m' →
      y ≠ x → m'.conflictsWith m₀ = false := by
    intro m₀ y m' hm₀ hy hne
    have hm : m'.conflictsWith m = false := by
      by_contra hcon
      exact hfree ⟨y,m',hy,hne,by simpa using hcon⟩
    rw [lookup_grant_self,Option.some.injEq] at hm₀
    subst hm₀
    cases hx : e.granted.lookup x with
    | none => exact hm
    | some held =>
      have hheld := hc y m' x held hy hx hne
      rcases max_choice held m with h' | h' <;> simp only [Option.elim,h'] <;> assumption
  intro a ma b mb ha hb hab
  by_cases hax : a = x
  · subst hax
    have hb' := lookup_grant_ne (e := e) (m := m) hab.symm ▸ hb
    rw [LockMode.conflictsWith_comm]
    exact hnew ma b mb ha hb' hab.symm
  · have ha' := lookup_grant_ne (e := e) (m := m) hax ▸ ha
    by_cases hbx : b = x
    · subst hbx
      exact hnew mb a ma hb ha' hax
    · exact hc a ma b mb ha' (lookup_grant_ne (e := e) (m := m) hbx ▸ hb) hab

theorem compatible_erase (hc : e.Compatible) (q : List Waiter) :
    Compatible ⟨e.granted.erase x,q⟩ := by
  intro a ma b mb ha hb hab
  have hkeep : ∀ {a ma}, (e.granted.erase x).lookup a = some ma → e.granted.lookup a = some ma := by
    intro a ma ha
    by_cases hax : a = x
    · rw [hax,AList.lookup_erase] at ha
      cases ha
    · rwa [AList.lookup_erase_ne hax] at ha
  exact hc a ma b mb (hkeep ha) (hkeep hb) hab

/-- Some requests from the head of the queue are granted, and the next one has to wait. -/
structure Regrants (e e' : LockEntry) (served : List Waiter) : Prop where
  queue : e.waitQueue = served ++ e'.waitQueue
  kept : ∀ y, (∀ w ∈ served, w.xid ≠ y) → e'.granted.lookup y = e.granted.lookup y
  grown : ∀ y h, e.granted.lookup y = some h → ∃ h', e'.granted.lookup y = some h' ∧ h ≤ h'
  served : ∀ w ∈ served, e'.holds w.xid w.mode = true
  compatible : e.Compatible → e'.Compatible
  headWaits : e'.HeadWaits

theorem regrantFrom_spec (g : AList fun _ : ℕ => LockMode) (q : List Waiter) :
    ∃ served, Regrants ⟨g,q⟩ (regrantFrom g q) served := by
  induction q generalizing g with
  | nil =>
    exact ⟨[],rfl,fun _ _ => rfl,fun _ h hy => ⟨h,hy,le_rfl⟩,nofun,id,nofun⟩
  | cons w q ih =>
    simp only [regrantFrom]
    by_cases hc : canGrant ⟨g,w :: q⟩ w.xid w.mode = true
    · rw [if_pos hc]
      obtain ⟨served,hr⟩ := ih (grant ⟨g,w :: q⟩ w.xid w.mode).granted
      refine ⟨w :: served,by rw [List.cons_append]; exact congrArg _ hr.queue,?_,?_,?_,?_,
        hr.headWaits⟩
      · intro y hy
        rw [hr.kept y fun w' hw' => hy w' (List.mem_cons_of_mem _ hw')]
        exact lookup_grant_ne (hy w List.mem_cons_self).symm
      · intro y h hy
        by_cases hyw : y = w.xid
        · subst hyw
          obtain ⟨h',hh',hle⟩ := hr.grown w.xid _ lookup_grant_self
          change g.lookup w.xid = some h at hy
          simp only [hy,Option.elim] at hle
          exact ⟨h',hh',(le_max_left _ _).trans hle⟩
        · exact hr.grown y h ((lookup_grant_ne hyw).trans hy)
      · intro w' hw'
        rcases List.mem_cons.1 hw' with rfl | hw'
        · obtain ⟨h,hh,hle⟩ := holds_iff.1 (holds_grant (e := ⟨g,w' :: q⟩) (x := w'.xid)
            (m := w'.mode))
          obtain ⟨h',hh',hle'⟩ := hr.grown w'.xid h hh
          exact holds_iff.2 ⟨h',hh',hle.trans hle'⟩
        · exact hr.served w' hw'
      · intro hcomp
        exact hr.compatible (compatible_grant hcomp hc)
    · rw [if_neg hc]
      refine ⟨[],rfl,fun _ _ => rfl,fun _ h hy => ⟨h,hy,le_rfl⟩,nofun,id,?_⟩
      rw [headWaits_iff]
      rintro w' q' ⟨⟩
      exact Bool.not_eq_true _ ▸ hc

theorem withdraw_spec (e : LockEntry) (x : ℕ) : ∃ served,
    Regrants { e with waitQueue := e.waitQueue.filter fun w => decide (w.xid ≠ x) }
      (e.withdraw x) served :=
  regrantFrom_spec _ _

theorem release_spec (e : LockEntry) (x : ℕ) : ∃ served,
    Regrants ⟨e.granted.erase x,e.waitQueue.filter fun w => decide (w.xid ≠ x)⟩
      (e.release x) served :=
  regrantFrom_spec _ _

end LockEntry
end Lock
end PgAm
