import PgAm.HeapTuple

/-! The heap under many transactions. A step is what a call does between latching and
unlatching a page: one pass through the row-lock gate with the stamp it leads to, an insert,
or a step of the transaction manager. A call that has to wait runs the gate again later, and
an update whose page has no room for the new version passes the gate twice. -/
namespace PgAm
namespace Heap

open Machine Function

structure Grant where
  xid : ℕ
  tid : Tid
  shared : Bool
  deriving DecidableEq

/-- The manager, the pages of the table, the registry of shared locks and the completed calls. -/
structure Sys where
  manager : Manager
  relation : List ℕ
  pages : ℕ → List TupleHeader
  shareLocks : Tid → List ℕ
  grants : List Grant

namespace Sys

def tuple (s : Sys) (tid : Tid) : Option TupleHeader := (s.pages tid.pageId)[tid.slotId]?

def modifyTuple (s : Sys) (tid : Tid) (f : TupleHeader → TupleHeader) : Sys :=
  { s with pages := update s.pages tid.pageId ((s.pages tid.pageId).modify tid.slotId f) }

def newTid (s : Sys) (page : ℕ) : Tid := ⟨page,(s.pages page).length⟩

def addTuple (s : Sys) (page : ℕ) (h : TupleHeader) : Sys :=
  { s with pages := update s.pages page (s.pages page ++ [h]) }

/-- In progress and not about to end: its outcome has not been set. -/
def Live (s : Sys) (xid : ℕ) : Prop := xid ∈ s.manager.active ∧ s.manager.getState xid = .inProgress

instance (s : Sys) (xid : ℕ) : Decidable (s.Live xid) := inferInstanceAs (Decidable (_ ∧ _))

end Sys

/-- The calls on a tuple version. An update puts the new version on a page of its choice. -/
inductive Op
  | delete
  | update (page : ℕ) (hotEligible : Bool)
  | lockTuple
  | lockTupleShared
  deriving DecidableEq

def Op.request : Op → LockRequest
  | .delete | .update .. => .writer
  | .lockTuple => .exclusive
  | .lockTupleShared => .shared

/-- Only an update that stays on its page may be linked to the old version. -/
def Sys.apply (s : Sys) (xid curcid : ℕ) (tid : Tid) : Op → Sys
  | .delete => s.modifyTuple tid (·.stampDeleted xid curcid false)
  | .update page hotEligible =>
    if page = tid.pageId ∧ hotEligible then
      (s.modifyTuple tid (·.stampHotUpdate xid curcid (s.newTid page))).addTuple page
        (.new xid curcid true)
    else
      (s.modifyTuple tid (·.stampDeleted xid curcid true)).addTuple page (.new xid curcid false)
  | .lockTuple => s.modifyTuple tid (·.stampLockOnly xid curcid false)
  | .lockTupleShared => s.modifyTuple tid (·.stampLockOnly xid curcid true)

def Sys.Writable (s : Sys) : Op → Prop
  | .update page _ => page ∈ s.relation
  | _ => True

instance (s : Sys) : (op : Op) → Decidable (s.Writable op)
  | .update page _ => inferInstanceAs (Decidable (page ∈ s.relation))
  | .delete | .lockTuple | .lockTupleShared => .isTrue trivial

/-- `pass` is one pass through the gate; `stale` are transactions that have ended while it was
reading and that it still took for active. Without `stamps` a writer is let through and does not
stamp: the page has no room for the new version, or the log refuses the record. -/
inductive Step
  | manager (a : Manager.Step)
  | extend (page : ℕ)
  | insert (xid curcid page : ℕ)
  | pass (xid curcid : ℕ) (tid : Tid) (op : Op) (stale : List ℕ) (stamps : Bool)
  deriving DecidableEq

def Sys.reads (s : Sys) (stale : List ℕ) (xid : ℕ) : Bool :=
  xid ∈ stale ∨ xid ∈ s.manager.active ∧
    (s.manager.getState xid = .inProgress ∨ s.manager.getState xid = .subCommitted)

def Sys.gate (s : Sys) (xid : ℕ) (tid : Tid) (op : Op) (stale : List ℕ) :
    Except HeapError RowLockGate × List ℕ :=
  rowLockGate (s.reads stale) s.manager.getState tid (s.tuple tid) (s.shareLocks tid) xid op.request

def Sys.granted (s : Sys) (xid : ℕ) (tid : Tid) (op : Op) : Sys :=
  { s with grants := ⟨xid,tid,op.request = .shared⟩ :: s.grants }

def Sys.settle (s : Sys) (xid curcid : ℕ) (tid : Tid) (op : Op) (stamps : Bool) :
    Except HeapError RowLockGate → Sys
  | .ok .proceed => if stamps then (s.apply xid curcid tid op).granted xid tid op else s
  | .ok .proceedNoStamp => s.granted xid tid op
  | .ok (.wait _) | .error _ => s

/-- The caller is active, and only a writer leaves the gate without its stamp. -/
def Sys.CanPass (s : Sys) (xid : ℕ) (op : Op) (stale : List ℕ) (stamps : Bool) : Prop :=
  s.Live xid ∧ (∀ x ∈ stale, s.manager.getState x ≠ .inProgress) ∧ s.Writable op ∧
    (stamps = true ∨ op.request = .writer)

instance (s : Sys) (xid : ℕ) (op : Op) (stale : List ℕ) (stamps : Bool) :
    Decidable (s.CanPass xid op stale stamps) := inferInstanceAs (Decidable (_ ∧ _))

def step (s : Sys) : Step → Option Sys
  | .manager a => (s.manager.step a).map fun m => { s with manager := m }
  | .extend page =>
    if page ∉ s.relation ∧ s.pages page = [] then
      some { s with relation := s.relation ++ [page] }
    else none
  | .insert xid curcid page =>
    if s.Live xid ∧ page ∈ s.relation then some (s.addTuple page (.new xid curcid false)) else none
  | .pass xid curcid tid op stale stamps =>
    if s.CanPass xid op stale stamps then
      let r := s.gate xid tid op stale
      some (({ s with shareLocks := update s.shareLocks tid r.2 } : Sys).settle
        xid curcid tid op stamps r.1)
    else none

/-- The tuples carry what earlier incarnations stamped, and no lock of this one is held. -/
def Start (s : Sys) : Prop :=
  s.manager.Opened ∧ (∀ tid h, s.tuple tid = some h → h.WellFormed) ∧
    (∀ tid, s.shareLocks tid = []) ∧ s.grants = []

section Tuples

variable {s : Sys} {tid tid' : Tid} {page : ℕ} {f : TupleHeader → TupleHeader} {h : TupleHeader}

theorem tuple_modifyTuple_self : (s.modifyTuple tid f).tuple tid = (s.tuple tid).map f := by
  simp only [Sys.tuple,Sys.modifyTuple,update_self,List.getElem?_modify_eq,
    Option.map_eq_map]

theorem tuple_modifyTuple_of_ne (hne : tid' ≠ tid) :
    (s.modifyTuple tid f).tuple tid' = s.tuple tid' := by
  simp only [Sys.tuple,Sys.modifyTuple]
  by_cases hp : tid'.pageId = tid.pageId
  · have hs : tid.slotId ≠ tid'.slotId := by
      rintro he
      cases tid
      cases tid'
      simp_all
    rw [hp,update_self,List.getElem?_modify_ne _ _ hs]
  · rw [update_of_ne hp]

theorem tuple_newTid : s.tuple (s.newTid page) = none :=
  List.getElem?_eq_none le_rfl

theorem tuple_addTuple_newTid : (s.addTuple page h).tuple (s.newTid page) = some h := by
  simp [Sys.tuple,Sys.addTuple,Sys.newTid]

theorem tuple_addTuple_of_ne (hne : tid ≠ s.newTid page) :
    (s.addTuple page h).tuple tid = s.tuple tid := by
  simp only [Sys.tuple,Sys.addTuple]
  by_cases hp : tid.pageId = page
  · subst hp
    have hs : tid.slotId ≠ (s.pages tid.pageId).length := fun he => hne (by
      cases tid
      simp_all [Sys.newTid])
    rw [update_self,List.getElem?_append]
    split
    · rfl
    · rename_i hlt
      rw [List.getElem?_eq_none (not_lt.1 hlt),List.getElem?_eq_none]
      simp only [List.length_singleton]
      omega
  · rw [update_of_ne hp]

theorem newTid_modifyTuple : (s.modifyTuple tid f).newTid page = s.newTid page := by
  simp only [Sys.newTid,Sys.modifyTuple,update_apply]
  split
  · rename_i hp
    rw [List.length_modify,hp]
  · rfl

def Op.stamp (op : Op) (tid newTid : Tid) (xid curcid : ℕ) (h : TupleHeader) : TupleHeader :=
  match op with
  | .delete => h.stampDeleted xid curcid false
  | .update page hotEligible =>
    if page = tid.pageId ∧ hotEligible then h.stampHotUpdate xid curcid newTid
    else h.stampDeleted xid curcid true
  | .lockTuple => h.stampLockOnly xid curcid false
  | .lockTupleShared => h.stampLockOnly xid curcid true

def Op.newPage : Op → Option ℕ
  | .update page _ => some page
  | _ => none

variable {xid curcid : ℕ} {op : Op}

theorem apply_of_not_update (hop : op.newPage = none) (newTid : Tid) :
    s.apply xid curcid tid op = s.modifyTuple tid (op.stamp tid newTid xid curcid) := by
  cases op with
  | update page hot => cases hop
  | delete | lockTuple | lockTupleShared => rfl

/-- The new version is linked to the old one: it has no index entries of its own. -/
def Op.isHot (tid : Tid) : Op → Bool
  | .update page hotEligible => page = tid.pageId ∧ hotEligible
  | _ => false

theorem apply_update (hop : op.newPage = some page) :
    s.apply xid curcid tid op =
      (s.modifyTuple tid (op.stamp tid (s.newTid page) xid curcid)).addTuple page
        (.new xid curcid (op.isHot tid)) := by
  cases op with
  | update page' hot =>
    cases hop
    by_cases hhot : page = tid.pageId ∧ hot = true
    · have hst : (Op.update page hot).stamp tid (s.newTid page) xid curcid =
          (·.stampHotUpdate xid curcid (s.newTid page)) := by
        funext h
        simp only [Op.stamp,if_pos hhot]
      rw [hst,Sys.apply,if_pos hhot,Op.isHot,decide_eq_true hhot]
    · have hst : (Op.update page hot).stamp tid (s.newTid page) xid curcid =
          (·.stampDeleted xid curcid true) := by
        funext h
        simp only [Op.stamp,if_neg hhot]
      rw [hst,Sys.apply,if_neg hhot,Op.isHot,decide_eq_false hhot]
  | delete | lockTuple | lockTupleShared => cases hop

theorem apply_frame : ∃ pages, s.apply xid curcid tid op = { s with pages := pages } := by
  cases hop : op.newPage with
  | none => exact ⟨_,apply_of_not_update hop tid⟩
  | some page => exact ⟨_,apply_update hop⟩

theorem tuple_apply_self (hh : s.tuple tid = some h) :
    (s.apply xid curcid tid op).tuple tid =
      some (op.stamp tid ((op.newPage.map s.newTid).getD tid) xid curcid h) := by
  cases hop : op.newPage with
  | none =>
    rw [apply_of_not_update hop tid,tuple_modifyTuple_self,hh]
    rfl
  | some page =>
    have hne : tid ≠ (s.modifyTuple tid (op.stamp tid (s.newTid page) xid curcid)).newTid page := by
      rw [newTid_modifyTuple]
      rintro e
      rw [e,tuple_newTid] at hh
      cases hh
    rw [apply_update hop,tuple_addTuple_of_ne hne,tuple_modifyTuple_self,hh]
    rfl

theorem tuple_apply_new (hop : op.newPage = some page) :
    (s.apply xid curcid tid op).tuple (s.newTid page) = some (.new xid curcid (op.isHot tid)) := by
  have hadd := @tuple_addTuple_newTid
    (s.modifyTuple tid (op.stamp tid (s.newTid page) xid curcid)) page
    (.new xid curcid (op.isHot tid))
  rw [newTid_modifyTuple] at hadd
  rw [apply_update hop,hadd]

theorem tuple_apply_of_ne (hne : tid' ≠ tid) :
    (s.apply xid curcid tid op).tuple tid' = s.tuple tid' ∨
      ∃ page, op.newPage = some page ∧ tid' = s.newTid page ∧
        (s.apply xid curcid tid op).tuple tid' = some (.new xid curcid (op.isHot tid)) := by
  cases hop : op.newPage with
  | none =>
    rw [apply_of_not_update hop tid,tuple_modifyTuple_of_ne hne]
    exact .inl rfl
  | some page =>
    by_cases hnew : tid' = s.newTid page
    · exact .inr ⟨page,rfl,hnew,by rw [hnew,tuple_apply_new hop]⟩
    · have hnt := @newTid_modifyTuple s tid page (op.stamp tid (s.newTid page) xid curcid)
      rw [apply_update hop,tuple_addTuple_of_ne (by rwa [hnt]),tuple_modifyTuple_of_ne hne]
      exact .inl rfl

theorem tuple_apply_kept (hne : tid' ≠ tid) (hh : s.tuple tid' = some h) :
    (s.apply xid curcid tid op).tuple tid' = some h := by
  rcases @tuple_apply_of_ne s tid tid' xid curcid op hne with he | ⟨page,-,rfl,-⟩
  · rw [he,hh]
  · rw [tuple_newTid] at hh
    cases hh

theorem stamp_tXmax (newTid : Tid) : (op.stamp tid newTid xid curcid h).tXmax = xid := by
  cases op with
  | update page hot =>
    simp only [Op.stamp]
    split <;> rfl
  | delete | lockTuple | lockTupleShared => rfl

theorem stamp_isShare (newTid : Tid) :
    (op.stamp tid newTid xid curcid h).xmaxIsShare = decide (op.request = .shared) := by
  cases op with
  | update page hot =>
    simp only [Op.stamp]
    split <;> rfl
  | delete | lockTuple | lockTupleShared => rfl

theorem stamp_lockOnly (newTid : Tid) :
    (op.stamp tid newTid xid curcid h).xmaxLockOnly = decide (op.request ≠ .writer) := by
  cases op with
  | update page hot =>
    simp only [Op.stamp]
    split <;> rfl
  | delete | lockTuple | lockTupleShared => rfl

theorem stamp_wellFormed (newTid : Tid) (hx : xid ≠ TxnId.invalid) :
    (op.stamp tid newTid xid curcid h).WellFormed := by
  intro hs
  rw [stamp_isShare,decide_eq_true_eq] at hs
  rw [stamp_lockOnly,stamp_tXmax,hs]
  exact ⟨rfl,hx⟩

end Tuples

end Heap
end PgAm
