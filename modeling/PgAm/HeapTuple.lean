import PgAm.Visibility

/-! Heap tuples and the row-lock protocol on their headers. A tuple's `t_xmax` is a delete, an
exclusive lock or the first of several shared locks; the other holders of a shared lock are
kept in a registry. The gate reads a header under the page latch and decides whether the
caller may stamp it. -/
namespace PgAm
namespace Heap

structure TupleHeader where
  tXmin : ℕ
  tXmax : ℕ
  tCtid : Tid
  tCid : ℕ
  xmaxLockOnly : Bool
  xmaxIsShare : Bool
  updated : Bool
  hotUpdated : Bool
  heapOnly : Bool
  deriving DecidableEq

namespace TupleHeader

def new (xid curcid : ℕ) (heapOnly : Bool) : TupleHeader :=
  ⟨xid,TxnId.invalid,⟨PageId.invalid,0⟩,curcid,false,false,false,false,heapOnly⟩

/-- A delete or an update supersedes any lock on the row. -/
def stampDeleted (h : TupleHeader) (xmax curcid : ℕ) (updated : Bool) : TupleHeader :=
  { h with
    tXmax := xmax
    tCid := curcid
    updated := h.updated || updated
    xmaxLockOnly := false
    xmaxIsShare := false }

def stampHotUpdate (h : TupleHeader) (xmax curcid : ℕ) (newTid : Tid) : TupleHeader :=
  { h.stampDeleted xmax curcid true with tCtid := newTid, hotUpdated := true }

def stampLockOnly (h : TupleHeader) (locker curcid : ℕ) (shared : Bool) : TupleHeader :=
  { h with tXmax := locker, tCid := curcid, xmaxLockOnly := true, xmaxIsShare := shared }

/-- A lock is not a delete. -/
def visibilityXmax (h : TupleHeader) : ℕ := if h.xmaxLockOnly then TxnId.invalid else h.tXmax

theorem real_of_visibilityXmax {h : TupleHeader} {x : ℕ} (hx : h.visibilityXmax = x)
    (h₀ : x ≠ TxnId.invalid) : h.xmaxLockOnly = false ∧ h.tXmax = x := by
  rw [visibilityXmax] at hx
  split at hx
  · exact absurd hx.symm h₀
  · rename_i hl
    exact ⟨Bool.eq_false_iff.2 hl,hx⟩

end TupleHeader

inductive HeapError
  | tupleNotFound (tid : Tid)
  | tupleConcurrentlyUpdated (tid : Tid)
  | invalidArgument (message : String)
  | corrupted (message : String)
  deriving DecidableEq

inductive LockRequest
  | writer
  | exclusive
  | shared
  deriving DecidableEq

inductive RowLockGate
  | proceed
  | proceedNoStamp
  | wait (blocking : ℕ)
  deriving DecidableEq

def tidDisplay (t : Tid) : String :=
  "Tid \x7b page_id: " ++ PageId.display t.pageId ++ s!", slot_id: {t.slotId}" ++ " \x7d"

def registerShareHolder (holders : List ℕ) (xid : ℕ) : List ℕ :=
  if xid ∈ holders then holders else holders.orderedInsert (· ≤ ·) xid

@[simp] theorem mem_registerShareHolder {holders : List ℕ} {xid y : ℕ} :
    y ∈ registerShareHolder holders xid ↔ y = xid ∨ y ∈ holders := by
  unfold registerShareHolder
  split
  · rename_i h
    exact ⟨.inr,fun hy => hy.elim (fun e => e ▸ h) id⟩
  · exact List.mem_orderedInsert ..

/-- The holders after a stamp that the caller is going to write. -/
def noteStampOverwrite (selfXid : ℕ) : LockRequest → List ℕ
  | .shared => [selfXid]
  | .exclusive | .writer => []

def liveShareHolders (live : ℕ → Bool) (holders : List ℕ) (stampXmax : ℕ) : List ℕ :=
  (registerShareHolder holders stampXmax).filter live

theorem mem_liveShareHolders {live : ℕ → Bool} {holders : List ℕ} {stamp y : ℕ} :
    y ∈ liveShareHolders live holders stamp ↔ (y = stamp ∨ y ∈ holders) ∧ live y = true := by
  rw [liveShareHolders,List.mem_filter,mem_registerShareHolder]

/-- A holder of a shared lock asks again: the first other live holder blocks a stronger
request. -/
def holderGate (liveHolders : List ℕ) (selfXid : ℕ) (request : LockRequest) :
    RowLockGate × List ℕ :=
  match request with
  | .shared => (.proceedNoStamp,registerShareHolder liveHolders selfXid)
  | request =>
    match liveHolders.find? (· ≠ selfXid) with
    | some blocking => (.wait blocking,liveHolders)
    | none => (.proceed,noteStampOverwrite selfXid request)

def shareStampGate (liveHolders : List ℕ) (selfXid : ℕ) (request : LockRequest) :
    RowLockGate × List ℕ :=
  if selfXid ∈ liveHolders then holderGate liveHolders selfXid request
  else match request,liveHolders with
    | request,[] => (.proceed,noteStampOverwrite selfXid request)
    | .shared,holders => (.proceedNoStamp,registerShareHolder holders selfXid)
    | _,blocking :: _ => (.wait blocking,liveHolders)

/-- The verdict and the registered holders after it; `live` are those read as in progress. -/
def rowLockGate (live : ℕ → Bool) (getState : ℕ → TxnState) (tid : Tid)
    (header : Option TupleHeader) (holders : List ℕ) (selfXid : ℕ) (request : LockRequest) :
    Except HeapError RowLockGate × List ℕ :=
  match header with
  | none => (.error (.tupleNotFound tid),holders)
  | some h =>
    if h.tXmax = TxnId.invalid then (.ok .proceed,noteStampOverwrite selfXid request)
    else if h.tXmax = selfXid then
      if ¬h.xmaxLockOnly then
        if request ≠ .writer then
          (.error (.invalidArgument ("cannot lock " ++ tidDisplay tid ++
            ": row version already deleted or updated by this transaction")),holders)
        else (.ok .proceed,holders)
      else if h.xmaxIsShare then
        if request = .shared then (.ok .proceedNoStamp,registerShareHolder holders selfXid)
        else
          let r := holderGate (liveShareHolders live holders h.tXmax) selfXid request
          (.ok r.1,r.2)
      else if request = .shared then (.ok .proceedNoStamp,holders)
      else (.ok .proceed,holders)
    else if h.xmaxIsShare then
      let r := shareStampGate (liveShareHolders live holders h.tXmax) selfXid request
      (.ok r.1,r.2)
    else if live h.tXmax then (.ok (.wait h.tXmax),holders)
    else if getState h.tXmax = .committed ∧ ¬h.xmaxLockOnly then
      (.error (.tupleConcurrentlyUpdated tid),holders)
    else (.ok .proceed,noteStampOverwrite selfXid request)

/-- A shared stamp is a lock and names a holder. -/
def TupleHeader.WellFormed (h : TupleHeader) : Prop :=
  h.xmaxIsShare = true → h.xmaxLockOnly = true ∧ h.tXmax ≠ TxnId.invalid

/-- The stamp is the transaction's own delete, update or exclusive lock. -/
def HoldsExclusive (h : TupleHeader) (x : ℕ) : Prop := h.tXmax = x ∧ h.xmaxIsShare = false

def HoldsShared (h : TupleHeader) (holders : List ℕ) (x : ℕ) : Prop :=
  (h.xmaxIsShare = true ∧ (h.tXmax = x ∨ x ∈ holders)) ∨ HoldsExclusive h x

theorem not_holdsExclusive_of_share {h : TupleHeader} (hs : h.xmaxIsShare = true) (x : ℕ) :
    ¬HoldsExclusive h x := fun hx => by
  rw [HoldsExclusive,hs] at hx
  exact absurd hx.2.symm Bool.false_ne_true

section Gate

variable {live : ℕ → Bool} {getState : ℕ → TxnState} {tid : Tid} {h : TupleHeader}
  {holders holders' : List ℕ} {self x : ℕ} {request : LockRequest}
  {verdict : Except HeapError RowLockGate}

theorem holderGate_other {l : List ℕ} (hx : x ∈ l) (hne : x ≠ self) :
    (holderGate l self request).1 ≠ .proceed ∧ x ∈ (holderGate l self request).2 ∧
      ((holderGate l self request).1 = .proceedNoStamp → request = .shared) := by
  cases request with
  | shared => exact ⟨nofun,mem_registerShareHolder.2 (.inr hx),fun _ => rfl⟩
  | writer | exclusive =>
    have hfind : l.find? (fun y => decide (y ≠ self)) ≠ none := fun hf =>
      absurd (List.find?_eq_none.1 hf x hx) (by simpa using hne)
    obtain ⟨b,hb⟩ := Option.ne_none_iff_exists'.1 hfind
    simp only [holderGate,hb]
    exact ⟨nofun,hx,nofun⟩

theorem shareStampGate_other {l : List ℕ} (hx : x ∈ l) (hne : x ≠ self) :
    (shareStampGate l self request).1 ≠ .proceed ∧ x ∈ (shareStampGate l self request).2 ∧
      ((shareStampGate l self request).1 = .proceedNoStamp → request = .shared) := by
  unfold shareStampGate
  split
  · exact holderGate_other hx hne
  · cases l with
    | nil => cases hx
    | cons b l =>
      cases request with
      | shared => exact ⟨nofun,mem_registerShareHolder.2 (.inr hx),fun _ => rfl⟩
      | writer | exclusive => exact ⟨nofun,hx,nofun⟩

theorem holderGate_self {l : List ℕ} (hself : self ∈ l) :
    self ∈ (holderGate l self request).2 ∨ (holderGate l self request).1 = .proceed := by
  cases request with
  | shared => exact .inl (mem_registerShareHolder.2 (.inl rfl))
  | writer | exclusive =>
    simp only [holderGate]
    split
    · exact .inl hself
    · exact .inr rfl

theorem holderGate_noStamp {l : List ℕ} (h : (holderGate l self request).1 = .proceedNoStamp) :
    request = .shared ∧ self ∈ (holderGate l self request).2 := by
  cases request with
  | shared => exact ⟨rfl,mem_registerShareHolder.2 (.inl rfl)⟩
  | writer | exclusive =>
    simp only [holderGate] at h
    split at h <;> cases h

theorem shareStampGate_noStamp {l : List ℕ}
    (h : (shareStampGate l self request).1 = .proceedNoStamp) :
    request = .shared ∧ self ∈ (shareStampGate l self request).2 := by
  unfold shareStampGate at h ⊢
  split at h
  · rename_i hself
    rw [if_pos hself]
    exact holderGate_noStamp h
  · rename_i hself
    rw [if_neg hself]
    cases l with
    | nil => cases h
    | cons b l =>
      cases request with
      | shared => exact ⟨rfl,mem_registerShareHolder.2 (.inl rfl)⟩
      | writer | exclusive => cases h

/-- Another live holder keeps its lock, nobody passes it to stamp, and sharing needs a share. -/
theorem rowLockGate_other
    (hg : rowLockGate live getState tid (some h) holders self request = (verdict,holders'))
    (hwf : h.WellFormed) (hx : HoldsShared h holders x) (hlive : live x = true) (hne : x ≠ self)
    (hpos : x ≠ TxnId.invalid) :
    verdict ≠ .ok .proceed ∧ HoldsShared h holders' x ∧
      (verdict = .ok .proceedNoStamp → request = .shared ∧ ¬HoldsExclusive h x) := by
  simp only [rowLockGate] at hg
  split at hg
  · rename_i h₀
    rcases hx with ⟨hs,-⟩ | hx
    · exact absurd h₀ (hwf hs).2
    · exact absurd (hx.1.symm.trans h₀) hpos
  split at hg
  · rename_i hself
    rcases hx with ⟨hs,hx⟩ | hx
    · have hmem : x ∈ holders := hx.resolve_left fun e => hne (e.symm.trans hself)
      rw [if_neg (by simp [(hwf hs).1]),if_pos hs] at hg
      split at hg
      · rename_i hreq
        cases hg
        exact ⟨nofun,.inl ⟨hs,.inr (mem_registerShareHolder.2 (.inr hmem))⟩,
          fun _ => ⟨hreq,not_holdsExclusive_of_share hs x⟩⟩
      · cases hg
        obtain ⟨hp,hin,hreq⟩ := @holderGate_other self x request _
          (mem_liveShareHolders.2 ⟨.inr hmem,hlive⟩) hne
        exact ⟨fun e => hp (Except.ok.inj e),.inl ⟨hs,.inr hin⟩,
          fun e => ⟨hreq (Except.ok.inj e),not_holdsExclusive_of_share hs x⟩⟩
    · exact absurd (hx.1.symm.trans hself) hne
  split at hg
  · rename_i hs
    have hmem : x = h.tXmax ∨ x ∈ holders := by
      rcases hx with ⟨-,hx⟩ | hx
      · exact hx.imp Eq.symm id
      · exact .inl hx.1.symm
    cases hg
    obtain ⟨hp,hin,hreq⟩ := @shareStampGate_other self x request _
      (mem_liveShareHolders.2 ⟨hmem,hlive⟩) hne
    exact ⟨fun e => hp (Except.ok.inj e),.inl ⟨hs,.inr hin⟩,
      fun e => ⟨hreq (Except.ok.inj e),not_holdsExclusive_of_share hs x⟩⟩
  · rename_i hs
    have hex : HoldsExclusive h x := hx.resolve_left fun hx => hs hx.1
    rw [if_pos (by rw [hex.1]; exact hlive)] at hg
    cases hg
    exact ⟨nofun,.inr hex,nofun⟩

/-- The caller's own shared lock survives, unless it is only registered and the caller may stamp. -/
theorem rowLockGate_self
    (hg : rowLockGate live getState tid (some h) holders self request = (verdict,holders'))
    (hwf : h.WellFormed) (hx : HoldsShared h holders self) (hlive : live self = true) :
    HoldsShared h holders' self ∨
      (verdict = .ok .proceed ∧ h.xmaxIsShare = true ∧ h.tXmax ≠ self ∧ self ∈ holders) := by
  by_cases hself : h.tXmax = self
  · cases hs : h.xmaxIsShare with
    | true => exact .inl (.inl ⟨hs,.inl hself⟩)
    | false => exact .inl (.inr ⟨hself,hs⟩)
  · obtain ⟨hs,hmem⟩ : h.xmaxIsShare = true ∧ self ∈ holders := by
      rcases hx with ⟨hs,hx⟩ | hx
      · exact ⟨hs,hx.resolve_left hself⟩
      · exact absurd hx.1 hself
    have hin : self ∈ liveShareHolders live holders h.tXmax :=
      mem_liveShareHolders.2 ⟨.inr hmem,hlive⟩
    simp only [rowLockGate,if_neg (hwf hs).2,if_neg hself,if_pos hs,shareStampGate,if_pos hin] at hg
    cases hg
    rcases @holderGate_self self request _ hin with hr | hr
    · exact .inl (.inl ⟨hs,.inr hr⟩)
    · exact .inr ⟨congrArg _ hr,hs,hself,hmem⟩

theorem rowLockGate_noStamp
    (hg : rowLockGate live getState tid (some h) holders self request =
      (.ok .proceedNoStamp,holders')) :
    request = .shared ∧ HoldsShared h holders' self := by
  simp only [rowLockGate] at hg
  split at hg
  · cases hg
  split at hg
  · rename_i hself
    split at hg
    · split at hg <;> cases hg
    split at hg
    · rename_i hs
      split at hg
      · rename_i hreq
        exact ⟨hreq,.inl ⟨hs,.inl hself⟩⟩
      · obtain ⟨hv,rfl⟩ := Prod.mk.inj hg
        obtain ⟨hreq,hin⟩ := holderGate_noStamp (Except.ok.inj hv)
        exact ⟨hreq,.inl ⟨hs,.inr hin⟩⟩
    · rename_i hs
      split at hg
      · rename_i hreq
        exact ⟨hreq,.inr ⟨hself,by simpa using hs⟩⟩
      · cases hg
  split at hg
  · rename_i hs
    obtain ⟨hv,rfl⟩ := Prod.mk.inj hg
    obtain ⟨hreq,hin⟩ := shareStampGate_noStamp (Except.ok.inj hv)
    exact ⟨hreq,.inl ⟨hs,.inr hin⟩⟩
  · split at hg
    · cases hg
    · split at hg <;> cases hg

theorem rowLockGate_shared
    (hg : rowLockGate live getState tid (some h) holders self .shared = (.ok .proceed,holders'))
    (hpos : self ≠ TxnId.invalid) : ¬HoldsExclusive h self := by
  rintro ⟨hself,hs⟩
  simp only [rowLockGate,hself,if_neg hpos,if_true,hs] at hg
  split at hg
  · rw [if_pos nofun] at hg
    cases hg
  · cases hg

/-- A delete is passed only by its own transaction, or when that has ended without a commit. -/
theorem rowLockGate_real
    (hg : rowLockGate live getState tid (some h) holders self request = (.ok .proceed,holders'))
    (hwf : h.WellFormed) (h₀ : h.tXmax ≠ TxnId.invalid) (hreal : h.xmaxLockOnly = false) :
    (h.tXmax = self ∧ request = .writer) ∨
      (live h.tXmax = false ∧ getState h.tXmax ≠ .committed) := by
  have hs : ¬h.xmaxIsShare = true := fun hs =>
    absurd (hreal.symm.trans (hwf hs).1) Bool.false_ne_true
  simp only [rowLockGate,if_neg h₀,if_neg hs,hreal] at hg
  split at hg
  · rename_i hself
    rw [if_pos Bool.false_ne_true] at hg
    split at hg
    · cases hg
    · rename_i hreq
      exact .inl ⟨hself,not_not.1 hreq⟩
  · split at hg
    · cases hg
    · rename_i hlive
      split at hg
      · cases hg
      · rename_i hst
        exact .inr ⟨by simpa using hlive,fun hc => hst ⟨hc,Bool.false_ne_true⟩⟩

theorem rowLockGate_dead
    (hg : rowLockGate live getState tid (some h) holders self request = (verdict,holders'))
    (hwf : h.WellFormed) (h₀ : h.tXmax ≠ TxnId.invalid) (hself : h.tXmax ≠ self)
    (hreal : h.xmaxLockOnly = false) (hst : getState h.tXmax = .committed) :
    verdict ≠ .ok .proceed := by
  rintro rfl
  rcases rowLockGate_real hg hwf h₀ hreal with hr | hr
  · exact hself hr.1
  · exact hr.2 hst

end Gate

end Heap
end PgAm
