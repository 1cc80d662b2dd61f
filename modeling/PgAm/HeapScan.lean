import PgAm.HeapSystem

/-! Scans of the heap. A scan looks at the tuples that have index entries of their own and
reaches the others through the links of their chain, up to the first version that the
snapshot sees. -/
namespace PgAm
namespace Heap

def TupleHeader.visible (h : TupleHeader) (snap : Snapshot) (getState : ℕ → TxnState) : Bool :=
  isVisible h.tXmin h.visibilityXmax h.tCid snap getState

section Page

variable (page : ℕ → Option TupleHeader) (slotCount pageId : ℕ) (snap : Snapshot)
  (getState : ℕ → TxnState)

/-- Follow a chain forward on its page; the number of slots bounds the walk. -/
def followHotChain : (hops : ℕ) → Tid → Except HeapError (Option Tid)
  | 0,_ => .error (.corrupted ("HOT chain on page " ++ PageId.display pageId ++
      s!" exceeds {slotCount} hops (cycle?)"))
  | hops + 1,tid =>
    if tid.pageId ≠ pageId then .ok none
    else match page tid.slotId with
      | none => .ok none
      | some h =>
        if h.visible snap getState then .ok (some tid)
        else if h.hotUpdated ∧ h.tCtid ≠ tid then followHotChain hops h.tCtid
        else .ok none

def scanSlot (slot : ℕ) : Except HeapError (Option Tid) :=
  match page slot with
  | none => .ok none
  | some h =>
    if h.heapOnly then .ok none
    else if h.visible snap getState then .ok (some ⟨pageId,slot⟩)
    else if h.hotUpdated ∧ h.tCtid ≠ ⟨pageId,slot⟩ then
      followHotChain page slotCount pageId snap getState slotCount h.tCtid
    else .ok none

def scanPage : Except HeapError (List Tid) := do
  let found ← (List.range slotCount).mapM (scanSlot page slotCount pageId snap getState)
  .ok (found.filterMap id)

end Page

def Sys.slotCount (s : Sys) (pageId : ℕ) : ℕ := (s.pages pageId).length

def Sys.scanBy (s : Sys) (slot : Tid → Option TupleHeader) (snap : Snapshot) :
    Except HeapError (List Tid) := do
  let found ← s.relation.mapM fun page =>
    scanPage (fun i => slot ⟨page,i⟩) (s.slotCount page) page snap s.manager.getState
  .ok found.flatten

def Sys.scan (s : Sys) (snap : Snapshot) : Except HeapError (List Tid) := s.scanBy s.tuple snap

def Sys.follow (s : Sys) (snap : Snapshot) (pageId hops : ℕ) (start : Tid) :
    Except HeapError (Option Tid) :=
  followHotChain (fun i => s.tuple ⟨pageId,i⟩) (s.slotCount pageId) pageId snap s.manager.getState
    hops start

section Follow

variable {s : Sys} {snap : Snapshot}

def Sys.Shows (s : Sys) (snap : Snapshot) (tid : Tid) : Prop :=
  ∃ h, s.tuple tid = some h ∧ h.visible snap s.manager.getState = true

def Sys.Next (s : Sys) (tid tid' : Tid) : Prop :=
  ∃ h, s.tuple tid = some h ∧ h.hotUpdated = true ∧ h.tCtid = tid'

/-- Links stay on their page and lead to a later slot that is not scanned itself. -/
structure Sys.Chained (s : Sys) : Prop where
  page : ∀ tid tid', s.Next tid tid' → tid'.pageId = tid.pageId
  slot : ∀ tid tid', s.Next tid tid' → tid.slotId < tid'.slotId
  target : ∀ tid tid', s.Next tid tid' → ∃ h, s.tuple tid' = some h ∧ h.heapOnly = true

theorem Sys.Next.unique {tid a b : Tid} (ha : s.Next tid a) (hb : s.Next tid b) : a = b := by
  obtain ⟨h,hh,-,rfl⟩ := ha
  obtain ⟨h',hh',-,rfl⟩ := hb
  rw [Option.some.inj (hh.symm.trans hh')]

theorem slot_lt {tid : Tid} {h : TupleHeader} (hh : s.tuple tid = some h) :
    tid.slotId < s.slotCount tid.pageId := (List.getElem?_eq_some_iff.1 hh).1

theorem Sys.Chained.ne (hc : s.Chained) {tid tid' : Tid} (h : s.Next tid tid') : tid' ≠ tid := by
  rintro rfl
  exact absurd (hc.slot _ _ h) (lt_irrefl _)

/-- The walk ends: at the first visible version, or after a last one that is not. -/
theorem followHotChain_spec (hc : s.Chained) {hops : ℕ} {tid : Tid} {h : TupleHeader}
    (hh : s.tuple tid = some h) (hhops : s.slotCount tid.pageId ≤ hops + tid.slotId) :
    ∃ r, s.follow snap tid.pageId hops tid = .ok r ∧
      (∀ v, r = some v → s.Shows snap v ∧ Relation.ReflTransGen s.Next tid v) ∧
      (r = none → ∀ v, Relation.ReflTransGen s.Next tid v → ¬s.Shows snap v) := by
  induction hops generalizing tid h with
  | zero => exact absurd (slot_lt hh) (by omega)
  | succ hops ih =>
    simp only [Sys.follow,followHotChain,ne_eq,not_true_eq_false,if_false,hh]
    by_cases hv : h.visible snap s.manager.getState = true
    · rw [if_pos hv]
      refine ⟨_,rfl,fun v hr => ?_,nofun⟩
      cases hr
      exact ⟨⟨h,hh,hv⟩,.refl⟩
    · rw [if_neg hv]
      have hno : ¬s.Shows snap tid := by
        rintro ⟨h',hh',hv'⟩
        rw [hh] at hh'
        cases hh'
        exact hv hv'
      by_cases hlink : h.hotUpdated = true
      · have hnext : s.Next tid h.tCtid := ⟨h,hh,hlink,rfl⟩
        obtain ⟨h',hh',-⟩ := hc.target _ _ hnext
        have hpage := hc.page _ _ hnext
        have hslot := hc.slot _ _ hnext
        rw [if_pos ⟨hlink,hc.ne hnext⟩]
        obtain ⟨r,hr,hsome,hnone⟩ := ih hh' (by rw [hpage]; omega)
        rw [hpage] at hr
        refine ⟨r,hr,fun v hv => ⟨(hsome v hv).1,.head hnext (hsome v hv).2⟩,fun hn v hreach => ?_⟩
        rcases hreach.cases_head with rfl | ⟨w,hw,hreach⟩
        · exact hno
        · rw [hw.unique hnext] at hreach
          exact hnone hn v hreach
      · rw [if_neg fun hl => hlink hl.1]
        refine ⟨none,rfl,nofun,fun _ v hreach => ?_⟩
        rcases hreach.cases_head with rfl | ⟨w,⟨h',hh',hl,-⟩,-⟩
        · exact hno
        · rw [hh] at hh'
          cases hh'
          exact absurd hl hlink

def Sys.IsRoot (s : Sys) (tid : Tid) : Prop := ∃ h, s.tuple tid = some h ∧ h.heapOnly = false

theorem scanSlot_eq {page : ℕ → Option TupleHeader} {slotCount pageId slot : ℕ}
    {getState : ℕ → TxnState} {h : TupleHeader} (hget : page slot = some h)
    (hroot : h.heapOnly = false) :
    scanSlot page slotCount pageId snap getState slot =
      followHotChain page slotCount pageId snap getState (slotCount + 1) ⟨pageId,slot⟩ := by
  simp only [scanSlot,followHotChain,hget,hroot,Bool.false_eq_true,if_false,ne_eq,not_true_eq_false]

def Sys.scanTid (s : Sys) (snap : Snapshot) (tid : Tid) : Except HeapError (Option Tid) :=
  scanSlot (fun i => s.tuple ⟨tid.pageId,i⟩) (s.slotCount tid.pageId) tid.pageId snap
    s.manager.getState tid.slotId

def Sys.found (s : Sys) (snap : Snapshot) (tid : Tid) : Option Tid :=
  (s.scanTid snap tid).toOption.join

theorem scanSlot_spec (hc : s.Chained) (tid : Tid) :
    s.scanTid snap tid = .ok (s.found snap tid) ∧
      (∀ v, s.found snap tid = some v →
        s.Shows snap v ∧ s.IsRoot tid ∧ Relation.ReflTransGen s.Next tid v) ∧
      (s.found snap tid = none → s.IsRoot tid →
        ∀ v, Relation.ReflTransGen s.Next tid v → ¬s.Shows snap v) := by
  by_cases hroot : s.IsRoot tid
  · obtain ⟨h,hh,honly⟩ := hroot
    obtain ⟨r,hr,hsome,hnone⟩ := @followHotChain_spec s snap hc
      (s.slotCount tid.pageId + 1) tid h hh (by omega)
    have heq : s.scanTid snap tid = s.follow snap tid.pageId (s.slotCount tid.pageId + 1) tid :=
      scanSlot_eq hh honly
    have hfound : s.found snap tid = r := by
      rw [Sys.found,heq,hr]
      rfl
    rw [hfound]
    exact ⟨heq.trans hr,fun v hv => ⟨(hsome v hv).1,⟨h,hh,honly⟩,(hsome v hv).2⟩,
      fun hn _ => hnone hn⟩
  · have heq : s.scanTid snap tid = .ok none := by
      cases hget : s.tuple tid with
      | none => simp only [Sys.scanTid,scanSlot,hget]
      | some h =>
        have honly : h.heapOnly = true := by
          by_contra hf
          exact hroot ⟨h,hget,by simpa using hf⟩
        simp only [Sys.scanTid,scanSlot,hget,honly,if_true]
    have hfound : s.found snap tid = none := by
      rw [Sys.found,heq]
      rfl
    rw [hfound]
    exact ⟨heq,nofun,fun _ h => absurd h hroot⟩

end Follow

theorem mapM_ok {ε α β : Type} {f : α → Except ε β} {g : α → β} {l : List α}
    (h : ∀ a ∈ l, f a = .ok (g a)) : l.mapM f = .ok (l.map g) := by
  induction l with
  | nil => rfl
  | cons a l ih =>
    rw [List.mapM_cons,h a List.mem_cons_self,ih fun b hb => h b (List.mem_cons_of_mem a hb)]
    rfl

def Sys.tids (s : Sys) : List Tid :=
  s.relation.flatMap fun page => (List.range (s.slotCount page)).map (Tid.mk page)

theorem scanPage_eq {s : Sys} {snap : Snapshot} (hc : s.Chained) (page : ℕ) :
    scanPage (fun i => s.tuple ⟨page,i⟩) (s.slotCount page) page snap s.manager.getState =
      .ok (((List.range (s.slotCount page)).map (Tid.mk page)).filterMap (s.found snap)) := by
  have hm : (List.range (s.slotCount page)).mapM
      (scanSlot (fun i => s.tuple ⟨page,i⟩) (s.slotCount page) page snap s.manager.getState) =
      .ok ((List.range (s.slotCount page)).map fun slot => s.found snap ⟨page,slot⟩) :=
    mapM_ok fun slot _ => (scanSlot_spec hc ⟨page,slot⟩).1
  rw [scanPage,hm]
  change Except.ok _ = _
  rw [List.filterMap_map,List.filterMap_map]
  rfl

theorem scan_eq {s : Sys} {snap : Snapshot} (hc : s.Chained) :
    s.scan snap = .ok (s.tids.filterMap (s.found snap)) := by
  have hm := mapM_ok (l := s.relation) fun page _ => @scanPage_eq s snap hc page
  rw [Sys.scan,Sys.scanBy,hm]
  change Except.ok _ = _
  rw [Sys.tids,List.filterMap_flatMap,List.flatMap_def]

theorem mem_tids {s : Sys} {tid : Tid} :
    tid ∈ s.tids ↔ tid.pageId ∈ s.relation ∧ ∃ h, s.tuple tid = some h := by
  simp only [Sys.tids,List.mem_flatMap,List.mem_map,List.mem_range]
  constructor
  · rintro ⟨page,hpage,slot,hslot,rfl⟩
    exact ⟨hpage,_,List.getElem?_eq_getElem hslot⟩
  · rintro ⟨hpage,h,hh⟩
    exact ⟨tid.pageId,hpage,tid.slotId,slot_lt hh,rfl⟩

theorem nodup_tids {s : Sys} (h : s.relation.Nodup) : s.tids.Nodup := by
  refine List.nodup_flatMap.2 ⟨fun page _ => ?_,h.imp fun {a b} hab => ?_⟩
  · exact List.nodup_range.map fun a b hab => (Tid.mk.inj hab).2
  · intro t ha hb
    obtain ⟨i,-,rfl⟩ := List.mem_map.1 ha
    obtain ⟨j,-,hj⟩ := List.mem_map.1 hb
    exact hab (Tid.mk.inj hj).1.symm

/-- The slot whose chain link leads to a tuple; the last one in slot order wins. -/
def linkTo (page : List TupleHeader) (tid : Tid) : Option ℕ :=
  (List.range page.length).reverse.find? fun slot =>
    (page[slot]?).any fun h => h.hotUpdated ∧ h.tCtid = tid

/-- Walk the links of a page backwards to the tuple that owns the index entries. -/
def hotChainRoot (page : List TupleHeader) (pageId : ℕ) : (hops : ℕ) → Tid → Except HeapError Tid
  | 0,_ =>
    let slotCount := page.length
    .error (.corrupted ("HOT chain root search on page " ++ PageId.display pageId ++
      s!" exceeds {slotCount} hops (cycle?)"))
  | hops + 1,cur =>
    match page[cur.slotId]? with
    | none => .ok cur
    | some h =>
      if ¬h.heapOnly then .ok cur
      else match linkTo page cur with
        | some slot => hotChainRoot page pageId hops ⟨pageId,slot⟩
        | none => .ok cur

def Sys.hotChainRoot (s : Sys) (tid : Tid) : Except HeapError Tid :=
  Heap.hotChainRoot (s.pages tid.pageId) tid.pageId (s.pages tid.pageId).length tid

section Root

variable {s : Sys}

theorem linkTo_eq (hc : s.Chained) (hu : ∀ a b c, s.Next a c → s.Next b c → a = b) {u v : Tid}
    (hn : s.Next u v) : linkTo (s.pages v.pageId) v = some u.slotId := by
  have hpage := hc.page u v hn
  obtain ⟨h,hh,hup,hv⟩ := hn
  have hlink : ((s.pages v.pageId)[u.slotId]?).any
    (fun h => h.hotUpdated ∧ h.tCtid = v) = true := by
    have hget : (s.pages v.pageId)[u.slotId]? = some h := by
      rw [hpage]
      exact hh
    rw [hget]
    exact decide_eq_true ⟨hup,hv⟩
  unfold linkTo
  cases hf : (List.range (s.pages v.pageId).length).reverse.find? fun slot =>
      ((s.pages v.pageId)[slot]?).any fun h => h.hotUpdated ∧ h.tCtid = v with
  | none =>
    have hlt := slot_lt hh
    have hmem : u.slotId ∈ (List.range (s.pages v.pageId).length).reverse := by
      rw [List.mem_reverse,List.mem_range,hpage]
      exact hlt
    exact absurd hlink (List.find?_eq_none.1 hf u.slotId hmem)
  | some slot =>
    have hslot := List.find?_some hf
    obtain ⟨h',hh',hup',hv'⟩ : ∃ h', (s.pages v.pageId)[slot]? = some h' ∧ h'.hotUpdated = true ∧
        h'.tCtid = v := by
      obtain ⟨h',hh',hp⟩ := (Option.any_eq_true _ _).1 hslot
      exact ⟨h',hh',of_decide_eq_true hp⟩
    have he := hu ⟨v.pageId,slot⟩ u v ⟨h',hh',hup',hv'⟩ ⟨h,hh,hup,hv⟩
    rw [← he]

theorem linkTo_eq_none {v : Tid} (hno : ∀ u, ¬s.Next u v) : linkTo (s.pages v.pageId) v = none := by
  refine List.find?_eq_none.2 fun slot _ hslot => hno ⟨v.pageId,slot⟩ ?_
  obtain ⟨h,hh,hp⟩ := (Option.any_eq_true _ _).1 hslot
  exact ⟨h,hh,of_decide_eq_true hp⟩

theorem hotChainRoot_first (hc : s.Chained) (hu : ∀ a b c, s.Next a c → s.Next b c → a = b)
    {r v : Tid} {h : TupleHeader} (hr : s.tuple r = some h)
    (hfirst : h.heapOnly = false ∨ ∀ u, ¬s.Next u r) (hreach : Relation.ReflTransGen s.Next r v) :
    s.hotChainRoot v = .ok r := by
  have hwalk : ∀ hops, v.slotId < hops →
      Heap.hotChainRoot (s.pages v.pageId) v.pageId hops v = .ok r := by
    induction hreach with
    | refl =>
      intro hops hlt
      obtain ⟨hops,rfl⟩ := Nat.exists_eq_succ_of_ne_zero (Nat.ne_zero_of_lt hlt)
      have hget : (s.pages r.pageId)[r.slotId]? = some h := hr
      simp only [Heap.hotChainRoot,hget]
      rcases hfirst with honly | hno
      · rw [if_pos (by rw [honly]; nofun)]
      · rw [linkTo_eq_none hno]
        exact ite_self _
    | @tail u v _ hn ih =>
      intro hops hlt
      obtain ⟨hops,rfl⟩ := Nat.exists_eq_succ_of_ne_zero (Nat.ne_zero_of_lt hlt)
      obtain ⟨h,hh,honly⟩ := hc.target u v hn
      have hget : (s.pages v.pageId)[v.slotId]? = some h := hh
      have hslot := hc.slot u v hn
      have hpage := hc.page u v hn
      simp only [Heap.hotChainRoot,hget,honly,not_true_eq_false,if_false,linkTo_eq hc hu hn]
      have hrec := ih hops (by omega)
      rw [hpage]
      exact hrec
  refine hwalk _ ?_
  rcases hreach.cases_tail with he | ⟨u,-,hn⟩
  · rw [he]
    exact slot_lt hr
  · obtain ⟨h,hh,-⟩ := hc.target u v hn
    exact slot_lt hh

/-- A tuple that is reached from one with index entries of its own has it as its root. -/
theorem hotChainRoot_eq (hc : s.Chained) (hu : ∀ a b c, s.Next a c → s.Next b c → a = b)
    {r v : Tid} (hr : s.IsRoot r) (hreach : Relation.ReflTransGen s.Next r v) :
    s.hotChainRoot v = .ok r := by
  obtain ⟨h,hh,honly⟩ := hr
  exact hotChainRoot_first hc hu hh (.inl honly) hreach

end Root

end Heap
end PgAm
