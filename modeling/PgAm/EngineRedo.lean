import PgAm.EngineOpen

/-! Redo over the pages on disk. Each heap page, the chain of the table's pages and each index
entry is on disk as of some point of the log at or behind the redo point, and its stamp tells the
records it has from those that it lacks. Redo from the redo point then ends with the pages of the
whole log, up to row locks and command numbers. -/
namespace PgAm
namespace EngineLog

open Heap Function
open Engine (Entry Schema Table)
open RecordStream (Item Contiguous stop)
open UndoLog (Op)

variable {K : Type} {gone : ℕ → Prop} {r r' q q' : Restored K} {p pos : ℕ} {tid : Tid}

namespace Record

def touches : Record K → ℕ → Prop
  | .heapInsert _ tid ..,p | .heapDelete _ tid,p => tid.pageId = p
  | .heapUpdate _ oldTid newTid ..,p => oldTid.pageId = p ∨ newTid.pageId = p
  | .heapHotUpdate _ pg ..,p => pg = p
  | _,_ => False

def links : Record K → Prop
  | .extend _ => True
  | _ => False

def names : Record K → Entry K → Prop
  | .index op,a => op.entry = a
  | _,_ => False

/-- The outcomes after the record. -/
def settle (clog : ℕ → TxnState) : Record K → ℕ → TxnState
  | .txnCommit xid => update clog xid .committed
  | .txnAbort xid => update clog xid .aborted
  | _ => clog

end Record

/-- A row lock may stand over no deleter, or one that did not commit; the command may differ. -/
structure ImageOf (gone : ℕ → Prop) (hd hd' : TupleHeader) : Prop where
  tXmin : hd'.tXmin = hd.tXmin
  heapOnly : hd'.heapOnly = hd.heapOnly
  hotUpdated : hd'.hotUpdated = hd.hotUpdated
  tCtid : hd'.tCtid = hd.tCtid
  tXmax : (hd'.tXmax = hd.tXmax ∧ hd'.xmaxLockOnly = hd.xmaxLockOnly) ∨
    hd'.xmaxLockOnly = true ∧ (hd.tXmax = TxnId.invalid ∨ gone hd.tXmax)

theorem ImageOf.refl (hd : TupleHeader) : ImageOf gone hd hd := ⟨rfl,rfl,rfl,rfl,.inl ⟨rfl,rfl⟩⟩

structure AlikeAt (gone : ℕ → Prop) (r q : Restored K) (tid : Tid) : Prop where
  tuple : Option.Rel (ImageOf gone) (r.heap.tuple tid) (q.heap.tuple tid)
  values : ∀ hd, r.heap.tuple tid = some hd → q.values tid = r.values tid

def SamePage (gone : ℕ → Prop) (p : ℕ) (r q : Restored K) : Prop :=
  ∀ tid, tid.pageId = p → AlikeAt gone r q tid

/-- Nothing but a page differs. -/
structure Elsewhere (p : ℕ) (r r' : Restored K) : Prop where
  tuple : ∀ tid, tid.pageId ≠ p → r'.heap.tuple tid = r.heap.tuple tid
  values : ∀ tid, tid.pageId ≠ p → r'.values tid = r.values tid
  manager : r'.heap.manager = r.heap.manager
  relation : r'.heap.relation = r.heap.relation
  index : r'.index = r.index

section Pages

variable {u : Tid} {f : TupleHeader → TupleHeader} {header : TupleHeader}
  {values : List (Option K)}

theorem Elsewhere.rfl : Elsewhere p r r :=
  ⟨fun _ _ => .refl _,fun _ _ => .refl _,.refl _,.refl _,.refl _⟩

theorem Elsewhere.trans {r'' : Restored K} (h : Elsewhere p r r') (h' : Elsewhere p r' r'') :
    Elsewhere p r r'' :=
  ⟨fun tid hne => (h'.tuple tid hne).trans (h.tuple tid hne),
    fun tid hne => (h'.values tid hne).trans (h.values tid hne),h'.manager.trans h.manager,
    h'.relation.trans h.relation,h'.index.trans h.index⟩

theorem stamp_eq_some (h : r.stamp u f = some r') :
    (∃ hd, r.heap.tuple u = some hd) ∧ r' = { r with heap := r.heap.modifyTuple u f } := by
  rw [Restored.stamp] at h
  split at h
  · cases h
  · rename_i hd hh
    cases h
    exact ⟨⟨hd,hh⟩,rfl⟩

theorem elsewhere_stamp (h : r.stamp u f = some r') : Elsewhere u.pageId r r' := by
  obtain ⟨-,rfl⟩ := stamp_eq_some h
  refine ⟨fun tid hne => tuple_modifyTuple_of_ne fun he => hne (by rw [he]),fun _ _ => rfl,rfl,rfl,
    rfl⟩

theorem elsewhere_add (h : r.add u header values = some r') : Elsewhere u.pageId r r' := by
  obtain ⟨hn,rfl⟩ := of_guard h
  refine ⟨fun tid hne => tuple_addTuple_of_ne fun he => hne ?_,
    fun tid hne => update_of_ne (fun he => hne (by rw [he])) ..,rfl,rfl,rfl⟩
  rw [he]
  rfl

theorem SamePage.newTid_eq (h : SamePage gone p r q) : q.heap.newTid p = r.heap.newTid p := by
  have hnone : ∀ i, (r.heap.pages p).length ≤ i ↔ (q.heap.pages p).length ≤ i := fun i => by
    have hrel : Option.Rel _ (r.heap.pages p)[i]? (q.heap.pages p)[i]? := (h ⟨p,i⟩ rfl).tuple
    rw [← List.getElem?_eq_none_iff,← List.getElem?_eq_none_iff]
    generalize (r.heap.pages p)[i]? = x, (q.heap.pages p)[i]? = y at hrel
    cases hrel with
    | some => exact ⟨nofun,nofun⟩
    | none => exact Iff.rfl
  have hlen : (q.heap.pages p).length = (r.heap.pages p).length :=
    le_antisymm ((hnone _).1 le_rfl) ((hnone _).2 le_rfl)
  rw [Sys.newTid,Sys.newTid,hlen]

theorem SamePage.stamp (h : SamePage gone u.pageId r q) (hr : r.stamp u f = some r')
    (hf : ∀ hd hd', ImageOf gone hd hd' → ImageOf gone (f hd) (f hd')) :
    ∃ q', q.stamp u f = some q' ∧ SamePage gone u.pageId r' q' := by
  obtain ⟨⟨hd,hh⟩,rfl⟩ := stamp_eq_some hr
  have hrel := (h u rfl).tuple
  obtain ⟨hd',hh',himage⟩ : ∃ hd', q.heap.tuple u = some hd' ∧ ImageOf gone hd hd' := by
    rw [hh] at hrel
    generalize q.heap.tuple u = y at hrel
    cases hrel with
    | some hi => exact ⟨_,rfl,hi⟩
  refine ⟨_,by rw [Restored.stamp,hh'],fun tid hp => ?_⟩
  by_cases he : tid = u
  · subst he
    refine ⟨?_,fun _ _ => (h tid rfl).values hd hh⟩
    change Option.Rel _ ((r.heap.modifyTuple tid f).tuple tid)
      ((q.heap.modifyTuple tid f).tuple tid)
    rw [tuple_modifyTuple_self,tuple_modifyTuple_self,hh,hh']
    exact .some (hf _ _ himage)
  · obtain ⟨ht,hv⟩ := h tid hp
    constructor
    · change Option.Rel _ ((r.heap.modifyTuple u f).tuple tid) ((q.heap.modifyTuple u f).tuple tid)
      rwa [tuple_modifyTuple_of_ne he,tuple_modifyTuple_of_ne he]
    · intro hd hh
      change (r.heap.modifyTuple u f).tuple tid = some hd at hh
      rw [tuple_modifyTuple_of_ne he] at hh
      exact hv hd hh

theorem SamePage.add (h : SamePage gone u.pageId r q) (hr : r.add u header values = some r') :
    ∃ q', q.add u header values = some q' ∧ SamePage gone u.pageId r' q' := by
  obtain ⟨hn,rfl⟩ := of_guard hr
  have hn' : q.heap.newTid u.pageId = u := h.newTid_eq.trans hn
  refine ⟨_,if_pos hn',fun tid hp => ?_⟩
  by_cases he : tid = u
  · subst he
    refine ⟨?_,fun _ _ => ?_⟩
    · have h₁ := @tuple_addTuple_newTid r.heap tid.pageId header
      have h₂ := @tuple_addTuple_newTid q.heap tid.pageId header
      rw [hn] at h₁
      rw [hn'] at h₂
      change Option.Rel _ ((r.heap.addTuple tid.pageId header).tuple tid)
        ((q.heap.addTuple tid.pageId header).tuple tid)
      rw [h₁,h₂]
      exact .some (.refl header)
    · change update q.values tid values tid = update r.values tid values tid
      rw [update_self,update_self]
  · obtain ⟨ht,hv⟩ := h tid hp
    have h₁ := @tuple_addTuple_of_ne r.heap tid u.pageId header (by rw [hn]; exact he)
    have h₂ := @tuple_addTuple_of_ne q.heap tid u.pageId header (by rw [hn']; exact he)
    constructor
    · change Option.Rel _ ((r.heap.addTuple u.pageId header).tuple tid)
        ((q.heap.addTuple u.pageId header).tuple tid)
      rwa [h₁,h₂]
    · intro hd hh
      change (r.heap.addTuple u.pageId header).tuple tid = some hd at hh
      rw [h₁] at hh
      exact (update_of_ne he ..).trans ((hv hd hh).trans (update_of_ne he ..).symm)

theorem imageOf_stampDeleted (x : ℕ) (b : Bool) (hd hd' : TupleHeader) (h : ImageOf gone hd hd') :
    ImageOf gone (stampDeleted hd x b) (stampDeleted hd' x b) :=
  ⟨h.tXmin,h.heapOnly,h.hotUpdated,h.tCtid,.inl ⟨rfl,rfl⟩⟩

theorem imageOf_stampHotUpdate (x : ℕ) (u : Tid) (hd hd' : TupleHeader) (h : ImageOf gone hd hd') :
    ImageOf gone (stampHotUpdate hd x u) (stampHotUpdate hd' x u) :=
  ⟨h.tXmin,h.heapOnly,rfl,rfl,.inl ⟨rfl,rfl⟩⟩

theorem SamePage.elsewhere {p₁ p₂ : ℕ} (h : SamePage gone p r q) (hr : Elsewhere p₁ r r')
    (hq : Elsewhere p₂ q q') (h₁ : p ≠ p₁) (h₂ : p ≠ p₂) : SamePage gone p r' q' := by
  intro tid hp
  obtain ⟨ht,hv⟩ := h tid hp
  have hne₁ : tid.pageId ≠ p₁ := by rwa [hp]
  have hne₂ : tid.pageId ≠ p₂ := by rwa [hp]
  refine ⟨by rwa [hr.tuple tid hne₁,hq.tuple tid hne₂],fun hd hh => ?_⟩
  rw [hr.tuple tid hne₁] at hh
  rw [hq.values tid hne₂,hr.values tid hne₁]
  exact hv hd hh

end Pages

variable {rec : Record K} {st st' st₁ : Restored K × PageLsns K}

/-- What the redo of a record leaves alone. -/
structure RedoFrame (rec : Record K) (r r' : Restored K) : Prop where
  tuple : ∀ tid, ¬rec.touches tid.pageId → r'.heap.tuple tid = r.heap.tuple tid
  values : ∀ tid, ¬rec.touches tid.pageId → r'.values tid = r.values tid
  relation : ¬rec.links → r'.heap.relation = r.heap.relation
  index : ∀ a, ¬rec.names a → (a ∈ r'.index ↔ a ∈ r.index)
  clog : r'.heap.manager.clog = rec.settle r.heap.manager.clog
  active : r'.heap.manager.active = r.heap.manager.active

theorem Elsewhere.frame (h : Elsewhere p r r') (ht : rec.touches p)
    (hs : rec.settle r.heap.manager.clog = r.heap.manager.clog) : RedoFrame rec r r' :=
  ⟨fun tid hne => h.tuple tid fun he => hne (he ▸ ht),
    fun tid hne => h.values tid fun he => hne (he ▸ ht),fun _ => h.relation,
    fun a _ => by rw [h.index],by rw [h.manager,hs],by rw [h.manager]⟩

theorem SamePage.frame (h : SamePage gone p r q) (hr : RedoFrame rec r r') (hp : ¬rec.touches p) :
    SamePage gone p r' q := by
  intro tid he
  obtain ⟨ht,hv⟩ := h tid he
  have hne : ¬rec.touches tid.pageId := by rwa [he]
  refine ⟨by rwa [hr.tuple tid hne],fun hd hh => ?_⟩
  rw [hr.tuple tid hne] at hh
  rw [hr.values tid hne]
  exact hv hd hh

theorem SamePage.frame_image (h : SamePage gone p r q) (hq : RedoFrame rec q q')
    (hp : ¬rec.touches p) : SamePage gone p r q' := by
  intro tid he
  obtain ⟨ht,hv⟩ := h tid he
  have hne : ¬rec.touches tid.pageId := by rwa [he]
  exact ⟨by rwa [hq.tuple tid hne],fun hd hh => (hq.values tid hne).trans (hv hd hh)⟩

/-- How the image of an object on disk goes along with a record. -/
structure Follows (touched : Prop) (pos lsn lsn' : ℕ) (image image' : Restored K → Prop)
    (r r' : Restored K) : Prop where
  kept : (touched → pos ≤ lsn) → lsn' = lsn ∧ ∀ x, image x → image' x
  redone : touched → lsn < pos → image r → lsn' = pos ∧ image' r'
  missed : ¬touched → image r → image r'

theorem Follows.untouched {touched : Prop} {lsn lsn' : ℕ} {image image' : Restored K → Prop}
    (ht : ¬touched) (hl : lsn' = lsn) (hi : ∀ x, image x → image' x) (hm : image r → image r') :
    Follows touched pos lsn lsn' image image' r r' :=
  ⟨fun _ => ⟨hl,hi⟩,fun h => absurd h ht,fun _ => hm⟩

structure Redoes (gone : ℕ → Prop) (rec : Record K) (pos : ℕ) (r r' : Restored K)
    (st st' : Restored K × PageLsns K) : Prop where
  page : ∀ p, Follows (rec.touches p) pos (st.2.page p) (st'.2.page p) (SamePage gone p · st.1)
    (SamePage gone p · st'.1) r r'
  relation : Follows rec.links pos st.2.relation st'.2.relation
    (st.1.heap.relation = ·.heap.relation) (st'.1.heap.relation = ·.heap.relation) r r'
  entry : ∀ a, Follows (rec.names a) pos (st.2.entry a) (st'.2.entry a)
    (fun x => a ∈ st.1.index ↔ a ∈ x.index) (fun x => a ∈ st'.1.index ↔ a ∈ x.index) r r'
  clog : st'.1.heap.manager.clog = rec.settle st.1.heap.manager.clog
  active : st'.1.heap.manager.active = st.1.heap.manager.active

theorem RedoFrame.same (hs : rec.settle r.heap.manager.clog = r.heap.manager.clog) :
    RedoFrame rec r r :=
  ⟨fun _ _ => rfl,fun _ _ => rfl,fun _ => rfl,fun _ _ => Iff.rfl,hs.symm,rfl⟩

theorem RedoFrame.follows_relation (hr : RedoFrame rec r r') (hno : ¬rec.links)
    (hq : RedoFrame rec st.1 st'.1) (hl : st'.2.relation = st.2.relation) :
    Follows rec.links pos st.2.relation st'.2.relation (st.1.heap.relation = ·.heap.relation)
      (st'.1.heap.relation = ·.heap.relation) r r' :=
  .untouched hno hl (fun _ hx => (hq.relation hno).trans hx)
    fun hx => hx.trans (hr.relation hno).symm

theorem RedoFrame.follows_entry {a : Entry K} (hr : RedoFrame rec r r') (hno : ¬rec.names a)
    (hq : RedoFrame rec st.1 st'.1) (hl : st'.2.entry a = st.2.entry a) :
    Follows (rec.names a) pos (st.2.entry a) (st'.2.entry a)
      (fun x => a ∈ st.1.index ↔ a ∈ x.index) (fun x => a ∈ st'.1.index ↔ a ∈ x.index) r r' :=
  .untouched hno hl (fun _ hx => (hq.index a hno).trans hx)
    fun hx => hx.trans (hr.index a hno).symm

theorem redoes_pageless (hno : ∀ p, ¬rec.touches p) (hr : RedoFrame rec r r')
    (hq : RedoFrame rec st.1 st'.1) (hp : st'.2.page = st.2.page)
    (hrel : Follows rec.links pos st.2.relation st'.2.relation
      (st.1.heap.relation = ·.heap.relation) (st'.1.heap.relation = ·.heap.relation) r r')
    (hentry : ∀ a, Follows (rec.names a) pos (st.2.entry a) (st'.2.entry a)
      (fun x => a ∈ st.1.index ↔ a ∈ x.index) (fun x => a ∈ st'.1.index ↔ a ∈ x.index) r r') :
    Redoes gone rec pos r r' st st' :=
  ⟨fun p => .untouched (hno p) (congrFun hp p) (fun _ hx => hx.frame_image hq (hno p))
    (·.frame hr (hno p)),hrel,hentry,hq.clog,hq.active⟩

/-- One page has been redone, or was found to be done. -/
structure PageRedone (p pos : ℕ) (done : Restored K → Prop) (st st' : Restored K × PageLsns K) :
    Prop where
  elsewhere : Elsewhere p st.1 st'.1
  lsns : ∀ p' ≠ p, st'.2.page p' = st.2.page p'
  relationLsn : st'.2.relation = st.2.relation
  entryLsn : st'.2.entry = st.2.entry
  skipped : pos ≤ st.2.page p → st' = st
  redone : st.2.page p < pos → st'.2.page p = pos ∧ done st'.1

theorem onPage_redone (st : Restored K × PageLsns K) (redo : Restored K → Option (Restored K))
    {done : Restored K → Prop}
    (hredo : st.2.page p < pos → ∃ q, redo st.1 = some q ∧ done q)
    (hother : ∀ q, redo st.1 = some q → Elsewhere p st.1 q) :
    ∃ st', onPage st p pos redo = some st' ∧ PageRedone p pos done st st' := by
  by_cases hlt : st.2.page p < pos
  · obtain ⟨q,hq,hdone⟩ := hredo hlt
    have hst : onPage st p pos redo = some (q,{ st.2 with page := update st.2.page p pos }) := by
      rw [onPage,if_pos hlt,hq]
      rfl
    exact ⟨_,hst,hother q hq,fun _ hne => update_of_ne hne ..,rfl,rfl,
      fun hle => absurd hlt (not_lt.2 hle),fun _ => ⟨update_self ..,hdone⟩⟩
  · exact ⟨st,if_neg hlt,.rfl,fun _ _ => rfl,rfl,rfl,
      fun _ => rfl,fun h => absurd h hlt⟩

theorem PageRedone.redoes (h : PageRedone p pos (SamePage gone p r') st st')
    (hr : RedoFrame rec r r') (hp : ∀ p', rec.touches p' ↔ p = p') (hlinks : ¬rec.links)
    (hnames : ∀ a, ¬rec.names a)
    (hs : rec.settle st.1.heap.manager.clog = st.1.heap.manager.clog) :
    Redoes gone rec pos r r' st st' where
  page p' := by
    by_cases he : p = p'
    · subst he
      refine ⟨fun hle => ?_,fun _ hlt _ => h.redone hlt,fun hne => absurd ((hp p).2 rfl) hne⟩
      rw [h.skipped (hle ((hp p).2 rfl))]
      exact ⟨rfl,fun _ => id⟩
    · have hne : ¬rec.touches p' := fun ht => he ((hp p').1 ht)
      exact .untouched hne (h.lsns p' (Ne.symm he))
        (fun x hx => hx.elsewhere .rfl h.elsewhere (Ne.symm he) (Ne.symm he)) (·.frame hr hne)
  relation := .untouched hlinks h.relationLsn (fun x hx => h.elsewhere.relation.trans hx)
    fun hx => hx.trans (hr.relation hlinks).symm
  entry a := .untouched (hnames a) (congrFun h.entryLsn a)
    (fun x hx => by rwa [h.elsewhere.index]) fun hx => hx.trans (hr.index a (hnames a)).symm
  clog := by rw [h.elsewhere.manager,hs]
  active := by rw [h.elsewhere.manager]

theorem SamePage.stampAdd {u v : Tid} {f : TupleHeader → TupleHeader} {header : TupleHeader}
    {values : List (Option K)} (h : SamePage gone u.pageId r q) (hv : v.pageId = u.pageId)
    (hf : ∀ hd hd', ImageOf gone hd hd' → ImageOf gone (f hd) (f hd'))
    (hr : (r.stamp u f).bind (·.add v header values) = some r') :
    ∃ q', (q.stamp u f).bind (·.add v header values) = some q' ∧ SamePage gone u.pageId r' q' := by
  obtain ⟨r₁,hr₁,hadd⟩ := Option.bind_eq_some_iff.1 hr
  obtain ⟨q₁,hq₁,hsame⟩ := h.stamp hr₁ hf
  rw [← hv] at hsame
  obtain ⟨q₂,hq₂,hsame⟩ := hsame.add hadd
  exact ⟨q₂,Option.bind_eq_some_iff.2 ⟨q₁,hq₁,hq₂⟩,hv ▸ hsame⟩

theorem elsewhere_stampAdd {u v : Tid} {f : TupleHeader → TupleHeader} {header : TupleHeader}
    {values : List (Option K)} (hv : v.pageId = u.pageId)
    (hr : (r.stamp u f).bind (·.add v header values) = some r') : Elsewhere u.pageId r r' := by
  obtain ⟨r₁,hr₁,hadd⟩ := Option.bind_eq_some_iff.1 hr
  have h₂ := elsewhere_add hadd
  rw [hv] at h₂
  exact (elsewhere_stamp hr₁).trans h₂

variable [DecidableEq K]

theorem mem_run_entry (op : Op (Entry K)) (s t : List (Entry K)) :
    op.entry ∈ op.run s ↔ op.entry ∈ op.run t := by
  cases op with
  | inserted e => simp only [UndoLog.mem_run_inserted,Op.entry,true_or]
  | deleted e => simp only [UndoLog.mem_run_deleted,Op.entry,ne_eq,not_true,and_false]

theorem redo_frame (h : r.redo rec = some r') : RedoFrame rec r r' := by
  cases rec with
  | heapInsert xid tid header values => exact (elsewhere_add h).frame rfl rfl
  | heapDelete xid tid => exact (elsewhere_stamp h).frame rfl rfl
  | heapHotUpdate xid page oldSlot newSlot header values =>
    obtain ⟨q,hq,hadd⟩ := Option.bind_eq_some_iff.1 h
    have h₁ : Elsewhere page r q := elsewhere_stamp hq
    exact (h₁.trans (elsewhere_add hadd)).frame rfl rfl
  | heapUpdate xid oldTid newTid header values =>
    obtain ⟨q,hq,hadd⟩ := Option.bind_eq_some_iff.1 h
    have h₁ := elsewhere_stamp hq
    have h₂ := elsewhere_add hadd
    refine ⟨fun tid hne => ?_,fun tid hne => ?_,fun _ => h₂.relation.trans h₁.relation,
      fun a _ => by rw [h₂.index,h₁.index],by rw [h₂.manager,h₁.manager]; rfl,
      by rw [h₂.manager,h₁.manager]⟩
    all_goals
      have hne₁ : tid.pageId ≠ oldTid.pageId := fun he => hne (.inl he.symm)
      have hne₂ : tid.pageId ≠ newTid.pageId := fun he => hne (.inr he.symm)
    · rw [h₂.tuple tid hne₂,h₁.tuple tid hne₁]
    · rw [h₂.values tid hne₂,h₁.values tid hne₁]
  | extend page =>
    cases h
    exact ⟨fun _ _ => rfl,fun _ _ => rfl,fun hn => absurd trivial hn,fun _ _ => Iff.rfl,rfl,rfl⟩
  | index op =>
    cases h
    refine ⟨fun _ _ => rfl,fun _ _ => rfl,fun _ => rfl,fun a hne => ?_,rfl,rfl⟩
    have hne : op.entry ≠ a := hne
    cases op with
    | inserted e => exact UndoLog.mem_run_inserted.trans (or_iff_right hne.symm)
    | deleted e => exact UndoLog.mem_run_deleted.trans (and_iff_left hne.symm)
  | txnCommit xid | txnAbort xid | checkpointBegin | checkpointEnd b | page =>
    cases h
    exact ⟨fun _ _ => rfl,fun _ _ => rfl,fun _ => rfl,fun _ _ => Iff.rfl,rfl,rfl⟩

theorem redoes_twoPages {xid : ℕ} {u v : Tid} {header : TupleHeader} {values : List (Option K)}
    (hne : u.pageId ≠ v.pageId) (hr : r.redo (.heapUpdate xid u v header values) = some r')
    (hu : st.2.page u.pageId < pos → SamePage gone u.pageId r st.1)
    (hv : st.2.page v.pageId < pos → SamePage gone v.pageId r st.1) :
    ∃ st', redoAt st (pos,.heapUpdate xid u v header values) = some st' ∧
      Redoes gone (.heapUpdate xid u v header values) pos r r' st st' := by
  have hframe := redo_frame hr
  obtain ⟨r₁,hr₁,hadd⟩ := Option.bind_eq_some_iff.1 hr
  have hold := elsewhere_stamp hr₁
  have hnew := elsewhere_add hadd
  obtain ⟨st₁,hst₁,h₁⟩ := onPage_redone st (·.stamp u (stampDeleted · xid true))
    (fun hlt => (hu hlt).stamp hr₁ (imageOf_stampDeleted xid true)) fun q hq => elsewhere_stamp hq
  have hlsn : st₁.2.page v.pageId = st.2.page v.pageId := h₁.lsns _ hne.symm
  obtain ⟨st',hst',h₂⟩ := onPage_redone st₁ (·.add v header values)
    (fun hlt => ((hv (hlsn ▸ hlt)).elsewhere hold h₁.elsewhere hne.symm hne.symm).add hadd)
    fun q hq => elsewhere_add hq
  refine ⟨st',(if_neg hne).trans (Option.bind_eq_some_iff.2 ⟨st₁,hst₁,hst'⟩),fun p => ?_,?_,
    fun a => ?_,?_,?_⟩
  · by_cases hpu : u.pageId = p
    · subst hpu
      have hkeep : st'.2.page u.pageId = st₁.2.page u.pageId := h₂.lsns _ hne
      refine ⟨fun hle => ?_,fun _ hlt _ => ?_,fun hno => absurd (.inl rfl) hno⟩
      · obtain rfl := h₁.skipped (hle (.inl rfl))
        exact ⟨hkeep,fun x hx => hx.elsewhere .rfl h₂.elsewhere hne hne⟩
      · obtain ⟨hl,hsame⟩ := h₁.redone hlt
        exact ⟨hkeep.trans hl,hsame.elsewhere hnew h₂.elsewhere hne hne⟩
    · by_cases hpv : v.pageId = p
      · subst hpv
        refine ⟨fun hle => ?_,fun _ hlt _ => h₂.redone (hlsn.symm ▸ hlt),
          fun hno => absurd (.inr rfl) hno⟩
        obtain rfl := h₂.skipped (hlsn.symm ▸ hle (.inr rfl))
        exact ⟨hlsn,fun x hx => hx.elsewhere .rfl h₁.elsewhere hne.symm hne.symm⟩
      · have hno : ¬(Record.heapUpdate xid u v header values).touches p := fun ht =>
          ht.elim hpu hpv
        refine .untouched hno ((h₂.lsns p (Ne.symm hpv)).trans (h₁.lsns p (Ne.symm hpu)))
          (fun x hx => ?_) (·.frame hframe hno)
        exact (hx.elsewhere .rfl h₁.elsewhere (Ne.symm hpu) (Ne.symm hpu)).elsewhere .rfl
          h₂.elsewhere (Ne.symm hpv) (Ne.symm hpv)
  · exact .untouched id (h₂.relationLsn.trans h₁.relationLsn)
      (fun x hx => h₂.elsewhere.relation.trans (h₁.elsewhere.relation.trans hx))
      fun hx => hx.trans (hframe.relation id).symm
  · exact .untouched id (by rw [h₂.entryLsn,h₁.entryLsn])
      (fun x hx => by rwa [h₂.elsewhere.index,h₁.elsewhere.index])
      fun hx => hx.trans (hframe.index a id).symm
  · rw [h₂.elsewhere.manager,h₁.elsewhere.manager]
    rfl
  · rw [h₂.elsewhere.manager,h₁.elsewhere.manager]

theorem redoAt_redoes (hr : r.redo rec = some r')
    (hpages : ∀ p, rec.touches p → st.2.page p < pos → SamePage gone p r st.1) :
    ∃ st', redoAt st (pos,rec) = some st' ∧ Redoes gone rec pos r r' st st' := by
  have hframe := redo_frame hr
  cases rec with
  | heapInsert xid tid header values =>
    obtain ⟨st',hst,hdone⟩ := onPage_redone st (·.redo (.heapInsert xid tid header values))
      (fun hlt => (hpages tid.pageId rfl hlt).add hr) fun q hq => elsewhere_add hq
    exact ⟨st',hst,hdone.redoes hframe (fun _ => Iff.rfl) id (fun _ => id) rfl⟩
  | heapDelete xid tid =>
    obtain ⟨st',hst,hdone⟩ := onPage_redone st (·.redo (.heapDelete xid tid))
      (fun hlt => (hpages tid.pageId rfl hlt).stamp hr (imageOf_stampDeleted xid false))
      fun q hq => elsewhere_stamp hq
    exact ⟨st',hst,hdone.redoes hframe (fun _ => Iff.rfl) id (fun _ => id) rfl⟩
  | heapHotUpdate xid page oldSlot newSlot header values =>
    have hsame : st.2.page page < pos → SamePage gone (⟨page,oldSlot⟩ : Tid).pageId r st.1 :=
      hpages page rfl
    obtain ⟨st',hst,hdone⟩ := onPage_redone st
      (·.redo (.heapHotUpdate xid page oldSlot newSlot header values))
      (fun hlt => (hsame hlt).stampAdd (v := ⟨page,newSlot⟩) rfl
        (imageOf_stampHotUpdate xid ⟨page,newSlot⟩) hr)
      fun q hq => elsewhere_stampAdd (u := ⟨page,oldSlot⟩) (v := ⟨page,newSlot⟩) rfl hq
    exact ⟨st',hst,hdone.redoes hframe (fun _ => Iff.rfl) id (fun _ => id) rfl⟩
  | heapUpdate xid u v header values =>
    by_cases hp : u.pageId = v.pageId
    · obtain ⟨st',hst,hdone⟩ := onPage_redone st (·.redo (.heapUpdate xid u v header values))
        (fun hlt => (hpages u.pageId (.inl rfl) hlt).stampAdd hp.symm
          (imageOf_stampDeleted xid true) hr)
        fun q hq => elsewhere_stampAdd hp.symm hq
      exact ⟨st',(if_pos hp).trans hst,hdone.redoes hframe
        (fun _ => by rw [Record.touches,← hp,or_self]) id (fun _ => id) rfl⟩
    · exact redoes_twoPages hp hr (hpages _ (.inl rfl)) (hpages _ (.inr rfl))
  | extend page =>
    by_cases hlt : st.2.relation < pos
    · refine ⟨_,if_pos hlt,redoes_pageless (fun _ => id) hframe (redo_frame rfl) rfl
        ⟨fun hle => absurd hlt (not_lt.2 (hle trivial)),fun _ _ hx => ⟨rfl,?_⟩,
          fun hno => absurd trivial hno⟩ fun a => hframe.follows_entry id (redo_frame rfl) rfl⟩
      cases hr
      exact congrArg (· ++ [page]) hx
    · exact ⟨st,if_neg hlt,redoes_pageless (fun _ => id) hframe (.same rfl) rfl
        ⟨fun _ => ⟨rfl,fun _ => id⟩,fun _ h => absurd h hlt,fun hno => absurd trivial hno⟩
        fun a => hframe.follows_entry id (.same rfl) rfl⟩
  | index op =>
    by_cases hlt : st.2.entry op.entry < pos
    · refine ⟨_,if_pos hlt,redoes_pageless (fun _ => id) hframe (redo_frame rfl) rfl
        (hframe.follows_relation id (redo_frame rfl) rfl) fun a => ?_⟩
      by_cases ha : op.entry = a
      · subst ha
        refine ⟨fun hle => absurd hlt (not_lt.2 (hle rfl)),fun _ _ _ => ⟨update_self ..,?_⟩,
          fun hno => absurd rfl hno⟩
        cases hr
        exact mem_run_entry ..
      · exact hframe.follows_entry ha (redo_frame rfl) (update_of_ne (Ne.symm ha) ..)
    · refine ⟨st,if_neg hlt,redoes_pageless (fun _ => id) hframe (.same rfl) rfl
        (hframe.follows_relation id (.same rfl) rfl) fun a => ?_⟩
      by_cases ha : op.entry = a
      · subst ha
        exact ⟨fun _ => ⟨rfl,fun _ => id⟩,fun _ h => absurd h hlt,fun hno => absurd rfl hno⟩
      · exact hframe.follows_entry ha (.same rfl) rfl
  | txnCommit xid | txnAbort xid | checkpointBegin | checkpointEnd b | page =>
    exact ⟨_,rfl,redoes_pageless (fun _ => id) hframe (redo_frame rfl) rfl
      (hframe.follows_relation id (redo_frame rfl) rfl)
      fun a => hframe.follows_entry id (redo_frame rfl) rfl⟩

def replay (l : List (Item (Record K))) : Option (Restored K) :=
  (l.map Item.value).foldlM Restored.redo Restored.empty

/-- An object on disk is as of a front of the log, and its stamp tells which records it has. -/
structure AsOf (log : List (Item (Record K))) (since : ℕ) (touches : Record K → Prop) (lsn : ℕ)
    (image : Restored K → Prop) (l₁ l₂ : List (Item (Record K))) : Prop where
  eq : log = l₁ ++ l₂
  behind : ∀ i ∈ l₂, since ≤ i.pos
  applied : ∀ i ∈ l₁, touches i.value → i.pos ≤ lsn
  missing : ∀ i ∈ l₂, touches i.value → lsn < i.pos
  image : ∃ r, replay l₁ = some r ∧ image r

/-- Each page, the chain of the table and each entry is as of a point at or behind a position. -/
structure Held (gone : ℕ → Prop) (log : List (Item (Record K))) (since : ℕ)
    (st : Restored K × PageLsns K) : Prop where
  page : ∀ p, ∃ l₁ l₂, AsOf log since (·.touches p) (st.2.page p) (SamePage gone p · st.1) l₁ l₂
  relation : ∃ l₁ l₂, AsOf log since Record.links st.2.relation
    (st.1.heap.relation = ·.heap.relation) l₁ l₂
  entry : ∀ a, ∃ l₁ l₂, AsOf log since (·.names a) (st.2.entry a)
    (fun r => a ∈ st.1.index ↔ a ∈ r.index) l₁ l₂

section Run

variable {log a b l₁ l₂ : List (Item (Record K))} {i : Item (Record K)}
  {touches : Record K → Prop} {lsn lsn' : ℕ} {image image' : Restored K → Prop}

theorem replay_append (h : replay (a ++ [i]) = some r') :
    ∃ r, replay a = some r ∧ r.redo i.value = some r' := by
  rw [replay,List.map_append,List.foldlM_append] at h
  obtain ⟨r,hr,h⟩ := Option.bind_eq_some_iff.1 h
  rw [List.map_singleton,List.foldlM_cons] at h
  obtain ⟨q,hq,h⟩ := Option.bind_eq_some_iff.1 h
  cases h
  exact ⟨r,hr,hq⟩

theorem replay_front (h : replay (a ++ b) = some r') : ∃ r, replay a = some r := by
  rw [replay,List.map_append,List.foldlM_append] at h
  obtain ⟨r,hr,-⟩ := Option.bind_eq_some_iff.1 h
  exact ⟨r,hr⟩

theorem AsOf.cases (h : AsOf log (stop Lsn.first a) touches lsn image l₁ l₂)
    (hlog : log = a ++ i :: b) (hc : Contiguous Lsn.first log) :
    (∃ c, l₁ = a ++ i :: c ∧ b = c ++ l₂) ∨ l₁ = a ∧ l₂ = i :: b := by
  rcases List.append_eq_append_iff.1 (hlog.symm.trans h.eq) with ⟨c,hl₁,hb⟩ | ⟨c,ha,hl₂⟩
  · cases c with
    | nil => exact .inr ⟨by rw [hl₁,List.append_nil],hb.symm⟩
    | cons x c =>
      obtain ⟨rfl,rfl⟩ := List.cons.inj hb
      exact .inl ⟨c,hl₁,rfl⟩
  · cases c with
    | nil => exact .inr ⟨by rw [ha,List.append_nil],hl₂⟩
    | cons x c =>
      have hx := h.behind x (by rw [hl₂]; exact List.mem_cons_self ..)
      rw [hlog] at hc
      have := ((RecordStream.contiguous_append.1 hc).1.bounds (a := x) (by rw [ha]; simp)).2
      omega

theorem AsOf.current (h : AsOf log (stop Lsn.first a) touches lsn image l₁ l₂)
    (hlog : log = a ++ i :: b) (hc : Contiguous Lsn.first log) (hr : replay a = some r)
    (ht : touches i.value) (hlt : lsn < i.pos) : image r := by
  rcases h.cases hlog hc with ⟨c,rfl,-⟩ | ⟨rfl,-⟩
  · exact absurd hlt (not_lt.2 (h.applied i (by simp) ht))
  · obtain ⟨r₁,hr₁,hi⟩ := h.image
    cases hr.symm.trans hr₁
    exact hi

theorem AsOf.next (h : AsOf log (stop Lsn.first a) touches lsn image l₁ l₂)
    (hlog : log = a ++ i :: b) (hc : Contiguous Lsn.first log) (hr : replay a = some r)
    (hr' : replay (a ++ [i]) = some r')
    (hf : Follows (touches i.value) i.pos lsn lsn' image image' r r') :
    ∃ l₁ l₂, AsOf log (stop Lsn.first (a ++ [i])) touches lsn' image' l₁ l₂ := by
  have hlog' : log = (a ++ [i]) ++ b := by simp [hlog]
  have hafter : ∀ x ∈ b, stop Lsn.first (a ++ [i]) ≤ x.pos := fun x hx =>
    (hlog' ▸ hc : Contiguous Lsn.first ((a ++ [i]) ++ b)).after hx
  have hlast : i.pos < stop Lsn.first (a ++ [i]) := by
    have := (RecordStream.contiguous_append.1 (hlog' ▸ hc)).1.bounds (a := i) (by simp)
    omega
  rcases h.cases hlog hc with ⟨c,rfl,rfl⟩ | ⟨rfl,rfl⟩
  · obtain ⟨rfl,hi⟩ := hf.kept (h.applied i (by simp))
    obtain ⟨r₁,hr₁,him⟩ := h.image
    exact ⟨_,l₂,h.eq,fun x hx => hafter x (List.mem_append_right _ hx),h.applied,h.missing,r₁,hr₁,
      hi r₁ him⟩
  · obtain ⟨r₁,hr₁,him⟩ := h.image
    cases hr.symm.trans hr₁
    by_cases ht : touches i.value
    · have hlt := h.missing i (List.mem_cons_self ..) ht
      obtain ⟨rfl,hi⟩ := hf.redone ht hlt him
      refine ⟨l₁ ++ [i],b,hlog',hafter,fun x hx hx' => ?_,fun x hx _ => ?_,r',hr',hi⟩
      · rcases List.mem_append.1 hx with hx | hx
        · exact (h.applied x hx hx').trans hlt.le
        · rw [List.mem_singleton.1 hx]
      · exact hlast.trans_le (hafter x hx)
    · obtain ⟨rfl,hi⟩ := hf.kept (absurd · ht)
      refine ⟨l₁ ++ [i],b,hlog',hafter,fun x hx hx' => ?_,
        fun x hx => h.missing x (List.mem_cons_of_mem _ hx),r',hr',hi r' (hf.missed ht him)⟩
      rcases List.mem_append.1 hx with hx | hx
      · exact h.applied x hx hx'
      · rw [List.mem_singleton.1 hx] at hx'
        exact absurd hx' ht

theorem Held.step (h : Held gone log (stop Lsn.first a) st) (hlog : log = a ++ i :: b)
    (hc : Contiguous Lsn.first log) (hr' : replay (a ++ [i]) = some r') :
    ∃ st', redoAt st (i.pos,i.value) = some st' ∧ Held gone log (stop Lsn.first (a ++ [i])) st' ∧
      st'.1.heap.manager.clog = i.value.settle st.1.heap.manager.clog ∧
      st'.1.heap.manager.active = st.1.heap.manager.active := by
  obtain ⟨r,hr,hredo⟩ := replay_append hr'
  have hcurrent : ∀ p, i.value.touches p → st.2.page p < i.pos → SamePage gone p r st.1 := by
    intro p ht hlt
    obtain ⟨l₁,l₂,hp⟩ := h.page p
    exact hp.current hlog hc hr ht hlt
  obtain ⟨st',hst,hf⟩ := redoAt_redoes hredo hcurrent
  refine ⟨st',hst,⟨fun p => ?_,?_,fun e => ?_⟩,hf.clog,hf.active⟩
  · obtain ⟨l₁,l₂,hp⟩ := h.page p
    exact hp.next hlog hc hr hr' (hf.page p)
  · obtain ⟨l₁,l₂,hp⟩ := h.relation
    exact hp.next hlog hc hr hr' hf.relation
  · obtain ⟨l₁,l₂,hp⟩ := h.entry e
    exact hp.next hlog hc hr hr' (hf.entry e)

/-- The outcomes after records. -/
def settleAll (clog : ℕ → TxnState) (l : List (Item (Record K))) : ℕ → TxnState :=
  l.foldl (fun clog i => i.value.settle clog) clog

theorem Held.run (h : Held gone log (stop Lsn.first a) st) (hlog : log = a ++ b)
    (hc : Contiguous Lsn.first log) (hr : replay log = some r) :
    ∃ st', (b.map fun i => (i.pos,i.value)).foldlM redoAt st = some st' ∧
      Held gone log (stop Lsn.first log) st' ∧
      st'.1.heap.manager.clog = settleAll st.1.heap.manager.clog b ∧
      st'.1.heap.manager.active = st.1.heap.manager.active := by
  induction b generalizing a st with
  | nil =>
    rw [List.append_nil] at hlog
    exact ⟨st,rfl,hlog ▸ h,rfl,rfl⟩
  | cons i b ih =>
    have hlog' : log = (a ++ [i]) ++ b := by simp [hlog]
    obtain ⟨r₁,hr₁⟩ := replay_front (hlog' ▸ hr)
    obtain ⟨st₁,hst₁,h₁,hclog₁,hact₁⟩ := h.step hlog hc hr₁
    obtain ⟨st',hst',h',hclog,hact⟩ := ih h₁ hlog'
    refine ⟨st',?_,h',?_,hact.trans hact₁⟩
    · rw [List.map_cons,List.foldlM_cons,hst₁]
      exact hst'
    · rw [hclog,hclog₁]
      rfl

theorem AsOf.done (h : AsOf log (stop Lsn.first log) touches lsn image l₁ l₂)
    (hc : Contiguous Lsn.first log) (hr : replay log = some r) : image r := by
  obtain ⟨r₁,hr₁,hi⟩ := h.image
  cases l₂ with
  | nil =>
    rw [h.eq,List.append_nil] at hr
    cases hr.symm.trans hr₁
    exact hi
  | cons x l₂ =>
    have hx := h.behind x (List.mem_cons_self ..)
    have := (hc.bounds (a := x) (by rw [h.eq]; simp)).2
    omega

omit [DecidableEq K] in
theorem settle_congr {clog clog' : ℕ → TxnState} {x : ℕ}
    (h : rec.ends = some x ∨ clog x = clog' x) : rec.settle clog x = rec.settle clog' x := by
  cases rec with
  | txnCommit y | txnAbort y =>
    by_cases hx : x = y
    · rw [hx,Record.settle,Record.settle,update_self,update_self]
    · rw [Record.settle,Record.settle,update_of_ne hx,update_of_ne hx]
      exact h.resolve_left fun hy => hx (Option.some.inj hy).symm
  | _ => exact h.resolve_left nofun

omit [DecidableEq K] in
theorem settle_of_ne {clog : ℕ → TxnState} {x : ℕ} (h : rec.ends ≠ some x) :
    rec.settle clog x = clog x := by
  cases rec with
  | txnCommit y | txnAbort y => exact update_of_ne (fun hx => h (congrArg some hx.symm)) ..
  | _ => rfl

omit [DecidableEq K] in
theorem settleAll_congr {clog clog' : ℕ → TxnState} {x : ℕ}
    (h : (∃ i ∈ b, i.value.ends = some x) ∨ clog x = clog' x) :
    settleAll clog b x = settleAll clog' b x := by
  induction b generalizing clog clog' with
  | nil => exact h.resolve_left (by rintro ⟨i,hi,-⟩; cases hi)
  | cons i b ih =>
    refine ih ?_
    rcases h with ⟨j,hj,hend⟩ | h
    · rcases List.mem_cons.1 hj with rfl | hj
      · exact .inr (settle_congr (.inl hend))
      · exact .inl ⟨j,hj,hend⟩
    · exact .inr (settle_congr (.inr h))

omit [DecidableEq K] in
theorem settleAll_of_unfinished {clog : ℕ → TxnState} {x : ℕ}
    (h : ∀ i ∈ b, i.value.ends ≠ some x) : settleAll clog b x = clog x := by
  induction b generalizing clog with
  | nil => rfl
  | cons i b ih =>
    obtain ⟨hi,hb⟩ := List.forall_mem_cons.1 h
    exact (ih hb).trans (settle_of_ne hi)

theorem foldlM_clog {l : List (Item (Record K))}
    (h : (l.map Item.value).foldlM Restored.redo r = some r') :
    r'.heap.manager.clog = settleAll r.heap.manager.clog l := by
  induction l generalizing r with
  | nil =>
    cases h
    rfl
  | cons i l ih =>
    rw [List.map_cons,List.foldlM_cons] at h
    obtain ⟨q,hq,h⟩ := Option.bind_eq_some_iff.1 h
    rw [ih h,(redo_frame hq).clog]
    rfl

end Run

/-- The outcomes that the records of the log give. -/
def Disk.outcomes (d : Disk K) : ℕ → TxnState := settleAll (fun _ => .inProgress) d.log

/-- Checkpoints are complete: all on disk is as of points of the log at or behind the redo point. -/
structure Disk.Holds (d : Disk K) : Prop where
  held : Held (d.outcomes · ≠ .committed) d.log d.redoStart (d.files.load,d.files.lsns)
  outcome : ∀ x, ∃ l₁ l₂, d.log = l₁ ++ l₂ ∧ (∀ i ∈ l₂, d.redoStart ≤ i.pos) ∧
    d.files.clog x = settleAll (fun _ => .inProgress) l₁ x

/-- What the pages on disk become. -/
structure Like (gone : ℕ → Prop) (r q : Restored K) : Prop where
  alike : ∀ tid, AlikeAt gone r q tid
  relation : q.heap.relation = r.heap.relation
  index : ∀ a, a ∈ q.index ↔ a ∈ r.index

theorem Held.like {log : List (Item (Record K))} (h : Held gone log (stop Lsn.first log) st)
    (hc : Contiguous Lsn.first log) (hr : replay log = some r) : Like gone r st.1 := by
  refine ⟨fun tid => ?_,?_,fun a => ?_⟩
  · obtain ⟨l₁,l₂,hp⟩ := h.page tid.pageId
    exact hp.done hc hr tid rfl
  · obtain ⟨l₁,l₂,hp⟩ := h.relation
    exact hp.done hc hr
  · obtain ⟨l₁,l₂,hp⟩ := h.entry a
    exact hp.done hc hr

def marked (xs : List ℕ) (clog : ℕ → TxnState) (x : ℕ) : TxnState :=
  if x ∈ xs then .aborted else clog x

omit [DecidableEq K] in
theorem abortAll_eq (xs : List ℕ) : r.abortAll xs = { r with heap := { r.heap with
    manager := { r.heap.manager with clog := marked xs r.heap.manager.clog } } } := by
  induction xs generalizing r with
  | nil => rfl
  | cons y xs ih =>
    change (r.setState y .aborted).abortAll xs = _
    rw [ih]
    have hclog : marked xs (update r.heap.manager.clog y .aborted) =
        marked (y :: xs) r.heap.manager.clog := by
      funext x
      by_cases hxs : x ∈ xs
      · rw [marked,marked,if_pos hxs,if_pos (List.mem_cons_of_mem _ hxs)]
      · by_cases hxy : x = y
        · rw [marked,marked,if_neg hxs,hxy,update_self,if_pos List.mem_cons_self]
        · rw [marked,marked,if_neg hxs,update_of_ne hxy,
            if_neg fun h => (List.mem_cons.1 h).elim hxy hxs]
    rw [← hclog]
    rfl

theorem Held.abortAll {log : List (Item (Record K))} {since : ℕ} {lsns : PageLsns K}
    {xs : List ℕ} (h : Held gone log since (r,lsns)) :
    Held gone log since (r.abortAll xs,lsns) := by
  rw [abortAll_eq]
  refine ⟨fun p => ?_,h.relation,h.entry⟩
  obtain ⟨l₁,l₂,hp⟩ := h.page p
  refine ⟨l₁,l₂,hp.eq,hp.behind,hp.applied,hp.missing,?_⟩
  obtain ⟨x,hx,hsame⟩ := hp.image
  exact ⟨x,hx,fun tid ht => ⟨(hsame tid ht).tuple,(hsame tid ht).values⟩⟩

section Disk

variable {cfg : Config K} {d : Disk K} {l₁ l₂ : List (Item (Record K))}

theorem Disk.Holds.outcome_eq (h : d.Holds) (heq : d.log = l₁ ++ l₂)
    (hc : Contiguous Lsn.first d.log) (hredo : d.redoStart = stop Lsn.first l₁) (x : ℕ) :
    settleAll d.files.clog l₂ x = d.outcomes x := by
  have hall : d.outcomes x = settleAll (settleAll (fun _ => .inProgress) l₁) l₂ x := by
    rw [Disk.outcomes,heq,settleAll,List.foldl_append]
    rfl
  rw [hall]
  refine settleAll_congr ?_
  by_cases hend : ∃ i ∈ l₂, i.value.ends = some x
  · exact .inl hend
  · obtain ⟨m₁,m₂,hm,hbehind,hx⟩ := h.outcome x
    refine .inr (hx.trans ?_)
    rcases List.append_eq_append_iff.1 (heq.symm.trans hm) with ⟨c,rfl,rfl⟩ | ⟨c,rfl,rfl⟩
    · rw [settleAll,List.foldl_append]
      exact settleAll_of_unfinished fun i hi he => hend ⟨i,List.mem_append_left _ hi,he⟩
    · cases c with
      | nil => rw [List.append_nil]
      | cons i c =>
        have hi := hbehind i (List.mem_cons_self ..)
        rw [heq] at hc
        have := ((RecordStream.contiguous_append.1 hc).1.bounds (a := i) (by simp)).2
        omega

/-- The files as of the end of a list of records. -/
def Files.asOf (l : List (Item (Record K))) : Files K :=
  let r := (replay l).getD Restored.empty
  let lsn := stop Lsn.first l - 1
  ⟨r.heap.pages,r.values,r.heap.relation,r.index,r.heap.manager.clog,
    ⟨fun _ => lsn,lsn,fun _ => lsn⟩⟩

theorem Files.asOf_holds (heq : d.log = l₁ ++ l₂) (hc : Contiguous Lsn.first d.log)
    (hredo : d.redoStart ≤ stop Lsn.first l₁) (hr : replay d.log = some r)
    (hf : d.files = .asOf l₁) : d.Holds := by
  obtain ⟨q,hq⟩ := replay_front (heq ▸ hr)
  have hget : (replay l₁).getD Restored.empty = q := by rw [hq,Option.getD_some]
  rw [heq] at hc
  have hfirst := (RecordStream.contiguous_append.1 hc).1
  have hbehind : ∀ i ∈ l₂, d.redoStart ≤ i.pos := fun i hi => hredo.trans (hc.after hi)
  have hasOf : ∀ (touches : Record K → Prop) (image : Restored K → Prop), image q →
      ∃ l₁' l₂', AsOf d.log d.redoStart touches (stop Lsn.first l₁ - 1) image l₁' l₂' := by
    intro touches image him
    refine ⟨l₁,l₂,heq,hbehind,fun i hi _ => ?_,fun i hi _ => ?_,q,hq,him⟩
    · have := hfirst.bounds hi
      omega
    · have := hc.after hi
      have : Lsn.first ≤ stop Lsn.first l₁ := RecordStream.start_le_stop
      have : 0 < Lsn.first := by decide
      omega
  refine ⟨⟨fun p => ?_,?_,fun a => ?_⟩,fun x => ⟨l₁,l₂,heq,hbehind,?_⟩⟩
  · rw [hf]
    refine hasOf _ _ fun tid _ => ?_
    simp only [Files.asOf,hget]
    refine ⟨?_,fun _ _ => rfl⟩
    change Option.Rel _ (q.heap.tuple tid) (q.heap.tuple tid)
    cases q.heap.tuple tid with
    | none => exact .none
    | some hd => exact .some (.refl hd)
  · rw [hf]
    refine hasOf _ _ ?_
    simp only [Files.asOf,hget]
    rfl
  · rw [hf]
    refine hasOf _ _ ?_
    simp only [Files.asOf,hget]
    rfl
  · rw [hf]
    simp only [Files.asOf,hget]
    rw [foldlM_clog hq]
    rfl

theorem Disk.Holds.restore (h : d.Holds) (heq : d.log = l₁ ++ l₂)
    (hc : Contiguous Lsn.first d.log) (hredo : d.redoStart = stop Lsn.first l₁)
    (hr : replay d.log = some r) (hstamps : ∀ i ∈ d.log, ∀ x ∈ d.stamps, i.value.ends ≠ some x) :
    ∃ q, d.restore cfg = some q ∧ Like (d.outcomes · ≠ .committed) r q ∧
      q.heap.manager.clog = marked d.stamps d.outcomes ∧ q.heap.manager.active = [] := by
  obtain ⟨st,hst,hdone,hclog,hact⟩ := (hredo ▸ h.held.abortAll).run heq hc hr
  refine ⟨st.1,?_,hdone.like hc hr,?_,?_⟩
  · rw [Disk.restore,hredo,readFrom_eq hc heq,hst]
    rfl
  · rw [hclog,abortAll_eq]
    funext x
    by_cases hx : x ∈ d.stamps
    · rw [settleAll_of_unfinished fun i hi => hstamps i (heq ▸ List.mem_append_right _ hi) x hx]
      exact (if_pos hx).trans (if_pos hx).symm
    · rw [marked,if_neg hx,← h.outcome_eq heq hc hredo]
      exact settleAll_congr (.inr (if_neg hx))
  · rw [hact,abortAll_eq]
    rfl

end Disk

end EngineLog
end PgAm
