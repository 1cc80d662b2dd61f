import PgAm.HeapVersions

/-! What a reader gets from the heap. A reader is given by the transactions that it sees; if it
sees with a transaction everything that was behind the transaction's snapshot, the versions that
are visible to it are the newest seen versions of their rows, and a scan reaches each of them
from one slot. -/
namespace PgAm
namespace HeapHistory

open Machine Heap

/-- The snapshot shows what the transactions of `sees` have left. -/
structure Reads (h : History) (snap : Snapshot) (sees : ℕ → Bool) : Prop where
  visible : ∀ tid hd, h.heap.tuple tid = some hd →
    (hd.visible snap h.heap.manager.getState = true ↔ sees hd.tXmin = true ∧
      (hd.visibilityXmax ≠ TxnId.invalid → ¬sees hd.visibilityXmax = true))
  alive : ∀ w ∈ h.writes, sees w.xid = true → h.Alive w.xid
  before : ∀ p ∈ h.taken, sees p.1.currentXid = true → ∀ x ∈ p.2, sees x = true

/-- The newest version of a row among the writes of seen transactions. -/
def History.newest (h : History) (sees : ℕ → Bool) (r : Tid) : Option Tid :=
  VersionChain.current Write.new (fun w => sees w.xid) (h.rowWrites r)

variable {h : History} {snap : Snapshot} {sees : ℕ → Bool}

theorem visible_iff_sees {snap : Snapshot} {getState : ℕ → TxnState} {sees : ℕ → Bool}
    {hd : TupleHeader} (hown : snap.currentXid = TxnId.invalid)
    (hsees : ∀ x, snap.Sees getState x ↔ sees x = true) (hpos : hd.tXmin ≠ TxnId.invalid) :
    hd.visible snap getState = true ↔ sees hd.tXmin = true ∧
      (hd.visibilityXmax ≠ TxnId.invalid → ¬sees hd.visibilityXmax = true) := by
  have hmax : xmaxHides hd.visibilityXmax hd.tCid snap getState = true ↔
      hd.visibilityXmax ≠ TxnId.invalid ∧ sees hd.visibilityXmax = true := by
    by_cases h₀ : hd.visibilityXmax = TxnId.invalid
    · simp [xmaxHides,h₀]
    · rw [xmaxHides_of_ne (hown ▸ h₀),hsees]
  rw [TupleHeader.visible,isVisible,Bool.and_eq_true,Bool.not_eq_true',← Bool.not_eq_true,
    xminVisible_of_ne (hown ▸ hpos),hsees,hmax,not_and]

namespace Reads

theorem seen_before (hr : Reads h snap sees) (hi : Inv h) (r : Tid) :
    (h.rowWrites r).IsChain fun a b => sees b.xid = true → sees a.xid = true := by
  refine (hi.chains.ordered r).imp fun a b hab => ?_
  rcases hab with hx | ⟨q,hq,hqb,haq⟩
  · rw [hx]
    exact id
  · exact fun hb => hr.before q hq (hqb ▸ hb) a.xid haq

theorem newest_iff (hr : Reads h snap sees) (hi : Inv h) (r v : Tid) :
    h.newest sees r = some v ↔
      ∃ a ∈ h.rowWrites r, sees a.xid = true ∧ a.new = some v ∧
        ∀ b ∈ h.rowWrites r, sees b.xid = true → b.old ≠ some v :=
  (hi.chains.linked r).current_eq_some_iff (hr.seen_before hi r)

/-- The visible versions are the newest seen versions of their rows. -/
theorem shows_iff (hr : Reads h snap sees) (hi : Inv h) (v : Tid) :
    h.heap.Shows snap v ↔ h.newest sees (h.row v) = some v := by
  rw [hr.newest_iff hi]
  constructor
  · rintro ⟨hd,hh,hvis⟩
    obtain ⟨hmin,hmax⟩ := (hr.visible v hd hh).1 hvis
    obtain ⟨a,ha,hanew,hax⟩ := hi.versions.creator v hd hh
    rw [← hax] at hmin
    have hrow := (hi.versions.creates a ha v hanew).1
    refine ⟨a,List.mem_filter.2 ⟨ha,decide_eq_true ⟨hrow.symm,hr.alive a ha hmin⟩⟩,hmin,hanew,
      fun b hb hsb hbold => ?_⟩
    obtain ⟨hb,hbp⟩ := List.mem_filter.1 hb
    obtain ⟨-,hd',hh',hbx⟩ := hi.versions.ended b hb v hbold
    rw [hh] at hh'
    cases hh'
    have hx := hbx (of_decide_eq_true hbp).2
    rw [hx] at hmax
    exact hmax (hi.versions.writer b hb).1 hsb
  · rintro ⟨a,ha,hsa,hanew,hfree⟩
    have ha' := (List.mem_filter.1 ha).1
    obtain ⟨-,hd,hh⟩ := hi.versions.creates a ha' v hanew
    obtain ⟨c,hc,hcnew,hcx⟩ := hi.versions.creator v hd hh
    obtain rfl := hi.versions.unique a ha' c hc v hanew hcnew
    refine ⟨hd,hh,(hr.visible v hd hh).2 ⟨hcx ▸ hsa,fun h₀ => ?_⟩⟩
    obtain ⟨b,hb,hbold,hbx⟩ := hi.versions.stamped v hd hh h₀
    rw [← hbx]
    exact fun hsb => hfree b (List.mem_filter.2 ⟨hb,decide_eq_true
      ⟨((hi.versions.ended b hb v hbold).1).symm,hr.alive b hb hsb⟩⟩) hsb hbold

end Reads

theorem Inv.row_next (hi : Inv h) {u v : Tid} (hn : h.heap.Next u v) : h.row v = h.row u := by
  obtain ⟨w,hw,hold,hnew⟩ := hi.links.write u v hn
  rw [(hi.versions.creates w hw v hnew).1,(hi.versions.ended w hw u hold).1]

theorem Inv.row_reach (hi : Inv h) {u v : Tid} (hr : Relation.ReflTransGen h.heap.Next u v) :
    h.row v = h.row u := by
  induction hr with
  | refl => rfl
  | tail _ hn ih => exact (hi.row_next hn).trans ih

theorem Inv.next_unique (hi : Inv h) {u u' v : Tid} (hn : h.heap.Next u v)
    (hn' : h.heap.Next u' v) :
    u = u' := by
  obtain ⟨w,hw,hold,hnew⟩ := hi.links.write u v hn
  obtain ⟨w',hw',hold',hnew'⟩ := hi.links.write u' v hn'
  rw [hi.versions.unique w hw w' hw' v hnew hnew',hold'] at hold
  exact (Option.some.inj hold).symm

theorem Inv.root_unique (hi : Inv h) {a b v : Tid} (ha : h.heap.IsRoot a) (hb : h.heap.IsRoot b)
    (hav : Relation.ReflTransGen h.heap.Next a v) (hbv : Relation.ReflTransGen h.heap.Next b v) :
    a = b := by
  have hroot : ∀ {u c : Tid}, h.heap.IsRoot c → ¬h.heap.Next u c := by
    rintro u c ⟨hd,hh,honly⟩ hn
    obtain ⟨hd',hh',honly'⟩ := hi.links.chained.target u c hn
    rw [hh] at hh'
    cases hh'
    exact absurd (honly.symm.trans honly') Bool.false_ne_true
  induction hav with
  | refl =>
    rcases hbv.cases_tail with he | ⟨c,-,hn⟩
    · exact he
    · exact absurd hn (hroot ha)
  | tail _ hn ih =>
    rcases hbv.cases_tail with rfl | ⟨c,hbc,hn'⟩
    · exact absurd hn (hroot hb)
    · rw [← hi.next_unique hn hn'] at hbc
      exact ih hbc

theorem Inv.exists_root (hi : Inv h) {a : Write} {v : Tid} (ha : a ∈ h.rowWrites (h.row v))
    (hnew : a.new = some v) :
    ∃ u, h.heap.IsRoot u ∧ Relation.ReflTransGen h.heap.Next u v := by
  induction hn : v.slotId using Nat.strong_induction_on generalizing a v with
  | _ n ih =>
    subst hn
    obtain ⟨ha',hp⟩ := List.mem_filter.1 ha
    obtain ⟨-,hd,hh⟩ := hi.versions.creates a ha' v hnew
    cases honly : hd.heapOnly with
    | false => exact ⟨v,⟨hd,hh,honly⟩,.refl⟩
    | true =>
      obtain ⟨u,hold,hn⟩ := hi.links.next a ha' v hd hnew hh honly (of_decide_eq_true hp).2
      obtain ⟨l₁,l₂,hsplit⟩ := List.append_of_mem ha
      obtain ⟨k,b,rfl,hbnew⟩ := (hsplit ▸ hi.chains.linked (h.row v)).eq_before hold
      have hb : b ∈ h.rowWrites (h.row v) := by
        rw [hsplit]
        simp
      rw [hi.row_next hn] at hb
      obtain ⟨r,hr,hru⟩ := ih u.slotId (hi.links.chained.slot u v hn) hb hbnew rfl
      exact ⟨r,hr,hru.tail hn⟩

theorem Reads.found_root (hr : Reads h snap sees) (hi : Inv h) {u v : Tid}
    (hv : h.heap.Shows snap v) (hu : h.heap.IsRoot u)
    (hreach : Relation.ReflTransGen h.heap.Next u v) : h.heap.found snap u = some v := by
  obtain ⟨-,hsome,hnone⟩ := @scanSlot_spec h.heap snap hi.links.chained u
  cases hf : h.heap.found snap u with
  | none => exact absurd hv (hnone hf hu v hreach)
  | some v' =>
    obtain ⟨hv',-,hreach'⟩ := hsome v' hf
    have h₁ := (hr.shows_iff hi v).1 hv
    have h₂ := (hr.shows_iff hi v').1 hv'
    rw [hi.row_reach hreach] at h₁
    rw [hi.row_reach hreach',h₁] at h₂
    exact h₂.symm

theorem Reads.mem_scan_iff (hr : Reads h snap sees) (hi : Inv h) {v : Tid} :
    v ∈ h.heap.tids.filterMap (h.heap.found snap) ↔ h.newest sees (h.row v) = some v := by
  rw [← hr.shows_iff hi,List.mem_filterMap]
  constructor
  · rintro ⟨u,-,hu⟩
    exact ((scanSlot_spec hi.links.chained u).2.1 v hu).1
  · intro hv
    obtain ⟨a,ha,-,hanew,-⟩ := (hr.newest_iff hi _ v).1 ((hr.shows_iff hi v).1 hv)
    obtain ⟨u,hu,hreach⟩ := hi.exists_root ha hanew
    have ⟨hd,hh,_⟩ := hu
    exact ⟨u,mem_tids.2 ⟨hi.versions.placed u hd hh,hd,hh⟩,hr.found_root hi hv hu hreach⟩

theorem Inv.nodup_scan (hi : Inv h) (snap : Snapshot) :
    (h.heap.tids.filterMap (h.heap.found snap)).Nodup := by
  refine (nodup_tids hi.versions.relation).filterMap fun a b v hav hbv => ?_
  obtain ⟨-,ha,hra⟩ := (scanSlot_spec hi.links.chained a).2.1 v hav
  obtain ⟨-,hb,hrb⟩ := (scanSlot_spec hi.links.chained b).2.1 v hbv
  exact hi.root_unique ha hb hra hrb

theorem eq_toList {α : Type*} {l : List α} {o : Option α} (hl : l.Nodup)
    (h : ∀ a, a ∈ l ↔ o = some a) : l = o.toList := by
  cases o with
  | none => exact List.eq_nil_iff_forall_not_mem.2 fun a ha => nomatch (h a).1 ha
  | some a =>
    refine List.perm_singleton.1 ((List.perm_ext_iff_of_nodup hl (List.nodup_singleton a)).2
      fun b => ?_)
    rw [h,List.mem_singleton,Option.some.injEq,eq_comm]

/-- A scan returns each row once, in its newest seen version. -/
theorem Reads.scan (hr : Reads h snap sees) (hi : Inv h) :
    ∃ out, h.heap.scan snap = .ok out ∧
      ∀ r, out.filter (fun v => h.row v = r) = (h.newest sees r).toList := by
  refine ⟨_,scan_eq hi.links.chained,fun r => ?_⟩
  refine eq_toList ((hi.nodup_scan _).filter _) fun v => ?_
  rw [List.mem_filter,hr.mem_scan_iff hi,decide_eq_true_eq]
  constructor
  · rintro ⟨hv,rfl⟩
    exact hv
  · intro hv
    obtain ⟨a,ha,-,hanew,-⟩ := (hr.newest_iff hi r v).1 hv
    obtain ⟨ha,hap⟩ := List.mem_filter.1 ha
    have hrow : h.row v = r := (hi.versions.creates a ha v hanew).1.trans (of_decide_eq_true hap).1
    exact ⟨by rw [hrow]; exact hv,hrow⟩

section Own

variable {p : Snapshot × List ℕ} {tid : Tid} {hd : TupleHeader}

def History.reader (h : History) (snap : Snapshot) : Snapshot :=
  { snap with curcid := h.command snap.currentXid + 1 }

/-- What a transaction sees: itself and the commits that were completed before its snapshot. -/
def seesOwn (p : Snapshot × List ℕ) (x : ℕ) : Bool := x = p.1.currentXid ∨ x ∈ p.2

theorem Inv.visible_iff (hi : Inv h) (hp : p ∈ h.taken) (hlive : h.heap.Live p.1.currentXid)
    (hh : h.heap.tuple tid = some hd) :
    hd.visible (h.reader p.1) h.heap.manager.getState = true ↔
      (hd.tXmin = p.1.currentXid ∨ hd.tXmin ∈ p.2) ∧
        (hd.visibilityXmax ≠ TxnId.invalid →
          hd.visibilityXmax ≠ p.1.currentXid ∧ hd.visibilityXmax ∉ p.2) := by
  have hfrozen := hi.snapshots.view.taken p.1 p.2 hp
  have hcid := hi.versions.command tid hd hh p.1.currentXid hlive
  have hmin : xminVisible hd.tXmin hd.tCid (h.reader p.1) h.heap.manager.getState = true ↔
      (hd.tXmin = p.1.currentXid ∨ hd.tXmin ∈ p.2) := by
    by_cases hx : hd.tXmin = p.1.currentXid
    · have hx' : hd.tXmin = (h.reader p.1).currentXid := hx
      rw [xminVisible_self hx']
      exact ⟨fun _ => .inl hx,fun _ => Nat.lt_succ_of_le (hcid (.inl hx))⟩
    · have hx' : hd.tXmin ≠ (h.reader p.1).currentXid := hx
      rw [xminVisible_of_ne hx',or_iff_right hx,hfrozen.done_iff]
      rfl
  have hmax : xmaxHides hd.visibilityXmax hd.tCid (h.reader p.1) h.heap.manager.getState = true ↔
      hd.visibilityXmax ≠ TxnId.invalid ∧
        (hd.visibilityXmax = p.1.currentXid ∨ hd.visibilityXmax ∈ p.2) := by
    by_cases hx : hd.visibilityXmax = p.1.currentXid
    · have h₀ : hd.visibilityXmax ≠ TxnId.invalid := by
        rw [hx]
        exact live_pos hi.snapshots.view.manager hlive
      have hx' : hd.visibilityXmax = (h.reader p.1).currentXid := hx
      rw [xmaxHides_self hx' h₀]
      exact ⟨fun _ => ⟨h₀,.inl hx⟩,fun _ => Nat.lt_succ_of_le (hcid (.inr hx))⟩
    · have hx' : hd.visibilityXmax ≠ (h.reader p.1).currentXid := hx
      rw [xmaxHides_of_ne hx',or_iff_right hx,hfrozen.done_iff]
      rfl
  rw [TupleHeader.visible,isVisible,Bool.and_eq_true,Bool.not_eq_true',← Bool.not_eq_true,hmin,hmax,
    not_and,not_or]

/-- The next command of a live transaction is a reader. -/
theorem Inv.reads_own (hi : Inv h) (hp : p ∈ h.taken) (hlive : h.heap.Live p.1.currentXid) :
    Reads h (h.reader p.1) (seesOwn p) where
  visible tid hd hh := by
    rw [hi.visible_iff hp hlive hh]
    simp only [seesOwn,decide_eq_true_eq,not_or,ne_eq]
  alive w hw hs := by
    rw [History.Alive]
    rcases of_decide_eq_true hs with hx | hx
    · rw [hx,hlive.2]
      rintro ⟨⟩
    · have hst : h.heap.manager.getState w.xid = .committed :=
        (((hi.snapshots.view.taken p.1 p.2 hp).done_iff w.xid).1 hx).2.2
      rw [hst]
      rintro ⟨⟩
  before q hq hs x hx := by
    rcases of_decide_eq_true hs with he | he
    · rw [hi.snapshots.single q hq p hp he] at hx
      exact decide_eq_true (.inr hx)
    · exact decide_eq_true (.inr (hi.snapshots.later q hq p hp he x hx))

theorem Inv.counts_iff (hi : Inv h) {w : Write} (hw : w ∈ h.writes) :
    counts (h.reader p.1) p.2 w = true ↔ w.xid = p.1.currentXid ∨ w.xid ∈ p.2 := by
  have hcid := (hi.versions.writer w hw).2.2.1
  unfold counts
  split
  · rename_i hx
    change w.xid = p.1.currentXid at hx
    refine ⟨fun _ => .inl hx,fun _ => decide_eq_true ?_⟩
    rw [hx] at hcid
    exact Nat.lt_succ_of_le hcid
  · rename_i hx
    change ¬w.xid = p.1.currentXid at hx
    rw [or_iff_right hx,decide_eq_true_eq]

theorem Inv.rowVersion_eq (hi : Inv h) (hp : p ∈ h.taken) (hlive : h.heap.Live p.1.currentXid)
    (r : Tid) : h.rowVersion (h.reader p.1) p.2 r = h.newest (seesOwn p) r := by
  unfold History.rowVersion History.newest VersionChain.current History.rowWrites
  rw [List.filter_filter,List.filter_filter]
  congr 2
  refine List.filter_congr fun w hw => ?_
  have hcounts : counts (h.reader p.1) p.2 w = seesOwn p w.xid := by
    rw [Bool.eq_iff_iff,hi.counts_iff hw,seesOwn,decide_eq_true_eq]
  rw [hcounts]
  cases hs : seesOwn p w.xid with
  | false => rfl
  | true => simp only [(hi.reads_own hp hlive).alive w hw hs,and_true]

end Own

end HeapHistory
end PgAm
