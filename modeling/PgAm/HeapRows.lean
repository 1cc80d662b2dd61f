import PgAm.HeapOnce

/-! Logical rows, whoever chooses the tuples that a call is applied to. A call may address any
tuple, also one that its statement has not scanned; links and row names still stay within one
row. -/
namespace PgAm
namespace HeapHistory

open Machine Heap

/-- Rows are named by tuples, and links stay within a row. -/
structure Rows (h : History) : Prop where
  made : ∀ w ∈ h.writes, ∃ hd, h.heap.tuple w.row = some hd
  named : ∀ tid hd, h.heap.tuple tid = some hd → ∃ hd', h.heap.tuple (h.row tid) = some hd'
  link : ∀ u v, h.heap.Next u v → h.row v = h.row u ∧ ∃ hd, h.heap.tuple v = some hd

/-- What a step does to tuples, links and rows; `w` is the write that it records. -/
structure Grown (h t : History) (w : Option Write) : Prop where
  log : t.writes = h.writes ++ w.toList
  forward : ∀ tid hd, h.heap.tuple tid = some hd →
    t.row tid = h.row tid ∧ ∃ hd', t.heap.tuple tid = some hd' ∧ hd'.tXmin = hd.tXmin
  cases : ∀ tid hd, t.heap.tuple tid = some hd →
    (∃ hd', h.heap.tuple tid = some hd') ∨ ∃ a ∈ w, a.new = some tid
  link : ∀ u v, t.heap.Next u v → h.heap.Next u v ∨ ∃ a ∈ w, a.old = some u ∧ a.new = some v
  old : ∀ a ∈ w, ∀ u, a.old = some u → a.row = h.row u ∧ ∃ hd, h.heap.tuple u = some hd
  new : ∀ a ∈ w, ∀ v, a.new = some v → h.heap.tuple v = none ∧ t.row v = a.row ∧
    ∃ hd, t.heap.tuple v = some hd ∧ hd.tXmin = a.xid
  first : ∀ a ∈ w, a.old = none → a.new = some a.row

def Keeps (m m' : Manager) : Prop :=
  ∀ x st, st ≠ .inProgress → m.getState x = st → m'.getState x = st

theorem Keeps.refl (m : Manager) : Keeps m m := fun _ _ _ h => h

variable {h t : History} {xid cid : ℕ} {w : Option Write}

namespace Grown

theorem of_eq (hw : t.writes = h.writes) (hp : ∀ tid, t.heap.tuple tid = h.heap.tuple tid)
    (hr : t.row = h.row) : Grown h t none where
  log := hw.trans (List.append_nil _).symm
  forward tid hd hh := ⟨congrFun hr tid,hd,(hp tid).trans hh,rfl⟩
  cases tid hd hh := .inl ⟨hd,(hp tid).symm.trans hh⟩
  link u v hn := by
    obtain ⟨hd,hh,hl⟩ := hn
    exact .inl ⟨hd,(hp u).symm.trans hh,hl⟩
  old := nofun
  new := nofun
  first := nofun

theorem of_effect {writes hot : Bool} {target new : Option Tid}
    (he : Effect h.heap t.heap xid cid writes hot target new)
    (hlog : t.writes = h.writes ++ w.toList)
    (hrow : ∀ tid, new ≠ some tid → t.row tid = h.row tid)
    (hw : ∀ a ∈ w, a.xid = xid ∧ a.old = target ∧ a.new = new)
    (hold : ∀ a ∈ w, ∀ u, target = some u → a.row = h.row u)
    (hnew : ∀ a ∈ w, ∀ v, new = some v → t.row v = a.row)
    (hfirst : ∀ a ∈ w, target = none → new = some a.row) (hlock : w = none → new = none) :
    Grown h t w where
  log := hlog
  forward tid hd hh := by
    obtain ⟨hd',hh',hmin,-⟩ := he.forward hh
    exact ⟨hrow tid (he.ne_new hh),hd',hh',hmin⟩
  cases tid hd hh := by
    obtain ⟨hn,-⟩ | ⟨-,hd₀,h₀,-⟩ | ⟨-,-,h₀⟩ := he.cases hh
    · cases w with
      | none => exact absurd (hlock rfl ▸ hn) nofun
      | some a => exact .inr ⟨a,rfl,(hw a rfl).2.2.trans hn⟩
    · exact .inl ⟨hd₀,h₀⟩
    · exact .inl ⟨hd,h₀⟩
  link u v hl := by
    obtain ⟨hd,hh,hup,hv⟩ := hl
    obtain ⟨-,rfl⟩ | ⟨htarget,hd₀,h₀,hst⟩ | ⟨-,-,h₀⟩ := he.cases hh
    · exact absurd hup nofun
    · rcases hst.link hup with ⟨hup₀,hct⟩ | ⟨-,hn⟩
      · exact .inl ⟨hd₀,h₀,hup₀,hct.symm.trans hv⟩
      · rw [hv] at hn
        cases w with
        | none => exact absurd (hlock rfl ▸ hn) nofun
        | some a => exact .inr ⟨a,rfl,(hw a rfl).2.1.trans htarget,(hw a rfl).2.2.trans hn⟩
    · exact .inl ⟨hd,h₀,hup,hv⟩
  old a ha u hu := by
    rw [(hw a ha).2.1] at hu
    obtain ⟨hd,-,hh,-⟩ := he.stamped u hu
    exact ⟨hold a ha u hu,hd,hh⟩
  new a ha v hv := by
    obtain ⟨hx,-,hn⟩ := hw a ha
    rw [hn] at hv
    refine ⟨?_,hnew a ha v hv,_,he.created v hv,hx.symm⟩
    rw [(he.fresh v hv).1]
    exact tuple_newTid
  first a ha h₀ := by
    obtain ⟨-,hold',hn⟩ := hw a ha
    exact hn.trans (hfirst a ha (hold'.symm.trans h₀))

theorem mem_writes (hg : Grown h t w) {a : Write} : a ∈ t.writes ↔ a ∈ h.writes ∨ a ∈ w := by
  rw [hg.log,List.mem_append,Option.mem_toList,Option.mem_def]

theorem row_named (hg : Grown h t w) (hr : Rows h) {a : Write} (ha : a ∈ w) :
    ∃ hd, t.heap.tuple a.row = some hd := by
  cases hold : a.old with
  | none =>
    obtain ⟨-,-,hd,hh,-⟩ := hg.new a ha a.row (hg.first a ha hold)
    exact ⟨hd,hh⟩
  | some u =>
    obtain ⟨hrow,hd,hh⟩ := hg.old a ha u hold
    obtain ⟨hd',hh'⟩ := hr.named u hd hh
    obtain ⟨-,hd'',hh'',-⟩ := hg.forward _ hd' hh'
    exact ⟨hd'',by rw [hrow,hh'']⟩

theorem rows (hg : Grown h t w) (hr : Rows h) : Rows t where
  made a ha := by
    rcases hg.mem_writes.1 ha with ha | ha
    · obtain ⟨hd,hh⟩ := hr.made a ha
      obtain ⟨-,hd',hh',-⟩ := hg.forward _ hd hh
      exact ⟨hd',hh'⟩
    · exact hg.row_named hr ha
  named tid hd hh := by
    rcases hg.cases tid hd hh with ⟨hd₀,h₀⟩ | ⟨a,ha,hn⟩
    · obtain ⟨hd₁,h₁⟩ := hr.named tid hd₀ h₀
      obtain ⟨-,hd₂,h₂,-⟩ := hg.forward _ hd₁ h₁
      exact ⟨hd₂,by rw [(hg.forward tid hd₀ h₀).1,h₂]⟩
    · rw [(hg.new a ha tid hn).2.1]
      exact hg.row_named hr ha
  link u v hl := by
    rcases hg.link u v hl with hl | ⟨a,ha,hold,hn⟩
    · obtain ⟨hrow,hd,hh⟩ := hr.link u v hl
      obtain ⟨hdu,hhu,-⟩ := hl
      obtain ⟨hv,hd',hh',-⟩ := hg.forward v hd hh
      exact ⟨by rw [hv,hrow,(hg.forward u hdu hhu).1],hd',hh'⟩
    · obtain ⟨hrow,hdu,hhu⟩ := hg.old a ha u hold
      obtain ⟨-,hv,hd,hh,-⟩ := hg.new a ha v hn
      exact ⟨by rw [hv,hrow,(hg.forward u hdu hhu).1],hd,hh⟩

end Grown

section Steps

variable {tid : Tid} {op : Op} {stale : List ℕ} {stamps : Bool} {page : ℕ}

theorem grown_pass (hm : h.heap.manager.Inv)
    (hs : step h (.pass xid tid op stale stamps) = some t) :
    h.heap.Live xid ∧ t.heap.manager = h.heap.manager ∧
    ((h.Wrote xid tid op stale stamps ∧
        Grown h t (some ⟨xid,h.command xid,h.row tid,some tid,h.newVersion op⟩)) ∨
      (¬h.Wrote xid tid op stale stamps ∧ Grown h t none)) := by
  obtain ⟨hcan,⟨hw,rfl⟩ | ⟨hw,⟨hv,hreq,rfl⟩ | ⟨locks,grants,rfl⟩⟩⟩ := pass_cases hs
  · have he := effect_stampedBy hm hcan hw.1
    refine ⟨hcan.1,he.manager,.inl ⟨hw,.of_effect he rfl (fun u hne => ?_) ?_ ?_ ?_ ?_ ?_⟩⟩
    · change (h.newVersion op).elim h.row _ u = _
      cases hn : h.newVersion op with
      | none => rfl
      | some v =>
        rw [hn] at hne
        exact Function.update_of_ne (fun e => hne (congrArg some e.symm)) ..
    · rintro _ ⟨⟩
      exact ⟨rfl,rfl,rfl⟩
    · rintro _ ⟨⟩ _ ⟨⟩
      rfl
    · rintro _ ⟨⟩ v hn
      change (h.newVersion op).elim h.row _ v = _
      rw [hn]
      exact Function.update_self ..
    · rintro _ - ⟨⟩
    · rintro ⟨⟩
  · have he := effect_stampedBy hm hcan hv
    rw [History.newVersion,newPage_of_lock hreq] at he
    exact ⟨hcan.1,he.manager,.inr ⟨hw,.of_effect he (List.append_nil _).symm (fun _ _ => rfl)
      (by rintro _ ⟨⟩) (by rintro _ ⟨⟩) (by rintro _ ⟨⟩) (by rintro _ ⟨⟩) fun _ => rfl⟩⟩
  · exact ⟨hcan.1,rfl,.inr ⟨hw,.of_eq rfl (fun _ => rfl) rfl⟩⟩

theorem grown_insert (hs : step h (.insert xid page) = some t) :
    h.heap.Live xid ∧ t.heap.manager = h.heap.manager ∧
      Grown h t (some ⟨xid,h.command xid,h.heap.newTid page,none,some (h.heap.newTid page)⟩) := by
  simp only [step,Heap.step,Option.ite_none_right_eq_some] at hs
  obtain ⟨-,hs⟩ := hs
  obtain ⟨s,hheap,rfl⟩ := Option.map_eq_some_iff.1 hs
  simp only [Option.ite_none_right_eq_some,Option.some.injEq] at hheap
  obtain ⟨⟨hlive,hpage⟩,rfl⟩ := hheap
  have he := @effect_insert h.heap xid (h.command xid) page hpage
  refine ⟨hlive,rfl,.of_effect he rfl (fun u hne => ?_) ?_ (by rintro _ _ _ ⟨⟩) ?_ ?_
    (by rintro ⟨⟩)⟩
  · exact Function.update_of_ne (fun e => hne (congrArg some e.symm)) ..
  · rintro _ ⟨⟩
    exact ⟨rfl,rfl,rfl⟩
  · rintro _ ⟨⟩ v ⟨⟩
    exact Function.update_self ..
  · rintro _ ⟨⟩ -
    rfl

end Steps

section Root

theorem next_of_linkTo {s : Sys} {page slot : ℕ} {u : Tid}
    (hl : linkTo (s.pages page) u = some slot) : s.Next ⟨page,slot⟩ u := by
  unfold linkTo at hl
  have hslot := List.find?_some hl
  obtain ⟨hd,hh,hp⟩ := (Option.any_eq_true _ _).1 hslot
  exact ⟨hd,hh,of_decide_eq_true hp⟩

theorem hotChainRoot_row (hr : Rows h) {page : ℕ} {hops : ℕ} {u r : Tid} (hu : u.pageId = page)
    {hd : TupleHeader} (hh : h.heap.tuple u = some hd)
    (hroot : Heap.hotChainRoot (h.heap.pages page) page hops u = .ok r) :
    h.row r = h.row u ∧ ∃ hd, h.heap.tuple r = some hd := by
  induction hops generalizing u hd with
  | zero => cases hroot
  | succ hops ih =>
    have hget : (h.heap.pages page)[u.slotId]? = some hd := hu ▸ hh
    simp only [Heap.hotChainRoot,hget] at hroot
    split at hroot
    · cases hroot
      exact ⟨rfl,hd,hh⟩
    · cases hl : linkTo (h.heap.pages page) u with
      | none =>
        rw [hl] at hroot
        cases hroot
        exact ⟨rfl,hd,hh⟩
      | some slot =>
        rw [hl] at hroot
        obtain ⟨hd',hh',-⟩ := next_of_linkTo hl
        obtain ⟨hrow,hex⟩ := ih rfl hh' hroot
        exact ⟨hrow.trans (hr.link _ _ (next_of_linkTo hl)).1.symm,hex⟩

end Root

end HeapHistory
end PgAm
