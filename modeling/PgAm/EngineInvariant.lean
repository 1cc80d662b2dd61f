import PgAm.EngineIndex

/-! What the indexes have to do with the rows. The entries are those that the log of changes in
effect says; each change belongs to a write of its transaction, and a transaction that commits
without a failed row operation has made the changes that its writes ask for. -/
namespace PgAm
namespace Engine

open Machine Heap
open HeapHistory (History Write Call)
open UndoLog (Op)

variable {K : Type} {schema : Schema K} {e : Table K} {t : History} {xid : ℕ}

namespace Table

/-- The write ends a version of the root's chain, and what it creates is filed under itself. -/
def Closes (e : Table K) (w : Write) (u : Tid) : Prop :=
  w.old = some u ∧ ∀ v, w.new = some v → e.root v = v

def Justified (schema : Schema K) (e : Table K) (xid : ℕ) : Op (Entry K) → Prop
  | .inserted a => a.column ∈ schema.columns ∧ entryOf (e.values a.tid) a.tid a.column = some a ∧
      ∃ hd, e.history.heap.tuple a.tid = some hd ∧ hd.heapOnly = false ∧ hd.tXmin = xid
  | .deleted a => ∃ w ∈ e.history.writes, w.xid = xid ∧ ∃ u, e.Closes w u ∧
      a.column ∈ schema.columns ∧ entryOf (e.values u) (e.root u) a.column = some a

def Committed (e : Table K) (x : ℕ) : Prop := e.history.heap.manager.getState x = .committed

instance (e : Table K) (x : ℕ) : Decidable (e.Committed x) := inferInstanceAs (Decidable (_ = _))

/-- The transaction has committed, or is on the way to it without a failed row operation. -/
def Sound (e : Table K) (x : ℕ) : Prop :=
  e.Committed x ∨ (e.history.heap.Live x ∧ x ∉ e.failed ∧ x ∉ e.ending)

end Table

open Table

/-- A version without entries of its own is filed with the one before, which has its values. -/
structure Roots (schema : Schema K) (e : Table K) : Prop where
  own : ∀ tid hd, e.history.heap.tuple tid = some hd → hd.heapOnly = false → e.root tid = tid
  hot : ∀ w ∈ e.history.writes, ∀ v hd, w.new = some v → e.history.heap.tuple v = some hd →
    hd.heapOnly = true → ∃ u, w.old = some u ∧ e.root v = e.root u ∧
      ∀ c ∈ schema.columns, (e.values v)[c]? = (e.values u)[c]?

structure Inv (schema : Schema K) (e : Table K) : Prop where
  history : HeapHistory.Inv e.history
  roots : Roots schema e
  log : UndoLog.Inv e.Committed e.index e.applied
  applied : ∀ x op, (x,op) ∈ e.applied →
    e.Justified schema x op ∧ (e.history.heap.Live x ∨ e.Committed x)
  fits : ∀ x op, (x,op) ∈ e.applied → schema.fits op.entry.key = true
  pending : ∀ x, ∀ op ∈ e.pending x, e.Justified schema x op ∧ e.history.heap.Live x
  fresh : ∀ x a, .inserted a ∈ e.pending x → ∀ y, (y,.inserted a) ∉ e.applied
  nodup : ∀ x, (e.pending x).Nodup
  ending : ∀ x, e.pending x ≠ [] → x ∉ e.ending
  complete : ∀ w ∈ e.history.writes, e.Sound w.xid → ∀ v hd, w.new = some v →
    e.history.heap.tuple v = some hd → hd.heapOnly = false →
    ∀ c ∈ schema.columns, ∀ a, entryOf (e.values v) v c = some a →
      (w.xid,.inserted a) ∈ e.applied ∨ .inserted a ∈ e.pending w.xid

section Root

variable {u v : Tid}

theorem Roots.rooted (hr : Roots schema e) (hi : HeapHistory.Inv e.history) {w : Write}
    (hw : w ∈ e.history.writes) : VersionChain.Rooted Write.old Write.new e.root w := by
  intro v hnew
  obtain ⟨-,hd,hh⟩ := hi.versions.creates w hw v hnew
  cases honly : hd.heapOnly with
  | false => exact .inl (hr.own v hd hh honly)
  | true =>
    obtain ⟨u,hu,hroot,-⟩ := hr.hot w hw v hd hnew hh honly
    exact .inr ⟨u,hu,hroot⟩

theorem Roots.next (hr : Roots schema e) (hi : HeapHistory.Inv e.history)
    (hn : e.history.heap.Next u v) : e.root v = e.root u ∧
      ∀ c ∈ schema.columns, (e.values v)[c]? = (e.values u)[c]? := by
  obtain ⟨w,hw,hold,hnew⟩ := hi.links.write u v hn
  obtain ⟨hd,hh,honly⟩ := hi.links.chained.target u v hn
  obtain ⟨u',hu',hroot,hval⟩ := hr.hot w hw v hd hnew hh honly
  rw [hold] at hu'
  cases hu'
  exact ⟨hroot,hval⟩

theorem Roots.reach (hr : Roots schema e) (hi : HeapHistory.Inv e.history)
    (hn : Relation.ReflTransGen e.history.heap.Next u v) : e.root v = e.root u ∧
      ∀ c ∈ schema.columns, (e.values v)[c]? = (e.values u)[c]? := by
  induction hn with
  | refl => exact ⟨rfl,fun _ _ => rfl⟩
  | tail _ hn ih =>
    obtain ⟨hroot,hval⟩ := hr.next hi hn
    exact ⟨hroot.trans ih.1,fun c hc => (hval c hc).trans (ih.2 c hc)⟩

/-- The root of a version that has not been rolled back is where its chain starts. -/
theorem Roots.root_reaches (hr : Roots schema e) (hi : HeapHistory.Inv e.history) {a : Write}
    (ha : a ∈ e.history.rowWrites (e.history.row v)) (hnew : a.new = some v) :
    e.history.heap.IsRoot (e.root v) ∧
      Relation.ReflTransGen e.history.heap.Next (e.root v) v := by
  obtain ⟨r,hroot,hreach⟩ := hi.exists_root ha hnew
  have ⟨hd,hh,honly⟩ := hroot
  have he : e.root v = r := by rw [(hr.reach hi hreach).1,hr.own r hd hh honly]
  rw [he]
  exact ⟨hroot,hreach⟩

theorem Roots.hotChainRoot_eq (hr : Roots schema e) (hi : HeapHistory.Inv e.history) {a : Write}
    (ha : a ∈ e.history.rowWrites (e.history.row v)) (hnew : a.new = some v) :
    e.history.heap.hotChainRoot v = .ok (e.root v) := by
  obtain ⟨hroot,hreach⟩ := hr.root_reaches hi ha hnew
  exact Heap.hotChainRoot_eq hi.links.chained (fun _ _ _ => hi.next_unique) hroot hreach

end Root

/-- Tuples stay with their creator and their place in a chain, and a new tuple is the write's. -/
structure Grew (h t : History) (w : Option Write) : Prop where
  log : t.writes = h.writes ++ w.toList
  forward : ∀ tid hd, h.heap.tuple tid = some hd → ∃ hd', t.heap.tuple tid = some hd' ∧
    hd'.tXmin = hd.tXmin ∧ hd'.heapOnly = hd.heapOnly
  back : ∀ tid hd, t.heap.tuple tid = some hd → (∃ hd₀, h.heap.tuple tid = some hd₀ ∧
    hd.tXmin = hd₀.tXmin ∧ hd.heapOnly = hd₀.heapOnly) ∨ ∃ a ∈ w, a.new = some tid

namespace Grew

variable {h : History} {w : Option Write}

theorem of_call {hot : Bool} {target new : Option Tid} (hc : Call h t xid hot target new w) :
    Grew h t w where
  log := hc.log
  forward tid hd hh := by
    obtain ⟨hd',hh',hmin,honly,-⟩ := hc.effect.forward hh
    exact ⟨hd',hh',hmin,honly⟩
  back tid hd hh := by
    obtain ⟨hnew,-⟩ | ⟨-,hd₀,h₀,hst⟩ | ⟨-,-,h₀⟩ := hc.effect.cases hh
    · cases hw : w with
      | none =>
        rw [hc.lock hw] at hnew
        cases hnew
      | some a => exact .inr ⟨a,rfl,(hc.write a hw).2.2.2.trans hnew⟩
    · exact .inl ⟨hd₀,h₀,hst.tXmin,hst.heapOnly⟩
    · exact .inl ⟨hd,h₀,rfl,rfl⟩

theorem of_eq (hw : t.writes = h.writes) (hp : ∀ tid, t.heap.tuple tid = h.heap.tuple tid) :
    Grew h t none where
  log := by rw [hw]; exact (List.append_nil _).symm
  forward tid hd hh := ⟨hd,by rw [hp,hh],rfl,rfl⟩
  back tid hd hh := .inl ⟨hd,by rw [← hp,hh],rfl,rfl⟩

end Grew

/-- A step that writes no row keeps the invariant, if its end of a transaction is allowed. -/
theorem Inv.unwritten (hi : Inv schema e) (ht : HeapHistory.Inv t) (hg : Grew e.history t none)
    (hcomm : ∀ x, e.Committed x → t.heap.manager.getState x = .committed)
    (hlive : ∀ x, e.history.heap.Live x → t.heap.Live x ∨
      (e.pending x = [] ∧ t.heap.manager.getState x = .committed) ∨
      (e.pending x = [] ∧ ∀ op, (x,op) ∉ e.applied))
    (hsound : ∀ w ∈ e.history.writes, ({ e with history := t } : Table K).Sound w.xid →
      e.Sound w.xid) :
    Inv schema { e with history := t } := by
  have hwrites : t.writes = e.history.writes := by
    rw [hg.log]
    exact List.append_nil _
  have hback : ∀ {tid hd}, t.heap.tuple tid = some hd → ∃ hd₀, e.history.heap.tuple tid = some hd₀ ∧
      hd.tXmin = hd₀.tXmin ∧ hd.heapOnly = hd₀.heapOnly := fun {tid hd} hh => by
    rcases hg.back tid hd hh with h₀ | ⟨a,ha,-⟩
    · exact h₀
    · cases ha
  have hjust : ∀ x op, e.Justified schema x op →
      ({ e with history := t } : Table K).Justified schema x op := by
    intro x op hj
    cases op with
    | inserted a =>
      obtain ⟨hc,he,hd,hh,honly,hmin⟩ := hj
      obtain ⟨hd',hh',hmin',honly'⟩ := hg.forward _ _ hh
      exact ⟨hc,he,hd',hh',honly'.trans honly,hmin'.trans hmin⟩
    | deleted a =>
      obtain ⟨w,hw,hx,u,hcl,hc,he⟩ := hj
      exact ⟨w,by rw [hwrites]; exact hw,hx,u,hcl,hc,he⟩
  refine ⟨ht,⟨fun tid hd hh honly => ?_,fun w hw v hd hnew hh honly => ?_⟩,hi.log.mono hcomm,
    fun x op hmem => ?_,hi.fits,fun x op hmem => ?_,hi.fresh,hi.nodup,hi.ending,
    fun w hw hs v hd hnew hh honly c hc a ha => ?_⟩
  · obtain ⟨hd₀,h₀,-,honly₀⟩ := hback hh
    exact hi.roots.own tid hd₀ h₀ (honly₀.symm.trans honly)
  · rw [hwrites] at hw
    obtain ⟨hd₀,h₀,-,honly₀⟩ := hback hh
    exact hi.roots.hot w hw v hd₀ hnew h₀ (honly₀.symm.trans honly)
  · obtain ⟨hj,hst⟩ := hi.applied x op hmem
    refine ⟨hjust x op hj,?_⟩
    rcases hst with hl | hc
    · rcases hlive x hl with hl | ⟨-,hc⟩ | ⟨-,hno⟩
      · exact .inl hl
      · exact .inr hc
      · exact absurd hmem (hno op)
    · exact .inr (hcomm x hc)
  · obtain ⟨hj,hl⟩ := hi.pending x op hmem
    refine ⟨hjust x op hj,?_⟩
    rcases hlive x hl with hl | ⟨hp,-⟩ | ⟨hp,-⟩
    · exact hl
    · rw [show e.pending x = [] from hp] at hmem
      cases hmem
    · rw [show e.pending x = [] from hp] at hmem
      cases hmem
  · rw [hwrites] at hw
    obtain ⟨hd₀,h₀,-,honly₀⟩ := hback hh
    exact hi.complete w hw (hsound w hw hs) v hd₀ hnew h₀ (honly₀.symm.trans honly) c hc a ha

structure RowOp (schema : Schema K) (e e' : Table K) (xid : ℕ) (hot : Bool)
    (target new : Option Tid) : Prop where
  index : e'.index = e.index ∧ e'.applied = e.applied ∧ e'.ending = e.ending
  failed : ∀ x, x ∉ e'.failed → x ∉ e.failed
  others : ∀ x, x ≠ xid → e'.pending x = e.pending x
  kept : ∀ tid, new ≠ some tid → e'.values tid = e.values tid ∧ e'.root tid = e.root tid
  own : ∀ v, new = some v → hot = false → e'.root v = v
  linked : ∀ v, new = some v → hot = true → ∃ u, target = some u ∧ e'.root v = e.root u ∧
    ∀ c ∈ schema.columns, (e'.values v)[c]? = (e.values u)[c]?

/-- What a row operation leaves to do to the indexes. -/
structure Leaves (schema : Schema K) (e' : Table K) (xid : ℕ) (hot : Bool) (new : Option Tid) :
    Prop where
  justified : ∀ op ∈ e'.pending xid, e'.Justified schema xid op
  inserts : ∀ a, .inserted a ∈ e'.pending xid → new = some a.tid
  nodup : (e'.pending xid).Nodup
  covers : xid ∉ e'.failed → ∀ v, new = some v → hot = false → ∀ c ∈ schema.columns, ∀ a,
    entryOf (e'.values v) v c = some a → .inserted a ∈ e'.pending xid

section RowOp

variable {e' : Table K} {hot : Bool} {target new : Option Tid} {w : Write}

theorem RowOp.kept_of_tuple (hr : RowOp schema e e' xid hot target new)
    (hc : Call e.history e'.history xid hot target new (some w)) {tid : Tid} {hd : TupleHeader}
    (hh : e.history.heap.tuple tid = some hd) :
    e'.values tid = e.values tid ∧ e'.root tid = e.root tid :=
  hr.kept tid (hc.effect.ne_new hh)

theorem RowOp.justified_kept (hr : RowOp schema e e' xid hot target new)
    (hc : Call e.history e'.history xid hot target new (some w)) (hi : Inv schema e) {x : ℕ}
    {op : Op (Entry K)} (hj : e.Justified schema x op) : e'.Justified schema x op := by
  cases op with
  | inserted a =>
    obtain ⟨hcol,he,hd,hh,honly,hmin⟩ := hj
    obtain ⟨hd',hh',hmin',honly',-⟩ := hc.effect.forward hh
    refine ⟨hcol,?_,hd',hh',honly'.trans honly,hmin'.trans hmin⟩
    rw [(hr.kept_of_tuple hc hh).1]
    exact he
  | deleted a =>
    obtain ⟨b,hb,hx,u,hcl,hcol,he⟩ := hj
    obtain ⟨-,hd,hh,-⟩ := hi.history.versions.ended b hb u hcl.1
    obtain ⟨hv,hroot⟩ := hr.kept_of_tuple hc hh
    refine ⟨b,hc.mem_writes.2 (.inl hb),hx,u,⟨hcl.1,fun v hnew => ?_⟩,hcol,
      by rw [hv,hroot]; exact he⟩
    obtain ⟨-,hd',hh'⟩ := hi.history.versions.creates b hb v hnew
    rw [(hr.kept_of_tuple hc hh').2]
    exact hcl.2 v hnew

theorem RowOp.roots (hr : RowOp schema e e' xid hot target new)
    (hc : Call e.history e'.history xid hot target new (some w)) (hi : Inv schema e) :
    Roots schema e' := by
  obtain ⟨-,-,hwold,hwnew⟩ := hc.write w rfl
  refine ⟨fun tid hd hh honly => ?_,fun b hb v hd hnew hh honly => ?_⟩
  · obtain ⟨hn,rfl⟩ | ⟨-,hd₀,h₀,hst⟩ | ⟨-,-,h₀⟩ := hc.effect.cases hh
    · exact hr.own tid hn honly
    · rw [(hr.kept_of_tuple hc h₀).2]
      exact hi.roots.own tid hd₀ h₀ (hst.heapOnly.symm.trans honly)
    · rw [(hr.kept_of_tuple hc h₀).2]
      exact hi.roots.own tid hd h₀ honly
  · have hold : ∀ hd₀, e.history.heap.tuple v = some hd₀ → hd₀.heapOnly = true →
        ∃ u, b.old = some u ∧ e'.root v = e'.root u ∧
          ∀ c ∈ schema.columns, (e'.values v)[c]? = (e'.values u)[c]? := by
      intro hd₀ h₀ honly₀
      have hb' : b ∈ e.history.writes := by
        rcases hc.mem_writes.1 hb with hb | hb
        · exact hb
        · cases hb
          exact absurd (hwnew.symm.trans hnew) (hc.effect.ne_new h₀)
      obtain ⟨u,hu,hroot,hval⟩ := hi.roots.hot b hb' v hd₀ hnew h₀ honly₀
      obtain ⟨-,hdu,hhu,-⟩ := hi.history.versions.ended b hb' u hu
      obtain ⟨hv₁,hr₁⟩ := hr.kept_of_tuple hc h₀
      obtain ⟨hv₂,hr₂⟩ := hr.kept_of_tuple hc hhu
      exact ⟨u,hu,by rw [hr₁,hr₂,hroot],by rw [hv₁,hv₂]; exact hval⟩
    obtain ⟨hn,rfl⟩ | ⟨-,hd₀,h₀,hst⟩ | ⟨-,-,h₀⟩ := hc.effect.cases hh
    · obtain ⟨u,hu,hroot,hval⟩ := hr.linked v hn honly
      have hbw : b = w := by
        rcases hc.mem_writes.1 hb with hb | hb
        · obtain ⟨-,hd',hh'⟩ := hi.history.versions.creates b hb v hnew
          exact absurd hn (hc.effect.ne_new hh')
        · exact (Option.some.inj hb).symm
      obtain ⟨hdu,-,hhu,-⟩ := hc.effect.stamped u hu
      obtain ⟨hv₂,hr₂⟩ := hr.kept_of_tuple hc hhu
      exact ⟨u,by rw [hbw,hwold,hu],by rw [hr₂,hroot],by rw [hv₂]; exact hval⟩
    · exact hold hd₀ h₀ (hst.heapOnly.symm.trans honly)
    · exact hold hd h₀ honly

/-- The row operation of an idle transaction keeps the invariant. -/
theorem RowOp.inv (hr : RowOp schema e e' xid hot target new)
    (hc : Call e.history e'.history xid hot target new (some w)) (hi : Inv schema e)
    (hidle : e.Idle xid) (hleaves : Leaves schema e' xid hot new) : Inv schema e' := by
  obtain ⟨hindex,happlied,hending⟩ := hr.index
  obtain ⟨hwx,-,-,hwnew⟩ := hc.write w rfl
  have hlive : ∀ x, e'.history.heap.Live x ↔ e.history.heap.Live x := hc.live_iff
  have hcomm : ∀ x, e'.Committed x ↔ e.Committed x := fun x => by
    rw [Table.Committed,Table.Committed,hc.effect.manager]
  have hnotcomm : ¬e.Committed xid := by
    rw [Table.Committed,hc.live.2]
    nofun
  refine ⟨hc.inv hi.history,hr.roots hc hi,?_,fun x op hmem => ?_,by rw [happlied]; exact hi.fits,
    fun x op hmem => ?_,fun x a hmem y hy => ?_,fun x => ?_,fun x hp => ?_,
    fun b hb hs v hd hnew hh honly c hcol a ha => ?_⟩
  · rw [hindex,happlied]
    exact hi.log.mono fun x => (hcomm x).2
  · rw [happlied] at hmem
    obtain ⟨hj,hst⟩ := hi.applied x op hmem
    exact ⟨hr.justified_kept hc hi hj,hst.imp (hlive x).2 (hcomm x).2⟩
  · by_cases hx : x = xid
    · subst hx
      exact ⟨hleaves.justified op hmem,(hlive x).2 hc.live⟩
    · rw [hr.others x hx] at hmem
      obtain ⟨hj,hl⟩ := hi.pending x op hmem
      exact ⟨hr.justified_kept hc hi hj,(hlive x).2 hl⟩
  · rw [happlied] at hy
    by_cases hx : x = xid
    · subst hx
      obtain ⟨⟨-,-,hd,hh,-⟩,-⟩ := hi.applied y _ hy
      exact hc.effect.ne_new hh (hleaves.inserts a hmem)
    · rw [hr.others x hx] at hmem
      exact hi.fresh x a hmem y hy
  · by_cases hx : x = xid
    · rw [hx]
      exact hleaves.nodup
    · rw [hr.others x hx]
      exact hi.nodup x
  · rw [hending]
    by_cases hx : x = xid
    · rw [hx]
      exact hidle.2
    · rw [hr.others x hx] at hp
      exact hi.ending x hp
  · rw [happlied]
    have hs' : e.Sound b.xid := by
      rcases hs with hs | ⟨hl,hf,hend⟩
      · exact .inl ((hcomm _).1 hs)
      · exact .inr ⟨(hlive _).1 hl,hr.failed _ hf,hending ▸ hend⟩
    rcases hc.mem_writes.1 hb with hb | hb
    · obtain ⟨-,hd₀,h₀⟩ := hi.history.versions.creates b hb v hnew
      obtain ⟨hd',hh',-,honly',-⟩ := hc.effect.forward h₀
      rw [hh] at hh'
      cases hh'
      rw [(hr.kept_of_tuple hc h₀).1] at ha
      have hdone := hi.complete b hb hs' v hd₀ hnew h₀ (honly'.symm.trans honly) c hcol a ha
      by_cases hx : b.xid = xid
      · rw [hx,hidle.1] at hdone
        rw [hx]
        exact .inl (hdone.resolve_right List.not_mem_nil)
      · rw [hr.others _ hx]
        exact hdone
    · obtain rfl := Option.some.inj hb
      have hn := hwnew.symm.trans hnew
      rw [hc.effect.created v hn] at hh
      cases hh
      rw [hwx] at hs ⊢
      have hf : xid ∉ e'.failed := by
        rcases hs with hs | hs
        · exact absurd ((hcomm _).1 hs) hnotcomm
        · exact hs.2.1
      exact .inr (hleaves.covers hf v hn honly c hcol a ha)

end RowOp

end Engine
end PgAm
