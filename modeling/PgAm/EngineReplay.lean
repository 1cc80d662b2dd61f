import PgAm.EngineRecovery

/-! The log says what is in the table. Redo of the log so far gives the tuples of the table, up
to row locks and command numbers, its entries and its outcomes, and the log has the delete and
update records of all writes that removed entries. -/
namespace PgAm
namespace EngineLog

open Machine Heap Function
open Engine (Entry Schema Table)
open HeapHistory (History Write Call)
open UndoLog (Op)
open RecordStream (Item)

variable {K : Type} {schema : Schema K} {e e' : Table K} {r r' : Restored K} {xid : ℕ}

/-- A header as redo rebuilds it: its `t_xmax` is that of the last write. -/
structure Rebuilt (h : History) (tid : Tid) (hd hd' : TupleHeader) : Prop where
  tXmin : hd'.tXmin = hd.tXmin
  heapOnly : hd'.heapOnly = hd.heapOnly
  hotUpdated : hd'.hotUpdated = hd.hotUpdated
  tCtid : hd'.tCtid = hd.tCtid
  lockOnly : hd'.xmaxLockOnly = false
  ended : ∀ w ∈ h.writes, w.old = some tid → h.Alive w.xid → hd'.tXmax = w.xid
  stamped : hd'.tXmax ≠ TxnId.invalid → ∃ w ∈ h.writes, w.old = some tid ∧ w.xid = hd'.tXmax

structure Mirrors (e : Table K) (r : Restored K) : Prop where
  clog : r.heap.manager.clog = e.history.heap.manager.clog
  relation : r.heap.relation = e.history.heap.relation
  index : r.index = e.index
  tuple : ∀ tid hd, e.history.heap.tuple tid = some hd →
    ∃ hd', r.heap.tuple tid = some hd' ∧ Rebuilt e.history tid hd hd'
  back : ∀ tid hd', r.heap.tuple tid = some hd' → ∃ hd, e.history.heap.tuple tid = some hd
  values : ∀ tid hd, e.history.heap.tuple tid = some hd → r.values tid = e.values tid

structure Redone (r r' : Restored K) (xid cid : ℕ) (hot : Bool) (target new : Option Tid)
    (values : List (Option K)) : Prop where
  frame : r'.heap.manager = r.heap.manager ∧ r'.heap.relation = r.heap.relation ∧
    r'.index = r.index
  kept : ∀ tid, target ≠ some tid → new ≠ some tid → r'.heap.tuple tid = r.heap.tuple tid
  stamped : ∀ tid hd, target = some tid → r.heap.tuple tid = some hd →
    ∃ hd', r'.heap.tuple tid = some hd' ∧ hd'.tXmin = hd.tXmin ∧ hd'.heapOnly = hd.heapOnly ∧
      hd'.tXmax = xid ∧ hd'.xmaxLockOnly = false ∧
      if hot = true then hd'.hotUpdated = true ∧ new = some hd'.tCtid
      else hd'.hotUpdated = hd.hotUpdated ∧ hd'.tCtid = hd.tCtid
  created : ∀ tid, new = some tid → r'.heap.tuple tid = some (.new xid cid hot)
  oldValues : ∀ tid, new ≠ some tid → r'.values tid = r.values tid
  newValues : ∀ tid, new = some tid → r'.values tid = values

section Redo

variable {u v : Tid} {hd : TupleHeader} {cid : ℕ} {values : List (Option K)}

theorem newTid_eq (hm : Mirrors e r) (page : ℕ) :
    r.heap.newTid page = e.history.heap.newTid page := by
  have hlen : (r.heap.pages page).length = (e.history.heap.pages page).length := by
    refine le_antisymm ?_ ?_
    · by_contra hlt
      have hget : ∃ hd', r.heap.tuple ⟨page,(e.history.heap.pages page).length⟩ = some hd' :=
        ⟨_,List.getElem?_eq_getElem (not_le.1 hlt)⟩
      obtain ⟨hd',hh⟩ := hget
      obtain ⟨hd,hh'⟩ := hm.back _ hd' hh
      exact absurd hh' (by rw [Sys.tuple,List.getElem?_eq_none le_rfl]; rintro ⟨⟩)
    · by_contra hlt
      have hget : ∃ hd, e.history.heap.tuple ⟨page,(r.heap.pages page).length⟩ = some hd :=
        ⟨_,List.getElem?_eq_getElem (not_le.1 hlt)⟩
      obtain ⟨hd,hh⟩ := hget
      obtain ⟨hd',hh',-⟩ := hm.tuple _ hd hh
      exact absurd hh' (by rw [Sys.tuple,List.getElem?_eq_none le_rfl]; rintro ⟨⟩)
  rw [Sys.newTid,Sys.newTid,hlen]

theorem redone_insert (hnew : r.heap.newTid v.pageId = v) :
    ∃ r', r.add v (.new xid cid false) values = some r' ∧
      Redone r r' xid cid false none (some v) values := by
  refine ⟨_,if_pos hnew,⟨rfl,rfl,rfl⟩,fun tid _ hne => ?_,nofun,fun tid he => ?_,
    fun tid hne => update_of_ne (fun he => hne (congrArg some he.symm)) ..,
    fun tid he => ?_⟩
  · exact tuple_addTuple_of_ne fun he => hne (by rw [he,hnew])
  · cases he
    have hadd := @tuple_addTuple_newTid r.heap v.pageId (.new xid cid false)
    rwa [hnew] at hadd
  · cases he
    exact update_self ..

theorem redone_delete (hh : r.heap.tuple u = some hd) :
    ∃ r', r.stamp u (stampDeleted · xid false) = some r' ∧
      Redone r r' xid cid false (some u) none values := by
  refine ⟨{ r with heap := r.heap.modifyTuple u (stampDeleted · xid false) },
    by rw [Restored.stamp,hh],⟨rfl,rfl,rfl⟩,fun tid hne _ => ?_,fun tid hd' he hh' => ?_,nofun,
    fun _ _ => rfl,nofun⟩
  · exact tuple_modifyTuple_of_ne fun he => hne (congrArg some he.symm)
  · cases he
    refine ⟨stampDeleted hd' xid false,?_,rfl,rfl,rfl,rfl,rfl,rfl⟩
    rw [tuple_modifyTuple_self,hh']
    rfl

theorem redone_update (hot : Bool) (f : TupleHeader → TupleHeader)
    (hf : ∀ hd, (f hd).tXmin = hd.tXmin ∧ (f hd).heapOnly = hd.heapOnly ∧ (f hd).tXmax = xid ∧
      (f hd).xmaxLockOnly = false ∧
      if hot = true then (f hd).hotUpdated = true ∧ some v = some (f hd).tCtid
      else (f hd).hotUpdated = hd.hotUpdated ∧ (f hd).tCtid = hd.tCtid)
    (hh : r.heap.tuple u = some hd) (hnew : r.heap.newTid v.pageId = v) :
    ∃ r', (r.stamp u f).bind (·.add v (.new xid cid hot) values) = some r' ∧
      Redone r r' xid cid hot (some u) (some v) values := by
  have hnew' : (r.heap.modifyTuple u f).newTid v.pageId = v := newTid_modifyTuple.trans hnew
  have huv : u ≠ v := by
    rintro rfl
    rw [← hnew,tuple_newTid] at hh
    cases hh
  have hstamp : r.stamp u f = some { r with heap := r.heap.modifyTuple u f } := by
    rw [Restored.stamp,hh]
  refine ⟨{ r with
      heap := (r.heap.modifyTuple u f).addTuple v.pageId (.new xid cid hot)
      values := update r.values v values },
    by rw [hstamp,Option.bind_some,Restored.add,if_pos hnew'],⟨rfl,rfl,rfl⟩,
    fun tid hne hne' => ?_,fun tid hd' he hh' => ?_,fun tid he => ?_,
    fun tid hne => update_of_ne (fun he => hne (congrArg some he.symm)) ..,
    fun tid he => ?_⟩
  · change ((r.heap.modifyTuple u f).addTuple v.pageId _).tuple tid = _
    rw [tuple_addTuple_of_ne fun he => hne' (by rw [he,hnew']),
      tuple_modifyTuple_of_ne fun he => hne (congrArg some he.symm)]
  · cases he
    refine ⟨f hd',?_,hf hd'⟩
    change ((r.heap.modifyTuple u f).addTuple v.pageId _).tuple u = _
    rw [tuple_addTuple_of_ne fun he => huv (he.trans hnew'),tuple_modifyTuple_self,hh']
    rfl
  · cases he
    have hadd := @tuple_addTuple_newTid (r.heap.modifyTuple u f) v.pageId (.new xid cid hot)
    rwa [hnew'] at hadd
  · cases he
    exact update_self ..

end Redo

section Step

variable {hot : Bool} {target new : Option Tid} {w : Write} {values : List (Option K)}

/-- A row operation and the redo of its record do the same. -/
theorem Mirrors.call (hm : Mirrors e r) (hi : HeapHistory.Inv e.history)
    (hc : Call e.history e'.history xid hot target new (some w))
    (hr : Redone r r' xid (e.history.command xid) hot target new values)
    (hindex : e'.index = e.index)
    (hold : ∀ tid, new ≠ some tid → e'.values tid = e.values tid)
    (hnew : ∀ tid, new = some tid → e'.values tid = values) : Mirrors e' r' := by
  obtain ⟨hman,hrel,hidx⟩ := hr.frame
  obtain ⟨hwx,-,hwold,-⟩ := hc.write w rfl
  have hmem : ∀ {a : Write}, a ∈ e'.history.writes ↔ a ∈ e.history.writes ∨ a = w := by
    intro a
    rw [hc.mem_writes,Option.mem_def,Option.some.injEq,eq_comm]
  refine ⟨by rw [hman,hm.clog,hc.effect.manager],by rw [hrel,hm.relation,hc.effect.relation],
    by rw [hidx,hm.index,hindex],fun tid hd hh => ?_,fun tid hd' hh' => ?_,fun tid hd hh => ?_⟩
  · obtain ⟨hn,rfl⟩ | ⟨ht,hd₀,h₀,hst⟩ | ⟨ht,hn,h₀⟩ := hc.effect.cases hh
    · refine ⟨_,hr.created tid hn,rfl,rfl,rfl,rfl,rfl,fun a ha haold _ => ?_,nofun⟩
      have htuple : ∃ hd, e.history.heap.tuple tid = some hd := by
        rcases hmem.1 ha with ha | rfl
        · obtain ⟨-,hd,hh,-⟩ := hi.versions.ended a ha tid haold
          exact ⟨hd,hh⟩
        · obtain ⟨hd,-,hh,-⟩ := hc.effect.stamped tid (hwold.symm.trans haold)
          exact ⟨hd,hh⟩
      obtain ⟨hd,hh⟩ := htuple
      exact absurd hn (hc.effect.ne_new hh)
    · obtain ⟨hd₁,h₁,hlike⟩ := hm.tuple tid hd₀ h₀
      obtain ⟨hd',h',hmin,honly,hmax,hlock,hchain⟩ := hr.stamped tid hd₁ ht h₁
      have hch := hst.chain
      refine ⟨hd',h',hmin.trans (hlike.tXmin.trans hst.tXmin.symm),
        honly.trans (hlike.heapOnly.trans hst.heapOnly.symm),?_,?_,hlock,fun a ha haold hal => ?_,
        fun _ => ⟨w,hmem.2 (.inr rfl),hwold.trans ht,hwx.trans hmax.symm⟩⟩
      · split at hchain
        · rename_i hhot
          rw [if_pos hhot] at hch
          rw [hchain.1,hch.1]
        · rename_i hhot
          rw [if_neg hhot] at hch
          rw [hchain.1,hch.1,hlike.hotUpdated]
      · split at hchain
        · rename_i hhot
          rw [if_pos hhot] at hch
          exact Option.some.inj (hchain.2.symm.trans hch.2)
        · rename_i hhot
          rw [if_neg hhot] at hch
          rw [hchain.2,hch.2,hlike.tCtid]
      · rcases hmem.1 ha with ha | rfl
        · exact absurd ((hc.alive_iff _).1 hal) (hc.free tid ht a ha haold)
        · exact hmax.trans hwx.symm
    · obtain ⟨hd',h',hlike⟩ := hm.tuple tid hd h₀
      refine ⟨hd',by rw [hr.kept tid ht hn]; exact h',hlike.tXmin,hlike.heapOnly,hlike.hotUpdated,
        hlike.tCtid,hlike.lockOnly,fun a ha haold hal => ?_,fun hne => ?_⟩
      · rcases hmem.1 ha with ha | rfl
        · exact hlike.ended a ha haold ((hc.alive_iff _).1 hal)
        · exact absurd (hwold.symm.trans haold) ht
      · obtain ⟨a,ha,hax⟩ := hlike.stamped hne
        exact ⟨a,hmem.2 (.inl ha),hax⟩
  · by_cases hn : new = some tid
    · exact ⟨_,hc.effect.created tid hn⟩
    · by_cases ht : target = some tid
      · obtain ⟨-,hd,-,hh,-⟩ := hc.effect.stamped tid ht
        exact ⟨hd,hh⟩
      · rw [hr.kept tid ht hn] at hh'
        obtain ⟨hd,hh⟩ := hm.back tid hd' hh'
        exact ⟨hd,by rw [hc.effect.kept tid ht hn]; exact hh⟩
  · by_cases hn : new = some tid
    · rw [hr.newValues tid hn,hnew tid hn]
    · rw [hr.oldValues tid hn,hold tid hn]
      obtain ⟨hn',-⟩ | ⟨-,hd₀,h₀,-⟩ | ⟨-,-,h₀⟩ := hc.effect.cases hh
      · exact absurd hn' hn
      · exact hm.values tid hd₀ h₀
      · exact hm.values tid hd h₀

/-- A row lock is not logged and not rebuilt. -/
theorem Mirrors.lock {t : History} (hm : Mirrors e r)
    (hc : Call e.history t xid false target none none) :
    Mirrors { e with history := t } r := by
  have hwrites : t.writes = e.history.writes := by
    rw [hc.log]
    exact List.append_nil _
  have hback : ∀ {tid hd}, t.heap.tuple tid = some hd → ∃ hd₀, e.history.heap.tuple tid = some hd₀ ∧
      hd.tXmin = hd₀.tXmin ∧ hd.heapOnly = hd₀.heapOnly ∧ hd.hotUpdated = hd₀.hotUpdated ∧
      hd.tCtid = hd₀.tCtid := fun {tid hd} hh => by
    obtain ⟨hn,-⟩ | ⟨-,hd₀,h₀,hst⟩ | ⟨-,-,h₀⟩ := hc.effect.cases hh
    · cases hn
    · exact ⟨hd₀,h₀,hst.tXmin,hst.heapOnly,hst.chain⟩
    · exact ⟨hd,h₀,rfl,rfl,rfl,rfl⟩
  refine ⟨by rw [hm.clog,← hc.effect.manager],by rw [hm.relation,← hc.effect.relation],hm.index,
    fun tid hd hh => ?_,fun tid hd' hh' => ?_,fun tid hd hh => ?_⟩
  · obtain ⟨hd₀,h₀,hmin,honly,hup,hct⟩ := hback hh
    obtain ⟨hd',h',hlike⟩ := hm.tuple tid hd₀ h₀
    refine ⟨hd',h',hlike.tXmin.trans hmin.symm,hlike.heapOnly.trans honly.symm,
      hlike.hotUpdated.trans hup.symm,hlike.tCtid.trans hct.symm,hlike.lockOnly,
      fun a ha haold hal => ?_,fun hne => ?_⟩
    · exact hlike.ended a (hwrites ▸ ha) haold ((hc.alive_iff _).1 hal)
    · obtain ⟨a,ha,hax⟩ := hlike.stamped hne
      exact ⟨a,hwrites.symm ▸ ha,hax⟩
  · obtain ⟨hd,hh⟩ := hm.back tid hd' hh'
    obtain ⟨hd₁,h₁,-⟩ := hc.effect.forward hh
    exact ⟨hd₁,h₁⟩
  · obtain ⟨hd₀,h₀,-⟩ := hback hh
    exact hm.values tid hd₀ h₀

theorem Mirrors.frame {t : History} (hm : Mirrors e r)
    (hclog : r'.heap.manager.clog = t.heap.manager.clog)
    (hrel : r'.heap.relation = t.heap.relation)
    (ht : t.heap.pages = e.history.heap.pages ∧ t.writes = e.history.writes)
    (halive : ∀ x, t.Alive x → e.history.Alive x)
    (hr : r'.heap.pages = r.heap.pages ∧ r'.index = r.index ∧ r'.values = r.values) :
    Mirrors { e with history := t } r' := by
  obtain ⟨hpages,hwrites⟩ := ht
  obtain ⟨hpages',hindex,hvalues⟩ := hr
  have htuple : ∀ tid, t.heap.tuple tid = e.history.heap.tuple tid := fun tid => by
    rw [Sys.tuple,Sys.tuple,hpages]
  have htuple' : ∀ tid, r'.heap.tuple tid = r.heap.tuple tid := fun tid => by
    rw [Sys.tuple,Sys.tuple,hpages']
  refine ⟨hclog,hrel,hindex.trans hm.index,fun tid hd hh => ?_,fun tid hd' hh' => ?_,
    fun tid hd hh => ?_⟩
  · rw [htuple] at hh
    obtain ⟨hd',h',hlike⟩ := hm.tuple tid hd hh
    refine ⟨hd',(htuple' tid).trans h',hlike.tXmin,hlike.heapOnly,hlike.hotUpdated,hlike.tCtid,
      hlike.lockOnly,fun a ha haold hal => ?_,fun hne => ?_⟩
    · exact hlike.ended a (hwrites ▸ ha) haold (halive _ hal)
    · obtain ⟨a,ha,hax⟩ := hlike.stamped hne
      exact ⟨a,hwrites.symm ▸ ha,hax⟩
  · rw [htuple'] at hh'
    obtain ⟨hd,hh⟩ := hm.back tid hd' hh'
    exact ⟨hd,(htuple tid).trans hh⟩
  · rw [htuple] at hh
    rw [hvalues]
    exact hm.values tid hd hh

end Step

/-- After a row operation that stopped half way a transaction is rolled back. -/
def Orderly (e : Table K) : Engine.Step K → Prop
  | .insert xid .. | .update xid .. | .delete xid .. | .commit xid => xid ∉ e.failed
  | _ => True

instance (e : Table K) : (a : Engine.Step K) → Decidable (Orderly e a)
  | .insert xid .. | .update xid .. | .delete xid .. | .commit xid =>
    inferInstanceAs (Decidable (xid ∉ e.failed))
  | .act _ | .maintain _ | .beginAbort _ | .undo _ | .abort _ => .isTrue trivial

theorem Orderly.noFailedCommit {a : Engine.Step K}
    (h : Orderly e a) : Engine.NoFailedCommit e a := by
  cases a with
  | commit xid => exact h
  | act _ | insert _ _ _ | update _ _ _ _ _ _ | delete _ _ _ _ | maintain _ | beginAbort _ | undo _
  | abort _ => exact trivial

/-- The transaction and the version whose entries the record's statement removes. -/
def Record.removes : Record K → Option (ℕ × Tid)
  | .heapDelete xid tid => some (xid,tid)
  | .heapUpdate xid oldTid .. => some (xid,oldTid)
  | _ => none

structure Tied [DecidableEq K] (schema : Schema K) (e : Table K) (rs : List (Record K)) : Prop where
  inv : Engine.Inv schema e
  keys : ∀ w ∈ e.history.writes, ∀ u, w.old = some u → ∀ c ∈ schema.columns, ∀ a,
    Table.entryOf (e.values u) (e.root u) c = some a → schema.fits a.key = true
  restored : ∃ r, rs.foldlM Restored.redo Restored.empty = some r ∧ Mirrors e r
  removes : ∀ w ∈ e.history.writes, ∀ u, e.Closes w u → ∃ r ∈ rs, r.removes = some (w.xid,u)
  writes : ∀ r ∈ rs, ∀ x u, r.removes = some (x,u) →
    ∃ w ∈ e.history.writes, w.xid = x ∧ w.old = some u
  logged : ∀ w ∈ e.history.writes, ∃ r ∈ rs, r.txnId = w.xid
  begun : ∀ r ∈ rs, r.txnId ≠ TxnId.invalid → r.txnId < e.history.heap.manager.txnIdClock ∧
    (e.history.heap.Live r.txnId ∨ ∃ r' ∈ rs, r'.ends = some r.txnId)
  ended : ∀ r ∈ rs, ∀ x, r.ends = some x → e.history.heap.manager.getState x = .committed ∨
    e.history.heap.manager.getState x = .aborted

theorem key_fits (hi : Engine.Inv schema e) (hidle : e.Idle xid) (hlive : e.history.heap.Live xid)
    (hf : xid ∉ e.failed) {u : Tid} (hscan : u ∈ e.history.scanned xid) {c : ℕ}
    (hc : c ∈ schema.columns) {a : Entry K}
    (ha : Table.entryOf (e.values u) (e.root u) c = some a) : schema.fits a.key = true := by
  obtain ⟨b,hb,hbu,hknown⟩ := Engine.created_of_scanned hi.history hlive hscan
  obtain ⟨d,hd,hdnew,hdx⟩ := hi.root_known hb hbu hknown
  obtain ⟨⟨hd₀,h₀,honly⟩,hreach⟩ := hi.roots.root_reaches hi.history hb hbu
  have hsound : e.Sound d.xid := hdx.elim (fun h => .inr (h ▸ ⟨hlive,hf,hidle.2⟩)) .inl
  have hentry : Table.entryOf (e.values (e.root u)) (e.root u) c = some a := by
    rw [Table.entryOf,← (hi.roots.reach hi.history hreach).2 c hc]
    exact ha
  rcases hi.complete d hd hsound _ hd₀ hdnew h₀ honly c hc a hentry with hdone | hpend
  · exact hi.fits _ _ hdone
  · rcases hdx with hx | hcomm
    · rw [hx,hidle.1] at hpend
      cases hpend
    · exact absurd ((hi.pending _ _ hpend).2.2.symm.trans hcomm) nofun

section Tied

variable [DecidableEq K] {rs : List (Record K)} {rec : Option (Record K)}

theorem foldlM_toList : (rs ++ rec.toList).foldlM Restored.redo r =
    (rs.foldlM Restored.redo r).bind fun r => rec.elim (some r) r.redo := by
  rw [List.foldlM_append]
  cases rec with
  | none => rfl
  | some rec =>
    refine congrArg _ (funext fun r => ?_)
    exact List.foldlM_cons.trans (bind_pure _)

theorem Tied.unwritten (ht : Tied schema e rs) (hi : Engine.Inv schema e')
    (hframe : e'.history.writes = e.history.writes ∧ e'.values = e.values ∧ e'.root = e.root)
    (hredo : ∀ r, Mirrors e r → ∃ r', rec.elim (some r) r.redo = some r' ∧ Mirrors e' r')
    (hrec : ∀ r ∈ rec, r.removes = none)
    (hclock : e.history.heap.manager.txnIdClock ≤ e'.history.heap.manager.txnIdClock)
    (hlive : ∀ x, e.history.heap.Live x → e'.history.heap.Live x ∨ ∃ r ∈ rec, r.ends = some x)
    (hfinal : ∀ x, e.history.heap.manager.getState x ≠ .inProgress →
      e'.history.heap.manager.getState x = e.history.heap.manager.getState x)
    (hnew : ∀ r ∈ rec, r.txnId ≠ TxnId.invalid → e.history.heap.Live r.txnId)
    (hends : ∀ r ∈ rec, ∀ x, r.ends = some x → e'.history.heap.manager.getState x = .committed ∨
      e'.history.heap.manager.getState x = .aborted) :
    Tied schema e' (rs ++ rec.toList) := by
  obtain ⟨hwrites,hvalues,hroot⟩ := hframe
  have hmem : ∀ {r}, r ∈ rs ++ rec.toList ↔ r ∈ rs ∨ r ∈ rec := by
    intro r
    rw [List.mem_append,Option.mem_toList,Option.mem_def]
  have hclose : ∀ {w u}, e'.Closes w u → e.Closes w u := fun hcl =>
    ⟨hcl.1,fun v hv => by rw [← hroot]; exact hcl.2 v hv⟩
  have hlt : ∀ x, e.history.heap.Live x → x < e'.history.heap.manager.txnIdClock := fun x hl =>
    (ht.inv.history.snapshots.view.manager.active_lt x hl.1).trans_le hclock
  have hafter : ∀ x, e.history.heap.Live x →
      e'.history.heap.Live x ∨ ∃ r ∈ rs ++ rec.toList, r.ends = some x := fun x hl =>
    (hlive x hl).imp id fun ⟨r,hr,hx⟩ => ⟨r,hmem.2 (.inr hr),hx⟩
  refine ⟨hi,?_,?_,fun w hw u hcl => ?_,fun r hr x u hx => ?_,fun w hw => ?_,fun r hr hx => ?_,
    fun r hr x hx => ?_⟩
  · rw [hwrites,hvalues,hroot]
    exact ht.keys
  · obtain ⟨r,hr,hm⟩ := ht.restored
    obtain ⟨r',hr',hm'⟩ := hredo r hm
    exact ⟨r',by rw [foldlM_toList,hr]; exact hr',hm'⟩
  · obtain ⟨r,hr,hx⟩ := ht.removes w (hwrites ▸ hw) u (hclose hcl)
    exact ⟨r,hmem.2 (.inl hr),hx⟩
  · rcases hmem.1 hr with hr | hr
    · rw [hwrites]
      exact ht.writes r hr x u hx
    · rw [hrec r hr] at hx
      cases hx
  · obtain ⟨r,hr,hx⟩ := ht.logged w (hwrites ▸ hw)
    exact ⟨r,hmem.2 (.inl hr),hx⟩
  · rcases hmem.1 hr with hr | hr
    · obtain ⟨hlt',hst⟩ := ht.begun r hr hx
      refine ⟨hlt'.trans_le hclock,?_⟩
      rcases hst with hl | ⟨r',hr',he⟩
      · exact hafter _ hl
      · exact .inr ⟨r',hmem.2 (.inl hr'),he⟩
    · have hl := hnew r hr hx
      exact ⟨hlt _ hl,hafter _ hl⟩
  · rcases hmem.1 hr with hr | hr
    · have hst := ht.ended r hr x hx
      rw [hfinal x (by rcases hst with hst | hst <;> rw [hst] <;> nofun)]
      exact hst
    · exact hends r hr x hx

/-- A row operation with its record. -/
theorem Tied.written (ht : Tied schema e rs) {hot : Bool} {target new : Option Tid} {w : Write}
    (hr : Engine.RowOp schema e e' xid hot target new)
    (hc : Call e.history e'.history xid hot target new (some w)) (hi : Engine.Inv schema e')
    {rec : Record K} (values : List (Option K))
    (hidle : e.Idle xid) (hf : xid ∉ e.failed)
    (hredo : ∀ r, Mirrors e r → ∃ r', r.redo rec = some r' ∧
      Redone r r' xid (e.history.command xid) hot target new values)
    (hnew : ∀ tid, new = some tid → e'.values tid = values)
    (hid : rec.txnId = xid ∧ rec.ends = none)
    (hrec : rec.removes = if hot = true then none else target.map (xid,·)) :
    Tied schema e' (rs ++ (some rec).toList) := by
  obtain ⟨hwx,-,hwold,hwnew⟩ := hc.write w rfl
  have hlive : ∀ x, e'.history.heap.Live x ↔ e.history.heap.Live x := hc.live_iff
  have hmem : ∀ {r}, r ∈ rs ++ (some rec).toList ↔ r ∈ rs ∨ r = rec := by
    intro r
    rw [List.mem_append,Option.mem_toList,Option.some.injEq,eq_comm]
  have hwrites : ∀ {a : Write}, a ∈ e'.history.writes ↔ a ∈ e.history.writes ∨ a = w := by
    intro a
    rw [hc.mem_writes,Option.mem_def,Option.some.injEq,eq_comm]
  refine ⟨hi,fun a ha u hold c hcol b hb => ?_,?_,fun a ha u hcl => ?_,fun a ha x u hx => ?_,
    fun a ha => ?_,fun a ha hx => ?_,fun a ha x hx => ?_⟩
  · rcases hwrites.1 ha with ha | rfl
    · obtain ⟨-,hd,hh,-⟩ := ht.inv.history.versions.ended a ha u hold
      obtain ⟨hv,hroot⟩ := hr.kept_of_tuple hc hh
      rw [hv,hroot] at hb
      exact ht.keys a ha u hold c hcol b hb
    · have htarget := hwold.symm.trans hold
      obtain ⟨hd,-,hh,-⟩ := hc.effect.stamped u htarget
      obtain ⟨hv,hroot⟩ := hr.kept_of_tuple hc hh
      rw [hv,hroot] at hb
      exact key_fits ht.inv hidle hc.live hf (hc.scanned u htarget) hcol hb
  · obtain ⟨r,hrs,hm⟩ := ht.restored
    obtain ⟨r',hr',hredone⟩ := hredo r hm
    refine ⟨r',by rw [foldlM_toList,hrs]; exact hr',hm.call ht.inv.history hc hredone hr.index.1
      (fun tid hne => (hr.kept tid hne).1) hnew⟩
  · rcases hwrites.1 ha with ha | rfl
    · obtain ⟨-,hd,hh,-⟩ := ht.inv.history.versions.ended a ha u hcl.1
      have hcl' : e.Closes a u := ⟨hcl.1,fun v hv => by
        obtain ⟨-,hd',hh'⟩ := ht.inv.history.versions.creates a ha v hv
        rw [← (hr.kept_of_tuple hc hh').2]
        exact hcl.2 v hv⟩
      obtain ⟨r,hr,hx⟩ := ht.removes a ha u hcl'
      exact ⟨r,hmem.2 (.inl hr),hx⟩
    · have htarget := hwold.symm.trans hcl.1
      refine ⟨rec,hmem.2 (.inr rfl),?_⟩
      rw [hrec,hwx,htarget]
      cases hot with
      | false => rfl
      | true =>
        exfalso
        obtain ⟨u',v,hu',hv,-,-⟩ := hc.effect.linked rfl
        obtain ⟨u'',hu'',hroot,-⟩ := hr.linked v hv rfl
        obtain ⟨b,hb,hbu,-⟩ := Engine.created_of_scanned ht.inv.history hc.live
          (hc.scanned u'' hu'')
        obtain ⟨⟨hd,hh,-⟩,-⟩ := ht.inv.roots.root_reaches ht.inv.history hb hbu
        have hself := hcl.2 v (hwnew.trans hv)
        rw [← hroot,hself] at hh
        exact hc.effect.ne_new hh hv
  · rcases hmem.1 ha with ha | rfl
    · obtain ⟨b,hb,hbx,hbold⟩ := ht.writes a ha x u hx
      exact ⟨b,hwrites.2 (.inl hb),hbx,hbold⟩
    · rw [hrec] at hx
      split at hx
      · cases hx
      · obtain ⟨tid,htarget,he⟩ := Option.map_eq_some_iff.1 hx
        cases he
        exact ⟨w,hwrites.2 (.inr rfl),hwx,hwold.trans htarget⟩
  · rcases hwrites.1 ha with ha | rfl
    · obtain ⟨r,hr,hx⟩ := ht.logged a ha
      exact ⟨r,hmem.2 (.inl hr),hx⟩
    · exact ⟨rec,hmem.2 (.inr rfl),hid.1.trans hwx.symm⟩
  · rw [hc.effect.manager]
    rcases hmem.1 ha with ha | rfl
    · obtain ⟨hlt,hst⟩ := ht.begun a ha hx
      refine ⟨hlt,?_⟩
      rcases hst with hl | ⟨r',hr',he⟩
      · exact .inl ((hlive _).2 hl)
      · exact .inr ⟨r',hmem.2 (.inl hr'),he⟩
    · rw [hid.1]
      exact ⟨ht.inv.history.snapshots.view.manager.active_lt _ hc.live.1,.inl ((hlive _).2 hc.live)⟩
  · rcases hmem.1 ha with ha | rfl
    · rw [hc.effect.manager]
      exact ht.ended a ha x hx
    · rw [hid.2] at hx
      cases hx

theorem Tied.quiet (ht : Tied schema e rs) (hi : Engine.Inv schema e')
    (hframe : e'.history.writes = e.history.writes ∧ e'.values = e.values ∧ e'.root = e.root)
    (hman : e'.history.heap.manager = e.history.heap.manager)
    (hredo : ∀ r, Mirrors e r → ∃ r', rec.elim (some r) r.redo = some r' ∧ Mirrors e' r')
    (hrec : ∀ r ∈ rec, r.removes = none ∧ r.txnId = TxnId.invalid ∧ r.ends = none) :
    Tied schema e' (rs ++ rec.toList) := by
  refine ht.unwritten hi hframe hredo (fun r hr => (hrec r hr).1) (by rw [hman])
    (fun x hl => .inl ?_) (fun x _ => by rw [hman])
    (fun r hr hx => absurd (hrec r hr).2.1 hx) fun r hr x hx => ?_
  · rw [Sys.Live,hman]
    exact hl
  · rw [(hrec r hr).2.2] at hx
    cases hx

theorem Tied.managed (ht : Tied schema e rs) {a : Manager.Step} {t : History}
    (hs : HeapHistory.step e.history (.manager a) = some t)
    (hi : Engine.Inv schema { e with history := t })
    (hredo : ∀ r : Restored K, r.heap.manager.clog = e.history.heap.manager.clog →
      ∃ r', rec.elim (some r) r.redo = some r' ∧
        r'.heap.manager.clog = t.heap.manager.clog ∧ r'.heap.relation = r.heap.relation ∧
        r'.heap.pages = r.heap.pages ∧ r'.index = r.index ∧ r'.values = r.values)
    (hrec : ∀ r ∈ rec, r.removes = none ∧ e.history.heap.Live r.txnId ∧
      ∀ x, r.ends = some x → t.heap.manager.getState x = .committed ∨
        t.heap.manager.getState x = .aborted)
    (hset : ∀ x o, a = .setState x o → ∃ r ∈ rec, r.ends = some x) :
    Tied schema { e with history := t } (rs ++ rec.toList) := by
  have hstate := @Engine.getState_of_manager e.history t a hs
  have hi₀ := ht.inv.history
  obtain ⟨m,hm,rfl⟩ := HeapHistory.step_manager hs
  have hfinal : ∀ {x}, m.getState x ≠ .aborted → e.history.heap.manager.getState x ≠ .aborted :=
    fun hx hab => hx (HeapHistory.getState_of_step hm hab nofun)
  refine ht.unwritten hi ⟨rfl,rfl,rfl⟩ (fun r hr => ?_) (fun r hr => (hrec r hr).1) ?_
    (fun x hl => ?_) (fun x hx => HeapHistory.getState_of_step hm rfl hx)
    (fun r hr _ => (hrec r hr).2.1) fun r hr => (hrec r hr).2.2
  · obtain ⟨r',hr',hclog,hrel,hpages,hrest⟩ := hredo r hr.clog
    exact ⟨r',hr',hr.frame hclog (hrel.trans hr.relation) ⟨rfl,rfl⟩ (fun x => hfinal)
      ⟨hpages,hrest⟩⟩
  · obtain ⟨-,rfl⟩ | ⟨y,o,-,-,-,rfl⟩ | ⟨y,-,-,-,rfl⟩ := Manager.step_cases hm
    · exact Nat.le_succ _
    · exact le_rfl
    · exact le_rfl
  · by_cases hend : ∃ o, a = .setState x o
    · obtain ⟨o,ho⟩ := hend
      exact .inr (hset x o ho)
    · have hst : m.getState x = .inProgress := (hstate fun o h => hend ⟨o,h⟩).trans hl.2
      rcases HeapHistory.live_step hm (live_pos hi₀.snapshots.view.manager hl) hl with
        hl' | hc | hab
      · exact .inl hl'
      · exact absurd (hst.symm.trans hc) nofun
      · exact absurd (hst.symm.trans hab) nofun

theorem Tied.finished (ht : Tied schema e rs) {o : TxnSystem.Outcome} {t : History}
    (hs : HeapHistory.step e.history (.manager (.setState xid o)) = some t)
    (hi : Engine.Inv schema { e with history := t }) {rec : Record K}
    (hredo : ∀ r : Restored K, r.redo rec = some (r.setState xid o.state))
    (hrec : rec.removes = none ∧ rec.txnId = xid ∧ rec.ends = some xid) :
    Tied schema { e with history := t } (rs ++ [rec]) := by
  have hstate := Engine.getState_of_end ht.inv.history.snapshots.view.manager hs
  have hstep := hs
  obtain ⟨m,hm,rfl⟩ := HeapHistory.step_manager hs
  obtain ⟨⟨hact,hin⟩,rfl⟩ := of_guard hm
  refine @Tied.managed _ _ _ _ _ (some rec) ht _ _ hstep hi (fun r hr => ?_) (fun r hr => ?_)
    fun x o' h => ?_
  · refine ⟨_,hredo r,?_,rfl,rfl,rfl,rfl⟩
    change update r.heap.manager.clog xid o.state = _
    rw [hr]
  · cases hr
    refine ⟨hrec.1,?_,fun x hx => ?_⟩
    · rw [hrec.2.1]
      exact ⟨hact,by rw [Manager.getState,hin,ite_self]⟩
    · rw [hrec.2.2] at hx
      cases hx
      rw [hstate]
      cases o with
      | commit => exact .inl rfl
      | abort => exact .inr rfl
  · cases h
    exact ⟨rec,rfl,hrec.2.2⟩

theorem Tied.unwritten_pass (ht : Tied schema e rs) {tid : Tid} {op : Heap.Op} {stale : List ℕ}
    {stamps : Bool} {t : History}
    (hok : HeapHistory.Disciplined e.history (.pass xid tid op stale stamps))
    (hs : HeapHistory.step e.history (.pass xid tid op stale stamps) = some t)
    (hw : ¬e.history.Wrote xid tid op stale stamps) :
    Tied schema { e with history := t } rs := by
  have hi := ht.inv.unwritten_pass hok hs hw
  have hnil : rs ++ (none : Option (Record K)).toList = rs := List.append_nil _
  rw [← hnil]
  obtain ⟨hw',-⟩ | ⟨-,hc | ⟨locks,grants,rfl⟩⟩ := ht.inv.history.pass_cases hok hs
  · exact absurd hw' hw
  · have hot : op.isHot tid = false := by
      by_contra hot
      obtain ⟨-,v,-,hv,-⟩ := hc.effect.linked (Bool.eq_true_of_not_eq_false hot)
      cases hv
    rw [hot] at hc
    have hwrites : t.writes = e.history.writes := by
      rw [hc.log]
      exact List.append_nil _
    exact ht.quiet hi ⟨hwrites,rfl,rfl⟩ hc.effect.manager (fun r hr => ⟨r,rfl,hr.lock hc⟩) nofun
  · exact ht.quiet hi ⟨rfl,rfl,rfl⟩ rfl
      (fun r hr => ⟨r,rfl,hr.frame hr.clog hr.relation ⟨rfl,rfl⟩ (fun _ => id) ⟨rfl,rfl,rfl⟩⟩) nofun

theorem Tied.plain (ht : Tied schema e rs) {a : HeapHistory.Act} {t : History}
    (ha : Engine.Plain e a) (hs : HeapHistory.step e.history a = some t) :
    Tied schema { e with history := t } (rs ++ (recordOf schema e (.act a)).toList) := by
  have hi := ht.inv.plain ha hs
  cases a with
  | manager a =>
    have hnot : ∀ x o, a ≠ .setState x o := by
      rintro x o rfl
      exact ha
    refine ht.managed hs hi (fun r hr => ⟨r,rfl,?_,rfl,rfl,rfl,rfl⟩) (by rintro _ ⟨⟩)
      fun x o h => absurd h (hnot x o)
    obtain ⟨m,hm,rfl⟩ := HeapHistory.step_manager hs
    obtain ⟨-,rfl⟩ | ⟨y,o,h,-⟩ | ⟨y,-,-,-,rfl⟩ := Manager.step_cases hm
    · exact hr
    · exact absurd h (hnot y o)
    · exact hr
  | extend page =>
    obtain ⟨s,hheap,rfl⟩ := Option.map_eq_some_iff.1 hs
    obtain ⟨-,rfl⟩ := of_guard hheap
    refine ht.quiet hi ⟨rfl,rfl,rfl⟩ rfl (fun r hr => ⟨_,rfl,?_⟩) fun r hr => ?_
    · refine hr.frame hr.clog ?_ ⟨rfl,rfl⟩ (fun _ => id) ⟨rfl,rfl,rfl⟩
      exact congrArg (· ++ [page]) hr.relation
    · cases hr
      exact ⟨rfl,rfl,rfl⟩
  | take y =>
    obtain ⟨-,rfl⟩ := of_guard hs
    exact ht.quiet hi ⟨rfl,rfl,rfl⟩ rfl
      (fun r hr => ⟨r,rfl,hr.frame hr.clog hr.relation ⟨rfl,rfl⟩ (fun _ => id) ⟨rfl,rfl,rfl⟩⟩)
      (by rintro _ ⟨⟩)
  | statement y =>
    obtain ⟨p,out,-,-,-,rfl⟩ := HeapHistory.step_statement hs
    exact ht.quiet hi ⟨rfl,rfl,rfl⟩ rfl
      (fun r hr => ⟨r,rfl,hr.frame hr.clog hr.relation ⟨rfl,rfl⟩ (fun _ => id) ⟨rfl,rfl,rfl⟩⟩)
      (by rintro _ ⟨⟩)
  | insert y page => exact ha.elim
  | pass y tid op stale stamps =>
    obtain ⟨-,hreq,hscan⟩ := ha
    have hnone : recordOf schema e (.act (.pass y tid op stale stamps)) = none := rfl
    rw [hnone,Option.toList_none,List.append_nil]
    exact ht.unwritten_pass ⟨hscan,fun h => absurd h hreq⟩ hs fun hw => hreq hw.2.2

section Rows

variable {t : History} {u : Tid} {page : ℕ} {values : List (Option K)} {stale : List ℕ}
  {stamps : Bool}

theorem Tied.insert (ht : Tied schema e rs) (hidle : e.Idle xid) (hf : xid ∉ e.failed)
    (hs : HeapHistory.step e.history (.insert xid page) = some t)
    (hi : Engine.Inv schema ((e.wrote t xid
      (Table.insertOps schema values (e.history.heap.newTid page))).addVersion
        (e.history.heap.newTid page) values (e.history.heap.newTid page))) :
    Tied schema ((e.wrote t xid
      (Table.insertOps schema values (e.history.heap.newTid page))).addVersion
        (e.history.heap.newTid page) values (e.history.heap.newTid page))
      (rs ++ (recordOf schema e (.insert xid page values)).toList) := by
  simp only [HeapHistory.step,Option.ite_none_right_eq_some] at hs
  obtain ⟨s,hheap,rfl⟩ := Option.map_eq_some_iff.1 hs.2
  obtain ⟨⟨hlive,hpage⟩,rfl⟩ := of_guard hheap
  refine ht.written Engine.rowOp_own (HeapHistory.call_insert hlive hpage) hi values hidle
    hf (fun r hr => redone_insert (newTid_eq hr page)) (fun tid he => ?_) ⟨rfl,rfl⟩ rfl
  cases he
  exact update_self ..

theorem Tied.delete (ht : Tied schema e rs) (haddr : Engine.Addressed e xid u)
    (hf : xid ∉ e.failed) {ops : List (Op (Entry K))}
    (hs : HeapHistory.step e.history (.pass xid u .delete stale stamps) = some t)
    (hw : e.history.Wrote xid u .delete stale stamps)
    (hi : Engine.Inv schema (e.wrote t xid ops)) :
    Tied schema (e.wrote t xid ops)
      (rs ++ (recordOf schema e (.delete xid u stale stamps)).toList) := by
  obtain ⟨hidle,hscan,hfresh⟩ := haddr
  obtain ⟨-,hc⟩ | ⟨hnot,-⟩ := ht.inv.history.pass_cases ⟨hscan,fun _ => hfresh⟩ hs
  · obtain ⟨hd,-,hh,-⟩ := hc.effect.stamped u rfl
    rw [recordOf,if_pos hw]
    refine ht.written Engine.rowOp_delete hc hi [] hidle hf (fun r hr => ?_) nofun ⟨rfl,rfl⟩ rfl
    obtain ⟨hd',hh',-⟩ := hr.tuple u hd hh
    exact redone_delete hh'
  · exact absurd hw hnot

theorem Tied.update (ht : Tied schema e rs) (haddr : Engine.Addressed e xid u)
    (hf : xid ∉ e.failed) {hot : Bool}
    (hhot : (Heap.Op.update page (Table.hotEligible schema (e.values u) values)).isHot u = hot)
    (hw : e.history.Wrote xid u (.update page (Table.hotEligible schema (e.values u) values)) stale
      stamps) {w : Write}
    (hc : Call e.history e'.history xid hot (some u) (some (e.history.heap.newTid page)) (some w))
    (hr : Engine.RowOp schema e e' xid hot (some u) (some (e.history.heap.newTid page)))
    (hi : Engine.Inv schema e') (hvalues : e'.values (e.history.heap.newTid page) = values) :
    Tied schema e' (rs ++ (recordOf schema e (.update xid u page values stale stamps)).toList) := by
  obtain ⟨hd,-,hh,-⟩ := hc.effect.stamped u rfl
  have hnew : ∀ tid, some (e.history.heap.newTid page) = some tid → e'.values tid = values := by
    intro tid he
    cases he
    exact hvalues
  simp only [recordOf,if_pos hw,hhot]
  cases hot with
  | true =>
    obtain ⟨rfl,-⟩ : page = u.pageId ∧ _ := of_decide_eq_true hhot
    rw [if_pos rfl]
    refine ht.written hr hc hi values haddr.1 hf (fun r hm => ?_) hnew ⟨rfl,rfl⟩ rfl
    obtain ⟨hd',hh',-⟩ := hm.tuple u hd hh
    exact redone_update true (stampHotUpdate · xid _) (fun _ => ⟨rfl,rfl,rfl,rfl,rfl,rfl⟩) hh'
      (newTid_eq hm _)
  | false =>
    rw [if_neg Bool.false_ne_true]
    refine ht.written hr hc hi values haddr.1 hf (fun r hm => ?_) hnew ⟨rfl,rfl⟩ rfl
    obtain ⟨hd',hh',-⟩ := hm.tuple u hd hh
    exact redone_update false (stampDeleted · xid true) (fun _ => ⟨rfl,rfl,rfl,rfl,rfl,rfl⟩) hh'
      (newTid_eq hm page)

end Rows

theorem Tied.step (ht : Tied schema e rs) {a : Engine.Step K} (hok : Orderly e a)
    (hs : Engine.step schema e a = some e') :
    Tied schema e' (rs ++ (recordOf schema e a).toList) := by
  have hi := Engine.step_inv ht.inv hok.noFailedCommit hs
  cases a with
  | act a =>
    obtain ⟨hplain,t,hheap,rfl⟩ := of_guard_map hs
    exact ht.plain hplain hheap
  | insert xid page values =>
    obtain ⟨hidle,t,hheap,rfl⟩ := of_guard_map hs
    exact ht.insert hidle hok hheap hi
  | update xid tid page values stale stamps =>
    obtain ⟨haddr,t,hheap,rfl⟩ := of_guard_map hs
    have hpass : HeapHistory.Disciplined e.history (.pass xid tid
        (.update page (Table.hotEligible schema (e.values tid) values)) stale stamps) :=
      ⟨haddr.2.1,fun _ => haddr.2.2⟩
    obtain ⟨hw,hc⟩ | ⟨hw,-⟩ := ht.inv.history.pass_cases hpass hheap
    · simp only [if_pos hw] at hi ⊢
      split at hi
      · rename_i hhot
        rw [if_pos hhot]
        rw [hhot] at hc
        refine ht.update haddr hok hhot hw hc (Engine.rowOp_linked fun c hcol => ?_) hi
          (update_self ..)
        have hvals := of_decide_eq_true (of_decide_eq_true hhot).2
        exact (hvals.2 c hcol).symm
      · rename_i hhot
        rw [if_neg hhot]
        rw [Bool.not_eq_true] at hhot
        rw [hhot] at hc
        split at hi
        · rename_i indexTid hroot
          exact ht.update haddr hok hhot hw hc
            (Engine.rowOp_own.pending (fun x hx => update_of_ne hx ..) fun _ => id) hi
            (update_self ..)
        · rename_i err hroot
          exact ht.update haddr hok hhot hw hc
            (Engine.rowOp_own.pending (fun x hx => update_of_ne hx ..)
              fun x hx => List.not_mem_of_not_mem_cons hx) hi
            (update_self ..)
    · simp only [recordOf,if_neg hw,Option.toList_none,List.append_nil]
      exact ht.unwritten_pass hpass hheap hw
  | delete xid tid stale stamps =>
    obtain ⟨haddr,hs⟩ := Option.ite_none_right_eq_some.1 hs
    split at hs
    · obtain ⟨t,hheap,rfl⟩ := Option.map_eq_some_iff.1 hs
      split at hi
      · rename_i hw
        rw [if_pos hw]
        exact ht.delete haddr hok hheap hw hi
      · rename_i hw
        rw [recordOf,if_neg hw,if_neg hw,Option.toList_none,List.append_nil]
        exact ht.unwritten_pass ⟨haddr.2.1,fun _ => haddr.2.2⟩ hheap hw
    · cases hs
  | maintain xid =>
    obtain ⟨op,rest,hp,hlive,rfl⟩ := Engine.step_maintain hs
    simp only [recordOf,hp]
    by_cases hdone : schema.fits op.entry.key ∧ (op = .deleted op.entry → op.entry ∈ e.index)
    · rw [Table.maintain,if_pos hdone] at hi ⊢
      rw [if_pos hdone]
      refine ht.quiet hi ⟨rfl,rfl,rfl⟩ rfl
        (fun r hr => ⟨{ r with index := Op.run e.index op },?_,{ hr with index := rfl }⟩)
        fun r hr => ?_
      · change some _ = some _
        rw [hr.index]
      · cases hr
        exact ⟨rfl,rfl,rfl⟩
    · rw [Table.maintain,if_neg hdone] at hi ⊢
      rw [if_neg hdone]
      refine ht.quiet hi ⟨rfl,rfl,rfl⟩ rfl (fun r hr => ⟨r,rfl,?_⟩) (by rintro _ ⟨⟩)
      exact { hr with }
  | commit xid | abort xid =>
    obtain ⟨-,t,hheap,rfl⟩ := of_guard_map hs
    exact ht.finished hheap hi (fun _ => rfl) ⟨rfl,rfl,rfl⟩
  | beginAbort xid =>
    obtain ⟨-,rfl⟩ := of_guard hs
    refine ht.quiet hi ⟨rfl,rfl,rfl⟩ rfl (fun r hr => ⟨r,rfl,?_⟩) (by rintro _ ⟨⟩)
    exact { hr with }
  | undo xid =>
    obtain ⟨l₁,op,l₂,hlast,-,rfl⟩ := Engine.step_undo hs
    simp only [recordOf,hlast]
    refine ht.quiet hi ⟨rfl,rfl,rfl⟩ rfl
      (fun r hr => ⟨{ r with index := Op.run e.index op.inverse },?_,{ hr with index := rfl }⟩)
      fun r hr => ?_
    · change some _ = some _
      rw [hr.index]
    · cases hr
      exact ⟨rfl,rfl,rfl⟩

theorem Tied.record (ht : Tied schema e rs) {rec : Record K}
    (hredo : ∀ r : Restored K, r.redo rec = some r)
    (hrec : rec.removes = none ∧ rec.txnId = TxnId.invalid ∧ rec.ends = none) :
    Tied schema e (rs ++ [rec]) := by
  refine @Tied.quiet _ _ _ _ _ _ (some rec) ht ht.inv ⟨rfl,rfl,rfl⟩ rfl
    (fun r hr => ⟨r,hredo r,hr⟩) fun r hr => ?_
  cases hr
  exact hrec

theorem tied_start (hs : Engine.Start e)
    (hclog : ∀ x, e.history.heap.manager.clog x = .inProgress) : Tied schema e [] := by
  have hi : Engine.Inv schema e := Engine.start_inv hs
  obtain ⟨⟨-,hrel,hpages,-,-,hwrites⟩,hindex,-⟩ := hs
  have htuple : ∀ {tid hd}, e.history.heap.tuple tid ≠ some hd := by
    intro tid hd hh
    rw [Sys.tuple,hpages] at hh
    cases hh
  have hnowrite : ∀ {w}, w ∉ e.history.writes := by
    rw [hwrites]
    exact List.not_mem_nil
  refine ⟨hi,fun w hw => absurd hw hnowrite,⟨_,rfl,?_⟩,fun w hw => absurd hw hnowrite,
    by rintro _ ⟨⟩,fun w hw => absurd hw hnowrite,by rintro _ ⟨⟩,by rintro _ ⟨⟩⟩
  exact ⟨(funext hclog).symm,hrel.symm,hindex.symm,fun _ _ hh => absurd hh htuple,
    by rintro _ _ ⟨⟩,fun _ _ hh => absurd hh htuple⟩

end Tied

end EngineLog
end PgAm
