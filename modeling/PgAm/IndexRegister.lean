import PgAm.IndexBuild
import PgAm.IndexGhost

/-! What an index build puts into its index, and that the table then is as if the index had been
there from the start. The build runs when all transactions that have written to the table have
ended: its scan finds the version that the commits have left of each row, and older versions of a
chain take the key of the one that is found. -/
namespace PgAm
namespace IndexBuild

open Machine Heap
open HeapHistory (History Write Reads)
open Engine (Table Entry Schema Dead Ghost)
open Engine.Table
open UndoLog (Op ofTxn)

variable {K : Type} {h : History} {snap : Snapshot} {sees : ℕ → Bool} {v : Tid}

/-- The version that the commits have left of its row. -/
def Current (h : History) (v : Tid) : Prop :=
  (∃ a ∈ h.writes, a.new = some v ∧ h.heap.manager.getState a.xid = .committed) ∧
    ∀ b ∈ h.writes, b.old = some v → h.heap.manager.getState b.xid ≠ .committed

/-- All transactions that have written to the table have ended. -/
def Settled (h : History) : Prop := ∀ w ∈ h.writes, w.xid ∉ h.heap.manager.active

theorem Settled.ended (hset : Settled h) (hi : HeapHistory.Inv h) {w : Write} (hw : w ∈ h.writes) :
    h.heap.manager.getState w.xid = .committed ∨ h.heap.manager.getState w.xid = .aborted := by
  obtain ⟨-,-,-,hst⟩ := hi.versions.writer w hw
  exact hst.resolve_left fun hl => hset w hw hl.1

theorem shows_iff_current (hi : HeapHistory.Inv h) (hr : Reads h snap sees)
    (hsees : ∀ w ∈ h.writes, sees w.xid = true ↔ h.heap.manager.getState w.xid = .committed) :
    h.heap.Shows snap v ↔ Current h v := by
  rw [hr.shows_iff hi,hr.newest_iff hi]
  constructor
  · rintro ⟨a,ha,hsa,hnew,hfree⟩
    have ha' := (List.mem_filter.1 ha).1
    refine ⟨⟨a,ha',hnew,(hsees a ha').1 hsa⟩,fun b hb hold hst => ?_⟩
    have halive : h.Alive b.xid := by
      rw [HeapHistory.History.Alive,hst]
      rintro ⟨⟩
    have hrow := (hi.versions.ended b hb v hold).1
    exact hfree b (List.mem_filter.2 ⟨hb,decide_eq_true ⟨hrow.symm,halive⟩⟩)
      ((hsees b hb).2 hst) hold
  · rintro ⟨⟨a,ha,hnew,hst⟩,hfree⟩
    have hrow := (hi.versions.creates a ha v hnew).1
    have hsa := (hsees a ha).2 hst
    refine ⟨a,List.mem_filter.2 ⟨ha,decide_eq_true ⟨hrow.symm,hr.alive a ha hsa⟩⟩,hsa,hnew,
      fun b hb hsb hold => ?_⟩
    have hb' := (List.mem_filter.1 hb).1
    exact hfree b hb' hold ((hsees b hb').1 hsb)

def committedIn (h : History) (x : ℕ) : Bool := h.heap.manager.getState x = .committed

theorem reads_settled (hi : HeapHistory.Inv h) (hown : ∀ w ∈ h.writes, w.xid ≠ snap.currentXid)
    (hsnap : ∀ w ∈ h.writes, w.xid < snap.xmax ∧ w.xid ∉ snap.xip) :
    Reads h snap (committedIn h) where
  visible tid hd hh := by
    have hsees : ∀ w ∈ h.writes, snap.Sees h.heap.manager.getState w.xid ↔
        committedIn h w.xid = true := fun w hw => by
      rw [committedIn,decide_eq_true_eq]
      exact ⟨fun hs => hs.2.2,fun hs => ⟨(hsnap w hw).1,(hsnap w hw).2,hs⟩⟩
    obtain ⟨w,hw,-,hwx⟩ := hi.versions.creator tid hd hh
    have hmin : xminVisible hd.tXmin hd.tCid snap h.heap.manager.getState = true ↔
        committedIn h hd.tXmin = true := by
      rw [← hwx,xminVisible_of_ne (hown w hw),hsees w hw]
    have hmax : xmaxHides hd.visibilityXmax hd.tCid snap h.heap.manager.getState = true ↔
        hd.visibilityXmax ≠ TxnId.invalid ∧ committedIn h hd.visibilityXmax = true := by
      by_cases h₀ : hd.visibilityXmax = TxnId.invalid
      · simp [xmaxHides,h₀]
      · obtain ⟨b,hb,-,hbx⟩ := hi.versions.stamped tid hd hh h₀
        rw [← hbx,xmaxHides_of_ne (hown b hb),hsees b hb]
    rw [TupleHeader.visible,isVisible,Bool.and_eq_true,Bool.not_eq_true',← Bool.not_eq_true,hmin,
      hmax,not_and]
  alive w _ hs := by
    rw [HeapHistory.History.Alive,of_decide_eq_true hs]
    rintro ⟨⟩
  before p hp _ x hx :=
    decide_eq_true (((hi.snapshots.view.taken p.1 p.2 hp).done_iff x).1 hx).2.2

theorem reads_at_rest (hi : HeapHistory.Inv h) (hset : Settled h) :
    Reads h (h.heap.manager.snapshot TxnId.invalid).advanceCurcid (committedIn h) := by
  refine reads_settled hi (fun w hw => (hi.versions.writer w hw).1) fun w hw =>
    ⟨(hi.versions.writer w hw).2.1,?_⟩
  change w.xid ∉ (h.heap.manager.snapshot TxnId.invalid).xip
  rw [Manager.mem_snapshot_xip]
  exact hset w hw

theorem committedIn_iff (w : Write) :
    committedIn h w.xid = true ↔ h.heap.manager.getState w.xid = .committed := decide_eq_true_iff

structure Loaded (fits : K → Bool) (e : Table K) (c : ℕ) (entries : List (Entry K)) : Prop where
  nodup : entries.Nodup
  mem : ∀ a, a ∈ entries ↔ a.column = c ∧ ∃ v, Current e.history v ∧
    (e.values v)[c]?.join = some a.key ∧ a.tid = e.root v
  fits : ∀ a ∈ entries, fits a.key = true

section Build

variable {schema : Schema K} {e : Table K} {values : Tid → List (Option K)}
  {applied : List (ℕ × Op (Entry K))} {c : ℕ} {entries : List (Entry K)} {u : Tid}

theorem current_root (hi : Engine.Inv schema (e.ghost values applied)) (hv : Current e.history v) :
    e.history.heap.hotChainRoot v = .ok (e.root v) ∧ e.history.row v = e.history.row (e.root v) ∧
      ∃ hd, e.history.heap.tuple (e.root v) = some hd ∧ hd.heapOnly = false ∧
        e.root (e.root v) = e.root v ∧ e.Committed hd.tXmin := by
  obtain ⟨⟨a,ha,hnew,hst⟩,-⟩ := hv
  have halive : e.history.Alive a.xid := by
    rw [HeapHistory.History.Alive,hst]
    rintro ⟨⟩
  have hrow := (hi.history.versions.creates a ha v hnew).1
  have hmem : a ∈ e.history.rowWrites (e.history.row v) :=
    List.mem_filter.2 ⟨ha,decide_eq_true ⟨hrow.symm,halive⟩⟩
  obtain ⟨⟨hd,hh,honly⟩,hreach⟩ := hi.roots.root_reaches hi.history hmem hnew
  obtain ⟨b,hb,hbnew,hbx⟩ := hi.root_known hmem hnew (.inr hst)
  have hcomm : e.Committed b.xid := hbx.elim (fun hx => hx ▸ hst) id
  obtain ⟨d,hd',hdnew,hdx⟩ := hi.history.versions.creator _ hd hh
  obtain rfl := hi.history.versions.unique b hb d hd' _ hbnew hdnew
  exact ⟨hi.roots.hotChainRoot_eq hi.history hmem hnew,hi.history.row_reach hreach,hd,hh,honly,
    hi.roots.own _ hd hh honly,hdx ▸ hcomm⟩

theorem current_unique (hi : Engine.Inv schema (e.ghost values applied))
    (hset : Settled e.history) (hv : Current e.history v) (hu : Current e.history u)
    (hroot : e.root v = e.root u) : v = u := by
  have hr := reads_at_rest hi.history hset
  have hrow : e.history.row v = e.history.row u := by
    rw [(current_root hi hv).2.1,hroot,(current_root hi hu).2.1]
  have h₁ := (hr.shows_iff hi.history v).1
    ((shows_iff_current hi.history hr fun w _ => committedIn_iff w).2 hv)
  have h₂ := (hr.shows_iff hi.history u).1
    ((shows_iff_current hi.history hr fun w _ => committedIn_iff w).2 hu)
  have h₃ : e.history.newest (committedIn e.history) (e.history.row u) = some v := hrow ▸ h₁
  exact Option.some.inj (h₃.symm.trans h₂)

theorem rowEntry_eq_some {fits : K → Bool} {a : Entry K} {r : Tid}
    (hroot : e.history.heap.hotChainRoot v = .ok r) :
    rowEntry fits e c v = .ok (some a) ↔
      a.column = c ∧ (e.values v)[c]?.join = some a.key ∧ a.tid = r ∧ fits a.key = true := by
  obtain ⟨column,key,tid⟩ := a
  unfold rowEntry
  cases hk : (e.values v)[c]?.join with
  | none => simp
  | some key' =>
    simp only [hroot]
    split
    · rename_i hfit
      simp only [Except.ok.injEq,Option.some.injEq,Entry.mk.injEq]
      constructor
      · rintro ⟨rfl,rfl,rfl⟩
        exact ⟨rfl,rfl,rfl,hfit⟩
      · rintro ⟨rfl,rfl,rfl,-⟩
        exact ⟨rfl,rfl,rfl⟩
    · rename_i hfit
      simp only [reduceCtorEq,Option.some.injEq,false_iff,not_and]
      rintro - rfl -
      exact hfit

theorem filterMap_of_mapM {ε α β : Type} {f : α → Except ε (Option β)} {l : List α}
    {out : List (Option β)} (hm : l.mapM f = .ok out) :
    out.filterMap id = l.filterMap (fun a => (f a).toOption.join) ∧ ∀ a ∈ l, ∃ b, f a = .ok b := by
  induction l generalizing out with
  | nil =>
    cases hm
    exact ⟨rfl,nofun⟩
  | cons a l ih =>
    rw [List.mapM_cons] at hm
    cases hf : f a with
    | error err =>
      rw [hf] at hm
      cases hm
    | ok b =>
      rw [hf] at hm
      cases hrest : l.mapM f with
      | error err =>
        rw [hrest] at hm
        cases hm
      | ok bs =>
        rw [hrest] at hm
        cases hm
        obtain ⟨hmap,hok⟩ := ih hrest
        refine ⟨?_,List.forall_mem_cons.2 ⟨⟨b,hf⟩,hok⟩⟩
        have hb : (f a).toOption.join = b := by
          rw [hf]
          rfl
        rw [List.filterMap_cons,List.filterMap_cons,hb,hmap]
        rfl

theorem join_toOption_eq_some {ε α : Type} {r : Except ε (Option α)} {a : α} :
    r.toOption.join = some a ↔ r = .ok (some a) := by
  cases r with
  | error err => exact ⟨nofun,nofun⟩
  | ok b => exact ⟨fun h => congrArg _ h,fun h => Except.ok.inj h⟩

theorem loaded_of_build {fits : K → Bool} {rows : List Tid}
    (hi : Engine.Inv schema (e.ghost values applied)) (hset : Settled e.history)
    (hr : Reads e.history snap (committedIn e.history))
    (hscan : e.history.heap.scan snap = .ok rows)
    (hbuild : buildEntries fits e c rows = .ok entries) : Loaded fits e c entries := by
  have hh : HeapHistory.Inv e.history := hi.history
  rw [scan_eq hh.links.chained] at hscan
  obtain rfl := Except.ok.inj hscan
  have hrows : ∀ v, v ∈ e.history.heap.tids.filterMap (e.history.heap.found snap) ↔
      Current e.history v := fun v => by
    rw [hr.mem_scan_iff hh,← hr.shows_iff hh]
    exact shows_iff_current hh hr fun w _ => committedIn_iff w
  cases hfound : (e.history.heap.tids.filterMap (e.history.heap.found snap)).mapM
      (rowEntry fits e c) with
  | error err =>
    rw [buildEntries,hfound] at hbuild
    cases hbuild
  | ok found =>
    rw [buildEntries,hfound] at hbuild
    obtain ⟨hmap,hok⟩ := filterMap_of_mapM hfound
    obtain rfl : found.filterMap id = entries := Except.ok.inj hbuild
    have hmem : ∀ a, a ∈ found.filterMap id ↔ ∃ v, Current e.history v ∧ a.column = c ∧
        (e.values v)[c]?.join = some a.key ∧ a.tid = e.root v ∧ fits a.key = true := fun a => by
      rw [hmap,List.mem_filterMap]
      simp only [hrows,join_toOption_eq_some]
      exact exists_congr fun v => and_congr_right fun hv =>
        rowEntry_eq_some (current_root hi hv).1
    refine ⟨?_,fun a => ?_,fun a ha => ?_⟩
    · rw [hmap]
      refine List.pairwise_filterMap.2 ((hh.nodup_scan snap).imp_of_mem fun {v u} hv hu hne => ?_)
      rintro a ha b hb rfl
      have hcv := (hrows v).1 hv
      have hcu := (hrows u).1 hu
      have hv' := (rowEntry_eq_some (current_root hi hcv).1).1 (join_toOption_eq_some.1 ha)
      have hu' := (rowEntry_eq_some (current_root hi hcu).1).1 (join_toOption_eq_some.1 hb)
      exact hne (current_unique hi hset hcv hcu (hv'.2.2.1.symm.trans hu'.2.2.1))
    · rw [hmem]
      constructor
      · rintro ⟨v,hv,hcol,hkey,htid,-⟩
        exact ⟨hcol,v,hv,hkey,htid⟩
      · rintro ⟨hcol,v,hv,hkey,htid⟩
        refine ⟨v,hv,hcol,hkey,htid,?_⟩
        obtain ⟨b,hb⟩ := hok v ((hrows v).2 hv)
        unfold rowEntry at hb
        simp only [hkey,(current_root hi hv).1] at hb
        by_contra hfit
        rw [if_neg hfit] at hb
        cases hb
    · obtain ⟨-,-,-,-,-,hfit⟩ := (hmem a).1 ha
      exact hfit

end Build

section Register

variable {schema : Schema K} {e : Table K} {values : Tid → List (Option K)}
  {applied : List (ℕ × Op (Entry K))} {c width : ℕ} {entries : List (Entry K)} {u : Tid}

theorem mem_addColumn (hc : c ∉ schema.columns) {c' : ℕ} :
    c' ∈ (addColumn schema c).columns ↔ c' ∈ schema.columns ∨ c' = c := by
  rw [addColumn,dif_neg hc,List.mem_append,List.mem_singleton]

theorem addColumn_fits : (addColumn schema c).fits = schema.fits := by
  unfold addColumn
  split <;> rfl

def keyOf (entries : List (Entry K)) (r : Tid) : Option K :=
  (entries.find? fun a => a.tid = r).map Entry.key

/-- The values of a version with the key of its chain in the new column. -/
def keyed (e : Table K) (values : Tid → List (Option K)) (c : ℕ) (entries : List (Entry K))
    (tid : Tid) : List (Option K) := (values tid).set c (keyOf entries (e.root tid))

def creator (e : Table K) (a : Entry K) : ℕ :=
  ((e.history.heap.tuple a.tid).map TupleHeader.tXmin).getD TxnId.invalid

theorem keyed_of_ne {c' : ℕ} (hne : c' ≠ c) (tid : Tid) :
    (keyed e values c entries tid)[c']? = (values tid)[c']? :=
  List.getElem?_set_ne (Ne.symm hne)

theorem keyed_self {tid : Tid} (hlen : c < (values tid).length) :
    (keyed e values c entries tid)[c]? = some (keyOf entries (e.root tid)) :=
  List.getElem?_set_self hlen

theorem entryOf_keyed {c' : ℕ} (hne : c' ≠ c) (tid r : Tid) :
    entryOf (keyed e values c entries tid) r c' = entryOf (values tid) r c' := by
  rw [entryOf,entryOf,keyed_of_ne hne]

variable (hi : Engine.Inv schema (e.ghost values applied)) (hset : Settled e.history)
  (hl : Loaded schema.fits e c entries)

include hi hset hl in
theorem keyOf_iff {r : Tid} {k : K} : keyOf entries r = some k ↔ ⟨c,k,r⟩ ∈ entries := by
  constructor
  · intro hk
    obtain ⟨a,ha,rfl⟩ := Option.map_eq_some_iff.1 hk
    have hmem := List.mem_of_find?_eq_some ha
    have htid := List.find?_some ha
    rw [decide_eq_true_eq] at htid
    obtain ⟨hcol,-⟩ := (hl.mem a).1 hmem
    rw [← hcol,← htid]
    exact hmem
  · intro hmem
    cases hf : entries.find? (fun a => a.tid = r) with
    | none => exact absurd (decide_eq_true rfl) (List.find?_eq_none.1 hf _ hmem)
    | some a =>
      have htid := List.find?_some hf
      rw [decide_eq_true_eq] at htid
      obtain ⟨-,v,hv,hkey,hroot⟩ := (hl.mem _).1 hmem
      obtain ⟨-,v',hv',hkey',hroot'⟩ := (hl.mem a).1 (List.mem_of_find?_eq_some hf)
      obtain rfl := current_unique hi hset hv hv' (hroot.symm.trans (htid.symm.trans hroot'))
      rw [keyOf,hf]
      exact hkey'.symm.trans hkey

include hi hl in
theorem root_of_entry {a : Entry K} (ha : a ∈ entries) : ∃ hd,
    e.history.heap.tuple a.tid = some hd ∧
    hd.heapOnly = false ∧ e.root a.tid = a.tid ∧ creator e a = hd.tXmin ∧ e.Committed hd.tXmin := by
  obtain ⟨-,v,hv,-,htid⟩ := (hl.mem a).1 ha
  obtain ⟨-,-,hd,hh,honly,hown,hcomm⟩ := current_root hi hv
  rw [← htid] at hh hown
  exact ⟨hd,hh,honly,hown,by rw [creator,hh]; rfl,hcomm⟩

include hi hset in
theorem pending_nil (x : ℕ) : e.pending x = [] := by
  refine List.eq_nil_iff_forall_not_mem.2 fun op hop => ?_
  obtain ⟨hj,hlive⟩ := hi.pending x op hop
  cases op with
  | inserted a =>
    obtain ⟨-,-,hd,hh,-,hmin⟩ := hj
    obtain ⟨w,hw,-,hwx⟩ := hi.history.versions.creator _ hd hh
    exact hset w hw (by rw [hwx,hmin]; exact hlive.1)
  | deleted a =>
    obtain ⟨w,hw,hwx,-⟩ := hj
    exact hset w hw (hwx ▸ hlive.1)

include hi hset in
theorem current_of_not_dead {hd : TupleHeader} (hh : e.history.heap.tuple u = some hd)
    (hdead : ¬Dead e.history u) : Current e.history u := by
  obtain ⟨w,hw,hnew,-⟩ := hi.history.versions.creator u hd hh
  refine ⟨⟨w,hw,hnew,?_⟩,fun b hb hold hst => hdead (.inl ⟨b,hb,hold,hst⟩)⟩
  exact (hset.ended hi.history hw).resolve_right fun hab => hdead (.inr ⟨w,hw,hnew,hab⟩)

include hi hset hl in
/-- A version that can still be written to has its own value in the new column. -/
theorem keyed_eq (hg : Ghost width e values applied) (hcw : c < width) {hd : TupleHeader}
    (hh : e.history.heap.tuple u = some hd) (hdead : ¬Dead e.history u) :
    keyed e values c entries u = e.values u := by
  have hv : values u = e.values u := (hg.values u hd hh).resolve_right hdead
  have hcur := current_of_not_dead hi hset hh hdead
  have hlen : c < (e.values u).length := by
    rw [← hv,hg.length u hd hh]
    exact hcw
  have hkey : keyOf entries (e.root u) = (e.values u)[c] := by
    cases hx : (e.values u)[c] with
    | some k =>
      refine (keyOf_iff hi hset hl).2 ((hl.mem _).2 ⟨rfl,u,hcur,?_,rfl⟩)
      rw [List.getElem?_eq_getElem hlen,hx]
      rfl
    | none =>
      by_contra hne
      obtain ⟨k,hk⟩ := Option.ne_none_iff_exists'.1 hne
      obtain ⟨-,v,hv',hval,hroot⟩ := (hl.mem _).1 ((keyOf_iff hi hset hl).1 hk)
      obtain rfl := current_unique hi hset hcur hv' hroot
      rw [List.getElem?_eq_getElem hlen,hx] at hval
      cases hval
  rw [keyed,hv,hkey,List.set_getElem_self]

variable [DecidableEq K]

def withIndex (e : Table K) (entries : List (Entry K)) : Table K :=
  { e with index := entries.foldl (fun s a => (Op.inserted a).run s) e.index }

include hi hset hl in
theorem ghost_register (hg : Ghost width e values applied) (hcw : c < width) :
    Ghost width (withIndex e entries) (keyed e values c entries)
      (applied ++ entries.map fun a => (creator e a,.inserted a)) where
  length tid hd hh := by
    rw [keyed,List.length_set]
    exact hg.length tid hd hh
  values tid hd hh := by
    by_cases hdead : Dead e.history tid
    · exact .inr hdead
    · exact .inl (keyed_eq hi hset hl hg hcw hh hdead)
  applied x hx := by
    have hnil : ofTxn x (entries.map fun a => (creator e a,Op.inserted a)) = [] := by
      refine List.eq_nil_iff_forall_not_mem.2 fun op hop => ?_
      obtain ⟨a,ha,heq⟩ := List.mem_map.1 (UndoLog.mem_ofTxn.1 hop)
      obtain ⟨hd,-,-,-,hcr,hcomm⟩ := root_of_entry hi hl ha
      cases heq
      rw [hcr] at hx
      exact hx hcomm
    rw [UndoLog.ofTxn_append,hnil,List.append_nil]
    exact hg.applied x hx

include hi hset hl in
/-- With the new index the table is as if the index had been there from the start. -/
theorem inv_register (hg : Ghost width e values applied) (hc : c ∉ schema.columns)
    (hcw : c < width) :
    Engine.Inv (addColumn schema c) ((withIndex e entries).ghost (keyed e values c entries)
      (applied ++ entries.map fun a => (creator e a,.inserted a))) := by
  have hnew : ∀ {c'}, c' ∈ schema.columns → c' ∈ (addColumn schema c).columns ∧ c' ≠ c :=
    fun {c'} hc' => ⟨(mem_addColumn hc).2 (.inl hc'),fun he => hc (he ▸ hc')⟩
  have hlength : ∀ {tid hd}, e.history.heap.tuple tid = some hd → c < (values tid).length :=
    fun {tid hd} hh => by
      rw [hg.length tid hd hh]
      exact hcw
  have hpend := pending_nil hi hset
  have happlied : ∀ {x op}, (x,op) ∈ applied ++ entries.map (fun a => (creator e a,Op.inserted a)) →
      (x,op) ∈ applied ∨ ∃ a ∈ entries, x = creator e a ∧ op = .inserted a := fun {x op} hmem => by
    rcases List.mem_append.1 hmem with hmem | hmem
    · exact .inl hmem
    · obtain ⟨a,ha,heq⟩ := List.mem_map.1 hmem
      cases heq
      exact .inr ⟨a,ha,rfl,rfl⟩
  refine ⟨hi.history,⟨hi.roots.own,?_⟩,?_,?_,?_,?_,?_,?_,?_,?_⟩
  · intro w hw v hd hnew' hh honly
    obtain ⟨u,hu,hroot,hval⟩ := hi.roots.hot w hw v hd hnew' hh honly
    obtain ⟨-,hdu,hhu,-⟩ := hi.history.versions.ended w hw u hu
    refine ⟨u,hu,hroot,fun c' hc' => ?_⟩
    change (keyed e values c entries v)[c']? = (keyed e values c entries u)[c']?
    rcases (mem_addColumn hc).1 hc' with hc' | rfl
    · rw [keyed_of_ne (hnew hc').2,keyed_of_ne (hnew hc').2]
      exact hval c' hc'
    · rw [keyed_self (hlength hh),keyed_self (hlength hhu)]
      exact congrArg (fun r => some (keyOf entries r)) hroot
  · refine hi.log.insertAll (creator e) hl.nodup fun a ha y hy => ?_
    obtain ⟨⟨hcol,-⟩,-⟩ := hi.applied y _ hy
    exact hc (((hl.mem a).1 ha).1 ▸ hcol)
  · intro x op hmem
    rcases happlied hmem with hmem | ⟨a,ha,rfl,rfl⟩
    · obtain ⟨hj,hst⟩ := hi.applied x op hmem
      refine ⟨?_,hst⟩
      cases op with
      | inserted a =>
        obtain ⟨hcol,hentry,htuple⟩ := hj
        exact ⟨(hnew hcol).1,(entryOf_keyed (hnew hcol).2 ..).trans hentry,htuple⟩
      | deleted a =>
        obtain ⟨w,hw,hx,u,hcl,hcol,hentry⟩ := hj
        exact ⟨w,hw,hx,u,hcl,(hnew hcol).1,(entryOf_keyed (hnew hcol).2 ..).trans hentry⟩
    · obtain ⟨hd,hh,honly,hown,hcr,hcomm⟩ := root_of_entry hi hl ha
      have hcol := ((hl.mem a).1 ha).1
      refine ⟨⟨(mem_addColumn hc).2 (.inr hcol),?_,hd,hh,honly,hcr.symm⟩,.inr (hcr ▸ hcomm)⟩
      change entryOf (keyed e values c entries a.tid) a.tid a.column = some a
      have hkey : keyOf entries (e.root a.tid) = some a.key := by
        rw [hown]
        refine (keyOf_iff hi hset hl).2 ?_
        rw [← hcol]
        exact ha
      rw [entryOf,hcol,keyed_self (hlength hh),hkey]
      obtain ⟨column,key,tid⟩ := a
      cases hcol
      rfl
  · intro x op hmem
    rw [addColumn_fits]
    rcases happlied hmem with hmem | ⟨a,ha,-,rfl⟩
    · exact hi.fits x op hmem
    · exact hl.fits a ha
  · intro x op hop
    change op ∈ e.pending x at hop
    rw [hpend] at hop
    cases hop
  · intro x a ha
    change _ ∈ e.pending x at ha
    rw [hpend] at ha
    cases ha
  · exact hi.nodup
  · exact hi.ending
  · intro w hw hs v hd hnew' hh honly c' hc' a ha
    rcases (mem_addColumn hc).1 hc' with hc' | rfl
    · have hold := hi.complete w hw hs v hd hnew' hh honly c' hc' a
        ((entryOf_keyed (hnew hc').2 ..).symm.trans ha)
      exact hold.imp (List.mem_append_left _) id
    · change entryOf (keyed e values c' entries v) v c' = some a at ha
      rw [entryOf,keyed_self (hlength hh)] at ha
      obtain ⟨k,hk,rfl⟩ := Option.map_eq_some_iff.1 ha
      have hroot : e.root v = v := hi.roots.own v hd hh honly
      have hk' : keyOf entries (e.root v) = some k := hk
      rw [hroot] at hk'
      have hmem := (keyOf_iff hi hset hl).1 hk'
      obtain ⟨b,hb,hbnew,hbx⟩ := hi.history.versions.creator v hd hh
      obtain rfl := hi.history.versions.unique w hw b hb v hnew' hbnew
      refine .inl (List.mem_append_right _ (List.mem_map.2 ⟨⟨c',k,v⟩,hmem,?_⟩))
      have hh' : e.history.heap.tuple v = some hd := hh
      rw [creator,hh',hbx]
      rfl

end Register

end IndexBuild
end PgAm
