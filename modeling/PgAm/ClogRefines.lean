import PgAm.ClogInvariant

/-! The commit log cache refines a map from transactions to states, as long as no page read fails
after the page of its victim has been unmapped. After such a failure the victim still carries its
page number: a later eviction of it unmaps the frame that the page has been read into since. -/
namespace PgAm
namespace Clog

open Machine

def ClogBuffer.victim (s : ClogBuffer) : Option ClogFrame :=
  s.inner.findVictim.2.bind fun i => s.inner.findVictim.1.frames[i]?

/-- If the read fails, the page is cached or would be read into a frame that was never used. -/
def ClogBuffer.SafeRead (s : ClogBuffer) (pageNo : ℕ) (faults : Faults) : Prop :=
  (!faults.read || (s.inner.pageTable pageNo).isSome ||
    s.victim.all fun f => f.pageNo.isNone) = true

instance (s : ClogBuffer) (pageNo : ℕ) (faults : Faults) : Decidable (s.SafeRead pageNo faults) :=
  inferInstanceAs (Decidable (_ = true))

section Locate

variable {s : ClogBuffer} {last : ℕ → TxnState} {since : ℕ → List TxnState} {p : ℕ}
  {faults : Faults}

/-- What `locate_frame` is for: the page is in the frame, and without faults there is one. -/
structure Located (faults : Faults) (p : ℕ) (last : ℕ → TxnState) (since : ℕ → List TxnState)
    (r : ClogBuffer × Option ℕ) : Prop where
  inv : Inv r.1 last since
  frame : ∀ i, r.2 = some i → ∃ f, r.1.inner.Holds i p f
  total : faults.read = false → (∀ i, faults.write i = none) → r.2 ≠ none

theorem Inv.located_load (h : Inv s last since) {i : ℕ} {f : ClogFrame}
    (hf : s.inner.frames[i]? = some f) (hp : s.inner.pageTable p = none)
    (hold : ∀ q, f.pageNo = some q → s.store.file q = f.data ∧
      ∀ w ∈ s.store.written, w.1 = q → segmentIdOfPage q ∈ s.store.unsyncedSegments)
    {table : ℕ → Option ℕ} (htable : table = without s.inner.pageTable f.pageNo)
    (hread : faults.read = true → f.pageNo = none) :
    Located faults p last since
      (ClogBuffer.load { s with inner := { s.inner with pageTable := table } } p i faults) := by
  subst htable
  unfold ClogBuffer.load
  split
  next hbad =>
    refine ⟨?_,nofun,fun hr => absurd (hr.symm.trans hbad) Bool.false_ne_true⟩
    rw [hread hbad]
    exact h
  next =>
    refine ⟨h.load hf hp hold,?_,fun _ _ => nofun⟩
    rintro _ ⟨⟩
    exact ⟨_,(holds_setFrame hf).2 (.inl ⟨rfl,rfl,rfl⟩)⟩

theorem Inv.locateFrame (h : Inv s last since) (hsafe : s.SafeRead p faults) :
    Located faults p last since (s.locateFrame p faults) := by
  unfold ClogBuffer.locateFrame
  cases hp : s.inner.pageTable p with
  | some i =>
    obtain ⟨f,hf⟩ := (h.table p i).1 hp
    have hsame := @same_setFrame s.inner i f { f with referenced := true } hf.1 rfl
    simp only [hf.1]
    refine ⟨h.same hsame,?_,fun _ _ => nofun⟩
    rintro _ ⟨⟩
    exact ⟨_,(holds_setFrame hf.1).2 (.inl ⟨rfl,rfl,hf.2⟩)⟩
  | none =>
    obtain ⟨inner,i,f,hv,hf⟩ := exists_findVictim h.hand
    have hsame := findVictim_same s.inner
    rw [hv] at hsame
    have h' := h.same hsame
    have hp' : inner.pageTable p = none := by rw [hsame.table,hp]
    have hread : faults.read = true → f.pageNo = none := by
      intro hbad
      simpa [ClogBuffer.SafeRead,ClogBuffer.victim,hbad,hp,hv,hf] using hsafe
    simp only [hv,hf]
    cases hold : f.pageNo with
    | none =>
      exact h'.located_load hf hp' (by simp [hold]) (by rw [hold]; rfl) hread
    | some old =>
      have hholds : inner.Holds i old f := ⟨hf,hold⟩
      have hname : ∀ {q}, f.pageNo = some q → q = old := fun hq =>
        Option.some.inj (hq.symm.trans hold)
      cases hdirty : f.dirty with
      | true =>
        cases hw : faults.write i with
        | some done =>
          refine ⟨h'.write_failed hholds hdirty done,nofun,fun _ hnone => ?_⟩
          rw [hnone i] at hw
          cases hw
        | none =>
          refine (h'.write_ok hholds).located_load hf hp' ?_ (by rw [hold]; rfl) hread
          rintro q hq
          obtain rfl := hname hq
          exact ⟨file_put_self,fun _ _ _ => List.mem_cons_self⟩
      | false =>
        refine h'.located_load hf hp' ?_ (by rw [hold]; rfl) hread
        rintro q hq
        obtain rfl := hname hq
        refine ⟨h'.clean i q f hholds hdirty,fun w hw hwq => ?_⟩
        obtain hs | ⟨j,g,hg,hd⟩ := h'.pending w hw
        · exact hwq ▸ hs
        · rw [hwq] at hg
          obtain ⟨-,rfl⟩ := h'.unique hholds hg
          rw [hdirty] at hd
          cases hd

end Locate

section Calls

variable {s : ClogBuffer} {last : ℕ → TxnState} {since : ℕ → List TxnState} {faults : Faults}
  {x : ℕ}

def lookup (last : ℕ → TxnState) (xid : ℕ) : TxnState :=
  if xid = TxnId.invalid then .inProgress else last xid

theorem locateFrame_badRead {p : ℕ} (hbad : faults.read = true) (hp : s.inner.pageTable p = none) :
    (s.locateFrame p faults).2 = none := by
  have hload : ∀ (s : ClogBuffer) (i : ℕ), (s.load p i faults).2 = none := by
    intro s i
    rw [ClogBuffer.load,if_pos hbad]
  unfold ClogBuffer.locateFrame
  rw [hp]
  dsimp only
  split
  · rfl
  · split
    · rfl
    · split
      · exact hload _ _
      · split
        · split
          · rfl
          · exact hload _ _
        · exact hload _ _

theorem Inv.getState (h : Inv s last since)
    (hsafe : x ≠ TxnId.invalid → s.SafeRead (pageNoOfXid x) faults) :
    Inv (s.getState x faults).1 last since ∧
      (∀ st, (s.getState x faults).2 = some st → st = lookup last x) ∧
      (faults.read = false → (∀ i, faults.write i = none) → (s.getState x faults).2 ≠ none) := by
  unfold ClogBuffer.getState lookup
  split
  · exact ⟨h,fun st hst => (Option.some.inj hst).symm,fun _ _ => nofun⟩
  next hx =>
    have hl := h.locateFrame (hsafe hx)
    rcases hr : s.locateFrame (pageNoOfXid x) faults with ⟨s',_ | i⟩
    · rw [hr] at hl
      exact ⟨hl.inv,nofun,fun hr hw _ => hl.total hr hw rfl⟩
    · rw [hr] at hl
      obtain ⟨f,hf⟩ := hl.frame i rfl
      have hst := hl.inv.cached i _ f hf x rfl
      simp only [hf.1,Option.bind_some,hst]
      exact ⟨hl.inv,fun st h => (Option.some.inj h).symm,fun _ _ => nofun⟩

theorem Inv.setState (h : Inv s last since) (hsafe : s.SafeRead (pageNoOfXid x) faults)
    (hx : x ≠ TxnId.invalid) (st : TxnState) :
    ((s.setState x st faults).2 = false ∧ Inv (s.setState x st faults).1 last since) ∨
      ((s.setState x st faults).2 = true ∧ Inv (s.setState x st faults).1
        (Function.update last x st) (Function.update since x (st :: since x))) := by
  unfold ClogBuffer.setState
  rw [if_neg hx]
  have hl := h.locateFrame hsafe
  rcases hr : s.locateFrame (pageNoOfXid x) faults with ⟨s',_ | i⟩
  · rw [hr] at hl
    exact .inl ⟨rfl,hl.inv⟩
  · rw [hr] at hl
    obtain ⟨f,hf⟩ := hl.frame i rfl
    refine .inr ?_
    simp only [hf.1,true_and]
    exact hl.inv.setIn hf

end Calls

section Flush

variable {s : ClogBuffer} {last : ℕ → TxnState} {since : ℕ → List TxnState} {faults : Faults}

/-- The frames are written one after the other: those before `pre.length` are done. -/
theorem Inv.flushFrames {pre rest : List ClogFrame} {store : Store} {table : ℕ → Option ℕ}
    {hand : ℕ} (h : Inv ⟨store,⟨pre ++ rest,table,hand⟩⟩ last since) :
    Inv ⟨(ClogBuffer.flushFrames faults pre.length rest store).2.2,
        ⟨pre ++ (ClogBuffer.flushFrames faults pre.length rest store).2.1,table,hand⟩⟩ last since ∧
      ((ClogBuffer.flushFrames faults pre.length rest store).1 = true →
        ∀ f ∈ (ClogBuffer.flushFrames faults pre.length rest store).2.1,
          f.pageNo ≠ none → f.dirty = false) := by
  induction rest generalizing pre store with
  | nil => exact ⟨h,fun _ => nofun⟩
  | cons f rest ih =>
    have hf : (pre ++ f :: rest)[pre.length]? = some f := by simp
    have hgo : ∀ {f' : ClogFrame} {store' : Store},
        Inv ⟨store',⟨pre ++ f' :: rest,table,hand⟩⟩ last since →
        (f'.pageNo ≠ none → f'.dirty = false) →
        Inv ⟨(ClogBuffer.flushFrames faults (pre.length + 1) rest store').2.2,
          ⟨pre ++ f' :: (ClogBuffer.flushFrames faults (pre.length + 1) rest store').2.1,
            table,hand⟩⟩ last since ∧
        ((ClogBuffer.flushFrames faults (pre.length + 1) rest store').1 = true →
          ∀ g ∈ f' :: (ClogBuffer.flushFrames faults (pre.length + 1) rest store').2.1,
            g.pageNo ≠ none → g.dirty = false) := by
      intro f' store' h' hclean
      have hrest := @ih (pre ++ [f']) store' (by simpa using h')
      rw [List.length_append,List.length_singleton] at hrest
      refine ⟨by simpa using hrest.1,fun hok g hg => ?_⟩
      rcases List.mem_cons.1 hg with rfl | hg
      · exact hclean
      · exact hrest.2 hok g hg
    unfold ClogBuffer.flushFrames
    split
    next p hp hd =>
      have hholds : Inner.Holds ⟨pre ++ f :: rest,table,hand⟩ pre.length p f := ⟨hf,hp⟩
      cases hw : faults.write pre.length with
      | some done => exact ⟨h.write_failed hholds hd done,nofun⟩
      | none =>
        have hok := h.write_ok hholds
        have hclean := hok.markClean hholds file_put_self List.mem_cons_self
        have hset : (pre ++ f :: rest).set pre.length { f with dirty := false } =
            pre ++ { f with dirty := false } :: rest := by simp
        simp only [Inner.setFrame,hset] at hclean
        exact hgo hclean fun _ => rfl
    next hno =>
      refine hgo h fun hpage => ?_
      obtain ⟨p,hp⟩ := Option.ne_none_iff_exists'.1 hpage
      cases hd : f.dirty with
      | false => rfl
      | true => exact absurd hd (hno p hp)

theorem Inv.syncSegment (h : Inv s last since) (g : ℕ) :
    Inv { s with store := s.store.syncSegment g } last since where
  __ := h
  store := h.store.sync g
  pending w hw := by
    obtain ⟨hw,hg⟩ := List.mem_filter.1 hw
    exact (h.pending w hw).imp_left fun hs => List.mem_filter.2 ⟨hs,hg⟩

theorem Inv.syncUnsynced {pending : List ℕ} {store : Store} {inner : Inner}
    (h : Inv ⟨store,inner⟩ last since) :
    Inv ⟨(store.syncUnsynced faults.sync pending).2,inner⟩ last since ∧
      ((store.syncUnsynced faults.sync pending).1 = true →
        ∀ g ∈ (store.syncUnsynced faults.sync pending).2.unsyncedSegments,
          g ∈ store.unsyncedSegments ∧ g ∉ pending) := by
  induction pending generalizing store with
  | nil => exact ⟨h,fun _ g hg => ⟨hg,by simp⟩⟩
  | cons g pending ih =>
    unfold Store.syncUnsynced
    split
    · exact ⟨h,nofun⟩
    · obtain ⟨hinv,hrest⟩ := ih (h.syncSegment g)
      refine ⟨hinv,fun hok g' hg' => ?_⟩
      obtain ⟨hmem,hout⟩ := hrest hok g' hg'
      obtain ⟨hmem,hne⟩ := List.mem_filter.1 hmem
      exact ⟨hmem,List.not_mem_cons_of_ne_of_not_mem (of_decide_eq_true hne) hout⟩

theorem Inv.flushed (h : Inv s last since)
    (hclean : ∀ i p f, s.inner.Holds i p f → f.dirty = false)
    (hsynced : ∀ g, g ∉ s.store.unsyncedSegments) : Inv s last fun x => [last x] := by
  have hwritten : s.store.written = [] := by
    refine List.eq_nil_iff_forall_not_mem.2 fun w hw => ?_
    obtain hs | ⟨i,f,hf,hd⟩ := h.pending w hw
    · exact hsynced _ hs
    · rw [hclean i _ f hf] at hd
      cases hd
  have hfile : ∀ p, Current last p (s.store.file p) := by
    intro p
    cases hp : s.inner.pageTable p with
    | none => exact h.uncached p hp
    | some i =>
      obtain ⟨f,hf⟩ := (h.table p i).1 hp
      rw [h.clean i p f hf (hclean i p f hf)]
      exact h.cached i p f hf
  have hrecent : ∀ x, last x ∈ [last x] := fun x => List.mem_singleton_self _
  refine { h with recent := hrecent, store := ⟨?_,?_,?_,h.store.settled⟩ }
  · exact fun p => (hfile p).toRecent hrecent
  · intro p
    rw [h.store.settled p (by simp [hwritten])]
    exact (hfile p).toRecent hrecent
  · simp [hwritten]

theorem Inv.flushDirty (h : Inv s last since) {pending : List ℕ} (hread : s.ReadAs pending faults) :
    Inv (s.flushDirty pending faults).1 last since ∧
      ((s.flushDirty pending faults).2 = true →
        Inv (s.flushDirty pending faults).1 last fun x => [last x]) := by
  obtain ⟨hinv,hframes⟩ := @Inv.flushFrames last since faults [] s.inner.frames s.store
    s.inner.pageTable s.inner.clockHand h
  rw [List.length_nil,List.nil_append] at hinv
  simp only [ClogBuffer.flushDirty]
  split
  next hok =>
    obtain ⟨hsync,hrest⟩ := @Inv.syncUnsynced last since faults pending _ _ hinv
    refine ⟨hsync,fun hs => hsync.flushed ?_ fun g hg => ?_⟩
    · intro i p f hf
      refine hframes hok f (List.mem_of_getElem? hf.1) ?_
      rw [hf.2]
      exact nofun
    · obtain ⟨hmem,hout⟩ := hrest hs g hg
      exact hout (hread.2 hmem)
  next => exact ⟨hinv,nofun⟩

end Flush

def Sys.SafeCall (s : Sys) : Call → Prop
  | .getState xid faults | .setState xid _ faults =>
    xid ≠ TxnId.invalid → s.buffer.SafeRead (pageNoOfXid xid) faults
  | .flushDirty _ _ => True

instance (s : Sys) : (a : Call) → Decidable (s.SafeCall a)
  | .getState xid faults | .setState xid _ faults =>
    inferInstanceAs (Decidable (xid ≠ TxnId.invalid → s.buffer.SafeRead (pageNoOfXid xid) faults))
  | .flushDirty _ _ => .isTrue trivial

theorem Inv.opened {linked : ℕ → Bool} {image : ℕ → Page} {frames : ℕ} {last : ℕ → TxnState}
    {since : ℕ → List TxnState} (hframes : minFrames ≤ frames)
    (himage : ∀ x, stateIn (image (pageNoOfXid x)) x = some (last x))
    (hsince : ∀ x, since x = [last x]) : Inv (.opened linked image frames) last since := by
  have hunused : ∀ i p f, ¬(ClogBuffer.opened linked image frames).inner.Holds i p f := by
    rintro i p f ⟨hf,hp⟩
    rw [List.eq_of_mem_replicate (List.mem_of_getElem? hf)] at hp
    cases hp
  have hcurrent : ∀ p, Current last p (image p) := by
    rintro _ x rfl
    exact himage x
  have hrecent : ∀ x, last x ∈ since x := fun x => by simp [hsince x]
  refine ⟨?_,fun p i => ⟨nofun,?_⟩,?_,?_,fun p _ => hcurrent p,hrecent,?_,nofun⟩
  · simp only [ClogBuffer.opened,List.length_replicate]
    exact Nat.lt_of_lt_of_le (by decide) hframes
  · rintro ⟨f,hf⟩
    exact absurd hf (hunused i p f)
  · exact fun i p f hf => absurd hf (hunused i p f)
  · exact fun i p f hf => absurd hf (hunused i p f)
  · exact ⟨fun p => (hcurrent p).toRecent hrecent,fun p => (hcurrent p).toRecent hrecent,nofun,
      fun _ _ => rfl⟩

def Sys.Inv (s : Sys) : Prop := Clog.Inv s.buffer s.last s.since

theorem Sys.Inv.step {s s' : Sys} {a : Call} (h : s.Inv) (hsafe : s.SafeCall a)
    (hs : s.step a = some s') : s'.Inv := by
  cases a with
  | getState x faults =>
    cases hs
    exact (Clog.Inv.getState h hsafe).1
  | setState x st faults =>
    cases hs
    by_cases hx : x = TxnId.invalid
    · have hnoop : s.buffer.setState x st faults = (s.buffer,true) := if_pos hx
      have hskip : ∀ u : Sys, u.recorded x st = u := fun u => if_pos hx
      simp only [hnoop,if_true,hskip]
      exact h
    · obtain ⟨hr,hinv⟩ | ⟨hr,hinv⟩ := Clog.Inv.setState h (hsafe hx) hx st
      · simp only [hr,Bool.false_eq_true,if_false]
        exact hinv
      · simp only [hr,if_true,Sys.recorded,if_neg hx]
        exact hinv
  | flushDirty pending faults =>
    rw [Sys.step,Option.ite_none_right_eq_some,Option.some.injEq] at hs
    obtain ⟨hread,rfl⟩ := hs
    obtain ⟨hinv,hok⟩ := Clog.Inv.flushDirty h hread
    cases hr : (s.buffer.flushDirty pending faults).2 with
    | false =>
      simp only [Bool.false_eq_true,if_false]
      exact hinv
    | true =>
      simp only [if_true]
      exact hok hr

theorem Sys.Inv.reach {s : Sys} (h : Reach Sys.step Sys.Start Sys.SafeCall s) : s.Inv := by
  refine h.invariant (I := Sys.Inv) ?_ fun _ _ _ hi hsafe hs => hi.step hsafe hs
  rintro s ⟨linked,image,frames,hmin,-,hbuffer,-,himage⟩
  rw [Sys.Inv,hbuffer]
  exact .opened hmin (fun x => (himage x).1) fun x => (himage x).2

/-- A call returns the last state or fails with one of its accesses, and after a crash each
transaction of an old segment file has its state of the last good flush or a later one. -/
theorem clog_refines_map {s : Sys} (h : Reach Sys.step Sys.Start Sys.SafeCall s) :
    (∀ x faults, (s.buffer.getState x faults).2 = some (lookup s.last x) ∨
      (s.buffer.getState x faults).2 = none ∧
        (faults.read = true ∨ ∃ i, faults.write i ≠ none)) ∧
      ∀ image, s.buffer.store.CrashImage image → ∀ linked frames, minFrames ≤ frames →
        frames ≤ maxFrames → ∀ x, s.buffer.store.linked (segmentIdOfPage (pageNoOfXid x)) = true →
          ∃ st ∈ s.since x, ((ClogBuffer.opened linked image frames).getState x .none).2 =
            some (lookup (fun _ => st) x) := by
  have hinv := Sys.Inv.reach h
  have hall : ∀ {b : ClogBuffer} {last since}, Inv b last since → ∀ x faults,
      (b.getState x faults).2 = some (lookup last x) ∨
        (b.getState x faults).2 = none ∧ (faults.read = true ∨ ∃ i, faults.write i ≠ none) := by
    intro b last since hb x faults
    by_cases hsafe : x ≠ TxnId.invalid → b.SafeRead (pageNoOfXid x) faults
    · obtain ⟨-,hval,htotal⟩ := hb.getState hsafe
      cases hr : (b.getState x faults).2 with
      | some st => exact .inl (congrArg some (hval st hr))
      | none =>
        refine .inr ⟨rfl,?_⟩
        by_contra hno
        rw [not_or,Bool.not_eq_true,not_exists] at hno
        exact htotal hno.1 (fun i => not_not.1 (hno.2 i)) hr
    · rw [Classical.not_imp] at hsafe
      obtain ⟨hx,hbad⟩ := hsafe
      simp only [ClogBuffer.SafeRead,Bool.or_eq_true,not_or,Bool.not_eq_true,Bool.not_eq_true',
        Bool.not_eq_false,Option.isSome_eq_false_iff,Option.isNone_iff_eq_none] at hbad
      have hnone := @locateFrame_badRead b faults _ hbad.1.1 hbad.1.2
      refine .inr ⟨?_,.inl hbad.1.1⟩
      rw [ClogBuffer.getState,if_neg hx]
      rcases hr : b.locateFrame (pageNoOfXid x) faults with ⟨b',_ | i⟩
      · rfl
      · rw [hr] at hnone
        cases hnone
  refine ⟨hall hinv,fun image hcrash linked frames hmin _ x hlinked => ?_⟩
  choose last hstate hmem using hinv.store.crash hcrash
  refine ⟨last x,hmem x hlinked,?_⟩
  have hopened := @Inv.opened linked image frames last _ hmin hstate fun _ => rfl
  rcases hall hopened x .none with hr | ⟨-,hbad | ⟨i,hi⟩⟩
  · exact hr
  · cases hbad
  · exact absurd rfl hi

def firstOf (pageNo : ℕ) : ℕ := xidsPerClogPage * pageNo + 1

def fresh (linked : ℕ → Bool) : Sys where
  buffer := .opened linked (fun _ _ => 0) minFrames
  last _ := .inProgress
  since _ := [.inProgress]

theorem fresh_start (linked : ℕ → Bool) : (fresh linked).Start :=
  ⟨linked,fun _ _ => 0,minFrames,le_rfl,by decide,rfl,fun _ _ => rfl,
    fun x => ⟨stateIn_zero x,rfl⟩⟩

def look (pageNo : ℕ) (faults : Faults) : Call := .getState (firstOf pageNo) faults

/-- The read of a fifth page fails; the first page is read into another frame and changed there. -/
def lostUpdate : List Call :=
  [look 1 .none,look 2 .none,look 3 .none,look 4 .none,look 5 .badRead,look 6 .none,
    .setState (firstOf 1) .committed .none,look 7 .none,look 8 .none]

def Store.withoutFirst (s : Store) (p : ℕ) : Page :=
  if segmentIdOfPage p = 0 then fun _ => 0 else s.durable p

/-- A commit that was recorded is not seen; one that was flushed goes with its new segment file. -/
theorem set_state_lost :
    (∃ s : Sys, Reach Sys.step Sys.Start anyStep s ∧ ∃ x, x ≠ TxnId.invalid ∧
      s.last x = .committed ∧ (s.buffer.getState x .none).2 = some .inProgress) ∧
    ∃ (s : Sys) (image : ℕ → Page), Reach Sys.step Sys.Start Sys.SafeCall s ∧
      s.since 1 = [.committed] ∧ s.buffer.store.CrashImage image ∧
      ((ClogBuffer.opened (fun _ => false) image minFrames).getState 1 .none).2 =
        some .inProgress := by
  constructor
  · have hrun : ∃ s : Sys, Reach Sys.step Sys.Start anyStep s ∧
        decide (s.last (firstOf 1) = .committed ∧
          (s.buffer.getState (firstOf 1) .none).2 = some .inProgress) = true :=
      @exists_reach _ _ Sys.step Sys.Start anyStep _ _ (fresh_start fun _ => false) lostUpdate _
        (by decide +kernel)
    obtain ⟨s,hs,hp⟩ := hrun
    obtain ⟨hlast,hget⟩ := of_decide_eq_true hp
    exact ⟨s,hs,firstOf 1,by decide,hlast,hget⟩
  · have hrun : ∃ s : Sys, Reach Sys.step Sys.Start Sys.SafeCall s ∧
        decide (s.since 1 = [.committed] ∧ s.buffer.store.linked 0 = false ∧
          ((ClogBuffer.opened (fun _ => false) s.buffer.store.withoutFirst minFrames).getState 1
            .none).2 = some .inProgress) = true :=
      @exists_reach _ _ Sys.step Sys.Start Sys.SafeCall _ _ (fresh_start fun _ => false)
        [.setState 1 .committed .none,.flushDirty [0] .none] _ (by decide +kernel)
    obtain ⟨s,hs,hp⟩ := hrun
    obtain ⟨hsince,hlinked,hget⟩ := of_decide_eq_true hp
    refine ⟨s,_,hs,hsince,⟨fun g => decide (g = 0),fun g hg => ?_,fun p => ?_⟩,hget⟩
    · exact (of_decide_eq_true hg) ▸ hlinked
    · by_cases hp : segmentIdOfPage p = 0
      · simp only [Store.withoutFirst,hp,decide_true,if_true]
      · simp only [Store.withoutFirst,hp,decide_false,Bool.false_eq_true,if_false]
        exact fun i => .inl rfl

theorem clog_refines_map_after_flush : ∃ s : Sys, Reach Sys.step Sys.Start Sys.SafeCall s ∧
    (s.buffer.getState (firstOf 1) .none).2 = some .committed ∧
    ∀ image, s.buffer.store.CrashImage image →
      ((ClogBuffer.opened (fun _ => true) image minFrames).getState (firstOf 1) .none).2 =
        some .committed := by
  have hrun : ∃ s : Sys, Reach Sys.step Sys.Start Sys.SafeCall s ∧
      decide (s.last (firstOf 1) = .committed ∧ s.since (firstOf 1) = [.committed] ∧
        s.buffer.store.linked 0 = true) = true :=
    @exists_reach _ _ Sys.step Sys.Start Sys.SafeCall _ _ (fresh_start fun _ => true)
      [look 2 .badRead,.setState (firstOf 1) .committed .none,.flushDirty [0] .none] _
      (by decide +kernel)
  obtain ⟨s,hs,hp⟩ := hrun
  obtain ⟨hlast,hsince,hlinked⟩ := of_decide_eq_true hp
  obtain ⟨hget,hcrash⟩ := clog_refines_map hs
  refine ⟨s,hs,?_,fun image himage => ?_⟩
  · rcases hget (firstOf 1) .none with hr | ⟨-,hbad | ⟨i,hi⟩⟩
    · rw [hr,lookup,if_neg (by decide),hlast]
    · cases hbad
    · exact absurd rfl hi
  · obtain ⟨st,hst,hr⟩ := hcrash image himage (fun _ => true) minFrames le_rfl (by decide)
      (firstOf 1) hlinked
    rw [hsince,List.mem_singleton] at hst
    rw [hr,hst]
    rfl

end Clog
end PgAm
