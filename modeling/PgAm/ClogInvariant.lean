import PgAm.ClogSweep

/-! The invariant of the commit log cache. The page table maps exactly the frames that hold a
page, a cached page shows the last states, and whatever is or may become durable shows states
that were set since the last flush. -/
namespace PgAm
namespace Clog

open Function

/-- Every transaction of the page has one of its recent states there. -/
def Recent (since : ℕ → List TxnState) (pageNo : ℕ) (page : Page) : Prop :=
  ∀ x, pageNoOfXid x = pageNo → ∃ st ∈ since x, stateIn page x = some st

def Current (last : ℕ → TxnState) (pageNo : ℕ) (page : Page) : Prop :=
  ∀ x, pageNoOfXid x = pageNo → stateIn page x = some (last x)

def Inner.Holds (s : Inner) (i pageNo : ℕ) (f : ClogFrame) : Prop :=
  s.frames[i]? = some f ∧ f.pageNo = some pageNo

/-- What the files show, and may show after a crash, is recent. -/
structure StoreInv (s : Store) (since : ℕ → List TxnState) : Prop where
  file : ∀ p, Recent since p (s.file p)
  durable : ∀ p, Recent since p (s.durable p)
  written : ∀ w ∈ s.written, Recent since w.1 w.2
  settled : ∀ p, (∀ w ∈ s.written, w.1 ≠ p) → s.durable p = s.file p

structure Inv (s : ClogBuffer) (last : ℕ → TxnState) (since : ℕ → List TxnState) : Prop where
  hand : s.inner.clockHand < s.inner.frames.length
  table : ∀ p i, s.inner.pageTable p = some i ↔ ∃ f, s.inner.Holds i p f
  cached : ∀ i p f, s.inner.Holds i p f → Current last p f.data
  clean : ∀ i p f, s.inner.Holds i p f → f.dirty = false → s.store.file p = f.data
  uncached : ∀ p, s.inner.pageTable p = none → Current last p (s.store.file p)
  recent : ∀ x, last x ∈ since x
  store : StoreInv s.store since
  pending : ∀ w ∈ s.store.written, segmentIdOfPage w.1 ∈ s.store.unsyncedSegments ∨
    ∃ i f, s.inner.Holds i w.1 f ∧ f.dirty = true

section Basic

variable {last : ℕ → TxnState} {since : ℕ → List TxnState} {p : ℕ} {page : Page}

theorem stateIn_congr {page page' : Page} {x : ℕ}
    (h : page (byteInPageOfXid x) = page' (byteInPageOfXid x)) :
    stateIn page x = stateIn page' x := by
  simp only [stateIn,h]

theorem Current.toRecent (h : Current last p page) (hrecent : ∀ x, last x ∈ since x) :
    Recent since p page := fun x hx => ⟨last x,hrecent x,h x hx⟩

theorem recent_of_bytes (h : ∀ i, ∃ page', Recent since p page' ∧ page i = page' i) :
    Recent since p page := by
  intro x hx
  obtain ⟨page',hr,hbyte⟩ := h (byteInPageOfXid x)
  obtain ⟨st,hst,hs⟩ := hr x hx
  exact ⟨st,hst,(stateIn_congr hbyte).trans hs⟩

theorem Recent.mono {since' : ℕ → List TxnState} (h : Recent since p page)
    (hs : ∀ x, since x ⊆ since' x) : Recent since' p page := by
  intro x hx
  obtain ⟨st,hst,hs'⟩ := h x hx
  exact ⟨st,hs x hst,hs'⟩

end Basic

section Same

variable {s : ClogBuffer} {inner : Inner} {last : ℕ → TxnState} {since : ℕ → List TxnState}

theorem Same.holds {s s' : Inner} (h : Same s s') {i p : ℕ} {f : ClogFrame} (hf : s'.Holds i p f) :
    ∃ g, s.Holds i p g ∧ g.data = f.data ∧ g.dirty = f.dirty := by
  obtain ⟨g,hg,hcore⟩ := h.frame hf.1
  simp only [ClogFrame.core,Prod.mk.injEq] at hcore
  exact ⟨g,⟨hg,hcore.1 ▸ hf.2⟩,hcore.2.1.symm,hcore.2.2.symm⟩

theorem Same.symm {s s' : Inner} (h : Same s s') (hs : s.clockHand < s.frames.length) : Same s' s :=
  ⟨h.table.symm,h.length.symm,fun i => (h.frames i).symm,fun _ => hs⟩

theorem Inv.same (h : Inv s last since) (hsame : Same s.inner inner) :
    Inv { s with inner } last since where
  __ := h
  hand := hsame.hand h.hand
  table p i := by
    change inner.pageTable p = some i ↔ ∃ f, inner.Holds i p f
    rw [hsame.table,h.table]
    constructor
    · rintro ⟨f,hf⟩
      obtain ⟨g,hg,-⟩ := (hsame.symm h.hand).holds hf
      exact ⟨g,hg⟩
    · rintro ⟨f,hf⟩
      obtain ⟨g,hg,-⟩ := hsame.holds hf
      exact ⟨g,hg⟩
  cached i p f hf := by
    obtain ⟨g,hg,hdata,-⟩ := hsame.holds hf
    exact hdata ▸ h.cached i p g hg
  clean i p f hf hdirty := by
    obtain ⟨g,hg,hdata,hd⟩ := hsame.holds hf
    exact hdata ▸ h.clean i p g hg (hd.trans hdirty)
  uncached p hp := h.uncached p (by rw [← hsame.table]; exact hp)
  pending w hw := by
    refine (h.pending w hw).imp_right ?_
    rintro ⟨i,f,hf,hdirty⟩
    obtain ⟨g,hg,-,hd⟩ := (hsame.symm h.hand).holds hf
    exact ⟨i,g,hg,hd.trans hdirty⟩

end Same

section Store

variable {s : Store} {since : ℕ → List TxnState} {p : ℕ} {image : Page}

@[simp] theorem file_put_self : (s.put p image).file p = image := update_self _ _ _

theorem file_put_of_ne {q : ℕ} (h : q ≠ p) : (s.put p image).file q = s.file q :=
  update_of_ne h _ _

theorem StoreInv.put (h : StoreInv s since) (hp : Recent since p image) :
    StoreInv (s.put p image) since where
  file q := by
    by_cases hq : q = p
    · rw [hq,file_put_self]
      exact hp
    · rw [file_put_of_ne hq]
      exact h.file q
  durable := h.durable
  written w hw := by
    rcases List.mem_cons.1 hw with rfl | hw
    · exact hp
    · exact h.written w hw
  settled q hq := by
    have hne : q ≠ p := fun e => hq _ List.mem_cons_self e.symm
    rw [file_put_of_ne hne]
    exact h.settled q fun w hw => hq w (List.mem_cons_of_mem _ hw)

theorem StoreInv.register (h : StoreInv s since) (segments : List ℕ) :
    StoreInv { s with unsyncedSegments := segments } since :=
  { h with }

theorem StoreInv.mono {since' : ℕ → List TxnState} (h : StoreInv s since)
    (hs : ∀ x, since x ⊆ since' x) : StoreInv s since' :=
  ⟨fun p => (h.file p).mono hs,fun p => (h.durable p).mono hs,fun w hw => (h.written w hw).mono hs,
    h.settled⟩

theorem StoreInv.sync (h : StoreInv s since) (g : ℕ) : StoreInv (s.syncSegment g) since where
  file := h.file
  durable q := by
    simp only [Store.syncSegment]
    split
    · exact h.file q
    · exact h.durable q
  written w hw := h.written w (List.mem_filter.1 hw).1
  settled q hq := by
    simp only [Store.syncSegment]
    split
    · rfl
    next hseg =>
      refine h.settled q fun w hw hwq => hq w (List.mem_filter.2 ⟨hw,decide_eq_true ?_⟩) hwq
      rw [hwq]
      exact hseg

theorem StoreInv.kept (h : StoreInv s since) (hk : s.KeptImage p image) : Recent since p image := by
  refine recent_of_bytes fun i => ?_
  rcases hk i with hd | ⟨w,hw,rfl,hd⟩
  · exact ⟨_,h.durable p,hd⟩
  · exact ⟨_,h.written w hw,hd⟩

@[simp] theorem stateIn_zero (x : ℕ) : stateIn (fun _ => 0) x = some .inProgress := by
  simp only [stateIn,getNibble]
  split <;> rfl

/-- A segment file that is gone reads as in progress, the others show recent states. -/
theorem StoreInv.crash (h : StoreInv s since) {image : ℕ → Page} (hc : s.CrashImage image) (x : ℕ) :
    ∃ st, stateIn (image (pageNoOfXid x)) x = some st ∧
      (s.linked (segmentIdOfPage (pageNoOfXid x)) = true → st ∈ since x) := by
  obtain ⟨gone,hgone,hpages⟩ := hc
  have hpage := hpages (pageNoOfXid x)
  split at hpage
  · rename_i hg
    refine ⟨.inProgress,by rw [hpage,stateIn_zero],fun hl => ?_⟩
    rw [hgone _ hg] at hl
    cases hl
  · obtain ⟨st,hst,hx⟩ := h.kept hpage x rfl
    exact ⟨st,hx,fun _ => hst⟩

end Store

section Write

variable {s : ClogBuffer} {last : ℕ → TxnState} {since : ℕ → List TxnState} {i p : ℕ}
  {f : ClogFrame}

theorem Inv.unique (h : Inv s last since) (hf : s.inner.Holds i p f) {j : ℕ} {g : ClogFrame}
    (hg : s.inner.Holds j p g) : j = i ∧ g = f := by
  have hij := Option.some.inj (((h.table p j).2 ⟨g,hg⟩).symm.trans ((h.table p i).2 ⟨f,hf⟩))
  subst hij
  exact ⟨rfl,Option.some.inj (hg.1.symm.trans hf.1)⟩

theorem Inv.write_failed (h : Inv s last since) (hf : s.inner.Holds i p f) (hdirty : f.dirty = true)
    (done : ℕ → Bool) :
    Inv { s with store := (s.store.writePage p f.data (some done)).2 } last since where
  __ := h
  clean j q g hg hclean := by
    refine (file_put_of_ne ?_).trans (h.clean j q g hg hclean)
    rintro rfl
    rw [(h.unique hf hg).2,hdirty] at hclean
    cases hclean
  uncached q hq := by
    have hne : q ≠ p := by
      rintro rfl
      rw [(h.table q i).2 ⟨f,hf⟩] at hq
      cases hq
    exact (file_put_of_ne hne).symm ▸ h.uncached q hq
  store := by
    refine h.store.put (recent_of_bytes fun j => ?_)
    by_cases hj : done j = true
    · exact ⟨f.data,(h.cached i p f hf).toRecent h.recent,if_pos hj⟩
    · exact ⟨s.store.file p,h.store.file p,if_neg hj⟩
  pending w hw := by
    rcases List.mem_cons.1 hw with rfl | hw
    · exact .inr ⟨i,f,hf,hdirty⟩
    · exact h.pending w hw

theorem Inv.write_ok (h : Inv s last since) (hf : s.inner.Holds i p f) :
    Inv { s with store := (s.store.writePage p f.data none).2 } last since where
  __ := h
  clean j q g hg hclean := by
    by_cases hq : q = p
    · subst hq
      rw [(h.unique hf hg).2]
      exact file_put_self
    · exact (file_put_of_ne hq).trans (h.clean j q g hg hclean)
  uncached q hq := by
    have hne : q ≠ p := by
      rintro rfl
      rw [(h.table q i).2 ⟨f,hf⟩] at hq
      cases hq
    exact (file_put_of_ne hne).symm ▸ h.uncached q hq
  store := (h.store.put ((h.cached i p f hf).toRecent h.recent)).register _
  pending w hw := by
    rcases List.mem_cons.1 hw with rfl | hw
    · exact .inl List.mem_cons_self
    · exact (h.pending w hw).imp_left (List.mem_cons_of_mem _)

end Write

section Frame

theorem holds_setFrame {s : Inner} {i j q : ℕ} {f f' g : ClogFrame} (hf : s.frames[i]? = some f) :
    (s.setFrame i f').Holds j q g ↔
      j = i ∧ g = f' ∧ f'.pageNo = some q ∨ j ≠ i ∧ s.Holds j q g := by
  have hi := (List.getElem?_eq_some_iff.1 hf).1
  simp only [Inner.Holds,Inner.setFrame]
  by_cases hj : j = i
  · subst hj
    rw [List.getElem?_set_self hi,Option.some.injEq]
    constructor
    · rintro ⟨rfl,hp⟩
      exact .inl ⟨rfl,rfl,hp⟩
    · rintro (⟨-,rfl,hp⟩ | ⟨hne,-⟩)
      · exact ⟨rfl,hp⟩
      · exact absurd rfl hne
  · rw [List.getElem?_set_ne (Ne.symm hj)]
    constructor
    · exact fun h => .inr ⟨hj,h⟩
    · rintro (⟨he,-⟩ | ⟨-,h⟩)
      · exact absurd he hj
      · exact h

variable {s : ClogBuffer} {last : ℕ → TxnState} {since : ℕ → List TxnState} {i p : ℕ}
  {f f' : ClogFrame}

theorem Inv.table_setFrame (h : Inv s last since) (hf : s.inner.Holds i p f)
    (hf' : f'.pageNo = some p) (q j : ℕ) :
    s.inner.pageTable q = some j ↔ ∃ g, (s.inner.setFrame i f').Holds j q g := by
  rw [h.table]
  constructor
  · rintro ⟨g,hg⟩
    by_cases hj : j = i
    · subst hj
      have hq : q = p := Option.some.inj (by rw [← hg.2,← hf.2,Option.some.inj
        (hg.1.symm.trans hf.1)])
      exact ⟨f',(holds_setFrame hf.1).2 (.inl ⟨rfl,rfl,hq ▸ hf'⟩)⟩
    · exact ⟨g,(holds_setFrame hf.1).2 (.inr ⟨hj,hg⟩)⟩
  · rintro ⟨g,hg⟩
    obtain ⟨rfl,-,hq⟩ | ⟨-,hg⟩ := (holds_setFrame hf.1).1 hg
    · exact ⟨f,hf.1,hf.2.trans (hf'.symm.trans hq)⟩
    · exact ⟨g,hg⟩

theorem Inv.markClean (h : Inv s last since) (hf : s.inner.Holds i p f)
    (hfile : s.store.file p = f.data)
    (hseg : segmentIdOfPage p ∈ s.store.unsyncedSegments) :
    Inv { s with inner := s.inner.setFrame i { f with dirty := false } } last since where
  __ := h
  hand := h.hand.trans_eq List.length_set.symm
  table := h.table_setFrame hf hf.2
  cached j q g hg := by
    obtain ⟨rfl,rfl,hq⟩ | ⟨-,hg⟩ := (holds_setFrame hf.1).1 hg
    · exact h.cached j q f ⟨hf.1,hq⟩
    · exact h.cached j q g hg
  clean j q g hg hclean := by
    obtain ⟨rfl,rfl,hq⟩ | ⟨-,hg⟩ := (holds_setFrame hf.1).1 hg
    · rw [← Option.some.inj (hf.2.symm.trans hq)]
      exact hfile
    · exact h.clean j q g hg hclean
  pending w hw := by
    obtain hs | ⟨j,g,hg,hdirty⟩ := h.pending w hw
    · exact .inl hs
    · by_cases hj : j = i
      · subst hj
        have hq : w.1 = p :=
          Option.some.inj (by rw [← hg.2,← hf.2,Option.some.inj (hg.1.symm.trans hf.1)])
        exact .inl (hq ▸ hseg)
      · exact .inr ⟨j,g,(holds_setFrame hf.1).2 (.inr ⟨hj,hg⟩),hdirty⟩

theorem Inv.setIn (h : Inv s last since) {x : ℕ} {st : TxnState}
    (hf : s.inner.Holds i (pageNoOfXid x) f) :
    Inv { s with inner := s.inner.setFrame i { f with data := setIn f.data x st, dirty := true } }
      (update last x st) (update since x (st :: since x)) := by
  have hsub : ∀ y, since y ⊆ update since x (st :: since x) y := by
    intro y
    by_cases hy : y = x
    · subst hy
      rw [update_self]
      exact List.subset_cons_self _ _
    · rw [update_of_ne hy]
      exact List.Subset.refl _
  have hother : ∀ {q : ℕ} {page : Page}, q ≠ pageNoOfXid x → Current last q page →
      Current (update last x st) q page := by
    intro q page hq hc y hy
    have hyx : y ≠ x := fun e => hq (hy ▸ e ▸ rfl)
    rw [update_of_ne hyx]
    exact hc y hy
  have hself : Current (update last x st) (pageNoOfXid x) (Clog.setIn f.data x st) := by
    intro y hy
    by_cases hyx : y = x
    · subst hyx
      rw [update_self,stateIn_setIn_self]
    · rw [update_of_ne hyx,stateIn_setIn_of_ne _ hy hyx]
      exact h.cached i _ f hf y hy
  refine ⟨h.hand.trans_eq List.length_set.symm,h.table_setFrame hf hf.2,?_,?_,?_,?_,
    h.store.mono hsub,?_⟩
  · intro j q g hg
    obtain ⟨rfl,rfl,hq⟩ | ⟨hj,hg⟩ := (holds_setFrame hf.1).1 hg
    · rw [← Option.some.inj (hf.2.symm.trans hq)]
      exact hself
    · refine hother ?_ (h.cached j q g hg)
      rintro rfl
      exact hj (h.unique hf hg).1
  · intro j q g hg hclean
    obtain ⟨rfl,rfl,hq⟩ | ⟨-,hg⟩ := (holds_setFrame hf.1).1 hg
    · cases hclean
    · exact h.clean j q g hg hclean
  · intro q hq
    refine hother ?_ (h.uncached q hq)
    rintro rfl
    have hmapped := (h.table _ i).2 ⟨f,hf⟩
    rw [show s.inner.pageTable (pageNoOfXid x) = none from hq] at hmapped
    cases hmapped
  · intro y
    by_cases hy : y = x
    · subst hy
      rw [update_self,update_self]
      exact List.mem_cons_self
    · rw [update_of_ne hy,update_of_ne hy]
      exact h.recent y
  · intro w hw
    obtain hs | ⟨j,g,hg,hdirty⟩ := h.pending w hw
    · exact .inl hs
    · refine .inr ?_
      by_cases hj : j = i
      · subst hj
        refine ⟨j,_,(holds_setFrame hf.1).2 (.inl ⟨rfl,rfl,?_⟩),rfl⟩
        rw [← hg.2,Option.some.inj (hg.1.symm.trans hf.1)]
      · exact ⟨j,g,(holds_setFrame hf.1).2 (.inr ⟨hj,hg⟩),hdirty⟩

end Frame

section Load

variable {s : ClogBuffer} {last : ℕ → TxnState} {since : ℕ → List TxnState} {i p : ℕ}
  {f : ClogFrame}

def without (table : ℕ → Option ℕ) : Option ℕ → ℕ → Option ℕ
  | none => table
  | some old => update table old none

theorem Inv.mapped_iff (h : Inv s last since) (hf : s.inner.frames[i]? = some f) {q : ℕ} :
    s.inner.pageTable q = some i ↔ f.pageNo = some q := by
  rw [h.table]
  constructor
  · rintro ⟨g,hg⟩
    rw [← hg.2,Option.some.inj (hg.1.symm.trans hf)]
  · exact fun hq => ⟨f,hf,hq⟩

theorem Inv.without_iff (h : Inv s last since) (hf : s.inner.frames[i]? = some f) (q j : ℕ) :
    without s.inner.pageTable f.pageNo q = some j ↔ s.inner.pageTable q = some j ∧ j ≠ i := by
  cases hfp : f.pageNo with
  | none =>
    refine (and_iff_left_of_imp ?_).symm
    rintro hq rfl
    have hq := (h.mapped_iff hf).1 hq
    rw [hfp] at hq
    cases hq
  | some old =>
    by_cases hq : q = old
    · subst hq
      simp only [without,update_self,(h.mapped_iff hf).2 hfp,Option.some.injEq]
      constructor
      · exact nofun
      · rintro ⟨rfl,hne⟩
        exact absurd rfl hne
    · simp only [without,update_of_ne hq]
      refine (and_iff_left_of_imp ?_).symm
      rintro hj rfl
      exact hq (Option.some.inj (((h.mapped_iff hf).1 hj).symm.trans hfp))

def Inner.loaded (s : Inner) (i p : ℕ) (data : Page) (old : Option ℕ) : Inner :=
  { s.setFrame i ⟨some p,data,false,true⟩ with
    pageTable := update (without s.pageTable old) p (some i) }

theorem holds_loaded (hf : s.inner.frames[i]? = some f) {data : Page} {old : Option ℕ} {j q : ℕ}
    {g : ClogFrame} : (s.inner.loaded i p data old).Holds j q g ↔
      j = i ∧ g = ⟨some p,data,false,true⟩ ∧ p = q ∨ j ≠ i ∧ s.inner.Holds j q g := by
  refine (@holds_setFrame s.inner i j q f _ g hf).trans ?_
  simp only [Option.some.injEq]

theorem Inv.table_loaded (h : Inv s last since) (hf : s.inner.frames[i]? = some f)
    (hp : s.inner.pageTable p = none) (data : Page) (q j : ℕ) :
    (s.inner.loaded i p data f.pageNo).pageTable q = some j ↔
      ∃ g, (s.inner.loaded i p data f.pageNo).Holds j q g := by
  simp only [holds_loaded hf]
  change update (without s.inner.pageTable f.pageNo) p (some i) q = some j ↔ _
  by_cases hq : q = p
  · subst hq
    rw [update_self,Option.some.injEq]
    constructor
    · rintro rfl
      exact ⟨_,.inl ⟨rfl,rfl,rfl⟩⟩
    · rintro ⟨g,⟨rfl,-⟩ | ⟨-,hg⟩⟩
      · rfl
      · rw [(h.table q j).2 ⟨g,hg⟩] at hp
        cases hp
  · rw [update_of_ne hq,h.without_iff hf,h.table]
    constructor
    · rintro ⟨⟨g,hg⟩,hj⟩
      exact ⟨g,.inr ⟨hj,hg⟩⟩
    · rintro ⟨g,⟨-,-,he⟩ | ⟨hj,hg⟩⟩
      · exact absurd he.symm hq
      · exact ⟨⟨g,hg⟩,hj⟩

theorem Inv.uncached_loaded (h : Inv s last since) (hf : s.inner.frames[i]? = some f) {data : Page}
    {q : ℕ} (hq : (s.inner.loaded i p data f.pageNo).pageTable q = none) :
    s.inner.pageTable q = none ∨ f.pageNo = some q := by
  change update (without s.inner.pageTable f.pageNo) p (some i) q = none at hq
  have hqp : q ≠ p := by
    rintro rfl
    rw [update_self] at hq
    cases hq
  rw [update_of_ne hqp] at hq
  cases hmap : s.inner.pageTable q with
  | none => exact .inl rfl
  | some j =>
    refine .inr ((h.mapped_iff hf).1 ?_)
    by_contra hj
    rw [(h.without_iff hf q j).2 ⟨hmap,fun e => hj (e ▸ hmap)⟩] at hq
    cases hq

/-- A page is read into a frame whose own page, if it has one, is on file. -/
theorem Inv.load (h : Inv s last since) (hf : s.inner.frames[i]? = some f)
    (hp : s.inner.pageTable p = none)
    (hold : ∀ q, f.pageNo = some q → s.store.file q = f.data ∧
      ∀ w ∈ s.store.written, w.1 = q → segmentIdOfPage q ∈ s.store.unsyncedSegments) :
    Inv { s with inner := s.inner.loaded i p (s.store.file p) f.pageNo } last since where
  __ := h
  hand := h.hand.trans_eq List.length_set.symm
  table := h.table_loaded hf hp _
  cached j q g hg := by
    obtain ⟨-,rfl,rfl⟩ | ⟨-,hg⟩ := (holds_loaded hf).1 hg
    · exact h.uncached p hp
    · exact h.cached j q g hg
  clean j q g hg hclean := by
    obtain ⟨-,rfl,rfl⟩ | ⟨-,hg⟩ := (holds_loaded hf).1 hg
    · rfl
    · exact h.clean j q g hg hclean
  uncached q hq := by
    rcases h.uncached_loaded hf hq with hq | hq
    · exact h.uncached q hq
    · change Current last q (s.store.file q)
      rw [(hold q hq).1]
      exact h.cached i q f ⟨hf,hq⟩
  pending w hw := by
    obtain hs | ⟨j,g,hg,hdirty⟩ := h.pending w hw
    · exact .inl hs
    · by_cases hj : j = i
      · subst hj
        obtain rfl := Option.some.inj (hg.1.symm.trans hf)
        exact .inl ((hold w.1 hg.2).2 w hw rfl)
      · exact .inr ⟨j,g,(holds_loaded hf).2 (.inr ⟨hj,hg⟩),hdirty⟩

end Load
end Clog
end PgAm
