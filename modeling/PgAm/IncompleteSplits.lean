import PgAm.Machine
import PgAm.PageLog

/-! Which splits recovery takes for unfinished: redo collects the split records of the replay
window in a tracker, and the undo pass adds the pages whose flag is still set. Pages are kept to
the header fields that the handlers and the scan use; the checks of the entries (high key, page
geometry, split boundary) can only end a replay with an error. -/
namespace PgAm
namespace IncompleteSplits

open Function Machine PageLog

/-- A B-tree page; `fresh` is `pd_upper = 0`. Of the page ids `0` is `PageId::INVALID`. -/
structure Page (P : Type) where
  pdLsn : ℕ
  fresh : Bool
  splitIncomplete : Bool
  level : ℕ
  next : P
deriving DecidableEq

/-- The records that change B-tree pages. The LSN of a record is its number, from one on. -/
inductive Record (P : Type)
  | fullPageImage (page : P) (image : Page P)
  | insert (page : P) (level : ℕ) (splitIncomplete : Bool)
  | delete (page : P)
  | splitPrepare (left right : P) (level : ℕ) (leftOldNext : P)
  | splitCopy (left right : P) (copyStartSlot leftPagePreLsn : ℕ)
  | splitCommit (left right parent : P)
  | splitClr (left right : P) (level : ℕ) (parent newRoot metaPage : P)
  | checkpointBegin

structure IncompleteSplit (P : Type) where
  leftPage : P
  rightPage : P
  level : ℕ
  leftOldNext : P
  copyStartSlot : Option ℕ
  prepareLsn : ℕ

abbrev Log (P : Type) := List (Record P)

abbrev Tracker (P : Type) := P → Option (IncompleteSplit P)

variable {P : Type} [DecidableEq P]

/-- `mark_prepare`, `mark_copy` and `clear`, as the redo handlers call them. -/
def track (lsn : ℕ) (t : Tracker P) : Record P → Tracker P
  | .splitPrepare left right level oldNext =>
    update t left (some ⟨left,right,level,oldNext,none,lsn⟩)
  | .splitCopy left _ slot _ =>
    update t left ((t left).map fun e => { e with copyStartSlot := some slot })
  | .splitCommit left .. | .splitClr left .. => update t left none
  | _ => t

/-- The last Prepare of a left page, unless a Commit or a CLR of the page follows. -/
def lastSplit (log : Log P) (p : P) : Option (P × ℕ) :=
  log.foldl (fun o r => match r with
    | .splitPrepare left right level _ => if p = left then some (right,level) else o
    | .splitCommit left .. | .splitClr left .. => if p = left then none else o
    | _ => o) none

theorem track_lastSplit {l : Log P} {r : Record P} {p : P} {lsn : ℕ} {t : Tracker P}
    {e : IncompleteSplit P} (ht : ∀ p e, t p = some e →
      e.leftPage = p ∧ lastSplit l p = some (e.rightPage,e.level)) (he : track lsn t r p = some e) :
    e.leftPage = p ∧ lastSplit (l ++ [r]) p = some (e.rightPage,e.level) := by
  cases r with
  | splitPrepare left right level oldNext =>
    rcases of_update_eq he with ⟨rfl,hu⟩ | ⟨hne,hu⟩
    · cases hu
      simp [lastSplit]
    · simpa [lastSplit,hne] using ht p e hu
  | splitCopy left right slot pre =>
    rcases of_update_eq he with ⟨rfl,hu⟩ | ⟨-,hu⟩
    · obtain ⟨e',he',rfl⟩ := Option.map_eq_some_iff.1 hu
      simpa [lastSplit] using ht p e' he'
    · simpa [lastSplit] using ht p e hu
  | splitCommit left | splitClr left =>
    obtain ⟨-,⟨⟩⟩ | ⟨hne,hu⟩ := of_update_eq he
    simpa [lastSplit,hne] using ht p e hu
  | _ => simpa [lastSplit] using ht p e he

variable [Zero P]

def Page.init (level : ℕ) (splitIncomplete : Bool) : Page P := ⟨0,false,splitIncomplete,level,0⟩

def Page.initIfFresh (q : Page P) (level : ℕ) (splitIncomplete : Bool) : Page P :=
  if q.fresh = true then .init level splitIncomplete else q

def Page.applyPrepareLeft (q : Page P) (right : P) : Page P :=
  { q with splitIncomplete := true, next := right }

def Page.applyCommitLeft (q : Page P) : Page P := { q with splitIncomplete := false }

def Page.stamp (q : Page P) (lsn : ℕ) : Page P := { q with pdLsn := max lsn q.pdLsn }

/-- What a record does to one page before the page is stamped, `none` if it leaves it alone. -/
def change (lsn : ℕ) (pages : P → Page P) : Record P → P → Option (Page P → Page P)
  | .fullPageImage page image, p => if p = page then some fun _ => image else none
  | .insert page level flag, p => if p = page then some (·.initIfFresh level flag) else none
  | .delete page, p => if p = page then some fun q => q else none
  | .splitPrepare left right level oldNext, p =>
    if p = right then some fun _ => ⟨0,false,false,level,oldNext⟩
    else if p = left then some fun q => (q.initIfFresh level false).applyPrepareLeft right
    else none
  | .splitCopy left right _ _, p => if p = left ∨ p = right then some fun q => q else none
  | .splitCommit left _ parent, p =>
    if p = parent then some fun q => q else if p = left then some (·.applyCommitLeft) else none
  | .splitClr left right level parent newRoot metaPage, p =>
    if p = left then
      some fun q => { q with
        splitIncomplete := false
        next := if parent = 0 ∧ newRoot = 0 ∧ metaPage = 0 then (pages right).next else right }
    else if p = right then if (pages left).pdLsn < lsn then some fun q => q else none
    else if p = newRoot ∧ newRoot ≠ 0 then some fun _ => .init (level + 1) false
    else if p = parent ∧ newRoot = 0 ∧ parent ≠ 0 ∨ p = metaPage ∧ metaPage ≠ 0 then some fun q => q
    else none
  | .checkpointBegin, _ => none

def refuses (lsn : ℕ) (pages : P → Page P) : Record P → Bool
  | .splitCopy left right _ pre => (pages left).pdLsn != pre && decide ((pages right).pdLsn < lsn)
  | .splitCommit left _ parent => [parent,left].any fun p =>
    decide ((pages p).pdLsn < lsn) && (pages p).fresh
  | _ => false

/-- Images are restored whatever the page has, everything else under the `pd_lsn` guard. -/
def Record.unguarded : Record P → Bool
  | .fullPageImage .. => true
  | _ => false

def redo (lsn : ℕ) (r : Record P) (pages : P → Page P) : Option (P → Page P) :=
  if refuses lsn pages r = true then none
  else some fun p => match change lsn pages r p with
    | none => pages p
    | some f => if r.unguarded = true ∨ (pages p).pdLsn < lsn then (f (pages p)).stamp lsn
      else pages p

def replay : ℕ → Log P → Tracker P → (P → Page P) →
    Option (Tracker P × (P → Page P))
  | _, [], t, pages => some (t,pages)
  | i, r :: rs, t, pages =>
    (redo (i + 1) r pages).bind (replay (i + 1) rs (track (i + 1) t r))

/-- `scan_split_incomplete_pages`; the page ids are those below `next_page_id`. -/
def scan [Fintype P] (pages : P → Page P) (splits : Tracker P) : Option (Tracker P) :=
  let found p := p ≠ 0 ∧ (splits p).isNone = true ∧ (pages p).fresh = false ∧
    (pages p).splitIncomplete = true
  if ∃ p, found p ∧ (pages p).next = 0 then none
  else some fun p =>
    if found p then some ⟨p,(pages p).next,(pages p).level,0,none,0⟩ else splits p

/-- `owed` has for a left page the index of a Commit that is logged and not yet applied to it. -/
structure Sys (P : Type) where
  log : Log P
  synced : ℕ
  mem : P → Page P
  disk : P → Page P
  redoStart : ℕ
  owed : P → Option ℕ

inductive Step (P : Type)
  | create (p : P) (level : ℕ) | image (p : P) | preImage (p : P) | insert (p : P) | delete (p : P)
  | prepare (left right : P) | copy (left : P) (slot : ℕ) | commit (left parent : P)
  | applyCommit (left : P) | clr (left right parent newRoot metaPage : P)
  | sync (n : ℕ) | flush (p : P) | checkpoint | recover (n : ℕ)

/-- A record that is applied under the latches held while it is appended. -/
def Sys.logged (s : Sys P) (r : Record P) : Option (Sys P) :=
  (redo (s.log.length + 1) r s.mem).map fun mem => { s with log := s.log ++ [r], mem := mem }

/-- A page that the allocator may hand out. -/
def Sys.Spare (s : Sys P) (p : P) : Prop :=
  p ≠ 0 ∧ (s.mem p).splitIncomplete = false ∧ s.owed p = none

instance (s : Sys P) (p : P) : Decidable (s.Spare p) := inferInstanceAs (Decidable (_ ∧ _))

def Sys.replayed (s : Sys P) (n : ℕ) : Option (Tracker P × (P → Page P)) :=
  replay s.redoStart ((s.log.take n).drop s.redoStart) (fun _ => none) s.disk

/-- Only a Commit is applied to its left page after the latch was given up and taken again. The undo
pass runs alone, and a page reaches the file under the write-ahead rule. A checkpoint is taken at
its begin record: a fuzzy one leaves images of the pages that are at least as new. -/
def step [Fintype P] (s : Sys P) : Step P → Option (Sys P)
  | .create p level => if s.Spare p then s.logged (.fullPageImage p (.init level false)) else none
  | .image p => if s.owed p = none then s.logged (.fullPageImage p (s.mem p)) else none
  | .preImage p =>
    if ∀ p, s.owed p = none then some { s with log := s.log ++ [.fullPageImage p (s.mem p)] }
    else none
  | .insert p => if (s.mem p).fresh = true then none
    else s.logged (.insert p (s.mem p).level (s.mem p).splitIncomplete)
  | .delete p => if (s.mem p).fresh = true then none else s.logged (.delete p)
  | .prepare left right =>
    if left ≠ 0 ∧ (s.mem left).fresh = false ∧ (s.mem left).splitIncomplete = false ∧
        s.Spare right ∧ right ≠ left then
      s.logged (.splitPrepare left right (s.mem left).level (s.mem left).next)
    else none
  | .copy left slot =>
    if (s.mem left).splitIncomplete = true ∧ s.owed left = none ∧
        s.owed (s.mem left).next = none then
      s.logged (.splitCopy left (s.mem left).next slot (s.mem left).pdLsn)
    else none
  | .commit left parent =>
    if (s.mem left).splitIncomplete = true ∧ s.owed left = none ∧ parent ≠ left ∧
        (s.mem parent).fresh = false then
      some { s with
        log := s.log ++ [.splitCommit left (s.mem left).next parent]
        mem := update s.mem parent ((s.mem parent).stamp (s.log.length + 1))
        owed := update s.owed left (some s.log.length) }
    else none
  | .applyCommit left => (s.owed left).map fun x => { s with
      mem := update s.mem left ((s.mem left).applyCommitLeft.stamp (x + 1))
      owed := update s.owed left none }
  | .clr left right parent newRoot metaPage =>
    if (∀ p, s.owed p = none) ∧ (s.mem left).fresh = false ∧
        ((s.mem left).splitIncomplete = true → right = (s.mem left).next) ∧
        (newRoot ≠ 0 → s.Spare newRoot) then
      s.logged (.splitClr left right (s.mem left).level parent newRoot metaPage)
    else none
  | .sync n => if s.synced ≤ n ∧ n ≤ s.log.length then some { s with synced := n } else none
  | .flush p =>
    if (s.mem p).pdLsn ≤ s.synced then some { s with disk := update s.disk p (s.mem p) } else none
  | .checkpoint => some { s with
      log := s.log ++ [.checkpointBegin]
      synced := s.log.length + 1
      disk := s.mem
      redoStart := s.log.length }
  | .recover n =>
    if s.synced ≤ n then (s.replayed n).map fun r =>
      { s with log := s.log.take n, mem := r.2, owed := fun _ => none }
    else none

def start : Sys P :=
  let zero : P → Page P := fun _ => ⟨0,true,false,0,0⟩
  ⟨[],0,zero,zero,0,fun _ => none⟩

/-- No checkpoint begins and nothing is logged for the left page while its Commit is owed. -/
def Settled (s : Sys P) : Step P → Prop
  | .insert p | .delete p | .commit _ p => s.owed p = none
  | .checkpoint => ∀ p, s.owed p = none
  | _ => True

instance [Fintype P] (s : Sys P) (a : Step P) : Decidable (Settled s a) := by
  unfold Settled
  split <;> infer_instance

def layout (log : Log P) (p : P) : Bool × ℕ :=
  log.foldl (fun o r => match r with
    | .fullPageImage page image => if p = page then (image.fresh,image.level) else o
    | .splitPrepare _ right level _ => if p = right then (false,level) else o
    | .splitClr left right level _ newRoot _ =>
      if p ≠ left ∧ p ≠ right ∧ p = newRoot ∧ newRoot ≠ 0 then (false,level + 1) else o
    | _ => o) (true,0)

def view (p : P) (log : Log P) : (Bool × ℕ) × Option (P × ℕ) := (layout log p,lastSplit log p)

def Page.named (q : Page P) : Option (P × ℕ) :=
  if q.fresh = false ∧ q.splitIncomplete = true then some (q.next,q.level) else none

def Page.view (q : Page P) : (Bool × ℕ) × Option (P × ℕ) := ((q.fresh,q.level),q.named)

abbrev Upto (log : Log P) (p : P) (q : Page P) (i : ℕ) : Prop :=
  Fits (fun l v => v = view p l) log q.pdLsn q.view i

def Fine (l : Log P) : Record P → Prop
  | .fullPageImage p image => image.pdLsn ≤ l.length ∧ image.named = lastSplit l p
  | .insert p .. => (layout l p).1 = false
  | .splitPrepare left right level _ =>
    left ≠ 0 ∧ right ≠ 0 ∧ right ≠ left ∧ layout l left = (false,level) ∧ lastSplit l right = none
  | .splitCommit left _ parent => parent ≠ left
  | .splitClr _ _ _ _ newRoot _ => newRoot ≠ 0 → lastSplit l newRoot = none
  | _ => True

variable {l : Log P} {r : Record P} {p : P} {q : Page P} {pages pages' : P → Page P}
  {f : Page P → Page P} {i n lsn x : ℕ}

theorem view_idle (hc : change lsn pages r p = none) : view p (l ++ [r]) = view p l := by
  cases r <;> simp only [view,layout,lastSplit,List.foldl_append,List.foldl_cons,List.foldl_nil]
  all_goals grind [change]

theorem view_change (hf : Fine l r) (hq : r.unguarded = false → q.view = view p l)
    (hc : change lsn pages r p = some f) : (f q).view = view p (l ++ [r]) := by
  cases r <;> simp only [view,layout,lastSplit,List.foldl_append,List.foldl_cons,List.foldl_nil]
  all_goals grind [change,Fine,Record.unguarded,Page.view,Page.named,view,layout,lastSplit,
    Page.initIfFresh,Page.init,Page.applyPrepareLeft,Page.applyCommitLeft]

theorem pdLsn_change (hf : Fine l r) (hq : r.unguarded = false → q.pdLsn ≤ l.length)
    (hc : change lsn pages r p = some f) : (f q).pdLsn ≤ l.length := by
  cases r <;> grind [change,Fine,Record.unguarded,Page.initIfFresh,Page.init,
    Page.applyPrepareLeft,Page.applyCommitLeft]

/-- Replaying a record keeps the page in step with the log. -/
theorem Upto.redo (hw : Written Fine l) (hr : l[i]? = some r) (h : Upto l p (pages p) i)
    (hs : redo (i + 1) r pages = some pages') : Upto l p (pages' p) (i + 1) := by
  have hlen : (l.take i).length = i := by simp [(List.getElem?_eq_some_iff.1 hr).1.le]
  obtain ⟨-,rfl⟩ := of_unless hs
  dsimp only
  split
  · rename_i hc
    exact h.skip hr (.inr (·.trans (view_idle hc).symm))
  rename_i f hc
  split
  · rename_i hg
    have hle : r.unguarded = false → (pages p).pdLsn ≤ i := fun hu => by
      rw [hu] at hg
      exact Nat.lt_succ_iff.1 (hg.resolve_left (by simp))
    have hpd := pdLsn_change (hw.at hr) (by rwa [hlen]) hc
    rw [hlen] at hpd
    exact fits_apply hr (max_eq_left (by omega))
      (view_change (hw.at hr) (fun hu => h.at (hle hu)) hc)
  · rename_i hg
    exact h.skip hr (.inl (by omega))

/-- A complete replay: the pages and the tracker follow the log record by record. -/
theorem upto_replay {rs : Log P} {t t' : Tracker P} (hw : Written Fine l) (hl : l.drop i = rs)
    (hp : ∀ p, Upto l p (pages p) i) (ht : ∀ p e, t p = some e →
      e.leftPage = p ∧ lastSplit (l.take i) p = some (e.rightPage,e.level))
    (hs : replay i rs t pages = some (t',pages')) : (∀ p, Upto l p (pages' p) l.length) ∧
      ∀ p e, t' p = some e → e.leftPage = p ∧ lastSplit l p = some (e.rightPage,e.level) := by
  induction rs generalizing i t pages with
  | nil =>
    cases hs
    have hle := List.drop_eq_nil_iff.1 hl
    rw [List.take_of_length_le hle] at ht
    exact ⟨fun p => (hp p).mono hle,ht⟩
  | cons r rs ih =>
    obtain ⟨mid,hmid,hs⟩ := Option.bind_eq_some_iff.1 hs
    obtain ⟨hr,hl⟩ := getElem?_of_drop hl
    refine ih hl (fun p => (hp p).redo hw hr hmid) (fun p e he => ?_) hs
    rw [take_succ hr]
    exact track_lastSplit ht he

structure Owed (l : Log P) (q : Page P) (p : P) (x : ℕ) : Prop where
  record : ∃ right parent, l[x]? = some (.splitCommit p right parent)
  flagged : q.splitIncomplete = true
  upto : Upto (l.take x) p q x
  after : ∀ j, x < j → j ≤ l.length → view p (l.take j) = view p (l.take (x + 1))

theorem Owed.concat (h : Owed l q p x) (hr : view p (l ++ [r]) = view p l) :
    Owed (l ++ [r]) q p x := by
  obtain ⟨right,parent,hx⟩ := h.record
  have hlt := (List.getElem?_eq_some_iff.1 hx).1
  refine ⟨⟨right,parent,by rw [List.getElem?_append_left hlt,hx]⟩,h.flagged,?_,fun j hj hjl => ?_⟩
  · rw [List.take_append_of_le_length hlt.le]
    exact h.upto
  rw [List.take_append_of_le_length hlt]
  rcases hjl.eq_or_lt with rfl | hjl
  · rw [List.take_length,hr,← h.after l.length hlt le_rfl,List.take_length]
  · rw [List.length_append,List.length_singleton] at hjl
    rw [List.take_append_of_le_length (by omega)]
    exact h.after j hj (by omega)

theorem Owed.apply (h : Owed l q p x) (hw : Written Fine l) :
    Upto l p (q.applyCommitLeft.stamp (x + 1)) l.length := by
  obtain ⟨right,parent,hx⟩ := h.record
  have hlt := (List.getElem?_eq_some_iff.1 hx).1
  have hle := h.upto.stamp_le
  have hold := h.upto.at (hle.trans (by simp))
  rw [List.length_take] at hle
  have hpd : (q.applyCommitLeft.stamp (x + 1)).pdLsn = x + 1 :=
    max_eq_left (show q.pdLsn ≤ x + 1 by omega)
  rw [List.take_take,min_self] at hold
  refine ⟨l.length,le_rfl,le_rfl,by rw [hpd]; exact hlt,fun j hj hjl => ?_⟩
  rw [hpd] at hj
  rw [h.after j hj hjl,take_succ hx]
  have hc : change 0 (fun _ => q) (.splitCommit p right parent) p = some (·.applyCommitLeft) :=
    (if_neg (hw.at hx).symm).trans (if_pos rfl)
  exact view_change (hw.at hx) (fun _ => hold) hc

structure Inv (s : Sys P) : Prop where
  written : Written Fine s.log
  synced : s.redoStart ≤ s.synced ∧ s.synced ≤ s.log.length
  disk : ∀ p, Upto s.log p (s.disk p) s.redoStart ∧ (s.disk p).pdLsn ≤ s.synced
  mem : ∀ p, s.owed p = none → Upto s.log p (s.mem p) s.log.length
  owed : ∀ p x, s.owed p = some x → s.redoStart ≤ x ∧ Owed s.log (s.mem p) p x

variable {s s' : Sys P}

theorem Inv.lastSplit_none (h : Inv s) (hs : s.Spare p) : lastSplit s.log p = none := by
  have hv := congrArg Prod.snd (h.mem p hs.2.2).at_length
  simpa [Page.view,view,Page.named,hs.2.1] using hv.symm

theorem Inv.not_owed (h : Inv s) (hq : (s.mem p).splitIncomplete = false) : s.owed p = none := by
  by_contra hx
  obtain ⟨x,hx⟩ := Option.ne_none_iff_exists'.1 hx
  have hf := (h.owed p x hx).2.flagged
  rw [hq] at hf
  cases hf

/-- An image that still owes its Commit is as of the point before the Commit record. -/
theorem Inv.upto (h : Inv s) (p : P) : Upto s.log p (s.mem p) s.redoStart := by
  cases hq : s.owed p with
  | none => exact (h.mem p hq).mono (h.synced.1.trans h.synced.2)
  | some x =>
    obtain ⟨hle,ho⟩ := h.owed p x hq
    have hupto : Upto (s.log.take x ++ s.log.drop x) p (s.mem p) x := ho.upto.append
    rw [List.take_append_drop] at hupto
    exact hupto.mono hle

theorem Inv.concat (h : Inv s) (pages : P → Page P) (owed : P → Option ℕ) (hr : Fine s.log r)
    (hmem : ∀ p, owed p = none → Upto (s.log ++ [r]) p (pages p) (s.log.length + 1))
    (howed : ∀ p x, owed p = some x → Owed (s.log ++ [r]) (pages p) p x ∧
      (s.owed p = some x ∨ x = s.log.length)) :
    Inv { s with log := s.log ++ [r], mem := pages, owed := owed } := by
  have hsync := h.synced
  refine ⟨written_concat.2 ⟨h.written,hr⟩,⟨hsync.1,by simp; omega⟩,
    fun p => ⟨(h.disk p).1.append,(h.disk p).2⟩,
    fun p hn => by simpa using hmem p hn,fun p x hx => ?_⟩
  obtain ⟨ho,hold | rfl⟩ := howed p x hx
  · exact ⟨(h.owed p x hold).1,ho⟩
  · exact ⟨hsync.1.trans hsync.2,ho⟩

theorem Inv.logged (h : Inv s) (hs : s.logged r = some s') (hr : Fine s.log r)
    (hfree : ∀ p x, s.owed p = some x → change (s.log.length + 1) s.mem r p = none) :
    Inv s' := by
  obtain ⟨mem,hm,rfl⟩ := Option.map_eq_some_iff.1 hs
  refine h.concat _ _ hr (fun p hn => ?_) fun p x hx => ?_
  · exact Upto.redo (written_concat.2 ⟨h.written,hr⟩) (by simp) (h.mem p hn).append hm
  · have hc := hfree p x hx
    obtain ⟨-,rfl⟩ := of_unless hm
    simp only [hc]
    exact ⟨(h.owed p x hx).2.concat (view_idle hc),.inl hx⟩

theorem Inv.preImage (h : Inv s) (hfree : ∀ p, s.owed p = none) :
    Inv { s with log := s.log ++ [.fullPageImage p (s.mem p)] } := by
  have hv := (h.mem p (hfree p)).at_length
  have hfine : Fine s.log (.fullPageImage p (s.mem p)) :=
    ⟨(h.mem p (hfree p)).stamp_le,congrArg Prod.snd hv⟩
  refine h.concat s.mem s.owed hfine (fun q hq => (h.mem q hq).concat
    (·.trans (Eq.symm ?_))) fun q x hq => ?_
  · by_cases hp : q = p
    · have hc : change 0 s.mem (.fullPageImage p (s.mem p)) p = some fun _ => s.mem p := if_pos rfl
      rw [hp,← hv,view_change hfine (fun _ => hv) hc]
    · have hc : change 0 s.mem (.fullPageImage p (s.mem p)) q = none := if_neg hp
      exact view_idle hc
  · rw [hfree q] at hq
    cases hq

theorem Inv.commit {left parent right : P} (h : Inv s)
    (hflag : (s.mem left).splitIncomplete = true) (hleft : s.owed left = none)
    (hparent : s.owed parent = none) (hne : parent ≠ left) :
    Inv { s with
      log := s.log ++ [.splitCommit left right parent]
      mem := update s.mem parent ((s.mem parent).stamp (s.log.length + 1))
      owed := update s.owed left (some s.log.length) } := by
  have hidle : ∀ q, q ≠ left → view q (s.log ++ [.splitCommit left right parent]) = view q s.log :=
    fun q hq => by simp [view,layout,lastSplit,hq]
  refine h.concat _ _ hne (fun q hq => ?_) fun q x hq => ?_
  · obtain ⟨-,⟨⟩⟩ | ⟨hql,hq⟩ := of_update_eq hq
    by_cases hqp : q = parent
    · rw [hqp,update_self]
      rw [hqp] at hq hql
      have hle := (h.mem parent hq).stamp_le
      exact fits_concat (max_eq_left (by omega))
        ((h.mem parent hq).at_length.trans (hidle parent hql).symm)
    · rw [update_of_ne hqp]
      exact (h.mem q hq).concat (·.trans (hidle q hql).symm)
  · rcases of_update_eq hq with ⟨rfl,hx⟩ | ⟨hql,hq⟩
    · obtain rfl := Option.some.inj hx
      rw [update_of_ne hne.symm]
      refine ⟨⟨⟨right,parent,by simp⟩,hflag,?_,fun j hj hjl => ?_⟩,.inr rfl⟩
      · rw [List.take_left]
        exact h.mem q hleft
      · rw [le_antisymm hjl (by simpa using hj)]
        simp
    · have hqp : q ≠ parent := by
        rintro rfl
        rw [hparent] at hq
        cases hq
      rw [update_of_ne hqp]
      exact ⟨(h.owed q x hq).2.concat (hidle q hql),.inl hq⟩

theorem Inv.applyCommit {left : P} (h : Inv s) (hx : s.owed left = some x) :
    Inv { s with
      mem := update s.mem left ((s.mem left).applyCommitLeft.stamp (x + 1))
      owed := update s.owed left none } := by
  refine { h with mem := fun q hq => ?_, owed := fun q y hq => ?_ }
  · change Upto s.log q (update s.mem left _ q) _
    rcases of_update_eq hq with ⟨rfl,-⟩ | ⟨hql,hq⟩
    · rw [update_self]
      exact (h.owed q x hx).2.apply h.written
    · rw [update_of_ne hql]
      exact h.mem q hq
  · obtain ⟨-,⟨⟩⟩ | ⟨hql,hq⟩ := of_update_eq hq
    change _ ∧ Owed s.log (update s.mem left _ q) q y
    rw [update_of_ne hql]
    exact h.owed q y hq

theorem step_inv [Fintype P] {a : Step P} (h : Inv s) (hok : Settled s a)
    (hs : step s a = some s') : Inv s' := by
  have hfree : ∀ {p q x}, s.owed p = some x → s.owed q = none → p ≠ q := by
    rintro p q x hp hq rfl
    rw [hq] at hp
    cases hp
  cases a with
  | create p level =>
    obtain ⟨hp,hs⟩ := Option.ite_none_right_eq_some.1 hs
    exact h.logged hs ⟨Nat.zero_le _,(h.lastSplit_none hp).symm⟩
      fun q x hq => if_neg (hfree hq hp.2.2)
  | image p =>
    obtain ⟨hp,hs⟩ := Option.ite_none_right_eq_some.1 hs
    exact h.logged hs ⟨(h.mem p hp).stamp_le,congrArg Prod.snd (h.mem p hp).at_length⟩
      fun q x hq => if_neg (hfree hq hp)
  | preImage p =>
    obtain ⟨hp,rfl⟩ := of_guard hs
    exact h.preImage hp
  | insert p =>
    obtain ⟨hp,hs⟩ := Option.ite_none_left_eq_some.1 hs
    have hl := congrArg (·.1.1) (h.mem p hok).at_length
    exact h.logged hs (hl.symm.trans (Bool.not_eq_true _ ▸ hp)) fun q x hq => if_neg (hfree hq hok)
  | delete p =>
    obtain ⟨-,hs⟩ := Option.ite_none_left_eq_some.1 hs
    exact h.logged hs trivial fun q x hq => if_neg (hfree hq hok)
  | prepare left right =>
    obtain ⟨⟨h0,hfresh,hflag,hspare,hne⟩,hs⟩ := Option.ite_none_right_eq_some.1 hs
    have hleft := h.not_owed hflag
    have hl := congrArg Prod.fst (h.mem left hleft).at_length
    refine h.logged hs ⟨h0,hspare.1,hne,hl.symm.trans ?_,h.lastSplit_none hspare⟩ fun q x hq => ?_
    · simp [Page.view,hfresh]
    · simp [change,hfree hq hleft,hfree hq hspare.2.2]
  | copy left slot =>
    obtain ⟨⟨-,hleft,hright⟩,hs⟩ := Option.ite_none_right_eq_some.1 hs
    exact h.logged hs trivial fun q x hq => if_neg (by simp [hfree hq hleft,hfree hq hright])
  | commit left parent =>
    obtain ⟨⟨hflag,hleft,hne,-⟩,rfl⟩ := of_guard hs
    exact h.commit hflag hleft hok hne
  | applyCommit left =>
    obtain ⟨x,hx,rfl⟩ := Option.map_eq_some_iff.1 hs
    exact h.applyCommit hx
  | clr left right parent newRoot metaPage =>
    obtain ⟨⟨hnone,-,-,hroot⟩,hs⟩ := Option.ite_none_right_eq_some.1 hs
    exact h.logged hs (fun h0 => h.lastSplit_none (hroot h0))
      fun q x hq => absurd rfl (hfree hq (hnone q))
  | sync n =>
    obtain ⟨hn,rfl⟩ := of_guard hs
    exact { h with
      synced := ⟨h.synced.1.trans hn.1,hn.2⟩
      disk := fun p => ⟨(h.disk p).1,(h.disk p).2.trans hn.1⟩ }
  | flush p =>
    obtain ⟨hp,rfl⟩ := of_guard hs
    refine { h with disk := fun q => ?_ }
    change Upto s.log q (update s.disk p _ q) _ ∧ (update s.disk p _ q).pdLsn ≤ _
    by_cases hqp : q = p
    · rw [hqp,update_self]
      exact ⟨h.upto p,hp⟩
    · rw [update_of_ne hqp]
      exact h.disk q
  | checkpoint =>
    cases hs
    have hc : ∀ p, change 0 s.mem .checkpointBegin p = none := fun p => rfl
    have hnew := h.concat (r := .checkpointBegin) s.mem s.owed trivial
      (fun p hn => (h.mem p hn).concat (·.trans (view_idle (hc p)).symm))
      fun p x hx => absurd rfl (hfree hx (hok p))
    exact { hnew with
      synced := ⟨Nat.le_succ _,by simp⟩
      disk := fun p => ⟨(h.mem p (hok p)).append,(h.mem p (hok p)).stamp_le.trans (Nat.le_succ _)⟩
      owed := fun p x hx => absurd rfl (hfree hx (hok p)) }
  | recover n =>
    obtain ⟨hn,⟨t,pages⟩,hr,rfl⟩ := of_guard_map hs
    have hdisk : ∀ p, Upto (s.log.take n) p (s.disk p) s.redoStart := fun p =>
      (h.disk p).1.take (h.synced.1.trans hn) ((h.disk p).2.trans hn)
    obtain ⟨hmem,-⟩ := upto_replay (h.written.take n) rfl hdisk (by rintro _ _ ⟨⟩) hr
    exact ⟨h.written.take n,⟨h.synced.1,by simpa using ⟨hn,h.synced.2⟩⟩,
      fun p => ⟨hdisk p,(h.disk p).2⟩,fun p _ => hmem p,by rintro _ _ ⟨⟩⟩

theorem start_inv : Inv (start : Sys P) := by
  have hzero : ∀ p : P, Upto [] p ⟨0,true,false,0,0⟩ 0 := fun p =>
    ⟨0,le_rfl,le_rfl,le_rfl,fun j _ _ => by simp [Page.view,Page.named,view,layout,lastSplit]⟩
  exact ⟨fun _ _ hp => absurd (List.prefix_nil.1 hp) (by simp),⟨le_rfl,le_rfl⟩,
    fun p => ⟨hzero p,le_rfl⟩,fun p _ => hzero p,by rintro _ _ ⟨⟩⟩

theorem lastSplit_valid (hw : Written Fine l) {e : P × ℕ} (he : lastSplit l p = some e) :
    p ≠ 0 ∧ e.1 ≠ 0 := by
  induction l using List.reverseRecOn with
  | nil => cases he
  | append_singleton l r ih =>
    obtain ⟨hw,hr⟩ := written_concat.1 hw
    cases r <;> simp only [lastSplit,List.foldl_append,List.foldl_cons,List.foldl_nil] at he
    all_goals grind [Fine,lastSplit]

/-- After a replay the tracker and the flagged pages together are exactly the splits whose last
record is a Prepare or a Copy, with the right page and the level of that Prepare. -/
theorem splits_tracked_exactly [Fintype P] (h : Reach step (· = (start : Sys P)) Settled s)
    (hn : s.synced ≤ n) {t : Tracker P} (hr : s.replayed n = some (t,pages)) :
    ∃ splits, scan pages t = some splits ∧ ∀ p,
      (splits p).map (fun e => (e.leftPage,e.rightPage,e.level)) =
        (lastSplit (s.log.take n) p).map fun e => (p,e) := by
  have hi : Inv s := h.invariant (fun _ hs => hs ▸ start_inv) fun _ _ _ hi => step_inv hi
  obtain ⟨hmem,htrack⟩ := upto_replay (hi.written.take n) rfl
    (fun p => (hi.disk p).1.take (hi.synced.1.trans hn) ((hi.disk p).2.trans hn))
    (by rintro _ _ ⟨⟩) hr
  have hnamed : ∀ p, (pages p).named = lastSplit (s.log.take n) p := fun p =>
    congrArg Prod.snd (hmem p).at_length
  refine ⟨_,if_neg ?_,fun p => ?_⟩
  · rintro ⟨p,⟨-,-,hfresh,hflag⟩,hnext⟩
    exact (lastSplit_valid (hi.written.take n) ((hnamed p).symm.trans (if_pos ⟨hfresh,hflag⟩))).2
      hnext
  · dsimp only
    split
    · rename_i hfound
      rw [← hnamed,Page.named,if_pos hfound.2.2]
      rfl
    · rename_i hfound
      cases ht : t p with
      | some e =>
        obtain ⟨hleft,hlast⟩ := htrack p e ht
        rw [hlast,← hleft]
        rfl
      | none =>
        cases hl : lastSplit (s.log.take n) p with
        | none => rfl
        | some e =>
          have hq := (hnamed p).trans hl
          obtain ⟨hq,-⟩ := Option.ite_none_right_eq_some.1 hq
          exact absurd ⟨(lastSplit_valid (hi.written.take n) hl).1,by simp [ht],hq⟩ hfound

/-- Page `1` splits into `1` and `2` under the parent `3`. -/
def splitRun : List (Step (Fin 5)) :=
  [.create 1 0,.insert 1,.prepare 1 2,.copy 1 1,.create 3 1,.insert 3,.commit 1 3]

theorem splits_tracked_exactly_split : ∃ s : Sys (Fin 5), ∃ t pages splits,
    s.replayed 6 = some (t,pages) ∧ scan pages t = some splits ∧
      (splits 1).map (fun e => (e.leftPage,e.rightPage,e.level)) = some (1,2,0) := by
  have hrun : ∃ s : Sys (Fin 5), Reach step (· = start) Settled s ∧
      (decide (s.synced ≤ 6 ∧ lastSplit (s.log.take 6) 1 = some (2,0)) &&
        (s.replayed 6).isSome) = true :=
    @exists_reach _ _ step (· = start) Settled _ start rfl splitRun _ (by decide)
  obtain ⟨s,hs,hp⟩ := hrun
  obtain ⟨hn,hr⟩ := Bool.and_eq_true_iff.1 hp
  obtain ⟨hn,hl⟩ := of_decide_eq_true hn
  obtain ⟨⟨t,pages⟩,hr⟩ := Option.isSome_iff_exists.1 hr
  obtain ⟨splits,hscan,hsplits⟩ := splits_tracked_exactly hs hn hr
  exact ⟨s,t,pages,splits,hr,hscan,by rw [hsplits,hl]; rfl⟩

/-- A checkpoint between the Commit record and its application: the flag outlives the Commit. -/
theorem split_named_after_commit : ∃ s : Sys (Fin 5), Reach step (· = start) anyStep s ∧
    (decide (lastSplit s.log 1 = none) && (s.replayed s.log.length).any fun (t,pages) =>
      (scan pages t).any fun splits => (splits 1).isSome) = true :=
  @exists_reach _ _ step (· = start) anyStep _ start rfl (splitRun ++ [.checkpoint]) _ (by decide)

end IncompleteSplits
end PgAm
