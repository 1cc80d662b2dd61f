import PgAm.BtreePage

/-! Space on a page: what the live entries take, when an operation on a page succeeds, and that
a split always finds a slot at which the pending entry fits. -/
namespace PgAm
namespace Btree

namespace Page

/-- The live entries have their bytes, and no key is longer than the index takes. -/
structure Tidy (p : Page) : Prop where
  lower : p.lower ≤ p.upper
  space : (p.entries.map p.entryLen).sum + p.upper ≤ pageSize - btreeSpecialSize
  sized : ∀ e ∈ p.entries, e.key.len ≤ maxIndexKeyBytes

variable {p : Page} {e : Entry}

theorem Tidy.geometry (h : p.Tidy) : p.Geometry :=
  ⟨h.lower,(Nat.le_add_left _ _).trans h.space⟩

theorem Geometry.checkedHeader (h : p.Geometry) : p.checkedHeader = .ok () := by
  unfold Page.checkedHeader
  rw [if_pos h]

theorem cost_le (he : e.key.len ≤ maxIndexKeyBytes) : p.cost e ≤ 2712 := by
  have hmax : maxIndexKeyBytes = 2698 := by decide
  unfold cost entryLen leafTrailerSize internalTrailerSize linePointerSize
  split <;> omega

theorem sum_cost (l : List Entry) :
    (l.map p.cost).sum = (l.map p.entryLen).sum + linePointerSize * l.length := by
  induction l with
  | nil => simp
  | cons e l ih =>
    simp only [List.map_cons,List.sum_cons,ih,cost,List.length_cons]
    ring

theorem Tidy.sum_cost_le (h : p.Tidy) : (p.entries.map p.cost).sum ≤ btreePageCapacity := by
  have hs := h.space
  have hl := h.lower
  rw [sum_cost]
  simp only [Page.lower,slotCount,pageHeaderSize,linePointerSize,pageSize,btreeSpecialSize,
    btreePageCapacity] at hs hl ⊢
  omega

def inserted (p : Page) (slot : ℕ) (e : Entry) : Page :=
  { p with
    entries := p.entries.take slot ++ e :: p.entries.drop slot
    upper := p.upper - p.entryLen e }

theorem insertEntryAt_eq {slot : ℕ} (hp : p.Geometry) (hslot : slot ≤ p.slotCount)
    (hfit : p.cost e ≤ p.freeSpace) : p.insertEntryAt slot e = .ok (p.inserted slot e) := by
  have hup := hp.2
  have hlen : ¬pageSize - btreeSpecialSize - (pageHeaderSize + linePointerSize) < p.entryLen e := by
    simp only [cost,freeSpace,Page.lower,pageSize,btreeSpecialSize,pageHeaderSize,linePointerSize]
      at hfit hup ⊢
    omega
  simp only [insertEntryAt,hp.checkedHeader,bind,Except.bind,if_neg (not_lt.2 hslot),
    if_neg hlen,if_neg (not_lt.2 hfit)]
  rfl

theorem perm_inserted (slot : ℕ) : (p.inserted slot e).entries.Perm (e :: p.entries) := by
  refine List.perm_middle.trans (List.Perm.cons e ?_)
  rw [List.take_append_drop]

theorem mem_inserted {x : Entry} {slot : ℕ} :
    x ∈ (p.inserted slot e).entries ↔ x = e ∨ x ∈ p.entries := by
  rw [(perm_inserted slot).mem_iff,List.mem_cons]

theorem addTuples_eq {es : List Entry} (hg : p.Geometry)
    (hfit : (es.map p.cost).sum ≤ p.freeSpace) :
    p.addTuples es = .ok { p with
      entries := p.entries ++ es
      upper := p.upper - (es.map p.entryLen).sum } := by
  induction es generalizing p with
  | nil => simp [addTuples]
  | cons e es ih =>
    simp only [List.map_cons,List.sum_cons] at hfit
    have hup := hg.2
    have hlen : ¬pageSize - btreeSpecialSize - (pageHeaderSize + linePointerSize) <
        p.entryLen e := by
      simp only [cost,freeSpace,Page.lower,pageSize,btreeSpecialSize,pageHeaderSize,linePointerSize]
        at hfit hup ⊢
      omega
    have hfull : ¬p.freeSpace < p.cost e := by omega
    have hadd : p.addTuple e =
        .ok { p with entries := p.entries ++ [e], upper := p.upper - p.entryLen e } := by
      simp only [addTuple,hg.checkedHeader,bind,Except.bind,if_neg hlen,if_neg hfull]
    simp only [addTuples,hadd,bind,Except.bind]
    rw [ih]
    · simp only [List.append_assoc,List.singleton_append,List.map_cons,List.sum_cons,
        Nat.sub_sub]
      rfl
    · refine ⟨?_,?_⟩
      · simp only [cost,freeSpace,Page.lower,slotCount,linePointerSize,List.length_append,
          List.length_singleton] at hfit ⊢
        omega
      · exact (Nat.sub_le _ _).trans hup
    · change (es.map p.cost).sum ≤ _
      simp only [cost,freeSpace,Page.lower,slotCount,linePointerSize,List.length_append,
        List.length_singleton] at hfit ⊢
      omega

def rebuilt (p : Page) (es : List Entry) : Page :=
  { p with entries := es, upper := pageSize - btreeSpecialSize - (es.map p.entryLen).sum }

theorem Tidy.rebuilt {q : Page} {es : List Entry} (hp : p.Tidy) (hl : q.level = p.level)
    (hsub : es.Sublist p.entries) : (q.rebuilt es).Tidy := by
  have hlen : q.entryLen = p.entryLen := by
    funext e
    simp only [entryLen,hl]
  have hcap := hp.sum_cost_le
  have hle : (es.map p.cost).sum ≤ (p.entries.map p.cost).sum :=
    (hsub.map _).sum_le_sum fun _ _ => Nat.zero_le _
  have hcost := sum_cost (p := p) es
  refine ⟨?_,?_,fun x hx => hp.sized x (hsub.subset hx)⟩
  · simp only [Page.lower,slotCount,Page.rebuilt,hlen,pageHeaderSize,linePointerSize,pageSize,
      btreeSpecialSize,btreePageCapacity] at hcap hcost ⊢
    omega
  · change (es.map q.entryLen).sum + (pageSize - btreeSpecialSize - (es.map q.entryLen).sum) ≤ _
    rw [hlen]
    simp only [linePointerSize,pageHeaderSize,pageSize,btreeSpecialSize,btreePageCapacity]
      at hcap hcost ⊢
    omega

theorem freeSpace_rebuilt {q : Page} {es : List Entry} (hl : q.level = p.level) :
    (q.rebuilt es).freeSpace = btreePageCapacity - (es.map p.cost).sum := by
  have hlen : q.entryLen = p.entryLen := by
    funext e
    simp only [entryLen,hl]
  have hcost := sum_cost (p := p) es
  simp only [freeSpace,Page.lower,slotCount,Page.rebuilt,hlen,pageHeaderSize,linePointerSize,
    pageSize,btreeSpecialSize,btreePageCapacity] at hcost ⊢
  omega

end Page

theorem applySplitCopy_eq {left right : Page} {k : ℕ} (hl : left.Tidy)
    (hlevel : right.level = left.level) (hr : right.entries = [])
    (hu : right.upper = pageSize - btreeSpecialSize) (hk : k ≠ 0) (hk' : k ≤ left.slotCount) :
    applySplitCopy left right k true =
      .ok (left.rebuilt (left.entries.take k),right.rebuilt (left.entries.drop k)) := by
  have hcap := hl.sum_cost_le
  have hcost : right.cost = left.cost := by
    funext e
    simp only [Page.cost,Page.entryLen,hlevel]
  have hle : ∀ {es : List Entry}, es.Sublist left.entries →
      (es.map left.cost).sum ≤ btreePageCapacity := fun hsub =>
    ((hsub.map _).sum_le_sum fun _ _ => Nat.zero_le _).trans hcap
  have hrg : right.Geometry := by
    refine ⟨?_,hu.le⟩
    rw [Page.lower,Page.slotCount,hr,hu]
    decide
  have hright : right.addTuples (left.entries.drop k) =
      .ok (right.rebuilt (left.entries.drop k)) := by
    rw [Page.addTuples_eq hrg]
    · simp only [hr,List.nil_append,hu]
      rfl
    · rw [hcost]
      refine (hle (List.drop_sublist k _)).trans (le_of_eq ?_)
      rw [Page.freeSpace,Page.lower,Page.slotCount,hr,hu]
      rfl
  set fresh : Page := { left with entries := [], upper := pageSize - btreeSpecialSize } with hfresh
  have hfg : fresh.Geometry := by
    refine ⟨?_,le_rfl⟩
    simp only [Page.lower,Page.slotCount,hfresh]
    decide
  have hleft : fresh.addTuples (left.entries.take k) =
      .ok (left.rebuilt (left.entries.take k)) := by
    rw [Page.addTuples_eq hfg]
    · rfl
    · exact hle (List.take_sublist k _)
  have hcond : ¬(k = 0 ∨ left.slotCount < k) := by omega
  simp only [applySplitCopy,if_neg hcond,if_true,hright,bind,Except.bind,
    hl.geometry.checkedHeader]
  rw [← hfresh,hleft]

section Choice

variable {p : Page} {e : Entry} {s : ℕ}

def leftBytes (p : Page) (s : ℕ) : ℕ := ((p.entries.map p.cost).take s).sum

theorem leftBytes_succ (hs : s < p.slotCount) :
    leftBytes p (s + 1) = leftBytes p s + p.cost (p.entries.get ⟨s,hs⟩) := by
  have hlen : s < (p.entries.map p.cost).length := by simpa [Page.slotCount] using hs
  unfold leftBytes
  rw [List.sum_take_succ _ _ hlen,List.getElem_map]
  rfl

theorem leftBytes_slotCount : leftBytes p p.slotCount = (p.entries.map p.cost).sum := by
  unfold leftBytes Page.slotCount
  rw [List.take_of_length_le (by simp)]

theorem leftBytes_le (s : ℕ) : leftBytes p s ≤ (p.entries.map p.cost).sum :=
  (List.take_sublist s _).sum_le_sum fun _ _ => Nat.zero_le _

theorem splitFits_left (hp : p.Tidy) (hpos : entryLowerBound p e ≤ s)
    (h : leftBytes p s + p.cost e ≤ btreePageCapacity) : splitFits p e s = true := by
  have hcap := hp.sum_cost_le
  simp only [splitFits,hpos,if_true,decide_eq_true_eq]
  exact ⟨by omega,h⟩

theorem splitFits_right (hp : p.Tidy) (hpos : s < entryLowerBound p e)
    (h : (p.entries.map p.cost).sum - leftBytes p s + p.cost e ≤ btreePageCapacity) :
    splitFits p e s = true := by
  have hcap := hp.sum_cost_le
  have hle := leftBytes_le (p := p) s
  simp only [splitFits,not_le.2 hpos,if_false,decide_eq_true_eq]
  exact ⟨h,by unfold leftBytes at hle; omega⟩

theorem mem_splitCandidates {count : ℕ} (hs : s < count) : s ∈ splitCandidates count := by
  unfold splitCandidates
  rw [List.mem_flatMap]
  rcases Nat.le_total (count / 2) s with h | h
  · exact ⟨s - count / 2,List.mem_range.2 (by omega),by simp; omega⟩
  · exact ⟨count / 2 - s,List.mem_range.2 (by omega),by simp; omega⟩

/-- The slot at which the pending entry goes in is a split point, or the one before. -/
theorem exists_splitFits (hp : p.Tidy) (hcount : 2 ≤ p.slotCount)
    (he : e.key.len ≤ maxIndexKeyBytes) :
    ∃ s, 1 ≤ s ∧ s < p.slotCount ∧ splitFits p e s = true := by
  have hcap := hp.sum_cost_le
  have hc : p.cost e ≤ 2712 := Page.cost_le he
  have hmax : ∀ {i} (hi : i < p.slotCount), p.cost (p.entries.get ⟨i,hi⟩) ≤ 2712 :=
    fun hi => Page.cost_le (hp.sized _ (List.get_mem _ _))
  have hcapacity : btreePageCapacity = 8144 := by decide
  have hpos := Search.partitionPoint_le (· < e) p.entries
  change entryLowerBound p e ≤ p.slotCount at hpos
  set pos := entryLowerBound p e with hposdef
  rcases Nat.lt_or_ge 1 pos with h1 | h1
  · rcases Nat.lt_or_ge pos p.slotCount with h2 | h2
    · by_cases hfit : leftBytes p pos + p.cost e ≤ btreePageCapacity
      · exact ⟨pos,by omega,h2,splitFits_left hp le_rfl hfit⟩
      · refine ⟨pos - 1,by omega,by omega,splitFits_right hp (by omega) ?_⟩
        have hsucc := leftBytes_succ (p := p) (s := pos - 1) (by omega)
        have hle := hmax (i := pos - 1) (by omega)
        rw [Nat.sub_add_cancel (by omega)] at hsucc
        omega
    · refine ⟨pos - 1,by omega,by omega,splitFits_right hp (by omega) ?_⟩
      have hsucc := leftBytes_succ (p := p) (s := pos - 1) (by omega)
      have hle := hmax (i := pos - 1) (by omega)
      have htotal := leftBytes_slotCount (p := p)
      rw [show pos - 1 + 1 = p.slotCount by omega] at hsucc
      omega
  · refine ⟨1,le_rfl,by omega,splitFits_left hp h1 ?_⟩
    have hsucc := leftBytes_succ (p := p) (s := 0) (by omega)
    have hle := hmax (i := 0) (by omega)
    have hzero : leftBytes p 0 = 0 := by simp [leftBytes]
    rw [Nat.zero_add] at hsucc
    omega

theorem chooseSplitSlot_some (hp : p.Tidy) (hcount : 2 ≤ p.slotCount)
    (he : e.key.len ≤ maxIndexKeyBytes) :
    ∃ s, chooseSplitSlot p (some e) = .ok s ∧ 1 ≤ s ∧ s < p.slotCount ∧
      splitFits p e s = true := by
  simp only [chooseSplitSlot,if_neg (not_lt.2 hcount)]
  cases hf : (splitCandidates p.slotCount).find? fun s =>
      1 ≤ s ∧ s < p.slotCount ∧ splitFits p e s with
  | none =>
    obtain ⟨s,h1,h2,hfit⟩ := exists_splitFits hp hcount he
    have := List.find?_eq_none.1 hf s (mem_splitCandidates h2)
    exact absurd (decide_eq_true ⟨h1,h2,hfit⟩) this
  | some s =>
    have hs := List.find?_some hf
    exact ⟨s,rfl,of_decide_eq_true hs⟩

end Choice

/-- Insert the pending entry into the half it sorts into. -/
def insertPending (left right : Page) (rightFirst e : Entry) : Except BTreeError (Page × Page) := do
  if e < rightFirst then
    let left ← left.insertEntryAt (entryLowerBound left e) e
    return (left,right)
  else
    let right ← right.insertEntryAt (entryLowerBound right e) e
    return (left,right)

section MakesRoom

variable {p q right : Page} {e : Entry} {s : ℕ} {es : List Entry}

theorem insertEntryAt_rebuilt (hp : p.Tidy) (hl : q.level = p.level) (hsub : es.Sublist p.entries)
    (hsorted : p.entries.Pairwise (· < ·)) (hnew : e ∉ p.entries)
    (hroom : (es.map p.cost).sum + p.cost e ≤ btreePageCapacity) :
    ∃ q', (q.rebuilt es).insertEntryAt (entryLowerBound (q.rebuilt es) e) e = .ok q' ∧
      q'.entries.Pairwise (· < ·) ∧ ∀ x, x ∈ q'.entries ↔ x = e ∨ x ∈ es := by
  have hcost : (q.rebuilt es).cost e = p.cost e := by
    simp only [Page.cost,Page.entryLen,Page.rebuilt,hl]
  refine ⟨_,Page.insertEntryAt_eq (hp.rebuilt hl hsub).geometry
    (Search.partitionPoint_le _ _) ?_,?_,fun x => Page.mem_inserted⟩
  · rw [hcost,Page.freeSpace_rebuilt hl]
    omega
  · exact Search.pairwise_insert (hsorted.sublist hsub) fun h => hnew (hsub.subset h)

/-- At a slot that fits, the half on the pending entry's side takes it. -/
theorem insertPending_rebuilt (hp : p.Tidy) (hs : s < p.entries.length)
    (hsorted : p.entries.Pairwise (· < ·)) (hnew : e ∉ p.entries) (hlevel : right.level = p.level)
    (hfit : splitFits p e s = true) :
    ∃ l r, insertPending (p.rebuilt (p.entries.take s)) (right.rebuilt (p.entries.drop s))
        p.entries[s] e = .ok (l,r) ∧
      l.entries.Pairwise (· < ·) ∧ r.entries.Pairwise (· < ·) ∧
      (∀ a ∈ l.entries, ∀ b ∈ r.entries, a < b) ∧
      ∀ x, x ∈ l.entries ∨ x ∈ r.entries ↔ x = e ∨ x ∈ p.entries := by
  have hparts := hsorted
  rw [← List.take_append_drop s p.entries,List.pairwise_append] at hparts
  obtain ⟨hleft,hright,hcross⟩ := hparts
  have hdrop := List.drop_eq_getElem_cons hs
  have hmem : ∀ x, x ∈ p.entries.take s ∨ x ∈ p.entries.drop s ↔ x ∈ p.entries := fun x => by
    rw [← List.mem_append,List.take_append_drop]
  have hsum : ((p.entries.take s).map p.cost).sum + ((p.entries.drop s).map p.cost).sum =
      (p.entries.map p.cost).sum := by
    rw [← List.sum_append,← List.map_append,List.take_append_drop]
  have hside : entryLowerBound p e ≤ s ↔ e ≤ p.entries[s] := Search.lowerBound_le_iff hsorted e hs
  simp only [splitFits,decide_eq_true_eq,← List.map_take] at hfit
  by_cases hlt : e < p.entries[s]
  · simp only [hside.2 hlt.le,if_true] at hfit
    obtain ⟨l,hl,hsort,hlmem⟩ := insertEntryAt_rebuilt (q := p) hp rfl
      (List.take_sublist s _) hsorted hnew hfit.2
    refine ⟨l,_,by simp only [insertPending,if_pos hlt,hl]; rfl,hsort,hright,
      fun a ha b hb => ?_,fun x => ?_⟩
    · rcases (hlmem a).1 ha with rfl | ha
      · change b ∈ p.entries.drop s at hb
        rw [hdrop] at hb hright
        rcases List.mem_cons.1 hb with rfl | hb
        · exact hlt
        · exact hlt.trans ((List.pairwise_cons.1 hright).1 b hb)
      · exact hcross a ha b hb
    · rw [hlmem,or_assoc]
      exact or_congr_right (hmem x)
  · have hpos : ¬entryLowerBound p e ≤ s := fun h =>
      hlt ((hside.1 h).lt_of_ne fun hne => hnew (hne ▸ List.getElem_mem hs))
    simp only [hpos,if_false] at hfit
    obtain ⟨r,hr,hsort,hrmem⟩ := insertEntryAt_rebuilt (q := right) hp hlevel
      (List.drop_sublist s _) hsorted hnew (by omega)
    refine ⟨_,r,by simp only [insertPending,if_neg hlt,hr]; rfl,hleft,hsort,
      fun a ha b hb => ?_,fun x => ?_⟩
    · rcases (hrmem b).1 hb with rfl | hb
      · exact (hcross a ha _ (hdrop ▸ List.mem_cons_self)).trans_le (not_lt.1 hlt)
      · exact hcross a ha b hb
    · rw [hrmem,or_left_comm]
      exact or_congr_right (hmem x)

theorem exists_split_room (hp : p.Tidy) (hcount : 2 ≤ p.slotCount)
    (hsorted : p.entries.Pairwise (· < ·)) (hnew : e ∉ p.entries)
    (he : e.key.len ≤ maxIndexKeyBytes) (hlevel : right.level = p.level)
    (hempty : right.entries = []) (hupper : right.upper = pageSize - btreeSpecialSize) :
    ∃ s left' right' first l r, chooseSplitSlot p (some e) = .ok s ∧ 1 ≤ s ∧ s < p.slotCount ∧
      applySplitCopy p right s true = .ok (left',right') ∧ right'.entries.head? = some first ∧
      insertPending left' right' first e = .ok (l,r) ∧
      l.entries.Pairwise (· < ·) ∧ r.entries.Pairwise (· < ·) ∧
      (∀ a ∈ l.entries, ∀ b ∈ r.entries, a < b) ∧
      ∀ x, x ∈ l.entries ∨ x ∈ r.entries ↔ x = e ∨ x ∈ p.entries := by
  obtain ⟨s,hs,h1,h2,hfit⟩ := chooseSplitSlot_some hp hcount he
  obtain ⟨l,r,hins⟩ := insertPending_rebuilt hp h2 hsorted hnew hlevel hfit
  have hfirst : (right.rebuilt (p.entries.drop s)).entries.head? = some p.entries[s] := by
    simp only [Page.rebuilt,List.drop_eq_getElem_cons h2,List.head?_cons]
  exact ⟨s,_,_,_,l,r,hs,h1,h2,applySplitCopy_eq hp hlevel hempty hupper (by omega) h2.le,hfirst,
    hins⟩

def longKey (first : Fin 256) (n : ℕ) : Key :=
  ⟨List.replicate (n + 1) first,n + 1,List.length_replicate⟩

/-- A leaf with a short key and one longer than the index takes. -/
def lopsided (first : Fin 256) : Page :=
  { Page.init 0 true true with
    entries := [⟨longKey first 0,⟨1,0⟩⟩,⟨longKey first 5999,⟨1,1⟩⟩]
    upper := 8176 - 11 - 6010 }

/-- Without the bound on the keys already there, no split point need exist. -/
theorem chooseSplitSlot_lopsided :
    (lopsided 0).Geometry ∧
      ((lopsided 0).entries.map (lopsided 0).entryLen).sum + (lopsided 0).upper ≤ 8176 ∧
      (lopsided 0).entries.Pairwise (· < ·) ∧ ⟨longKey 3 2697,⟨1,2⟩⟩ ∉ (lopsided 0).entries ∧
      (longKey 3 2697).len ≤ maxIndexKeyBytes ∧
      chooseSplitSlot (lopsided 0) (some ⟨longKey 3 2697,⟨1,2⟩⟩) = .error (.pageFull 2712 0) := by
  decide +kernel

theorem exists_split_room_leaf :
    let p : Page := { Page.init 0 true true with
      entries := [⟨longKey 1 0,⟨1,0⟩⟩,⟨longKey 3 0,⟨1,1⟩⟩], upper := 8154 }
    ∃ s left' right' first l r, chooseSplitSlot p (some ⟨longKey 2 0,⟨1,2⟩⟩) = .ok s ∧ 1 ≤ s ∧
      s < p.slotCount ∧ applySplitCopy p (Page.initRightPage 4 0 0) s true = .ok (left',right') ∧
      right'.entries.head? = some first ∧
      insertPending left' right' first ⟨longKey 2 0,⟨1,2⟩⟩ = .ok (l,r) ∧
      l.entries.Pairwise (· < ·) ∧ r.entries.Pairwise (· < ·) ∧
      (∀ a ∈ l.entries, ∀ b ∈ r.entries, a < b) ∧
      ∀ x, x ∈ l.entries ∨ x ∈ r.entries ↔ x = ⟨longKey 2 0,⟨1,2⟩⟩ ∨ x ∈ p.entries :=
  exists_split_room ⟨by decide,by decide,by decide⟩ (by decide) (by decide) (by decide) (by decide)
    rfl rfl rfl

end MakesRoom

end Btree
end PgAm
