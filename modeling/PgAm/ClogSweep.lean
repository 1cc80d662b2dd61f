import PgAm.ClogBuffer

/-! The clock sweep changes no page: it moves the hand, clears reference bits and finds a
victim in at most two revolutions. -/
namespace PgAm
namespace Clog

def ClogFrame.core (f : ClogFrame) : Option ℕ × Page × Bool := (f.pageNo,f.data,f.dirty)

/-- The two states hold the same pages in the same frames, and both hands are on a frame. -/
structure Same (s s' : Inner) : Prop where
  table : s'.pageTable = s.pageTable
  length : s'.frames.length = s.frames.length
  frames : ∀ i : ℕ, s'.frames[i]?.map ClogFrame.core = s.frames[i]?.map ClogFrame.core
  hand : s.clockHand < s.frames.length → s'.clockHand < s'.frames.length

theorem Same.refl (s : Inner) : Same s s := ⟨rfl,rfl,fun _ => rfl,id⟩

theorem Same.trans {s s' s'' : Inner} (h : Same s s') (h' : Same s' s'') : Same s s'' :=
  ⟨h'.table.trans h.table,h'.length.trans h.length,fun i => (h'.frames i).trans (h.frames i),
    fun hs => h'.hand (h.hand hs)⟩

variable {s s' : Inner}

theorem Same.frame (h : Same s s') {i : ℕ} {f' : ClogFrame}
    (hf : s'.frames[i]? = some f') : ∃ f, s.frames[i]? = some f ∧ f'.core = f.core := by
  have hi := h.frames i
  rw [hf,Option.map_some] at hi
  obtain ⟨f,hf,he⟩ := Option.map_eq_some_iff.1 hi.symm
  exact ⟨f,hf,he.symm⟩

theorem same_setFrame {s : Inner} {i : ℕ} {f f' : ClogFrame} (hf : s.frames[i]? = some f)
    (hcore : f'.core = f.core) : Same s (s.setFrame i f') := by
  refine ⟨rfl,List.length_set,fun j => ?_,fun h => h.trans_eq List.length_set.symm⟩
  simp only [Inner.setFrame,List.getElem?_set]
  split
  next hij =>
    subst hij
    split
    · rw [hf,Option.map_some,Option.map_some,hcore]
    next hlt =>
      rw [List.getElem?_eq_none (not_lt.1 hlt)] at hf
      cases hf
  next => rfl

theorem same_moveHand (s : Inner) : Same s s.moveHand :=
  ⟨rfl,rfl,fun _ => rfl,fun h => Nat.mod_lt _ (Nat.zero_lt_of_lt h)⟩

theorem sweep_same (d : Bool) (n : ℕ) (s : Inner) : Same s (s.sweep d n).1 := by
  induction n generalizing s with
  | zero => exact .refl s
  | succ n ih =>
    have hmove := same_moveHand s
    simp only [Inner.sweep]
    split
    · exact hmove
    next f hf =>
      split
      · exact hmove
      · split
        · have hset := @same_setFrame s.moveHand _ f { f with referenced := false } hf rfl
          exact (hmove.trans hset).trans (ih _)
        · split
          · exact hmove.trans (ih _)
          · exact hmove

variable {d : Bool}

theorem sweep_some {n i : ℕ} (h : s.sweep d n = (s',some i)) : i < s'.frames.length := by
  induction n generalizing s with
  | zero => cases h
  | succ n ih =>
    have hlt : ∀ {f : ClogFrame}, s.frames[s.clockHand]? = some f → s.clockHand < s.frames.length :=
      fun hf => (List.getElem?_eq_some_iff.1 hf).1
    simp only [Inner.sweep] at h
    split at h
    · cases h
    next f hf =>
      split at h
      · cases h
        exact hlt hf
      · split at h
        · exact ih h
        · split at h
          · exact ih h
          · cases h
            exact hlt hf

/-- A revolution without a victim brings the hand `n` frames on and sets no reference bit. -/
theorem sweep_none {n : ℕ} (h : s.sweep d n = (s',none)) (hhand : s.clockHand < s.frames.length) :
    s'.clockHand = (s.clockHand + n) % s.frames.length ∧
      ∀ (i : ℕ) f, s.frames[i]? = some f → f.referenced = false →
        ∃ f', s'.frames[i]? = some f' ∧ f'.referenced = false := by
  induction n generalizing s with
  | zero =>
    cases h
    exact ⟨(Nat.mod_eq_of_lt hhand).symm,fun i f hf hr => ⟨f,hf,hr⟩⟩
  | succ n ih =>
    have hmod : ((s.clockHand + 1) % s.frames.length + n) % s.frames.length =
        (s.clockHand + (n + 1)) % s.frames.length := by
      rw [Nat.mod_add_mod,Nat.add_right_comm,Nat.add_assoc]
    have hnext := (same_moveHand s).hand hhand
    simp only [Inner.sweep] at h
    split at h
    next hf => exact absurd (List.getElem?_eq_none_iff.1 hf) (not_le.2 hhand)
    next f hf =>
      split at h
      · cases h
      · split at h
        · have hset := @same_setFrame s.moveHand _ f { f with referenced := false } hf rfl
          obtain ⟨hh,hr⟩ := ih h (hset.hand hnext)
          refine ⟨by rw [hh,hset.length]; exact hmod,fun i g hg hgr => ?_⟩
          by_cases hi : s.clockHand = i
          · refine hr i { f with referenced := false } ?_ rfl
            simp only [Inner.setFrame]
            rw [← hi]
            exact List.getElem?_set_self hhand
          · refine hr i g ?_ hgr
            simp only [Inner.setFrame]
            rw [List.getElem?_set_ne hi]
            exact hg
        · split at h
          · obtain ⟨hh,hr⟩ := ih h hnext
            exact ⟨hh.trans hmod,hr⟩
          · cases h

theorem sweep_clears {n : ℕ} (h : s.sweep d (n + 1) = (s',none))
    (hhand : s.clockHand < s.frames.length) :
    ∃ f, s'.frames[s.clockHand]? = some f ∧ f.referenced = false := by
  simp only [Inner.sweep] at h
  have hnext := (same_moveHand s).hand hhand
  split at h
  next hf => exact absurd (List.getElem?_eq_none_iff.1 hf) (not_le.2 hhand)
  next f hf =>
    split at h
    · cases h
    · split at h
      · have hset := @same_setFrame s.moveHand _ f { f with referenced := false } hf rfl
        refine (sweep_none h (hset.hand hnext)).2 _ { f with referenced := false } ?_ rfl
        exact List.getElem?_set_self hhand
      next href =>
        split at h
        · exact (sweep_none h hnext).2 _ f hf (Bool.not_eq_true _ ▸ href)
        · cases h

theorem findVictim_same (s : Inner) : Same s s.findVictim.1 := by
  have hfirst := sweep_same false s.frames.length s
  unfold Inner.findVictim
  rcases h : s.sweep false s.frames.length with ⟨s',_ | i⟩
  · rw [h] at hfirst
    exact hfirst.trans (sweep_same true _ s')
  · rw [h] at hfirst
    exact hfirst

/-- The loop ends with a frame. -/
theorem exists_findVictim {s : Inner} (hhand : s.clockHand < s.frames.length) :
    ∃ s' i f, s.findVictim = (s',some i) ∧ s'.frames[i]? = some f := by
  have hframe : ∀ {s' : Inner} {i : ℕ}, i < s'.frames.length → ∃ f, s'.frames[i]? = some f :=
    fun hi => ⟨_,List.getElem?_eq_getElem hi⟩
  have hsame := sweep_same false s.frames.length s
  unfold Inner.findVictim
  rcases h : s.sweep false s.frames.length with ⟨s',_ | i⟩
  · rw [h] at hsame
    have hh := (sweep_none h hhand).1
    rw [Nat.add_mod_right,Nat.mod_eq_of_lt hhand] at hh
    obtain ⟨n,hn⟩ := Nat.exists_eq_succ_of_ne_zero (Nat.ne_zero_of_lt hhand)
    rw [hn] at h
    obtain ⟨f,hf,hr⟩ := sweep_clears h hhand
    rw [← hh] at hf
    have hlen : s'.frames.length = n + 1 := hsame.length.trans hn
    refine ⟨s'.moveHand,s'.clockHand,f,?_,hf⟩
    simp only [hlen,Inner.sweep,hf,hr]
    split <;> simp
  · obtain ⟨f,hf⟩ := hframe (sweep_some h)
    exact ⟨s',i,f,rfl,hf⟩

end Clog
end PgAm
