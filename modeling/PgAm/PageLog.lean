import Mathlib.Tactic

/-! Page images against the log that their changes are written to. `holds` says which images a
list of records may leave of a page; an image is stamped with the number of the last record
applied to it. -/
namespace PgAm
namespace PageLog

variable {R V : Type*} {fine fine' : List R → R → Prop} {holds holds' : List R → V → Prop}
  {log rest : List R} {r : R} {v v' : V} {i m n stamp : ℕ}

/-- Every record was fine for the log in front of it. -/
def Written (fine : List R → R → Prop) (log : List R) : Prop :=
  ∀ l r, l ++ [r] <+: log → fine l r

theorem Written.take (h : Written fine log) (n : ℕ) : Written fine (log.take n) :=
  fun l r hp => h l r (hp.trans (List.take_prefix n log))

theorem Written.imp (h : Written fine log)
    (hf : ∀ l r, l ++ [r] <+: log → fine l r → fine' l r) : Written fine' log :=
  fun l r hp => hf l r hp (h l r hp)

theorem written_concat : Written fine (log ++ [r]) ↔ Written fine log ∧ fine log r := by
  refine ⟨fun h => ⟨fun l r' hp => h l r' (hp.trans (List.prefix_append ..)),
    h log r List.prefix_rfl⟩,?_⟩
  rintro ⟨h,hr⟩ l r' hp
  rcases List.prefix_concat_iff.1 hp with he | hp
  · obtain ⟨rfl,⟨⟩⟩ := List.append_inj' he rfl
    exact hr
  · exact h l r' hp

theorem take_succ (hi : log[i]? = some r) : log.take (i + 1) = log.take i ++ [r] := by
  rw [List.take_add_one,hi,Option.toList_some]

theorem Written.at (h : Written fine log) (hi : log[i]? = some r) : fine (log.take i) r :=
  h _ r (take_succ hi ▸ List.take_prefix ..)

/-- The image is as the log has it at every point from its stamp up to one at or after `i`. -/
def Fits (holds : List R → V → Prop) (log : List R) (stamp : ℕ) (v : V) (i : ℕ) : Prop :=
  ∃ k, i ≤ k ∧ k ≤ log.length ∧ stamp ≤ k ∧ ∀ j, stamp ≤ j → j ≤ k → holds (log.take j) v

theorem Fits.imp (h : Fits holds log stamp v i)
    (hv : ∀ j ≤ log.length, holds (log.take j) v → holds' (log.take j) v') :
    Fits holds' log stamp v' i := by
  obtain ⟨k,hik,hk,hs,hh⟩ := h
  exact ⟨k,hik,hk,hs,fun j hj hjk => hv j (hjk.trans hk) (hh j hj hjk)⟩

theorem Fits.stamp_le (h : Fits holds log stamp v i) : stamp ≤ log.length := by
  obtain ⟨k,-,hk,hs,-⟩ := h
  exact hs.trans hk

theorem Fits.mono (h : Fits holds log stamp v i) (hm : m ≤ i) : Fits holds log stamp v m := by
  obtain ⟨k,hik,hk⟩ := h
  exact ⟨k,hm.trans hik,hk⟩

theorem Fits.at (h : Fits holds log stamp v i) (hs : stamp ≤ i) : holds (log.take i) v := by
  obtain ⟨k,hik,-,-,hv⟩ := h
  exact hv i hs hik

theorem Fits.at_length (h : Fits holds log stamp v log.length) : holds log v := by
  have hv := h.at h.stamp_le
  rwa [List.take_length] at hv

theorem Fits.append (h : Fits holds log stamp v i) : Fits holds (log ++ rest) stamp v i := by
  obtain ⟨k,hik,hk,hs,hv⟩ := h
  refine ⟨k,hik,hk.trans (by simp),hs,fun j hj hjk => ?_⟩
  rw [List.take_append_of_le_length (hjk.trans hk)]
  exact hv j hj hjk

/-- A part of the log that reaches to the stamp still explains the image. -/
theorem Fits.take (h : Fits holds log stamp v i) (hi : i ≤ n) (hn : stamp ≤ n) :
    Fits holds (log.take n) stamp v i := by
  obtain ⟨k,hik,hk,hs,hv⟩ := h
  refine ⟨min k n,le_min hik hi,by simp [hk],le_min hs hn,fun j hj hjk => ?_⟩
  rw [List.take_take,min_eq_left (hjk.trans (min_le_right ..))]
  exact hv j hj (hjk.trans (min_le_left ..))

theorem Fits.skip (h : Fits holds log stamp v i) (hr : log[i]? = some r)
    (hs : i < stamp ∨ (holds (log.take i) v → holds (log.take i ++ [r]) v)) :
    Fits holds log stamp v (i + 1) := by
  obtain ⟨k,hik,hk,hle,hv⟩ := h
  rcases hik.eq_or_lt with rfl | hlt
  · refine ⟨i + 1,le_rfl,(List.getElem?_eq_some_iff.1 hr).1,by omega,fun j hj hjk => ?_⟩
    rcases hjk.eq_or_lt with rfl | hjk
    · rw [take_succ hr]
      exact hs.resolve_left (by omega) (hv i hle le_rfl)
    · exact hv j hj (by omega)
  · exact ⟨k,hlt,hk,hle,hv⟩

theorem fits_apply (hr : log[i]? = some r) (hs : stamp = i + 1)
    (hv : holds (log.take i ++ [r]) v) : Fits holds log stamp v (i + 1) := by
  refine ⟨i + 1,le_rfl,(List.getElem?_eq_some_iff.1 hr).1,hs.le,fun j hj hjk => ?_⟩
  rw [le_antisymm hjk (hs ▸ hj),take_succ hr]
  exact hv

theorem fits_concat (hs : stamp = log.length + 1) (hv : holds (log ++ [r]) v) :
    Fits holds (log ++ [r]) stamp v (log.length + 1) :=
  fits_apply (r := r) (by simp) hs (by simpa using hv)

theorem Fits.concat (h : Fits holds log stamp v log.length)
    (hr : holds log v → holds (log ++ [r]) v) :
    Fits holds (log ++ [r]) stamp v (log.length + 1) :=
  h.append.skip (r := r) (by simp) (.inr (by simpa using hr))

theorem getElem?_of_drop {rs : List R} (h : log.drop i = r :: rs) :
    log[i]? = some r ∧ log.drop (i + 1) = rs := by
  constructor
  · rw [← List.head?_drop,h,List.head?_cons]
  · rw [← List.tail_drop,h,List.tail_cons]

end PageLog
end PgAm
