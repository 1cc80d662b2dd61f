import PgAm.LockManager

/-! The invariant of the table lock manager. Granted modes are compatible, the head of a queue
has to wait, the queue holds exactly the requests of sleeping transactions that are not served
yet, and nobody overtakes a queued request. -/
namespace PgAm
namespace Lock

open Machine Function

structure TableInv (calls : ℕ → Option (ℕ × LockMode)) (t : ℕ) (e : LockEntry) : Prop where
  compatible : e.Compatible
  headWaits : e.HeadWaits
  queued : ∀ w ∈ e.waitQueue, calls w.xid = some (t,w.mode)
  nodup : (e.waitQueue.map Waiter.xid).Nodup
  lacks : ∀ w ∈ e.waitQueue, e.holds w.xid w.mode = false

structure Inv (s : Sys) : Prop where
  table : ∀ t, TableInv s.calls t (s.entry t)
  parked : ∀ x t m, s.calls x = some (t,m) →
    ⟨x,m⟩ ∈ (s.entry t).waitQueue ∨ (s.entry t).holds x m = true
  pruned : s.manager.Pruned

theorem TableInv.empty (calls : ℕ → Option (ℕ × LockMode)) (t : ℕ) : TableInv calls t default :=
  ⟨nofun,nofun,nofun,List.nodup_nil,nofun⟩

namespace TableInv

variable {calls calls' : ℕ → Option (ℕ × LockMode)} {t x : ℕ} {m : LockMode} {e : LockEntry}

theorem not_queued (h : TableInv calls t e) (hx : ∀ m, calls x ≠ some (t,m)) :
    ∀ w ∈ e.waitQueue, w.xid ≠ x := by
  rintro w hw rfl
  exact hx _ (h.queued w hw)

theorem of_calls (h : TableInv calls t e) (hc : ∀ w ∈ e.waitQueue, calls' w.xid = calls w.xid) :
    TableInv calls' t e :=
  { h with queued := fun w hw => (hc w hw).trans (h.queued w hw) }

theorem waitQueue_grant (h : ∀ w ∈ e.waitQueue, w.xid ≠ x) :
    (e.grant x m).waitQueue = e.waitQueue := by
  unfold LockEntry.grant
  cases hq : e.waitQueue with
  | nil => rfl
  | cons w rest => simp [h w (by simp [hq])]

theorem grant_cases (h : TableInv calls t e) (hx : ∀ c, calls x = some c → c = (t,m))
    (hc : e.canGrant x m = true) : e.grant x m = e ∧ (∀ w ∈ e.waitQueue, w.xid ≠ x) ∨
      e.waitQueue = [] := by
  rcases LockEntry.canGrant_iff.1 hc with hh | ⟨hhead,hfree⟩
  · have hout : ∀ w ∈ e.waitQueue, w.xid ≠ x := by
      rintro w hw rfl
      have hm := hx _ (h.queued w hw)
      rw [Prod.mk.injEq] at hm
      have hl := h.lacks w hw
      rw [hm.2,hh] at hl
      cases hl
    exact .inl ⟨LockEntry.ext (LockEntry.granted_grant_of_holds hh) (waitQueue_grant hout),hout⟩
  · refine .inr ?_
    cases hq : e.waitQueue with
    | nil => rfl
    | cons w rest =>
      have hw : w.xid = x := hhead w rest hq
      have hm := hx _ (hw ▸ h.queued w (by simp [hq]))
      rw [Prod.mk.injEq] at hm
      have hcon := (h.headWaits w rest hq).2
      rw [hw,hm.2] at hcon
      exact absurd hcon hfree

theorem grant (h : TableInv calls t e) (hx : ∀ c, calls x = some c → c = (t,m))
    (hc : e.canGrant x m = true) : TableInv (update calls x none) t (e.grant x m) := by
  obtain ⟨he,hout⟩ | hq := h.grant_cases hx hc
  · rw [he]
    exact h.of_calls fun w hw => update_of_ne (hout w hw) _ _
  · have hq' : (e.grant x m).waitQueue = [] := by
      rw [waitQueue_grant (by simp [hq]),hq]
    have hcomp := LockEntry.compatible_grant h.compatible hc
    rcases hg : e.grant x m with ⟨g,q⟩
    rw [hg] at hq' hcomp
    subst hq'
    exact ⟨hcomp,nofun,nofun,List.nodup_nil,nofun⟩

theorem enqueue (h : TableInv calls t e) (hx : ∀ c, calls x = some c → c = (t,m))
    (hc : e.canGrant x m = false) :
    TableInv (update calls x (some (t,m))) t (e.enqueueIfAbsent x m) := by
  unfold LockEntry.enqueueIfAbsent
  split
  next hany =>
    obtain ⟨w,hw,hwx⟩ := List.any_eq_true.1 hany
    rw [decide_eq_true_eq] at hwx
    subst hwx
    refine h.of_calls fun w' _ => ?_
    rw [← hx _ (h.queued w hw),← h.queued w hw,update_eq_self]
  next hany =>
    have hout : ∀ w ∈ e.waitQueue, w.xid ≠ x := by
      intro w hw hwx
      exact hany (List.any_eq_true.2 ⟨w,hw,decide_eq_true hwx⟩)
    have hno : ¬(e.holds x m = true ∨
        ((∀ w rest, e.waitQueue = w :: rest → w.xid = x) ∧ ¬e.Conflict x m)) := by
      rw [← LockEntry.canGrant_iff,hc]
      exact Bool.false_ne_true
    rw [not_or,Bool.not_eq_true] at hno
    refine ⟨h.compatible,?_,?_,?_,?_⟩
    · intro w rest hq
      cases hq₀ : e.waitQueue with
      | nil =>
        simp only [hq₀,List.nil_append,List.cons.injEq] at hq
        rw [← hq.1]
        refine ⟨hno.1,?_⟩
        by_contra hfree
        exact hno.2 ⟨by simp [hq₀],hfree⟩
      | cons w₀ rest₀ =>
        simp only [hq₀,List.cons_append,List.cons.injEq] at hq
        exact hq.1 ▸ h.headWaits w₀ rest₀ hq₀
    · intro w hw
      rcases List.mem_append.1 hw with hw | hw
      · rw [update_of_ne (hout w hw)]
        exact h.queued w hw
      · rw [List.mem_singleton.1 hw]
        exact update_self _ _ _
    · rw [List.map_append,List.nodup_append]
      refine ⟨h.nodup,List.nodup_singleton _,?_⟩
      intro a ha b hb
      obtain ⟨w,hw,rfl⟩ := List.mem_map.1 ha
      rw [List.map_singleton,List.mem_singleton] at hb
      exact hb ▸ hout w hw
    · intro w hw
      rcases List.mem_append.1 hw with hw | hw
      · exact h.lacks w hw
      · rw [List.mem_singleton.1 hw]
        exact hno.1

/-- What is left of the queue when one transaction leaves it and the heads are granted. -/
theorem regrants {e₁ e' : LockEntry} {served : List Waiter} (h : TableInv calls t e)
    (hr : LockEntry.Regrants e₁ e' served)
    (hq : e₁.waitQueue = e.waitQueue.filter fun w => decide (w.xid ≠ x))
    (hcomp : e₁.Compatible) (hg : ∀ y, y ≠ x → e₁.granted.lookup y = e.granted.lookup y) :
    TableInv (update calls x none) t e' := by
  have hsub : e'.waitQueue.Sublist e.waitQueue :=
    (List.sublist_append_right served _).trans (hr.queue ▸ hq ▸ List.filter_sublist)
  have hne : ∀ w ∈ e'.waitQueue, w.xid ≠ x := by
    intro w hw
    have hw₁ : w ∈ e₁.waitQueue := hr.queue ▸ List.mem_append_right _ hw
    rw [hq,List.mem_filter,decide_eq_true_eq] at hw₁
    exact hw₁.2
  have hdisj : ∀ w ∈ e'.waitQueue, ∀ w' ∈ served, w'.xid ≠ w.xid := by
    have hnd : (e₁.waitQueue.map Waiter.xid).Nodup :=
      h.nodup.sublist ((hq ▸ List.filter_sublist).map _)
    rw [hr.queue,List.map_append,List.nodup_append] at hnd
    intro w hw w' hw'
    exact hnd.2.2 _ (List.mem_map_of_mem hw') _ (List.mem_map_of_mem hw)
  refine ⟨hr.compatible hcomp,hr.headWaits,?_,h.nodup.sublist (hsub.map _),?_⟩
  · intro w hw
    rw [update_of_ne (hne w hw)]
    exact h.queued w (hsub.subset hw)
  · intro w hw
    rw [LockEntry.holds_congr ((hr.kept w.xid (hdisj w hw)).trans (hg w.xid (hne w hw)))]
    exact h.lacks w (hsub.subset hw)

theorem withdraw (h : TableInv calls t e) (x : ℕ) :
    TableInv (update calls x none) t (e.withdraw x) := by
  obtain ⟨served,hr⟩ := LockEntry.withdraw_spec e x
  exact h.regrants hr rfl h.compatible fun _ _ => rfl

theorem release (h : TableInv calls t e) (hx : calls x = none) : TableInv calls t
    (e.release x) := by
  obtain ⟨served,hr⟩ := LockEntry.release_spec e x
  have hinv := h.regrants hr rfl (LockEntry.compatible_erase h.compatible _)
    fun _ hy => AList.lookup_erase_ne hy
  rwa [← hx,update_eq_self] at hinv

end TableInv

section Parked

variable {x y t : ℕ} {m : LockMode} {e : LockEntry}

/-- The request of `y` is queued or served. -/
def LockEntry.Serves (e : LockEntry) (y : ℕ) (m : LockMode) : Prop :=
  ⟨y,m⟩ ∈ e.waitQueue ∨ e.holds y m = true

theorem LockEntry.Regrants.serves {e₁ e' : LockEntry} {served : List Waiter}
    (hr : LockEntry.Regrants e₁ e' served) (h : e₁.Serves y m) : e'.Serves y m := by
  rcases h with hq | hh
  · rw [hr.queue,List.mem_append] at hq
    rcases hq with hs | hq
    · exact .inr (hr.served _ hs)
    · exact .inl hq
  · obtain ⟨held,hy,hle⟩ := holds_iff.1 hh
    obtain ⟨held',hy',hle'⟩ := hr.grown y held hy
    exact .inr (holds_iff.2 ⟨held',hy',hle.trans hle'⟩)

theorem LockEntry.serves_withdraw (hy : y ≠ x) (h : e.Serves y m) : (e.withdraw x).Serves y m := by
  obtain ⟨served,hr⟩ := withdraw_spec e x
  exact hr.serves (h.imp_left fun hq => List.mem_filter.2 ⟨hq,decide_eq_true hy⟩)

theorem LockEntry.serves_release (hy : y ≠ x) (h : e.Serves y m) : (e.release x).Serves y m := by
  obtain ⟨served,hr⟩ := release_spec e x
  refine hr.serves (h.imp (fun hq => List.mem_filter.2 ⟨hq,decide_eq_true hy⟩) fun hh => ?_)
  rwa [holds_congr (e := e) (AList.lookup_erase_ne hy)]

theorem LockEntry.serves_grant {m' : LockMode} (hy : y ≠ x) (h : e.Serves y m) :
    (e.grant x m').Serves y m := by
  refine h.imp (fun hq => ?_) fun hh => by rwa [holds_congr (lookup_grant_ne hy)]
  simp only [grant]
  split
  next hhead =>
    cases he : e.waitQueue with
    | nil => simp [he] at hq
    | cons w rest =>
      rw [he] at hq hhead
      simp only [List.head?_cons,Option.any_some,decide_eq_true_eq] at hhead
      rcases List.mem_cons.1 hq with rfl | hq
      · exact absurd hhead hy
      · exact hq
  next => exact hq

theorem LockEntry.serves_enqueue {m' : LockMode} (h : e.Serves y m) :
    (e.enqueueIfAbsent x m').Serves y m := by
  unfold enqueueIfAbsent
  split
  · exact h
  · exact h.imp_left (List.mem_append_left _)

end Parked

theorem Inv.empty : Inv .new := ⟨fun t => .empty _ t,nofun,nofun⟩

theorem Inv.table_other {s : Sys} (h : Inv s) {x t t' : ℕ} {c : Option (ℕ × LockMode)}
    (hx : ∀ c, s.calls x = some c → c.1 = t) (ht : t' ≠ t) :
    TableInv (update s.calls x c) t' (s.entry t') := by
  have hout := (h.table t').not_queued (x := x) fun m hm => ht (hx _ hm)
  exact (h.table t').of_calls fun w hw => update_of_ne (hout w hw) _ _

theorem Inv.tables {s s' : Sys} (h : Inv s) (heff : Effect s s') (t : ℕ) :
    TableInv s'.calls t (s'.entry t) := by
  have hupdate : ∀ {x t₀ : ℕ} {c : Option (ℕ × LockMode)} {e : LockEntry},
      (∀ c, s.calls x = some c → c.1 = t₀) → TableInv (update s.calls x c) t₀ e →
      TableInv (update s.calls x c) t (update s.entry t₀ e t) := by
    intro x t₀ c e hx he
    by_cases ht : t = t₀
    · subst ht
      rwa [update_self]
    · rw [update_of_ne ht]
      exact h.table_other hx ht
  cases heff with
  | withdraw x t₀ call calls entry =>
    rw [calls,entry]
    exact hupdate call ((h.table t₀).withdraw x)
  | grant x t₀ m call calls can entry =>
    rw [calls,entry]
    exact hupdate (fun c hc => congrArg Prod.fst (call c hc)) ((h.table t₀).grant call can)
  | enqueue x t₀ m call calls can entry =>
    rw [calls,entry]
    exact hupdate (fun c hc => congrArg Prod.fst (call c hc)) ((h.table t₀).enqueue call can)
  | release x call calls entry =>
    rw [calls,entry]
    exact (h.table t).release call
  | quiet calls entry =>
    rw [calls,entry]
    exact h.table t

theorem Inv.serves {s s' : Sys} (h : Inv s) (heff : Effect s s') {y t : ℕ} {m : LockMode}
    (hy : s'.calls y = some (t,m)) : (s'.entry t).Serves y m := by
  have hupdate : ∀ {x t₀ : ℕ} {e : LockEntry}, y ≠ x →
      s.calls y = some (t,m) → ((s.entry t₀).Serves y m → e.Serves y m) →
      (update s.entry t₀ e t).Serves y m := by
    intro x t₀ e hyx hcall he
    by_cases ht : t = t₀
    · subst ht
      rw [update_self]
      exact he (h.parked y t m hcall)
    · rw [update_of_ne ht]
      exact h.parked y t m hcall
  have hnone : ∀ {x}, s'.calls = update s.calls x none →
      y ≠ x ∧ s.calls y = some (t,m) := by
    intro x hc
    by_cases hyx : y = x
    · rw [hc,hyx,update_self] at hy
      cases hy
    · rw [hc,update_of_ne hyx] at hy
      exact ⟨hyx,hy⟩
  cases heff with
  | withdraw x t₀ call calls entry =>
    obtain ⟨hyx,hcall⟩ := hnone calls
    rw [entry]
    exact hupdate hyx hcall (LockEntry.serves_withdraw hyx)
  | grant x t₀ m₀ call calls can entry =>
    obtain ⟨hyx,hcall⟩ := hnone calls
    rw [entry]
    exact hupdate hyx hcall (LockEntry.serves_grant hyx)
  | enqueue x t₀ m₀ call calls can entry =>
    rw [calls] at hy
    rw [entry]
    by_cases hyx : y = x
    · rw [hyx,update_self,Option.some.injEq,Prod.mk.injEq] at hy
      obtain ⟨rfl,rfl⟩ := hy
      rw [update_self,hyx]
      unfold LockEntry.enqueueIfAbsent
      split
      next hany =>
        obtain ⟨w,hw,hwx⟩ := List.any_eq_true.1 hany
        rw [decide_eq_true_eq] at hwx
        have hm := call _ (hwx ▸ (h.table t₀).queued w hw)
        rw [Prod.mk.injEq] at hm
        rw [← hwx,← hm.2]
        exact .inl hw
      next => exact .inl (List.mem_append_right _ (List.mem_singleton_self _))
    · rw [update_of_ne hyx] at hy
      exact hupdate hyx hy LockEntry.serves_enqueue
  | release x call calls entry =>
    rw [calls] at hy
    rw [entry]
    refine LockEntry.serves_release ?_ (h.parked y t m hy)
    rintro rfl
    rw [call] at hy
    cases hy
  | quiet calls entry =>
    rw [calls] at hy
    rw [entry]
    exact h.parked y t m hy

theorem Inv.step {s s' : Sys} {a : Step} (h : Inv s) (hs : s.step a = some s') : Inv s' :=
  ⟨h.tables (Sys.effect_step hs),fun _ _ _ => h.serves (Sys.effect_step hs),
    Sys.pruned_step h.pruned hs⟩

theorem Inv.reach {s : Sys} (h : Reach Sys.step Sys.Start anyStep s) : Inv s :=
  h.invariant (fun _ hs => hs ▸ .empty) fun _ _ _ hi _ hs => hi.step hs

end Lock
end PgAm
