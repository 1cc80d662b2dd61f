import PgAm.LockInvariant

/-! Table locks are served in order. While a request is queued, no transaction that is not ahead
of it in the queue gains a mode on the table. -/
namespace PgAm
namespace Lock

open Machine

def LockEntry.Queued (e : LockEntry) (y : ℕ) : Prop := ∃ w ∈ e.waitQueue, w.xid = y

instance (e : LockEntry) (y : ℕ) : Decidable (e.Queued y) :=
  inferInstanceAs (Decidable (∃ w ∈ e.waitQueue, w.xid = y))

/-- `y` is queued and `x` is not ahead of it. -/
def LockEntry.NotAhead (e : LockEntry) (x y : ℕ) : Prop :=
  ∃ l w r, e.waitQueue = l ++ w :: r ∧ w.xid = y ∧ ∀ w' ∈ l, w'.xid ≠ x

def LockEntry.NotGained (e e' : LockEntry) (x : ℕ) : Prop :=
  e'.granted.lookup x = e.granted.lookup x ∨ e'.granted.lookup x = none

theorem LockEntry.NotGained.holds {e e' : LockEntry} {x : ℕ} {m : LockMode} (h : e.NotGained e' x)
    (hx : e.holds x m = false) : e'.holds x m = false := by
  rcases h with h | h
  · rw [holds_congr h,hx]
  · simp [LockEntry.holds,h]

section Entry

variable {calls : ℕ → Option (ℕ × LockMode)} {x y z t : ℕ} {m : LockMode} {e : LockEntry}

theorem LockEntry.notAhead_of_not_queued (hx : ¬e.Queued x) (hy : e.Queued y) : e.NotAhead x y := by
  obtain ⟨w,hw,hwy⟩ := hy
  obtain ⟨l,r,hq⟩ := List.mem_iff_append.1 hw
  refine ⟨l,w,r,hq,hwy,fun w' hw' hwx => hx ⟨w',?_,hwx⟩⟩
  rw [hq]
  exact List.mem_append_left _ hw'

theorem LockEntry.notAhead_enqueue (h : e.NotAhead x y) : (e.enqueueIfAbsent z m).NotAhead x y := by
  unfold enqueueIfAbsent
  split
  · exact h
  · obtain ⟨l,w,r,hq,hwy,hl⟩ := h
    exact ⟨l,w,r ++ [⟨z,m⟩],by simp [hq],hwy,hl⟩

theorem LockEntry.granted_enqueue : (e.enqueueIfAbsent z m).granted = e.granted := by
  unfold enqueueIfAbsent
  split <;> rfl

theorem TableInv.served_ahead {e₁ e' : LockEntry} {served : List Waiter} (h : TableInv calls t e)
    (hr : LockEntry.Regrants e₁ e' served)
    (hq : e₁.waitQueue = e.waitQueue.filter fun w => decide (w.xid ≠ z))
    (hx : e.NotAhead x y) (hy : e'.Queued y) : e'.NotAhead x y ∧ ∀ w ∈ served, w.xid ≠ x := by
  obtain ⟨l,w,r,he,hwy,hl⟩ := hx
  obtain ⟨w',hw',hwy'⟩ := hy
  have hnd : (e₁.waitQueue.map Waiter.xid).Nodup :=
    h.nodup.sublist ((hq ▸ List.filter_sublist).map _)
  rw [hr.queue,List.map_append,List.nodup_append] at hnd
  have hwz : w.xid ≠ z := by
    have hmem : w' ∈ e₁.waitQueue := hr.queue ▸ List.mem_append_right _ hw'
    rw [hq,List.mem_filter,decide_eq_true_eq] at hmem
    exact hwy ▸ hwy' ▸ hmem.2
  have hsplit : served ++ e'.waitQueue =
      (l.filter fun w => decide (w.xid ≠ z)) ++ w :: (r.filter fun w => decide (w.xid ≠ z)) := by
    rw [← hr.queue,hq,he,List.filter_append,List.filter_cons,if_pos (decide_eq_true hwz)]
  have hws : w ∉ served := fun hs =>
    hnd.2.2 _ (List.mem_map_of_mem hs) _ (List.mem_map_of_mem hw') (hwy.trans hwy'.symm)
  obtain ⟨c,hc,hc'⟩ : ∃ c, (l.filter fun w => decide (w.xid ≠ z)) = served ++ c ∧
      e'.waitQueue = c ++ w :: (r.filter fun w => decide (w.xid ≠ z)) := by
    rcases List.append_eq_append_iff.1 hsplit with ⟨c,hc,hc'⟩ | ⟨c,hc,hc'⟩
    · exact ⟨c,hc,hc'⟩
    · cases c with
      | nil => exact ⟨[],by rw [hc]; simp,by simpa using hc'.symm⟩
      | cons w₁ c =>
        rw [List.cons_append,List.cons.injEq] at hc'
        exact absurd (by rw [hc,hc'.1]; simp) hws
  have hsub : ∀ w₁ ∈ served ++ c, w₁.xid ≠ x := fun w₁ hw₁ =>
    hl w₁ (List.mem_filter.1 (hc ▸ hw₁)).1
  exact ⟨⟨c,w,_,hc',hwy,fun w₁ hw₁ => hsub w₁ (List.mem_append_right _ hw₁)⟩,
    fun w₁ hw₁ => hsub w₁ (List.mem_append_left _ hw₁)⟩

theorem TableInv.order_withdraw (h : TableInv calls t e) (hx : e.NotAhead x y)
    (hy : (e.withdraw z).Queued y) :
    (e.withdraw z).NotAhead x y ∧ e.NotGained (e.withdraw z) x := by
  obtain ⟨served,hr⟩ := LockEntry.withdraw_spec e z
  obtain ⟨hahead,hserved⟩ := h.served_ahead hr rfl hx hy
  exact ⟨hahead,.inl (hr.kept x hserved)⟩

theorem TableInv.order_release (h : TableInv calls t e) (hx : e.NotAhead x y)
    (hy : (e.release z).Queued y) :
    (e.release z).NotAhead x y ∧ e.NotGained (e.release z) x := by
  obtain ⟨served,hr⟩ := LockEntry.release_spec e z
  obtain ⟨hahead,hserved⟩ := h.served_ahead hr rfl hx hy
  refine ⟨hahead,?_⟩
  by_cases hxz : x = z
  · subst hxz
    exact .inr ((hr.kept x hserved).trans (AList.lookup_erase x _))
  · exact .inl ((hr.kept x hserved).trans (AList.lookup_erase_ne hxz))

theorem TableInv.order_grant (h : TableInv calls t e) (hz : ∀ c, calls z = some c → c = (t,m))
    (hc : e.canGrant z m = true) (hx : e.NotAhead x y) :
    (e.grant z m).NotAhead x y ∧ e.NotGained (e.grant z m) x := by
  obtain ⟨he,-⟩ | hq := h.grant_cases hz hc
  · rw [he]
    exact ⟨hx,.inl rfl⟩
  · obtain ⟨l,w,r,he,-⟩ := hx
    simp [hq] at he

end Entry

/-- While `y` waits, a step brings nobody ahead of it and gives nothing to those behind it. -/
theorem Inv.order {s s' : Sys} (h : Inv s) (heff : Effect s s') {x y t : ℕ}
    (hx : (s.entry t).NotAhead x y) (hy : (s'.entry t).Queued y) :
    (s'.entry t).NotAhead x y ∧ (s.entry t).NotGained (s'.entry t) x := by
  have hupdate : ∀ {t₀ : ℕ} {e : LockEntry}, s'.entry = Function.update s.entry t₀ e →
      (t₀ = t → e.Queued y → e.NotAhead x y ∧ (s.entry t).NotGained e x) →
      (s'.entry t).NotAhead x y ∧ (s.entry t).NotGained (s'.entry t) x := by
    intro t₀ e hs he
    rw [hs] at hy ⊢
    by_cases ht : t = t₀
    · subst ht
      rw [Function.update_self] at hy ⊢
      exact he rfl hy
    · rw [Function.update_of_ne ht]
      exact ⟨hx,.inl rfl⟩
  cases heff with
  | withdraw z t₀ call calls entry =>
    refine hupdate entry fun ht hq => ?_
    subst ht
    exact (h.table t₀).order_withdraw hx hq
  | grant z t₀ m call calls can entry =>
    refine hupdate entry fun ht _ => ?_
    subst ht
    exact (h.table t₀).order_grant call can hx
  | enqueue z t₀ m call calls can entry =>
    refine hupdate entry fun ht _ => ?_
    subst ht
    exact ⟨LockEntry.notAhead_enqueue hx,.inl (by rw [LockEntry.granted_enqueue])⟩
  | release z call calls entry =>
    rw [entry] at hy ⊢
    exact (h.table t).order_release hx hy
  | quiet calls entry =>
    rw [entry]
    exact ⟨hx,.inl rfl⟩

def Step.Asks (a : Step) (x t : ℕ) (m : LockMode) : Prop :=
  a = .acquire x t m ∨ a = .tryAcquire x t m

instance (a : Step) (x t : ℕ) (m : LockMode) : Decidable (a.Asks x t m) :=
  inferInstanceAs (Decidable (_ ∨ _))

/-- Who asks while another transaction is queued does not get ahead of it. -/
def Sys.InOrder (s : Sys) : Prop :=
  ∀ x y t m a s₁, a.Asks x t m → y ≠ x → (s.entry t).Queued y → (s.entry t).holds x m = false →
    s.step a = some s₁ → ∀ s₂, Reach Sys.step (· = s₁) (fun u _ => (u.entry t).Queued y) s₂ →
      (s₂.entry t).Queued y → (s₂.entry t).holds x m = false

theorem calls_of_asks {s s' : Sys} {a : Step} {x t : ℕ} {m : LockMode} (ha : a.Asks x t m)
    (h : s.step a = some s') : s.calls x = none := by
  obtain rfl | rfl := ha <;>
  · rw [Sys.step,Option.ite_none_right_eq_some,Option.isNone_iff_eq_none] at h
    exact h.1

theorem Inv.inOrder {s : Sys} (h : Inv s) : s.InOrder := by
  intro x y t m a s₁ ha hne hy hx hs s₂ hrun
  have hout : ¬(s.entry t).Queued x := by
    rintro ⟨w,hw,rfl⟩
    have hcall := (h.table t).queued w hw
    rw [calls_of_asks ha hs] at hcall
    cases hcall
  have hstep : ∀ {u v : Sys} {b : Step}, Inv u → (u.entry t).NotAhead x y → u.step b = some v →
      (u.entry t).holds x m = false → Inv v ∧
        ((v.entry t).Queued y → (v.entry t).NotAhead x y ∧ (v.entry t).holds x m = false) := by
    intro u v b hu hahead hb hhold
    refine ⟨hu.step hb,fun hq => ?_⟩
    obtain ⟨hahead',hgain⟩ := hu.order (Sys.effect_step hb) hahead hq
    exact ⟨hahead',hgain.holds hhold⟩
  have hstart := hstep h (LockEntry.notAhead_of_not_queued hout hy) hs hx
  have hinv := Reach.invariant
    (I := fun u => Inv u ∧
      ((u.entry t).Queued y → (u.entry t).NotAhead x y ∧ (u.entry t).holds x m = false))
    (fun u (hu : u = s₁) => hu ▸ hstart)
    (fun u b v hu hq hb => hstep hu.1 (hu.2 hq).1 hb (hu.2 hq).2) hrun
  exact fun hq => (hinv.2 hq).2

/-- The invariant of the table lock manager, in every state of every run. -/
theorem table_locks_invariant {s : Sys} (h : Reach Sys.step Sys.Start anyStep s) :
    (∀ t x m y m', (s.entry t).granted.lookup x = some m → (s.entry t).granted.lookup y = some m' →
        x ≠ y → m.conflictsWith m' = false) ∧
      (∀ t w rest, (s.entry t).waitQueue = w :: rest →
        (s.entry t).canGrant w.xid w.mode = false ∧ (s.entry t).Conflict w.xid w.mode) ∧
      (∀ x t m, s.calls x = some (t,m) →
        ⟨x,m⟩ ∈ (s.entry t).waitQueue ∨ (s.entry t).holds x m = true) ∧
      s.InOrder ∧
      ∀ t e, s.manager.entries.lookup t = some e → ¬(e.granted = ∅ ∧ e.waitQueue = []) := by
  have hinv := Inv.reach h
  refine ⟨fun t => (hinv.table t).compatible,fun t w rest hq => ?_,hinv.parked,hinv.inOrder,?_⟩
  · have hwaits := (hinv.table t).headWaits
    exact ⟨LockEntry.headWaits_iff.1 hwaits w rest hq,(hwaits w rest hq).2⟩
  · intro t e he hempty
    have hne := hinv.pruned t e he
    rw [LockEntry.isEmpty_iff.2 hempty] at hne
    cases hne

/-- One of two readers asks for the strongest mode, and a third transaction queues behind it. -/
def upgradeSchedule : List Step :=
  [.acquire 1 7 .accessShare,.acquire 2 7 .accessShare,.acquire 1 7 .accessExclusive,
    .acquire 3 7 .accessShare]

theorem table_locks_invariant_upgrade : ∃ s : Sys, Reach Sys.step Sys.Start anyStep s ∧
    (s.entry 7).waitQueue = [⟨1,.accessExclusive⟩,⟨3,.accessShare⟩] ∧
    (s.entry 7).granted.lookup 1 = some .accessShare ∧ s.InOrder := by
  have hrun : ∃ s : Sys, Reach Sys.step Sys.Start anyStep s ∧
      decide ((s.entry 7).waitQueue = [⟨1,.accessExclusive⟩,⟨3,.accessShare⟩] ∧
        (s.entry 7).granted.lookup 1 = some .accessShare) = true :=
    @exists_reach _ _ Sys.step Sys.Start anyStep _ Sys.new rfl upgradeSchedule _
      (by decide +kernel)
  obtain ⟨s,hs,hp⟩ := hrun
  obtain ⟨hq,hg⟩ := of_decide_eq_true hp
  exact ⟨s,hs,hq,hg,(table_locks_invariant hs).2.2.2.1⟩

end Lock
end PgAm
