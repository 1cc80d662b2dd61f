import Mathlib.Tactic
import Mathlib.Data.List.Chain

/-! Versions of one object under successive writes. A write ends the version it is applied to
and creates the next one; a reader counts some of the writes. If whoever counts a write counts
the one before it, the reader is left with one version: the one that a counted write created
and no counted write ended. -/
namespace PgAm
namespace VersionChain

variable {W V : Type*}

variable {l : List W} {p : W → Bool}

/-- A predicate that keeps with each write the one before keeps a front of the list. -/
theorem filter_isPrefix (h : l.IsChain fun a b => p b = true → p a = true) : l.filter p <+: l := by
  induction l with
  | nil => exact List.nil_prefix
  | cons a l ih =>
    have hl := ih h.tail
    by_cases ha : p a = true
    · rw [List.filter_cons_of_pos ha]
      exact List.cons_prefix_cons.2 ⟨rfl,hl⟩
    · rw [List.filter_cons_of_neg ha]
      have hnil : l.filter p = [] := by
        cases l with
        | nil => rfl
        | cons b l =>
          have hb : ¬p b = true := fun hb => ha (h.rel_head? rfl hb)
          obtain ⟨r,hr⟩ := hl
          rw [List.filter_cons_of_neg hb] at hr ⊢
          cases hf : l.filter p with
          | nil => rfl
          | cons c m =>
            rw [hf] at hr
            have hc : c ∈ l.filter p := by rw [hf]; exact List.mem_cons_self
            obtain rfl : c = b := (List.cons.inj hr).1
            exact absurd (List.mem_filter.1 hc).2 hb
      rw [hnil]
      exact List.nil_prefix

variable {old new : W → Option V}

/-- Each write is applied to the version that the write before it has created. -/
structure Linked (old new : W → Option V) (l : List W) : Prop where
  head : ∀ a ∈ l.head?, old a = none
  link : l.IsChain fun a b => old b = new a ∧ new a ≠ none
  unique : l.Pairwise fun a b => new a ≠ none → new a ≠ new b

def current (new : W → Option V) (p : W → Bool) (l : List W) : Option V :=
  (l.filter p).getLast?.bind new

theorem Linked.of_isPrefix {l k : List W} (h : Linked old new l) (hk : k <+: l) :
    Linked old new k := by
  have hunique := h.unique.sublist hk.sublist
  obtain ⟨r,rfl⟩ := hk
  refine ⟨fun a ha => ?_,h.link.left_of_append,hunique⟩
  cases k with
  | nil => cases ha
  | cons b k => exact h.head a ha

theorem Linked.nil : Linked old new ([] : List W) := ⟨nofun,List.isChain_nil,List.Pairwise.nil⟩

theorem Linked.single {a : W} (h : old a = none) : Linked old new [a] :=
  ⟨fun b hb => by
    cases hb
    exact h,List.isChain_singleton a,List.pairwise_singleton _ a⟩

variable {v : V}

theorem Linked.eq_before {l₁ l₂ : List W} {b : W} (h : Linked old new (l₁ ++ b :: l₂))
    (hb : old b = some v) : ∃ k a, l₁ = k ++ [a] ∧ new a = some v := by
  rcases List.eq_nil_or_concat l₁ with rfl | ⟨k,a,rfl⟩
  · rw [h.head b rfl] at hb
    cases hb
  · rw [List.concat_eq_append] at h ⊢
    refine ⟨k,a,rfl,?_⟩
    rw [List.append_assoc] at h
    have hr := (List.isChain_append_cons_cons.1 h.link).2.1
    rw [← hr.1,hb]

theorem Linked.getLast?_eq_some_iff (h : Linked old new l) : l.getLast?.bind new = some v ↔
      ∃ a ∈ l, new a = some v ∧ ∀ b ∈ l, old b ≠ some v := by
  constructor
  · intro hv
    obtain ⟨a,ha,hav⟩ := Option.bind_eq_some_iff.1 hv
    refine ⟨a,List.mem_of_getLast? ha,hav,fun b hb hbv => ?_⟩
    obtain ⟨l₁,l₂,rfl⟩ := List.append_of_mem hb
    obtain ⟨k,c,rfl,hc⟩ := h.eq_before hbv
    have hmem : a ∈ b :: l₂ := by
      rw [List.getLast?_append_of_ne_nil _ (List.cons_ne_nil b l₂)] at ha
      exact List.mem_of_getLast? ha
    have hne := (List.pairwise_append.1 h.unique).2.2 c (by simp) a hmem
    exact hne (by rw [hc]; nofun) (hc.trans hav.symm)
  · rintro ⟨a,ha,hav,hfree⟩
    obtain ⟨l₁,l₂,rfl⟩ := List.append_of_mem ha
    cases l₂ with
    | nil =>
      rw [List.getLast?_append_of_ne_nil _ (List.cons_ne_nil a [])]
      exact hav
    | cons b l₂ =>
      have hr := (List.isChain_append_cons_cons.1 h.link).2.1
      exact absurd (hr.1.trans hav) (hfree b (by simp))

/-- What a reader finds is the version that a counted write created and no counted one ended. -/
theorem Linked.current_eq_some_iff (h : Linked old new l)
    (hp : l.IsChain fun a b => p b = true → p a = true) :
    current new p l = some v ↔
      ∃ a ∈ l, p a = true ∧ new a = some v ∧ ∀ b ∈ l, p b = true → old b ≠ some v := by
  rw [current,(h.of_isPrefix (filter_isPrefix hp)).getLast?_eq_some_iff]
  simp only [List.mem_filter]
  constructor
  · rintro ⟨a,⟨ha,hpa⟩,hav,hfree⟩
    exact ⟨a,ha,hpa,hav,fun b hb hpb => hfree b ⟨hb,hpb⟩⟩
  · rintro ⟨a,ha,hpa,hav,hfree⟩
    exact ⟨a,⟨ha,hpa⟩,hav,fun b hb => hfree b hb.1 hb.2⟩

theorem Linked.concat {b : W} (h : Linked old new l)
    (hlast : l.getLast?.bind new = some v) (hb : old b = some v)
    (hnew : ∀ a ∈ l, new a ≠ none → new a ≠ new b) : Linked old new (l ++ [b]) := by
  obtain ⟨a,ha,hav⟩ := Option.bind_eq_some_iff.1 hlast
  refine ⟨fun c hc => ?_,?_,?_⟩
  · cases l with
    | nil => cases ha
    | cons d l => exact h.head c hc
  · refine h.link.append (List.isChain_singleton b) fun c hc d hd => ?_
    rw [ha] at hc
    cases hc
    cases hd
    exact ⟨hb.trans hav.symm,by rw [hav]; nofun⟩
  · refine List.pairwise_append.2 ⟨h.unique,List.pairwise_singleton _ b,fun c hc d hd => ?_⟩
    rw [List.mem_singleton] at hd
    subst hd
    exact hnew c hc

section Roots

variable {root : V → V} {l : List W}

/-- The version under which a version is filed is its own or that of the version before. -/
def Rooted (old new : W → Option V) (root : V → V) (w : W) : Prop :=
  ∀ v, new w = some v → root v = v ∨ ∃ u, old w = some u ∧ root v = root u

theorem Linked.root_created (h : Linked old new l) (hroot : ∀ w ∈ l, Rooted old new root w)
    {w : W} {v : V} (hw : w ∈ l) (hv : new w = some v) : ∃ c ∈ l, new c = some (root v) := by
  induction l using List.reverseRecOn generalizing w v with
  | nil => cases hw
  | append_singleton k z ih =>
    have hk : Linked old new k := h.of_isPrefix (List.prefix_append k [z])
    have ih' : ∀ {w : W} {v : V}, w ∈ k → new w = some v → ∃ c ∈ k ++ [z], new c = some
      (root v) := by
      intro w v hw hv
      obtain ⟨c,hc,hcv⟩ := ih hk (fun c hc => hroot c (List.mem_append_left _ hc)) hw hv
      exact ⟨c,List.mem_append_left _ hc,hcv⟩
    rcases List.mem_append.1 hw with hw | hw
    · exact ih' hw hv
    · obtain rfl := List.mem_singleton.1 hw
      rcases hroot w (by simp) v hv with hr | ⟨u,hu,hr⟩
      · exact ⟨w,by simp,by rw [hr,hv]⟩
      · obtain ⟨k',b,rfl,hbu⟩ := h.eq_before hu
        rw [hr]
        exact ih' (by simp) hbu

theorem Linked.root_created_after {l₁ l₂ : List W} {b : W} (h : Linked old new (l₁ ++ b :: l₂))
    (hroot : ∀ w ∈ l₁ ++ b :: l₂, Rooted old new root w) (hb : ∀ v, new b = some v → root v = v)
    {w : W} {v : V} (hw : w ∈ b :: l₂) (hv : new w = some v) :
    ∃ c ∈ b :: l₂, new c = some (root v) := by
  induction l₂ using List.reverseRecOn generalizing w v with
  | nil =>
    obtain rfl := List.mem_singleton.1 hw
    exact ⟨w,List.mem_cons_self,by rw [hb v hv,hv]⟩
  | append_singleton k z ih =>
    have heq : l₁ ++ b :: (k ++ [z]) = (l₁ ++ b :: k) ++ [z] := by simp
    have hk : Linked old new (l₁ ++ b :: k) := by
      rw [heq] at h
      exact h.of_isPrefix (List.prefix_append _ _)
    have ih' : ∀ {w : W} {v : V}, w ∈ b :: k → new w = some v →
        ∃ c ∈ b :: (k ++ [z]), new c = some (root v) := by
      intro w v hw hv
      obtain ⟨c,hc,hcv⟩ := ih hk (fun c hc => hroot c
        (by rw [heq]; exact List.mem_append_left _ hc))
        hw hv
      exact ⟨c,List.mem_append_left [z] hc,hcv⟩
    rcases List.mem_append.1 (show w ∈ (b :: k) ++ [z] from hw) with hw' | hw'
    · exact ih' hw' hv
    · obtain rfl := List.mem_singleton.1 hw'
      rcases hroot w (by simp) v hv with hr | ⟨u,hu,hr⟩
      · exact ⟨w,by simp,by rw [hr,hv]⟩
      · rw [heq] at h
        obtain ⟨k',c,hkc,hcu⟩ := h.eq_before hu
        rw [hr]
        refine ih' ?_ hcu
        rcases List.eq_nil_or_concat k with rfl | ⟨m,d,rfl⟩
        · have := (List.append_inj' hkc rfl).2
          simp at this
          simp [this]
        · rw [List.concat_eq_append,← List.cons_append,← List.append_assoc] at hkc
          have := (List.append_inj' hkc rfl).2
          simp at this
          simp [this]

/-- When a write starts a new root, each version of the old one has been ended. -/
theorem Linked.ended_of_closed (h : Linked old new l) (hroot : ∀ w ∈ l, Rooted old new root w)
    {a b : W} {u v : V} (ha : a ∈ l) (hav : new a = some v) (hb : b ∈ l) (hbu : old b = some u)
    (hclose : ∀ v, new b = some v → root v = v) (hsame : root v = root u) :
    ∃ c ∈ l, old c = some v := by
  obtain ⟨l₁,l₂,rfl⟩ := List.append_of_mem hb
  rcases List.mem_append.1 ha with ha | ha
  · obtain ⟨k,m,rfl⟩ := List.append_of_mem ha
    have hnext : ∃ c m', m ++ b :: l₂ = c :: m' := by
      cases m with
      | nil => exact ⟨b,l₂,rfl⟩
      | cons c m => exact ⟨c,m ++ b :: l₂,rfl⟩
    obtain ⟨c,m',hm⟩ := hnext
    have heq : (k ++ a :: m) ++ b :: l₂ = k ++ a :: c :: m' := by
      rw [List.append_assoc,List.cons_append,hm]
    rw [heq] at h ⊢
    have hlink := (List.isChain_append_cons_cons.1 h.link).2.1
    exact ⟨c,by simp,hlink.1.trans hav⟩
  · exfalso
    obtain ⟨c,hc,hcv⟩ := h.root_created_after hroot hclose ha hav
    obtain ⟨k,d,rfl,hdu⟩ := h.eq_before hbu
    have hpre : Linked old new (k ++ [d]) := h.of_isPrefix (List.prefix_append _ _)
    obtain ⟨e,he,hev⟩ := hpre.root_created (fun w hw => hroot w (List.mem_append_left _ hw))
      (List.mem_append_right k List.mem_cons_self) hdu
    refine (List.pairwise_append.1 h.unique).2.2 e he c hc (by rw [hev]; nofun) ?_
    rw [hev,hcv,hsame]

end Roots

end VersionChain
end PgAm
