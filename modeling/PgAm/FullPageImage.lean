import PgAm.CheckpointSafe
import PgAm.PoolFlags

/-! The full-page-image rule. The records that modify a page after the begin record of a
checkpoint start with one that redo can apply to a torn page, provided that the gate of
`pin_mut` has let the page pass behind the publication of the checkpoint, at a time when the
page had an image in the data file. The gate decides on `needs_fpi`, the published position and
the stamp of the page, so what has to be shown is that the flag is set for every such page and
that the stamp names a record of the page. -/
namespace PgAm
namespace FullPageImage

open BufferPool Checkpoint Function

def touches : Rec → ℕ → Prop
  | .change targets,p => p ∈ targets.map Prod.fst
  | .fullPageImage q _,p => q = p
  | _,_ => False

def rebuilds : Rec → ℕ → Prop
  | .change targets,p => (p,true) ∈ targets
  | .fullPageImage q _,p => q = p
  | _,_ => False

instance (r : Rec) (p : ℕ) : Decidable (touches r p) :=
  match r with
  | .change targets => inferInstanceAs (Decidable (p ∈ targets.map Prod.fst))
  | .fullPageImage q _ => inferInstanceAs (Decidable (q = p))
  | .checkpointBegin | .other => .isFalse id

instance (r : Rec) (p : ℕ) : Decidable (rebuilds r p) :=
  match r with
  | .change targets => inferInstanceAs (Decidable ((p,true) ∈ targets))
  | .fullPageImage q _ => inferInstanceAs (Decidable (q = p))
  | .checkpointBegin | .other => .isFalse id

/-- An image is restored whatever the page holds; any other record is skipped by the `pd_lsn`. -/
def redoRecord (p : ℕ) (c : Image) (l : ℕ) : Rec → Image
  | .change targets =>
    if p ∈ targets.map Prod.fst ∧ c.pdLsn < l then
      ⟨l,l :: if (p,true) ∈ targets then [] else c.changes⟩
    else c
  | .fullPageImage q image => if q = p then ⟨max l image.pdLsn,image.changes⟩ else c
  | .checkpointBegin | .other => c

variable {n : ℕ} {cfg : Config n}

def redoFrom (s : Checkpoint.Sys n) (b p : ℕ) (c : Image) : ℕ → Image
  | 0 => c
  | k + 1 =>
    let c := redoFrom s b p c k
    (recordAt s (b + k)).elim c (redoRecord p c (b + k))

def redo (s : Checkpoint.Sys n) (b p : ℕ) (c : Image) : Image :=
  redoFrom s b p c (s.log.length + 1 - b)

/-- Which pages `new_page` has handed out and nobody has written or loaded since, and the position
published when the gate of `pin_mut` last let a page pass without an image. -/
structure Sys (n : ℕ) extends Checkpoint.Sys n where
  unflushed : ℕ → Bool
  gate : ℕ → ℕ

def nextUnflushed (s : Sys n) : Checkpoint.Step n → ℕ → Bool
  | .pool a => BufferPool.nextUnflushed s.pool s.unflushed a
  | _ => s.unflushed

def passGate (s : Sys n) : Pc → Pc → ℕ → ℕ
  | .fpiGate p _ _,.writing .. =>
    if s.unflushed p then s.gate else update s.gate p s.pool.checkpointLsn
  | _,_ => s.gate

def nextGate (s : Sys n) (s₁ : Checkpoint.Sys n) : Checkpoint.Step n → ℕ → ℕ
  | .pool (.run t _ _) => passGate s (s.pool.threads t) (s₁.pool.threads t)
  | _ => s.gate

def step (cfg : Config n) (s : Sys n) (a : Checkpoint.Step n) : Option (Sys n) :=
  (Checkpoint.step cfg s.toSys a).map fun s₁ => ⟨s₁,nextUnflushed s a,nextGate s s₁ a⟩

def Fresh (s : Sys n) : Prop :=
  Checkpoint.Fresh s.toSys ∧ (∀ p, s.unflushed p = false) ∧ ∀ p, s.gate p = Lsn.invalid

def TouchedAt (s : Checkpoint.Sys n) (p l : ℕ) : Prop := ∃ r ∈ recordAt s l, touches r p

def RebuiltAt (s : Checkpoint.Sys n) (p l : ℕ) : Prop := ∃ r ∈ recordAt s l, rebuilds r p

instance (s : Checkpoint.Sys n) (p l : ℕ) : Decidable (TouchedAt s p l) :=
  inferInstanceAs (Decidable (∃ r ∈ recordAt s l, _))

instance (s : Checkpoint.Sys n) (p l : ℕ) : Decidable (RebuiltAt s p l) :=
  inferInstanceAs (Decidable (∃ r ∈ recordAt s l, _))

def BeginsAt (s : Checkpoint.Sys n) (b : ℕ) : Prop := recordAt s b = some .checkpointBegin

instance (s : Checkpoint.Sys n) (b : ℕ) : Decidable (BeginsAt s b) :=
  inferInstanceAs (Decidable (_ = _))

structure FirstAfter (s : Checkpoint.Sys n) (b p l : ℕ) : Prop where
  after : b < l
  touched : TouchedAt s p l
  first : ∀ x < l, b < x → ¬TouchedAt s p x

instance (s : Checkpoint.Sys n) (b p l : ℕ) : Decidable (FirstAfter s b p l) :=
  decidable_of_iff (b < l ∧ TouchedAt s p l ∧ ∀ x < l, b < x → ¬TouchedAt s p x)
    ⟨fun h => ⟨h.1,h.2.1,h.2.2⟩,fun h => ⟨h.1,h.2,h.3⟩⟩

/-- For every begin record, the gate has let the page pass behind its publication, or a record
behind it carries the whole page. -/
def Gated (s : Sys n) (p : ℕ) : Prop :=
  ∀ b ∈ List.range (s.log.length + 1), BeginsAt s.toSys b → b ≤ s.gate p ∨
    ∃ l ∈ List.range (s.log.length + 1), b < l ∧ RebuiltAt s.toSys p l

/-- A change that does not re-initialise its page is logged behind the gate. -/
def Clean (s : Sys n) : Checkpoint.Step n → Prop
  | .pool a => BufferPool.Clean s.pool a
  | .append targets => ∀ x ∈ targets, x.2 = false →
      ∀ p ∈ guardPage (s.pool.threads x.1), Gated s p
  | _ => True

instance (s : Sys n) (p : ℕ) : Decidable (Gated s p) :=
  inferInstanceAs (Decidable (∀ b ∈ List.range _, _ → _))

instance (s : Sys n) (a : Checkpoint.Step n) : Decidable (Clean s a) :=
  match a with
  | .pool a => inferInstanceAs (Decidable (BufferPool.Clean s.pool a))
  | .append targets => inferInstanceAs (Decidable (∀ x ∈ targets, x.2 = false →
      ∀ p ∈ guardPage (s.pool.threads x.1), Gated s p))
  | .apply .. | .fpiAppend .. | .other | .begin | .publish | .examine | .flushNext | .flushed
  | .writeSuperblock | .abort => .isTrue trivial

structure Extends (s s' : Checkpoint.Sys n) : Prop where
  length : s.log.length ≤ s'.log.length
  keep : ∀ {l r}, recordAt s l = some r → recordAt s' l = some r
  old : ∀ {l r}, recordAt s' l = some r → l ≤ s.log.length → recordAt s l = some r

section Log

variable {s s' : Checkpoint.Sys n} {p l b : ℕ} {r : Rec}

theorem recordAt_le (h : recordAt s l = some r) : l ≤ s.log.length := by
  unfold recordAt at h
  split at h
  · cases h
  · have := (List.getElem?_eq_some_iff.1 h).1
    omega

theorem Extends.of_append {rs : List Rec} (hlog : s'.log = s.log ++ rs) : Extends s s' := by
  refine ⟨by rw [hlog]; simp,fun {l r} h => ?_,fun {l r} h hl => ?_⟩
  · have hl := recordAt_le h
    unfold recordAt at h ⊢
    split at h
    · cases h
    · rw [if_neg ‹_›,hlog,List.getElem?_append_left (by omega)]
      exact h
  · unfold recordAt at h ⊢
    split at h
    · cases h
    · rw [hlog,List.getElem?_append_left (by omega)] at h
      rw [if_neg ‹_›]
      exact h

theorem Extends.of_log (hlog : s'.log = s.log) : Extends s s' :=
  .of_append (hlog.trans (List.append_nil _).symm)

theorem TouchedAt.le (h : TouchedAt s p l) : l ≤ s.log.length := by
  obtain ⟨r,hr,-⟩ := h
  exact recordAt_le hr

theorem TouchedAt.extends (h : TouchedAt s p l) (he : Extends s s') : TouchedAt s' p l := by
  obtain ⟨r,hr,hp⟩ := h
  exact ⟨r,he.keep hr,hp⟩

theorem TouchedAt.old (h : TouchedAt s' p l) (he : Extends s s') (hl : l ≤ s.log.length) :
    TouchedAt s p l := by
  obtain ⟨r,hr,hp⟩ := h
  exact ⟨r,he.old hr hl,hp⟩

theorem TouchedAt.ne_begin (h : TouchedAt s p l) (hb : BeginsAt s b) : l ≠ b := by
  rintro rfl
  obtain ⟨r,hr,hp⟩ := h
  cases hb.symm.trans hr
  exact hp

theorem RebuiltAt.touched (h : RebuiltAt s p l) : TouchedAt s p l := by
  obtain ⟨r,hr,hp⟩ := h
  refine ⟨r,hr,?_⟩
  cases r with
  | change targets => exact List.mem_map.2 ⟨_,hp,rfl⟩
  | fullPageImage q c => exact hp
  | _ => cases hp

theorem isValid_of_begin {g : ℕ} (hb : BeginsAt s b) (hle : b ≤ g) : Lsn.isValid g := by
  have hb0 : b ≠ 0 := by
    rintro rfl
    cases hb
  simp [Lsn.isValid]
  omega

/-- The stamp of an image names a record of its page, or is older than all checkpoints. -/
structure Stamped (s : Checkpoint.Sys n) (p : ℕ) (c : Image) : Prop where
  le : c.pdLsn ≤ s.log.length
  source : (∀ b, BeginsAt s b → c.pdLsn < b) ∨ TouchedAt s p c.pdLsn

theorem Stamped.extends {c : Image} (h : Stamped s p c) (he : Extends s s') : Stamped s' p c := by
  refine ⟨h.le.trans he.length,h.source.imp (fun hold b hb => ?_) (·.extends he)⟩
  by_cases hbl : b ≤ s.log.length
  · exact hold b (he.old hb hbl)
  · have := h.le
    omega

theorem Stamped.zero (s : Checkpoint.Sys n) (p : ℕ) : Stamped s p imageFormat.zero :=
  ⟨Nat.zero_le _,.inl fun b hb => Nat.pos_of_ne_zero fun h0 => by
    rw [BeginsAt,recordAt,if_pos h0] at hb
    cases hb⟩

/-- A stamp at or behind a begin record comes from a record behind it. -/
theorem Stamped.touched {c : Image} (h : Stamped s p c) (hb : BeginsAt s b) (hle : b ≤ c.pdLsn) :
    ∃ l, b < l ∧ TouchedAt s p l := by
  rcases h.source with hold | ht
  · exact absurd (hold b hb) (not_lt.2 hle)
  · exact ⟨_,lt_of_le_of_ne hle (ht.ne_begin hb).symm,ht⟩

end Log

structure Inv (s : Sys n) : Prop where
  pool : BufferPool.Inv s.pool
  images : Images (Stamped s.toSys) s.pool
  flags : Flags s.unflushed s.pool
  published : Lsn.isValid s.pool.checkpointLsn → BeginsAt s.toSys s.pool.checkpointLsn
  begun : ∀ b, s.phase = .publish b → BeginsAt s.toSys b
  owed : ∀ t l, l ∈ s.unapplied t → ∃ p f, s.pool.threads t = .writing p f ∧ TouchedAt s.toSys p l
  gate : ∀ p, Lsn.isValid (s.gate p) → ∃ l, s.gate p < l ∧ TouchedAt s.toSys p l
  logged : ∀ p c l, recordAt s.toSys l = some (.fullPageImage p c) → c.pdLsn < l
  rule : ∀ b p l, BeginsAt s.toSys b → FirstAfter s.toSys b p l → RebuiltAt s.toSys p l

section Steps

variable {s s' : Sys n} {a : BufferPool.Step Image n} {q : Pool Image n}

theorem Inv.rule_extends (h : Inv s) (he : Extends s.toSys s'.toSys)
    (hnew : ∀ b p l, BeginsAt s'.toSys b → s.log.length < l → FirstAfter s'.toSys b p l →
      RebuiltAt s'.toSys p l) :
    ∀ b p l, BeginsAt s'.toSys b → FirstAfter s'.toSys b p l → RebuiltAt s'.toSys p l := by
  intro b p l hb hf
  by_cases hl : l ≤ s.log.length
  · have hbl : b ≤ s.log.length := hf.after.le.trans hl
    obtain ⟨r,hr,hp⟩ := h.rule b p l (he.old hb hbl)
      ⟨hf.after,hf.touched.old he hl,fun x hx hbx ht => hf.first x hx hbx (ht.extends he)⟩
    exact ⟨r,he.keep hr,hp⟩
  · exact hnew b p l hb (not_le.1 hl) hf

theorem Inv.rule_of_log (h : Inv s) (hlog : s'.log = s.log) :
    ∀ b p l, BeginsAt s'.toSys b → FirstAfter s'.toSys b p l → RebuiltAt s'.toSys p l :=
  h.rule_extends (.of_log hlog) fun b p l _ hl hf => by
    have := hf.touched.le
    rw [hlog] at this
    omega

variable {t : Fin n} {fault : Option StorageError}

variable {r : Shared Image × Pc}

theorem passGate_cases (pc pc' : Pc) (p : ℕ) : passGate s pc pc' p = s.gate p ∨
    passGate s pc pc' p = s.pool.checkpointLsn ∧ s.unflushed p = false ∧
      (∃ f b, pc = .fpiGate p f b) ∧ ∃ q g, pc' = .writing q g := by
  unfold passGate
  split
  · rename_i q f b pg g
    split
    · exact .inl rfl
    · rename_i hu
      by_cases hq : p = q
      · subst hq
        exact .inr ⟨update_self ..,by simpa using hu,⟨f,b,rfl⟩,pg,g,rfl⟩
      · exact .inl (update_of_ne hq ..)
  · exact .inl rfl

/-- The flag is set, so without an image the page has been touched behind the checkpoint. -/
theorem Inv.gate_passed (h : Inv s) {p f : ℕ} {needsFpi : Bool} {lsn : ℕ}
    (hpc : s.pool.threads t = .fpiGate p f needsFpi) (hu : s.unflushed p = false)
    (hr : advance imageFormat cfg.frameCount s.pool t fault lsn = some r)
    (hw : ∃ q g, r.2 = .writing q g) (hvalid : Lsn.isValid s.pool.checkpointLsn) :
    ∃ l, s.pool.checkpointLsn < l ∧ TouchedAt s.toSys p l := by
  have hset : needsFpi = true := (h.flags.checked t p f needsFpi hpc).resolve_right (by simp [hu])
  have hmap : s.pool.pageTable p = some f := h.pool.at_pc hpc
  simp only [advance,hpc,Pc.allocating,Bool.false_eq_true,if_false,advanceGuard,hset,true_and]
    at hr
  split at hr <;> cases hr
  · obtain ⟨q,g,hw⟩ := hw
    cases hw
  · rename_i hc
    exact (h.images.cached p f hmap).touched (h.published hvalid)
      (not_lt.1 fun hlt => hc ⟨hvalid,hlt⟩)

theorem Inv.gate_run (h : Inv s) {lsn : ℕ}
    (hr : advance imageFormat cfg.frameCount s.pool t fault lsn = some r) (p : ℕ)
    (hv : Lsn.isValid (passGate s (s.pool.threads t) r.2 p)) :
    ∃ l, passGate s (s.pool.threads t) r.2 p < l ∧ TouchedAt s.toSys p l := by
  rcases passGate_cases (s.pool.threads t) r.2 p with he | ⟨he,hu,⟨f,b,hpc⟩,hw⟩
  · rw [he] at hv ⊢
    exact h.gate p hv
  · rw [he] at hv ⊢
    exact h.gate_passed hpc hu hr hw hv

theorem Inv.gate_pool (h : Inv s) {s₁ : Checkpoint.Sys n}
    (hs : BufferPool.step imageFormat cfg.frameCount s.pool a = some s₁.pool) (p : ℕ)
    (hv : Lsn.isValid (nextGate s s₁ (.pool a) p)) :
    ∃ l, nextGate s s₁ (.pool a) p < l ∧ TouchedAt s.toSys p l := by
  cases a with
  | run t fault lsn =>
    obtain ⟨r,hr,hq⟩ := Option.map_eq_some_iff.1 hs
    have hpc : s₁.pool.threads t = r.2 := by rw [← hq,Pool.setThread_self]
    rw [nextGate,hpc] at hv ⊢
    exact h.gate_run hr p hv
  | _ => exact h.gate p hv

theorem Inv.still_published (h : Inv s)
    (hs : BufferPool.step imageFormat cfg.frameCount s.pool a = some q)
    (ha : ∀ lsn, a ≠ .setCheckpointLsn lsn) :
    Lsn.isValid q.checkpointLsn → BeginsAt s.toSys q.checkpointLsn := by
  rw [step_checkpointLsn hs ha]
  exact h.published

variable {owed : Fin n → List ℕ} {w : Phase} {s₁ : Checkpoint.Sys n} {gate : ℕ → ℕ}

theorem Inv.pool_step (h : Inv s) (hclean : BufferPool.Clean s.pool a)
    (hs : BufferPool.step imageFormat cfg.frameCount s.pool a = some q)
    (hlog : ∀ t lsn p f, a = .run t none lsn → s.pool.threads t ≠ .fpiAppend p f)
    (hmodify : ∀ t c p f, a = .modify t c → s.pool.threads t = .writing p f → Stamped s.toSys p c)
    (hpub : Lsn.isValid q.checkpointLsn → BeginsAt s.toSys q.checkpointLsn)
    (hbegun : ∀ b, w = .publish b → BeginsAt s.toSys b)
    (howed : ∀ t l, l ∈ owed t → l ∈ s.unapplied t)
    (hdrop : ∀ t, a = .drop t → s.unapplied t = [])
    (hgate : ∀ p, Lsn.isValid (gate p) → ∃ l, gate p < l ∧ TouchedAt s.toSys p l) :
    Inv ⟨⟨q,s.log,owed,w⟩,BufferPool.nextUnflushed s.pool s.unflushed a,gate⟩ := by
  have he : Extends s.toSys ⟨q,s.log,owed,w⟩ := .of_log rfl
  refine ⟨step_inv h.pool hclean hs,?_,h.flags.step h.pool hclean hs,hpub,hbegun,
    fun t l hl => ?_,fun p hv => ?_,h.logged,h.rule_of_log rfl⟩
  · exact (h.images.step h.pool hclean hs (Stamped.zero _) hmodify
      fun t lsn p f ha hpc => absurd hpc (hlog t lsn p f ha)).mono fun p c hc => hc.extends he
  · obtain ⟨p,f,hpc,ht⟩ := h.owed t l (howed t l hl)
    refine ⟨p,f,step_writing hs hpc fun ha => ?_,ht.extends he⟩
    have hnone := howed t l hl
    rw [hdrop t ha] at hnone
    cases hnone
  · exact (hgate p hv).imp fun l hl => ⟨hl.1,hl.2.extends he⟩

theorem Inv.log_step {r : Rec} (h : Inv s) (hbegun : ∀ b, w = .publish b →
      BeginsAt ⟨s.pool,s.log ++ [r],owed,w⟩ b)
    (howed : ∀ t l, l ∈ owed t → l ∈ s.unapplied t ∨ l = nextLsn s.toSys ∧
      ∃ p f, s.pool.threads t = .writing p f ∧ touches r p)
    (hrule : ∀ b p, BeginsAt s.toSys b → touches r p →
      rebuilds r p ∨ ∃ l, b < l ∧ TouchedAt s.toSys p l)
    (himage : ∀ p c, r = .fullPageImage p c → c.pdLsn ≤ s.log.length) :
    Inv ⟨⟨s.pool,s.log ++ [r],owed,w⟩,s.unflushed,s.gate⟩ := by
  have he : Extends s.toSys ⟨s.pool,s.log ++ [r],owed,w⟩ := .of_append rfl
  have hlast : recordAt (⟨s.pool,s.log ++ [r],owed,w⟩ : Checkpoint.Sys n) (nextLsn s.toSys) =
      some r := by
    simp [recordAt,nextLsn]
  refine ⟨h.pool,h.images.mono fun p c hc => hc.extends he,h.flags,
    fun hv => he.keep (h.published hv),hbegun,fun t l hl => ?_,
    fun p hv => (h.gate p hv).imp fun l hl => ⟨hl.1,hl.2.extends he⟩,fun p c l hc => ?_,
    h.rule_extends he fun b p l hb hl hf => ?_⟩
  · rcases howed t l hl with hl | ⟨rfl,p,f,hpc,hp⟩
    · obtain ⟨p,f,hpc,ht⟩ := h.owed t l hl
      exact ⟨p,f,hpc,ht.extends he⟩
    · exact ⟨p,f,hpc,r,hlast,hp⟩
  · rcases recordAt_append (s := s.toSys) rfl hc with hc | ⟨rfl,rfl⟩
    · exact h.logged p c l hc
    · exact Nat.lt_succ_iff.2 (himage p c rfl)
  · have hle := hf.touched.le
    simp only [List.length_append,List.length_singleton] at hle
    have hlr : l = nextLsn s.toSys := by
      unfold nextLsn
      omega
    subst hlr
    obtain ⟨x,hx,hp⟩ := hf.touched
    cases hlast.symm.trans hx
    have hbl : b ≤ s.log.length := Nat.lt_succ_iff.1 hf.after
    rcases hrule b p (he.old hb hbl) hp with hrb | ⟨l,hbl,ht⟩
    · exact ⟨r,hlast,hrb⟩
    · exact absurd (ht.extends he) (hf.first l (Nat.lt_succ_iff.2 ht.le) hbl)

/-- What the condition on a change gives: the page has been touched behind every checkpoint. -/
theorem Inv.touched_of_gated {b p : ℕ} (h : Inv s) (hg : Gated s p) (hb : BeginsAt s.toSys b) :
    ∃ l, b < l ∧ TouchedAt s.toSys p l := by
  rcases hg b (List.mem_range.2 (Nat.lt_succ_iff.2 (recordAt_le hb))) hb with hle | ⟨l,-,hl,hr⟩
  · obtain ⟨l,hgl,ht⟩ := h.gate p (isValid_of_begin hb hle)
    exact ⟨l,hle.trans_lt hgl,ht⟩
  · exact ⟨l,hl,hr.touched⟩

theorem Inv.append (h : Inv s) {targets : List (Fin n × Bool)}
    (hclean : Clean s (.append targets))
    (hguard : ∀ x ∈ targets, (guardPage (s.pool.threads x.1)).isSome) :
    Inv ⟨appendChange s.toSys targets,s.unflushed,s.gate⟩ := by
  refine h.log_step (fun b hb => ?_) (fun t l hl => ?_) (fun b p hb hp => ?_) nofun
  · exact (Extends.of_append rfl).keep (h.begun b hb)
  · split at hl
    · rename_i ht
      rcases List.mem_cons.1 hl with rfl | hl
      · obtain ⟨x,hx,rfl⟩ := List.mem_map.1 ht
        have hsome := hguard x hx
        cases hpc : s.pool.threads x.1 <;> rw [hpc] at hsome <;> try cases hsome
        rename_i p f
        refine .inr ⟨rfl,p,f,rfl,?_⟩
        refine List.mem_map.2 ⟨(p,x.2),List.mem_filterMap.2 ⟨x,hx,?_⟩,rfl⟩
        rw [hpc]
        rfl
      · exact .inl hl
    · exact .inl hl
  · obtain ⟨⟨p',init⟩,hmem,rfl⟩ := List.mem_map.1 hp
    obtain ⟨x,hx,hpage⟩ := List.mem_filterMap.1 hmem
    obtain ⟨pg,hpg,heq⟩ := Option.map_eq_some_iff.1 hpage
    cases heq
    cases hinit : x.2 with
    | true =>
      rw [hinit] at hmem
      exact .inl hmem
    | false => exact .inr (h.touched_of_gated (hclean x hx hinit _ hpg) hb)

theorem Inv.apply (h : Inv s) {l : ℕ} (hs₁ : Checkpoint.step cfg s.toSys (.apply t l) = some s₁) :
    Inv ⟨s₁,s.unflushed,s.gate⟩ := by
  simp only [Checkpoint.step] at hs₁
  split at hs₁
  case h_2 => cases hs₁
  rename_i p f hpc
  split at hs₁
  case isFalse => cases hs₁
  rename_i hmem
  obtain ⟨q,hq,rfl⟩ := Option.map_eq_some_iff.1 hs₁
  refine h.pool_step (a := .modify t ⟨l,l :: (s.pool.content f).changes⟩) trivial hq
    (by rintro _ _ _ _ ⟨⟩) (fun u c pg g ha hu => ?_) (h.still_published hq (by rintro _ ⟨⟩))
    h.begun (fun u x hx => ?_) (by rintro _ ⟨⟩) h.gate
  · cases ha
    cases hpc.symm.trans hu
    obtain ⟨p',f',hpc',ht⟩ := h.owed t l hmem
    cases hpc.symm.trans hpc'
    exact ⟨ht.le,.inr ht⟩
  · change x ∈ update s.unapplied t ((s.unapplied t).erase l) u at hx
    rcases of_mem_update hx with ⟨rfl,hx⟩ | ⟨-,hx⟩
    · exact List.mem_of_mem_erase hx
    · exact hx

theorem Inv.imageLogged (h : Inv s) {p f : ℕ} (hpc : s.pool.threads t = .fpiAppend p f)
    (hq : BufferPool.step imageFormat cfg.frameCount s.pool (.run t none (nextLsn s.toSys)) =
      some q) :
    Inv ⟨⟨q,s.log ++ [.fullPageImage p (s.pool.content f)],s.unapplied,s.phase⟩,s.unflushed,
      s.gate⟩ := by
  have hmap : s.pool.pageTable p = some f := h.pool.at_pc hpc
  set image := Rec.fullPageImage p (s.pool.content f)
  have hlogged : Inv ⟨⟨s.pool,s.log ++ [image],s.unapplied,s.phase⟩,s.unflushed,s.gate⟩ := by
    refine h.log_step (fun b hb => (Extends.of_append rfl).keep (h.begun b hb))
      (fun _ _ hl => .inl hl) (fun _ _ _ hp => .inl hp) fun _ c hc => ?_
    have hcontent : s.pool.content f = c := (Rec.fullPageImage.inj hc).2
    exact hcontent ▸ (h.images.cached p f hmap).le
  have hclean : BufferPool.Clean s.pool (.run t none (nextLsn s.toSys)) := by
    change ¬Steals s.pool t
    simp [Steals,hpc,Pc.probed]
  have ht : TouchedAt (⟨q,s.log ++ [image],s.unapplied,s.phase⟩ : Checkpoint.Sys n) p
      (nextLsn s.toSys) := ⟨image,by simp [recordAt,nextLsn],rfl⟩
  have he : Extends (⟨s.pool,s.log ++ [image],s.unapplied,s.phase⟩ : Checkpoint.Sys n)
      ⟨q,s.log ++ [image],s.unapplied,s.phase⟩ := .of_log rfl
  have hflags := hlogged.flags.step h.pool hclean hq
  simp only [BufferPool.nextUnflushed,hpc,sectionUnflushed] at hflags
  refine ⟨step_inv h.pool hclean hq,?_,hflags,hlogged.still_published hq (by rintro _ ⟨⟩),
    hlogged.begun,fun u l hl => ?_,hlogged.gate,hlogged.logged,hlogged.rule_of_log rfl⟩
  · refine (hlogged.images.mono fun p c hc => hc.extends he).step h.pool hclean hq
      (Stamped.zero _) (by rintro _ _ _ _ ⟨⟩) fun u lsn pg g ha hu => ?_
    cases ha
    cases hpc.symm.trans hu
    exact ⟨ht.le,.inr ht⟩
  · obtain ⟨pg,g,hu,hto⟩ := hlogged.owed u l hl
    exact ⟨pg,g,step_writing hq hu (by rintro ⟨⟩),hto.extends he⟩

theorem Inv.fpiAppend (h : Inv s)
    (hs₁ : Checkpoint.step cfg s.toSys (.fpiAppend t fault) = some s₁) :
    Inv ⟨s₁,s.unflushed,s.gate⟩ := by
  simp only [Checkpoint.step] at hs₁
  split at hs₁
  · obtain ⟨q,hq,rfl⟩ := Option.map_eq_some_iff.1 hs₁
    exact h.imageLogged ‹_› hq
  · rename_i p f e hpc
    split at hs₁
    · cases hs₁
    obtain ⟨q,hq,rfl⟩ := Option.map_eq_some_iff.1 hs₁
    have hclean : BufferPool.Clean s.pool (.run t (some e) 0) := by
      change ¬Steals s.pool t
      simp [Steals,hpc,Pc.probed]
    have hstep := h.pool_step hclean hq (by rintro _ _ _ _ ⟨⟩) (by rintro _ _ _ _ ⟨⟩)
      (h.still_published hq (by rintro _ ⟨⟩)) h.begun (fun _ _ hl => hl) (by rintro _ ⟨⟩) h.gate
    simpa only [BufferPool.nextUnflushed,hpc,sectionUnflushed] using hstep
  · cases hs₁

theorem Inv.next_phase (h : Inv s) (hw : ∀ b, w ≠ .publish b) :
    Inv ⟨⟨s.pool,s.log,s.unapplied,w⟩,s.unflushed,s.gate⟩ := by
  have he : Extends s.toSys ⟨s.pool,s.log,s.unapplied,w⟩ := .of_log rfl
  exact ⟨h.pool,h.images.mono fun p c hc => hc.extends he,h.flags,h.published,
    fun b hb => absurd hb (hw b),h.owed,
    fun p hv => (h.gate p hv).imp fun l hl => ⟨hl.1,hl.2.extends he⟩,h.logged,h.rule_of_log rfl⟩

theorem flushedPhase_ne_publish (b : ℕ) (todo : List ℕ) (err : Option StorageError) (x : ℕ) :
    flushedPhase b todo err ≠ .publish x := by
  unfold flushedPhase
  split
  · nofun
  · split <;> nofun

theorem step_inv {a : Checkpoint.Step n} (h : Inv s) (hclean : Clean s a)
    (hs : step cfg s a = some s') : Inv s' := by
  obtain ⟨s₁,hs₁,rfl⟩ := Option.map_eq_some_iff.1 hs
  cases a with
  | apply t l => exact h.apply hs₁
  | fpiAppend t fault => exact h.fpiAppend hs₁
  | pool a =>
    obtain ⟨hord,hs₁⟩ := Option.ite_none_right_eq_some.1 hs₁
    obtain ⟨q,hq,rfl⟩ := Option.map_eq_some_iff.1 hs₁
    refine h.pool_step hclean hq (fun t lsn p f ha hpc => ?_) (fun t c p f ha => ?_)
      (h.still_published hq fun lsn ha => ?_) h.begun (fun _ _ hl => hl) (fun t ha => ?_)
      (h.gate_pool hq)
    all_goals subst ha
    · simp [ordinary,hpc,atFpiAppend] at hord
    · cases hord
    · cases hord
    · simpa [ordinary] using hord
  | append targets =>
    obtain ⟨hok,rfl⟩ := of_guard hs₁
    exact h.append hclean ‹_›
  | other =>
    cases hs₁
    exact h.log_step (fun b hb => (Extends.of_append rfl).keep (h.begun b hb))
      (fun _ _ hl => .inl hl) (fun _ _ _ hp => hp.elim) (by rintro _ _ ⟨⟩)
  | begin =>
    simp only [Checkpoint.step] at hs₁
    split at hs₁ <;> cases hs₁
    all_goals
      refine h.log_step (fun b hb => ?_) (fun _ _ hl => .inl hl) (fun _ _ _ hp => hp.elim)
        (by rintro _ _ ⟨⟩)
      cases hb
      simp [BeginsAt,recordAt,nextLsn]
  | publish =>
    simp only [Checkpoint.step] at hs₁
    split at hs₁
    case h_2 => cases hs₁
    rename_i b hph
    obtain ⟨q,hq,rfl⟩ := Option.map_eq_some_iff.1 hs₁
    refine h.pool_step (a := .setCheckpointLsn b) trivial hq (by rintro _ _ _ _ ⟨⟩)
      (by rintro _ _ _ _ ⟨⟩) (fun _ => ?_) (by rintro _ ⟨⟩) (fun _ _ hl => hl) (by rintro _ ⟨⟩)
      h.gate
    cases hq
    exact h.begun b hph
  | examine =>
    simp only [Checkpoint.step] at hs₁
    split at hs₁
    case h_2 => cases hs₁
    split at hs₁ <;> cases hs₁ <;> exact h.next_phase (by rintro _ ⟨⟩)
  | flushNext =>
    simp only [Checkpoint.step] at hs₁
    split at hs₁
    · cases hs₁
      exact h.next_phase (by rintro _ ⟨⟩)
    · rename_i b p todo hph
      obtain ⟨q,hq,rfl⟩ := Option.map_eq_some_iff.1 hs₁
      exact h.pool_step (a := .flush cfg.coordinator p) trivial hq (by rintro _ _ _ _ ⟨⟩)
        (by rintro _ _ _ _ ⟨⟩) (h.still_published hq (by rintro _ ⟨⟩)) (by rintro _ ⟨⟩)
        (fun _ _ hl => hl) (by rintro _ ⟨⟩) h.gate
    · cases hs₁
  | flushed =>
    simp only [Checkpoint.step] at hs₁
    split at hs₁ <;> cases hs₁
    exact h.next_phase fun x => flushedPhase_ne_publish _ _ _ x
  | writeSuperblock | abort =>
    simp only [Checkpoint.step] at hs₁
    split at hs₁ <;> cases hs₁ <;> exact h.next_phase (by rintro _ ⟨⟩)

end Steps

theorem fresh_inv {s : Sys n} (h : Fresh s) : Inv s := by
  obtain ⟨⟨k,pd,hpd,hs⟩,-,hgate⟩ := h
  have hother : ∀ l r, recordAt s.toSys l = some r → r = .other := by
    intro l r hr
    rw [hs] at hr
    unfold recordAt at hr
    split at hr
    · cases hr
    · dsimp only at hr
      rw [List.getElem?_replicate] at hr
      split at hr <;> cases hr
      rfl
  have hnone : ∀ b, ¬BeginsAt s.toSys b := fun b hb => by cases hother b _ hb
  have hstamp : ∀ p c, c.pdLsn ≤ k → Stamped s.toSys p c := fun p c hc =>
    ⟨by rw [hs]; simpa using hc,.inl fun b hb => absurd hb (hnone b)⟩
  refine ⟨by rw [hs]; exact opened_inv _,?_,by rw [hs]; exact opened_flags _,fun hv => ?_,
    fun b hb => ?_,fun t l hl => ?_,fun p hv => ?_,fun p c l hc => (nomatch hother l _ hc),
    fun b p l hb => absurd hb (hnone b)⟩
  · rw [hs] at hstamp ⊢
    exact ⟨nofun,fun p => hstamp p _ (hpd p),nofun⟩
  · rw [hs] at hv
    cases hv
  · rw [hs] at hb
    cases hb
  · rw [hs] at hl
    cases hl
  · rw [hgate p] at hv
    cases hv

theorem reach_inv {s : Sys n} (h : Machine.Reach (step cfg) Fresh Clean s) : Inv s :=
  h.invariant (fun _ hs => fresh_inv hs) fun _ _ _ => step_inv

/-- Redo of the record at `l` makes the whole page from the image `c`. -/
def Repairs (s : Checkpoint.Sys n) (p l : ℕ) (c : Image) : Prop :=
  (∃ image, recordAt s l = some (.fullPageImage p image)) ∨ c.pdLsn < l

section Redo

variable {s : Checkpoint.Sys n} {b p l k : ℕ} {c c' : Image} {r : Rec}

theorem redoRecord_untouched (h : ¬touches r p) : redoRecord p c l r = c := by
  cases r with
  | change targets => exact if_neg fun hp => h hp.1
  | fullPageImage q image => exact if_neg h
  | _ => rfl

theorem redoFrom_succ (h : recordAt s (b + k) = some r) :
    redoFrom s b p c (k + 1) = redoRecord p (redoFrom s b p c k) (b + k) r := by
  simp only [redoFrom,h,Option.elim_some]

theorem redoFrom_untouched (h : ¬TouchedAt s p (b + k)) :
    redoFrom s b p c (k + 1) = redoFrom s b p c k := by
  cases hr : recordAt s (b + k) with
  | none => simp only [redoFrom,hr,Option.elim_none]
  | some r => exact (redoFrom_succ hr).trans (redoRecord_untouched fun hp => h ⟨r,hr,hp⟩)

theorem redoFrom_first (h : FirstAfter s b p l) (hb : BeginsAt s b) :
    ∀ k, b + k ≤ l → redoFrom s b p c k = c
  | 0,_ => rfl
  | k + 1,hk => by
    rw [redoFrom_untouched fun ht => ?_,redoFrom_first h hb k (by omega)]
    have hne := ht.ne_begin hb
    exact h.first (b + k) (by omega) (by omega) ht

theorem redoRecord_rebuilds (hr : rebuilds r p) (hc : (∃ image, r = .fullPageImage p image) ∨
    c.pdLsn < l) (himage : ∀ image, r = .fullPageImage p image → image.pdLsn < l) :
    (redoRecord p c l r).pdLsn = l ∧
      (p ∈ r.targets.map Prod.fst → l ∈ (redoRecord p c l r).changes) ∧
      ∀ c', ((∃ image, r = .fullPageImage p image) ∨ c'.pdLsn < l) →
        redoRecord p c' l r = redoRecord p c l r := by
  cases r with
  | change targets =>
    have hp : p ∈ targets.map Prod.fst := List.mem_map.2 ⟨_,hr,rfl⟩
    have hin : (p,true) ∈ targets := hr
    have heq : ∀ c : Image, ((∃ image, Rec.change targets = .fullPageImage p image) ∨
        c.pdLsn < l) → redoRecord p c l (.change targets) = ⟨l,[l]⟩ := fun c hc => by
      obtain ⟨image,⟨⟩⟩ | hc := hc
      rw [redoRecord,if_pos ⟨hp,hc⟩,if_pos hin]
    rw [heq c hc]
    exact ⟨rfl,fun _ => List.mem_singleton_self l,heq⟩
  | fullPageImage q image =>
    cases (show q = p from hr)
    have := himage image rfl
    simp only [redoRecord,if_true]
    exact ⟨max_eq_left this.le,nofun,fun _ _ => trivial⟩
  | checkpointBegin | other => cases hr

theorem redoRecord_change {targets : List (ℕ × Bool)} (hp : p ∈ targets.map Prod.fst)
    (hc : c.pdLsn < l) : (redoRecord p c l (.change targets)).pdLsn = l ∧
      l ∈ (redoRecord p c l (.change targets)).changes := by
  rw [redoRecord,if_pos ⟨hp,hc⟩]
  exact ⟨rfl,List.mem_cons_self ..⟩

theorem redoRecord_stamp (hc : c.pdLsn < l)
    (himage : ∀ image, r = .fullPageImage p image → image.pdLsn < l) :
    (redoRecord p c l r).pdLsn < l + 1 := by
  by_cases ht : touches r p
  · by_cases hr : rebuilds r p
    · rw [(redoRecord_rebuilds hr (.inr hc) himage).1]
      exact Nat.lt_succ_self l
    · cases r with
      | change targets =>
        rw [(redoRecord_change ht hc).1]
        exact Nat.lt_succ_self l
      | _ => exact absurd ht hr
  · rw [redoRecord_untouched ht]
    exact hc.trans (Nat.lt_succ_self l)

theorem mem_redoRecord {x : ℕ} (hr : ¬rebuilds r p) (hx : x ∈ c.changes) :
    x ∈ (redoRecord p c l r).changes := by
  cases r with
  | change targets =>
    have hin : (p,true) ∉ targets := hr
    simp only [redoRecord,if_neg hin]
    split
    · exact List.mem_cons_of_mem _ hx
    · exact hx
  | fullPageImage q image =>
    have hq : q ≠ p := hr
    rwa [redoRecord,if_neg hq]
  | _ => exact hx

variable (hb : BeginsAt s b) (hf : FirstAfter s b p l) (hr : RebuiltAt s p l)
  (himage : ∀ q image y, recordAt s y = some (.fullPageImage q image) → image.pdLsn < y)
  (hc : Repairs s p l c)

include hb hf hr himage hc

theorem redoFrom_at_first (hk : l = b + k) : (redoFrom s b p c (k + 1)).pdLsn = l ∧
    (Modifies s p l → l ∈ (redoFrom s b p c (k + 1)).changes) ∧
    ∀ c', Repairs s p l c' → redoFrom s b p c' (k + 1) = redoFrom s b p c (k + 1) := by
  obtain ⟨r,hrec,hreb⟩ := hr
  subst hk
  have hat : ∀ c, Repairs s p (b + k) c →
      (∃ image, r = .fullPageImage p image) ∨ c.pdLsn < b + k := fun c hc =>
    hc.imp_left fun ⟨image,hi⟩ => ⟨image,Option.some.inj (hrec.symm.trans hi)⟩
  have hself : ∀ c, redoFrom s b p c (k + 1) = redoRecord p c (b + k) r := fun c => by
    rw [redoFrom_succ hrec,redoFrom_first hf hb k le_rfl]
  obtain ⟨hpd,hmem,heq⟩ := redoRecord_rebuilds hreb (hat c hc)
    fun image hi => himage p image _ (hi ▸ hrec)
  rw [hself c]
  refine ⟨hpd,fun ⟨r',hr',hp⟩ => ?_,fun c' hc' => (hself c').trans (heq c' (hat c' hc'))⟩
  cases hrec.symm.trans hr'
  exact hmem hp

/-- Behind the first record nothing depends on the image on disk any more. -/
theorem redoFrom_rebuilt : ∀ k, l < b + k → (redoFrom s b p c k).pdLsn < b + k ∧
    ∀ c', Repairs s p l c' → redoFrom s b p c' k = redoFrom s b p c k
  | 0,hk => absurd hf.after (by omega)
  | k + 1,hk => by
    rcases Nat.lt_or_eq_of_le (Nat.lt_succ_iff.1 hk) with hlt | heq
    · obtain ⟨hpd,hsame⟩ := redoFrom_rebuilt k hlt
      cases hrec : recordAt s (b + k) with
      | none =>
        simp only [redoFrom,hrec,Option.elim_none]
        exact ⟨by omega,hsame⟩
      | some r =>
        refine ⟨?_,fun c' hc' => ?_⟩
        · rw [redoFrom_succ hrec]
          exact redoRecord_stamp hpd fun image hi => himage p image _ (hi ▸ hrec)
        · rw [redoFrom_succ hrec,redoFrom_succ hrec,hsame c' hc']
    · obtain ⟨hpd,-,hsame⟩ := redoFrom_at_first hb hf hr himage hc heq
      exact ⟨by omega,hsame⟩

theorem mem_redoFrom {x : ℕ} (hlx : l ≤ x) (hx : Modifies s p x)
    (hlast : ∀ y, x < y → ¬RebuiltAt s p y) :
    ∀ k, x < b + k → x ∈ (redoFrom s b p c k).changes
  | 0,hk => absurd hf.after (by omega)
  | k + 1,hk => by
    rcases Nat.lt_or_eq_of_le (Nat.lt_succ_iff.1 hk) with hlt | heq
    · have hmem := mem_redoFrom hlx hx hlast k hlt
      cases hrec : recordAt s (b + k) with
      | none => simpa only [redoFrom,hrec,Option.elim_none] using hmem
      | some r =>
        rw [redoFrom_succ hrec]
        exact mem_redoRecord (fun hreb => hlast (b + k) hlt ⟨r,hrec,hreb⟩) hmem
    · rcases Nat.lt_or_eq_of_le hlx with hlx | rfl
      · obtain ⟨r,hrec,hp⟩ := hx
        have hpd := (redoFrom_rebuilt hb hf hr himage hc k (by omega)).1
        rw [heq] at hrec ⊢
        rw [redoFrom_succ hrec]
        cases r with
        | change targets => exact (redoRecord_change hp hpd).2
        | _ => cases hp
      · exact (redoFrom_at_first hb hf hr himage hc heq).2.1 hx

end Redo

def emptySys : Sys 3 := ⟨Checkpoint.emptySys,fun _ => false,fun _ => Lsn.invalid⟩

theorem fresh_emptySys : Fresh emptySys :=
  ⟨Checkpoint.fresh_emptySys,fun _ => rfl,fun _ => rfl⟩

/-- A write of a page that got no further than the sector with the stamp. -/
def torn (old new : Image) : Image := ⟨new.pdLsn,old.changes⟩

/-- A checkpoint has completed, and redo from it loses a change when the write of `p` that has
carried the change to disk is torn. -/
def unrepairable (p : ℕ) (s : Sys 3) : Bool :=
  match s.phase with
  | .done b => decide (BeginsAt s.toSys b ∧ ∃ i ∈ List.range s.pool.writes.length,
      ∃ w ∈ s.pool.writes[i]?, w.1 = p ∧ ∃ x ∈ w.2.changes, b < x ∧
        x ∉ (redo s.toSys b p (torn
          ({ s.pool.toShared with writes := s.pool.writes.take i }.onDisk p) w.2)).changes)
  | _ => false

def complete : List (Checkpoint.Step 3) :=
  [.examine,.examine,.flushNext] ++ runs .pool 0 10 ++ [.flushed,.flushNext,.writeSuperblock]

def pinPage (x : Access) (k : ℕ) : List (Checkpoint.Step 3) :=
  .pool (.access 1 x 1 false) :: runs .pool 1 k

def dropPage : List (Checkpoint.Step 3) := .pool (.drop 1) :: runs .pool 1 2

def flushPage : List (Checkpoint.Step 3) := .pool (.flush 2 1) :: runs .pool 2 10

/-- Page 1 is changed again before its first flush, with its flag clear. -/
def changedBeforeFlush : List (Checkpoint.Step 3) :=
  logChange ++ [.begin,.publish] ++ pinPage .pinMut 4 ++ [.append [(1,false)],.apply 1 3] ++
    dropPage ++ complete

/-- The gate runs before the begin record is published, the change is logged behind it. -/
def changedInWindow : List (Checkpoint.Step 3) :=
  logChange ++ flushPage ++ pinPage .pinMut 4 ++ [.begin,.append [(1,false)],.apply 1 3] ++
    dropPage ++ [.publish] ++ complete

/-- The page is touched before the checkpoint and changed under a guard without a gate behind it. -/
def touchedTooEarly : List (Checkpoint.Step 3) :=
  logChange ++ flushPage ++ pinPage .pinMut 4 ++ dropPage ++ [.begin,.publish] ++
    pinPage .pinMutWithoutFpi 2 ++ [.append [(1,false)],.apply 1 3] ++ dropPage ++ complete

/-- The first record behind the begin re-initialises the page, but redo skips it by the stamp. -/
def createdBehind : List (Checkpoint.Step 3) :=
  [.begin,.publish,.pool (.access 1 .newPage 1 false)] ++
    useNewPage .pool 1 [.append [(1,true)],.apply 1 2] ++ complete

def LosesChange (run : List (Checkpoint.Step 3)) : Prop :=
  ∃ s, Machine.exec (step oneFrame) emptySys run = some s ∧ unrepairable 1 s = true

theorem losesChange_of_any {run : List (Checkpoint.Step 3)}
    (h : (Machine.exec (step oneFrame) emptySys run).any (unrepairable 1) = true) :
    LosesChange run := (Option.any_eq_true ..).1 h

end FullPageImage
end PgAm
