import PgAm.PageRecovery

/-! The allocator's calls against the log. Between two calls the freelist holds pages whose last
record is a free, and unless the writer is poisoned every page in the log is behind the next one. -/
namespace PgAm
namespace PageAllocator

inductive Appended (r : Rec) (w : Wal) : Except StorageError ℕ → Wal → Prop
  | refused {e : StorageError} : Appended r w (.error e) w
  | failed {e : StorageError} {msg : String} {log : List Rec}
      (hlog : log = w.log ∨ log = w.log ++ [r]) (hw : w.lastError = none) :
      Appended r w (.error e) ⟨log,w.synced,some msg⟩
  | done (hw : w.lastError = none) :
      Appended r w (.ok (w.log.length + 1)) ⟨w.log ++ [r],w.synced,none⟩

theorem append_appended (w : Wal) (r : Rec) (fault : Option AppendFault) :
    Appended r w (w.append r fault).1 (w.append r fault).2 := by
  obtain ⟨log,synced,err⟩ := w
  unfold Wal.append
  cases err with
  | some msg => exact .refused
  | none =>
    cases fault with
    | none => exact .done rfl
    | some f =>
      obtain ⟨stored,msg⟩ := f
      cases stored
      · exact .failed (.inl rfl) rfl
      · exact .failed (.inr rfl) rfl

/-- The allocator and the log between two calls. -/
structure Tidy (w : Wal) (a : Allocator) : Prop where
  grounded : Grounded w.log
  listed : Listed w.log a
  behind : w.lastError = none → Behind w.log a.nextPageId
  mentioned : Mentioned w.log a.nextPageId
  aligned : pageSize ∣ a.currentFileLen

theorem ensureDataFileCapacity_eq (fault : Option String) (p : ℕ) (a : Allocator) :
    ∃ res len, ensureDataFileCapacity fault p a = (res,{ a with currentFileLen := len }) ∧
      (pageSize ∣ a.currentFileLen → pageSize ∣ len) ∧ (fault = none → res = .ok ()) := by
  by_cases hlen : a.currentFileLen < pageSize * p
  · cases fault with
    | some msg =>
      exact ⟨.error (.io msg),a.currentFileLen,by simp [ensureDataFileCapacity,hlen],id,nofun⟩
    | none =>
      have hgrow : pageSize ∣ dataFileGrowthBytes := by decide
      exact ⟨.ok (),alignUp (pageSize * p) dataFileGrowthBytes,by simp [ensureDataFileCapacity,
        hlen],
        fun _ => hgrow.trans (dvd_alignUp _ _),fun _ => rfl⟩
  · exact ⟨.ok (),a.currentFileLen,by simp [ensureDataFileCapacity,hlen],id,fun _ => rfl⟩

structure Popped (w : Wal) (a : Allocator) (p : ℕ) (b : Allocator) : Prop where
  pos : 1 ≤ p
  le : p ≤ a.nextPageId
  next : b.nextPageId = a.nextPageId
  len : b.currentFileLen = a.currentFileLen
  nodup : b.freelist.Nodup
  mem : ∀ q, q ∈ b.freelist ↔ q ∈ a.freelist ∧ q ≠ p
  origin : p = a.nextPageId ∨ last p w.log = some true

variable {a : Allocator} {w : Wal}

theorem popPage_popped (h : Tidy w a) : Popped w a (popPage a).1 (popPage a).2 := by
  unfold popPage
  cases hl : a.freelist.getLast? with
  | none =>
    have hnil : a.freelist = [] := List.getLast?_eq_none_iff.1 hl
    refine ⟨h.listed.next_pos,le_rfl,rfl,rfl,h.listed.nodup,fun q => ?_,.inl rfl⟩
    rw [hnil]
    simp
  | some p =>
    obtain ⟨l,hl⟩ := List.getLast?_eq_some_iff.1 hl
    have hmem : p ∈ a.freelist := by simp [hl]
    have hrange := h.listed.range p hmem
    have hdrop : a.freelist.dropLast = l := by rw [hl,List.dropLast_concat]
    have hnodup := h.listed.nodup
    rw [hl,List.nodup_append] at hnodup
    have hne : ∀ q ∈ l, q ≠ p := fun q hq => hnodup.2.2 q hq p (List.mem_singleton_self p)
    refine ⟨hrange.1,hrange.2.le,rfl,rfl,hdrop ▸ hnodup.1,fun q => ?_,.inr (h.listed.free p hmem)⟩
    simp only [hl,List.dropLast_concat,List.mem_append,List.mem_singleton]
    constructor
    · exact fun hq => ⟨.inl hq,hne q hq⟩
    · exact fun hq => hq.1.resolve_right hq.2

theorem Tidy.popped {a b : Allocator} {p : ℕ} (h : Tidy w a) (hp : Popped w a p b)
    {len : ℕ} (hlen : pageSize ∣ len) : Tidy w { b with currentFileLen := len } where
  grounded := h.grounded
  listed :=
    { nodup := hp.nodup
      range := fun q hq => by
        change 1 ≤ q ∧ q < b.nextPageId
        rw [hp.next]
        exact h.listed.range q ((hp.mem q).1 hq).1
      free := fun q hq => h.listed.free q ((hp.mem q).1 hq).1
      next_pos := h.listed.next_pos.trans_eq hp.next.symm }
  behind hw := by
    change Behind w.log b.nextPageId
    rw [hp.next]
    exact h.behind hw
  mentioned := by
    change Mentioned w.log b.nextPageId
    rw [hp.next]
    exact h.mentioned
  aligned := hlen

theorem Tidy.poison (h : Tidy w a) (msg : String) : Tidy ⟨w.log,w.synced,some msg⟩ a :=
  { h with behind := nofun }

variable {err : Option String}

theorem Tidy.log (h : Tidy w a) {r : Rec} (hr : event r = none)
    (hroot : Rooted w.log r) (herr : err = none → w.lastError = none) :
    Tidy ⟨w.log ++ [r],w.synced,err⟩ a := by
  have hlast : ∀ p, last p (w.log ++ [r]) = last p w.log := by
    intro p
    rw [last_concat,EventLog.about_eq_none (by simp [hr]),Option.none_or]
  refine ⟨h.grounded.concat hroot,{ h.listed with free := fun p hp => ?_ },
    fun he p hp => ?_,fun p hp hlt => ?_,h.aligned⟩
  · rw [hlast]
    exact h.listed.free p hp
  · rw [hlast] at hp
    exact h.behind (herr he) p hp
  · rw [hlast]
    exact h.mentioned p hp hlt

theorem Tidy.logAlloc {a b : Allocator} {p n len : ℕ}
    (h : Tidy w a) (hp : Popped w a p b) (hw : w.lastError = none) (hlen : pageSize ∣ len)
    (hn : n = a.nextPageId ∨ p = a.nextPageId ∧ n = a.nextPageId + 1) (herr : err = none → p < n) :
    Tidy ⟨w.log ++ [.pageAlloc p],w.synced,err⟩
      { b with nextPageId := n, currentFileLen := len } := by
  have hle : a.nextPageId ≤ n := by omega
  have hlast : ∀ q, q ≠ p → last q (w.log ++ [.pageAlloc p]) = last q w.log := by
    intro q hq
    rw [last_concat,about_pageAlloc,if_neg hq,Option.none_or]
  refine ⟨h.grounded.concat ⟨hp.pos,fun q hq hlt => h.mentioned q hq (hlt.trans_le hp.le)⟩,
    ⟨hp.nodup,fun q hq => ?_,fun q hq => ?_,h.listed.next_pos.trans hle⟩,fun he q hq => ?_,
    fun q hq hlt => ?_,hlen⟩
  · exact (h.listed.range q ((hp.mem q).1 hq).1).imp id fun hlt => hlt.trans_le hle
  · rw [hlast q ((hp.mem q).1 hq).2]
    exact h.listed.free q ((hp.mem q).1 hq).1
  · by_cases heq : q = p
    · subst heq
      exact ⟨hp.pos,herr he⟩
    · rw [hlast q heq] at hq
      exact (h.behind hw q hq).imp id fun hlt => hlt.trans_le hle
  · by_cases heq : q = p
    · rw [heq,last_concat,about_pageAlloc,if_pos rfl]
      exact Option.some_ne_none _
    · change q < n at hlt
      exact last_ne_none_of_append (h.mentioned q hq (by omega))

theorem Tidy.logFree {p : ℕ} (h : Tidy w a) (hpos : p ≠ 0)
    (hlt : p < a.nextPageId) (hmem : p ∉ a.freelist) {fl : List ℕ}
    (hfl : fl = a.freelist ∨ fl = a.freelist ++ [p]) (herr : err = none → w.lastError = none) :
    Tidy ⟨w.log ++ [.pageFree p],w.synced,err⟩ { a with freelist := fl } := by
  have hone : 1 ≤ p := Nat.one_le_iff_ne_zero.2 hpos
  have hknown := h.mentioned p hone hlt
  have hlast : ∀ q, last q (w.log ++ [.pageFree p]) =
      if q = p then some true else last q w.log := by
    intro q
    rw [last_concat,about_pageFree]
    split <;> rfl
  have hfree : ∀ q ∈ fl, q ∈ a.freelist ∨ q = p := by
    rintro q hq
    rcases hfl with rfl | rfl
    · exact .inl hq
    · exact (List.mem_append.1 hq).imp id List.mem_singleton.1
  refine ⟨h.grounded.concat ⟨hone,hknown⟩,⟨?_,fun q hq => ?_,fun q hq => ?_,h.listed.next_pos⟩,
    fun he q hq => ?_,fun q hq hlt => last_ne_none_of_append (h.mentioned q hq hlt),h.aligned⟩
  · rcases hfl with rfl | rfl
    · exact h.listed.nodup
    · refine List.nodup_append.2 ⟨h.listed.nodup,List.nodup_singleton p,
        fun x hx y hy hxy => hmem ?_⟩
      rwa [← List.mem_singleton.1 hy,← hxy]
  · rcases hfree q hq with hq | rfl
    · exact h.listed.range q hq
    · exact ⟨hone,hlt⟩
  · rw [hlast]
    split
    · rfl
    · rename_i hne
      exact h.listed.free q ((hfree q hq).resolve_right hne)
  · rw [hlast] at hq
    split at hq
    · rename_i heq
      subst heq
      exact ⟨hone,hlt⟩
    · exact h.behind (herr he) q hq

structure Keeps (w : Wal) (a : Allocator) (w' : Wal) (a' : Allocator) : Prop where
  tidy : Tidy w' a'
  log : w.log <+: w'.log
  synced : w'.synced = w.synced
  next : a.nextPageId ≤ a'.nextPageId

theorem Keeps.refl (h : Tidy w a) : Keeps w a w a :=
  ⟨h,List.prefix_rfl,rfl,le_rfl⟩

/-- No allocation returns a page that the log says is in use. -/
theorem allocPage_spec (h : Tidy w a) (grow : Option String) (fault : Option AppendFault) :
    Keeps w a (allocPage grow fault a w).2.2 (allocPage grow fault a w).2.1 ∧
      ∀ p, (allocPage grow fault a w).1 = .ok p → last p w.log ≠ some false := by
  unfold allocPage
  dsimp only
  split
  · exact ⟨.refl h,nofun⟩
  have hp := popPage_popped h
  generalize popPage a = out at hp
  obtain ⟨p,b⟩ := out
  obtain ⟨res,len,hcap,hlen,-⟩ := ensureDataFileCapacity_eq grow p b
  have halign := hlen (hp.len ▸ h.aligned)
  have hbnext := hp.next
  dsimp only at hp hcap hbnext ⊢
  rw [hcap]
  cases res with
  | error e => exact ⟨⟨h.popped hp halign,List.prefix_rfl,rfl,hp.next.ge⟩,nofun⟩
  | ok u =>
    have happ := append_appended w (.pageAlloc p) fault
    dsimp only
    generalize w.append (.pageAlloc p) fault = out at happ
    obtain ⟨res,w'⟩ := out
    cases happ with
    | refused => exact ⟨⟨h.popped hp halign,List.prefix_rfl,rfl,hp.next.ge⟩,nofun⟩
    | failed hlog hw =>
      refine ⟨?_,nofun⟩
      rcases hlog with rfl | rfl
      · exact ⟨(h.popped hp halign).poison _,List.prefix_rfl,rfl,hp.next.ge⟩
      · refine ⟨?_,List.prefix_append _ _,rfl,hp.next.ge⟩
        exact h.logAlloc (n := b.nextPageId) hp hw halign (.inl hp.next) nofun
    | done hw =>
      constructor
      · dsimp only
        split
        · rename_i heq
          refine ⟨h.logAlloc hp hw halign (.inr ⟨heq.trans hbnext,congrArg (· + 1) hbnext⟩)
            (fun _ => heq ▸ Nat.lt_succ_self _),List.prefix_append _ _,rfl,?_⟩
          exact hbnext.ge.trans (Nat.le_succ _)
        · rename_i hne
          refine ⟨h.logAlloc (n := b.nextPageId) hp hw halign (.inl hbnext) (fun _ => ?_),
            List.prefix_append _ _,rfl,hbnext.ge⟩
          exact lt_of_le_of_ne (hbnext ▸ hp.le) hne
      · intro q hq
        cases hq
        rcases hp.origin with heq | htrue
        · by_contra hfalse
          have hlt := (h.behind hw p (by rw [hfalse]; exact Option.some_ne_none _)).2
          omega
        · rw [htrue]
          decide

theorem freePage_spec (h : Tidy w a) (fault : Option AppendFault)
    (p : ℕ) : Keeps w a (freePage fault p a w).2.2 (freePage fault p a w).2.1 := by
  unfold freePage
  split
  · exact .refl h
  split
  · exact .refl h
  split
  · exact .refl h
  rename_i hpos hlt hmem
  have happ := append_appended w (.pageFree p) fault
  generalize w.append (.pageFree p) fault = out at happ
  obtain ⟨res,w'⟩ := out
  cases happ with
  | refused => exact .refl h
  | failed hlog hw =>
    rcases hlog with rfl | rfl
    · exact ⟨h.poison _,List.prefix_rfl,rfl,le_rfl⟩
    · exact ⟨h.logFree hpos (not_le.1 hlt) hmem (.inl rfl) nofun,List.prefix_append _ _,rfl,le_rfl⟩
  | done hw =>
    exact ⟨h.logFree hpos (not_le.1 hlt) hmem (.inr rfl) fun _ => hw,List.prefix_append _ _,rfl,
      le_rfl⟩

theorem Tidy.append {w w' : Wal} {a : Allocator} {r : Rec} {res : Except StorageError ℕ}
    (h : Tidy w a) (hr : event r = none) (hroot : ∀ l, Rooted l r) (happ : Appended r w res w') :
    Keeps w a w' a := by
  cases happ with
  | refused => exact .refl h
  | failed hlog hw =>
    rcases hlog with rfl | rfl
    · exact ⟨h.poison _,List.prefix_rfl,rfl,le_rfl⟩
    · exact ⟨h.log hr (hroot _) nofun,List.prefix_append _ _,rfl,le_rfl⟩
  | done hw => exact ⟨h.log hr (hroot _) fun _ => hw,List.prefix_append _ _,rfl,le_rfl⟩

end PageAllocator
end PgAm
