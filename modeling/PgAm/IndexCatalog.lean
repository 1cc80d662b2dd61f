import PgAm.IndexQuiet
import PgAm.IndexRegister

/-! Indexes and rows at rest. As long as no row operation starts between the release of a build's
lock and the registration of its index, every registered index agrees with the table whenever
nothing is in progress. -/
namespace PgAm
namespace IndexBuild

open Machine Heap Function
open HeapHistory (History Write Grown Keeps)
open Engine (Table Entry Schema Ghost Unwritten)
open UndoLog (Op)

variable {K : Type}

/-- From the lock to the registration no row operation is under way. -/
def Stage.quiet : Stage K → Bool
  | .locked | .scanning _ | .loaded _ | .committed _ | .left _ | .released _ => true
  | .waiting | .failed _ | .aborted _ | .abandoned _ => false

def Stage.entries : Stage K → Option (List (Entry K))
  | .loaded entries | .committed entries | .left entries | .released entries => some entries
  | _ => none

structure BuildInv (d : Db K) (b : Build K) : Prop where
  column : b.column < d.width ∧ b.column ∉ d.schema.columns
  reader : ∀ w ∈ d.table.history.writes, w.xid ≠ b.xid
  exclusive : b.stage.exclusive = true → d.rowLocks = []
  quiet : b.stage.quiet = true → Settled d.table.history ∧ ∀ x, d.known x = none
  scanning : ∀ snap, b.stage = .scanning snap → snap.currentXid = b.xid ∧
    ∀ w ∈ d.table.history.writes, w.xid < snap.xmax ∧ w.xid ∉ snap.xip
  entries : ∀ entries ∈ b.stage.entries, Loaded d.schema.fits d.table b.column entries

/-- Writers hold their lock while active, and what is known of the registry is in it. -/
structure Inv (d : Db K) : Prop where
  ghost : ∃ values applied, Engine.Inv d.schema (d.table.ghost values applied) ∧
    Ghost d.width d.table values applied
  writers : ∀ w ∈ d.table.history.writes, w.xid ∈ d.table.history.heap.manager.active →
    w.xid ∈ d.rowLocks
  known : ∀ x schema, d.known x = some schema → schema = d.schema ∧ x ∈ d.rowLocks
  build : ∀ b ∈ d.build, BuildInv d b

theorem Inv.history {d : Db K} (hi : Inv d) : HeapHistory.Inv d.table.history := by
  obtain ⟨values,applied,hinv,-⟩ := hi.ghost
  exact hinv.history

section Kept

variable {d : Db K} {e : Table K}

theorem settled_kept (hi : HeapHistory.Inv d.table.history) (hu : Unwritten d.table e)
    (hset : Settled d.table.history) : Settled e.history := by
  intro w hw hact
  have hw' : w ∈ d.table.history.writes := (hu.grown.mem_writes.1 hw).resolve_right nofun
  rcases hu.active w.xid hact with h | h
  · exact hset w hw' h
  · exact absurd (hi.versions.writer w hw').2.1 (h ▸ lt_irrefl _)

theorem current_kept (hi : HeapHistory.Inv d.table.history) (hu : Unwritten d.table e)
    (hset : Settled d.table.history)
    (v : Tid) : Current e.history v ↔ Current d.table.history v := by
  have hmem : ∀ w, w ∈ e.history.writes ↔ w ∈ d.table.history.writes := fun w =>
    hu.grown.mem_writes.trans ⟨fun h => h.resolve_right nofun,.inl⟩
  have hst : ∀ w ∈ d.table.history.writes, e.history.heap.manager.getState w.xid = .committed ↔
      d.table.history.heap.manager.getState w.xid = .committed := fun w hw => by
    refine ⟨fun hc => ?_,hu.keeps _ _ nofun⟩
    refine (hset.ended hi hw).resolve_right fun hab => ?_
    exact absurd ((hu.keeps _ .aborted nofun hab).symm.trans hc) nofun
  constructor
  · rintro ⟨⟨a,ha,hnew,hc⟩,hfree⟩
    have ha' := (hmem a).1 ha
    exact ⟨⟨a,ha',hnew,(hst a ha').1 hc⟩,fun b hb hold hc => hfree b ((hmem b).2 hb) hold
      ((hst b hb).2 hc)⟩
  · rintro ⟨⟨a,ha,hnew,hc⟩,hfree⟩
    refine ⟨⟨a,(hmem a).2 ha,hnew,(hst a ha).2 hc⟩,fun b hb hold hc => ?_⟩
    have hb' := (hmem b).1 hb
    exact hfree b hb' hold ((hst b hb').1 hc)

theorem loaded_kept (hi : HeapHistory.Inv d.table.history) (hu : Unwritten d.table e)
    (hset : Settled d.table.history) {fits : K → Bool} {c : ℕ} {entries : List (Entry K)}
    (hl : Loaded fits d.table c entries) : Loaded fits e c entries := by
  refine ⟨hl.nodup,fun a => ?_,hl.fits⟩
  simp only [hl.mem,current_kept hi hu hset,hu.values,hu.root]

theorem BuildInv.kept {b : Build K} (hb : BuildInv d b) (hi : HeapHistory.Inv d.table.history)
    (hu : Unwritten d.table e) {known : ℕ → Option (Schema K)}
    (hknown : (∀ x, d.known x = none) → ∀ x, known x = none) :
    BuildInv { d with table := e, known := known } b := by
  have hmem : ∀ w ∈ e.history.writes, w ∈ d.table.history.writes := fun w hw =>
    (hu.grown.mem_writes.1 hw).resolve_right nofun
  refine ⟨hb.column,fun w hw => hb.reader w (hmem w hw),hb.exclusive,fun hq => ?_,fun snap hs => ?_,
    fun entries he => ?_⟩
  · obtain ⟨hset,hno⟩ := hb.quiet hq
    exact ⟨settled_kept hi hu hset,hknown hno⟩
  · obtain ⟨hx,hw⟩ := hb.scanning snap hs
    exact ⟨hx,fun w hw' => hw w (hmem w hw')⟩
  · have hq : b.stage.quiet = true := by
      cases hst : b.stage with
      | loaded l | committed l | left l | released l => rfl
      | waiting | locked | scanning snap | failed held | aborted held | abandoned held =>
        rw [hst] at he
        cases he
    exact loaded_kept hi hu (hb.quiet hq).1 (hb.entries entries he)

end Kept

section Steps

variable {d d' : Db K} {b : Build K}

theorem Inv.managed (hi : Inv d) {m : Manager.Step} {h : History}
    (hs : HeapHistory.step d.table.history (.manager m) = some h)
    (hend : ∀ x o, m = .setState x o → ∀ w ∈ d.table.history.writes, w.xid ≠ x) :
    Inv (d.withHistory h) := by
  have hu : Unwritten d.table { d.table with history := h } := .of_manager hs
  obtain ⟨values,applied,hinv,hg⟩ := hi.ghost
  refine ⟨⟨values,applied,?_,hg.kept hu.grown hu.keeps⟩,fun w hw hact => ?_,hi.known,
    fun b hb => (hi.build b hb).kept hi.history hu id⟩
  · cases m with
    | beginTxn | leaveActive x => exact hinv.quiet_manager hs nofun
    | setState x o => exact hinv.end_reader (hend x o rfl) hs
  · have hw' : w ∈ d.table.history.writes := (hu.grown.mem_writes.1 hw).resolve_right nofun
    rcases hu.active w.xid hact with h | h
    · exact hi.writers w hw' h
    · exact absurd (hi.history.versions.writer w hw').2.1 (h ▸ lt_irrefl _)

variable {stage : Stage K}

theorem Inv.advance (hi : Inv d)
    (hb : BuildInv d { b with stage := stage }) : Inv (d.advance b stage) where
  __ := hi
  build b' hb' := by
    cases hb'
    exact { hb with }

theorem BuildInv.fail (hb : BuildInv d b)
    (hlock : stage.exclusive = true → b.stage.exclusive = true) (hquiet : stage.quiet = false)
    (hscan : ∀ snap, stage ≠ .scanning snap) (hentries : stage.entries = none) :
    BuildInv d { b with stage := stage } where
  __ := hb
  exclusive h := hb.exclusive (hlock h)
  quiet h := absurd (hquiet.symm.trans h) nofun
  scanning snap h := absurd h (hscan snap)
  entries l h := by
    rw [hentries] at h
    cases h

variable {entries : List (Entry K)}

theorem BuildInv.forward (hb : BuildInv d b)
    (hlock : stage.exclusive = true → b.stage.exclusive = true) (hquiet : b.stage.quiet = true)
    (hscan : ∀ snap, stage ≠ .scanning snap) (hold : b.stage.entries = some entries)
    (hnew : stage.entries = some entries) : BuildInv d { b with stage := stage } where
  __ := hb
  exclusive h := hb.exclusive (hlock h)
  quiet _ := hb.quiet hquiet
  scanning snap h := absurd h (hscan snap)
  entries l h := hb.entries l (hold.trans (hnew.symm.trans h))

theorem Inv.buildLoad (hi : Inv d) (hb : BuildInv d b) {snap : Snapshot}
    (hst : b.stage = .scanning snap) {rows : List Tid}
    (hscan : d.table.history.heap.scan snap = .ok rows)
    (hbuild : buildEntries d.schema.fits d.table b.column rows = .ok entries) :
    Inv (d.advance b (.loaded entries)) := by
  obtain ⟨values,applied,hinv,-⟩ := hi.ghost
  obtain ⟨hset,hknown⟩ := hb.quiet (by rw [hst]; rfl)
  obtain ⟨hown,hsnap⟩ := hb.scanning snap hst
  have hr := reads_settled hi.history (fun w hw => hown ▸ hb.reader w hw) hsnap
  refine hi.advance ⟨hb.column,hb.reader,fun _ => hb.exclusive (by rw [hst]; rfl),
    fun _ => ⟨hset,hknown⟩,nofun,fun l hl => ?_⟩
  cases hl
  exact loaded_of_build hinv hset hr hscan hbuild

variable {a : Engine.Step K} {schema : Schema K}

/-- Who writes a row has read the registry as it is, under the lock. -/
theorem Inv.registry (hi : Inv d) (hr : d.registry a = some schema) : schema = d.schema ∧
      ∀ x, a.rowActor = some x → x ∈ d.rowLocks ∧ d.known x ≠ none := by
  have hrow : ∀ x, (if x ∈ d.rowLocks then d.known x else none) = some schema →
      schema = d.schema ∧ ∀ y, some x = some y → y ∈ d.rowLocks ∧ d.known y ≠ none := by
    intro x hx
    rw [Option.ite_none_right_eq_some] at hx
    refine ⟨(hi.known x schema hx.2).1,fun y hy => ?_⟩
    cases hy
    exact ⟨hx.1,by rw [hx.2]; nofun⟩
  cases a with
  | insert x page row | update x tid page row stale stamps | delete x tid stale stamps =>
    exact hrow x hr
  | act b =>
    cases b with
    | pass x tid op stale stamps =>
      simp only [Db.registry,Option.ite_none_right_eq_some,Option.some.injEq] at hr
      exact ⟨hr.2.symm,nofun⟩
    | manager m | extend page | take x | statement x | insert x page =>
      exact ⟨(Option.some.inj hr).symm,nofun⟩
  | maintain x | commit x | beginAbort x | undo x | abort x =>
    exact ⟨(Option.some.inj hr).symm,nofun⟩

theorem actor_of_rowActor {x : ℕ} (h : a.rowActor = some x) : a.actor = some x := by
  cases a with
  | insert | update | delete => exact h
  | act | maintain | commit | beginAbort | undo | abort => cases h

theorem knownAfter_eq {e : Table K} {x : ℕ}
    (h : d.knownAfter a e x = some schema) : d.known x = some schema := by
  unfold Db.knownAfter at h
  split at h
  · exact h
  · cases ha : a.actor with
    | none =>
      rw [ha] at h
      exact h
    | some y =>
      rw [ha] at h
      change update d.known y none x = some schema at h
      obtain ⟨-,⟨⟩⟩ | ⟨-,h⟩ := of_update_eq h
      exact h

theorem start_inv (hs : Start d) : Inv d := by
  obtain ⟨hstart,hcols,hlocks,hknown,hbuild⟩ := hs
  have htuple : ∀ {tid hd}, d.table.history.heap.tuple tid ≠ some hd := by
    intro tid hd hh
    rw [Sys.tuple,hstart.1.2.2.1] at hh
    cases hh
  refine ⟨⟨d.table.values,d.table.applied,Engine.start_inv hstart,fun tid hd hh => absurd hh htuple,
    fun tid hd hh => absurd hh htuple,fun _ _ => rfl⟩,fun w hw => ?_,fun x schema hx => ?_,?_⟩
  · rw [hstart.1.2.2.2.2.2] at hw
    cases hw
  · rw [hknown] at hx
    cases hx
  · rw [hbuild]
    rintro _ ⟨⟩

theorem Inv.buildLock (hi : Inv d) (hb : BuildInv d b) (hfree : d.rowLocks = []) :
    Inv (d.advance b .locked) := by
  have hnone : ∀ {x}, x ∉ d.rowLocks := fun {x} hx => by
    rw [hfree] at hx
    cases hx
  refine hi.advance ⟨hb.column,hb.reader,fun _ => hfree,fun _ => ⟨fun w hw hact => ?_,
    fun x => ?_⟩,nofun,nofun⟩
  · exact hnone (hi.writers w hw hact)
  · exact Option.eq_none_iff_forall_ne_some.2 fun schema hx => hnone (hi.known x schema hx).2

theorem Inv.buildSnapshot (hi : Inv d) (hb : BuildInv d b) (hst : b.stage = .locked) :
    Inv (d.advance b
      (.scanning (d.table.history.heap.manager.snapshot b.xid).advanceCurcid)) := by
  obtain ⟨hset,hknown⟩ := hb.quiet (by rw [hst]; rfl)
  refine hi.advance ⟨hb.column,hb.reader,fun _ => hb.exclusive (by rw [hst]; rfl),
    fun _ => ⟨hset,hknown⟩,fun snap hsnap => ?_,nofun⟩
  cases hsnap
  refine ⟨rfl,fun w hw => ⟨(hi.history.versions.writer w hw).2.1,?_⟩⟩
  change w.xid ∉ (d.table.history.heap.manager.snapshot b.xid).xip
  rw [Manager.mem_snapshot_xip]
  exact hset w hw

theorem Inv.buildFail (hi : Inv d) (hb : BuildInv d b) {held : Bool}
    (hlock : held = true → b.stage.exclusive = true) : Inv (d.advance b (.failed held)) :=
  hi.advance (hb.fail hlock rfl nofun rfl)

theorem Inv.buildManaged (hi : Inv d) (hb : BuildInv d b) {m : Manager.Step} {h : History}
    (hs : HeapHistory.step d.table.history (.manager m) = some h)
    (hm : ∀ x o, m = .setState x o → x = b.xid) : Inv (d.withHistory h) :=
  hi.managed hs fun x o he w hw => hm x o he ▸ hb.reader w hw

/-- A build does not see a row operation: who runs one has read the registry under its lock. -/
theorem BuildInv.wrote {e : Table K} {known : ℕ → Option (Schema K)} {w : HeapHistory.Write}
    (hb : BuildInv d b) (hgrown : HeapHistory.Grown d.table.history e.history (some w))
    (hw : w.xid ≠ b.xid) (hknown : d.known w.xid ≠ none) :
    BuildInv { d with table := e, known := known } b := by
  have hnq : b.stage.quiet = true → False := fun hq => hknown ((hb.quiet hq).2 w.xid)
  refine ⟨hb.column,fun w' hw' => ?_,hb.exclusive,fun hq => (hnq hq).elim,fun snap hst => ?_,
    fun l hl => ?_⟩
  · rcases hgrown.mem_writes.1 hw' with hw' | hw'
    · exact hb.reader w' hw'
    · cases hw'
      exact hw
  · exact (hnq (by rw [hst]; rfl)).elim
  · cases hst : b.stage with
    | loaded l | committed l | left l | released l => exact (hnq (by rw [hst]; rfl)).elim
    | waiting | locked | scanning snap | failed held | aborted held | abandoned held =>
      rw [hst] at hl
      cases hl

theorem address_of_mem {x : ℕ} {u : Tid} (h : u ∈ d.table.history.scanned x) :
    d.address x u = d := by
  rw [Db.address,List.insert_of_mem h,update_eq_self]
  rfl

section Builds

variable [DecidableEq K]

theorem Inv.register (hi : Inv d) (hb : BuildInv d b) {entries : List (Entry K)}
    (hst : b.stage = .released entries) : Inv (d.register b.column entries) := by
  obtain ⟨values,applied,hinv,hg⟩ := hi.ghost
  obtain ⟨hset,hknown⟩ := hb.quiet (by rw [hst]; rfl)
  have hl := hb.entries entries (by rw [hst]; rfl)
  refine ⟨⟨_,_,inv_register hinv hset hl hg hb.column.2 hb.column.1,
    ghost_register hinv hset hl hg hb.column.1⟩,hi.writers,fun x schema hx => ?_,nofun⟩
  change d.known x = some schema at hx
  rw [hknown] at hx
  cases hx

theorem Inv.stepBuild (hi : Inv d) (hb : b ∈ d.build) {a : Step K}
    (hs : d.stepBuild b a = some d') : Inv d' := by
  have hbi := hi.build b hb
  cases a with
  | buildLock =>
    simp only [Db.stepBuild] at hs
    split at hs
    · simp only [Option.ite_none_right_eq_some,Option.some.injEq] at hs
      obtain ⟨hfree,rfl⟩ := hs
      exact hi.buildLock hbi hfree
    · cases hs
  | buildSnapshot =>
    simp only [Db.stepBuild] at hs
    split at hs <;> cases hs
    exact hi.buildSnapshot hbi ‹_›
  | buildLoad =>
    simp only [Db.stepBuild] at hs
    split at hs
    · rename_i snap hst
      have hfail : Inv (d.advance b (.failed true)) := hi.buildFail hbi fun _ => by rw [hst]; rfl
      split at hs
      · cases hs
        exact hfail
      · split at hs
        · cases hs
          exact hfail
        · cases hs
          exact hi.buildLoad hbi hst ‹_› ‹_›
    · cases hs
  | buildEnd =>
    simp only [Db.stepBuild] at hs
    split at hs
    · rename_i entries hst
      obtain ⟨h,hstep,rfl⟩ := Option.map_eq_some_iff.1 hs
      have hi' := hi.buildManaged hbi hstep fun x o he => by cases he; rfl
      exact hi'.advance ((hi'.build b hb).forward (fun _ => by rw [hst]; rfl) (by rw [hst]; rfl)
        nofun (by rw [hst]; rfl) rfl)
    · rename_i held hst
      obtain ⟨h,hstep,rfl⟩ := Option.map_eq_some_iff.1 hs
      have hi' := hi.buildManaged hbi hstep fun x o he => by cases he; rfl
      exact hi'.advance ((hi'.build b hb).fail (fun h => by rw [hst]; exact h) rfl nofun rfl)
    · cases hs
  | buildLeave =>
    simp only [Db.stepBuild] at hs
    split at hs
    · rename_i entries hst
      obtain ⟨h,hstep,rfl⟩ := Option.map_eq_some_iff.1 hs
      have hi' := hi.buildManaged hbi hstep nofun
      exact hi'.advance ((hi'.build b hb).forward (fun _ => by rw [hst]; rfl) (by rw [hst]; rfl)
        nofun (by rw [hst]; rfl) rfl)
    · rename_i held hst
      obtain ⟨h,hstep,rfl⟩ := Option.map_eq_some_iff.1 hs
      have hi' := hi.buildManaged hbi hstep nofun
      exact hi'.advance ((hi'.build b hb).fail (fun h => by rw [hst]; exact h) rfl nofun rfl)
    · cases hs
  | buildRelease =>
    simp only [Db.stepBuild] at hs
    split at hs
    · rename_i entries hst
      cases hs
      exact hi.advance (hbi.forward nofun (by rw [hst]; rfl) nofun (by rw [hst]; rfl) rfl)
    · cases hs
      exact { hi with build := nofun }
    · cases hs
  | buildPush =>
    simp only [Db.stepBuild] at hs
    split at hs <;> cases hs
    exact hi.register hbi ‹_›
  | buildFail =>
    simp only [Db.stepBuild] at hs
    split at hs <;> cases hs
    · exact hi.buildFail hbi nofun
    all_goals
      rename_i hst
      exact hi.buildFail hbi fun _ => by rw [hst]; rfl
  | engine a | lock x | start x | address x u | release x | createIndex c => cases hs

theorem Inv.engine (hi : Inv d) {a : Engine.Step K} {e : Table K} {schema : Schema K}
    (hok : Engine.NoFailedCommit d.table a) (hbuild : ∀ b ∈ d.build, a.actor ≠ some b.xid)
    (hwidth : ∀ row ∈ a.values, row.length = d.width) (hr : d.registry a = some schema)
    (hs : Engine.step schema d.table a = some e) :
    Inv { d with table := e, known := d.knownAfter a e } := by
  obtain ⟨rfl,hrow⟩ := hi.registry hr
  obtain ⟨values,applied,hinv,hg⟩ := hi.ghost
  have hok' : Engine.NoFailedCommit (d.table.ghost values applied) a := by
    cases a with
    | commit x => exact hok
    | act | insert | update | delete | maintain | beginAbort | undo | abort => trivial
  obtain ⟨values',applied',hstep,hg'⟩ := hg.follows hi.history hwidth hs
  have hinv' := Engine.step_inv hinv hok' hstep
  have hcases := Engine.step_written hi.history.snapshots.view.manager hs
  refine ⟨⟨values',applied',hinv',hg'⟩,fun w hw hact => ?_,
    fun x schema hx => hi.known x schema (knownAfter_eq hx),fun b hb => ?_⟩
  · rcases hcases with ⟨w',hactor,hgrown,hm⟩ | hu
    · rcases hgrown.mem_writes.1 hw with hw | hw
      · have hact' : w.xid ∈ e.history.heap.manager.active := hact
        rw [hm] at hact'
        exact hi.writers w hw hact'
      · cases hw
        exact (hrow w.xid hactor).1
    · have hw' : w ∈ d.table.history.writes := (hu.grown.mem_writes.1 hw).resolve_right nofun
      rcases hu.active w.xid hact with h | h
      · exact hi.writers w hw' h
      · exact absurd (hi.history.versions.writer w hw').2.1 (h ▸ lt_irrefl _)
  · have hbi := hi.build b hb
    rcases hcases with ⟨w',hactor,hgrown,-⟩ | hu
    · exact hbi.wrote hgrown (fun hx => hbuild b hb (hx ▸ actor_of_rowActor hactor))
        (hrow w'.xid hactor).2
    · refine hbi.kept hi.history hu fun hno x => ?_
      exact Option.eq_none_iff_forall_ne_some.2 fun schema hx =>
        absurd ((hno x).symm.trans (knownAfter_eq hx)) nofun

theorem step_inv {a : Step K} (hi : Inv d) (hok : Ordered d a) (hs : step d a = some d') :
    Inv d' := by
  cases a with
  | engine a =>
    simp only [step,Option.ite_none_left_eq_some,not_or,not_exists,not_and,not_not] at hs
    obtain ⟨⟨hbuild,hwidth⟩,hs⟩ := hs
    cases hr : d.registry a with
    | none =>
      rw [hr] at hs
      cases hs
    | some schema =>
      rw [hr] at hs
      obtain ⟨e,he,rfl⟩ := Option.map_eq_some_iff.1 hs
      exact hi.engine hok hbuild hwidth hr he
  | lock x =>
    obtain ⟨⟨-,hfree⟩,rfl⟩ := of_guard hs
    refine ⟨hi.ghost,fun w hw hact => List.mem_cons_of_mem _ (hi.writers w hw hact),
      fun y schema hy => ⟨(hi.known y schema hy).1,List.mem_cons_of_mem _ (hi.known y schema hy).2⟩,
      fun b hb => ?_⟩
    have hbi := hi.build b hb
    exact { hbi with exclusive := fun he => absurd ((hfree b hb).2.symm.trans he) nofun }
  | start x =>
    obtain ⟨⟨hlock,-⟩,rfl⟩ := of_guard hs
    refine ⟨hi.ghost,hi.writers,fun y schema hy => ?_,fun b hb => ?_⟩
    · change update d.known x (some d.schema) y = some schema at hy
      rcases of_update_eq hy with ⟨rfl,he⟩ | ⟨-,he⟩
      · exact ⟨(Option.some.inj he).symm,hlock⟩
      · exact hi.known y schema he
    · have hbi := hi.build b hb
      refine { hbi with quiet := fun hq => ?_ }
      have hexcl : b.stage.exclusive = true → False := fun he => by
        rw [hbi.exclusive he] at hlock
        cases hlock
      cases hst : b.stage with
      | locked | scanning | loaded | committed | left => exact (hexcl (by rw [hst]; rfl)).elim
      | released l => exact absurd ⟨b,hb,l,hst⟩ hok
      | waiting | failed | aborted | abandoned =>
        rw [hst] at hq
        cases hq
  | address x u =>
    obtain ⟨-,rfl⟩ := of_guard hs
    rwa [address_of_mem hok]
  | release x =>
    obtain ⟨hx,rfl⟩ := of_guard hs
    refine ⟨hi.ghost,fun w hw hact => ?_,fun y schema hy => ?_,fun b hb => ?_⟩
    · refine List.mem_filter.2 ⟨hi.writers w hw hact,decide_eq_true ?_⟩
      rintro rfl
      exact hx hact
    · change update d.known x none y = some schema at hy
      obtain ⟨-,⟨⟩⟩ | ⟨hyx,hy⟩ := of_update_eq hy
      exact ⟨(hi.known y schema hy).1,
        List.mem_filter.2 ⟨(hi.known y schema hy).2,decide_eq_true hyx⟩⟩
    · have hbi := hi.build b hb
      refine ⟨hbi.column,hbi.reader,fun he => ?_,fun hq => ⟨(hbi.quiet hq).1,fun y => ?_⟩,
        hbi.scanning,hbi.entries⟩
      · change d.rowLocks.filter _ = []
        rw [hbi.exclusive he]
        rfl
      · change update d.known x none y = none
        by_cases hyx : y = x
        · rw [hyx,update_self]
        · rw [update_of_ne hyx]
          exact (hbi.quiet hq).2 y
  | createIndex c =>
    obtain ⟨⟨-,hc⟩,h,hstep,rfl⟩ := of_guard_map hs
    have hi' := hi.managed hstep nofun
    have hw := (Engine.Unwritten.of_manager (e := d.table) hstep).grown
    refine { hi' with build := fun b hb => ?_ }
    cases hb
    refine ⟨hc,fun w hmem hx => ?_,nofun,nofun,nofun,nofun⟩
    have hmem' : w ∈ d.table.history.writes := (hw.mem_writes.1 hmem).resolve_right nofun
    exact absurd (hi.history.versions.writer w hmem').2.1 (hx ▸ lt_irrefl _)
  | buildLock | buildSnapshot | buildLoad | buildEnd | buildLeave | buildRelease | buildPush
  | buildFail =>
    obtain ⟨b,hb,hs⟩ := Option.bind_eq_some_iff.1 hs
    exact hi.stepBuild hb hs

theorem reach_inv (hr : Reach step Start Ordered d) : Inv d :=
  hr.invariant (fun _ => start_inv) fun _ _ _ hi hok hs => step_inv hi hok hs

/-- In every run in which no row operation starts between the release of a build's lock and the
registration of its index, the indexes agree with the rows whenever nothing is in progress. -/
theorem indexes_agree_at_rest (hr : Reach step Start Ordered d) (hrest : AtRest d) : Agrees d := by
  have hi := reach_inv hr
  obtain ⟨values,applied,hinv,hg⟩ := hi.ghost
  have hset : Settled d.table.history := fun w _ hact => by
    rw [hrest.2] at hact
    cases hact
  have hreads := reads_at_rest hi.history hset
  have hshown : ∀ v, d.table.history.heap.Shows d.table.freshSnapshot v →
      Current d.table.history v ∧ values v = d.table.values v := fun v hv => by
    have hcur := (shows_iff_current hi.history hreads fun w _ => committedIn_iff w).1 hv
    obtain ⟨hd,hh,-⟩ := hv
    refine ⟨hcur,(hg.values v hd hh).resolve_right ?_⟩
    rintro (⟨w,hw,hold,hst⟩ | ⟨w,hw,hnew,hst⟩)
    · exact hcur.2 w hw hold hst
    · obtain ⟨a,ha,hanew,hac⟩ := hcur.1
      obtain rfl := hi.history.versions.unique w hw a ha v hnew hanew
      exact absurd (hst.symm.trans hac) nofun
  intro c hc
  constructor
  · intro v key hv hkey
    obtain ⟨hcur,hval⟩ := hshown v hv
    have hkey' : ((d.table.ghost values applied).values v)[c]?.join = some key := by
      change (values v)[c]?.join = some key
      rw [hval]
      exact hkey
    refine ⟨d.table.root v,(current_root hinv hcur).1,hinv.mem_index_of_shown hv hc hkey' ?_⟩
    rintro ⟨x,hx,-⟩
    change x ∈ d.table.history.heap.manager.active at hx
    rw [hrest.2] at hx
    cases hx
  · intro key u hmem v hreach hv
    obtain ⟨-,hval⟩ := hshown v hv
    have hroot := (hinv.of_mem_index hmem).2
    have hsame := (hinv.roots.reach hinv.history hreach).2 c hc
    rw [← hval]
    change (values v)[c]?.join = some key
    change (values v)[c]? = (values u)[c]? at hsame
    rw [hsame]
    exact hroot

end Builds

end Steps

def RollsBack (d : Db K) : Step K → Prop
  | .engine a => Engine.NoFailedCommit d.table a
  | _ => True

instance (d : Db K) : (a : Step K) → Decidable (RollsBack d a)
  | .engine a => inferInstanceAs (Decidable (Engine.NoFailedCommit d.table a))
  | .lock _ | .start _ | .address .. | .release _ | .createIndex _ | .buildLock | .buildSnapshot
  | .buildLoad | .buildEnd | .buildLeave | .buildRelease | .buildPush | .buildFail =>
    .isTrue trivial

instance (d : Db K) : Decidable (Unregistered d) :=
  match h : d.build with
  | none => isFalse (by rintro ⟨b,hb,-⟩; rw [h] at hb; cases hb)
  | some b =>
    match hs : b.stage with
    | .released entries => isTrue ⟨b,h,entries,hs⟩
    | .waiting | .locked | .scanning _ | .loaded _ | .committed _ | .left _ | .failed _
    | .aborted _ | .abandoned _ => isFalse (by
        rintro ⟨b',hb',l,hl⟩
        rw [h] at hb'
        cases hb'
        rw [hs] at hl
        cases hl)

instance (d : Db K) : (a : Step K) → Decidable (Ordered d a)
  | .engine a => inferInstanceAs (Decidable (Engine.NoFailedCommit d.table a))
  | .start _ => inferInstanceAs (Decidable (¬Unregistered d))
  | .address xid tid => inferInstanceAs (Decidable (tid ∈ d.table.history.scanned xid))
  | .lock _ | .release _ | .createIndex _ | .buildLock | .buildSnapshot | .buildLoad | .buildEnd
  | .buildLeave | .buildRelease | .buildPush | .buildFail => .isTrue trivial

def fresh : Db ℕ := ⟨Engine.fresh,⟨[],List.nodup_nil,fun _ => true⟩,2,[],fun _ => none,none⟩

theorem fresh_start : Start fresh := ⟨Engine.fresh_start,rfl,rfl,fun _ => rfl,rfl⟩

def built (column : ℕ) : List (Step ℕ) :=
  [.createIndex column,.buildLock,.buildSnapshot,.buildLoad,.buildEnd,.buildLeave,.buildRelease]

def rowStart (xid : ℕ) : List (Step ℕ) :=
  [.engine (.act (.manager .beginTxn)),.engine (.act (.take xid)),.lock xid,
    .engine (.act (.statement xid)),.start xid]

def rowEnd (xid : ℕ) : List (Step ℕ) :=
  [.engine (.act (.manager (.leaveActive xid))),.release xid]

def oneRow (xid : ℕ) (ops : List (Engine.Step ℕ)) : List (Step ℕ) :=
  rowStart xid ++ ops.map .engine ++ [.engine (.commit xid)] ++ rowEnd xid

/-- The index on the first column is empty though the tuple is visible and has the key 7. -/
def Misses (d : Db ℕ) (tid : Tid) : Prop :=
  d.build.isNone = true ∧ d.table.history.heap.manager.active = [] ∧ 0 ∈ d.schema.columns ∧
    d.table.index = [] ∧ (d.table.history.heap.tuple tid).any
      (·.visible d.table.freshSnapshot d.table.history.heap.manager.getState) = true ∧
    (d.table.values tid)[0]?.join = some 7

instance (d : Db ℕ) (tid : Tid) : Decidable (Misses d tid) := inferInstanceAs (Decidable (_ ∧ _))

theorem Misses.not_agrees {d : Db ℕ} {tid : Tid} (h : Misses d tid) : AtRest d ∧ ¬Agrees d := by
  obtain ⟨hbuild,hact,hcol,hindex,hvis,hval⟩ := h
  refine ⟨⟨Option.isNone_iff_eq_none.1 hbuild,hact⟩,fun hagree => ?_⟩
  obtain ⟨hdr,hh,hshown⟩ := (Option.any_eq_true _ _).1 hvis
  obtain ⟨r,-,hmem⟩ := (hagree 0 hcol).1 tid 7 ⟨hdr,hh,hshown⟩ hval
  rw [hindex] at hmem
  cases hmem

/-- The steps are in order but for the rows that are named by their TIDs. -/
def RegistersInTime (d : Db K) : Step K → Prop
  | .address .. => True
  | a => Ordered d a

instance (d : Db K) : (a : Step K) → Decidable (RegistersInTime d a)
  | .address .. => .isTrue trivial
  | .engine a => inferInstanceAs (Decidable (Ordered d (.engine a)))
  | .start x => inferInstanceAs (Decidable (Ordered d (.start x)))
  | .lock _ | .release _ | .createIndex _ | .buildLock | .buildSnapshot | .buildLoad | .buildEnd
  | .buildLeave | .buildRelease | .buildPush | .buildFail => .isTrue trivial

/-- A row is committed before the index of a finished build is registered. Or an update names by its
TID a row whose inserter is still open and then rolls back. -/
theorem committed_row_not_indexed :
    (∃ d : Db ℕ, Reach step Start RollsBack d ∧ AtRest d ∧ ¬Agrees d) ∧
      ∃ d : Db ℕ, Reach step Start RegistersInTime d ∧ AtRest d ∧ ¬Agrees d := by
  have hbuild : ∃ d : Db ℕ, Reach step Start RollsBack d ∧ decide (Misses d ⟨1,0⟩) = true :=
    @exists_reach _ _ step Start RollsBack _ fresh fresh_start
      (built 0 ++ [.engine (.act (.extend 1))] ++ oneRow 2 [.insert 2 1 [some 7,some 1]] ++
        [.buildPush]) _ (by decide +kernel)
  have htid : ∃ d : Db ℕ, Reach step Start RegistersInTime d ∧ decide (Misses d ⟨1,1⟩) = true :=
    @exists_reach _ _ step Start RegistersInTime _ fresh fresh_start
      (built 0 ++ [.buildPush,.engine (.act (.extend 1))] ++ rowStart 2 ++
        [.engine (.insert 2 1 [some 7,some 1]),.engine (.maintain 2)] ++ rowStart 3 ++
        [.address 3 ⟨1,0⟩,.engine (.update 3 ⟨1,0⟩ 1 [some 7,some 2] [] true),
          .engine (.commit 3)] ++ rowEnd 3 ++
        [.engine (.beginAbort 2),.engine (.undo 2),.engine (.abort 2)] ++ rowEnd 2) _
      (by decide +kernel)
  obtain ⟨d,hr,hd⟩ := hbuild
  obtain ⟨d',hr',hd'⟩ := htid
  exact ⟨⟨d,hr,(of_decide_eq_true hd).not_agrees⟩,d',hr',(of_decide_eq_true hd').not_agrees⟩

/-- An index on a column that differs within a chain is built and registered in order. -/
theorem indexes_agree_over_chain :
    ∃ d : Db ℕ, Reach step Start Ordered d ∧ AtRest d ∧ Agrees d ∧ d.schema.columns = [0,1] ∧
      d.table.index = [⟨1,2,⟨1,0⟩⟩,⟨0,7,⟨1,0⟩⟩] := by
  have hrun : ∃ d : Db ℕ, Reach step Start Ordered d ∧
      decide (d.build.isNone = true ∧ d.table.history.heap.manager.active = [] ∧
        d.schema.columns = [0,1] ∧ d.table.index = [⟨1,2,⟨1,0⟩⟩,⟨0,7,⟨1,0⟩⟩]) = true :=
    @exists_reach _ _ step Start Ordered _ fresh fresh_start
      (built 0 ++ [.buildPush,.engine (.act (.extend 1))] ++
        oneRow 2 [.insert 2 1 [some 7,some 1],.maintain 2] ++
        oneRow 3 [.update 3 ⟨1,0⟩ 1 [some 7,some 2] [] true] ++ built 1 ++ [.buildPush]) _
      (by decide +kernel)
  obtain ⟨d,hr,hd⟩ := hrun
  obtain ⟨hbuild,hact,hcols,hindex⟩ := of_decide_eq_true hd
  have hrest : AtRest d := ⟨Option.isNone_iff_eq_none.1 hbuild,hact⟩
  exact ⟨d,hr,hrest,indexes_agree_at_rest hr hrest,hcols,hindex⟩

end IndexBuild
end PgAm
