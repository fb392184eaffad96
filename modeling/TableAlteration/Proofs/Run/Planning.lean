import TableAlteration.Proofs.Run.Commit

namespace TableAlteration

/-- Whether a write has failed. -/
def AlterError.isWriteFailure : AlterError → Bool
  | physicalCreateFailed .. | dataCopyFailed .. | swapFailed .. | catalogWriteFailed .. => true
  | _ => false

namespace Run

variable {α β : Type} {m : Run α} {f : α → Run β}

/-- Only writes fail in the run. -/
def FailsInWrites (m : Run α) : Prop :=
  ∀ w e w', m w = (.error e, w') → e.isWriteFailure

/-- All other failures come before the first write. -/
def FailsFirst (m : Run α) : Prop :=
  ∀ w e w', m w = (.error e, w') → e.isWriteFailure = false → w'.still = w.still

namespace FailsInWrites

/-- What cannot fail fails in writes only. -/
theorem of_ok (h : ∀ w, ∃ a w', m w = (.ok a, w')) : m.FailsInWrites := by
  intro w e w' he
  obtain ⟨a, w1, hok⟩ := h w
  rw [hok] at he
  cases he

theorem pure (a : α) : FailsInWrites (Pure.pure a : Run α) := of_ok fun _ => ⟨_, _, rfl⟩

theorem note (e : Event) : FailsInWrites (Run.note e) := of_ok fun _ => ⟨_, _, rfl⟩

theorem database : FailsInWrites Run.database := of_ok fun _ => ⟨_, _, rfl⟩

theorem clock : FailsInWrites Run.clock := of_ok fun _ => ⟨_, _, rfl⟩

theorem ask {request : Answer α} {wrap : BackendError → AlterError}
    (h : ∀ s, (wrap s).isWriteFailure) : FailsInWrites (Run.ask request wrap) := by
  intro w e w' he
  obtain ⟨s, db, -, rfl, -⟩ := ask_eq_error.1 he
  exact h s

theorem bind (hm : m.FailsInWrites) (hf : ∀ a, (f a).FailsInWrites) :
    (m >>= f).FailsInWrites := by
  intro w e w' h
  rcases bind_eq_error.1 h with h | ⟨a, w1, -, h⟩
  · exact hm w e w' h
  · exact hf a w1 e w' h

theorem orCleanUp {cleanup : AlterError → Run Unit} (hm : m.FailsInWrites) :
    (m.orCleanUp cleanup).FailsInWrites := by
  intro w e w' h
  obtain ⟨w1, h1, -⟩ := orCleanUp_eq_error.1 h
  exact hm w e w1 h1

end FailsInWrites

namespace FailsFirst

theorem of_failsInWrites (hm : m.FailsInWrites) : m.FailsFirst := by
  intro w e w' h he
  rw [hm w e w' h] at he
  cases he

/-- Writing may begin behind what writes nothing. -/
theorem bind_preliminary (hm : m.Preliminary) (hf : ∀ a, (f a).FailsFirst) :
    (m >>= f).FailsFirst := by
  intro w e w' h he
  rcases bind_eq_error.1 h with h | ⟨a, w1, h1, h⟩
  · exact hm.still_eq h
  · exact (hf a w1 e w' h he).trans (hm.still_eq h1)

/-- Behind a write only writes may fail. -/
theorem bind (hm : m.FailsFirst) (hf : ∀ a, (f a).FailsInWrites) : (m >>= f).FailsFirst := by
  intro w e w' h he
  rcases bind_eq_error.1 h with h | ⟨a, w1, -, h⟩
  · exact hm w e w' h he
  · rw [hf a w1 e w' h] at he
    cases he

theorem orCleanUp {cleanup : AlterError → Run Unit} (hm : m.FailsFirst)
    (hc : ∀ e, (cleanup e).Preliminary) : (m.orCleanUp cleanup).FailsFirst := by
  intro w e w' h he
  obtain ⟨w1, h1, rfl⟩ := orCleanUp_eq_error.1 h
  exact ((hc e).still w1).trans (hm w e w1 h1 he)

end FailsFirst

end Run

open Run (Preliminary FailsInWrites FailsFirst)

section Writes

theorem enterStage_failsInWrites (table : String) (s : Stage) :
    (enterStage table s).FailsInWrites := .note _

theorem storeExtended_failsInWrites (settings : Settings) (t : Table) :
    (storeExtended settings t).FailsInWrites := by
  unfold storeExtended
  split
  · exact .ask fun _ => rfl
  · exact .pure ()

theorem storeFields_failsInWrites (table : String) (l : List (Nat × Field)) :
    (storeFields table l).FailsInWrites := by
  induction l with
  | nil => exact .pure ()
  | cons x rest ih => exact .bind (.ask fun _ => rfl) fun _ => ih

theorem updateInPlace_failsInWrites (settings : Settings) (d : Draft) (needs : Requirements) :
    (updateInPlace settings d needs).FailsInWrites := by
  refine .bind (storeFields_failsInWrites _ _) fun _ => ?_
  split
  · exact .bind (storeExtended_failsInWrites _ _) fun _ => .bind (.note _) fun _ => .pure _
  · exact .bind (.note _) fun _ => .pure _

theorem copyData_failsInWrites (temporary : String) (plan : CopyPlan) :
    (copyData temporary plan).FailsInWrites := by
  unfold copyData
  split
  · exact .note _
  · exact .bind .database fun db => .bind (.note _) fun _ => .bind (.ask fun _ => rfl) fun _ =>
      .pure ()

theorem copyAndSwap_failsInWrites (table temporary : String) (d : Draft) :
    (copyAndSwap table temporary d).FailsInWrites :=
  .bind .clock fun _ => .bind (copyData_failsInWrites _ _) fun _ =>
    .bind (enterStage_failsInWrites _ _) fun _ => .bind (.ask fun _ => rfl) fun _ =>
      enterStage_failsInWrites _ _

/-- A rebuild looks for a free name before it writes. -/
theorem rebuild_failsFirst (settings : Settings) (table : String) (d : Draft) :
    (rebuild settings table d).FailsFirst := by
  refine .bind_preliminary (freeName_preliminary settings table) fun temporary =>
    .of_failsInWrites ?_
  exact .bind (.ask fun _ => rfl) fun _ => .bind (enterStage_failsInWrites _ _) fun _ =>
    .bind (copyAndSwap_failsInWrites _ _ _).orCleanUp fun _ => .bind (.ask fun _ => rfl) fun _ =>
      .bind (storeExtended_failsInWrites _ _) fun _ => .bind (.note _) fun _ => .pure _

end Writes

namespace Alteration

variable {a : Alteration} {table : String} {w w' : World} {e : AlterError} {o : Outcome}

theorem commit_failsFirst (settings : Settings) (table : String) (t : Table) (r : Reduction)
    (s : Strategy) : (commit settings table t r s).FailsFirst := by
  refine .bind_preliminary (.lift (edited_noRebuild t r.ordered)) fun d =>
    .bind_preliminary (enterStage_preliminary _ _) fun _ => ?_
  cases s with
  | rebuild =>
    exact .bind (rebuild_failsFirst _ _ _) fun _ => .bind (enterStage_failsInWrites _ _) fun _ =>
      .pure _
  | inPlace =>
    exact .of_failsInWrites (.bind (updateInPlace_failsInWrites _ _ _) fun _ =>
      .bind (enterStage_failsInWrites _ _) fun _ => .pure _)

theorem proceed_failsFirst (a : Alteration) (table : String) (x : Preparation) :
    (a.proceed table x).FailsFirst := by
  unfold proceed
  split
  · exact .of_failsInWrites (.pure _)
  · exact .bind (commit_failsFirst _ _ _ _ _) fun _ => .pure _

theorem estimate_preliminary (table : String) (l : List Planned) :
    (estimate table l).Preliminary :=
  .bind (enterStage_preliminary _ _) fun _ => .bind (.note _) fun _ => .pure _

/-- A failure is reported, and no more. -/
theorem report_preliminary (table : String) (e : AlterError) :
    (do
      enterStage table .failed
      Run.note ⟨.debug, "alter table failed", [("table", table), ("error", e.message)]⟩ :
        Run Unit).Preliminary :=
  .bind (enterStage_preliminary _ _) fun _ => .note _

theorem execute_preliminary {mode : Mode} (h : mode ≠ .commit) (a : Alteration) (table : String) :
    (a.execute table mode).Preliminary := by
  refine .orCleanUp ?_ (report_preliminary table)
  cases mode with
  | commit => exact absurd rfl h
  | simulate =>
    rw [run_simulate]
    exact .bind (prepare_preliminary a table) fun x => .pure _
  | requirementsOnly =>
    exact .bind (enterStage_preliminary _ _) fun _ => .bind (openTable_preliminary table) fun _ =>
      .bind (plan_preliminary a) fun l => estimate_preliminary table l

theorem execute_failsFirst (a : Alteration) (table : String) :
    (a.execute table .commit).FailsFirst := by
  refine .orCleanUp ?_ (report_preliminary table)
  rw [run_commit]
  exact .bind_preliminary (prepare_preliminary a table) fun x => proceed_failsFirst a table x

/-- Without remaining edits nothing is needed. -/
theorem strategy_of_ordered_nil {r : Reduction} (h : r.ordered = []) :
    r.requirements = .none ∧ Strategy.for? r.requirements = none := by
  have hperm : r.ordered.Perm r.toList := inOrder_perm r.toList
  rw [h] at hperm
  have hneeds : r.requirements = .none := by
    rw [Reduction.requirements, hperm.nil_eq.symm]
    rfl
  exact ⟨hneeds, by rw [hneeds]; rfl⟩

/-- A table of a database that can be altered is opened. -/
theorem openTable_ok {t : Table} {db : Database} (hwritable : w.database.readOnly = false)
    (huse : w.database.inUse) (h : Database.tableSchema table w.database = (.ok (some t), db)) :
    openTable table w = (.ok t, { w with database := db }) := by
  refine Run.bind_eq_ok.2 ⟨w.database, w, rfl, ?_⟩
  rw [if_neg (by simp [hwritable]), if_neg (by simp [huse])]
  exact Run.bind_eq_ok.2 ⟨some t, _, Run.ask_eq_ok.2 ⟨db, h, rfl⟩, rfl⟩

theorem reduce_ok {l : List Planned} {r : Reduction} (h : Reduction.of l = .ok r)
    (table : String) (w : World) : (reduce table l w).1 = .ok r := by
  have hlift : Run.lift (Reduction.of l) = (pure r : Run Reduction) := by
    rw [h]
    rfl
  rw [reduce, hlift]
  rfl

theorem prepare_ok {t : Table} {l : List Planned} {r : Reduction} {db : Database}
    (hwritable : w.database.readOnly = false) (huse : w.database.inUse)
    (h : Database.tableSchema table w.database = (.ok (some t), db))
    (hl : planAll a.actions = .ok l) (hr : Reduction.of l = .ok r) :
    ∃ w', a.prepare table w = (.ok ⟨t, l, r⟩, w') := by
  obtain ⟨w1, h1⟩ : ∃ w1, enterStage table .planning w = (.ok (), w1) := ⟨_, rfl⟩
  have hdb : w1.database = w.database := by
    cases h1
    rfl
  rw [← hdb] at hwritable huse h
  have h2 := openTable_ok hwritable huse h
  have h3 := Run.eq_of_fst (show (a.plan { w1 with database := db }).1 = .ok l from hl)
  have h4 := Run.eq_of_fst (reduce_ok hr table (a.plan { w1 with database := db }).2)
  exact ⟨_, Run.bind_eq_ok.2 ⟨(), w1, h1, Run.bind_eq_ok.2 ⟨t, _, h2,
    Run.bind_eq_ok.2 ⟨l, _, h3, Run.bind_eq_ok.2 ⟨r, _, h4, rfl⟩⟩⟩⟩⟩

/-- A commit for which nothing is needed ends with its preparation. -/
theorem execute_of_prepare {x : Preparation} {w1 : World}
    (h : a.prepare table w = (.ok x, w1)) (hs : Strategy.for? x.reduction.requirements = none) :
    a.execute table .commit w = (.ok (.planned x.table x.submitted x.reduction), w1) := by
  refine Run.orCleanUp_eq_ok.2 ?_
  rw [run_commit]
  refine Run.bind_eq_ok.2 ⟨x, w1, h, ?_⟩
  rw [proceed, hs]
  rfl

/-- And so does every simulation. -/
theorem simulate_of_prepare {x : Preparation} {w1 : World}
    (h : a.prepare table w = (.ok x, w1)) :
    a.execute table .simulate w = (.ok (.planned x.table x.submitted x.reduction), w1) := by
  refine Run.orCleanUp_eq_ok.2 ?_
  rw [run_simulate]
  exact Run.bind_eq_ok.2 ⟨x, w1, h, rfl⟩

/-- A commit without remaining edits writes nothing, whether the table can be opened or not. -/
theorem execute_idle {l : List Planned} {r : Reduction} (hl : planAll a.actions = .ok l)
    (hr : Reduction.of l = .ok r) (hidle : r.ordered = []) (w : World) :
    (a.execute table .commit w).2.still = w.still := by
  have hprepare := (prepare_preliminary a table).still w
  match h : a.prepare table w with
  | (.ok x, w1) =>
    obtain ⟨-, hl', hr'⟩ := prepare_eq_ok h
    rw [hl] at hl'
    cases hl'
    rw [hr] at hr'
    cases hr'
    rw [execute_of_prepare h (strategy_of_ordered_nil hidle).2]
    rwa [h] at hprepare
  | (.error e, w1) =>
    have hrun : a.run table .commit w = (.error e, w1) := by
      rw [run_commit]
      exact Run.bind_eq_error.2 (.inl h)
    have hexecute : a.execute table .commit w = (.error e, _) :=
      Run.orCleanUp_eq_error.2 ⟨w1, hrun, rfl⟩
    rw [hexecute]
    rw [h] at hprepare
    exact ((report_preliminary table e).still w1).trans hprepare

/-- But for the definition a commit has the outcome that its preparation promises. -/
theorem proceed_outcome {x : Preparation} (h : a.proceed table x w = (.ok o, w')) :
    { o with table := some x.table } = Outcome.planned x.table x.submitted x.reduction := by
  dsimp only [proceed] at h
  cases hs : Strategy.for? x.reduction.requirements with
  | none =>
    rw [hs] at h
    cases h
    rfl
  | some s =>
    rw [hs] at h
    obtain ⟨altered, w1, -, h⟩ := Run.bind_eq_ok.1 h
    cases h
    rfl

/-- Nothing is written in a simulation, when only the requirements are asked for, in a commit that
fails in no write, and in a commit without remaining edits, which has the old definition as its
outcome. What a commit does, a simulation foretells. -/
theorem planning_never_writes (a : Alteration) (table : String) (w : World) :
    (∀ mode, mode ≠ .commit →
      (a.execute table mode w).2.database.unprobed = w.database.unprobed) ∧
    (∀ e w', a.execute table .commit w = (.error e, w') → e.isWriteFailure = false →
      w'.database.unprobed = w.database.unprobed) ∧
    (∀ l r, planAll a.actions = .ok l → Reduction.of l = .ok r → r.ordered = [] →
      (a.execute table .commit w).2.database.unprobed = w.database.unprobed ∧
      ∀ t db, w.database.readOnly = false → w.database.inUse →
        Database.tableSchema table w.database = (.ok (some t), db) →
        (a.execute table .commit w).1 = .ok ⟨.none, none, some t, [], l.length, 0⟩) ∧
    ∀ o w', a.execute table .commit w = (.ok o, w') →
      ∃ t w'', (∃ db, Database.tableSchema table w.database = (.ok (some t), db)) ∧
        a.execute table .simulate w = (.ok { o with table := some t }, w'') := by
  refine ⟨fun mode hmode => ?_, fun e w' h he => ?_, fun l r hl hr hidle => ⟨?_, ?_⟩,
    fun o w' h => ?_⟩
  · exact World.unprobed_of_still ((execute_preliminary hmode a table).still w)
  · exact World.unprobed_of_still (execute_failsFirst a table w e w' h he)
  · exact World.unprobed_of_still (execute_idle hl hr hidle w)
  · intro t db hwritable huse hlookup
    obtain ⟨hneeds, hs⟩ := strategy_of_ordered_nil hidle
    obtain ⟨w1, hprepare⟩ := prepare_ok hwritable huse hlookup hl hr
    rw [execute_of_prepare hprepare hs, Outcome.planned, hneeds, hidle]
    rfl
  · have h := Run.orCleanUp_eq_ok.1 h
    rw [run_commit] at h
    obtain ⟨x, w1, hprepare, h⟩ := Run.bind_eq_ok.1 h
    refine ⟨x.table, w1, (prepare_eq_ok hprepare).1, ?_⟩
    rw [proceed_outcome h]
    exact simulate_of_prepare hprepare

/-- A database that cannot say which names are taken. -/
def muteWorld : World where
  database := ({ failing := [.tableExists] } : Database).withTable
    ⟨"t", [{ name := "a", type := .byte }], []⟩
  clock := newYear
  suffixes := fun _ => 7

/-- There a rebuild fails before its first write; and what is edited in place, or not at all, has
been foretold. -/
theorem planning_never_writes_when_mute :
    (∃ w', execute { actions := [.rename ⟨0⟩ "a" "b"] } "t" .commit muteWorld =
        (.error (.backend (.other FailPoint.tableExists.message)), w') ∧
      w'.database.unprobed = muteWorld.database.unprobed) ∧
    (∃ w', execute { actions := [.rename ⟨0⟩ "a" "b", .rename ⟨0⟩ "b" "a"] } "t" .commit
        muteWorld = (.ok ⟨.none, none, some ⟨"t", [{ name := "a", type := .byte }], []⟩, [], 2, 0⟩,
          w') ∧
      w'.database.unprobed = muteWorld.database.unprobed) ∧
    ∃ o t w' w'', execute { actions := [.change ⟨0⟩ "a" "caption" (.text "x")] } "t" .commit
        muteWorld = (.ok o, w') ∧ o.strategy = some .inPlace ∧
      execute { actions := [.change ⟨0⟩ "a" "caption" (.text "x")] } "t" .simulate muteWorld =
        (.ok { o with table := some t }, w'') := by
  refine ⟨?_, ?_, ?_⟩
  · have h : (execute { actions := [.rename ⟨0⟩ "a" "b"] } "t" .commit muteWorld).1 =
        .error (.backend (.other FailPoint.tableExists.message)) := rfl
    have hrun := Run.eq_of_fst h
    exact ⟨_, hrun, (planning_never_writes _ "t" muteWorld).2.1 _ _ hrun rfl⟩
  · obtain ⟨-, -, hidle, -⟩ := planning_never_writes
      { actions := [.rename ⟨0⟩ "a" "b", .rename ⟨0⟩ "b" "a"] } "t" muteWorld
    obtain ⟨hstill, houtcome⟩ := hidle _ _ rfl rfl rfl
    exact ⟨_, Run.eq_of_fst (houtcome _ _ rfl rfl rfl), hstill⟩
  · obtain ⟨o, h, hs⟩ := map_eq_ok.1 (show (execute
      { actions := [.change ⟨0⟩ "a" "caption" (.text "x")] } "t" .commit muteWorld).1.map
        (·.strategy) = .ok (some .inPlace) by decide +kernel)
    have hrun := Run.eq_of_fst h
    obtain ⟨t, w'', -, hsimulate⟩ := (planning_never_writes _ "t" muteWorld).2.2.2 _ _ hrun
    exact ⟨o, t, _, w'', hrun, hs, hsimulate⟩

end Alteration

end TableAlteration
