import TableAlteration.Proofs.Edit.Refusals
import TableAlteration.Proofs.Run.Basic
import TableAlteration.Run.Alteration

namespace TableAlteration

open Run (Preliminary)

theorem enterStage_preliminary (table : String) (s : Stage) : (enterStage table s).Preliminary :=
  .note _

theorem tableExists_preliminary (name : String) :
    (Run.ask (Database.tableExists name) .backend).Preliminary := by
  apply Preliminary.ask
  intro db
  unfold Database.tableExists
  simp only
  split <;> rfl

theorem tableSchema_preliminary (name : String) :
    (Run.ask (Database.tableSchema name) .backend).Preliminary := by
  apply Preliminary.ask
  intro db
  unfold Database.tableSchema
  split
  · split
    · rfl
    · split <;> rfl
  · split <;> rfl

theorem isFree_preliminary (name : String) : (isFree name).Preliminary := by
  refine .bind (tableExists_preliminary name) fun taken => ?_
  split
  · exact .pure false
  · exact .bind (tableSchema_preliminary name) fun known => .pure _

theorem freeName?_preliminary (table middle : String) (n : Nat) :
    (freeName? table middle n).Preliminary := by
  induction n with
  | zero => exact .pure none
  | succ n ih =>
    refine .bind .draw fun suffix => .bind (isFree_preliminary _) fun free => ?_
    split
    · exact .pure _
    · exact .bind (.note _) fun _ => ih

theorem freeName_preliminary (settings : Settings) (table : String) :
    (freeName settings table).Preliminary := by
  refine .bind (freeName?_preliminary _ _ _) fun name => ?_
  split
  · exact .pure _
  · exact .fail rfl

theorem openTable_preliminary (table : String) : (Alteration.openTable table).Preliminary := by
  refine .bind .database fun db => ?_
  split
  · exact .fail rfl
  · split
    · exact .fail rfl
    · refine .bind (tableSchema_preliminary table) fun t => ?_
      split
      · exact .pure _
      · exact .fail rfl

theorem plan_preliminary (a : Alteration) : a.plan.Preliminary :=
  .bind (.noteAll _) fun _ => .bind (.noteAll _) fun _ => .lift (planFrom_noRebuild 0 a.actions)

theorem reduce_preliminary (table : String) (l : List Planned) :
    (Alteration.reduce table l).Preliminary :=
  .bind (.noteAll _) fun _ => .bind (.lift (Reduction.of_noRebuild l)) fun _ =>
    .bind (enterStage_preliminary _ _) fun _ => .bind (.note _) fun _ => .pure _

theorem edited_noRebuild (t : Table) (l : List Planned) : NoRebuild (Alteration.edited t l) :=
  .bind (Draft.applyAll_noRebuild _ _) fun d => d.finish_noRebuild

/-- What a run knows before anything is written. -/
structure Preparation where
  table : Table
  submitted : List Planned
  reduction : Reduction

namespace Alteration

def prepare (a : Alteration) (table : String) : Run Preparation := do
  enterStage table .planning
  let t ← openTable table
  let l ← a.plan
  let r ← reduce table l
  return ⟨t, l, r⟩

/-- The rest of a commit. -/
def proceed (a : Alteration) (table : String) (x : Preparation) : Run Outcome :=
  match Strategy.for? x.reduction.requirements with
  | none => return Outcome.planned x.table x.submitted x.reduction
  | some s => do
    let altered ← commit a.settings table x.table x.reduction s
    return { Outcome.planned x.table x.submitted x.reduction with table := some altered }

theorem run_simulate (a : Alteration) (table : String) :
    a.run table .simulate =
      a.prepare table >>= fun x => pure (.planned x.table x.submitted x.reduction) := by
  simp only [run, prepare, Run.bind_assoc, Run.pure_bind]

theorem run_commit (a : Alteration) (table : String) :
    a.run table .commit = a.prepare table >>= a.proceed table := by
  simp only [run, prepare, Run.bind_assoc, Run.pure_bind]
  rfl

theorem prepare_preliminary (a : Alteration) (table : String) : (a.prepare table).Preliminary :=
  .bind (enterStage_preliminary _ _) fun _ => .bind (openTable_preliminary table) fun _ =>
    .bind (plan_preliminary a) fun l => .bind (reduce_preliminary table l) fun _ => .pure _

end Alteration

section Names

variable {table middle name : String} {w w' : World} {db db' : Database}

theorem tableExists_eq_false (h : Database.tableExists name db = (.ok false, db')) :
    db.hasTable name = false := by
  unfold Database.tableExists at h
  simp only at h
  split at h
  · cases h
  · have h' := Except.ok.inj (Prod.mk.inj h).1
    rw [Bool.or_eq_false_iff] at h'
    have hfree := h'.2
    unfold Database.isTaken at hfree
    exact (Bool.or_eq_false_iff.1 hfree).2

theorem tableSchema_eq_none (h : Database.tableSchema name db = (.ok none, db')) :
    db.catalog.table? name = none := by
  unfold Database.tableSchema at h
  split at h
  · split at h
    · cases h
    · split at h
      · cases h
      · exact Except.ok.inj (Prod.mk.inj h).1
  · split at h
    · cases h
    · exact Except.ok.inj (Prod.mk.inj h).1

/-- Neither the database nor the catalog knows the name. -/
def Database.IsFree (db : Database) (name : String) : Prop :=
  db.hasTable name = false ∧ db.catalog.table? name = none

theorem Database.isFree_congr (h : db'.content = db.content) :
    db'.IsFree name ↔ db.IsFree name := by
  unfold IsFree hasTable
  rw [tables_of_content h, catalog_of_content h]

theorem Database.IsFree.get?_tables (h : db.IsFree name) :
    db.tables.get? (Text.fold name) = none := by
  have hno := h.1
  unfold hasTable Dict.contains at hno
  simpa using hno

theorem isFree_eq_true (h : isFree name w = (.ok true, w')) : w.database.IsFree name := by
  obtain ⟨taken, w1, h1, h⟩ := Run.bind_eq_ok.1 h
  have hc := (tableExists_preliminary name).content_eq h1
  obtain ⟨db, hdb, rfl⟩ := Run.ask_eq_ok.1 h1
  cases taken with
  | true => cases h
  | false =>
    obtain ⟨known, w2, h2, h⟩ := Run.bind_eq_ok.1 h
    obtain ⟨db2, hdb2, rfl⟩ := Run.ask_eq_ok.1 h2
    cases known with
    | some t => cases h
    | none =>
      refine ⟨tableExists_eq_false hdb, ?_⟩
      rw [← Database.catalog_of_content hc]
      exact tableSchema_eq_none hdb2

theorem freeName?_eq_some {n : Nat} (h : freeName? table middle n w = (.ok (some name), w')) :
    w.database.IsFree name ∧ ∃ i, name = temporaryName table middle (w.suffixes i) := by
  induction n generalizing w with
  | zero => cases h
  | succ n ih =>
    obtain ⟨suffix, w1, h1, h⟩ := Run.bind_eq_ok.1 h
    cases h1
    obtain ⟨free, w2, h2, h⟩ := Run.bind_eq_ok.1 h
    have hc := (isFree_preliminary _).content_eq h2
    have hs := (isFree_preliminary (temporaryName table middle (w.suffixes w.drawn))).suffixes
      { w with drawn := w.drawn + 1 }
    rw [h2] at hs
    cases free with
    | true =>
      cases h
      have hfree := isFree_eq_true h2
      exact ⟨hfree, w.drawn, rfl⟩
    | false =>
      obtain ⟨u, w3, h3, h⟩ := Run.bind_eq_ok.1 h
      cases h3
      obtain ⟨hfree, i, hi⟩ := ih h
      refine ⟨(Database.isFree_congr hc).1 hfree, i, ?_⟩
      have hs : w2.suffixes = w.suffixes := hs
      change name = temporaryName table middle (w2.suffixes i) at hi
      rw [hi, hs]

theorem freeName_eq_ok {settings : Settings} (h : freeName settings table w = (.ok name, w')) :
    w.database.IsFree name ∧
      ∃ i, name = temporaryName table settings.tempNameInfix (w.suffixes i) := by
  obtain ⟨found, w1, h1, h⟩ := Run.bind_eq_ok.1 h
  cases found with
  | none => cases h
  | some n =>
    cases h
    exact freeName?_eq_some h1

end Names

end TableAlteration
