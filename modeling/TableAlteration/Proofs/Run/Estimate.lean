import TableAlteration.Proofs.Run.Planning

namespace TableAlteration

namespace Requirements

variable {r s t : Requirements} {k l : List Requirements}

/-- Containment is containment of each flag. -/
theorem contains_iff : r.contains s ↔ (s.physical → r.physical) ∧
    (s.conversion → r.conversion) ∧ (s.main → r.main) ∧ (s.extended → r.extended) := by
  have hor : ∀ a b : Bool, ((a || b) = a) ↔ (b → a) := by decide
  obtain ⟨a, b, c, d⟩ := r
  obtain ⟨a', b', c', d'⟩ := s
  simp only [contains, decide_eq_true_eq, join, mk.injEq, hor]

theorem contains_trans (h : r.contains s) (h' : s.contains t) : r.contains t := by
  rw [contains_iff] at h h' ⊢
  obtain ⟨h1, h2, h3, h4⟩ := h
  obtain ⟨k1, k2, k3, k4⟩ := h'
  exact ⟨fun x => h1 (k1 x), fun x => h2 (k2 x), fun x => h3 (k3 x), fun x => h4 (k4 x)⟩

theorem join_contains_left (r s : Requirements) : (r.join s).contains r := by
  rw [contains_iff]
  simp +contextual [join]

theorem join_contains_right (r s : Requirements) : (r.join s).contains s := by
  rw [contains_iff]
  simp +contextual [join]

theorem contains_join (h : r.contains s) (h' : r.contains t) : r.contains (s.join t) := by
  rw [contains_iff] at h h' ⊢
  obtain ⟨h1, h2, h3, h4⟩ := h
  obtain ⟨k1, k2, k3, k4⟩ := h'
  simp only [join, Bool.or_eq_true, or_imp]
  exact ⟨⟨h1, k1⟩, ⟨h2, k2⟩, ⟨h3, k3⟩, ⟨h4, k4⟩⟩

theorem contains_none (r : Requirements) : r.contains none := by
  rw [contains_iff]
  simp [none]

theorem all_contains_of_mem (h : s ∈ l) : (all l).contains s := by
  induction l with
  | nil => cases h
  | cons t l ih =>
    rcases List.mem_cons.1 h with rfl | h
    · exact join_contains_left s (all l)
    · exact contains_trans (join_contains_right t (all l)) (ih h)

/-- The joined requirements are the least that contain each of them. -/
theorem contains_all (h : ∀ s ∈ l, r.contains s) : r.contains (all l) := by
  induction l with
  | nil => exact contains_none r
  | cons t l ih =>
    exact contains_join (h t List.mem_cons_self)
      (ih fun s hs => h s (List.mem_cons_of_mem t hs))

theorem all_contains_all (h : ∀ s ∈ k, s ∈ l) : (all l).contains (all k) :=
  contains_all fun s hs => all_contains_of_mem (h s hs)

end Requirements

/-- What the planned edits need together. -/
def needs (l : List Planned) : Requirements := Requirements.all (l.map (·.requirements))

section Needs

variable {actions fewer : List Action} {l : List Planned} {r : Reduction}

/-- Fewer edits need no more. -/
theorem needs_of_fewer (h : ∀ a ∈ fewer, a ∈ actions) (hl : planAll actions = .ok l) :
    ∃ l', planAll fewer = .ok l' ∧ (needs l).contains (needs l') := by
  have hplanned : ∀ a ∈ actions, ∃ p ∈ l, p.action = a ∧ a.requirements = .ok p.requirements := by
    intro a ha
    rw [← planAll_actions hl] at ha
    obtain ⟨p, hp, rfl⟩ := List.mem_map.1 ha
    exact ⟨p, hp, rfl, planFrom_requirements hl p hp⟩
  obtain ⟨l', hl'⟩ : ∃ l', planAll fewer = .ok l' := by
    refine planFrom_ok (fun a ha => ?_) 0
    obtain ⟨p, -, -, hreq⟩ := hplanned a (h a ha)
    exact ⟨p.requirements, hreq⟩
  refine ⟨l', hl', Requirements.all_contains_all fun s hs => ?_⟩
  obtain ⟨q, hq, rfl⟩ := List.mem_map.1 hs
  have hmem : q.action ∈ fewer := by
    rw [← planAll_actions hl']
    exact List.mem_map_of_mem hq
  obtain ⟨p, hp, -, hreq⟩ := hplanned q.action (h q.action hmem)
  have hsame : p.requirements = q.requirements :=
    Except.ok.inj (hreq.symm.trans (planFrom_requirements hl' q hq))
  rw [← hsame]
  exact List.mem_map_of_mem hp

/-- The edits that remain need nothing that the submitted ones did not need. -/
theorem needs_of_reduction (hr : Reduction.of l = .ok r) : (needs l).contains r.requirements := by
  refine Requirements.all_contains_all fun s hs => ?_
  obtain ⟨q, hq, rfl⟩ := List.mem_map.1 hs
  obtain ⟨p, hp, e⟩ := Reduction.bare_of_mem_ordered hr (mem_inOrder.2 hq)
  have hsame : q.bare.requirements = p.bare.requirements := by rw [e]
  exact List.mem_map.2 ⟨p, hp, hsame.symm⟩

/-- Nothing has to be done exactly if no edit remains. -/
theorem strategy_eq_none_iff (hl : planAll actions = .ok l) (hr : Reduction.of l = .ok r) :
    Strategy.for? r.requirements = none ↔ r.ordered = [] :=
  ⟨fun h => Reduction.ordered_eq_nil hl hr (Strategy.eq_none_of_idle h),
    fun h => (Alteration.strategy_of_ordered_nil h).2⟩

end Needs

/-- The database can be altered, and its catalog knows the table. -/
def Database.Opens (db : Database) (table : String) : Prop :=
  db.readOnly = false ∧ db.inUse ∧ ∃ t db', Database.tableSchema table db = (.ok (some t), db')

namespace Alteration

variable {a : Alteration} {table : String} {w w' : World} {o : Outcome}

theorem run_requirementsOnly (a : Alteration) (table : String) :
    a.run table .requirementsOnly = (do
      enterStage table .planning
      let _ ← openTable table
      let l ← a.plan
      estimate table l) := rfl

/-- An estimate is the one of the planned edits, and there is one for each accepted list. -/
theorem estimate_eq_ok : (∃ w', a.execute table .requirementsOnly w = (.ok o, w')) ↔
    w.database.Opens table ∧
      ∃ l, planAll a.actions = .ok l ∧ o = ⟨needs l, none, none, [], l.length, l.length⟩ := by
  constructor
  · intro h
    obtain ⟨w', h⟩ := h
    have h := Run.orCleanUp_eq_ok.1 h
    rw [run_requirementsOnly] at h
    obtain ⟨u, w1, h1, h⟩ := Run.bind_eq_ok.1 h
    cases h1
    obtain ⟨t, w2, h2, h⟩ := Run.bind_eq_ok.1 h
    obtain ⟨l, w3, h3, h⟩ := Run.bind_eq_ok.1 h
    obtain ⟨hwritable, huse, hlookup⟩ := openTable_eq_ok h2
    refine ⟨⟨hwritable, huse, t, hlookup⟩, l, plan_eq_ok h3, ?_⟩
    cases h
    rfl
  · intro h
    obtain ⟨⟨hwritable, huse, t, db, hlookup⟩, l, hl, rfl⟩ := h
    obtain ⟨w1, h1⟩ : ∃ w1, enterStage table .planning w = (.ok (), w1) := ⟨_, rfl⟩
    have hdb : w1.database = w.database := by
      cases h1
      rfl
    rw [← hdb] at hwritable huse hlookup
    have h2 := openTable_ok hwritable huse hlookup
    have h3 := Run.eq_of_fst (show (a.plan { w1 with database := db }).1 = .ok l from hl)
    obtain ⟨w4, h4⟩ : ∃ w4, estimate table l (a.plan { w1 with database := db }).2 =
        (.ok ⟨needs l, none, none, [], l.length, l.length⟩, w4) := ⟨_, rfl⟩
    refine ⟨w4, Run.orCleanUp_eq_ok.2 ?_⟩
    rw [run_requirementsOnly]
    exact Run.bind_eq_ok.2 ⟨(), w1, h1, Run.bind_eq_ok.2 ⟨t, _, h2,
      Run.bind_eq_ok.2 ⟨l, _, h3, h4⟩⟩⟩

theorem opens_of_prepare {x : Preparation} (h : a.prepare table w = (.ok x, w')) :
    w.database.Opens table := by
  obtain ⟨u, w1, h1, h⟩ := Run.bind_eq_ok.1 h
  cases h1
  obtain ⟨t, w2, h2, -⟩ := Run.bind_eq_ok.1 h
  obtain ⟨hwritable, huse, hlookup⟩ := openTable_eq_ok h2
  exact ⟨hwritable, huse, t, hlookup⟩

/-- What a run is prepared for is covered by an estimate. -/
theorem estimate_of_prepare {x : Preparation} (h : a.prepare table w = (.ok x, w')) :
    ∃ o w'', a.execute table .requirementsOnly w = (.ok o, w'') ∧
      o.requirements.contains x.reduction.requirements := by
  obtain ⟨-, hl, hr⟩ := prepare_eq_ok h
  obtain ⟨w'', hrun⟩ := estimate_eq_ok.2 ⟨opens_of_prepare h, x.submitted, hl, rfl⟩
  exact ⟨_, w'', hrun, needs_of_reduction hr⟩

theorem simulate_eq_ok (h : a.execute table .simulate w = (.ok o, w')) :
    ∃ x, a.prepare table w = (.ok x, w') ∧ o = .planned x.table x.submitted x.reduction := by
  have h := Run.orCleanUp_eq_ok.1 h
  rw [run_simulate] at h
  obtain ⟨x, w1, h1, h⟩ := Run.bind_eq_ok.1 h
  cases h
  exact ⟨x, h1, rfl⟩

/-- A commit does what it is prepared for. -/
theorem commit_outcome (h : a.execute table .commit w = (.ok o, w')) :
    ∃ x w1, a.prepare table w = (.ok x, w1) ∧ o.requirements = x.reduction.requirements ∧
      o.strategy = Strategy.for? x.reduction.requirements := by
  have h := Run.orCleanUp_eq_ok.1 h
  rw [run_commit] at h
  obtain ⟨x, w1, h1, h⟩ := Run.bind_eq_ok.1 h
  have ho := proceed_outcome h
  exact ⟨x, w1, h1, congrArg Outcome.requirements ho, congrArg Outcome.strategy ho⟩

theorem physical_of_contains {r s : Requirements} (h : r.contains s)
    (hs : Strategy.for? s = some .rebuild) : r.physical :=
  (Requirements.contains_iff.1 h).1 (Strategy.physical_of_rebuild hs)

/-- An accepted list has an estimate wherever the table can be opened. Shorter lists need no more,
and neither a simulation nor a commit needs anything that was not estimated, so that nothing is
rebuilt unexpectedly. A simulation finds nothing to do exactly if no edit remains. -/
theorem estimate_is_conservative (a : Alteration) (table : String) (w : World) :
    ((∃ o w', a.execute table .requirementsOnly w = (.ok o, w')) ↔
      w.database.Opens table ∧ ∃ l, planAll a.actions = .ok l) ∧
    (∀ o w', a.execute table .requirementsOnly w = (.ok o, w') →
      ∀ fewer : List Action, fewer.Sublist a.actions → ∃ o' w'',
        (a.withActions fewer).execute table .requirementsOnly w = (.ok o', w'') ∧
        o.requirements.contains o'.requirements) ∧
    ∀ s ws, a.execute table .simulate w = (.ok s, ws) → ∃ o wo,
      a.execute table .requirementsOnly w = (.ok o, wo) ∧
      o.requirements.contains s.requirements ∧
      (s.strategy = some .rebuild → o.requirements.physical) ∧
      (∀ c wc, a.execute table .commit w = (.ok c, wc) →
        o.requirements.contains c.requirements ∧
        (c.strategy = some .rebuild → o.requirements.physical)) ∧
      ∃ l r, planAll a.actions = .ok l ∧ Reduction.of l = .ok r ∧
        (s.strategy = none ↔ r.ordered = []) := by
  refine ⟨⟨fun h => ?_, fun h => ?_⟩, fun o w' h fewer hfewer => ?_, fun s ws h => ?_⟩
  · obtain ⟨o, h⟩ := h
    obtain ⟨hopens, l, hl, -⟩ := estimate_eq_ok.1 h
    exact ⟨hopens, l, hl⟩
  · obtain ⟨hopens, l, hl⟩ := h
    exact ⟨_, estimate_eq_ok.2 ⟨hopens, l, hl, rfl⟩⟩
  · obtain ⟨hopens, l, hl, rfl⟩ := estimate_eq_ok.1 ⟨w', h⟩
    obtain ⟨l', hl', hneeds⟩ := needs_of_fewer (fun x hx => hfewer.subset hx) hl
    obtain ⟨w'', hrun⟩ := (estimate_eq_ok (a := a.withActions fewer)).2 ⟨hopens, l', hl', rfl⟩
    exact ⟨_, w'', hrun, hneeds⟩
  · obtain ⟨x, hx, rfl⟩ := simulate_eq_ok h
    obtain ⟨o, wo, hrun, hcovers⟩ := estimate_of_prepare hx
    refine ⟨o, wo, hrun, hcovers, physical_of_contains hcovers, fun c wc hc => ?_, ?_⟩
    · obtain ⟨y, w1, hy, hneeds, hstrategy⟩ := commit_outcome hc
      rw [hx] at hy
      cases hy
      rw [hneeds, hstrategy]
      exact ⟨hcovers, physical_of_contains hcovers⟩
    · obtain ⟨-, hl, hr⟩ := prepare_eq_ok hx
      exact ⟨_, _, hl, hr, strategy_eq_none_iff hl hr⟩

/-- A table of one column. -/
def oneColumn : World where
  database := ({} : Database).withTable ⟨"t", [{ name := "a", type := .byte }], []⟩
  clock := newYear
  suffixes := fun _ => 7

/-- A column that is renamed to and fro and gets a caption. -/
def toAndFro : Alteration where
  actions := [.rename ⟨0⟩ "a" "b", .change ⟨0⟩ "b" "caption" (.text "x"), .rename ⟨0⟩ "b" "a"]

/-- A rebuild is estimated, for the first rename alone as well, but the table is altered in
place. -/
theorem estimate_is_conservative_of_idle_rename :
    ∃ o o' s wo w' ws, toAndFro.execute "t" .requirementsOnly oneColumn = (.ok o, wo) ∧
      o.requirements.bits = 5 ∧
      (toAndFro.withActions [.rename ⟨0⟩ "a" "b"]).execute "t" .requirementsOnly oneColumn =
        (.ok o', w') ∧ o.requirements.contains o'.requirements ∧
      toAndFro.execute "t" .simulate oneColumn = (.ok s, ws) ∧
      o.requirements.contains s.requirements ∧ s.requirements.bits = 4 := by
  obtain ⟨-, hfewer, hsimulate⟩ := estimate_is_conservative toAndFro "t" oneColumn
  obtain ⟨s, hs, hbits⟩ := map_eq_ok.1 (show (toAndFro.execute "t" .simulate oneColumn).1.map
    (·.requirements.bits) = .ok 4 by decide +kernel)
  have hrun := Run.eq_of_fst hs
  obtain ⟨o, wo, ho, hcovers, -⟩ := hsimulate s _ hrun
  obtain ⟨o', w', ho', hcovers'⟩ := hfewer o wo ho [.rename ⟨0⟩ "a" "b"] (by decide)
  have hneeds : o.requirements.bits = 5 := by
    obtain ⟨-, l, hl, rfl⟩ := estimate_eq_ok.1 ⟨wo, ho⟩
    cases hl
    rfl
  exact ⟨o, o', s, wo, w', _, ho, hneeds, ho', hcovers', hrun, hcovers, hbits⟩

end Alteration

end TableAlteration
