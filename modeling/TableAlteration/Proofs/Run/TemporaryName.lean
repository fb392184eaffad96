import TableAlteration.Proofs.Run.Preparation

namespace TableAlteration

namespace Database

/-- The name is remembered as asked for. -/
def asked (name : String) (db : Database) : Database := { db with probed := name :: db.probed }

/-- Whether the database says, so many questions later, that a table has the name. -/
def exists? (db : Database) (later : Nat) (name : String) : Bool :=
  db.probed.length + later < db.occupiedFirst || db.isTaken name

/-- Whether the catalog says so. -/
def known? (db : Database) (later : Nat) (name : String) : Bool :=
  db.probed.length + later < db.occupiedFirst + db.knownFirst || (db.catalog.table? name).isSome

/-- Whether the name is found free so many questions later. The catalog is asked only if the
database has no such table. -/
def free? (db : Database) (later : Nat) (name : String) : Except BackendError Bool :=
  if .tableExists ∈ db.failing then .error (.other FailPoint.tableExists.message)
  else if db.exists? later name then .ok false
  else if .tempLookup ∈ db.failing then .error (.other FailPoint.tempLookup.message)
  else .ok !db.known? later name

variable {db : Database} {name other : String} {later : Nat}

theorem free?_asked : (db.asked other).free? later name = db.free? (later + 1) name := by
  have hlength : (db.asked other).probed.length + later = db.probed.length + (later + 1) := by
    simp only [asked, List.length_cons]
    omega
  unfold free? exists? known?
  rw [hlength]
  rfl

/-- Names are compared ignoring the case of ASCII letters. -/
theorem free?_congr (h : Text.sameName name other) : db.free? later name = db.free? later other := by
  have hfold := Text.sameName_iff.1 h
  unfold free? exists? known? isTaken isOccupied hasTable Catalog.table?
  rw [hfold]

end Database

namespace Database

theorem tableExists_eq (db : Database) (name : String) : tableExists name db =
    (if .tableExists ∈ db.failing then .error (.other FailPoint.tableExists.message)
      else .ok (db.exists? 0 name), db.asked name) := by
  have hlength : decide (db.probed.length + 1 ≤ db.occupiedFirst) =
      decide (db.probed.length + 0 < db.occupiedFirst) := decide_eq_decide.2 (by omega)
  unfold tableExists exists?
  simp only [List.length_cons, hlength]
  split <;> rfl

theorem tableSchema_asked (db : Database) (name : String) :
    ∃ known : Option Table, known.isSome = db.known? 0 name ∧ tableSchema name (db.asked name) =
      (if .tempLookup ∈ db.failing then .error (.other FailPoint.tempLookup.message)
        else .ok known, db.asked name) := by
  have hlast : (db.asked name).probed.head? = some name := rfl
  refine ⟨if db.probed.length < db.occupiedFirst + db.knownFirst then some { name := name }
    else db.catalog.table? name, ?_, ?_⟩
  · unfold known?
    split <;> simp [*]
  · unfold tableSchema
    rw [if_pos hlast]
    change (if _ ∈ db.failing then _ else
      if db.probed.length < db.occupiedFirst + db.knownFirst then _ else _) = _
    by_cases hfail : FailPoint.tempLookup ∈ db.failing
    · rw [if_pos hfail, if_pos hfail]
    · rw [if_neg hfail, if_neg hfail]
      split <;> rfl

end Database

theorem isFree_run (name : String) (w : World) : isFree name w =
    ((w.database.free? 0 name).mapError .backend,
      { w with database := w.database.asked name }) := by
  obtain ⟨known, hknown, hschema⟩ := w.database.tableSchema_asked name
  change Run.bind (Run.ask (Database.tableExists name) .backend) _ w = _
  unfold Run.bind Run.ask Database.free?
  rw [Database.tableExists_eq]
  by_cases hfail : FailPoint.tableExists ∈ w.database.failing
  · rw [if_pos hfail, if_pos hfail]
    rfl
  · rw [if_neg hfail, if_neg hfail]
    cases hexists : w.database.exists? 0 name with
    | true => rfl
    | false =>
      change Run.bind (Run.ask (Database.tableSchema name) .backend) _ _ = _
      unfold Run.bind Run.ask
      simp only [hschema, ← hknown]
      by_cases hlookup : FailPoint.tempLookup ∈ w.database.failing
      · simp only [if_pos hlookup]
        rfl
      · simp only [if_neg hlookup]
        cases known <;> rfl

/-- After the names in `asked` were asked for, with those in `taken` reported as taken. -/
def World.searched (w : World) (taken asked : List String) : World :=
  { w with
    database := { w.database with probed := asked.reverse ++ w.database.probed }
    drawn := w.drawn + asked.length
    log := w.log ++ taken.map fun name =>
      ⟨.debug, "temporary table name taken", [("candidate", name)]⟩ }

theorem World.searched_searched (w : World) (taken asked taken' asked' : List String) :
    (w.searched taken asked).searched taken' asked' =
      w.searched (taken ++ taken') (asked ++ asked') := by
  simp [searched, Nat.add_assoc]

section Search

variable (w : World) (table middle : String)

/-- The name that is tried so many rounds later. -/
def World.candidate (later : Nat) : String :=
  temporaryName table middle (w.suffixes (w.drawn + later))

/-- The names of the first rounds. -/
def World.candidates (rounds : Nat) : List String :=
  (List.range rounds).map (w.candidate table middle)

/-- What the round finds about its name. -/
def World.round (later : Nat) : Except BackendError Bool :=
  w.database.free? later (w.candidate table middle later)

/-- The names of the first rounds are taken. -/
def World.Taken (rounds : Nat) : Prop := ∀ i < rounds, w.round table middle i = .ok false

/-- How a search of so many rounds may end, and what it leaves behind. -/
inductive World.Search (n : Nat) : Except AlterError (Option String) → World → Prop
  | found {i : Nat} (hi : i < n) (htaken : w.Taken table middle i)
      (hfree : w.round table middle i = .ok true) :
      Search n (.ok (some (w.candidate table middle i)))
        (w.searched (w.candidates table middle i) (w.candidates table middle (i + 1)))
  | failed {i : Nat} {e : BackendError} (hi : i < n) (htaken : w.Taken table middle i)
      (hfail : w.round table middle i = .error e) :
      Search n (.error (.backend e))
        (w.searched (w.candidates table middle i) (w.candidates table middle (i + 1)))
  | exhausted (htaken : w.Taken table middle n) :
      Search n (.ok none) (w.searched (w.candidates table middle n) (w.candidates table middle n))

variable {w table middle} {i n : Nat} {w' w'' : World} {x y : Except AlterError (Option String)}

/-- The world after the first name was found taken. -/
def World.next (w : World) (table middle : String) : World :=
  w.searched [w.candidate table middle 0] [w.candidate table middle 0]

theorem candidate_next :
    (w.next table middle).candidate table middle i = w.candidate table middle (i + 1) := by
  unfold World.candidate World.next World.searched
  rw [List.length_singleton, Nat.add_assoc, Nat.add_comm 1 i]

theorem candidates_next : w.candidate table middle 0 :: (w.next table middle).candidates table
    middle n = w.candidates table middle (n + 1) := by
  have hshift : (w.next table middle).candidate table middle =
      w.candidate table middle ∘ Nat.succ := funext fun i => candidate_next
  unfold World.candidates
  rw [hshift, List.range_succ_eq_map, List.map_cons, List.map_map]

theorem round_next :
    (w.next table middle).round table middle i = w.round table middle (i + 1) := by
  unfold World.round
  rw [candidate_next]
  exact Database.free?_asked

theorem taken_next (h0 : w.round table middle 0 = .ok false) :
    (w.next table middle).Taken table middle n ↔ w.Taken table middle (n + 1) := by
  constructor
  · intro h i hi
    cases i with
    | zero => exact h0
    | succ i =>
      rw [← round_next]
      exact h i (Nat.lt_of_succ_lt_succ hi)
  · intro h i hi
    rw [round_next]
    exact h (i + 1) (Nat.succ_lt_succ hi)

/-- A search whose first name is taken goes on as one that starts with the second. -/
theorem World.Search.of_next (h0 : w.round table middle 0 = .ok false)
    (h : (w.next table middle).Search table middle n x w') :
    w.Search table middle (n + 1) x w' := by
  have hworld : ∀ k m, (w.next table middle).searched
      ((w.next table middle).candidates table middle k)
      ((w.next table middle).candidates table middle m) =
        w.searched (w.candidates table middle (k + 1)) (w.candidates table middle (m + 1)) := by
    intro k m
    rw [← candidates_next, ← candidates_next]
    exact w.searched_searched _ _ _ _
  cases h with
  | found hi htaken hfree =>
    rw [hworld, candidate_next]
    exact .found (Nat.succ_lt_succ hi) ((taken_next h0).1 htaken) (round_next ▸ hfree)
  | failed hi htaken hfail =>
    rw [hworld]
    exact .failed (Nat.succ_lt_succ hi) ((taken_next h0).1 htaken) (round_next ▸ hfail)
  | exhausted htaken =>
    rw [hworld]
    exact .exhausted ((taken_next h0).1 htaken)

/-- One round of the search. -/
theorem freeName?_succ (table middle : String) (n : Nat) (w : World) :
    freeName? table middle (n + 1) w =
      match w.round table middle 0 with
      | .ok true => (.ok (some (w.candidate table middle 0)),
          w.searched [] [w.candidate table middle 0])
      | .ok false => freeName? table middle n (w.next table middle)
      | .error e => (.error (.backend e), w.searched [] [w.candidate table middle 0]) := by
  have hround : Database.free? { w with drawn := w.drawn + 1 }.database 0
      (w.candidate table middle 0) = w.round table middle 0 := rfl
  have hworld : ∀ db : Database, { w with drawn := w.drawn + 1, database := db } =
      { w with drawn := w.drawn + 1, database := db, log := w.log ++ [] } := by
    intro db
    rw [List.append_nil]
  change Run.bind (isFree (w.candidate table middle 0)) _ { w with drawn := w.drawn + 1 } = _
  unfold Run.bind
  rw [isFree_run, hround]
  cases w.round table middle 0 with
  | error e => exact congrArg (Prod.mk _) (hworld _)
  | ok free =>
    cases free with
    | true => exact congrArg (Prod.mk _) (hworld _)
    | false => rfl

theorem World.searched_nil (w : World) : w.searched [] [] = w := by
  unfold searched
  rw [List.map_nil, List.append_nil]
  rfl

theorem freeName?_search (table middle : String) (n : Nat) (w : World) :
    w.Search table middle n (freeName? table middle n w).1 (freeName? table middle n w).2 := by
  induction n generalizing w with
  | zero =>
    have hend : w.Search table middle 0 (.ok none) (w.searched [] []) :=
      .exhausted fun i hi => absurd hi (Nat.not_lt_zero i)
    rwa [w.searched_nil] at hend
  | succ n ih =>
    rw [freeName?_succ]
    have hfirst : w.Taken table middle 0 := fun i hi => absurd hi (Nat.not_lt_zero i)
    cases hround : w.round table middle 0 with
    | error e => exact .failed n.succ_pos hfirst hround
    | ok free =>
      cases free with
      | true => exact .found n.succ_pos hfirst hround
      | false => exact (ih (w.next table middle)).of_next hround

/-- There is only one way in which a search ends. -/
theorem World.Search.unique (h : w.Search table middle n x w')
    (h' : w.Search table middle n y w'') : x = y ∧ w' = w'' := by
  have hle : ∀ {i j}, w.Taken table middle j → w.round table middle i ≠ .ok false → j ≤ i :=
    fun htaken hne => Nat.le_of_not_lt fun hlt => hne (htaken _ hlt)
  have hlast : ∀ {i}, i < n → w.round table middle i ≠ .ok false → ¬w.Taken table middle n :=
    fun hi hne htaken => Nat.not_le_of_lt hi (hle htaken hne)
  have hsame : ∀ {i j}, w.Taken table middle i → w.round table middle i ≠ .ok false →
      w.Taken table middle j → w.round table middle j ≠ .ok false → i = j :=
    fun hi hi' hj hj' => Nat.le_antisymm (hle hi hj') (hle hj hi')
  cases h with
  | exhausted htaken =>
    cases h' with
    | exhausted => exact ⟨rfl, rfl⟩
    | found hi _ hround | failed hi _ hround => exact absurd htaken (hlast hi (by simp [hround]))
  | found hi htaken hfree =>
    cases h' with
    | exhausted hall => exact absurd hall (hlast hi (by simp [hfree]))
    | found _ htaken' hfree' =>
      obtain rfl := hsame htaken (by simp [hfree]) htaken' (by simp [hfree'])
      exact ⟨rfl, rfl⟩
    | failed _ htaken' hfail =>
      obtain rfl := hsame htaken (by simp [hfree]) htaken' (by simp [hfail])
      rw [hfree] at hfail
      cases hfail
  | failed hi htaken hfail =>
    cases h' with
    | exhausted hall => exact absurd hall (hlast hi (by simp [hfail]))
    | found _ htaken' hfree =>
      obtain rfl := hsame htaken (by simp [hfail]) htaken' (by simp [hfree])
      rw [hfree] at hfail
      cases hfail
    | failed _ htaken' hfail' =>
      obtain rfl := hsame htaken (by simp [hfail]) htaken' (by simp [hfail'])
      rw [hfail] at hfail'
      cases hfail'
      exact ⟨rfl, rfl⟩

theorem freeName?_iff :
    freeName? table middle n w = (x, w') ↔ w.Search table middle n x w' := by
  have hsearch := freeName?_search table middle n w
  constructor
  · intro h
    rwa [h] at hsearch
  · intro h
    obtain ⟨hx, hw⟩ := hsearch.unique h
    exact Prod.ext hx hw

end Search

theorem freeName_run (settings : Settings) (table : String) (w : World) :
    freeName settings table w =
      match freeName? table settings.tempNameInfix settings.maxTempNameAttempts.toNat w with
      | (.ok (some name), w') => (.ok name, w')
      | (.ok none, w') => (.error (.nameCollision table settings.maxTempNameAttempts), w')
      | (.error e, w') => (.error e, w') := by
  change Run.bind (freeName? _ _ _) _ w = _
  unfold Run.bind
  cases freeName? table settings.tempNameInfix settings.maxTempNameAttempts.toNat w with
  | mk x w' =>
    cases x with
    | error e => rfl
    | ok found => cases found <;> rfl

/-- The first name that neither the database nor the catalog knows is found, if it is among those
that may be tried, and no further one is asked for; if all of them are taken, the search fails; and
it fails at once where a question does. Nothing is written, and the case of names does not
matter. -/
theorem freeName_search (settings : Settings) (table : String) (w : World) :
    let n := settings.maxTempNameAttempts.toNat
    let middle := settings.tempNameInfix
    (∀ name w', freeName settings table w = (.ok name, w') ↔
      ∃ i < n, w.Taken table middle i ∧ w.round table middle i = .ok true ∧
        name = w.candidate table middle i ∧
        w' = w.searched (w.candidates table middle i) (w.candidates table middle (i + 1))) ∧
    (∀ w', freeName settings table w =
        (.error (.nameCollision table settings.maxTempNameAttempts), w') ↔
      w.Taken table middle n ∧
        w' = w.searched (w.candidates table middle n) (w.candidates table middle n)) ∧
    (∀ e w', freeName settings table w = (.error (.backend e), w') ↔
      ∃ i < n, w.Taken table middle i ∧ w.round table middle i = .error e ∧
        w' = w.searched (w.candidates table middle i) (w.candidates table middle (i + 1))) ∧
    (∀ x w', freeName settings table w = (x, w') →
      w'.database = { w.database with probed := w'.database.probed }) ∧
    ∀ i a b, Text.sameName a b → w.database.free? i a = w.database.free? i b := by
  intro n middle
  obtain ⟨x, w1, hrun⟩ : ∃ x w1, freeName? table middle n w = (x, w1) := ⟨_, _, rfl⟩
  have hsearch := freeName?_iff.1 hrun
  refine ⟨fun name w' => ⟨fun h => ?_, ?_⟩, fun w' => ⟨fun h => ?_, ?_⟩,
    fun e w' => ⟨fun h => ?_, ?_⟩, fun y w' h => ?_, fun i a b => Database.free?_congr⟩
  · rw [freeName_run, hrun] at h
    cases hsearch with
    | @found i hi htaken hfree =>
      cases h
      exact ⟨i, hi, htaken, hfree, rfl, rfl⟩
    | failed | exhausted => cases h
  · rintro ⟨i, hi, htaken, hfree, rfl, rfl⟩
    rw [freeName_run, freeName?_iff.2 (.found hi htaken hfree)]
  · rw [freeName_run, hrun] at h
    cases hsearch with
    | exhausted htaken =>
      cases h
      exact ⟨htaken, rfl⟩
    | found | failed => cases h
  · rintro ⟨htaken, rfl⟩
    rw [freeName_run, freeName?_iff.2 (.exhausted htaken)]
  · rw [freeName_run, hrun] at h
    cases hsearch with
    | @failed i e hi htaken hfail =>
      cases h
      exact ⟨i, hi, htaken, hfail, rfl⟩
    | found | exhausted => cases h
  · rintro ⟨i, hi, htaken, hfail, rfl⟩
    rw [freeName_run, freeName?_iff.2 (.failed hi htaken hfail)]
  · rw [freeName_run, hrun] at h
    cases hsearch with
    | found | failed | exhausted =>
      cases h
      rfl

/-- A database with a table of the first name that is tried, in other letters, and whose catalog
knows the second one. -/
def crowdedWorld : World where
  database :=
    { tables := Dict.ofList [("t_tempa", ())]
      catalog := Catalog.register {} { name := "T_TEMPB" } }
  clock := newYear
  suffixes := fun i => UInt32.ofNat (i + 10)

theorem freeName_search_of_crowded :
    (∃ w', freeName {} "t" crowdedWorld = (.ok "t_tempc", w') ∧
      w'.database.probed = ["t_tempc", "t_tempb", "t_tempa"]) ∧
    (∃ w', freeName { maxTempNameAttempts := 2 } "t" crowdedWorld =
      (.error (.nameCollision "t" 2), w')) ∧
    ∃ w', freeName { maxTempNameAttempts := 0 } "t" crowdedWorld =
      (.error (.nameCollision "t" 0), w') := by
  have htaken : ∀ i < 2, crowdedWorld.round "t" "_temp" i = .ok false := by
    intro i hi
    have : i = 0 ∨ i = 1 := by omega
    rcases this with rfl | rfl
    · rfl
    · rfl
  have hfound := ((freeName_search {} "t" crowdedWorld).1 "t_tempc" _).2
    ⟨2, by decide, htaken, rfl, rfl, rfl⟩
  have hfull := ((freeName_search { maxTempNameAttempts := 2 } "t" crowdedWorld).2.1 _).2
    ⟨htaken, rfl⟩
  have hnone := ((freeName_search { maxTempNameAttempts := 0 } "t" crowdedWorld).2.1 _).2
    ⟨fun i hi => absurd hi (Nat.not_lt_zero i), rfl⟩
  exact ⟨⟨_, hfound, rfl⟩, ⟨_, hfull⟩, _, hnone⟩

end TableAlteration
