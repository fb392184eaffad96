import TableAlteration.Proofs.Store.Database
import TableAlteration.Run.Basic

namespace TableAlteration

namespace Run

variable {α β : Type} {m : Run α} {f : α → Run β} {w w' : World} {b : β} {e : AlterError}

theorem eq_of_fst {x : Except AlterError α} (h : (m w).1 = x) : m w = (x, (m w).2) := by
  rw [← h]

theorem bind_eq_ok : (m >>= f) w = (.ok b, w') ↔
    ∃ a w1, m w = (.ok a, w1) ∧ f a w1 = (.ok b, w') := by
  change Run.bind m f w = _ ↔ _
  unfold Run.bind
  constructor
  · intro h
    split at h
    · rename_i a w1 hm
      exact ⟨a, w1, hm, h⟩
    · cases h
  · intro h
    obtain ⟨a, w1, hm, hf⟩ := h
    rw [hm]
    exact hf

theorem bind_eq_error : (m >>= f) w = (.error e, w') ↔
    m w = (.error e, w') ∨ ∃ a w1, m w = (.ok a, w1) ∧ f a w1 = (.error e, w') := by
  change Run.bind m f w = _ ↔ _
  unfold Run.bind
  constructor
  · intro h
    split at h
    · rename_i a w1 hm
      exact .inr ⟨a, w1, hm, h⟩
    · rename_i e' w1 hm
      cases h
      exact .inl hm
  · intro h
    rcases h with hm | ⟨a, w1, hm, hf⟩
    · rw [hm]
    · rw [hm]
      exact hf

theorem bind_assoc {γ : Type} (m : Run α) (f : α → Run β) (g : β → Run γ) :
    (m >>= f) >>= g = m >>= fun a => f a >>= g := by
  funext w
  change Run.bind (Run.bind m f) g w = Run.bind m (fun a => Run.bind (f a) g) w
  unfold Run.bind
  cases m w with
  | mk x w1 => cases x <;> rfl

theorem pure_bind (a : α) (f : α → Run β) : (Pure.pure a : Run α) >>= f = f a := rfl

theorem orCleanUp_eq_ok {cleanup : AlterError → Run Unit} {a : α} :
    m.orCleanUp cleanup w = (.ok a, w') ↔ m w = (.ok a, w') := by
  unfold orCleanUp
  constructor
  · intro h
    split at h
    · rename_i hm
      rw [hm, h]
    · cases h
  · intro h
    rw [h]

/-- The failure stays, and the clean-up has the last word on the world. -/
theorem orCleanUp_eq_error {cleanup : AlterError → Run Unit} :
    m.orCleanUp cleanup w = (.error e, w') ↔
      ∃ w1, m w = (.error e, w1) ∧ w' = (cleanup e w1).2 := by
  unfold orCleanUp
  constructor
  · intro h
    split at h
    · cases h
    · rename_i e' w1 hm
      cases h
      exact ⟨w1, hm, rfl⟩
  · intro h
    obtain ⟨w1, hm, rfl⟩ := h
    rw [hm]

theorem ask_eq_ok {request : Answer α} {wrap : BackendError → AlterError} {a : α} :
    ask request wrap w = (.ok a, w') ↔
      ∃ db, request w.database = (.ok a, db) ∧ w' = { w with database := db } := by
  unfold ask
  constructor
  · intro h
    split at h
    · rename_i db hr
      cases h
      exact ⟨db, hr, rfl⟩
    · cases h
  · intro h
    obtain ⟨db, hr, rfl⟩ := h
    rw [hr]

theorem ask_eq_error {request : Answer α} {wrap : BackendError → AlterError} :
    ask request wrap w = (.error e, w') ↔
      ∃ s db, request w.database = (.error s, db) ∧ e = wrap s ∧
        w' = { w with database := db } := by
  unfold ask
  constructor
  · intro h
    split at h
    · cases h
    · rename_i s db hr
      cases h
      exact ⟨s, db, hr, rfl, rfl⟩
  · intro h
    obtain ⟨s, db, hr, rfl, rfl⟩ := h
    rw [hr]

end Run

/-- The world without its records of what was asked, drawn and reported. -/
def World.still (w : World) : World :=
  { w with database := w.database.unprobed, drawn := 0, log := [] }

/-- A run that writes nothing, and whose failures are none of a rebuild. -/
structure Run.Preliminary {α : Type} (m : Run α) : Prop where
  still : ∀ w, (m w).2.still = w.still
  failures : ∀ w e, (m w).1 = .error e → e.isRebuildFailure = false

namespace World

variable {w w' : World}

theorem unprobed_of_still (h : w'.still = w.still) :
    w'.database.unprobed = w.database.unprobed := by
  have h' : w'.still.database = w.still.database := by rw [h]
  exact h'

theorem suffixes_of_still (h : w'.still = w.still) : w'.suffixes = w.suffixes := by
  have h' : w'.still.suffixes = w.still.suffixes := by rw [h]
  exact h'

theorem clock_of_still (h : w'.still = w.still) : w'.clock = w.clock := by
  have h' : w'.still.clock = w.still.clock := by rw [h]
  exact h'

end World

namespace Run.Preliminary

variable {α β : Type} {m : Run α} {f : α → Run β} {w w' : World} {e : AlterError}

theorem content (hm : m.Preliminary) (w : World) :
    (m w).2.database.content = w.database.content :=
  Database.content_of_unprobed (World.unprobed_of_still (hm.still w))

theorem suffixes (hm : m.Preliminary) (w : World) : (m w).2.suffixes = w.suffixes :=
  World.suffixes_of_still (hm.still w)

theorem still_eq {x : Except AlterError α} (hm : m.Preliminary) (h : m w = (x, w')) :
    w'.still = w.still := by
  have hs := hm.still w
  rwa [h] at hs

theorem content_eq {x : Except AlterError α} (hm : m.Preliminary) (h : m w = (x, w')) :
    w'.database.content = w.database.content :=
  Database.content_of_unprobed (World.unprobed_of_still (hm.still_eq h))

/-- A rebuild that fails behind `m` starts from the same database. -/
theorem of_bind_error (hm : m.Preliminary) (h : (m >>= f) w = (.error e, w'))
    (he : e.isRebuildFailure) : ∃ a w1, m w = (.ok a, w1) ∧
      w1.database.content = w.database.content ∧ w1.suffixes = w.suffixes ∧
      f a w1 = (.error e, w') := by
  rcases bind_eq_error.1 h with h' | ⟨a, w1, h', hf⟩
  · have hfail := hm.failures w e (by rw [h'])
    rw [he] at hfail
    cases hfail
  · exact ⟨a, w1, h', hm.content_eq h', World.suffixes_of_still (hm.still_eq h'), hf⟩

theorem bind (hm : m.Preliminary) (hf : ∀ a, (f a).Preliminary) : (m >>= f).Preliminary := by
  have step : ∀ w, (∃ a w1, m w = (.ok a, w1) ∧ (m >>= f) w = f a w1) ∨
      ∃ e w1, m w = (.error e, w1) ∧ (m >>= f) w = (.error e, w1) := by
    intro w
    change (∃ a w1, _ ∧ Run.bind m f w = _) ∨ ∃ e w1, _ ∧ Run.bind m f w = _
    unfold Run.bind
    split
    · rename_i a w1 h
      exact .inl ⟨a, w1, h, rfl⟩
    · rename_i e w1 h
      exact .inr ⟨e, w1, h, rfl⟩
  constructor
  · intro w
    rcases step w with ⟨a, w1, h, e⟩ | ⟨e', w1, h, e⟩
    · rw [e, (hf a).still, hm.still_eq h]
    · rw [e]
      exact hm.still_eq h
  · intro w e' he
    rcases step w with ⟨a, w1, h, e⟩ | ⟨e'', w1, h, e⟩
    · rw [e] at he
      exact (hf a).failures w1 e' he
    · rw [e] at he
      cases he
      exact hm.failures w e' (by rw [h])

theorem orCleanUp {cleanup : AlterError → Run Unit} (hm : m.Preliminary)
    (hc : ∀ e, (cleanup e).Preliminary) : (m.orCleanUp cleanup).Preliminary := by
  constructor
  · intro w
    have hw := hm.still w
    unfold Run.orCleanUp
    split
    all_goals
      rename_i w1 h
      rw [h] at hw
    · exact hw
    · exact ((hc _).still w1).trans hw
  · intro w e h
    have hfail := hm.failures w e
    unfold Run.orCleanUp at h
    split at h
    all_goals
      rename_i h'
      rw [h'] at hfail
    · cases h
    · exact hfail h

/-- A step that always succeeds and does not touch the database. -/
theorem of_ok {f : World → α} {g : World → World} (hg : ∀ w, (g w).still = w.still) :
    Preliminary fun w => (.ok (f w), g w) where
  still := hg
  failures w e h := by cases h

theorem pure (a : α) : (Pure.pure a : Run α).Preliminary := of_ok fun _ => rfl

theorem database : Run.database.Preliminary := of_ok fun _ => rfl

theorem note (e : Event) : (Run.note e).Preliminary := of_ok fun _ => rfl

theorem noteAll (l : List Event) : (Run.noteAll l).Preliminary := of_ok fun _ => rfl

theorem draw : Run.draw.Preliminary := of_ok fun _ => rfl

theorem lift {x : Except AlterError α} (h : ∀ e, x = .error e → e.isRebuildFailure = false) :
    (Run.lift x).Preliminary := ⟨fun _ => rfl, fun _ => h⟩

theorem fail (h : e.isRebuildFailure = false) : (Run.fail e : Run α).Preliminary := by
  refine ⟨fun _ => rfl, fun w e' h' => ?_⟩
  cases h'
  exact h

theorem ask {request : Answer α} (h : ∀ db, (request db).2.unprobed = db.unprobed) :
    (Run.ask request .backend).Preliminary := by
  constructor
  · intro w
    have hw := h w.database
    unfold Run.ask
    split
    all_goals
      rename_i hr
      rw [hr] at hw
      exact congrArg (fun db => { w.still with database := db }) hw
  · intro w e he
    unfold Run.ask at he
    split at he
    · cases he
    · cases he
      rfl

end Run.Preliminary

/-- The moment at which the sample runs take place. -/
def newYear : Clock := ⟨⟨2000, 1, 1, by decide⟩, ⟨0, 0, 0, 0, by decide⟩⟩

end TableAlteration
