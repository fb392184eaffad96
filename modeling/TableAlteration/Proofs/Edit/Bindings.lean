import TableAlteration.Proofs.Edit.InPlace
import TableAlteration.Proofs.Edit.Places

namespace TableAlteration

/-- The first edit with the number `u` names the field. -/
def Addresses (l : List Planned) (u : Uid) (name : String) : Prop :=
  ∃ p, (editsOf u l).head? = some p ∧ Text.sameName p.action.fieldName name

/-- Main data change: a property in the main catalog is set, or the row is moved. -/
def Planned.WritesRow (p : Planned) : Prop := p.requirements.main ∨ p.action.isMove

section Addresses

variable {l : List Planned} {p : Planned} {u : Uid} {name : String}

theorem Addresses.snoc (h : Addresses l u name) (p : Planned) : Addresses (l ++ [p]) u name := by
  obtain ⟨q, hq, hname⟩ := h
  refine ⟨q, ?_, hname⟩
  rw [editsOf_append, List.head?_append, hq, Option.some_or]

theorem addresses_snoc_self (hfirst : ∀ q ∈ l, q.uid ≠ p.uid)
    (hname : Text.sameName p.action.fieldName name) : Addresses (l ++ [p]) p.uid name := by
  have hnone : editsOf p.uid l = [] := List.filter_eq_nil_iff.2 (by simpa using hfirst)
  exact ⟨p, by rw [editsOf_snoc_self, hnone]; rfl, hname⟩

theorem Addresses.mem (h : Addresses l u name) : ∃ p ∈ l, p.uid = u := by
  obtain ⟨p, hp, -⟩ := h
  exact ⟨p, mem_editsOf.1 (List.mem_of_head? hp)⟩

/-- A number addresses one field only. -/
theorem Addresses.sameName {other : String} (h : Addresses l u name) (k : Addresses l u other) :
    Text.sameName name other := by
  obtain ⟨p, hp, hname⟩ := h
  obtain ⟨q, hq, hother⟩ := k
  rw [hp] at hq
  cases hq
  rw [Text.sameName_comm] at hname
  exact Text.sameName_trans hname hother

end Addresses

namespace Draft

variable {t : Table} {d d' : Draft} {l : List Planned} {p : Planned} {u : Uid} {r : Row}

/-- An edit that keeps the names exchanges a row for one of the same name. -/
theorem exchanges_of_apply (hp : p.action.KeepsNames) (h : d.apply p = .ok d') :
    ∃ q f rest, d.rows.Perm (q :: rest) ∧ d'.rows.Perm (⟨f, some p.uid, q.origin⟩ :: rest) ∧
      f.name = q.field.name ∧
      (q.uid = some p.uid ∨ (∀ x ∈ d.rows, x.uid ≠ some p.uid) ∧ q.uid = none ∧
        Text.sameName q.field.name p.action.fieldName) := by
  obtain ⟨q, f, rest, hold, hnew, hchange, hfound⟩ := exchange_of_apply hp.1 hp.2.1 h
  exact ⟨q, f, rest, hold, hnew, Record.name_of_not_rename hp.2.2 hchange, hfound⟩

theorem changed_of_apply (hp : p.action.KeepsNames) (h : d.apply p = .ok d') :
    ∀ u, u ∈ d'.changed ↔ u ∈ d.changed ∨ p.uid = u ∧ p.WritesRow := by
  intro u
  cases apply_eq_ok.1 h with
  | insert ha => simp [Action.KeepsNames, ha, Action.isInsertion] at hp
  | remove ha hr => simp [Action.KeepsNames, ha, Action.isRemoval] at hp
  | change ha hr hf =>
    have hwrites : p.WritesRow ↔ p.requirements.main = true := by
      simp [Planned.WritesRow, ha, Action.isMove]
    rw [hwrites]
    cases p.requirements.main with
    | false => simp
    | true => simp [or_comm, eq_comm]
  | move ha hr =>
    have hwrites : p.WritesRow := .inr (by rw [ha]; rfl)
    simp [hwrites, or_comm, eq_comm]

theorem moved_of_apply (h : d.apply p = .ok d') : d'.moved ↔ d.moved ∨ p.action.isMove := by
  cases apply_eq_ok.1 h with
  | change ha | remove ha | insert ha | move ha => simp [ha, Action.isMove]

/-- What a draft has after the edits `l`: each number that is used has a row, and a bound row has
the name that the first edit of its number uses. -/
structure Binds (l : List Planned) (d : Draft) : Prop where
  bound : ∀ r ∈ d.rows, ∀ u, r.uid = some u → Addresses l u r.field.name
  housed : ∀ p ∈ l, ∃ r ∈ d.rows, r.uid = some p.uid
  changed : ∀ u, u ∈ d.changed ↔ ∃ p ∈ l, p.uid = u ∧ p.WritesRow
  moved : d.moved ↔ ∃ p ∈ l, p.action.isMove

theorem binds_of (t : Table) : Binds [] (Draft.of t) := by
  refine ⟨fun r hr u hu => ?_, by simp, by simp [Draft.of], by simp [Draft.of]⟩
  obtain ⟨⟨f, i⟩, -, rfl⟩ := List.mem_map.1 hr
  cases hu

theorem Binds.apply (h : Binds l d) (hp : p.action.KeepsNames) (ha : d.apply p = .ok d') :
    Binds (l ++ [p]) d' := by
  obtain ⟨q, f, rest, hold, hnew, hname, hfound⟩ := exchanges_of_apply hp ha
  have hq : q ∈ d.rows := hold.mem_iff.2 List.mem_cons_self
  -- the edit finds the row that its number has, or is the first one with that number
  have haddresses : Addresses (l ++ [p]) p.uid f.name := by
    rw [hname]
    rcases hfound with hu | ⟨hnone, -, hsame⟩
    · exact (h.bound q hq p.uid hu).snoc p
    · refine addresses_snoc_self (fun x hx e => ?_) (by rwa [Text.sameName_comm])
      obtain ⟨r, hr, hu⟩ := h.housed x hx
      exact hnone r hr (by rw [hu, e])
  constructor
  · intro r hr u hu
    rcases List.mem_cons.1 (hnew.mem_iff.1 hr) with rfl | hr
    · cases hu
      exact haddresses
    · exact (h.bound r (hold.mem_iff.2 (List.mem_cons_of_mem q hr)) u hu).snoc p
  · intro x hx
    have hself : ∃ r ∈ d'.rows, r.uid = some p.uid :=
      ⟨_, hnew.mem_iff.2 List.mem_cons_self, rfl⟩
    rcases List.mem_append.1 hx with hx | hx
    · obtain ⟨r, hr, hu⟩ := h.housed x hx
      rcases List.mem_cons.1 (hold.mem_iff.1 hr) with rfl | hr
      · rcases hfound with hu' | ⟨-, hu', -⟩
        · rw [← hu, hu']
          exact hself
        · rw [hu'] at hu
          cases hu
      · exact ⟨r, hnew.mem_iff.2 (List.mem_cons_of_mem _ hr), hu⟩
    · rw [List.mem_singleton.1 hx]
      exact hself
  · intro u
    rw [changed_of_apply hp ha, h.changed]
    simp [or_and_right, exists_or]
  · rw [moved_of_apply ha, h.moved]
    simp [or_and_right, exists_or]

theorem Binds.applyAll {k : List Planned} (h : Binds k d) (hl : ∀ p ∈ l, p.action.KeepsNames)
    (ha : d.applyAll l = .ok d') : Binds (k ++ l) d' := by
  induction l generalizing k d with
  | nil =>
    cases ha
    rwa [List.append_nil]
  | cons p l ih =>
    obtain ⟨d1, h1, ha⟩ := foldlM_cons_eq_ok.1 ha
    have hstep := h.apply (hl p List.mem_cons_self) h1
    rw [← List.singleton_append, ← List.append_assoc]
    exact ih hstep (fun q hq => hl q (List.mem_cons_of_mem p hq)) ha

/-- A row is bound to the number that addresses its field. -/
theorem Binds.uid_iff (h : Binds l d) (hd : d.table.NamesDistinct) (hr : r ∈ d.rows) :
    r.uid = some u ↔ Addresses l u r.field.name := by
  refine ⟨h.bound r hr u, fun hu => ?_⟩
  obtain ⟨p, hp, rfl⟩ := hu.mem
  obtain ⟨q, hq, hqu⟩ := h.housed p hp
  have hsame := hu.sameName (h.bound q hq p.uid hqu)
  obtain ⟨i, hi⟩ := List.mem_iff_getElem?.1 hr
  obtain ⟨j, hj⟩ := List.mem_iff_getElem?.1 hq
  have hfield : ∀ {k : Nat} {x : Row}, d.rows[k]? = some x → d.table.fields[k]? = some x.field := by
    intro k x hx
    rw [table, fields, List.getElem?_map, hx]
    rfl
  have hij := hd.eq_of_sameName (hfield hi) (hfield hj) hsame
  subst hij
  rw [hi] at hj
  cases hj
  exact hqu

/-- A row is written if edits of its field have changed main data, or if some row was moved and it
does not stand where its column was. -/
theorem Binds.isStale_iff (h : Binds l d) (htags : SameTags (Draft.of t) d)
    (hd : d.table.NamesDistinct) {i : Nat} (hr : d.rows[i]? = some r) :
    d.isStale i r ↔
      (∃ p ∈ l, Addresses l p.uid r.field.name ∧ p.WritesRow) ∨
        (∃ p ∈ l, p.action.isMove) ∧ t.fieldIndex? r.field.name ≠ some i := by
  have hmem := List.mem_of_getElem? hr
  have hn : t.NamesDistinct :=
    Table.namesDistinct_of_perm (names_perm_of_sameTags htags) hd
  obtain ⟨j, g, hg, hname, horigin⟩ := origin_of_sameTags htags hmem
  have hindex : t.fieldIndex? r.field.name = some j :=
    hn.fieldIndex?_eq_some.2 ⟨g, hg, by rw [hname]; exact Text.sameName_refl _⟩
  have hchanged : r.uid.any (· ∈ d.changed) ↔
      ∃ p ∈ l, Addresses l p.uid r.field.name ∧ p.WritesRow := by
    rw [Option.any_eq_true]
    constructor
    · intro hany
      obtain ⟨u, hu, hc⟩ := hany
      obtain ⟨p, hp, rfl, hwrites⟩ := (h.changed u).1 (of_decide_eq_true hc)
      exact ⟨p, hp, (h.uid_iff hd hmem).1 hu, hwrites⟩
    · intro hex
      obtain ⟨p, hp, haddresses, hwrites⟩ := hex
      exact ⟨p.uid, (h.uid_iff hd hmem).2 haddresses,
        decide_eq_true ((h.changed p.uid).2 ⟨p, hp, rfl, hwrites⟩)⟩
  unfold isStale
  rw [Bool.or_eq_true, Bool.and_eq_true, hchanged, h.moved, hindex, horigin]
  simp

end Draft

end TableAlteration
