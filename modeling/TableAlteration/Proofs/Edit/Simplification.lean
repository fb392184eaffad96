import TableAlteration.Proofs.Edit.Coherence

namespace TableAlteration

/-- Edits that belong together. `home` tells which column of the table a number stands for; other
numbers stand for inserted fields, whose first edit is their insertion. Each edit names its field as
it is called then, nothing follows a removal, and `type` and `primaryKey` are set once. -/
structure Consistent (t : Table) (home : Uid → Option Nat) (actions : List Action) : Prop where
  distinct : ∀ u v i, home u = some i → home v = some i → u = v
  existing : ∀ u i, home u = some i →
    ∃ f, t.fields[i]? = some f ∧ Follows f.name (actions.filter fun a => a.uid = u)
  inserted : ∀ u, home u = none → (actions.filter fun a => a.uid = u) = [] ∨
    ∃ i f rest, (actions.filter fun a => a.uid = u) = .insert u i f :: rest ∧ Follows f.name rest
  once : ∀ u, SetsOnce (actions.filter fun a => a.uid = u)

variable {t : Table} {home : Uid → Option Nat} {actions : List Action} {l : List Planned}
  {u : Uid} {d d' : Draft}

namespace Consistent

theorem coherent (hc : Consistent t home actions) : Coherent t home actions :=
  ⟨hc.distinct, hc.existing, hc.inserted⟩

theorem addressed (hc : Consistent t home actions) (h : l.map Planned.action = actions) :
    Addressed t home l := hc.coherent.addressed h

theorem living (hc : Consistent t home actions) (h : l.map Planned.action = actions) :
    Living t home l := hc.coherent.living h

/-- Every field ends as its record has it. -/
theorem endsAlike (hc : Consistent t home actions) (hp : planAll actions = .ok l)
    {s : Option Field} (hs : fate t home l u = .ok s) :
    ∃ r, Record.ofHistory (editsOf u l) = .ok r ∧ Record.EndsAlike s r (start t home u) := by
  have hactions := planAll_actions hp
  have ho : (editsOf u l).Pairwise fun a b => a.order < b.order := (planAll_ascending hp).filter _
  have hu : ∀ q ∈ editsOf u l, q.uid = u := fun q hq => (mem_editsOf.1 hq).2
  have hone := hc.once u
  rw [← actions_editsOf hactions] at hone
  cases hh : home u with
  | some i =>
    obtain ⟨f, hf, hfollows⟩ := hc.existing u i hh
    rw [← actions_editsOf hactions] at hfollows
    have hstart : start t home u = some f := by simp [start, hh, hf]
    rw [fate, hstart] at hs
    rw [hstart]
    exact Record.endsAlike_of_existing ho hu hfollows hone hs
  | none =>
    have hstart : start t home u = none := start_of_home_eq_none hh
    rw [fate, hstart] at hs
    rw [hstart]
    have hl := hc.inserted u hh
    rw [← actions_editsOf hactions, List.map_eq_nil_iff] at hl
    rcases hl with he | ⟨i, f, rest, he, hfollows⟩
    · rw [he] at hs ⊢
      cases hs
      exact ⟨{}, rfl, none, rfl, rfl⟩
    · obtain ⟨p, k, hk, ha, rfl⟩ := List.map_eq_cons_iff.1 he
      rw [hk] at hs ho hu hone ⊢
      exact Record.endsAlike_of_inserted ha ho hu hfollows hone.tail hs

end Consistent

/-- The remaining edits that affect the order are the submitted ones, if none is given up. -/
theorem placings_ordered (hc : Consistent t home actions) (hp : planAll actions = .ok l)
    (hk : ∀ u, KeepsPlaces (actions.filter fun a => a.uid = u)) {r : Reduction}
    (hr : Reduction.of l = .ok r) : placings r.ordered = placings l :=
  placings_eq (placings_perm fun u => hc.coherent.placings_editsOf_ordered hp (hk u) hr)
    (inOrder_pairwise _) (planAll_ascending hp)

/-- The remaining edits of a field of the table have its name at the start. -/
theorem addressed_ordered (hc : Consistent t home actions) (hp : planAll actions = .ok l)
    {r : Reduction} (hr : Reduction.of l = .ok r) : Addressed t home r.ordered :=
  hc.coherent.addressed_ordered hp hr

theorem namesDistinct_of_content_perm
    (h : (d.rows.map Row.content).Perm (d'.rows.map Row.content)) :
    d.table.NamesDistinct ↔ d'.table.NamesDistinct := by
  have names : ∀ d : Draft, (d.table.fields.map fun f => Text.fold f.name) =
      (d.rows.map Row.content).map fun c => c.2.2.name := by
    intro d
    rw [Draft.table, Draft.fields, List.map_map, List.map_map]
    rfl
  unfold Table.NamesDistinct
  rw [names, names]
  exact (h.map _).nodup_iff

/-- If a list of edits can be made, it can be reduced, and what remains of it leads to the same
fields: the same columns of the table and the same inserted fields are there, with the same
definitions, and the table is accepted or rejected alike. They are in the same order if no edit that
affects it is given up. -/
theorem Reduction.preserves_meaning (hn : t.NamesDistinct) (hc : Consistent t home actions)
    (hp : planAll actions = .ok l) (hd : (Draft.of t).applyAll l = .ok d) :
    ∃ r d', Reduction.of l = .ok r ∧ (Draft.of t).applyAll r.ordered = .ok d' ∧
      (d.rows.map Row.content).Perm (d'.rows.map Row.content) ∧
      ((∃ e, d.finish = .ok e) ↔ ∃ e, d'.finish = .ok e) ∧
      ((∀ u, KeepsPlaces (actions.filter fun a => a.uid = u)) →
        d.rows.map Row.content = d'.rows.map Row.content) := by
  have hactions := planAll_actions hp
  have hbegin := tracks_of_table t home
  have htracks : Tracks t home ([] ++ l) d.rows :=
    hbegin.of_applyAll hn (hc.addressed hactions) (hc.living hactions) hd
  obtain ⟨r, hr⟩ : ∃ r, Reduction.of l = .ok r := by
    refine of_ok fun u => ?_
    rw [inOrder_of_planAll hp]
    obtain ⟨s, hs⟩ := htracks.fates u
    obtain ⟨r, hr, -⟩ := hc.endsAlike hp hs
    exact ⟨r, hr⟩
  have halike : ∀ u s, fate t home l u = .ok s →
      ∃ s', fate t home r.ordered u = .ok s' ∧ s'.map Field.folded = s.map Field.folded := by
    intro u s hs
    obtain ⟨q, hq, he⟩ := hc.endsAlike hp hs
    obtain ⟨q', hq', hedits⟩ := editsOf_ordered hr u
    rw [inOrder_of_planAll hp, hq] at hq'
    cases hq'
    rw [fate, hedits]
    exact he
  have hfates : ∀ u, ∃ s, fate t home ([] ++ r.ordered) u = .ok s := by
    intro u
    obtain ⟨s, hs⟩ := htracks.fates u
    obtain ⟨s', hs', -⟩ := halike u s hs
    exact ⟨s', hs'⟩
  obtain ⟨d', hd', htracks'⟩ := hbegin.applyAll hn (addressed_ordered hc hp hr) hfates
  have hperm : (d.rows.map Row.content).Perm (d'.rows.map Row.content) := by
    refine htracks.content_perm hc.distinct htracks' fun u s s' hs hs' => ?_
    obtain ⟨s1, h1, e⟩ := halike u s hs
    have h1 := h1.symm.trans hs'
    cases h1
    exact e.symm
  refine ⟨r, d', hr, hd', hperm, ?_, fun hk => ?_⟩
  · simp only [Draft.finish_eq_ok, exists_and_left, exists_eq, and_true]
    exact namesDistinct_of_content_perm hperm
  · have hkeys : d.rows.map Row.key = d'.rows.map Row.key := by
      rw [Draft.keys_of_applyAll hn (hc.addressed hactions) htracks.fates hd,
        Draft.keys_of_applyAll hn (addressed_ordered hc hp hr) hfates hd',
        placings_ordered hc hp hk hr]
    exact htracks.content_eq hc.distinct hperm hkeys

/-- A name is given up and taken over by an inserted field. -/
theorem Reduction.preserves_meaning_of_takeover :
    ∃ r d', Reduction.of
        [⟨0, { physical := true, main := true }, .rename ⟨0⟩ "a" "b"⟩,
          ⟨1, { physical := true }, .insert ⟨1⟩ 0 { name := "a", type := .date }⟩,
          ⟨2, { physical := true, main := true }, .rename ⟨0⟩ "B" "c"⟩] = .ok r ∧
      (Draft.of ⟨"t", [{ name := "a", type := .byte }], []⟩).applyAll r.ordered = .ok d' ∧
      d'.rows.map Row.content = [⟨{ name := "a", type := .date }, some ⟨1⟩, none⟩,
        ⟨{ name := "c", type := .byte }, some ⟨0⟩, some ⟨"a", 0⟩⟩].map Row.content ∧
      ∃ e, d'.finish = .ok e := by
  have other : ∀ u : Uid, u = ⟨0⟩ ∨ u = ⟨1⟩ ∨ [Action.rename ⟨0⟩ "a" "b",
      .insert ⟨1⟩ 0 { name := "a", type := .date },
      .rename ⟨0⟩ "B" "c"].filter (fun a => a.uid = u) = [] := by
    intro u
    by_cases h0 : (⟨0⟩ : Uid) = u
    · exact .inl h0.symm
    · by_cases h1 : (⟨1⟩ : Uid) = u
      · exact .inr (.inl h1.symm)
      · exact .inr (.inr (by simp [Action.rename, Action.uid, h0, h1]))
  have hplaces : ∀ u : Uid, KeepsPlaces ([Action.rename ⟨0⟩ "a" "b",
      .insert ⟨1⟩ 0 { name := "a", type := .date },
      .rename ⟨0⟩ "B" "c"].filter fun a => a.uid = u) := by
    intro u
    rcases other u with rfl | rfl | h
    · exact ⟨by decide, by decide⟩
    · exact ⟨by decide, by decide⟩
    · rw [h]
      exact ⟨by decide, by decide⟩
  have hc : Consistent ⟨"t", [{ name := "a", type := .byte }], []⟩
      (fun u => if u.number = 0 then some 0 else none)
      [.rename ⟨0⟩ "a" "b", .insert ⟨1⟩ 0 { name := "a", type := .date },
        .rename ⟨0⟩ "B" "c"] := by
    refine ⟨?_, ?_, ?_, ?_⟩
    · intro u v i hm hn
      obtain ⟨m⟩ := u
      obtain ⟨n⟩ := v
      simp only [Option.ite_none_right_eq_some] at hm hn
      rw [hm.1, hn.1]
    · intro u i hu
      simp only [Option.ite_none_right_eq_some] at hu
      obtain ⟨h0, hi⟩ := hu
      cases hi
      obtain rfl : u = ⟨0⟩ := congrArg Uid.mk h0
      exact ⟨_, rfl, by decide⟩
    · intro u hu
      rcases other u with rfl | rfl | h
      · cases hu
      · exact .inr ⟨_, _, _, rfl, by decide⟩
      · exact .inl h
    · intro u
      rcases other u with rfl | rfl | h
      · decide
      · decide
      · rw [h]
        decide
  have hd : (Draft.of ⟨"t", [{ name := "a", type := .byte }], []⟩).applyAll
        [⟨0, { physical := true, main := true }, .rename ⟨0⟩ "a" "b"⟩,
          ⟨1, { physical := true }, .insert ⟨1⟩ 0 { name := "a", type := .date }⟩,
          ⟨2, { physical := true, main := true }, .rename ⟨0⟩ "B" "c"⟩] = .ok
      ⟨"t", [⟨{ name := "a", type := .date }, some ⟨1⟩, none⟩,
        ⟨{ name := "c", type := .byte }, some ⟨0⟩, some ⟨"a", 0⟩⟩], [], [⟨0⟩, ⟨0⟩], false⟩ := rfl
  obtain ⟨r, d', hr, hd', -, hfinish, horder⟩ :=
    Reduction.preserves_meaning (by decide) hc rfl hd
  exact ⟨r, d', hr, hd', (horder hplaces).symm, hfinish.1 ⟨_, rfl⟩⟩

end TableAlteration
