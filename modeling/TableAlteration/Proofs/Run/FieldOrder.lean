import TableAlteration.Proofs.Edit.InPlace
import TableAlteration.Proofs.Run.Commit
import TableAlteration.Proofs.Store.Catalog

namespace TableAlteration

namespace Table

theorem names_storeFields {t : Table} (h : t.NamesDistinct) (stale : Nat → Row → Bool)
    {rows : List Row} (hsub : ∀ r ∈ rows, r.field.name ∈ t.names) (n : Nat) :
    (t.storeFields (((rows.zipIdx n).filter fun (r, i) => stale i r).map
      fun (r, i) => (i, r.field))).names =
        placeFrom t.names n ((rows.zipIdx n).map fun (r, i) => (r.field.name, stale i r)) := by
  induction rows generalizing t n with
  | nil => rfl
  | cons r rows ih =>
    have hr : r.field.name ∈ t.names := hsub r List.mem_cons_self
    have hrows : ∀ q ∈ rows, q.field.name ∈ t.names := fun q hq =>
      hsub q (List.mem_cons_of_mem r hq)
    rw [List.zipIdx_cons, List.filter_cons, List.map_cons, placeFrom]
    cases hs : stale n r with
    | false =>
      simp only [hs, Bool.false_eq_true, if_false]
      exact ih h hrows (n + 1)
    | true =>
      have hperm := names_storeField_perm h hr n
      simp only [hs, if_true, List.map_cons]
      rw [← names_storeField h hr]
      exact ih (namesDistinct_of_perm hperm.symm h) (fun q hq => hperm.mem_iff.2 (hrows q hq))
        (n + 1)

end Table

namespace Draft

/-- The names of the fields in order, marked if their catalog rows are written. -/
def marks (d : Draft) : List (String × Bool) :=
  d.rows.zipIdx.map fun (r, i) => (r.field.name, d.isStale i r)

theorem names_marks (d : Draft) : d.marks.map (·.1) = d.table.names := by
  rw [marks, List.map_map, Table.names, table, fields, List.map_map]
  have hfst : d.rows.zipIdx.map Prod.fst = d.rows := List.zipIdx_map_fst 0 d.rows
  conv_rhs => rw [← hfst, List.map_map]
  rfl

theorem marks_getElem? {d : Draft} {i : Nat} {p : String × Bool} (h : d.marks[i]? = some p) :
    ∃ r, d.rows[i]? = some r ∧ p = (r.field.name, d.isStale i r) := by
  rw [marks, List.getElem?_map, List.getElem?_zipIdx, Option.map_map] at h
  obtain ⟨r, hr, rfl⟩ := Option.map_eq_some_iff.1 h
  exact ⟨r, hr, by simp⟩

theorem marks_of_getElem? {d : Draft} {i : Nat} {r : Row} (h : d.rows[i]? = some r) :
    d.marks[i]? = some (r.field.name, d.isStale i r) := by
  rw [marks, List.getElem?_map, List.getElem?_zipIdx, h]
  simp

/-- No row that is written after another one had its column in front of an earlier row that is not
written. -/
def StaysInOrder (d : Draft) : Prop :=
  ∀ (k j i : Nat) y x z o, k < j → j < i → d.rows[k]? = some y → d.isStale k y = false →
    d.rows[j]? = some x → d.isStale j x → d.rows[i]? = some z → d.isStale i z →
    z.origin = some o → k ≤ o.position

section Tags

variable {t : Table} {d : Draft}

/-- A row that is not written stands where its column was. -/
theorem origin_of_not_stale (h : SameTags (Draft.of t) d) {k : Nat} {r : Row}
    (hr : d.rows[k]? = some r) (hs : d.isStale k r = false) : t.names[k]? = some r.field.name := by
  obtain ⟨i, f, hi, hname, ho⟩ := origin_of_sameTags h (List.mem_of_getElem? hr)
  have hik : i = k := by
    unfold isStale at hs
    rw [Bool.or_eq_false_iff] at hs
    cases hm : d.moved with
    | true => simpa [hm, ho] using hs.2
    | false =>
      obtain ⟨-, e⟩ := h.still hm
      have hk := congrArg (·[k]?) e
      rw [map_tag_of] at hk
      simp only [List.getElem?_map, hr, List.getElem?_zipIdx, Option.map_some] at hk
      obtain ⟨⟨g, j⟩, hj, e'⟩ := Option.map_eq_some_iff.1 hk.symm
      obtain ⟨g', hg', e''⟩ := Option.map_eq_some_iff.1 hj
      have hkj : k = j := by simpa using congrArg Prod.snd e''
      have hor := congrArg Prod.snd e'
      simp only [Row.tag, ho, Option.some.injEq, Origin.mk.injEq] at hor
      omega
  subst hik
  exact names_getElem?_origin h (List.mem_of_getElem? hr) ho

/-- The order that the writes lead to. -/
theorem names_stored_iff (hn : t.NamesDistinct) (h : SameTags (Draft.of t) d) :
    (t.storeFields d.staleFields).names = d.table.names ↔ d.StaysInOrder := by
  have hperm := names_perm_of_sameTags h
  have hsub : ∀ r ∈ d.rows, r.field.name ∈ t.names := by
    intro r hr
    refine hperm.mem_iff.1 ?_
    rw [Table.names, table, fields, List.map_map]
    exact List.mem_map_of_mem hr
  have hstored : (t.storeFields d.staleFields).names = placeFrom t.names 0 d.marks :=
    t.names_storeFields hn d.isStale hsub 0
  have hfix : ∀ (k : Nat) y, d.marks[k]? = some (y, false) → t.names[k]? = some y := by
    intro k y hk
    obtain ⟨r, hr, e⟩ := marks_getElem? hk
    obtain ⟨rfl, hs⟩ := Prod.mk.inj e
    exact origin_of_not_stale h hr hs.symm
  have hmarks : t.names.Perm (d.marks.map (·.1)) := by
    rw [names_marks]
    exact hperm.symm
  rw [hstored, ← names_marks, placeFrom_eq_iff hn.names_nodup hmarks hfix]
  constructor
  · intro hall k j i y x z o hkj hji hk hks hj hjs hi his ho
    have hy := marks_of_getElem? hk
    have hx := marks_of_getElem? hj
    have hz := marks_of_getElem? hi
    rw [hks] at hy
    rw [hjs] at hx
    rw [his] at hz
    exact hall k j i _ _ _ o.position hkj hji hy hx hz
      (names_getElem?_origin h (List.mem_of_getElem? hi) ho)
  · intro hall k j i y x z m hkj hji hk hj hi hm
    obtain ⟨ry, hry, ey⟩ := marks_getElem? hk
    obtain ⟨rx, hrx, ex⟩ := marks_getElem? hj
    obtain ⟨rz, hrz, ez⟩ := marks_getElem? hi
    obtain ⟨rfl, hys⟩ := Prod.mk.inj ey
    obtain ⟨rfl, hxs⟩ := Prod.mk.inj ex
    obtain ⟨rfl, hzs⟩ := Prod.mk.inj ez
    obtain ⟨i', f, -, -, ho⟩ := origin_of_sameTags h (List.mem_of_getElem? hrz)
    have hle := hall k j i ry rx rz ⟨f.name, i'⟩ hkj hji hry hys.symm hrx hxs.symm hrz hzs.symm ho
    have hm' := names_getElem?_origin h (List.mem_of_getElem? hrz) ho
    have hlt : m < t.names.length := (List.getElem?_eq_some_iff.1 hm).1
    have e := (List.getElem?_inj hlt hn.names_nodup).1 (hm.trans hm'.symm)
    rw [e]
    exact hle

end Tags

end Draft

/-- After an edit in place the fields in the catalog are in the order of the returned table exactly
if the edited rows stay in order. -/
theorem Alteration.inPlace_order_iff {a : Alteration} {table : String} {t : Table} {w w' : World}
    {o : Outcome} (h : a.execute table .commit w = (.ok o, w')) (hs : o.strategy = some .inPlace)
    (hw : w.database.AnswersFromCatalog)
    (ht : w.database.catalog.table? table = some t) (hn : t.NamesDistinct) :
    ∃ l r d c, planAll a.actions = .ok l ∧ Reduction.of l = .ok r ∧
      edited t r.ordered = .ok d ∧ o.table = some d.table ∧
      w'.database.catalog.table? table = some c ∧
      (c.names = d.table.names ↔ d.StaysInOrder) := by
  obtain ⟨t', l, r, ⟨db, hlookup⟩, hplan, hreduce, hstrategy, hcommits⟩ := execute_eq_ok h
  have ht' := tableSchema_eq_catalog hw hlookup
  rw [ht] at ht'
  cases ht'
  have hphysical := Strategy.physical_of_inPlace (hstrategy.symm.trans hs)
  cases hcommits with
  | idle hnone =>
    rw [hs] at hnone
    cases hnone
  | rebuild hrebuild =>
    rw [hs] at hrebuild
    cases hrebuild
  | @inPlace d c hs' hd htable hc hw' =>
    obtain ⟨-, htags⟩ := sameTags_of_edited (Reduction.keepsNames hplan hreduce hphysical) hd
    have hd0 : d.name = t.name := htags.name
    rw [hd0] at hc
    refine ⟨l, r, _, _, hplan, hreduce, hd, htable, ?_, Draft.names_stored_iff hn htags⟩
    have hcatalog : w'.database.catalog =
        if r.requirements.extended && a.settings.storeExtendedSchema then
          c.storeExtended d.table
        else c := Database.catalog_of_written hw'
    have htables : w'.database.catalog.table? table = c.table? table := by
      rw [hcatalog]
      split <;> rfl
    rw [htables]
    exact Catalog.table?_storeFields?_name ht hc

def fourColumns : World where
  database := ({} : Database).withTable ⟨"t", [{ name := "a", type := .integer },
    { name := "b", type := .integer }, { name := "c", type := .integer },
    { name := "d", type := .integer }], []⟩
  clock := newYear
  suffixes := fun _ => 0

def twoMoves : Alteration := { actions := [.move ⟨1⟩ "c" 0, .move ⟨2⟩ "a" 3] }

theorem Alteration.inPlace_order_iff_of_two_moves :
    ∃ o w' d c, twoMoves.execute "t" .commit fourColumns = (.ok o, w') ∧
      o.table = some (Draft.table d) ∧ w'.database.catalog.table? "t" = some c ∧
      (c.names = d.table.names ↔ d.StaysInOrder) := by
  have hstrategy : (twoMoves.execute "t" .commit fourColumns).1.map (·.strategy) =
      .ok (some .inPlace) := by decide +kernel
  obtain ⟨o, ho, hs⟩ := map_eq_ok.1 hstrategy
  have hrun := Run.eq_of_fst ho
  obtain ⟨l, r, d, c, -, -, -, htable, hc, hiff⟩ :=
    inPlace_order_iff hrun hs ⟨rfl, rfl⟩ rfl (by decide)
  exact ⟨o, _, d, c, hrun, htable, hc, hiff⟩

/-- A first field that goes to the end pushes the second one aside, which is not written. -/
theorem Alteration.inPlace_order_differs :
    ∃ o w', twoMoves.execute "t" .commit fourColumns = (.ok o, w') ∧
      o.strategy = some .inPlace ∧
      o.table.map Table.names = some ["c", "b", "d", "a"] ∧
      (w'.database.catalog.table? "t").map Table.names = some ["c", "d", "b", "a"] := by
  have hresult : (twoMoves.execute "t" .commit fourColumns).1.map
      (fun o => (o.strategy, o.table.map Table.names)) =
        .ok (some .inPlace, some ["c", "b", "d", "a"]) := by decide +kernel
  have hcatalog : ((twoMoves.execute "t" .commit fourColumns).2.database.catalog.table? "t").map
      Table.names = some ["c", "d", "b", "a"] := by decide +kernel
  obtain ⟨o, ho, e⟩ := map_eq_ok.1 hresult
  obtain ⟨hs, ht⟩ := Prod.mk.inj e
  exact ⟨o, _, Run.eq_of_fst ho, hs, ht, hcatalog⟩

end TableAlteration
