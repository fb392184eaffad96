import TableAlteration.Proofs.Edit.Coherence
import TableAlteration.Proofs.Edit.Interleaving

namespace TableAlteration

/-- The edit names its field anew; an insertion has no name but that of its definition. -/
def Planned.renamedTo (n : String) (p : Planned) : Planned :=
  if p.action.isInsertion then p else p.withFieldName n

namespace Planned

theorem renamedTo_of_insertion {p : Planned} (n : String) (h : p.action.isInsertion) :
    p.renamedTo n = p := if_pos h

theorem renamedTo_of_not_insertion {p : Planned} (n : String) (h : p.action.isInsertion = false) :
    p.renamedTo n = p.withFieldName n := if_neg (by simp [h])

theorem order_renamedTo (p : Planned) (n : String) : (p.renamedTo n).order = p.order := by
  unfold renamedTo
  split <;> rfl

end Planned

namespace Record

variable {u : Uid} {r s : Record} {p : Planned} {h : List Planned}

theorem withFieldName_withFieldName (r : Record) (m n : String) :
    (r.withFieldName m).withFieldName n = r.withFieldName n := by
  have hproperties : ((r.withFieldName m).withFieldName n).properties =
      (r.withFieldName n).properties := by
    refine Dict.ext fun k => ?_
    simp only [withFieldName, Dict.get?_map]
    exact Planned.map_withFieldName_map _ m n
  unfold withFieldName at hproperties ⊢
  simp only [Planned.map_withFieldName_map] at hproperties ⊢
  rw [hproperties]

/-- A record whose edits name their field anew takes in edits that do so. -/
theorem Absorbs.renamed (ha : Absorbs p s r) (n : String) :
    Absorbs (p.renamedTo n) (s.withFieldName n) (r.withFieldName n) := by
  have hother : ∀ {a : Action}, p.action = a → a.isInsertion = false →
      p.renamedTo n = p.withFieldName n ∧ (p.renamedTo n).action = a.withFieldName n := by
    intro a ha hi
    subst ha
    rw [Planned.renamedTo_of_not_insertion n hi]
    exact ⟨rfl, rfl⟩
  cases ha with
  | @rename u f m v ha hn h1 h2 =>
    obtain ⟨hp, ha'⟩ := hother ha rfl
    have hresult : ({ s with rename := some p }.withFieldName f).withFieldName n =
        { s.withFieldName n with rename := some (p.renamedTo n) }.withFieldName n := by
      rw [hp, withFieldName_withFieldName, ← withFieldName_withFieldName _ n n]
      rfl
    rw [hresult]
    exact .rename ha' hn (by simp [Record.withFieldName, h1]) (by simp [Record.withFieldName, h2])
  | @merge u f m v ha hn h1 =>
    obtain ⟨-, ha'⟩ := hother ha rfl
    have hresult : (s.withFieldName f).withFieldName n =
        (s.withFieldName n).withFieldName n := by
      rw [withFieldName_withFieldName, withFieldName_withFieldName]
    rw [hresult]
    exact .merge ha' hn (by simpa [Record.withFieldName] using h1)
  | @change u f m v ha hn h1 h2 =>
    obtain ⟨hp, ha'⟩ := hother ha rfl
    have hresult : { s with properties := s.properties.insert (Text.fold m) p }.withFieldName n =
        { s.withFieldName n with
          properties := (s.withFieldName n).properties.insert (Text.fold m) (p.renamedTo n) } := by
      rw [hp]
      exact congrArg (fun d => { s.withFieldName n with properties := d })
        (Dict.map_insert s.properties _ p _)
    rw [hresult]
    exact .change ha' hn (by simp [Record.withFieldName, h1])
      (by simp [Record.withFieldName, Dict.get?_map, h2])
  | overwritten ha hn h1 =>
    obtain ⟨-, ha'⟩ := hother ha rfl
    exact .overwritten ha' hn (by simpa [Record.withFieldName, Dict.get?_map] using h1)
  | remove ha =>
    obtain ⟨hp, ha'⟩ := hother ha rfl
    have h := Absorbs.remove (r := s.withFieldName n) ha'
    rwa [hp] at h ⊢
  | cancel ha h1 =>
    rw [Planned.renamedTo_of_insertion n (by rw [ha]; rfl)]
    exact .cancel ha (by simpa [Record.withFieldName] using h1)
  | insert ha h1 h2 =>
    rw [Planned.renamedTo_of_insertion n (by rw [ha]; rfl)]
    rw [← foldInto_withFieldName s n] at h2
    exact .insert ha (by simp [Record.withFieldName, h1]) h2
  | move ha h1 h2 =>
    obtain ⟨hp, ha'⟩ := hother ha rfl
    have h := Absorbs.move (r := s.withFieldName n) ha' (by simp [Record.withFieldName, h1])
      (by simp [Record.withFieldName, h2])
    rwa [hp] at h ⊢
  | superseded ha h1 =>
    obtain ⟨-, ha'⟩ := hother ha rfl
    exact .superseded ha' (by simpa [Record.withFieldName] using h1)

theorem ofHistory_renamed {l : List Planned} (n : String) (hr : ofHistory l = .ok r) :
    ofHistory (l.map (Planned.renamedTo n)) = .ok (r.withFieldName n) := by
  induction l generalizing r with
  | nil =>
    cases hr
    rfl
  | cons p l ih =>
    obtain ⟨s, hs, ha⟩ := ofHistory_cons.1 hr
    rw [List.map_cons]
    exact ofHistory_cons.2 ⟨s.withFieldName n, ih hs, ha.renamed n⟩

theorem Tidy.toList_withFieldName (tidy : r.Tidy u) (n : String) :
    (r.withFieldName n).toList = r.toList.map (Planned.renamedTo n) := by
  have hslot : ∀ o : Option Planned, (∀ p, o = some p → p.action.isInsertion = false) →
      (o.map (Planned.withFieldName n)).toList = o.toList.map (Planned.renamedTo n) := by
    intro o ho
    cases o with
    | none => rfl
    | some p =>
      rw [Option.toList_some, List.map_singleton,
        Planned.renamedTo_of_not_insertion n (ho p rfl)]
      rfl
  have hinsertion : r.insertion.toList = r.insertion.toList.map (Planned.renamedTo n) := by
    cases hi : r.insertion with
    | none => rfl
    | some p =>
      obtain ⟨i, d, e⟩ := tidy.insertion p hi
      rw [Option.toList_some, List.map_singleton,
        Planned.renamedTo_of_insertion n (by rw [e]; rfl)]
  have hvalues : (r.withFieldName n).properties.values =
      r.properties.values.map (Planned.renamedTo n) := by
    rw [values_withFieldName]
    refine List.map_congr_left fun p hp => ?_
    obtain ⟨k, hk⟩ := Dict.mem_values.1 hp
    obtain ⟨f, m, v, e, -⟩ := tidy.properties k p hk
    rw [Planned.renamedTo_of_not_insertion n (by rw [e]; rfl)]
  have hremoval := hslot r.removal fun p hp => by
    obtain ⟨f, e⟩ := tidy.removal p hp
    rw [e]
    rfl
  have hrename := hslot r.rename fun p hp => by
    obtain ⟨f, m, v, e, -⟩ := tidy.rename p hp
    rw [e]
    rfl
  have hmovement := hslot r.movement fun p hp => by
    obtain ⟨f, i, e⟩ := tidy.movement p hp
    rw [e]
    rfl
  unfold toList
  simp only [List.map_append, ← hvalues, ← hremoval, ← hrename, ← hmovement, ← hinsertion]
  rfl

/-- Taken in again in their order, the edits of the record make it up once more. -/
def Stable (r : Record) : Prop := ofHistory (inOrder r.toList) = .ok r

theorem Stable.withFieldName (hr : r.Stable) (tidy : r.Tidy u) (n : String) :
    (r.withFieldName n).Stable := by
  unfold Stable
  rw [tidy.toList_withFieldName, inOrder_map fun p => p.order_renamedTo n]
  exact ofHistory_renamed n hr

/-- The edit taken in comes before all others. -/
theorem Stable.cons (hs : s.Stable) (ha : Absorbs p s r)
    (hlist : inOrder r.toList = p :: inOrder s.toList) : r.Stable := by
  unfold Stable
  rw [hlist]
  exact ofHistory_cons.2 ⟨s, hs, ha⟩

/-- A removal comes before all that is recorded beside it. -/
def RemovalFirst (r : Record) : Prop :=
  ∀ p, r.removal = some p → ∀ q ∈ { r with removal := none }.toList, p.order < q.order

theorem mem_of_mem_withoutRemoval {q : Planned} (hq : q ∈ { r with removal := none }.toList) :
    q ∈ r.toList := by
  rw [mem_toList] at hq ⊢
  simp only [reduceCtorEq, false_or] at hq
  exact .inr hq

/-- What is recorded beside a removal is stable without it. -/
theorem Stable.withoutRemoval (hr : r.Stable) (tidy : r.Tidy u) (hfirst : r.RemovalFirst) :
    { r with removal := none }.Stable := by
  cases hrem : r.removal with
  | none =>
    have heq : { r with removal := none } = r := by rw [← hrem]
    rw [heq]
    exact hr
  | some q =>
    have hlist : inOrder r.toList = q :: inOrder { r with removal := none }.toList := by
      have htoList : r.toList = q :: { r with removal := none }.toList := by
        unfold toList
        rw [hrem]
        rfl
      rw [htoList]
      exact inOrder_cons fun x hx => Nat.le_of_lt (hfirst q hrem x hx)
    unfold Stable at hr
    rw [hlist] at hr
    obtain ⟨t, ht, ha⟩ := ofHistory_cons.1 hr
    obtain ⟨f, hq⟩ := tidy.removal q hrem
    have tidy' : { r with removal := none }.Tidy u := { tidy with removal := by simp }
    have hnone : t.removal = none := by
      refine removal_eq_none_of_history (fun x hx => tidy'.uid (mem_inOrder.1 hx)) ?_ ht
      intro x hx
      exact tidy'.isRemoval_eq_false rfl (mem_inOrder.1 hx)
    have htr : t = { r with removal := none } := by
      cases ha with
      | remove => rw [← hnone]
      | rename ha | merge ha | change ha | overwritten ha | cancel ha | insert ha | move ha
      | superseded ha =>
        rw [hq] at ha
        cases ha
    rw [htr] at ht
    exact ht

/-- Beside the edits of the one record the other has this one, somewhere among them. -/
def Adds (p : Planned) (s r : Record) : Prop :=
  ∃ before after, s.toList = before ++ after ∧ r.toList = before ++ p :: after

theorem Adds.inOrder_toList (h : Adds p s r) (hp : ∀ q ∈ s.toList, p.order < q.order) :
    inOrder r.toList = p :: inOrder s.toList := by
  obtain ⟨before, after, hs, hr⟩ := h
  rw [hs] at hp ⊢
  rw [hr]
  exact inOrder_middle hp

theorem adds_property {k : String} (h : s.properties.get? k = none) :
    Adds p s { s with properties := s.properties.insert k p } := by
  obtain ⟨a, b, hvalues, hinserted⟩ := Dict.values_insert_of_get?_none p h
  refine ⟨s.removal.toList ++ s.insertion.toList ++ s.rename.toList ++ a,
    b ++ s.movement.toList, ?_, ?_⟩
  · simp [toList, hvalues]
  · simp [toList, hinserted]

theorem adds_rename (h : s.rename = none) : Adds p s { s with rename := some p } := by
  refine ⟨s.removal.toList ++ s.insertion.toList, s.properties.values ++ s.movement.toList, ?_, ?_⟩
  · simp [toList, h]
  · simp [toList]

theorem adds_movement (h : s.movement = none) : Adds p s { s with movement := some p } := by
  refine ⟨s.removal.toList ++ s.insertion.toList ++ s.rename.toList ++ s.properties.values, [],
    ?_, ?_⟩
  · simp [toList, h]
  · simp [toList]

theorem Absorbs.removalFirst (ha : Absorbs p s r) (hs : s.RemovalFirst)
    (hp : ∀ q ∈ s.toList, p.order < q.order) : r.RemovalFirst := by
  have of_none : r.removal = none → r.RemovalFirst := by
    intro hr q hq
    rw [hr] at hq
    cases hq
  cases ha with
  | rename ha hn h1 h2 => exact of_none (by simp [Record.withFieldName, h2])
  | change ha hn h1 h2 => exact of_none h1
  | cancel => exact of_none rfl
  | insert ha h1 h2 => exact of_none h1
  | move ha h1 h2 => exact of_none h1
  | overwritten | superseded => exact hs
  | remove ha =>
    intro q hq x hx
    cases hq
    exact hp x (mem_of_mem_withoutRemoval hx)
  | @merge u f n v ha hn h1 =>
    intro q hq x hx
    obtain ⟨q', hq', rfl⟩ := Option.map_eq_some_iff.1 hq
    obtain ⟨x', hx', e⟩ := bare_of_mem_withFieldName (r := { s with removal := none }) hx
    rw [Planned.order_of_bare e]
    exact hs q' hq' x' hx'

/-- Taking in an edit that comes first keeps a record stable. -/
theorem Absorbs.stable (ha : Absorbs p s r) (hu : p.uid = u) (tidy : s.Tidy u)
    (hfirst : s.RemovalFirst) (hp : ∀ q ∈ s.toList, p.order < q.order) (hs : s.Stable) :
    r.Stable := by
  cases ha with
  | overwritten | superseded => exact hs
  | cancel => rfl
  | @merge u f n v ha hn h1 => exact hs.withFieldName tidy f
  | change ha hn h1 h2 => exact hs.cons (.change ha hn h1 h2) ((adds_property h2).inOrder_toList hp)
  | move ha h1 h2 => exact hs.cons (.move ha h1 h2) ((adds_movement h2).inOrder_toList hp)
  | @rename u' f n v ha hn h1 h2 =>
    -- the rename is taken in once more after all edits have got the name it starts from
    have hrenamed : { s with rename := some p }.Tidy u := by
      refine { tidy with rename := ?_ }
      intro q hq
      cases hq
      rw [← hu, Planned.uid, ha]
      exact ⟨f, n, v, rfl, hn⟩
    have hlist : inOrder ({ s with rename := some p }.withFieldName f).toList =
        (p :: inOrder s.toList).map (Planned.renamedTo f) := by
      rw [hrenamed.toList_withFieldName, inOrder_map fun q => q.order_renamedTo f,
        (adds_rename h1).inOrder_toList hp]
    unfold Stable
    rw [hlist, ← withFieldName_withFieldName _ f f]
    exact ofHistory_renamed f (ofHistory_cons.2 ⟨s, hs, .rename ha hn h1 h2⟩)
  | remove ha =>
    have hlist : inOrder { s with removal := some p }.toList =
        p :: inOrder { s with removal := none }.toList :=
      inOrder_cons fun q hq => Nat.le_of_lt (hp q (mem_of_mem_withoutRemoval hq))
    exact (hs.withoutRemoval tidy hfirst).cons (.remove ha) hlist
  | @insert u' i d g ha h1 h2 =>
    have hmove : ∀ m, s.movement = some m → m ∈ s.toList := fun m hm =>
      mem_toList.2 (.inr (.inr (.inr (.inr hm))))
    have hrest : ofHistory s.movement.toList = .ok { movement := s.movement } := by
      cases hm : s.movement with
      | none => rfl
      | some m =>
        obtain ⟨f, j, e⟩ := tidy.movement m hm
        exact ofHistory_cons.2 ⟨{}, rfl, .move e rfl rfl⟩
    have hlist := inOrder_toList_of_insertion (p := { p with action := .insert u' i g }) h1
      fun m hm => hp m (hmove m hm)
    unfold Stable
    rw [hlist, h1]
    exact ofHistory_cons.2 ⟨_, hrest, .insert rfl rfl rfl⟩

/-- The record without its rename, as it is when the rename turns out to be idle. -/
def withoutRename (r : Record) : Record := { r with rename := none }

theorem mem_of_mem_withoutRename {q : Planned} (hq : q ∈ r.withoutRename.toList) :
    q ∈ r.toList := by
  rw [mem_toList] at hq ⊢
  unfold withoutRename at hq
  simp only [reduceCtorEq, false_or] at hq
  tauto

theorem Tidy.withoutRename (tidy : r.Tidy u) : r.withoutRename.Tidy u :=
  { tidy with rename := fun _ h => by cases h }

theorem RemovalFirst.withoutRename (hfirst : r.RemovalFirst) : r.withoutRename.RemovalFirst := by
  intro p hp q hq
  refine hfirst p hp q ?_
  exact mem_of_mem_withoutRename (r := { r with removal := none }) hq

/-- But for renames, what a record takes in it takes in without its rename as well. -/
theorem Absorbs.withoutRename (ha : Absorbs p s r) :
    Absorbs p s.withoutRename r.withoutRename ∨ r.rename = none ∨
      ∃ f, r.withoutRename = s.withoutRename.withFieldName f := by
  cases ha with
  | @rename u f | @merge u f => exact .inr (.inr ⟨f, rfl⟩)
  | change ha hn h1 h2 => exact .inl (.change ha hn h1 h2)
  | overwritten ha hn h1 => exact .inl (.overwritten ha hn h1)
  | remove ha => exact .inl (.remove ha)
  | cancel | insert => exact .inr (.inl rfl)
  | move ha h1 h2 => exact .inl (.move ha h1 h2)
  | superseded ha h1 => exact .inl (.superseded ha h1)

theorem removalFirst_of_history (ho : h.Pairwise fun a b => a.order < b.order)
    (hr : ofHistory h = .ok r) : r.RemovalFirst := by
  induction h generalizing r with
  | nil =>
    cases hr
    intro p hp
    cases hp
  | cons p h ih =>
    obtain ⟨s, hs, ha⟩ := ofHistory_cons.1 hr
    exact ha.removalFirst (ih ho.of_cons hs) (order_lt_of_history ho hs)

/-- The record of a history is stable, and so it is without its rename. -/
theorem stable_of_history (ho : h.Pairwise fun a b => a.order < b.order)
    (hu : ∀ p ∈ h, p.uid = u) (hr : ofHistory h = .ok r) : r.Stable ∧ r.withoutRename.Stable := by
  induction h generalizing r with
  | nil =>
    cases hr
    exact ⟨rfl, rfl⟩
  | cons p h ih =>
    obtain ⟨s, hs, ha⟩ := ofHistory_cons.1 hr
    have hu' : ∀ q ∈ h, q.uid = u := fun q hq => hu q (List.mem_cons_of_mem p hq)
    obtain ⟨hstable, hstable'⟩ := ih ho.of_cons hu' hs
    have tidy := tidy_of_history hu' hs
    have hfirst := removalFirst_of_history ho.of_cons hs
    have hlt := order_lt_of_history ho hs
    have hp : p.uid = u := hu p List.mem_cons_self
    have hr := ha.stable hp tidy hfirst hlt hstable
    refine ⟨hr, ?_⟩
    rcases ha.withoutRename with ha' | hnone | ⟨f, hf⟩
    · exact ha'.stable hp tidy.withoutRename hfirst.withoutRename
        (fun q hq => hlt q (mem_of_mem_withoutRename hq)) hstable'
    · have heq : r.withoutRename = r := by rw [withoutRename, ← hnone]
      rwa [heq]
    · rw [hf]
      exact hstable'.withFieldName tidy.withoutRename f

theorem settled_settled (r : Record) : r.settled.settled = r.settled := by
  by_cases hi : r.renamesIdly
  · refine settled_of_rename_eq_none ?_
    unfold settled
    rw [if_pos hi]
  · have heq : r.settled = r := if_neg hi
    rw [heq, heq]

theorem stable_settled (ho : h.Pairwise fun a b => a.order < b.order) (hu : ∀ p ∈ h, p.uid = u)
    (hr : ofHistory h = .ok r) : r.settled.Stable := by
  obtain ⟨hstable, hstable'⟩ := stable_of_history ho hu hr
  unfold settled
  split
  · exact hstable'
  · exact hstable

end Record

/-- What the reduction of a list leaves is reduced to itself. -/
theorem Reduction.idempotent {actions : List Action} {l : List Planned} {r : Reduction}
    (hp : planAll actions = .ok l) (hr : Reduction.of l = .ok r) :
    Reduction.of r.ordered = .ok r := by
  rw [of_eq_ok_iff_histories]
  intro u
  obtain ⟨s, hs, hfield⟩ := field?_of hr u
  obtain ⟨s', hs', hordered⟩ := editsOf_ordered hr u
  rw [hs] at hs'
  cases hs'
  rw [inOrder_of_planAll hp] at hs
  have hstable : s.settled.Stable := by
    refine Record.stable_settled ?_ (fun p hp => (mem_editsOf.1 hp).2) hs
    exact (planAll_ascending hp).sublist List.filter_sublist
  have hsorted : inOrder r.ordered = r.ordered := inOrder_eq_self (inOrder_pairwise r.toList)
  refine ⟨s.settled, ?_, ?_⟩
  · rw [hsorted, hordered]
    exact hstable
  · rw [hfield, Record.kept?, Record.kept?, Record.settled_settled]

/-- A field that is edited after its removal, and inserted twice under one number. -/
def secondInsertion : List Action :=
  [.remove ⟨0⟩ "x", .rename ⟨0⟩ "a" "b", .insert ⟨0⟩ 0 { name := "c", type := .text },
    .change ⟨0⟩ "q" "caption" (.text "t"), .insert ⟨0⟩ 1 { name := "d", type := .date },
    .move ⟨0⟩ "z" 2]

/-- Four of its six edits are left, and stay. -/
theorem Reduction.idempotent_of_second_insertion :
    ∃ l r, planAll secondInsertion = .ok l ∧ Reduction.of l = .ok r ∧
      Reduction.of r.ordered = .ok r ∧ r.ordered.map (·.order) = [0, 1, 2, 5] :=
  ⟨_, _, rfl, rfl, @idempotent secondInsertion _ _ rfl rfl, by decide +kernel⟩

end TableAlteration
