import Mathlib
import HybridRelaxation.Proofs.System.Presentation
import HybridRelaxation.System.Tables

/-!
# Systems from tables

Tables with the data of the modes of a system, with its guards, and with its resets or none at all
where every reset is an identity, describe a system with the same jumps between the same modes.
-/

namespace HybridRelaxation

variable {K : Type} [Scalar K]

/-! ## What tables hold -/

/-- The entries are those of the reset, or the source states that are kept without one. -/
def Entries.IsResetOf (source : StatedMode K) (t : StatedTransition K) (e : Entries K) : Prop :=
  match t.reset with
  | some column => e.toColumn = .ok column
  | none => e.parts = source.states

/-- The tables hold the data of the modes, the guards and the resets of a system. -/
structure SystemTables.Holds (T : SystemTables K) (data : List (ModeEntries K))
    (s : StatedSystem K) : Prop where
  time : s.time = .one (.ofSymbol T.time)
  states : T.states.items = .ok (data.map ModeEntries.states)
  controls : T.controls.items = .ok (data.map ModeEntries.controls)
  drift : T.drift.items = .ok (data.map ModeEntries.drift)
  input : T.input.items = .ok (data.map ModeEntries.input)
  domain : T.domain.items = .ok (data.map ModeEntries.domain)
  controlSet : T.controlSet.items = .ok (data.map ModeEntries.controlSet)
  targetSet : T.targetSet.items = .ok (data.map ModeEntries.targetSet)
  runningCost : T.runningCost.items = .ok (data.map ModeEntries.runningCost)
  terminalCost : T.terminalCost.items = .ok (data.map ModeEntries.terminalCost)
  initialState : T.initialState = data.map ModeEntries.initialState
  names : ∀ (k : ℕ) d, data[k]? = some d → SystemTables.nameAt T.names k = .ok d.name
  guards : ∃ rows, T.guards.items = .ok rows ∧ rows.length = data.length ∧
    ∀ (i : ℕ) (row : Entries K), rows[i]? = some row → ∃ items, row.items = .ok items ∧
      items.length = data.length ∧ ∀ (j : ℕ) (item : Entries K), items[j]? = some item →
        item.parts = s.guard (.integer i) (.integer j)
  resets : (T.resets = .absent ∧ ∀ t ∈ s.transitions, t.reset = none) ∨
    (T.resets ≠ .absent ∧ ∀ t ∈ s.transitions, ∀ (i j : ℕ) source, t.JoinsAt s.modeCount (i, j) →
      s.modes[i]? = some source → ∃ row item, SystemTables.itemAt T.resets i = .ok row ∧
        SystemTables.itemAt row j = .ok item ∧ item.IsResetOf source t)

/-! ## Lists -/

omit [Scalar K] in
theorem SystemTables.itemAt_of_items {e : Entries K} {items : List (Entries K)}
    (h : e.items = .ok items) {k : ℕ} {item : Entries K} (hk : items[k]? = some item) :
    SystemTables.itemAt e k = .ok item := by
  simp only [SystemTables.itemAt, h, ok_bind, hk]

omit [Scalar K] in
theorem SystemTables.itemAt_map {α : Type} {e : Entries K} {data : List α} {f : α → Entries K}
    (h : e.items = .ok (data.map f)) {k : ℕ} {d : α} (hk : data[k]? = some d) :
    SystemTables.itemAt e k = .ok (f d) :=
  SystemTables.itemAt_of_items h (by rw [List.getElem?_map, hk, Option.map_some])

theorem forall₂_filterMap_id {α β : Type} {r : α → Option β → Prop} {P : α → Bool} {xs : List α}
    {found : List (Option β)} (h : List.Forall₂ (fun x o => r x o ∧ o.isSome = P x) xs found) :
    List.Forall₂ (fun y x => r x (some y)) (found.filterMap id) (xs.filter P) := by
  induction h with
  | nil => exact .nil
  | @cons x o xs found head _ ih =>
      obtain ⟨related, present⟩ := head
      cases o with
      | none => simpa [← present] using ih
      | some y => simpa [← present] using ⟨related, ih⟩

theorem mem_modePairs {n : ℕ} {pair : ℕ × ℕ} :
    pair ∈ SystemTables.modePairs n ↔ pair.1 < n ∧ pair.2 < n := by
  obtain ⟨i, j⟩ := pair
  simp [SystemTables.modePairs]

theorem nodup_modePairs (n : ℕ) : (SystemTables.modePairs n).Nodup :=
  List.Nodup.product List.nodup_range List.nodup_range

omit [Scalar K] in
theorem Entries.gridOf_ofSymbol [Scalar K] (names : List Symbol) :
    Entries.gridOf (names.map (Entries.ofSymbol (K := K))) =
      .ok (.ofColumn (names.map Entries.ofSymbol)) := by
  have flat : (names.map (Entries.ofSymbol (K := K))).all (fun e => !e.isSequence) = true := by
    simp [Entries.ofSymbol, Entries.isSequence]
  rw [Entries.gridOf, if_pos flat]

theorem Entries.IsResetOf.exists_column {source : StatedMode K} {t : StatedTransition K}
    {e : Entries K} (h : e.IsResetOf source t)
    (hheight : ∀ column, t.reset = some column → column.height ≠ 0) (hstates : source.states ≠ [])
    (hnames : ∃ names : List Symbol, source.states = names.map Entries.ofSymbol) :
    ∃ column, e.toColumn = .ok column ∧ e.parts ≠ [] ∧ (some column = t.reset ∨
      t.reset = .none ∧ ∃ names : List Symbol, source.states = names.map Entries.ofSymbol ∧
        some column = some (.ofColumn source.states)) := by
  unfold Entries.IsResetOf at h
  cases hreset : t.reset with
  | some column =>
      rw [hreset] at h
      refine ⟨column, h, fun empty => hheight column hreset ?_, .inl rfl⟩
      have nothing : Entries.gridOf ([] : List (Entries K)) = .ok (.ofColumn []) := rfl
      rw [Entries.toColumn, empty, nothing] at h
      rw [← Except.ok.inj h, Grid.height_ofColumn, List.length_nil]
  | none =>
      rw [hreset] at h
      obtain ⟨names, hnames⟩ := hnames
      refine ⟨.ofColumn source.states, ?_, h ▸ hstates, .inr ⟨rfl, names, hnames, rfl⟩⟩
      rw [Entries.toColumn, h, hnames, Entries.gridOf_ofSymbol]

/-! ## Modes and transitions of tables -/

namespace SystemTables

variable {T : SystemTables K} {data : List (ModeEntries K)} {s : StatedSystem K}
  (hT : T.Holds data s)

include hT

theorem modeAt_eq {k : ℕ} {d : ModeEntries K} (hk : data[k]? = some d) :
    T.modeAt k = StatedMode.ofEntries d := by
  have initial : initialStateAt T.initialState k = .ok d.initialState := by
    rw [initialStateAt, hT.initialState, List.getElem?_map, hk, Option.map_some]
  simp only [modeAt, itemAt_map hT.states hk, itemAt_map hT.controls hk, itemAt_map hT.drift hk,
    itemAt_map hT.input hk, itemAt_map hT.domain hk, itemAt_map hT.controlSet hk,
    itemAt_map hT.targetSet hk, itemAt_map hT.runningCost hk, itemAt_map hT.terminalCost hk,
    initial, hT.names k d hk, ok_bind]

theorem check_eq_ok : T.check data.length = .ok () := by
  have entries {e : Entries K} {f : ModeEntries K → Entries K}
      (h : e.items = .ok (data.map f)) (key : String) :
      checkEntries data.length key e = .ok () := by
    simp [checkEntries, h, checkLength]
  obtain ⟨rows, hrows, length, items⟩ := hT.guards
  have square : checkRows data.length rows = .ok () := by
    have each : ∀ row ∈ rows, ∃ items, row.items = .ok items ∧ items.length = data.length := by
      intro row hrow
      obtain ⟨i, hi⟩ := List.mem_iff_getElem?.mp hrow
      obtain ⟨found, hfound, width, -⟩ := items i row hi
      exact ⟨found, hfound, width⟩
    clear hrows length items
    induction rows with
    | nil => rfl
    | cons row rows ih =>
        obtain ⟨found, hfound, width⟩ := each row (by simp)
        simp only [checkRows, hfound, ok_bind, bind_check_eq_ok, require_eq_ok]
        exact ⟨by simpa using width, ih (fun other hother => each other (by simp [hother]))⟩
  have guards : checkGuards data.length T.guards = .ok () := by
    simp only [checkGuards, hrows, ok_bind, bind_check_eq_ok, require_eq_ok]
    exact ⟨by simpa using length, square⟩
  simp [check, entries hT.controls, entries hT.drift, entries hT.input, entries hT.domain,
    entries hT.controlSet, entries hT.targetSet, entries hT.runningCost, entries hT.terminalCost,
    checkLength, hT.initialState, guards, bind_check_eq_ok]

variable (hmodes : data.mapM StatedMode.ofEntries = .ok s.modes)

include hmodes

omit hT in
theorem length_data : data.length = s.modeCount := (mapM_eq_ok.mp hmodes).length_eq

theorem mapM_modeAt : (List.range data.length).mapM T.modeAt = .ok s.modes := by
  have each := mapM_eq_ok.mp hmodes
  refine mapM_eq_ok.mpr (List.forall₂_iff_get.mpr ⟨by simpa using each.length_eq, ?_⟩)
  intro k hk hk'
  obtain ⟨m, hm, stated⟩ := exists_right_at each
    (List.getElem?_eq_getElem (by simpa using hk : k < data.length))
  obtain ⟨_, rfl⟩ := List.getElem?_eq_some_iff.mp hm
  simp only [List.get_eq_getElem, List.getElem_range]
  rw [modeAt_eq hT (List.getElem?_eq_getElem (by simpa using hk)), stated]

theorem exists_guardAt {i j : ℕ} (hi : i < s.modeCount) (hj : j < s.modeCount) :
    ∃ row item, itemAt T.guards i = .ok row ∧ itemAt row j = .ok item ∧
      item.parts = s.guard (.integer i) (.integer j) := by
  rw [← length_data hmodes] at hi hj
  obtain ⟨rows, hrows, length, each⟩ := hT.guards
  have hrow := List.getElem?_eq_getElem (length.symm ▸ hi : i < rows.length)
  obtain ⟨items, hitems, width, entries⟩ := each i _ hrow
  have hitem := List.getElem?_eq_getElem (width.symm ▸ hj : j < items.length)
  exact ⟨_, _, itemAt_of_items hrows hrow, itemAt_of_items hitems hitem, entries j _ hitem⟩

theorem transitionAt_of_unguarded {i j : ℕ} (hi : i < s.modeCount) (hj : j < s.modeCount)
    (h : s.transition? (.integer i) (.integer j) = none) : T.transitionAt i j = .ok none := by
  obtain ⟨row, item, hrow, hitem, parts⟩ := exists_guardAt hT hmodes hi hj
  have empty : item.parts = [] := by rw [parts, SystemData.guard, h]
  simp [transitionAt, hrow, hitem, empty]

variable (hjoined : s.IsJoined) (hguards : ∀ t ∈ s.transitions, t.guard ≠ [])
  (hheights : ∀ t ∈ s.transitions, ∀ column, t.reset = some column → column.height ≠ 0)
  (hstates : ∀ m ∈ s.modes, m.states ≠ [] ∧
    ∃ names : List Symbol, m.states = names.map Entries.ofSymbol)

include hjoined hguards hheights hstates

theorem exists_transitionAt {i j : ℕ} {t : StatedTransition K}
    (found : s.transition? (.integer i) (.integer j) = some t) :
    ∃ t' source, T.transitionAt i j = .ok (some t') ∧ t'.source = .integer i ∧
      t'.target = .integer j ∧ s.modes[i]? = some source ∧ t.Restates source t' := by
  obtain ⟨ht, joins⟩ := hjoined.transition?_eq_some.mp found
  have bound := lt_of_modePosition? joins.1
  obtain ⟨row, item, hrow, hitem, parts⟩ :=
    exists_guardAt hT hmodes bound (lt_of_modePosition? joins.2)
  have hsource := List.getElem?_eq_getElem bound
  obtain ⟨nonempty, names⟩ := hstates _ (List.mem_of_getElem? hsource)
  have guard : item.parts = t.guard := by rw [parts, SystemData.guard, found]
  have guarded : item.parts.isEmpty = false := by simpa [guard] using hguards t ht
  simp only [transitionAt, hrow, hitem, ok_bind, guarded]
  rcases hT.resets with ⟨absent, none⟩ | ⟨present, table⟩
  · refine ⟨⟨.integer i, .integer j, item.parts, .none⟩, _, ?_, rfl, rfl, hsource, guard, .inl ?_⟩
    · simp [resetAt, absent, StatedTransition.ofEntries]
    · exact (none t ht).symm
  · obtain ⟨resetRow, reset, hresetRow, hreset, stated⟩ := table t ht i j _ joins hsource
    obtain ⟨column, hcolumn, given, restated⟩ :=
      stated.exists_column (hheights t ht) nonempty names
    have looked : resetAt T.resets i j = .ok reset := by
      unfold resetAt
      split
      · next absent => exact absurd absent present
      · simp [hresetRow, hreset, given]
    have stated : StatedTransition.ofEntries (.integer i) (.integer j) item reset =
        .ok ⟨.integer i, .integer j, item.parts, some column⟩ := by
      unfold StatedTransition.ofEntries
      split
      · simp at given
      · simp [hcolumn]
    exact ⟨⟨.integer i, .integer j, item.parts, some column⟩, _, by simp [looked, stated], rfl,
      rfl, hsource, guard, restated⟩

/-- The pairs that the transitions join, row by row, and what the tables state for them. -/
theorem exists_transitions : ∃ ts pairs, T.transitions data.length = .ok ts ∧ pairs.Nodup ∧
    (∀ i j : ℕ, (s.transition? (.integer i) (.integer j)).isSome = true → (i, j) ∈ pairs) ∧
    List.Forall₂ (fun t' (pair : ℕ × ℕ) => t'.JoinsAt s.modeCount pair ∧
      ∃ t source, s.transition? (.integer pair.1) (.integer pair.2) = some t ∧
        s.modes[pair.1]? = some source ∧ t.Restates source t') ts pairs := by
  have count := length_data hmodes
  have guarded {pair : ℕ × ℕ} {t : StatedTransition K}
      (found : s.transition? (.integer pair.1) (.integer pair.2) = some t) :=
    exists_transitionAt hT hmodes hjoined hguards hheights hstates found
  have each : ∀ pair ∈ modePairs data.length, ∃ found, T.transitionAt pair.1 pair.2 = .ok found ∧
      found.isSome = (s.transition? (.integer pair.1) (.integer pair.2)).isSome := by
    intro pair hpair
    obtain ⟨hi, hj⟩ := mem_modePairs.mp hpair
    rw [count] at hi hj
    cases found : s.transition? (.integer pair.1) (.integer pair.2) with
    | none => exact ⟨none, transitionAt_of_unguarded hT hmodes hi hj found, rfl⟩
    | some t =>
        obtain ⟨t', -, h, -⟩ := guarded found
        exact ⟨some t', h, rfl⟩
  obtain ⟨found, hfound⟩ := exists_forall₂_right each
  refine ⟨found.filterMap id, (modePairs data.length).filter (fun pair =>
    (s.transition? (.integer pair.1) (.integer pair.2)).isSome), ?_, ?_, fun i j h => ?_, ?_⟩
  · rw [transitions, mapM_eq_ok.mpr (hfound.imp (fun _ _ h => h.1)), ok_bind]
  · exact (nodup_modePairs _).filter _
  · obtain ⟨t, ht⟩ := Option.isSome_iff_exists.mp h
    obtain ⟨-, joins⟩ := hjoined.transition?_eq_some.mp ht
    refine List.mem_filter.mpr ⟨mem_modePairs.mpr ?_, h⟩
    rw [count]
    exact ⟨lt_of_modePosition? joins.1, lt_of_modePosition? joins.2⟩
  · refine forall₂_imp_of_mem (forall₂_filterMap_id hfound).flip (fun pair hpair t' stated => ?_)
      |>.flip
    obtain ⟨hmem, present⟩ := List.mem_filter.mp hpair
    obtain ⟨hi, hj⟩ := mem_modePairs.mp hmem
    rw [count] at hi hj
    obtain ⟨t, ht⟩ := Option.isSome_iff_exists.mp present
    obtain ⟨t₂, source, again, hlabel, hlabel', hsource, restates⟩ := guarded ht
    obtain rfl : t' = t₂ := Option.some.inj (Except.ok.inj (stated.symm.trans again))
    exact ⟨⟨hlabel ▸ modePosition?_integer hi, hlabel' ▸ modePosition?_integer hj⟩, t, source, ht,
      hsource, restates⟩

theorem Holds.exists_ofTables : ∃ s', StatedSystem.ofTables T = .ok s' ∧ s.Restates s' ∧
    ∃ pairs : List (ℕ × ℕ), pairs.Nodup ∧ List.Forall₂ (fun t' (pair : ℕ × ℕ) =>
      t'.JoinsAt s.modeCount pair ∧ ∃ t source,
        s.transition? (.integer pair.1) (.integer pair.2) = some t ∧
          s.modes[pair.1]? = some source ∧ t.Restates source t') s'.transitions pairs := by
  obtain ⟨ts, pairs, hts, nodup, complete, all⟩ :=
    exists_transitions hT hmodes hjoined hguards hheights hstates
  have kept : ts.filter (fun t => !t.guard.isEmpty) = ts := by
    refine List.filter_eq_self.mpr (fun t' ht' => ?_)
    obtain ⟨pair, -, -, t, source, ht, -, restates⟩ := exists_right_of_mem all ht'
    simpa [restates.guard] using hguards t (hjoined.transition?_eq_some.mp ht).1
  let s' : StatedSystem K := ⟨.one (.ofSymbol T.time), s.modes, ts⟩
  have joined : s'.IsJoined := ⟨pairs, nodup, all.imp (fun _ _ h => h.1)⟩
  refine ⟨s', ?_, ⟨hT.time.symm, rfl, fun i j => ?_⟩, pairs, nodup, all⟩
  · simp only [StatedSystem.ofTables, hT.states, ok_bind, List.length_map, check_eq_ok hT,
      mapM_modeAt hT hmodes, hts, SystemData.ofParts, kept, s']
  · cases hfound : s.transition? (.integer i) (.integer j) with
    | some t =>
        obtain ⟨t', ht', joins, t₂, source, found, hsource, restates⟩ :=
          exists_left_of_mem all (complete i j (by rw [hfound]; rfl))
        obtain rfl := Option.some.inj (hfound.symm.trans found)
        rw [joined.transition?_eq_some.mpr ⟨ht', joins⟩]
        exact .some ⟨source, hsource, restates⟩
    | none =>
        cases hfound' : s'.transition? (.integer i) (.integer j) with
        | none => exact .none
        | some t' =>
            obtain ⟨ht', joins⟩ := joined.transition?_eq_some.mp hfound'
            obtain ⟨pair, -, joins', t, -, found, -⟩ := exists_right_of_mem all ht'
            obtain rfl := joins.unique joins'
            rw [hfound] at found
            simp at found

end SystemTables

end HybridRelaxation
