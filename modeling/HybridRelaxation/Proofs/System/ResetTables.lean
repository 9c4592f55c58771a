import Mathlib
import HybridRelaxation.Proofs.System.Tables

/-!
# Tables of resets

A table of resets may have rows of any lengths, and its entries may be empty.  Only the entries of
guarded pairs are looked at, row by row.  If each of these is there and has entries of its own, the
tables describe the guarded pairs with their resets, and otherwise they fail at the first pair
without one: as a missing reset where the entry is empty, but as a position out of range where the
row or the entry is not there at all.
-/

namespace HybridRelaxation

theorem mapM_eq_error_iff {ε α β : Type} {f : α → Except ε β} {xs : List α} {e : ε} :
    xs.mapM f = .error e ↔ ∃ before x after, xs = before ++ x :: after ∧
      (∀ y ∈ before, ∃ b, f y = .ok b) ∧ f x = .error e := by
  induction xs with
  | nil => simp [pure, Except.pure]
  | cons x xs ih =>
      rw [List.mapM_cons]
      constructor
      · intro h
        rcases bind_eq_error.mp h with hx | ⟨b, hx, h⟩
        · exact ⟨[], x, xs, rfl, by simp, hx⟩
        · rcases bind_eq_error.mp h with hxs | ⟨bs, -, h⟩
          · obtain ⟨before, y, after, rfl, done, hy⟩ := ih.mp hxs
            refine ⟨x :: before, y, after, rfl, ?_, hy⟩
            exact List.forall_mem_cons.mpr ⟨⟨b, hx⟩, done⟩
          · simp [pure, Except.pure] at h
      · rintro ⟨before, y, after, same, done, hy⟩
        cases before with
        | nil =>
            obtain ⟨rfl, rfl⟩ := List.cons.inj same
            exact bind_eq_error.mpr (.inl hy)
        | cons z before =>
            obtain ⟨rfl, rfl⟩ := List.cons.inj same
            obtain ⟨⟨b, hb⟩, done⟩ := List.forall_mem_cons.mp done
            exact bind_eq_error.mpr (.inr ⟨b, hb,
              bind_eq_error.mpr (.inl (ih.mpr ⟨before, y, after, rfl, done, hy⟩))⟩)

variable {K : Type}

namespace SystemTables

/-! ## Entries of pairs -/

def entryOf (table : Entries K) (pair : ℕ × ℕ) : Except Failure (Entries K) := do
  itemAt (← itemAt table pair.1) pair.2

def guardOf (t : SystemTables K) (pair : ℕ × ℕ) : List (Entries K) :=
  match entryOf t.guards pair with
  | .ok entry => entry.parts
  | .error _ => []

def guardedPairs (t : SystemTables K) (modes : ℕ) : List (ℕ × ℕ) :=
  (modePairs modes).filter (fun pair => !(t.guardOf pair).isEmpty)

def entryOf? (rows : List (List (Entries K))) (pair : ℕ × ℕ) : Option (Entries K) := do
  (← rows[pair.1]?)[pair.2]?

/-- The rows have a reset for a pair, which makes a column. -/
def HasReset (rows : List (List (Entries K))) (pair : ℕ × ℕ) (column : Grid (Entries K)) : Prop :=
  ∃ entry, entryOf? rows pair = some entry ∧ entry.parts ≠ [] ∧ entry.toColumn = .ok column

/-- The rows have no reset for a pair, and how the lack of it shows. -/
inductive LacksReset (rows : List (List (Entries K))) (pair : ℕ × ℕ) : Failure → Prop
  | noEntry : entryOf? rows pair = none → LacksReset rows pair .outOfRange
  | emptyEntry (entry : Entries K) : entryOf? rows pair = some entry → entry.parts = [] →
      LacksReset rows pair (.configuration (.missingReset pair.1 pair.2))
  | noColumn (entry : Entries K) (f : Failure) : entryOf? rows pair = some entry →
      entry.parts ≠ [] → entry.toColumn = .error f → LacksReset rows pair f

theorem hasReset_or_lacksReset (rows : List (List (Entries K))) (pair : ℕ × ℕ) :
    (∃ column, HasReset rows pair column) ∨ ∃ f, LacksReset rows pair f := by
  cases hentry : entryOf? rows pair with
  | none => exact .inr ⟨_, .noEntry hentry⟩
  | some entry =>
      by_cases parts : entry.parts = []
      · exact .inr ⟨_, .emptyEntry entry hentry parts⟩
      · cases hcolumn : entry.toColumn with
        | ok column => exact .inl ⟨column, entry, hentry, parts, hcolumn⟩
        | error f => exact .inr ⟨f, .noColumn entry f hentry parts hcolumn⟩

/-- Row by row, either each guarded pair has a reset or a first one lacks it. -/
theorem hasReset_or_exists_first (rows : List (List (Entries K))) (pairs : List (ℕ × ℕ)) :
    (∀ pair ∈ pairs, ∃ column, HasReset rows pair column) ∨
      ∃ before pair after f, pairs = before ++ pair :: after ∧
        (∀ other ∈ before, ∃ column, HasReset rows other column) ∧ LacksReset rows pair f := by
  induction pairs with
  | nil => exact .inl (by simp)
  | cons pair pairs ih =>
      rcases hasReset_or_lacksReset rows pair with found | ⟨f, lacks⟩
      · rcases ih with all | ⟨before, other, after, f, rfl, done, lacks⟩
        · exact .inl (List.forall_mem_cons.mpr ⟨found, all⟩)
        · exact .inr ⟨pair :: before, other, after, f, rfl,
            List.forall_mem_cons.mpr ⟨found, done⟩, lacks⟩
      · exact .inr ⟨[], pair, pairs, f, rfl, by simp, lacks⟩

theorem toColumn_of_flat {e : Entries K} (flat : ∀ part ∈ e.parts, part.isSequence = false) :
    e.toColumn = .ok (.ofColumn e.parts) := by
  have all : e.parts.all (fun part => !part.isSequence) = true := by
    simpa [List.all_eq_true] using flat
  rw [Entries.toColumn, Entries.gridOf, if_pos all]

theorem itemAt_list (items : List (Entries K)) (k : ℕ) :
    itemAt (.list items) k = match items[k]? with
      | some item => .ok item
      | none => .error .outOfRange := rfl

theorem entryOf_rows (rows : List (List (Entries K))) (pair : ℕ × ℕ) :
    entryOf (.list (rows.map .list)) pair = match entryOf? rows pair with
      | some entry => .ok entry
      | none => .error .outOfRange := by
  cases hrow : rows[pair.1]? with
  | none => simp [entryOf, itemAt_list, entryOf?, hrow]
  | some row =>
      cases hentry : row[pair.2]? <;> simp [entryOf, itemAt_list, entryOf?, hrow, hentry]

/-! ## One pair -/

theorem resetAt_rows (rows : List (List (Entries K))) (pair : ℕ × ℕ) :
    resetAt (.list (rows.map .list)) pair.1 pair.2 = (do
      let reset ← entryOf (.list (rows.map .list)) pair
      if reset.parts.isEmpty then .error (.configuration (.missingReset pair.1 pair.2))
      else .ok reset) := by
  simp only [resetAt, entryOf, bind_assoc]

section

variable {t : SystemTables K} {rows : List (List (Entries K))}
  (hrows : t.resets = .list (rows.map .list)) {pair : ℕ × ℕ} {guard : Entries K}
  (hguard : entryOf t.guards pair = .ok guard)

include hguard

theorem guardOf_eq : t.guardOf pair = guard.parts := by
  rw [guardOf, hguard]

theorem transitionAt_eq : t.transitionAt pair.1 pair.2 =
    if (t.guardOf pair).isEmpty then .ok none
    else (do
      let reset ← resetAt t.resets pair.1 pair.2
      .ok (some (← StatedTransition.ofEntries (.integer pair.1) (.integer pair.2) guard reset))) := by
  obtain ⟨row, hrow, hentry⟩ := bind_eq_ok.mp hguard
  simp only [transitionAt, hrow, hentry, ok_bind, guardOf_eq hguard]

include hrows

theorem transitionAt_of_hasReset (guarded : t.guardOf pair ≠ []) {column : Grid (Entries K)}
    (h : HasReset rows pair column) : t.transitionAt pair.1 pair.2 =
      .ok (some ⟨.integer pair.1, .integer pair.2, t.guardOf pair, some column⟩) := by
  obtain ⟨entry, hentry, parts, hcolumn⟩ := h
  have reset : resetAt t.resets pair.1 pair.2 = .ok entry := by
    simp [hrows, resetAt_rows, entryOf_rows, hentry, parts]
  have stated : StatedTransition.ofEntries (.integer pair.1) (.integer pair.2) guard entry =
      .ok ⟨.integer pair.1, .integer pair.2, t.guardOf pair, some column⟩ := by
    unfold StatedTransition.ofEntries
    split
    · simp at parts
    · simp [hcolumn, guardOf_eq hguard]
  rw [transitionAt_eq hguard, if_neg (by simpa using guarded), reset, ok_bind, stated, ok_bind]

theorem transitionAt_of_lacksReset (guarded : t.guardOf pair ≠ []) {f : Failure}
    (h : LacksReset rows pair f) : t.transitionAt pair.1 pair.2 = .error f := by
  rw [transitionAt_eq hguard, if_neg (by simpa using guarded), hrows, resetAt_rows, entryOf_rows]
  cases h with
  | noEntry hentry => simp [hentry]
  | emptyEntry entry hentry parts => simp [hentry, parts]
  | noColumn entry f hentry parts hcolumn =>
      have stated : StatedTransition.ofEntries (.integer pair.1) (.integer pair.2) guard entry =
          .error f := by
        unfold StatedTransition.ofEntries
        split
        · simp at parts
        · simp [hcolumn]
      simp [hentry, parts, stated]

end

/-! ## All pairs -/

structure States (t : SystemTables K) (rows : List (List (Entries K)))
    (transition : StatedTransition K) (pair : ℕ × ℕ) : Prop where
  source : transition.source = .integer pair.1
  target : transition.target = .integer pair.2
  guard : transition.guard = t.guardOf pair
  reset : ∃ column, transition.reset = some column ∧ HasReset rows pair column

section

variable {t : SystemTables K} {rows : List (List (Entries K))} {n : ℕ}
  (hrows : t.resets = .list (rows.map .list))
  (hguards : ∀ pair ∈ modePairs n, ∃ guard, entryOf t.guards pair = .ok guard)

include hrows hguards

theorem exists_transitions_of_hasReset
    (h : ∀ pair ∈ t.guardedPairs n, ∃ column, HasReset rows pair column) :
    ∃ ts, t.transitions n = .ok ts ∧ List.Forall₂ (t.States rows) ts (t.guardedPairs n) := by
  have each : ∀ pair ∈ modePairs n, ∃ found, t.transitionAt pair.1 pair.2 = .ok found ∧
      (∀ transition, found = some transition → t.States rows transition pair) ∧
        found.isSome = !(t.guardOf pair).isEmpty := by
    intro pair hpair
    obtain ⟨guard, hguard⟩ := hguards pair hpair
    by_cases guarded : t.guardOf pair = []
    · exact ⟨none, by simp [transitionAt_eq hguard, guarded], by simp, by simp [guarded]⟩
    · obtain ⟨column, hcolumn⟩ := h pair (List.mem_filter.mpr ⟨hpair, by simpa using guarded⟩)
      refine ⟨_, transitionAt_of_hasReset hrows hguard guarded hcolumn, ?_, by simpa using guarded⟩
      rintro transition same
      obtain rfl := Option.some.inj same
      exact ⟨rfl, rfl, rfl, column, rfl, hcolumn⟩
  obtain ⟨found, hfound⟩ := exists_forall₂_right each
  refine ⟨found.filterMap id, ?_, ?_⟩
  · rw [transitions, mapM_eq_ok.mpr (hfound.imp (fun _ _ h => h.1)), ok_bind]
  · exact forall₂_filterMap_id (r := fun pair o => ∀ transition, o = some transition →
      t.States rows transition pair) (hfound.imp (fun _ _ h => h.2)) |>.imp
        (fun _ _ h => h _ rfl)

theorem transitions_of_lacksReset {before after : List (ℕ × ℕ)} {pair : ℕ × ℕ} {f : Failure}
    (split : t.guardedPairs n = before ++ pair :: after)
    (hbefore : ∀ other ∈ before, ∃ column, HasReset rows other column)
    (hpair : LacksReset rows pair f) : t.transitions n = .error f := by
  obtain ⟨front, rest, same, front_filter, rest_filter⟩ := List.filter_eq_append_iff.mp split
  obtain ⟨skipped, last, rfl, hskipped, guarded, -⟩ := List.filter_eq_cons_iff.mp rest_filter
  have mem : ∀ other ∈ front ++ (skipped ++ pair :: last), other ∈ modePairs n := by
    rw [same]
    exact fun _ h => h
  have failed : t.transitionAt pair.1 pair.2 = .error f := by
    obtain ⟨guard, hguard⟩ := hguards pair (mem pair (by simp))
    exact transitionAt_of_lacksReset hrows hguard (by simpa using guarded) hpair
  have done : ∀ other ∈ front ++ skipped, ∃ found, t.transitionAt other.1 other.2 = .ok found := by
    intro other hother
    obtain ⟨guard, hguard⟩ := hguards other (mem other (by simp at hother ⊢; tauto))
    by_cases guarded : t.guardOf other = []
    · exact ⟨none, by simp [transitionAt_eq hguard, guarded]⟩
    · have hmem : other ∈ before := by
        rcases List.mem_append.mp hother with hfront | hskip
        · rw [← front_filter]
          exact List.mem_filter.mpr ⟨hfront, by simpa using guarded⟩
        · exact absurd (hskipped other hskip) (by simpa using guarded)
      obtain ⟨column, hcolumn⟩ := hbefore other hmem
      exact ⟨_, transitionAt_of_hasReset hrows hguard guarded hcolumn⟩
  have stop : (modePairs n).mapM (fun pair => t.transitionAt pair.1 pair.2) = .error f :=
    mapM_eq_error_iff.mpr ⟨front ++ skipped, pair, last, by simp [same], done, failed⟩
  exact bind_eq_error.mpr (.inl stop)

end

/-! ## Looking up what the tables state -/

/--
The system has exactly the transitions of the guarded pairs, row by row, and what is looked up
between two modes are the guard and the reset that the tables state there.
-/
structure Describes (t : SystemTables K) (rows : List (List (Entries K))) (s : StatedSystem K) :
    Prop where
  transitions : List.Forall₂ (t.States rows) s.transitions (t.guardedPairs s.modeCount)
  guard : ∀ i j : ℕ, (i, j) ∈ t.guardedPairs s.modeCount →
    s.guard (.integer i) (.integer j) = t.guardOf (i, j)
  reset : ∀ i j : ℕ, (i, j) ∈ t.guardedPairs s.modeCount → ∃ entry column,
    entryOf? rows (i, j) = some entry ∧ entry.toColumn = .ok column ∧
      s.reset (.integer i) (.integer j) = .ok column ∧
      ((∀ part ∈ entry.parts, part.isSequence = false) → column = .ofColumn entry.parts)
  unguarded : ∀ i j : ℕ, (i, j) ∉ t.guardedPairs s.modeCount →
    s.transition? (.integer i) (.integer j) = none

theorem describes_of_states {t : SystemTables K} {rows : List (List (Entries K))}
    {s : StatedSystem K}
    (h : List.Forall₂ (t.States rows) s.transitions (t.guardedPairs s.modeCount)) :
    t.Describes rows s := by
  have both : List.Forall₂ (fun transition pair => t.States rows transition pair ∧
      transition.JoinsAt s.modeCount pair) s.transitions (t.guardedPairs s.modeCount) := by
    refine (forall₂_imp_of_mem h.flip (fun pair hpair transition stated => ?_)).flip
    obtain ⟨hi, hj⟩ := mem_modePairs.mp (List.mem_of_mem_filter hpair)
    exact ⟨stated, stated.source ▸ modePosition?_integer hi,
      stated.target ▸ modePosition?_integer hj⟩
  have joins := both.imp (fun _ _ h => h.2)
  have joined : s.IsJoined := ⟨_, (nodup_modePairs _).filter _, joins⟩
  have found {i j : ℕ} (hpair : (i, j) ∈ t.guardedPairs s.modeCount) : ∃ transition,
      s.transition? (.integer i) (.integer j) = some transition ∧
        t.States rows transition (i, j) := by
    obtain ⟨transition, hmem, stated, at_pair⟩ := exists_left_of_mem both hpair
    exact ⟨transition, joined.transition?_eq_some.mpr ⟨hmem, at_pair⟩, stated⟩
  refine ⟨h, fun i j hpair => ?_, fun i j hpair => ?_, fun i j hpair => ?_⟩
  · obtain ⟨transition, looked, stated⟩ := found hpair
    rw [SystemData.guard, looked]
    exact stated.guard
  · obtain ⟨transition, looked, stated⟩ := found hpair
    obtain ⟨column, hreset, entry, hentry, -, hcolumn⟩ := stated.reset
    refine ⟨entry, column, hentry, hcolumn, ?_, fun flat => ?_⟩
    · simp [StatedSystem.reset, SystemData.resetWith, looked, hreset]
    · exact Except.ok.inj (hcolumn.symm.trans (toColumn_of_flat flat))
  · cases looked : s.transition? (.integer i) (.integer j) with
    | none => rfl
    | some transition =>
        obtain ⟨hmem, at_pair⟩ := joined.transition?_eq_some.mp looked
        obtain ⟨pair, hguarded, at_other⟩ := exists_right_of_mem joins hmem
        obtain rfl := at_pair.unique at_other
        exact absurd hguarded hpair

end SystemTables

/-! ## Columns that entries do not make -/

namespace Entries

theorem failure_of_stack {grids : List (Grid (Expression K))} {f : Failure}
    (h : stack grids = .error f) : f = .badValue ∨ f = .emptyDivision := by
  unfold stack at h
  split at h
  · simp at h
  · split at h
    · exact .inl (Except.error.inj h).symm
    · split at h
      · exact .inr (Except.error.inj h).symm
      · simp at h

theorem failure_of_rowsOf {e : Entries K} {f : Failure} (h : rowsOf e = .error f) :
    f = .badValue ∨ f = .emptyDivision := by
  unfold rowsOf at h
  split at h
  · exact .inr (Except.error.inj h).symm
  · split at h
    · rcases bind_eq_error.mp h with beside | ⟨_, -, h⟩
      · rcases bind_eq_error.mp beside with stacked | ⟨_, -, h⟩
        · exact failure_of_stack stacked
        · simp at h
      · simp at h
    · simp at h
  · split at h <;> simp at h
  · exact .inl (Except.error.inj h).symm

theorem failure_of_rowsFrom {items : List (Entries K)} {width : Option ℕ} {f : Failure}
    (h : rowsFrom width items = .error f) : f = .badValue ∨ f = .emptyDivision := by
  induction items generalizing width with
  | nil => simp [rowsFrom] at h
  | cons item items ih =>
      rw [rowsFrom] at h
      rcases bind_eq_error.mp h with failed | ⟨rows, -, h⟩
      · exact failure_of_rowsOf failed
      · simp only at h
        split at h
        · exact .inl (Except.error.inj h).symm
        · rcases bind_eq_error.mp h with failed | ⟨_, -, h⟩
          · exact ih failed
          · simp at h

theorem failure_of_toColumn {e : Entries K} {f : Failure} (h : e.toColumn = .error f) :
    f = .badValue ∨ f = .emptyDivision := by
  unfold toColumn gridOf at h
  split at h
  · simp at h
  · split at h
    · cases hstack : stack (K := K) _ with
      | error g =>
          rw [hstack] at h
          obtain rfl : g = f := Except.error.inj h
          exact failure_of_stack hstack
      | ok grid =>
          rw [hstack] at h
          simp [Except.map] at h
    · split at h
      · simp at h
      · split at h
        · exact .inl (Except.error.inj h).symm
        · cases hrows : rowsFrom (K := K) none e.parts with
          | error g =>
              rw [hrows] at h
              obtain rfl : g = f := Except.error.inj h
              exact failure_of_rowsFrom hrows
          | ok rows =>
              rw [hrows] at h
              simp [Except.map] at h

end Entries

/-! ## Systems -/

theorem SystemTables.exists_parts_of_ofTables [Scalar K] {t : SystemTables K} {s : StatedSystem K}
    (h : StatedSystem.ofTables { t with resets := .absent } = .ok s) :
    s.time = .one (.ofSymbol t.time) ∧
      (∀ pair ∈ modePairs s.modeCount, ∃ guard, entryOf t.guards pair = .ok guard) ∧
      StatedSystem.ofTables t = (do
        let transitions ← t.transitions s.modeCount
        .ok (.ofParts (.one (.ofSymbol t.time)) s.modes transitions)) := by
  obtain ⟨items, hitems, h⟩ := bind_eq_ok.mp h
  obtain ⟨⟨⟩, hcheck, h⟩ := bind_eq_ok.mp h
  obtain ⟨ms, hms, h⟩ := bind_eq_ok.mp h
  obtain ⟨ts, hts, h⟩ := bind_eq_ok.mp h
  obtain rfl := Except.ok.inj h
  have count : items.length = ms.length := by simpa using (mapM_eq_ok.mp hms).length_eq
  have entries : ∀ pair ∈ modePairs ms.length, ∃ guard, entryOf t.guards pair = .ok guard := by
    obtain ⟨found, hfound, -⟩ := bind_eq_ok.mp hts
    intro pair hpair
    obtain ⟨_, -, stated⟩ := exists_right_of_mem (mapM_eq_ok.mp hfound) (count ▸ hpair)
    obtain ⟨row, hrow, rest⟩ := bind_eq_ok.mp stated
    obtain ⟨guard, hguard, -⟩ := bind_eq_ok.mp rest
    exact ⟨guard, bind_eq_ok.mpr ⟨row, hrow, hguard⟩⟩
  refine ⟨rfl, entries, ?_⟩
  have hitems' : t.states.items = .ok items := hitems
  have hcheck' : t.check items.length = .ok () := hcheck
  have hms' : (List.range items.length).mapM t.modeAt = .ok ms := hms
  rw [count] at hcheck' hms'
  simp only [StatedSystem.ofTables, hitems', count, hcheck', hms', ok_bind, SystemData.modeCount,
    SystemData.ofParts]

theorem SystemTables.describes_or_exists_first [Scalar K] {t : SystemTables K}
    {rows : List (List (Entries K))} {s₀ : StatedSystem K}
    (hrows : t.resets = .list (rows.map .list))
    (hs₀ : StatedSystem.ofTables { t with resets := .absent } = .ok s₀) :
    ((∀ pair ∈ t.guardedPairs s₀.modeCount, ∃ column, HasReset rows pair column) ∧
      ∃ s, StatedSystem.ofTables t = .ok s ∧ s.time = s₀.time ∧ s.modes = s₀.modes ∧
        t.Describes rows s) ∨
    ∃ before pair after f, t.guardedPairs s₀.modeCount = before ++ pair :: after ∧
      (∀ other ∈ before, ∃ column, HasReset rows other column) ∧ LacksReset rows pair f ∧
        StatedSystem.ofTables t = .error f := by
  obtain ⟨time, hguards, built⟩ := exists_parts_of_ofTables hs₀
  rcases hasReset_or_exists_first rows (t.guardedPairs s₀.modeCount) with
    all | ⟨before, pair, after, f, split, done, lacks⟩
  · obtain ⟨ts, hts, stated⟩ := exists_transitions_of_hasReset hrows hguards all
    have kept : ts.filter (fun transition => !transition.guard.isEmpty) = ts := by
      refine List.filter_eq_self.mpr (fun transition htransition => ?_)
      obtain ⟨pair, hpair, stated⟩ := exists_right_of_mem stated htransition
      rw [stated.guard]
      exact (List.mem_filter.mp hpair).2
    refine .inl ⟨all, ⟨.one (.ofSymbol t.time), s₀.modes, ts⟩, ?_, time.symm, rfl,
      describes_of_states stated⟩
    rw [built, hts, ok_bind, SystemData.ofParts, kept]
  · refine .inr ⟨before, pair, after, f, split, done, lacks, ?_⟩
    rw [built, transitions_of_lacksReset hrows hguards split done lacks, error_bind]

/--
Tables of resets of any shape.  If tables describe a system once their resets are left out, then
with rows of resets they describe the same modes, joined by the guarded pairs with their resets,
provided that each guarded pair has one.  Otherwise they fail at the first guarded pair without one:
a missing reset is reported exactly where the entry is there but empty, and not where there is none.
-/
theorem ofTables_of_resetRows [Scalar K] {t : SystemTables K} {rows : List (List (Entries K))}
    {s₀ : StatedSystem K} (hrows : t.resets = .list (rows.map .list))
    (hs₀ : StatedSystem.ofTables { t with resets := .absent } = .ok s₀) :
    (((∀ pair ∈ t.guardedPairs s₀.modeCount, ∃ column, SystemTables.HasReset rows pair column) ∧
        ∃ s, StatedSystem.ofTables t = .ok s ∧ s.time = s₀.time ∧ s.modes = s₀.modes ∧
          t.Describes rows s) ∨
      ∃ before pair after f, t.guardedPairs s₀.modeCount = before ++ pair :: after ∧
        (∀ other ∈ before, ∃ column, SystemTables.HasReset rows other column) ∧
        SystemTables.LacksReset rows pair f ∧ StatedSystem.ofTables t = .error f) ∧
    ∀ problem, StatedSystem.ofTables t = .error (.configuration problem) ↔
      ∃ before pair after entry, t.guardedPairs s₀.modeCount = before ++ pair :: after ∧
        (∀ other ∈ before, ∃ column, SystemTables.HasReset rows other column) ∧
        SystemTables.entryOf? rows pair = some entry ∧ entry.parts = [] ∧
        problem = .missingReset pair.1 pair.2 := by
  have outcome := SystemTables.describes_or_exists_first hrows hs₀
  refine ⟨outcome, fun problem => ⟨fun failed => ?_, ?_⟩⟩
  · rcases outcome with ⟨-, s, works, -⟩ | ⟨before, pair, after, f, split, done, lacks, failed'⟩
    · simp [failed] at works
    · cases lacks with
      | noEntry => simp [failed] at failed'
      | emptyEntry entry hentry parts =>
          exact ⟨before, pair, after, entry, split, done, hentry, parts,
            by simpa [failed] using failed'⟩
      | noColumn entry f _ _ hcolumn =>
          rcases Entries.failure_of_toColumn hcolumn with rfl | rfl <;> simp [failed] at failed'
  · rintro ⟨before, pair, after, entry, split, done, hentry, parts, rfl⟩
    obtain ⟨-, hguards, built⟩ := SystemTables.exists_parts_of_ofTables hs₀
    rw [built, SystemTables.transitions_of_lacksReset hrows hguards split done
      (.emptyEntry entry hentry parts), error_bind]

def loopTables (rows : List (List (Entries Number))) : SystemTables Number where
  time := .named "t"
  states := .list [.list [.ofSymbol (.named "x")]]
  controls := .list [.absent]
  drift := .list [.absent]
  input := .list [.absent]
  domain := .list [.absent]
  controlSet := .list [.absent]
  targetSet := .list [.absent]
  runningCost := .list [.one .zero]
  terminalCost := .list [.one .zero]
  initialState := [.none]
  guards := .list [.list [.ofSymbol (.named "x")]]
  resets := .list (rows.map .list)
  names := none

def loopSystem : StatedSystem Number where
  time := .one (.ofSymbol (.named "t"))
  modes := [⟨[.ofSymbol (.named "x")], [], ⟨1, [[.one .zero]]⟩, ⟨0, [[]]⟩, [], [], [],
    .one .zero, .one .zero, none, none⟩]
  transitions := [⟨.integer 0, .integer 0, [.ofSymbol (.named "x")], none⟩]

/-- An empty entry is reported as a missing reset, but a missing row is not, nor a short one. -/
theorem ofTables_of_resetRows_loopTables :
    StatedSystem.ofTables (loopTables [[.absent]]) =
        .error (.configuration (.missingReset 0 0)) ∧
      (∀ rows ∈ [[], [[]]], StatedSystem.ofTables (loopTables rows) = .error .outOfRange) ∧
      ∃ s, StatedSystem.ofTables (loopTables [[.ofSymbol (.named "x")]]) = .ok s ∧
        (loopTables [[.ofSymbol (.named "x")]]).Describes [[.ofSymbol (.named "x")]] s := by
  have kept (rows : List (List (Entries Number))) :
      StatedSystem.ofTables { loopTables rows with resets := .absent } = .ok loopSystem := rfl
  have guarded (rows : List (List (Entries Number))) :
      (loopTables rows).guardedPairs loopSystem.modeCount = [(0, 0)] := rfl
  refine ⟨?_, fun rows hrows => ?_, ?_⟩
  · obtain ⟨-, missing⟩ := ofTables_of_resetRows rfl (kept [[.absent]])
    exact (missing _).mpr ⟨[], (0, 0), [], .absent, rfl, by simp, rfl, rfl, rfl⟩
  · obtain ⟨outcome, -⟩ := ofTables_of_resetRows rfl (kept rows)
    have none : SystemTables.entryOf? rows (0, 0) = .none := by
      obtain rfl | rfl := List.mem_pair.mp hrows <;> rfl
    rw [guarded] at outcome
    rcases outcome with ⟨all, -⟩ | ⟨before, pair, after, f, split, -, lacks, failed⟩
    · obtain ⟨column, entry, found, -⟩ := all (0, 0) (by simp)
      simp [none] at found
    · have mem : pair ∈ [(0, 0)] := by simp [split]
      obtain rfl := List.mem_singleton.mp mem
      cases lacks with
      | noEntry => exact failed
      | emptyEntry entry found => simp [none] at found
      | noColumn entry f found => simp [none] at found
  · obtain ⟨outcome, -⟩ := ofTables_of_resetRows rfl (kept [[.ofSymbol (.named "x")]])
    rw [guarded] at outcome
    rcases outcome with ⟨-, s, built, -, -, described⟩ | ⟨before, pair, after, f, split, -, lacks, -⟩
    · exact ⟨s, built, described⟩
    · have mem : pair ∈ [(0, 0)] := by simp [split]
      obtain rfl := List.mem_singleton.mp mem
      have found : SystemTables.entryOf? [[Entries.ofSymbol (.named "x")]] (0, 0) =
          some (.ofSymbol (K := Number) (.named "x")) := rfl
      cases lacks with
      | noEntry none => simp [found] at none
      | emptyEntry entry other parts =>
          obtain rfl := Option.some.inj (found.symm.trans other)
          simp [Entries.ofSymbol] at parts
      | noColumn entry f other _ failed =>
          obtain rfl := Option.some.inj (found.symm.trans other)
          rw [SystemTables.toColumn_of_flat (by simp [Entries.ofSymbol, Entries.isSequence])] at failed
          simp at failed

end HybridRelaxation
