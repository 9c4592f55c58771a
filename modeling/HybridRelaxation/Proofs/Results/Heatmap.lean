import Mathlib
import HybridRelaxation.Proofs.Results.PointValue
import HybridRelaxation.Results.Chart

/-!
# Cells of a heatmap

The values of a heatmap are calculated in one batch: the grid of times and levels is written as one
list, level by level, each of its points takes a copy of the fixed states with the shown state
replaced, and the list of values is cut into rows again.  The main statement says that every value
ends in its cell: the value of a row and a column is the one at the level of the row and at the time
of the column.
-/

namespace HybridRelaxation

/-! ## Arrays -/

namespace NumberArray

variable {α : Type}

theorem pieces_flatten {length : ℕ} {rows : List (List α)} (h : ∀ row ∈ rows, row.length = length) :
    pieces length rows.length rows.flatten = rows := by
  induction rows with
  | nil => rfl
  | cons row rows ih =>
      obtain ⟨hrow, hrows⟩ := List.forall_mem_cons.mp h
      subst hrow
      simp [pieces, ih hrows]

mutual

theorem length_floats {d : Datum} {shape : List ℕ} {xs : List FloatValue}
    (hshape : shape? d = some shape) (hxs : d.floats = .ok xs) : xs.length = shape.prod := by
  match d with
  | .list items =>
      obtain ⟨shapes, hshapes⟩ : ∃ shapes, shapes? items = some shapes := by
        cases h : shapes? items with
        | none => simp [shape?, h] at hshape
        | some shapes => exact ⟨shapes, rfl⟩
      have total := length_floatsOf hshapes hxs
      cases shapes with
      | nil =>
          obtain rfl : [0] = shape := by simpa [shape?, hshapes] using hshape
          simpa using total
      | cons s rest =>
          -- All items have the shape of the first one.
          obtain ⟨same, rfl⟩ : (∀ s' ∈ rest, s' = s) ∧ (rest.length + 1) :: s = shape := by
            simpa [shape?, hshapes] using hshape
          rw [total, List.eq_replicate_of_mem same]
          simp [Nat.add_mul, Nat.add_comm]
  | .none =>
      obtain rfl : [] = shape := by simpa [shape?] using hshape
      obtain rfl : [.undefined] = xs := Except.ok.inj hxs
      rfl
  | .table entries =>
      have failed : (Datum.table entries).floats = .error .wrongType := rfl
      simp [failed] at hxs
  | .flag b | .integer n | .real x | .text s =>
      obtain rfl : [] = shape := by simpa [shape?] using hshape
      obtain ⟨x, -, rfl⟩ : ∃ x, _ ∧ [x] = xs := map_eq_ok.mp (by simpa only [Datum.floats] using hxs)
      rfl

theorem length_floatsOf {items : List Datum} {shapes : List (List ℕ)} {xs : List FloatValue}
    (hshapes : shapes? items = some shapes) (hxs : Datum.floatsOf items = .ok xs) :
    xs.length = (shapes.map List.prod).sum := by
  match items with
  | [] =>
      obtain rfl : [] = shapes := by simpa [shapes?] using hshapes
      obtain rfl : [] = xs := by simpa [Datum.floatsOf] using hxs
      rfl
  | d :: rest =>
      obtain ⟨s, others, hs, hothers, rfl⟩ :
          ∃ s others, shape? d = some s ∧ shapes? rest = some others ∧ s :: others = shapes := by
        simp only [shapes?] at hshapes
        split at hshapes
        · next s others hs hothers => exact ⟨s, others, hs, hothers, Option.some.inj hshapes⟩
        · simp at hshapes
      obtain ⟨first, hfirst, tail, htail, rfl⟩ :
          ∃ first, d.floats = .ok first ∧ ∃ tail, Datum.floatsOf rest = .ok tail ∧
            first ++ tail = xs := by
        simpa [Datum.floatsOf, bind_eq_ok] using hxs
      simp [length_floats hs hfirst, length_floatsOf hothers htail]

end

theorem length_values_ofDatum {d : Datum} {a : NumberArray FloatValue} (h : ofDatum d = .ok a) :
    a.values.length = a.shape.prod := by
  unfold ofDatum at h
  split at h
  · next shape hshape =>
      obtain ⟨xs, hxs, rfl⟩ := map_eq_ok.mp h
      exact length_floats hshape hxs
  · simp at h

end NumberArray

/-! ## Batches over a grid -/

theorem mapM_flatMap {ε α β γ : Type} (f : β → Except ε γ) (g : α → List β) (xs : List α) :
    (xs.flatMap g).mapM f = (xs.mapM (fun x => (g x).mapM f)).map List.flatten := by
  induction xs with
  | nil => rfl
  | cons x xs ih =>
      rw [List.flatMap_cons, List.mapM_append, ih, List.mapM_cons]
      cases (g x).mapM f with
      | error e => rfl
      | ok row => cases xs.mapM (fun x => (g x).mapM f) <;> rfl

theorem mapM_gridPoints {ε β : Type} (f : FloatValue × FloatValue → Except ε β)
    (times levels : List FloatValue) :
    (Results.gridPoints times levels).mapM f =
      (levels.mapM (fun x => times.mapM (fun t => f (t, x)))).map List.flatten := by
  simp only [Results.gridPoints, mapM_flatMap, List.mapM_map, Function.comp_def]

theorem withLevels_tiled {width k : ℕ} (fixed levels : List FloatValue) (h : k < width) :
    withLevels ⟨width, List.replicate levels.length [fixed]⟩ k levels =
      .ok ⟨width, levels.map (fun x => [fixed.set k x])⟩ := by
  have each : ∀ (replace : Sample → FloatValue → Sample) (xs : List FloatValue),
      List.zipWith replace (List.replicate xs.length [fixed]) xs = xs.map (replace [fixed]) := by
    intro replace xs
    induction xs with
    | nil => rfl
    | cons x xs ih => simp [List.replicate_succ, ih]
  unfold withLevels
  rw [if_neg (Nat.not_le.mpr h)]
  match levels with
  | [x] => rfl
  | [] => rfl
  | x :: y :: rest =>
      simp only [List.length_replicate, if_true, each, List.map_cons, List.map_nil]

theorem mapM_singletons {ε α β : Type} (f : α → Except ε β) (xs : List α) :
    (xs.mapM (fun x => (f x).map (fun y => [y]))).map List.flatten = xs.mapM f := by
  induction xs with
  | nil => rfl
  | cons x xs ih =>
      rw [List.mapM_cons, List.mapM_cons, ← ih]
      cases f x with
      | error e => rfl
      | ok y => cases xs.mapM (fun x => (f x).map (fun y => [y])) <;> rfl

theorem StateFunction.values_singletons (f : StateFunction) {α : Type} (ps : List α)
    (time : α → FloatValue) (state : α → List FloatValue) :
    f.values (ps.map time) (ps.map (fun p => [state p])) =
      (do f.check; ps.mapM (fun p => f.value (time p) (state p))) := by
  rw [← mapM_singletons, values, List.zip_map', List.mapM_map]
  simp only [Function.comp_def, f.sampleValues_singleton]
  cases f.check with
  | error e => rfl
  | ok _ => cases ps.mapM (fun p => (f.value (time p) (state p)).map (fun z => [z])) <;> rfl

theorem length_gridPoints (times levels : List FloatValue) :
    (Results.gridPoints times levels).length = levels.length * times.length := by
  simp [Results.gridPoints, List.length_flatMap]

theorem timeRow_flat (ts : List FloatValue) : timeRow ts.length ⟨[ts.length], ts⟩ = .ok ts := by
  match ts with
  | [] => rfl
  | [t] => rfl
  | t :: u :: rest => simp [timeRow]

namespace HeatmapRequest

theorem levels_eq {q : HeatmapRequest} {start stop : FloatValue} (h : q.ends = .ok [(start, stop)])
    (count : ℕ) : q.levels count = .ok (evenlySpaced start stop count) := by
  have row : ∀ k ∈ List.range count, [evenlySpaced start stop count].filterMap (fun column => column[k]?) =
      [if 0 < k ∧ k + 1 = count then stop
        else .add .double
          (gridOffset (FloatValue.sub .double stop start) (count - 1) k) start] := by
    intro k hk
    simp [evenlySpaced, List.mem_range.mp hk]
  have column : (List.range count).flatMap (fun k =>
      [evenlySpaced start stop count].filterMap (fun column => column[k]?)) =
      evenlySpaced start stop count := by
    rw [List.flatMap_congr row, evenlySpaced, List.map_eq_flatMap]
  rw [levels, h, ok_bind]
  exact congrArg _ column

/-- What a request asks for: one of the modes, the position of one of its states, an interval
between two numbers, at least one point along each axis, and a number for each state unless the
states are zero. -/
structure AsksFor (q : HeatmapRequest) (r : Results Number) (f : StateFunction) (k : ℕ)
    (start stop : FloatValue) (count : ℕ) (fixed : List FloatValue) : Prop where
  mode : ∃ mode, q.mode.position = .ok mode ∧ entryAt r.states mode = .ok f.states ∧
    entryAt r.valueFunctions mode = .ok f.expression
  time : f.time = r.time
  stateIndex : q.stateIndex = .integer k
  isState : k < f.states.length
  ends : q.ends = .ok [(start, stop)]
  pointCount : q.pointCount = .ok count
  pointCount_pos : 1 ≤ count
  fixed : (q.fixed = .none ∧ fixed = List.replicate f.states.length (.ofInt 0)) ∨
    NumberArray.ofDatum q.fixed = .ok ⟨[f.states.length], fixed⟩

namespace AsksFor

variable {q : HeatmapRequest} {r : Results Number} {f : StateFunction} {k count : ℕ}
  {start stop : FloatValue} {fixed : List FloatValue}

theorem length_fixed (h : q.AsksFor r f k start stop count fixed) :
    fixed.length = f.states.length := by
  rcases h.fixed with ⟨-, rfl⟩ | given
  · simp
  · simpa using NumberArray.length_values_ofDatum given

theorem fixedStates (h : q.AsksFor r f k start stop count fixed) :
    q.fixedStates f.states.length = .ok ⟨[f.states.length], fixed⟩ := by
  rcases h.fixed with ⟨absent, rfl⟩ | given
  · simp [HeatmapRequest.fixedStates, absent]
  · unfold HeatmapRequest.fixedStates
    split
    · next absent =>
        have single : NumberArray.ofDatum .none = .ok ⟨[], [.undefined]⟩ := rfl
        simp [absent, single] at given
    · exact given

theorem shownState (h : q.AsksFor r f k start stop count fixed) :
    q.shownState f.states = .ok (f.states.get ⟨k, h.isState⟩) := by
  simp [HeatmapRequest.shownState, h.stateIndex, Datum.position, Datum.integer?, h.isState]

end AsksFor

end HeatmapRequest

/-! ## The values row by row -/

namespace Results

variable {r : Results Number} {q : HeatmapRequest} {f : StateFunction} {k count : ℕ}
  {start stop : FloatValue} {fixed : List FloatValue}

theorem evaluateBatch_gridPoints {mode : ℤ}
    (hexpression : entryAt r.valueFunctions mode = .ok f.expression) (htime : f.time = r.time)
    (times levels : List FloatValue) :
    r.evaluateBatch mode f.states
        ⟨[(gridPoints times levels).length], (gridPoints times levels).map Prod.fst⟩
        ⟨f.states.length, (gridPoints times levels).map (fun p => [fixed.set k p.2])⟩ =
      (do
        f.check
        (levels.mapM (fun x => times.mapM (fun t => f.value t (fixed.set k x)))).map
          List.flatten) := by
  have htimes := timeRow_flat ((gridPoints times levels).map Prod.fst)
  rw [List.length_map] at htimes
  simp only [evaluateBatch, ne_eq, not_true_eq_false, if_false, List.length_map, htimes,
    stateFunction, hexpression, ← htime, ok_bind]
  rw [f.values_singletons, mapM_gridPoints]

theorem heatmap_eq (h : q.AsksFor r f k start stop count fixed) :
    r.heatmap q = (do
      f.check
      let rows ← (evenlySpaced start stop count).mapM (fun x =>
        (evenlySpaced (.ofInt 0) (.ofInt 1) count).mapM (fun t => f.value t (fixed.set k x)))
      .ok {
        title := "Value function, mode " ++ q.mode.display
        label := (f.states.get ⟨k, h.isState⟩).text
        times := evenlySpaced (.ofInt 0) (.ofInt 1) count
        levels := evenlySpaced start stop count
        values := rows }) := by
  obtain ⟨mode, hmode, hstates, hexpression⟩ := h.mode
  have hindex : q.stateIndex.integer? = some (k : ℤ) := by rw [h.stateIndex]; rfl
  generalize htimes : evenlySpaced (.ofInt 0) (.ofInt 1) count = times
  generalize hlevels : evenlySpaced start stop count = levels
  have tiled := withLevels_tiled fixed ((gridPoints times levels).map Prod.snd) h.isState
  rw [List.length_map] at tiled
  simp only [heatmap, hmode, hstates, h.shownState, h.fixedStates, h.pointCount,
    q.levels_eq h.ends, hindex, htimes, hlevels, tiledStates, tiled, ok_bind, Int.toNat_natCast,
    List.map_map, Function.comp_def, evaluateBatch_gridPoints hexpression h.time]
  cases f.check with
  | error e => rfl
  | ok _ =>
      simp only [ok_bind]
      cases hrows : levels.mapM (fun x => times.mapM (fun t => f.value t (fixed.set k x))) with
      | error e => rfl
      | ok rows =>
          have related := mapM_eq_ok.mp hrows
          have hrow : ∀ row ∈ rows, row.length = times.length := by
            intro row hrow
            obtain ⟨x, -, hx⟩ := exists_left_of_mem related hrow
            exact (mapM_eq_ok.mp hx).length_eq.symm
          have htotal : rows.flatten.length = (gridPoints times levels).length := by
            rw [List.length_flatten, List.map_congr_left hrow, List.map_const', List.sum_replicate,
              length_gridPoints, related.length_eq, smul_eq_mul]
          have hpieces : NumberArray.pieces times.length levels.length rows.flatten = rows :=
            related.length_eq ▸ NumberArray.pieces_flatten hrow
          simp only [Except.map, ok_bind, htotal, hpieces, ne_eq, not_true_eq_false, if_false]

end Results

/-! ## Cells -/

/-- Every cell holds what a function gives at the time of its column and the level of its row. -/
structure Heatmap.Tabulates (c : Heatmap)
    (value : FloatValue → FloatValue → Except Failure FloatValue) : Prop where
  rows : c.values.length = c.levels.length
  columns : ∀ row ∈ c.values, row.length = c.times.length
  cell : ∀ (i j : ℕ) (t x : FloatValue), c.times[j]? = some t → c.levels[i]? = some x →
    ∃ row z, c.values[i]? = some row ∧ row[j]? = some z ∧ value t x = .ok z

theorem Heatmap.tabulates_of_related {c : Heatmap}
    {value : FloatValue → FloatValue → Except Failure FloatValue}
    (h : List.Forall₂ (fun x row => List.Forall₂ (fun t z => value t x = .ok z) c.times row)
      c.levels c.values) : c.Tabulates value where
  rows := h.length_eq.symm
  columns := by
    intro row hrow
    obtain ⟨x, -, hx⟩ := exists_left_of_mem h hrow
    exact hx.length_eq.symm
  cell := by
    intro i j t x ht hx
    obtain ⟨row, hrow, related⟩ := exists_right_at h hx
    obtain ⟨z, hz, hvalue⟩ := exists_right_at related ht
    exact ⟨row, z, hrow, hz, hvalue⟩

namespace Results

/-- A heatmap is made exactly if the value function has values.  It has as many rows and columns as
points were asked for, and each cell holds the value at the time of its column and at the fixed
states with the shown state at the level of its row.  What is fixed for the shown state itself has
no influence.  (The request is only read, so what the caller fixed stays as it is.) -/
theorem tabulates_of_heatmap {r : Results Number} {q : HeatmapRequest} {f : StateFunction}
    {k count : ℕ} {start stop : FloatValue} {fixed : List FloatValue}
    (h : q.AsksFor r f k start stop count fixed) :
    ((∃ c, r.heatmap q = .ok c) ↔ f.check = .ok ()) ∧
    (∀ c, r.heatmap q = .ok c →
      c.times = evenlySpaced (.ofInt 0) (.ofInt 1) count ∧ c.times.length = count ∧
      c.levels = evenlySpaced start stop count ∧ c.levels.length = count ∧
      c.Tabulates (fun t x => f.value t (fixed.set k x))) ∧
    ∀ other fixed', HeatmapRequest.AsksFor { q with fixed := other } r f k start stop count fixed' →
      (∀ i, i ≠ k → fixed'[i]? = fixed[i]?) →
      r.heatmap { q with fixed := other } = r.heatmap q := by
  refine ⟨?_, ?_, ?_⟩
  · rw [heatmap_eq h]
    constructor
    · rintro ⟨c, hc⟩
      exact (bind_check_eq_ok.mp hc).1
    · intro hcheck
      -- One value exists, so the values of all cells do.
      have value : ∀ t x, ∃ z, f.value t (fixed.set k x) = .ok z := fun t x =>
        ((f.check_eq_ok_iff (by rw [List.length_set, h.length_fixed]) t).mp hcheck).2
      obtain ⟨rows, hrows⟩ : ∃ rows, (evenlySpaced start stop count).mapM (fun x =>
          (evenlySpaced (.ofInt 0) (.ofInt 1) count).mapM (fun t =>
            f.value t (fixed.set k x))) = .ok rows :=
        exists_mapM_eq_ok (fun x _ => exists_mapM_eq_ok (fun t _ => value t x))
      rw [hcheck, ok_bind, hrows]
      exact ⟨_, rfl⟩
  · intro c hc
    rw [heatmap_eq h] at hc
    obtain ⟨rows, hrows, hc⟩ := bind_eq_ok.mp (bind_check_eq_ok.mp hc).2
    obtain rfl := Except.ok.inj hc
    refine ⟨rfl, length_evenlySpaced .., rfl, length_evenlySpaced .., ?_⟩
    exact Heatmap.tabulates_of_related ((mapM_eq_ok.mp hrows).imp (fun _ _ => mapM_eq_ok.mp))
  · intro other fixed' h' same
    have replaced : ∀ x, fixed'.set k x = fixed.set k x := by
      intro x
      refine List.ext_getElem? (fun i => ?_)
      by_cases hi : i = k
      · subst hi
        rw [List.getElem?_set_self (h'.length_fixed ▸ h'.isState),
          List.getElem?_set_self (h.length_fixed ▸ h.isState)]
      · rw [List.getElem?_set_ne (Ne.symm hi), List.getElem?_set_ne (Ne.symm hi), same i hi]
    rw [heatmap_eq h, heatmap_eq h']
    simp only [replaced]

def slopedValue : StateFunction where
  expression := ((Expression.ofSymbol (.named "t")).mul
    ((Expression.ofSymbol (.named "x1")).intPower 2)).add (Expression.ofSymbol (.named "x2"))
  time := .named "t"
  states := [.named "x1", .named "x2"]

def slopedResults : Results Number where
  seconds := .exact 0
  bound := .exact 0
  status := none
  records := []
  degree := 4
  minEigenvalues := []
  invalidGrams := []
  valueFunctions := [slopedValue.expression]
  time := slopedValue.time
  states := [slopedValue.states]
  synthesis := none

def slopedRequest : HeatmapRequest where
  mode := .integer 0
  stateIndex := .integer 1
  range := .list [.integer 0, .integer 2]
  fixed := .list [.integer 3, .integer 7]
  count := .integer 3

/-- The value at the time 1/2 and the level 2, which is 1/2 by 9 plus 2, stands in the last row and
the middle column. -/
theorem tabulates_of_heatmap_slopedResults :
    ∃ c row, slopedResults.heatmap slopedRequest = .ok c ∧ c.values.length = 3 ∧
      c.values[2]? = some row ∧ row[1]? = some (.finite false (13 / 2)) := by
  have asks : slopedRequest.AsksFor slopedResults slopedValue 1 (.ofInt 0) (.ofInt 2) 3
      [.ofInt 3, .ofInt 7] :=
    { mode := ⟨0, rfl, rfl, rfl⟩
      time := rfl
      stateIndex := rfl
      isState := by decide
      ends := by decide +kernel
      pointCount := by decide +kernel
      pointCount_pos := by decide
      fixed := .inr (by decide +kernel) }
  obtain ⟨made, cells, -⟩ := tabulates_of_heatmap asks
  obtain ⟨c, hc⟩ := made.mpr (by decide +kernel)
  obtain ⟨htimes, -, hlevels, hcount, table⟩ := cells c hc
  obtain ⟨row, z, hrow, hz, hvalue⟩ := table.cell 2 1 (.finite false (1 / 2)) (.ofInt 2)
    (by rw [htimes]; decide +kernel) (by rw [hlevels]; decide +kernel)
  have value : slopedValue.value (.finite false (1 / 2)) ([.ofInt 3, .ofInt 7].set 1 (.ofInt 2)) =
      .ok (.finite false (13 / 2)) := by decide +kernel
  obtain rfl := Except.ok.inj (hvalue.symm.trans value)
  exact ⟨c, row, hc, table.rows.trans hcount, hrow, hz⟩

end Results

end HybridRelaxation
