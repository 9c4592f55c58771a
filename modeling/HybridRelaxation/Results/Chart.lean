import HybridRelaxation.Results.PointValue

/-!
# Charts

A heatmap shows the value function of a mode over time and one of its states, the other states
being fixed. A bar chart shows the residuals and subresiduals of all constraints.
-/

namespace HybridRelaxation

/-! ## Grids on an interval -/

namespace FloatValue

def divideNat (x : FloatValue) (n : Nat) : FloatValue :=
  match x with
  | .finite negative magnitude => round .double negative (magnitude / n)
  | x => x

end FloatValue

def gridOffset (length : FloatValue) (gaps k : Nat) : FloatValue :=
  let step := length.divideNat gaps
  if gaps = 0 then .mul .double (.ofInt k) length
  else if step.isZero then .mul .double ((FloatValue.ofInt k).divideNat gaps) length
  else .mul .double (.ofInt k) step

/-- Evenly spaced points of an interval; with more than one point the last is its end. -/
def evenlySpaced (start stop : FloatValue) (count : Nat) : List FloatValue :=
  let length := FloatValue.sub .double stop start
  (List.range count).map (fun k =>
    if 0 < k ∧ k + 1 = count then stop
    else .add .double (gridOffset length (count - 1) k) start)

@[simp] theorem length_evenlySpaced (start stop : FloatValue) (count : Nat) :
    (evenlySpaced start stop count).length = count := by
  simp [evenlySpaced]

/-! ## Heatmaps -/

structure Heatmap where
  title : String
  /-- The name of the state on the vertical axis. -/
  label : String
  times : List FloatValue
  levels : List FloatValue
  /-- One row for each level, with one value for each time. -/
  values : List (List FloatValue)
  deriving DecidableEq

structure HeatmapRequest where
  mode : Datum
  stateIndex : Datum
  /-- The ends of the interval of the state that is shown. -/
  range : Datum
  /-- The other states; absent ones are zero. -/
  fixed : Datum
  count : Datum

namespace HeatmapRequest

def shownState (q : HeatmapRequest) (states : List Symbol) : Except Failure Symbol :=
  let outside : Except Failure Symbol :=
    .error (.stateIndex q.stateIndex.display states.length)
  match q.stateIndex with
  | .real x =>
      match x.toRat? with
      | some c => ((if 0 ≤ c then states[c.floor.toNat]? else none).map .ok).getD outside
      | none => outside
  | d => do
      let k ← d.position
      ((if 0 ≤ k then states[k.toNat]? else none).map .ok).getD outside

def fixedStates (q : HeatmapRequest) (stateCount : Nat) : Except Failure (NumberArray FloatValue) :=
  match q.fixed with
  | .none => .ok ⟨[stateCount], List.replicate stateCount (.ofInt 0)⟩
  | d => NumberArray.ofDatum d

def pointCount (q : HeatmapRequest) : Except Failure Nat := do
  let count ← q.count.position
  if count < 0 then .error .badValue else .ok count.toNat

/-- One end of the interval: texts and absent numbers do not count as numbers here. -/
def endOf (d : Datum) : Except Failure (NumberArray FloatValue) :=
  match d with
  | .text _ => .error .wrongType
  | .none => .error .wrongType
  | d => NumberArray.ofDatum d

def ends (q : HeatmapRequest) : Except Failure (List (FloatValue × FloatValue)) :=
  match q.range with
  | .list (start :: stop :: _) => do
      let start ← endOf start
      let stop ← endOf stop
      match start.shape, start.values, stop.shape, stop.values with
      | [], [x], _, ys => .ok (ys.map (fun y => (x, y)))
      | _, xs, [], [y] => .ok (xs.map (fun x => (x, y)))
      | shape, xs, other, ys => if shape = other then .ok (xs.zip ys) else .error .badValue
  | .list _ => .error .outOfRange
  | _ => .error .wrongType

def levels (q : HeatmapRequest) (count : Nat) : Except Failure (List FloatValue) := do
  let columns := (← q.ends).map (fun (start, stop) => evenlySpaced start stop count)
  .ok ((List.range count).flatMap (fun k => columns.filterMap (fun column => column[k]?)))

end HeatmapRequest

def tiledStates (count : Nat) (fixed : NumberArray FloatValue) : Except Failure StateBatch :=
  match fixed.shape with
  | [] => .ok ⟨1, List.replicate count [fixed.values]⟩
  | [width] => .ok ⟨width, List.replicate count [fixed.values]⟩
  | [rows, width] =>
      let copy := (NumberArray.pieces width rows fixed.values).map (fun row => [row])
      .ok ⟨width, (List.replicate count copy).flatten⟩
  | _ => .error .badValue

/-- One state of each sample replaced; a single value serves for all samples. -/
def withLevels (batch : StateBatch) (k : Nat) (xs : List FloatValue) :
    Except Failure StateBatch :=
  if batch.width ≤ k then .error .outOfRange
  else
    let replace (sample : Sample) (x : FloatValue) : Sample := sample.map (fun row => row.set k x)
    match xs with
    | [x] => .ok { batch with samples := batch.samples.map (fun sample => replace sample x) }
    | xs =>
        if xs.length = batch.samples.length then
          .ok { batch with samples := List.zipWith replace batch.samples xs }
        else .error .badValue

namespace Results

def gridPoints (times levels : List FloatValue) : List (FloatValue × FloatValue) :=
  levels.flatMap (fun x => times.map (fun t => (t, x)))

def heatmap (r : Results Number) (q : HeatmapRequest) : Except Failure Heatmap := do
  let mode ← q.mode.position
  let states ← entryAt r.states mode
  let shown ← q.shownState states
  let fixed ← q.fixedStates states.length
  let count ← q.pointCount
  let times := evenlySpaced (.ofInt 0) (.ofInt 1) count
  let levels ← q.levels count
  let points := gridPoints times levels
  let tiled ← tiledStates points.length fixed
  match q.stateIndex.integer? with
  | none => .error .outOfRange
  | some k => do
      let batch ← withLevels tiled k.toNat (points.map Prod.snd)
      let ts : NumberArray FloatValue := ⟨[points.length], points.map Prod.fst⟩
      let values ← r.evaluateBatch mode states ts batch
      if values.length ≠ points.length then .error .badValue
      else
        .ok {
          title := "Value function, mode " ++ q.mode.display
          label := shown.text
          times := times
          levels := levels
          values := NumberArray.pieces times.length levels.length values }

end Results

/-! ## Bar charts -/

structure ResidualChart (K : Type) where
  labels : List String
  residuals : List K
  subresiduals : List K

def barLabel {K : Type} (position : Nat) (r : ConstraintRecord K) : String :=
  toString position ++ ": " ++ r.place.kind.text ++ " " ++ r.place.modeText

def ResidualChart.ofRecords {K : Type} [Scalar K] (records : List (ConstraintRecord K)) :
    ResidualChart K where
  labels := records.zipIdx.map (fun (r, k) => barLabel k r)
  residuals := records.map ConstraintRecord.residualMax
  subresiduals := records.map (fun r =>
    (Results.recordSubresidual? r).getD (Scalar.machine (Scalar.measured 0)))

end HybridRelaxation
