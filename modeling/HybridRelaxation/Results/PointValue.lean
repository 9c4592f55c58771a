import HybridRelaxation.NumberArray
import HybridRelaxation.Results.Basic
import HybridRelaxation.Results.Calculation

/-!
# Values of solved functions at points

A solved value function is evaluated at a batch of times and states. Times and states come as
arrays. A flat array of states is a batch for a mode with one state and a single state for other
modes, and a single time serves for all states. Where the entries of a state are arrays themselves,
the value of a sample is an array as well.
-/

namespace HybridRelaxation

/-! ## Batches of states -/

abbrev Sample := List (List FloatValue)

structure StateBatch where
  width : Nat
  samples : List Sample

namespace StateBatch

def sampleOf (size : Nat) (entries : List (List FloatValue)) : Sample :=
  (List.range size).map (fun j => entries.map (fun piece => piece.getD j .undefined))

def samplesOf (count width size : Nat) (values : List FloatValue) : List Sample :=
  (NumberArray.pieces (width * size) count values).map (fun piece =>
    sampleOf size (NumberArray.pieces size width piece))

/-- The batch that an array is, by its first two dimensions; a flat array has only one. -/
def ofArray? (a : NumberArray FloatValue) : Option StateBatch :=
  match a.shape with
  | count :: width :: inner =>
      some ⟨width, samplesOf count width (inner.foldl (· * ·) 1) a.values⟩
  | _ => none

def ofStates (stateCount : Nat) (a : NumberArray FloatValue) : StateBatch :=
  match ofArray? a with
  | some batch => batch
  | none =>
      if stateCount = 1 then ⟨1, a.values.map (fun x => [[x]])⟩
      else ⟨a.values.length, [[a.values]]⟩

/-- Every state with as many entries as asked for, the last entry standing for missing ones. -/
def padded (stateCount : Nat) (batch : StateBatch) : StateBatch :=
  ⟨stateCount, batch.samples.map (fun sample => sample.map (fun state =>
    (List.range stateCount).map (fun k => (state[min k (state.length - 1)]?).getD .undefined)))⟩

end StateBatch

/-! ## Values -/

structure StateFunction where
  expression : Expression Number
  time : Symbol
  states : List Symbol

namespace StateFunction

def pointAt (f : StateFunction) (t : FloatValue) (x : List FloatValue) : Point :=
  (f.time :: f.states).zip ((t :: x).map (FloatValue.convert .single))

def value (f : StateFunction) (t : FloatValue) (x : List FloatValue) : Except Failure FloatValue :=
  f.expression.valueAt (f.pointAt t x)

/-- The symbols are distinct, and the function has values; that depends on no point. -/
def check (f : StateFunction) : Except Failure Unit :=
  if (f.time :: f.states).Nodup then do
    let _ ← f.value (.ofInt 0) (f.states.map (fun _ => .ofInt 0))
    .ok ()
  else .error .repeatedSymbol

def dependsOnStates (f : StateFunction) : Bool :=
  f.expression.symbols.any (fun s => f.states.contains s)

def sampleValues (f : StateFunction) (t : FloatValue) (sample : Sample) :
    Except Failure (List FloatValue) :=
  if f.dependsOnStates then sample.mapM (f.value t)
  else do .ok [← f.value t (f.states.map (fun _ => .undefined))]

def values (f : StateFunction) (times : List FloatValue) (samples : List Sample) :
    Except Failure (List FloatValue) := do
  f.check
  let found ← (times.zip samples).mapM (fun (t, sample) => f.sampleValues t sample)
  .ok found.flatten

end StateFunction

def timeRow (count : Nat) (times : NumberArray FloatValue) : Except Failure (List FloatValue) :=
  match times.shape, times.values with
  | [], [t] => .ok (List.replicate count t)
  | [1], [t] => .ok (List.replicate count t)
  | [length], ts => if length = count then .ok ts else .error .badValue
  | _, _ => .error .badValue

namespace Results

def stateFunction (r : Results Number) (mode : Int) (states : List Symbol) :
    Except Failure StateFunction := do
  .ok ⟨← entryAt r.valueFunctions mode, r.time, states⟩

def evaluateBatch (r : Results Number) (mode : Int) (states : List Symbol) (times : NumberArray FloatValue)
    (batch : StateBatch) : Except Failure (List FloatValue) := do
  if batch.width ≠ states.length then .error (.stateDimension states.length batch.width)
  else
    let ts ← timeRow batch.samples.length times
    (← r.stateFunction mode states).values ts batch.samples

def evaluate (r : Results Number) (mode times states : Datum) :
    Except Failure (List FloatValue) := do
  let position ← mode.position
  let symbols ← entryAt r.states position
  let xs ← NumberArray.ofPresent states
  let ts ← if (StateBatch.ofStates symbols.length xs).width = symbols.length then
      NumberArray.ofPresent times
    else .ok ⟨[], []⟩
  r.evaluateBatch position symbols ts (.ofStates symbols.length xs)

def evaluatePairs (r : Results Number) (mode times states : Datum) :
    Except Failure (List FloatValue) := do
  let position ← mode.position
  let e ← entryAt r.valueFunctions position
  let symbols ← entryAt r.states position
  let f : StateFunction := ⟨e, r.time, symbols⟩
  let ts ← NumberArray.ofPresent times
  let xs ← NumberArray.ofPresent states
  match ts.shape, xs.shape with
  | [length], count :: inner =>
      if length ≠ count then .error .badValue
      else
        match StateBatch.ofArray? xs with
        | some batch =>
            if batch.width = 0 ∧ !symbols.isEmpty then .error .outOfRange
            else f.values ts.values (batch.padded symbols.length).samples
        | none =>
            if symbols.isEmpty ∧ inner.isEmpty then
              f.values ts.values (xs.values.map (fun _ => [[]]))
            else .error .outOfRange
  | _, _ => .error .badValue

end Results

end HybridRelaxation
