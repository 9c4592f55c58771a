import HybridRelaxation.Number.Mixed
import HybridRelaxation.Results.Basic

/-!
# Console reports

What is printed before, during and after a solve: a banner, a summary of the system, a line for
each constraint that is added, a table of the diagnostics and the bound. Emphasis is given by
escape sequences.
-/

namespace HybridRelaxation

namespace Console

/-! ## Emphasis -/

inductive Emphasis where
  | cyan
  | yellow
  | green
  | bold
  deriving DecidableEq, Repr

def Emphasis.code : Emphasis → String
  | .cyan => "36"
  | .yellow => "33"
  | .green => "32"
  | .bold => "1"

def plainSequence : String := "\x1b[0m"

def emphasized (e : Emphasis) (text : String) : String :=
  "\x1b[" ++ e.code ++ "m" ++ text ++ plainSequence

def line (text : String) : String := text ++ "\n"

def lines (texts : List String) : String := String.join (texts.map line)

def rule : String := String.ofList (List.replicate 105 '-')

def plainRule : String := rule ++ plainSequence

/-! ## Banner -/

def bannerLines : List String :=
  ["",
    "                 _   _       _          _     _  ___   ____ ____",
    "                | | | |_   _| |__  _ __(_) __| |/ _ \\ / ___|  _ \\",
    "                | |_| | | | | '_ \\| '__| |/ _` | | | | |   | |_) |",
    "                |  _  | |_| | |_) | |  | | (_| | |_| | |___|  __/",
    "                |_| |_|\\__, |_.__/|_|  |_|\\__,_|\\___/ \\____|_|",
    "                       |___/",
    rule,
    "                    Hybrid optimal control via sum-of-squares relaxations",
    rule]

def banner : String := lines bannerLines

/-! ## Systems -/

def yesOrNo (b : Bool) : String := if b then "yes" else "no"

/-- A mode without a name, or with an empty one, is known by its number. -/
def modeLabel {K S E : Type} (i : Nat) (m : ModeData K S E) : String :=
  match m.name with
  | none | some "" => "mode " ++ toString i
  | some name => name

def modeLine {K S E : Type} (i : Nat) (m : ModeData K S E) : String :=
  "  [" ++ toString i ++ "] " ++ padRight 16 (modeLabel i m) ++ " n=" ++ toString m.stateCount ++
    "  m=" ++ toString m.controlCount ++
    "  target=" ++ padRight 3 (yesOrNo (!m.targetSet.isEmpty)) ++
    "  x0=" ++ yesOrNo m.initialState.isSome

def transitionLine {E : Type} (t : TransitionData E) : String :=
  "  guard " ++ t.source.display ++ " -> " ++ t.target.display ++
    "  (" ++ (if t.reset.isSome then "custom" else "identity") ++ " reset)"

def summaryTitle {K S E : Type} (s : SystemData K S E) (degree solver : Datum) : String :=
  "Modes: " ++ toString s.modeCount ++ "   Transitions: " ++ toString s.transitions.length ++
    "   Relaxation degree: " ++ degree.display ++ "   Solver: " ++ solver.display

def summary {K S E : Type} (s : SystemData K S E) (degree solver : Datum) : String :=
  lines (emphasized .cyan (summaryTitle s degree solver) ::
    (s.modes.zipIdx.map (fun (m, i) => modeLine i m) ++ s.transitions.map transitionLine))

/-! ## Constraints -/

def placeText (mode : Datum) : Datum → String
  | .none => " (mode " ++ mode.display ++ ")"
  | target => " (mode " ++ mode.display ++ " -> " ++ target.display ++ ")"

def announcementOf? (kind : ConstraintKind) (mode target : Datum) : Option String :=
  kind.announcement?.map (fun words => line (words ++ placeText mode target))

def announcement? (c : ConstraintPlace) : Option String :=
  announcementOf? c.kind (.integer c.mode) ((c.target.map Datum.integer).getD .none)

def announcements (places : List ConstraintPlace) : String :=
  String.join (places.filterMap announcement?)

/-! ## Diagnostics -/

def columnWidths : List Nat := [4, 11, 7, 5, 12, 12, 14]

def tableLine (cells : List String) : String :=
  " | ".intercalate (List.zipWith padCenter columnWidths cells)

def tableHeader : String :=
  tableLine ["#", "Constraint", "Mode", "SOS", "Residual max", "Residual sum", "Subresidual max"]

def sizeText (c : Number) : String := c.toDouble.scientific 3

/-- The first subresidual that none of the others exceeds. -/
def greatestSubresidual (r : ConstraintRecord Number) : Number := Results.greatest r.subresidualMax

def recordLine (k : Nat) (r : ConstraintRecord Number) : String :=
  tableLine [toString k, r.place.kind.text, r.place.modeText, toString (r.multiplierCount + 1),
    sizeText r.residualMax, sizeText r.residualSum, sizeText (greatestSubresidual r)]

def typedPosition (k : Int) : String := "np.int64(" ++ toString k ++ ")"

def verdict (invalid : List String) : String :=
  match invalid with
  | [] => emphasized .green "All Gram matrices are positive semidefinite"
  | invalid => emphasized .yellow ("Gram matrices with negative eigenvalues: " ++ bracketed invalid)

def diagnostics (records : List (ConstraintRecord Number)) (invalid : List String) : String :=
  lines ([plainRule, tableHeader, plainRule] ++
    records.zipIdx.map (fun (r, k) => recordLine k r) ++ [verdict invalid])

/-! ## Footer -/

def footerRule : String := String.ofList (List.replicate 48 '-')

def footer (seconds bound : Datum) : String :=
  lines [plainRule,
    footerRule ++ " " ++ emphasized .bold "RESULTS" ++ " " ++ footerRule,
    "Lower bound on optimal cost:  " ++ bound.display,
    "Total Computation Time:  " ++ seconds.display]

end Console

end HybridRelaxation
