import HybridRelaxation.Expression.Facts

/-!
# Sums of expressions

A term added to a sum joins the term with the same product, and is dropped where the coefficients
cancel. An infinite number absorbs the terms that cannot make up for it, and a number without a
value absorbs everything.
-/

namespace HybridRelaxation

variable {K : Type} [Scalar K]

namespace Expression

/-! ## Adding a term -/

def combine? (c : K) (p : Product K) : Expression K → Option (Expression K)
  | .zero => none
  | .plus d q e =>
      if p = q then some (if Scalar.isZero (d + c) then e else .plus (d + c) q e)
      else (combine? c p e).map (.plus d q)

def insert (c : K) (p : Product K) : Expression K → Expression K
  | .zero => .plus c p .zero
  | .plus d q e =>
      if p.order q = .lt then .plus c p (.plus d q e) else .plus d q (insert c p e)

def addTerm (c : K) (p : Product K) (e : Expression K) : Expression K :=
  match e.combine? c p with
  | some f => f
  | none => if Scalar.isZero c then e else e.insert c p

def addTerms (e : Expression K) : Expression K → Expression K
  | .zero => e
  | .plus c p f => (addTerms e f).addTerm c p

@[simp] theorem addTerms_zero (e : Expression K) : e.addTerms .zero = e := rfl

@[simp] theorem addTerms_plus (e : Expression K) (c : K) (p : Product K) (f : Expression K) :
    e.addTerms (.plus c p f) = (e.addTerms f).addTerm c p := rfl

/-! ## Numbers that are not finite -/

def isBounded : Expression K → Bool
  | .zero => true
  | .plus c _ e => (Scalar.finite? c).isSome && e.isBounded

def constantTerm : Expression K → K
  | .plus c .one _ => c
  | _ => 0

def filterTerms (keep : K → Product K → Bool) : Expression K → Expression K
  | .zero => .zero
  | .plus c p e =>
      if keep c p then .plus c p (e.filterTerms keep) else e.filterTerms keep

/-- A term other than the number itself that an infinite number does not absorb. -/
def survives (kind : NumberKind) (c : K) (p : Product K) : Bool :=
  let facts := Expression.facts (.plus c p .zero)
  p = .one ||
    match kind with
    | .infinite false => !(Truth.holds facts.isNonnegative || facts.isFiniteReal)
    | .infinite true => !(Truth.holds facts.isNonpositive || facts.isFiniteReal)
    | .unsignedInfinity => !(Truth.holds facts.finite && facts.isReal.isSome)
    | _ => true

def absorb (e : Expression K) : Expression K :=
  if e.isBounded then e
  else if e.terms.any (fun (c, _) => Scalar.isUndefined c) then .number Scalar.undefined
  else e.filterTerms (survives (Scalar.kind e.constantTerm))

theorem absorb_of_isBounded {e : Expression K} (h : e.isBounded = true) : e.absorb = e := by
  simp [absorb, h]

/-! ## Addition -/

def add (e f : Expression K) : Expression K := (e.addTerms f).absorb

/-- The sum of a list, the single terms before the sums. -/
def sum (es : List (Expression K)) : Expression K :=
  match es with
  | [e] => e
  | es => ((es.filter (fun e => !e.isSum)) ++ es.filter isSum).foldl add .zero

def scale (c : K) : Expression K → Expression K
  | .zero => .zero
  | .plus d p e =>
      if Scalar.isZero (c * d) then scale c e else .plus (c * d) p (scale c e)

def neg (e : Expression K) : Expression K := e.scale (Scalar.ofInt (-1))

def sub (e f : Expression K) : Expression K := e.add f.neg

@[simp] theorem scale_zero (c : K) : scale c (.zero : Expression K) = .zero := rfl

/-- A coefficient times a product; a number times a lone sum is distributed. -/
def ofTerm (c : K) (p : Product K) : Expression K :=
  if Scalar.isZero c then .zero
  else
    match p with
    | .times (.group e) (.integer 1) .one =>
        if (Scalar.finite? c).isSome then e.scale c else .plus c p .zero
    | p => .plus c p .zero

end Expression

def Exponent.toExpression : Exponent K → Expression K
  | .integer n => .ofInt n
  | .multiple c direction => if direction = Exponent.unit then .number c else direction.scale c

instance : Add (Expression K) := ⟨Expression.add⟩

instance : Neg (Expression K) := ⟨Expression.neg⟩

instance : Sub (Expression K) := ⟨Expression.sub⟩

instance : Zero (Expression K) := ⟨.zero⟩

instance : One (Expression K) := ⟨Expression.number 1⟩

/-!
## Powers by base

A product may hold powers of one base whose exponents do not combine. Read by base, each base has
one exponent, the sum of all of them.
-/

abbrev BasePower (K : Type) := Base K × Expression K

def addBasePower (b : Base K) (e : Expression K) : List (BasePower K) → List (BasePower K)
  | [] => [(b, e)]
  | (c, f) :: rest => if b = c then (c, f.add e) :: rest else (c, f) :: addBasePower b e rest

def Product.basePowers (p : Product K) : List (BasePower K) :=
  p.factors.foldl (fun powers (b, e) => addBasePower b e.toExpression powers) []

@[simp] theorem Product.basePowers_one : (Product.one : Product K).basePowers = [] := rfl

end HybridRelaxation
