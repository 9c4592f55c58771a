import HybridRelaxation.Expression.Arithmetic

/-!
# Substitution

Replacing symbols by expressions everywhere, with the simplification that building the result from
its parts performs. A part without replaced symbols stays as it is.
-/

namespace HybridRelaxation

variable {K : Type}

/-- The replacement of the listed symbols; a symbol listed twice has its last replacement. -/
def replacements (pairs : List (Symbol × Expression K)) (s : Symbol) : Option (Expression K) :=
  (pairs.reverse.find? (fun pair => pair.1 = s)).map Prod.snd

@[simp] theorem replacements_nil (s : Symbol) :
    replacements ([] : List (Symbol × Expression K)) s = none := rfl

variable [Scalar K]

mutual

def Expression.substituteTerms (replacement : Symbol → Option (Expression K)) :
    Expression K → List (Expression K)
  | .zero => []
  | .plus c p e =>
      let term : Expression K :=
        if p.symbols.all (fun s => (replacement s).isNone) then .plus c p .zero
        else .product (.number c :: p.substituteFactors replacement)
      term :: e.substituteTerms replacement

def Product.substituteFactors (replacement : Symbol → Option (Expression K)) :
    Product K → List (Expression K)
  | .one => []
  | .times b e p =>
      let factor : Expression K :=
        if (b.symbols ++ e.symbols).all (fun s => (replacement s).isNone) then .ofFactor b e
        else (b.substitute replacement).power (e.substitute replacement)
      factor :: p.substituteFactors replacement

def Base.substitute (replacement : Symbol → Option (Expression K)) : Base K → Expression K
  | .symbol s => (replacement s).getD (.ofSymbol s)
  | .constant c => .ofConstant c
  | .number c => .number c
  | .apply f e =>
      if e.symbols.all (fun s => (replacement s).isNone) then .applied f e
      else .apply f (.sum (e.substituteTerms replacement))
  | .group e => .sum (e.substituteTerms replacement)

def Exponent.substitute (replacement : Symbol → Option (Expression K)) :
    Exponent K → Expression K
  | .integer n => .ofInt n
  | .multiple c e =>
      if e = Exponent.unit then .number c
      else (Expression.number c).mul (.sum (e.substituteTerms replacement))

end

def Expression.substitute (replacement : Symbol → Option (Expression K)) (e : Expression K) :
    Expression K := .sum (e.substituteTerms replacement)

end HybridRelaxation
