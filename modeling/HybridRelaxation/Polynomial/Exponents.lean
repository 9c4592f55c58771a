/-!
# Exponent vectors

An exponent vector has one entry for each variable. The vectors of bounded total degree are listed
by total degree and then in descending lexicographic order, so that for two variables the block of
degree two reads `[2, 0]`, `[1, 1]`, `[0, 2]`.
-/

namespace HybridRelaxation

abbrev Exponents := List Int

/-! ## Total degree and order -/

def totalDegreeOf (e : Exponents) : Int := e.foldr (· + ·) 0

@[simp] theorem totalDegreeOf_nil : totalDegreeOf [] = 0 := rfl

@[simp] theorem totalDegreeOf_cons (k : Int) (e : Exponents) :
    totalDegreeOf (k :: e) = k + totalDegreeOf e := rfl

/-- Descending lexicographic order; a vector comes before its extensions. -/
def lexicographicOrder : Exponents → Exponents → Ordering
  | [], [] => .eq
  | [], _ :: _ => .lt
  | _ :: _, [] => .gt
  | k :: e, l :: f => (compare l k).then (lexicographicOrder e f)

/-- Total degree first, then descending lexicographic order. -/
def gradedOrder (e f : Exponents) : Ordering :=
  (compare (totalDegreeOf e) (totalDegreeOf f)).then (lexicographicOrder e f)

def sortGraded (es : List Exponents) : List Exponents :=
  es.mergeSort (fun e f => (gradedOrder e f).isLE)

def addExponents (e f : Exponents) : Exponents := List.zipWith (· + ·) e f

/-! ## Enumeration -/

def homogeneousExponents : Nat → Nat → List Exponents
  | 0, 0 => [[]]
  | 0, _ + 1 => []
  | n + 1, degree =>
      (List.range (degree + 1)).flatMap fun rest =>
        (homogeneousExponents n rest).map (fun e => ((degree - rest : Nat) : Int) :: e)

def integerRange (least greatest : Int) : List Int :=
  (List.range (greatest + 1 - least).toNat).map (fun (k : Nat) => least + k)

def exponents (n : Nat) (degree : Int) (least : Int) : List Exponents :=
  (integerRange (max least 0) degree).flatMap (fun d => homogeneousExponents n d.toNat)

theorem mem_integerRange {k least greatest : Int} :
    k ∈ integerRange least greatest ↔ least ≤ k ∧ k ≤ greatest := by
  simp only [integerRange, List.mem_map, List.mem_range]
  constructor
  · rintro ⟨i, hi, rfl⟩
    omega
  · rintro ⟨hl, hg⟩
    exact ⟨(k - least).toNat, by omega, by omega⟩

end HybridRelaxation
