import Mathlib
import HybridRelaxation.Proofs.Outcome
import HybridRelaxation.Results.PointValue

/-!
# Calculated values and the points they depend on

A calculation reads the values of the symbols that occur and never looks at what they are: it is
the same sequence of operations at every point.  So values that a relation kept by all operations
ties together at the symbols are tied together in the result.  Taken for equality, this says that a
value depends on the symbols that occur only.  Taken for the relation that holds always, it says
that whether a calculation fails depends on which symbols have values, and not on the values.
-/

namespace HybridRelaxation

/-! ## Computations with related outcomes -/

/-- Both computations fail in the same way, or both succeed with related results. -/
inductive SameOutcome {ε α β : Type} (r : α → β → Prop) : Except ε α → Except ε β → Prop
  | ok {a : α} {b : β} (related : r a b) : SameOutcome r (.ok a) (.ok b)
  | error (e : ε) : SameOutcome r (.error e) (.error e)

namespace SameOutcome

variable {ε α β γ δ : Type} {r : α → β → Prop} {r' : γ → δ → Prop}

theorem bind {x : Except ε α} {y : Except ε β} {f : α → Except ε γ} {g : β → Except ε δ}
    (h : SameOutcome r x y) (next : ∀ a b, r a b → SameOutcome r' (f a) (g b)) :
    SameOutcome r' (x >>= f) (y >>= g) := by
  cases h with
  | ok related => exact next _ _ related
  | error e => exact .error e

theorem foldlM {x : α} {y : β} {f : α → γ → Except ε α} {g : β → δ → Except ε β} {cs : List γ}
    {ds : List δ} (hstart : r x y) (hlist : List.Forall₂ r' cs ds)
    (step : ∀ a b c d, r a b → r' c d → SameOutcome r (f a c) (g b d)) :
    SameOutcome r (cs.foldlM f x) (ds.foldlM g y) := by
  induction hlist generalizing x y with
  | nil => exact .ok hstart
  | cons head _ ih =>
      simp only [List.foldlM_cons]
      exact (step _ _ _ _ hstart head).bind (fun _ _ related => ih related)

theorem eq_of_eq {x y : Except ε α} (h : SameOutcome Eq x y) : x = y := by
  cases h with
  | ok related => rw [related]
  | error e => rfl

theorem exists_ok_iff {x : Except ε α} {y : Except ε β} (h : SameOutcome r x y) :
    (∃ a, x = .ok a) ↔ ∃ b, y = .ok b := by
  cases h <;> simp

end SameOutcome

/-! ## Relations that operations keep -/

/-- Operations on values related by `R` have related results. -/
structure KeptByOperations (R : FloatValue → FloatValue → Prop) : Prop where
  refl (x : FloatValue) : R x x
  binary (f : FloatValue → FloatValue → FloatValue) {x x' y y' : FloatValue} (hx : R x x')
    (hy : R y y') : R (f x y) (f x' y')

theorem keptByOperations_eq : KeptByOperations Eq := ⟨fun _ => rfl, fun _ _ _ _ _ hx hy => by rw [hx, hy]⟩

theorem keptByOperations_true : KeptByOperations (fun _ _ => True) :=
  ⟨fun _ => trivial, fun _ _ _ _ _ _ _ => trivial⟩

theorem KeptByOperations.unary {R : FloatValue → FloatValue → Prop} (hR : KeptByOperations R)
    (f : FloatValue → FloatValue) {x x' : FloatValue} (hx : R x x') : R (f x) (f x') :=
  hR.binary (fun x _ => f x) hx hx

inductive Calculated.Matches (R : FloatValue → FloatValue → Prop) : Calculated → Calculated → Prop
  | whole (n : Int) : Matches R (.whole n) (.whole n)
  | double (x : FloatValue) : Matches R (.double x) (.double x)
  | single {x y : FloatValue} (related : R x y) : Matches R (.single x) (.single y)
  | unknown : Matches R .unknown .unknown

structure Quotient.Matches (R : FloatValue → FloatValue → Prop) (q q' : Quotient) : Prop where
  above : List.Forall₂ (Calculated.Matches R) q.above q'.above
  below : List.Forall₂ (Calculated.Matches R) q.below q'.below

section

variable {R : FloatValue → FloatValue → Prop} (hR : KeptByOperations R)

include hR

namespace Calculated

theorem matches_refl (a : Calculated) : Matches R a a := by
  cases a with
  | whole n => exact .whole n
  | double x => exact .double x
  | single x => exact .single (hR.refl x)
  | unknown => exact .unknown

variable {a a' b b' : Calculated}

theorem Matches.toSingle (h : Matches R a a') : SameOutcome R a.toSingle a'.toSingle := by
  cases h with
  | whole n =>
      simp only [Calculated.toSingle]
      split
      · exact .ok (hR.refl _)
      · exact .error _
  | double x => exact .ok (hR.refl _)
  | single related => exact .ok related
  | unknown => exact .error _

theorem Matches.combine (exact : Int → Int → Option Int)
    (rounded : FloatFormat → FloatValue → FloatValue → FloatValue) (ha : Matches R a a')
    (hb : Matches R b b') :
    SameOutcome (Matches R) (Calculated.combine exact rounded a b)
      (Calculated.combine exact rounded a' b') := by
  cases ha with
  | single related =>
      cases hb with
      | unknown => exact .error _
      | whole n =>
          exact ((Matches.whole n).toSingle hR).bind
            (fun _ _ h => .ok (.single (hR.binary _ related h)))
      | double x =>
          exact ((Matches.double x).toSingle hR).bind
            (fun _ _ h => .ok (.single (hR.binary _ related h)))
      | single other => exact .ok (.single (hR.binary _ related other))
  | unknown =>
      cases hb with
      | single _ => exact .error _
      | _ => exact .ok .unknown
  | whole m =>
      cases hb with
      | unknown => exact .ok .unknown
      | single related =>
          exact ((Matches.whole m).toSingle hR).bind
            (fun _ _ h => .ok (.single (hR.binary _ h related)))
      | double x => exact .ok (matches_refl hR _)
      | whole n =>
          simp only [Calculated.combine]
          split <;> exact .ok (matches_refl hR _)
  | double x =>
      cases hb with
      | unknown => exact .ok .unknown
      | single related =>
          exact ((Matches.double x).toSingle hR).bind
            (fun _ _ h => .ok (.single (hR.binary _ h related)))
      | _ => exact .ok (matches_refl hR _)

theorem Matches.image (f : FloatValue → FloatValue) (h : Matches R a a') :
    SameOutcome (Matches R) (a.image f) (a'.image f) := by
  cases h with
  | unknown => exact .error _
  | whole n =>
      exact ((Matches.whole n).toSingle hR).bind
        (fun _ _ h => .ok (.single (hR.unary f h)))
  | double x => exact .ok (matches_refl hR _)
  | single related => exact .ok (.single (hR.unary f related))

theorem Matches.natPower (n : Nat) (h : Matches R a a') :
    Matches R (a.natPower n) (a'.natPower n) := by
  cases h with
  | single related => exact .single (hR.unary (fun x => x.natPower .single n) related)
  | _ => exact matches_refl hR _

theorem Matches.apply (f : UnaryFunction) (h : Matches R a a') :
    SameOutcome (Matches R) (a.apply f) (a'.apply f) := by
  cases f with
  | abs =>
      refine .ok ?_
      cases h with
      | single related => exact .single (hR.unary FloatValue.abs related)
      | _ => exact matches_refl hR _
  | _ => exact h.image hR _

theorem matches_product {as as' : List Calculated} (h : List.Forall₂ (Matches R) as as') :
    SameOutcome (Matches R) (product as) (product as') := by
  cases h with
  | nil => exact .ok (.whole 1)
  | cons head tail =>
      exact SameOutcome.foldlM head tail (fun _ _ _ _ ha hb => ha.combine hR _ _ hb)

end Calculated

namespace Quotient

variable {q q' : Quotient} {a a' : Calculated}

omit hR in
theorem Matches.withAbove (hq : q.Matches R q') (ha : a.Matches R a') :
    (q.withAbove a).Matches R (q'.withAbove a') := ⟨.cons ha hq.above, hq.below⟩

omit hR in
theorem Matches.withBelow (hq : q.Matches R q') (ha : a.Matches R a') :
    (q.withBelow a).Matches R (q'.withBelow a') := ⟨hq.above, .cons ha hq.below⟩

theorem Matches.withIntPower (n : Int) (hq : q.Matches R q') (ha : a.Matches R a') :
    (q.withIntPower a n).Matches R (q'.withIntPower a' n) := by
  unfold Quotient.withIntPower
  split
  · exact hq.withBelow (ha.natPower hR _)
  · exact hq.withAbove (ha.natPower hR _)

theorem Matches.withRoot (exponent : Rat) (hq : q.Matches R q') (ha : a.Matches R a') :
    SameOutcome (Quotient.Matches R) (q.withRoot a exponent) (q'.withRoot a' exponent) := by
  have placed : ∀ root root', Calculated.Matches R root root' →
      SameOutcome (Quotient.Matches R)
        (.ok (if exponent < 0 then q.withBelow root else q.withAbove root) : Except Failure _)
        (.ok (if exponent < 0 then q'.withBelow root' else q'.withAbove root')) := by
    intro root root' h
    split
    · exact .ok (hq.withBelow h)
    · exact .ok (hq.withAbove h)
  by_cases half : exponent.abs = 1 / 2
  · simpa only [Quotient.withRoot, half, if_true] using (ha.image hR _).bind placed
  · simpa only [Quotient.withRoot, half, if_false, Calculated.power] using
      (ha.combine hR _ _ (.double _)).bind placed

theorem Matches.value (c : Number) (hq : q.Matches R q') :
    SameOutcome (Calculated.Matches R) (q.value c) (q'.value c) := by
  refine SameOutcome.bind (Calculated.matches_product hR ?_) (fun above above' ha => ?_)
  · exact List.rel_append
      (List.forall₂_same.mpr (fun a _ => Calculated.matches_refl hR a)) hq.above
  · have hbelow := hq.below
    cases hb : q.below with
    | nil =>
        rw [hb] at hbelow
        rw [List.forall₂_nil_left_iff.mp hbelow]
        exact .ok ha
    | cons d ds =>
        rw [hb] at hbelow
        cases hb' : q'.below with
        | nil => simp [hb'] at hbelow
        | cons d' ds' =>
            rw [hb'] at hbelow
            exact (Calculated.matches_product hR hbelow).bind
              (fun _ _ h => ha.combine hR _ _ h)

end Quotient

/-! ## Expressions at two points -/

variable {point point' : Point}

mutual

theorem Expression.matches_calculate (e : Expression Number)
    (h : ∀ s ∈ e.symbols, (point.value s).Matches R (point'.value s)) :
    SameOutcome (Calculated.Matches R) (e.calculate point) (e.calculate point') := by
  match e with
  | .zero => exact .ok (.whole 0)
  | .plus c p .zero =>
      have hp := Product.matches_quotient p (fun s hs => h s (by simp [Expression.symbols, hs]))
      exact hp.bind (fun _ _ hq => hq.value hR c)
  | .plus c p (.plus d q e) =>
      have hp := Product.matches_quotient p (fun s hs => h s (by simp [Expression.symbols, hs]))
      have hrest := Expression.matches_calculate (.plus d q e)
        (fun s hs => h s (by rw [Expression.symbols]; exact List.mem_append_right _ hs))
      exact hp.bind (fun _ _ hq => (hq.value hR c).bind (fun _ _ hterm =>
        hrest.bind (fun _ _ hsum => hterm.combine hR _ _ hsum)))

theorem Product.matches_quotient (p : Product Number)
    (h : ∀ s ∈ p.symbols, (point.value s).Matches R (point'.value s)) :
    SameOutcome (Quotient.Matches R) (p.quotient point) (p.quotient point') := by
  match p with
  | .one => exact .ok ⟨.nil, .nil⟩
  | .times b (.integer n) p =>
      have hp := Product.matches_quotient p (fun s hs => h s (by simp [Product.symbols, hs]))
      have hb := Base.matches_calculate b (fun s hs => h s (by simp [Product.symbols, hs]))
      by_cases hbase : b = .constant .euler
      · subst hbase
        refine hp.bind (fun _ _ hq => ?_)
        split
        · exact .ok (hq.withAbove (.double _))
        · exact ((Calculated.Matches.whole n).image hR _).bind (fun _ _ ha => .ok (hq.withAbove ha))
      · rw [Product.quotient.eq_4 _ _ _ _ hbase, Product.quotient.eq_4 _ _ _ _ hbase]
        exact hp.bind (fun _ _ hq => hb.bind (fun _ _ ha => .ok (hq.withIntPower hR n ha)))
  | .times b (.multiple c direction) p =>
      have hp := Product.matches_quotient p (fun s hs => h s (by simp [Product.symbols, hs]))
      have hb := Base.matches_calculate b (fun s hs => h s (by simp [Product.symbols, hs]))
      have hd := Expression.matches_calculate direction
        (fun s hs => h s (by simp [Product.symbols, Exponent.symbols, hs]))
      by_cases hbase : b = .constant .euler
      · subst hbase
        exact hp.bind (fun _ _ hq => hd.bind (fun _ _ ha =>
          ((Calculated.matches_refl hR (.ofNumber c)).combine hR _ _ ha).bind
            (fun _ _ hexponent => (hexponent.image hR _).bind
              (fun _ _ himage => .ok (hq.withAbove himage)))))
      · rw [Product.quotient.eq_5 _ _ _ _ _ hbase, Product.quotient.eq_5 _ _ _ _ _ hbase]
        refine hp.bind (fun _ _ hq => hb.bind (fun _ _ ha => ?_))
        split
        · split
          · exact .ok (hq.withAbove (Calculated.matches_refl hR _))
          · exact hq.withRoot hR _ ha
        · exact hd.bind (fun _ _ hdirection =>
            ((Calculated.matches_refl hR (.ofNumber c)).combine hR _ _ hdirection).bind
              (fun _ _ hexponent => (ha.combine hR _ _ hexponent).bind
                (fun _ _ hpower => .ok (hq.withAbove hpower))))

theorem Base.matches_calculate (b : Base Number)
    (h : ∀ s ∈ b.symbols, (point.value s).Matches R (point'.value s)) :
    SameOutcome (Calculated.Matches R) (b.calculate point) (b.calculate point') := by
  match b with
  | .symbol s => exact .ok (h s (by simp [Base.symbols]))
  | .constant .pi => exact .ok (.double _)
  | .constant .euler => exact .ok (.double _)
  | .number c => exact .ok (Calculated.matches_refl hR _)
  | .apply f e =>
      exact (Expression.matches_calculate e h).bind (fun _ _ ha => ha.apply hR f)
  | .group e => exact Expression.matches_calculate e h

end

theorem Expression.valueAt_related {e : Expression Number}
    (h : ∀ s ∈ e.symbols, (point.value s).Matches R (point'.value s)) :
    SameOutcome R (e.valueAt point) (e.valueAt point') :=
  (e.matches_calculate hR h).bind (fun _ _ ha =>
    (ha.toSingle hR).bind (fun _ _ related => .ok (hR.binary _ related (hR.refl _))))

end

theorem Expression.valueAt_congr {e : Expression Number} {point point' : Point}
    (h : ∀ s ∈ e.symbols, point.value s = point'.value s) : e.valueAt point = e.valueAt point' :=
  (Expression.valueAt_related keptByOperations_eq
    (fun s hs => h s hs ▸ Calculated.matches_refl keptByOperations_eq _)).eq_of_eq

/-! ## Functions of time and states -/

namespace StateFunction

variable (f : StateFunction)

theorem value_pointAt (t : FloatValue) (x : List FloatValue) (s : Symbol) :
    (f.pointAt t x).value s =
      if f.time = s then .single (t.convert .single)
      else Point.value (f.states.zip (x.map (FloatValue.convert .single))) s := by
  by_cases htime : f.time = s <;> simp [pointAt, Point.value, htime]

theorem matches_pointAt {x y : List FloatValue} (h : x.length = y.length) (t u : FloatValue)
    (s : Symbol) :
    ((f.pointAt t x).value s).Matches (fun _ _ => True) ((f.pointAt u y).value s) := by
  rw [value_pointAt, value_pointAt]
  split
  · exact .single trivial
  · generalize f.states = states
    induction states generalizing x y with
    | nil => exact .unknown
    | cons z states ih =>
        cases x with
        | nil =>
            obtain rfl : y = [] := List.length_eq_zero_iff.mp h.symm
            exact .unknown
        | cons a x =>
            cases y with
            | nil => simp at h
            | cons b y =>
                by_cases hz : z = s
                · simpa [Point.value, hz] using Calculated.Matches.single trivial
                · simpa [Point.value, hz] using ih (x := x) (y := y) (by simpa using h)

/-- A function that has a value somewhere has one everywhere. -/
theorem exists_value_iff {x y : List FloatValue} (h : x.length = y.length) (t u : FloatValue) :
    (∃ z, f.value t x = .ok z) ↔ ∃ z, f.value u y = .ok z :=
  (Expression.valueAt_related keptByOperations_true
    (fun s _ => f.matches_pointAt h t u s)).exists_ok_iff

theorem value_of_not_dependsOnStates (h : f.dependsOnStates = false) (t : FloatValue)
    (x y : List FloatValue) : f.value t x = f.value t y := by
  have absent : ∀ s ∈ f.expression.symbols, s ∉ f.states := by
    simpa [dependsOnStates] using h
  have unknown : ∀ s ∉ f.states, ∀ xs : List FloatValue,
      Point.value (f.states.zip xs) s = .unknown := by
    intro s hs xs
    have : (f.states.zip xs).find? (fun entry => entry.1 = s) = none := by
      rw [List.find?_eq_none]
      rintro ⟨z, a⟩ hz heq
      obtain rfl : z = s := by simpa using heq
      exact hs (List.of_mem_zip hz).1
    rw [Point.value, this]
  refine Expression.valueAt_congr (fun s hs => ?_)
  rw [value_pointAt, value_pointAt, unknown s (absent s hs), unknown s (absent s hs)]

theorem sampleValues_singleton (t : FloatValue) (x : List FloatValue) :
    f.sampleValues t [x] = (f.value t x).map (fun z => [z]) := by
  unfold sampleValues
  split
  · cases h : f.value t x <;> simp [h] <;> rfl
  · next h =>
      rw [f.value_of_not_dependsOnStates (by simpa using h) t _ x]
      rfl

theorem check_eq_ok_iff {x : List FloatValue} (h : x.length = f.states.length) (t : FloatValue) :
    f.check = .ok () ↔ (f.time :: f.states).Nodup ∧ ∃ z, f.value t x = .ok z := by
  rw [f.exists_value_iff (y := f.states.map (fun _ => .ofInt 0)) (by simpa using h) t (.ofInt 0)]
  unfold check
  split
  · next hnodup =>
      cases f.value (.ofInt 0) (f.states.map (fun _ => .ofInt 0)) <;> simp [hnodup]
  · next hnodup => simp [hnodup]

end StateFunction

end HybridRelaxation
