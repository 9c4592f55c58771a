import Mathlib
import HybridRelaxation.Proofs.System.Subsolution

/-!
# Executions

An execution is a sequence of arcs.  On each arc the states move in one mode, with curves that
are polynomials in time, and between two arcs the states jump along a transition.  Along an
execution that ends in a target set at the final time, a subsolution never decreases by more than
what is paid, so that its value at the start is a lower bound of the cost.
-/

namespace HybridRelaxation

open MvPolynomial (pderiv)
open Polynomial (derivative derivative_mul)

/-! ## Curves -/

section

variable {path : Symbol → Polynomial ℝ}

noncomputable def pointOn (path : Symbol → Polynomial ℝ) (t : ℝ) (s : Symbol) : ℝ :=
  (path s).eval t

theorem eval_aeval (v : MvPolynomial Symbol ℝ) (t : ℝ) :
    (MvPolynomial.aeval path v).eval t = MvPolynomial.eval (pointOn path t) v := by
  induction v using MvPolynomial.induction_on with
  | C a => simp [Polynomial.algebraMap_eq]
  | add p q hp hq => simp [hp, hq]
  | mul_X p s hp => simp [hp, pointOn]

theorem Expression.eval_eval (e : Expression Rat) (t : ℝ) :
    (e.eval path).eval t = e.eval (pointOn path t) :=
  Expression.map_eval ((Polynomial.aeval t : Polynomial ℝ →ₐ[ℝ] ℝ).restrictScalars ℚ) path e

/-- The chain rule for polynomials in some symbols. -/
theorem derivative_aeval {symbols : List Symbol} (hsymbols : symbols.Nodup)
    {v : MvPolynomial Symbol ℝ} (hv : v ∈ MvPolynomial.supported ℝ {s | s ∈ symbols}) :
    derivative (MvPolynomial.aeval path v) = innerValue
      (symbols.map (fun s => MvPolynomial.aeval path (pderiv s v)))
      (symbols.map (fun s => derivative (path s))) := by
  have sums (f g : Symbol → Polynomial ℝ) :
      innerValue (symbols.map f) (symbols.map g) = (symbols.map (fun s => f s * g s)).sum := by
    rw [innerValue, List.zipWith_map, List.zipWith_self]
  rw [sums]
  rw [MvPolynomial.supported_eq_adjoin_X] at hv
  induction hv using Algebra.adjoin_induction with
  | mem v hv =>
      obtain ⟨s, hs, rfl⟩ := hv
      have terms : ∀ u ∈ symbols, MvPolynomial.aeval path (pderiv u (MvPolynomial.X s : MvPolynomial Symbol ℝ)) *
          derivative (path u) = if u = s then derivative (path u) else 0 := by
        intro u _
        rw [MvPolynomial.pderiv_X, Pi.single_apply]
        by_cases h : s = u
        · simp [h]
        · simp [h, Ne.symm h]
      rw [List.map_congr_left terms, List.sum_map_ite_eq, List.count_eq_one_of_mem hsymbols hs,
        one_smul]
      simp
  | algebraMap a => simp [MvPolynomial.algebraMap_eq, Polynomial.algebraMap_eq]
  | add p q _ _ hp hq => simp only [map_add, hp, hq, add_mul, List.sum_map_add]
  | mul p q _ _ hp hq =>
      have terms : ∀ u ∈ symbols,
          MvPolynomial.aeval path (pderiv u (p * q)) * derivative (path u) =
            MvPolynomial.aeval path q *
                (MvPolynomial.aeval path (pderiv u p) * derivative (path u)) +
              MvPolynomial.aeval path p *
                (MvPolynomial.aeval path (pderiv u q) * derivative (path u)) := by
        intro u _
        rw [MvPolynomial.pderiv_mul]
        simp only [map_add, map_mul]
        ring
      rw [List.map_congr_left terms, List.sum_map_add, List.sum_map_mul_left,
        List.sum_map_mul_left, ← hp, ← hq, map_mul, derivative_mul]
      ring

end

theorem mem_supported_of_eval_congr {places : List Symbol} {v : MvPolynomial Symbol ℝ}
    (h : ∀ x y : Symbol → ℝ, (∀ t ∈ places, x t = y t) →
      MvPolynomial.eval x v = MvPolynomial.eval y v) :
    v ∈ MvPolynomial.supported ℝ {t | t ∈ places} := by
  classical
  let kept (t : Symbol) : MvPolynomial Symbol ℝ := if t ∈ places then MvPolynomial.X t else 0
  have same : MvPolynomial.aeval kept v = v := by
    refine MvPolynomial.funext (fun x => ?_)
    have composed : MvPolynomial.eval x (MvPolynomial.aeval kept v) =
        MvPolynomial.eval (fun t => MvPolynomial.eval x (kept t)) v := by
      rw [MvPolynomial.aeval_def, MvPolynomial.algebraMap_eq, MvPolynomial.eval_eval₂,
        MvPolynomial.eval, MvPolynomial.coe_eval₂Hom]
      congr 1
      ext c
      simp
    rw [composed]
    exact h _ _ (fun t ht => by simp [kept, ht])
  have range : MvPolynomial.aeval kept v ∈ Algebra.adjoin ℝ (Set.range kept) := by
    rw [Algebra.adjoin_range_eq_range_aeval]
    exact ⟨v, rfl⟩
  rw [← same]
  refine Algebra.adjoin_le ?_ range
  rintro _ ⟨t, rfl⟩
  by_cases ht : t ∈ places
  · simp [kept, ht]
  · simp [kept, ht]

/-! ## Arcs -/

/-- Curves in a mode, from one time to another. -/
structure Arc where
  mode : ℕ
  start : ℝ
  stop : ℝ
  path : Symbol → Polynomial ℝ

namespace Arc

noncomputable def first (a : Arc) : Symbol → ℝ := pointOn a.path a.start

noncomputable def last (a : Arc) : Symbol → ℝ := pointOn a.path a.stop

/--
The time runs; while it does, the states move at their velocity and stay in the domain, and the
controls stay in their set.
-/
structure Follows (time : Symbol) (m : Mode Rat) (a : Arc) : Prop where
  ordered : a.start ≤ a.stop
  time_eq : a.path time = Polynomial.X
  states : ∀ t, a.start < t → t < a.stop →
    m.states.map (fun s => (derivative (a.path s)).eval t) = m.velocity (pointOn a.path t)
  domain : ∀ t, a.start < t → t < a.stop → AllHold (pointOn a.path t) m.domain
  controlSet : ∀ t, a.start < t → t < a.stop → AllHold (pointOn a.path t) m.controlSet

noncomputable def cost (m : Mode Rat) (a : Arc) : ℝ :=
  ∫ t in a.start..a.stop, m.runningCost.eval (pointOn a.path t)

variable {time : Symbol} {m : Mode Rat} {a : Arc}

theorem Follows.pointOn_time (h : a.Follows time m) (t : ℝ) : pointOn a.path t time = t := by
  rw [pointOn, h.time_eq, Polynomial.eval_X]

theorem Follows.eval_derivative (h : a.Follows time m) (hdistinct : (time :: m.states).Nodup)
    {v : MvPolynomial Symbol ℝ}
    (hv : v ∈ MvPolynomial.supported ℝ {s | s ∈ time :: m.states}) {t : ℝ} (h₀ : a.start < t)
    (h₁ : t < a.stop) : (derivative (MvPolynomial.aeval a.path v)).eval t =
      m.valueRate time v (pointOn a.path t) := by
  have values := map_innerValue (Polynomial.evalRingHom t)
    (m.states.map (fun s => MvPolynomial.aeval a.path (pderiv s v)))
    (m.states.map (fun s => derivative (a.path s)))
  simp only [Polynomial.coe_evalRingHom, List.map_map, Function.comp_def, eval_aeval] at values
  rw [derivative_aeval hdistinct hv, List.map_cons, List.map_cons, innerValue_cons, h.time_eq,
    Polynomial.derivative_X, mul_one, Polynomial.eval_add, eval_aeval, values, h.states t h₀ h₁]
  rfl

theorem Follows.le_add_cost (h : a.Follows time m) (hdistinct : (time :: m.states).Nodup)
    {v : MvPolynomial Symbol ℝ}
    (hv : v ∈ MvPolynomial.supported ℝ {s | s ∈ time :: m.states})
    (hflow : ∀ x : Symbol → ℝ, a.start ≤ x time → x time ≤ a.stop → AllHold x m.domain →
      AllHold x m.controlSet → 0 ≤ m.valueRate time v x + m.runningCost.eval x) :
    MvPolynomial.eval a.first v ≤ MvPolynomial.eval a.last v + a.cost m := by
  let w := MvPolynomial.aeval a.path v
  let paid : Polynomial ℝ := m.runningCost.eval a.path
  have total : ∫ t in a.start..a.stop, (derivative w).eval t = w.eval a.stop - w.eval a.start :=
    intervalIntegral.integral_eq_sub_of_hasDerivAt (fun t _ => w.hasDerivAt t)
      ((derivative w).continuous.intervalIntegrable _ _)
  have least : ∫ t in a.start..a.stop, -paid.eval t ≤
      ∫ t in a.start..a.stop, (derivative w).eval t := by
    refine intervalIntegral.integral_mono_on_of_le_Ioo h.ordered
      (paid.continuous.neg.intervalIntegrable _ _)
      ((derivative w).continuous.intervalIntegrable _ _) (fun t ht => ?_)
    have flow := hflow (pointOn a.path t) (by rw [h.pointOn_time]; exact ht.1.le)
      (by rw [h.pointOn_time]; exact ht.2.le) (h.domain t ht.1 ht.2) (h.controlSet t ht.1 ht.2)
    rw [h.eval_derivative hdistinct hv ht.1 ht.2, Expression.eval_eval]
    linarith
  have cost : ∫ t in a.start..a.stop, -paid.eval t = -a.cost m := by
    rw [intervalIntegral.integral_neg, Arc.cost]
    simp only [paid, Expression.eval_eval]
  rw [total, cost, eval_aeval, eval_aeval] at least
  change MvPolynomial.eval (pointOn a.path a.start) v ≤
    MvPolynomial.eval (pointOn a.path a.stop) v + a.cost m
  linarith

end Arc

/-! ## Executions -/

/--
The arcs follow one another by jumps until the final time, and end in a target set.  The number is
what is paid along all arcs and at the end.
-/
inductive SystemData.Executes (s : HybridSystem Rat) : List Arc → ℝ → Prop
  | finish {a : Arc} {m : Mode Rat} (hm : s.modes[a.mode]? = some m)
      (follows : a.Follows s.time m) (final : a.stop = 1) (target : m.targetSet ≠ [])
      (reached : AllHold a.last m.targetSet) :
      s.Executes [a] (a.cost m + m.terminalCost.eval a.last)
  | jump {a b : Arc} {rest : List Arc} {m next : Mode Rat} {t : Transition Rat} {cost : ℝ}
      (hm : s.modes[a.mode]? = some m) (follows : a.Follows s.time m) (ht : t ∈ s.transitions)
      (connects : t.Connects s.modes a.mode b.mode m next) (guarded : t.guard ≠ [])
      (enabled : AllHold a.last t.guard) (lands : t.Lands s.time m next a.last b.first)
      (others : s.Executes (b :: rest) cost) : s.Executes (a :: b :: rest) (a.cost m + cost)

def StartsAt (m : Mode Rat) (i : ℕ) (state : List Rat) (arcs : List Arc) : Prop :=
  ∃ a rest, arcs = a :: rest ∧ a.mode = i ∧ a.start = 0 ∧
    m.states.map a.first = state.map (fun c : Rat => (c : ℝ))

section

variable {s : HybridSystem Rat} (hs : s.IsPolynomial) {v : ℕ → MvPolynomial Symbol ℝ}
  (hv : s.IsSubsolution v)

include hs hv

/-- From any arc on, the value is at most what is still paid. -/
theorem SystemData.IsSubsolution.le_of_executes {a : Arc} {arcs : List Arc} {cost : ℝ}
    (h : s.Executes (a :: arcs) cost) : a.start ≤ 1 ∧ a.first s.time = a.start ∧
      (0 ≤ a.start → MvPolynomial.eval a.first (v a.mode) ≤ cost) := by
  have along {a : Arc} {m : Mode Rat} (hm : s.modes[a.mode]? = some m)
      (follows : a.Follows s.time m) (h₀ : 0 ≤ a.start) (h₁ : a.stop ≤ 1) :
      MvPolynomial.eval a.first (v a.mode) ≤
        MvPolynomial.eval a.last (v a.mode) + a.cost m := by
    have distinct := (hs.modes m (List.mem_of_getElem? hm)).distinct
    exact follows.le_add_cost (List.nodup_append.mp distinct).1
      (mem_supported_of_eval_congr (hv.local_states a.mode m hm))
      (fun x hx hx' => hv.flow a.mode m hm x (h₀.trans hx) (hx'.trans h₁))
  -- From the last arc backwards: along an arc the value loses at most its cost, at a jump nothing.
  generalize whole : a :: arcs = all at h
  induction h generalizing a arcs with
  | @finish b m hm follows final target reached =>
      obtain ⟨rfl, -⟩ := List.cons.inj whole
      have ordered := follows.ordered
      refine ⟨by linarith, follows.pointOn_time _, fun h₀ => ?_⟩
      have flow := along hm follows h₀ final.le
      have last := hv.final a.mode m hm target a.last
        ((follows.pointOn_time a.stop).trans final) reached
      linarith
  | @jump b c rest m next t cost hm follows ht connects guarded enabled lands others ih =>
      obtain ⟨rfl, -⟩ := List.cons.inj whole
      obtain ⟨later, started, bound⟩ := ih rfl
      have ordered := follows.ordered
      have stopped : a.last s.time = a.stop := follows.pointOn_time a.stop
      have same : c.start = a.stop := by rw [← started, lands.time_eq, stopped]
      refine ⟨by linarith, follows.pointOn_time _, fun h₀ => ?_⟩
      have flow := along hm follows h₀ (same ▸ later)
      have jump := hv.jump t ht guarded a.mode c.mode m next connects a.last c.first
        (by rw [stopped]; linarith) (by rw [stopped]; linarith) enabled lands
      have others := bound (by linarith)
      linarith

theorem SystemData.IsSubsolution.le_cost {i : ℕ} {m : Mode Rat} (hm : s.modes[i]? = some m)
    {state : List Rat} {arcs : List Arc} {cost : ℝ} (h : s.Executes arcs cost)
    (hstart : StartsAt m i state arcs) {x : Symbol → ℝ} (htime : x s.time = 0)
    (hstates : m.states.map x = state.map (fun c : Rat => (c : ℝ))) :
    MvPolynomial.eval x (v i) ≤ cost := by
  obtain ⟨a, rest, rfl, rfl, started, states⟩ := hstart
  obtain ⟨-, time, bound⟩ := hv.le_of_executes hs h
  have same : ∀ t ∈ s.time :: m.states, x t = a.first t := by
    intro t ht
    rcases List.mem_cons.mp ht with rfl | ht
    · rw [htime, time, started]
    · exact List.map_inj_left.mp (hstates.trans states.symm) t ht
  rw [hv.local_states a.mode m hm x a.first same]
  exact bound started.ge

end

end HybridRelaxation
