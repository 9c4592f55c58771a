import Mathlib
import HybridRelaxation.Proofs.Relaxation.Bookkeeping
import HybridRelaxation.Proofs.Relaxation.CertifiedValues

/-!
# The layout of an assembly

An assembly is laid out when it has one record for each constraint that the system asks for, in
order, and the records divide what was stated since the start among them: the first starts where the
program ended, each other one where the one before it stops, and the last stops at the end.
-/

namespace HybridRelaxation

variable {K : Type} [Scalar K]

/-! ## Consecutive records -/

/-- The statements of the records follow one another, from a position to before another one. -/
def Tiles : ℤ → ℤ → List (ConstraintRecord K) → Prop
  | start, stop, [] => start = stop
  | start, stop, r :: rs => r.offset = start ∧ Tiles r.stop stop rs

section

omit [Scalar K]

variable {rs : List (ConstraintRecord K)} {start stop : ℤ}

theorem Tiles.start_le (h : Tiles start stop rs) (hcount : ∀ r ∈ rs, 0 ≤ r.multiplierCount) :
    start ≤ stop := by
  induction rs generalizing start with
  | nil => exact h.le
  | cons r rs ih =>
      obtain ⟨rfl, rest⟩ := h
      have tail := ih rest (fun r' hr' => hcount r' (by simp [hr']))
      have head := hcount r (by simp)
      simp only [ConstraintRecord.stop, ConstraintRecord.baseIndex] at tail
      omega

theorem Tiles.bounds (h : Tiles start stop rs) (hcount : ∀ r ∈ rs, 0 ≤ r.multiplierCount)
    {r : ConstraintRecord K} (hr : r ∈ rs) : start ≤ r.offset ∧ r.stop ≤ stop := by
  induction rs generalizing start with
  | nil => simp at hr
  | cons first rs ih =>
      obtain ⟨rfl, rest⟩ := h
      have others : ∀ r' ∈ rs, 0 ≤ r'.multiplierCount := fun r' hr' => hcount r' (by simp [hr'])
      have head := hcount first (by simp)
      rcases List.mem_cons.mp hr with rfl | hr
      · exact ⟨le_rfl, rest.start_le others⟩
      · obtain ⟨lower, upper⟩ := ih rest others hr
        simp only [ConstraintRecord.stop, ConstraintRecord.baseIndex] at lower
        exact ⟨by omega, upper⟩

theorem Tiles.existsUnique (h : Tiles start stop rs) (hcount : ∀ r ∈ rs, 0 ≤ r.multiplierCount)
    {k : ℤ} (hstart : start ≤ k) (hstop : k < stop) :
    ∃! r, r ∈ rs ∧ r.offset ≤ k ∧ k < r.stop := by
  induction rs generalizing start with
  | nil => exact absurd (h ▸ hstart) (not_le.mpr hstop)
  | cons first rs ih =>
      obtain ⟨rfl, rest⟩ := h
      have others : ∀ r' ∈ rs, 0 ≤ r'.multiplierCount := fun r' hr' => hcount r' (by simp [hr'])
      rcases lt_or_ge k first.stop with hk | hk
      · refine ⟨first, ⟨by simp, hstart, hk⟩, fun r ⟨hr, lower, _⟩ => ?_⟩
        rcases List.mem_cons.mp hr with rfl | hr
        · rfl
        · have := (rest.bounds others hr).1
          omega
      · obtain ⟨r, ⟨hr, bounds⟩, unique⟩ := ih rest others hk
        refine ⟨r, ⟨List.mem_cons_of_mem _ hr, bounds⟩, fun r' ⟨hr', lower, upper⟩ => ?_⟩
        rcases List.mem_cons.mp hr' with rfl | hr'
        · omega
        · exact unique r' ⟨hr', lower, upper⟩

theorem slice_append {α : Type} (before part after : List α) :
    slice (before ++ part ++ after) before.length ((before.length + part.length : ℕ) : ℤ) =
      part := by
  have bounds (k : ℕ) (hk : k ≤ before.length + part.length) :
      boundAt (before ++ part ++ after).length (k : ℤ) = k := by
    simp only [boundAt, List.length_append, Int.toNat_natCast,
      if_neg (not_lt.mpr (Int.natCast_nonneg k))]
    omega
  rw [slice, bounds _ (by omega), bounds _ le_rfl, ← List.length_append, List.take_left,
    List.drop_left]

theorem related_slice {α β : Type} {R : α → β → Prop} {xs : List α} {ys : List β}
    (h : List.Forall₂ R xs ys) (start stop : ℤ) :
    List.Forall₂ R (slice xs start stop) (slice ys start stop) := by
  rw [slice, slice, h.length_eq]
  exact List.forall₂_drop _ (List.forall₂_take _ h)

theorem Tiles.forall₂_slice {α : Type} {parts : List (List α)} {before after : List α}
    (h : List.Forall₂ (fun r part => r.stop = r.offset + (part.length : ℤ)) rs parts)
    (tiles : Tiles before.length stop rs) :
    List.Forall₂ (fun r part => slice (before ++ parts.flatten ++ after) r.offset r.stop = part) rs
      parts := by
  induction h generalizing before with
  | nil => exact .nil
  | @cons r part rs parts length _ ih =>
      obtain ⟨offset, rest⟩ := tiles
      have stop_eq : r.stop = ((before.length + part.length : ℕ) : ℤ) := by
        rw [length, offset, Nat.cast_add]
      have whole : before ++ (part :: parts).flatten ++ after =
          before ++ part ++ (parts.flatten ++ after) := by
        simp
      rw [whole]
      refine .cons ?_ ?_
      · rw [offset, stop_eq, slice_append]
      · rw [stop_eq, ← List.length_append] at rest
        rw [← List.append_assoc]
        exact ih rest

end

section

variable {rs : List (ConstraintRecord K)} {sss : List (List (SquareSum K))}
  (h : List.Forall₂ ConstraintRecord.Owns rs sss) {before after : List (SquareSum K)} {stop : ℤ}
  (tiles : Tiles before.length stop rs)

include h tiles

/-- Records that tile a part of the statements find what they own in their slices. -/
theorem slice_of_owns : List.Forall₂
    (fun r ss => slice (before ++ sss.flatten ++ after) r.offset r.stop = ss) rs sss := by
  refine Tiles.forall₂_slice (h.imp (fun r ss owns => ?_)) tiles
  obtain ⟨_, _, _, stated⟩ := id owns
  rw [ConstraintRecord.stop, ConstraintRecord.baseIndex, stated.count, owns.length]
  push_cast
  ring

theorem owns_slice {r : ConstraintRecord K} (hr : r ∈ rs) :
    r.Owns (slice (before ++ sss.flatten ++ after) r.offset r.stop) := by
  obtain ⟨k, hk⟩ := List.mem_iff_getElem?.mp hr
  obtain ⟨ss, hss, owns⟩ := exists_right_at h hk
  rwa [related_at (slice_of_owns h tiles) hk hss]

end

/-! ## Records of inequalities -/

theorem stop_recordOf (q : Inequality K) (degree : ℤ) (offset : ℕ) :
    (Assembly.recordOf q degree offset).stop = ((offset + (q.constraints.length + 1) : ℕ) : ℤ) := by
  simp [ConstraintRecord.stop, ConstraintRecord.baseIndex, Assembly.recordOf]
  ring

theorem map_place_recordsFrom (degree : ℤ) (offset : ℕ) (qs : List (Inequality K)) :
    (recordsFrom degree offset qs).map ConstraintRecord.place = qs.map Inequality.place := by
  induction qs generalizing offset with
  | nil => rfl
  | cons q qs ih =>
      rw [recordsFrom, List.map_cons, List.map_cons, ih]
      rfl

theorem forall₂_recordsFrom (degree : ℤ) (offset : ℕ) (qs : List (Inequality K)) :
    List.Forall₂ (fun q r => ∃ k : ℕ, r = Assembly.recordOf q degree k) qs
      (recordsFrom degree offset qs) := by
  induction qs generalizing offset with
  | nil => exact .nil
  | cons q qs ih => exact .cons ⟨offset, rfl⟩ (ih _)

theorem mem_recordsFrom {degree : ℤ} {offset : ℕ} {qs : List (Inequality K)}
    {r : ConstraintRecord K} (h : r ∈ recordsFrom degree offset qs) :
    ∃ q ∈ qs, ∃ k : ℕ, r = Assembly.recordOf q degree k :=
  exists_left_of_mem (forall₂_recordsFrom degree offset qs) h

theorem tiles_recordsFrom {α : Type} {degree : ℤ} {offset : ℕ} {qs : List (Inequality K)}
    {parts : List (List α)}
    (h : List.Forall₂ (fun r part => part.length = r.constraints.length + 1)
      (recordsFrom degree offset qs) parts) :
    Tiles offset ((offset + parts.flatten.length : ℕ) : ℤ) (recordsFrom degree offset qs) := by
  induction qs generalizing offset parts with
  | nil =>
      obtain rfl := List.forall₂_nil_left_iff.mp h
      rfl
  | cons q qs ih =>
      obtain ⟨part, rest, length, all, rfl⟩ := List.forall₂_cons_left_iff.mp h
      have length : part.length = q.constraints.length + 1 := length
      have total : offset + (part.length + rest.flatten.length) =
          offset + (q.constraints.length + 1) + rest.flatten.length := by omega
      refine ⟨rfl, ?_⟩
      rw [stop_recordOf, List.flatten_cons, List.length_append, total]
      exact ih all

/-! ## Laid out assemblies -/

/-- The records of an assembly over a system, on top of a program. -/
structure Assembly.IsLaidOut (a : Assembly K) (s : HybridSystem K) (p : SquareProgram K)
    (degree : ℤ) (T : K) : Prop where
  /-- One record for each mode, for each target set and for each transition. -/
  places : (a.records.map ConstraintRecord.place).Perm s.constraintPlaces
  sorted : (a.records.map ConstraintRecord.place).Pairwise ConstraintPlace.Before
  contents : ∀ r ∈ a.records, r.degree = degree ∧ s.AsksFor T r.place r.scope r.constraints
  /-- What was stated before stays where it was. -/
  kept : p.statements <+: a.program.statements
  tiles : Tiles p.statements.length a.program.statements.length a.records
  covered : ∀ k : ℤ, p.statements.length ≤ k → k < a.program.statements.length →
    ∃! r, r ∈ a.records ∧ r.offset ≤ k ∧ k < r.stop
  owned : ∀ r ∈ a.records, r.Owns (slice a.program.statements r.offset r.stop)
  /-- For each mode in turn the base of its flow constraint. -/
  bases : List.Forall₂ (fun (i base : ℕ) => ∃ r ∈ a.records, r.place = ⟨.liouville, i, none⟩ ∧
    r.baseIndex = base) (List.range s.modeCount) a.liouvilleBases

section

variable {s : HybridSystem K}

theorem mem_constraintPlaces (hs : s.IsJoined) {place : ConstraintPlace} (T : K) :
    place ∈ s.constraintPlaces ↔ ∃ scope constraints, s.AsksFor T place scope constraints := by
  have position {t : Transition K} {i j : ℕ} (joins : t.JoinsAt s.modeCount (i, j)) :
      s.positionOf t.source = i ∧ s.positionOf t.target = j := by
    simp [SystemData.positionOf, joins.1, joins.2]
  constructor
  · intro h
    rcases List.mem_append.mp h with h | h
    · rcases List.mem_append.mp h with h | h
      · obtain ⟨⟨m, i⟩, hm, rfl⟩ := List.mem_map.mp h
        exact ⟨_, _, .liouville (List.mem_zipIdx_iff_getElem?.mp hm)⟩
      · obtain ⟨⟨m, i⟩, hm, rfl⟩ := List.mem_map.mp h
        obtain ⟨hm, htarget⟩ := List.mem_filter.mp hm
        exact ⟨_, _, .terminal (List.mem_zipIdx_iff_getElem?.mp hm) (by simpa using htarget)⟩
    · obtain ⟨t, ht, rfl⟩ := List.mem_map.mp h
      obtain ⟨pairs, -, all⟩ := hs
      obtain ⟨⟨i, j⟩, -, joins⟩ := exists_right_of_mem all ht
      obtain ⟨source, target⟩ := position joins
      rw [source, target]
      exact ⟨_, _, .transition ht joins (List.getElem?_eq_getElem (lt_of_modePosition? joins.1))⟩
  · rintro ⟨scope, constraints, h⟩
    cases h with
    | liouville hm =>
        exact List.mem_append_left _ (List.mem_append_left _ (List.mem_map.mpr
          ⟨(_, _), List.mem_zipIdx_iff_getElem?.mpr hm, rfl⟩))
    | terminal hm htarget =>
        exact List.mem_append_left _ (List.mem_append_right _ (List.mem_map.mpr
          ⟨(_, _), List.mem_filter.mpr ⟨List.mem_zipIdx_iff_getElem?.mpr hm, by simpa using htarget⟩,
            rfl⟩))
    | transition ht joins hm =>
        obtain ⟨source, target⟩ := position joins
        refine List.mem_append_right _ (List.mem_map.mpr ⟨_, ht, ?_⟩)
        rw [source, target]

end

section

omit [Scalar K]

variable {s : HybridSystem K}

theorem map_position {modeCount : ℕ} {ts : List (Transition K)} {pairs : List (ℕ × ℕ)}
    (h : List.Forall₂ (TransitionData.JoinsAt modeCount) ts pairs) :
    ts.map (fun t => ((PartCheck.modePosition? modeCount t.source).getD 0,
      (PartCheck.modePosition? modeCount t.target).getD 0)) = pairs := by
  induction h with
  | nil => rfl
  | @cons t pair ts pairs joins _ ih => rw [List.map_cons, ih, joins.1, joins.2]; rfl

theorem nodup_constraintPlaces (hs : s.IsJoined) : s.constraintPlaces.Nodup := by
  have mode (xs : List (Mode K × ℕ)) (hxs : xs.Sublist s.modes.zipIdx) (kind : ConstraintKind) :
      (xs.map (fun (_, i) => (⟨kind, i, none⟩ : ConstraintPlace))).Nodup := by
    have positions := (List.nodup_zipIdx_map_snd s.modes).sublist (hxs.map Prod.snd)
    refine List.Nodup.of_map (fun place => place.mode.toNat) ?_
    rw [List.map_map]
    exact positions
  have transition : (s.transitions.map (fun t => (⟨.transition, s.positionOf t.source,
      some (s.positionOf t.target : ℤ)⟩ : ConstraintPlace))).Nodup := by
    obtain ⟨pairs, nodup, all⟩ := hs
    refine List.Nodup.of_map (fun place => (place.mode.toNat, (place.target.getD 0).toNat)) ?_
    rw [List.map_map]
    rw [← map_position all] at nodup
    exact nodup
  -- Places of different kinds differ.
  refine List.nodup_append'.mpr ⟨List.nodup_append'.mpr ⟨mode _ (.refl _) _,
    mode _ List.filter_sublist _, fun place h h' => ?_⟩, transition, fun place h h' => ?_⟩
  · obtain ⟨x, -, rfl⟩ := List.mem_map.mp h
    obtain ⟨y, -, heq⟩ := List.mem_map.mp h'
    simp at heq
  · obtain ⟨t, -, rfl⟩ := List.mem_map.mp h'
    rcases List.mem_append.mp h with h | h
    · obtain ⟨x, -, heq⟩ := List.mem_map.mp h
      simp at heq
    · obtain ⟨x, -, heq⟩ := List.mem_map.mp h
      simp at heq

theorem filter_liouville {places : List ConstraintPlace} (hperm : places.Perm s.constraintPlaces)
    (hsorted : places.Pairwise ConstraintPlace.Before) :
    places.filter (fun place => place.kind = .liouville) =
      (List.range s.modeCount).map (fun i : ℕ => (⟨.liouville, i, none⟩ : ConstraintPlace)) := by
  have flows : s.constraintPlaces.filter (fun place => place.kind = .liouville) =
      (List.range s.modeCount).map (fun i : ℕ => (⟨.liouville, i, none⟩ : ConstraintPlace)) := by
    have positions : s.modes.zipIdx.map Prod.snd = List.range s.modeCount := by
      rw [List.range_eq_range', SystemData.modeCount, List.zipIdx_map_snd]
    rw [← positions, List.map_map, SystemData.constraintPlaces]
    simp [List.filter_append, List.filter_map, Function.comp_def]
  have ordered : ((List.range s.modeCount).map
      (fun i : ℕ => (⟨.liouville, i, none⟩ : ConstraintPlace))).Pairwise ConstraintPlace.Before :=
    List.pairwise_map.mpr (List.pairwise_lt_range.imp (fun hij => .inl (Int.ofNat_lt.mpr hij)))
  refine List.Perm.eq_of_pairwise ?_ (hsorted.filter _) ordered (flows ▸ hperm.filter _)
  intro a b _ _ hab hba
  simp only [ConstraintPlace.Before] at hab hba
  omega

theorem bases_of_sorted {rs : List (ConstraintRecord K)}
    (hperm : (rs.map ConstraintRecord.place).Perm s.constraintPlaces)
    (hsorted : (rs.map ConstraintRecord.place).Pairwise ConstraintPlace.Before)
    (hnonneg : ∀ r ∈ rs, 0 ≤ r.baseIndex) :
    List.Forall₂ (fun (i base : ℕ) => ∃ r ∈ rs, r.place = ⟨.liouville, i, none⟩ ∧
      r.baseIndex = base) (List.range s.modeCount) (flowBases rs) := by
  have places := filter_liouville hperm hsorted
  rw [List.filter_map, ← List.forall₂_eq_eq_eq, List.forall₂_map_left_iff,
    List.forall₂_map_right_iff] at places
  refine (List.forall₂_map_left_iff.mpr (forall₂_imp_of_mem places ?_)).flip
  intro r hr i hplace
  have hmem := List.mem_of_mem_filter hr
  exact ⟨r, hmem, hplace, (Int.toNat_of_nonneg (hnonneg r hmem)).symm⟩

end

section

variable {s : HybridSystem K} (hs : s.IsJoined) (hguards : ∀ t ∈ s.transitions, t.guard ≠ [])
  {templates : List (ValueTemplate K)} (hlength : templates.length = s.modeCount)

include hs hguards hlength

theorem perm_places_assemblySteps (T : K) :
    ((certifiedBy (assemblySteps s templates T false)).map Inequality.place).Perm
      s.constraintPlaces := by
  have sorted := List.pairwise_map.mpr (pairwise_assemblySteps (T := T) hs hguards hlength)
  have nodup : ((certifiedBy (assemblySteps s templates T false)).map Inequality.place).Nodup :=
    sorted.imp (fun {a b} hbefore (heq : a = b) => ConstraintPlace.not_before_self _ (heq ▸ hbefore))
  refine (List.perm_ext_iff_of_nodup nodup (nodup_constraintPlaces hs)).mpr (fun place => ?_)
  rw [mem_constraintPlaces hs T, List.mem_map]
  constructor
  · rintro ⟨q, hq, rfl⟩
    exact ⟨_, _, asksFor_of_mem hs hguards hlength hq⟩
  · rintro ⟨scope, constraints, asks⟩
    exact exists_mem_of_asksFor hs hguards hlength asks

theorem isLaidOut_of_assemble {p : SquareProgram K} {degree : ℤ} {T : K} {a : Assembly K}
    (h : assemble p s templates degree T false = (a, .ok ())) : a.IsLaidOut s p degree T := by
  obtain ⟨sss, owns, statements, records, bases, -⟩ :=
    Assembly.takeAll_inversion (isPlain_assemblySteps hs hguards hlength) h
  change a.program.statements = p.statements ++ sss.flatten at statements
  change List.Forall₂ _ (recordsFrom degree p.statements.length _) _ at owns
  change a.records = recordsFrom degree p.statements.length _ at records
  change a.liouvilleBases = flowBases (recordsFrom degree p.statements.length _) at bases
  rw [← records] at owns bases
  have listed : ∀ r ∈ a.records, ∃ q ∈ certifiedBy (assemblySteps s templates T false), ∃ k : ℕ,
      r = Assembly.recordOf q degree k := fun r hr => mem_recordsFrom (records ▸ hr)
  have count : ∀ r ∈ a.records, 0 ≤ r.multiplierCount := by
    intro r hr
    obtain ⟨q, -, k, rfl⟩ := listed r hr
    exact Int.natCast_nonneg _
  have places : a.records.map ConstraintRecord.place =
      (certifiedBy (assemblySteps s templates T false)).map Inequality.place := by
    rw [records, map_place_recordsFrom]
  have sorted : (a.records.map ConstraintRecord.place).Pairwise ConstraintPlace.Before := by
    rw [places, List.pairwise_map]
    exact pairwise_assemblySteps hs hguards hlength
  have perm : (a.records.map ConstraintRecord.place).Perm s.constraintPlaces :=
    places ▸ perm_places_assemblySteps hs hguards hlength T
  have tiles : Tiles p.statements.length a.program.statements.length a.records := by
    have lengths := owns.imp (fun _ _ h => h.length)
    have tiles := tiles_recordsFrom (records ▸ lengths)
    rwa [← records, ← List.length_append, ← statements] at tiles
  refine ⟨perm, sorted, fun r hr => ?_, statements ▸ List.prefix_append _ _, tiles,
    fun k => tiles.existsUnique count, fun r hr => ?_, bases ▸ bases_of_sorted perm sorted ?_⟩
  · obtain ⟨q, hq, k, rfl⟩ := listed r hr
    exact ⟨rfl, asksFor_of_mem hs hguards hlength hq⟩
  · have part : r.Owns (slice (p.statements ++ _ ++ []) r.offset r.stop) :=
      owns_slice owns tiles hr
    rwa [List.append_nil, ← statements] at part
  · intro r hr
    obtain ⟨q, -, k, rfl⟩ := listed r hr
    exact Int.add_nonneg (Int.natCast_nonneg _) (Int.natCast_nonneg _)

end

/-! ## Systems of polynomials -/

theorem SquareProgram.isPolynomial_combination (scope : List Symbol) (degree : ℤ)
    (symbols : List Symbol) :
    (combination symbols (monomials scope degree 0) : Expression Rat).IsPolynomial :=
  (combination_monomials_spec (fun _ => (0 : ℚ)) scope degree symbols).1

structure ValueTemplate.IsPolynomial (template : ValueTemplate Rat) : Prop where
  value : template.value.IsPolynomial
  final : template.final.IsPolynomial
  flow : template.flowDerivative.IsPolynomial

theorem ValueTemplate.IsRegistered.isPolynomial {p q : SquareProgram Rat} {time : Symbol}
    {m : Mode Rat} {index degree : ℤ} {T : Rat} {template : ValueTemplate Rat}
    (h : template.IsRegistered p q time m index degree T) (hm : m.IsPolynomial time)
    (hc : m.IsConsistent time) : template.IsPolynomial := by
  have value := h.isPolynomial_value
  refine ⟨value, ?_, (h.isCanonical_flow hm hc).isPolynomial⟩
  rw [h.final]
  refine Expression.isPolynomial_expand (Expression.isPolynomial_substitute value
    (fun s f hf => ?_))
  obtain ⟨-, rfl⟩ := Prod.mk.inj (List.mem_singleton.mp (mem_of_replacements hf))
  exact Expression.isPolynomial_number T

theorem isPolynomial_of_registerModes {time : Symbol} {modes : List (Mode Rat)}
    (hmodes : ∀ m ∈ modes, m.IsPolynomial time) (hc : ∀ m ∈ modes, m.IsConsistent time)
    {p q : SquareProgram Rat} {index : ℕ} {degree : ℤ} {T : Rat}
    {templates : List (ValueTemplate Rat)}
    (h : registerModes time degree T p index modes = (q, .ok templates)) :
    templates.length = modes.length ∧ ∀ template ∈ templates, template.IsPolynomial := by
  induction modes generalizing p index templates with
  | nil =>
      obtain rfl := Except.ok.inj (Prod.mk.inj h).2
      simp
  | cons m modes ih =>
      obtain ⟨p', template, others, hregister, hothers, rfl⟩ := registerModes_cons_eq_ok.mp h
      obtain ⟨length, polynomial⟩ := ih (fun n hn => hmodes n (by simp [hn]))
        (fun n hn => hc n (by simp [hn])) hothers
      have registered := ValueTemplate.isRegistered_of_register hregister
      exact ⟨by simp [length], List.forall_mem_cons.mpr
        ⟨registered.isPolynomial (hmodes m (by simp)) (hc m (by simp)), polynomial⟩⟩

namespace SquareProgram

variable {p : SquareProgram Rat} {e : Expression Rat} (he : e.IsPolynomial) (scope : List Symbol)
  {constraints : List (Expression Rat)} (hconstraints : ∀ g ∈ constraints, g.IsPolynomial)

include he in
theorem exists_withSquareSum (half : Option ℤ) (name : String) :
    ∃ q position, p.withSquareSum e scope half name = (q, .ok position) := by
  obtain ⟨m, hm, -⟩ := exists_coefficients.{0} he scope
  have stated : statement e scope half name = .ok ⟨e, scope,
      exponents scope.length (half.getD (halfDegree m.totalDegree)) 0, name, m⟩ := by
    rw [statement, hm]
    rfl
  exact ⟨_, _, withSquareSum_eq_ok.mpr ⟨_, stated, rfl, rfl⟩⟩

theorem exists_newSquareSum (p : SquareProgram Rat) (half : ℤ) (name : String) : ∃ q multiplier,
    p.newSquareSum scope half name = (q, .ok multiplier) ∧ multiplier.IsPolynomial := by
  obtain ⟨p', f, hfree, polynomial⟩ : ∃ p' f,
      p.newFreePolynomial (monomials scope (2 * half) 0) name = (p', f) ∧
        f.polynomial.IsPolynomial := ⟨_, _, rfl, isPolynomial_combination _ _ _⟩
  obtain ⟨q, position, hq⟩ := exists_withSquareSum (p := p') polynomial scope (some half) name
  exact ⟨q, f.polynomial, newSquareSum_eq_ok.mpr ⟨p', f, position, hfree, hq, rfl⟩, polynomial⟩

include he hconstraints

theorem exists_registerMultipliers (degree : ℤ) (name : String) (k : ℕ) :
    ∃ q multipliers rest, p.registerMultipliers e scope degree name k constraints =
      (q, .ok (multipliers, rest)) ∧ rest.IsPolynomial := by
  induction constraints generalizing k p e with
  | nil => exact ⟨p, [], e, rfl, he⟩
  | cons g constraints ih =>
      have hg := hconstraints g (by simp)
      obtain ⟨m, hm, -⟩ := exists_coefficients.{0} hg scope
      have hdegree : totalDegree g scope = .ok m.totalDegree := by rw [totalDegree, hm]; rfl
      obtain ⟨q, multiplier, hq, hmultiplier⟩ := exists_newSquareSum scope p
        (multiplierHalf degree m.totalDegree) (name ++ toString (k + 1))
      have left : (e - multiplier * g).IsPolynomial :=
        Expression.isPolynomial_sub he (Expression.isPolynomial_mul hmultiplier hg)
      obtain ⟨q', multipliers, rest, hq', hrest⟩ :=
        ih (p := q) left (fun g' hg' => hconstraints g' (by simp [hg'])) (k + 1)
      exact ⟨q', multiplier :: multipliers, rest,
        registerMultipliers_cons_eq_ok.mpr ⟨_, _, _, _, hdegree, hq, hq', rfl⟩, hrest⟩

theorem exists_nonnegativeOn (degree : ℤ) (name : String) :
    ∃ q result, p.nonnegativeOn e scope constraints degree name = (q, .ok result) := by
  obtain ⟨p', multipliers, rest, hweights, hrest⟩ :=
    exists_registerMultipliers (p := p) he scope hconstraints degree name 0
  obtain ⟨q, position, hbase⟩ := exists_withSquareSum (p := p') hrest scope none (name ++ "0")
  exact ⟨q, multipliers, nonnegativeOn_eq_ok.mpr ⟨p', rest, position, hweights, hbase⟩⟩

end SquareProgram

theorem TransitionData.IsPolynomial.resetEntries {t : Transition Rat} (ht : t.IsPolynomial)
    (source : Mode Rat) : ∀ e ∈ t.resetEntries source, e.IsPolynomial := by
  intro e he
  unfold TransitionData.resetEntries at he
  split at he
  · obtain ⟨s, -, rfl⟩ := List.mem_map.mp he
    exact Expression.isPolynomial_ofSymbol s
  · next grid hgrid => exact ht.reset grid hgrid e he

theorem isPolynomial_valueAfter {template : ValueTemplate Rat} (ht : template.IsPolynomial)
    {reset : Grid (Expression Rat)} (hreset : ∀ e ∈ reset.entries, e.IsPolynomial) :
    (valueAfter template reset).IsPolynomial := by
  refine Expression.isPolynomial_expand (Expression.isPolynomial_substitute ht.value
    (fun s f hf => hreset f ?_))
  exact (List.of_mem_zip (mem_of_replacements hf)).2

theorem isPolynomial_of_mem_certifiedBy {s : HybridSystem Rat} (hs : s.IsPolynomial)
    (hjoined : s.IsJoined) (hguards : ∀ t ∈ s.transitions, t.guard ≠ [])
    {templates : List (ValueTemplate Rat)} (hlength : templates.length = s.modeCount)
    (ht : ∀ template ∈ templates, template.IsPolynomial) {T : Rat} {q : Inequality Rat}
    (hq : q ∈ certifiedBy (assemblySteps s templates T false)) :
    q.polynomial.IsPolynomial ∧ ∀ g ∈ q.constraints, g.IsPolynomial := by
  obtain ⟨i, m, template, hm, htemplate, hstep⟩ :=
    mem_assemblySteps_iff.mp (mem_certifiedBy.mp hq)
  have mode := hs.modes m (List.mem_of_getElem? hm)
  have here := ht template (List.mem_of_getElem? htemplate)
  have window := isPolynomial_timeWindow s.time (T := T)
  rcases modeSteps_cases hjoined hguards hlength hm hstep with
    flow | ⟨-, final⟩ | ⟨j, t, htransition, joins, next, reset, hnext, hreset, jump⟩ | ⟨e, heq⟩
  · obtain rfl := AssemblyStep.certify.inj flow
    refine ⟨Expression.isPolynomial_add here.flow mode.runningCost, fun g hg => ?_⟩
    rcases List.mem_append.mp hg with hg | hg
    · exact List.forall_mem_cons.mpr ⟨window, mode.domain⟩ g hg
    · exact mode.controlSet g hg
  · obtain rfl := AssemblyStep.certify.inj final
    exact ⟨Expression.isPolynomial_sub mode.terminalCost here.final, mode.targetSet⟩
  · obtain rfl := AssemblyStep.certify.inj jump
    have transition := hs.transitions t htransition
    obtain ⟨grid, hgrid, entries⟩ :=
      exists_reset (hjoined.transition?_eq_some.mpr ⟨htransition, joins⟩) hm
    obtain rfl := Except.ok.inj (hreset.symm.trans hgrid)
    exact ⟨Expression.isPolynomial_sub (isPolynomial_valueAfter
        (ht next (List.mem_of_getElem? hnext)) (entries ▸ transition.resetEntries m)) here.value,
      List.forall_mem_cons.mpr ⟨window, transition.guard⟩⟩
  · simp at heq

theorem exists_assemble {s : HybridSystem Rat} (hs : s.IsPolynomial) (hc : s.IsConsistent)
    (hguards : ∀ t ∈ s.transitions, t.guard ≠ []) {p' q : SquareProgram Rat} {degree : ℤ} {T : Rat}
    {templates : List (ValueTemplate Rat)}
    (h : registerModes s.time degree T p' 0 s.modes = (q, .ok templates)) (p : SquareProgram Rat)
    (degree' : ℤ) (T' : Rat) : ∃ a, assemble p s templates degree' T' false = (a, .ok ()) := by
  obtain ⟨hlength, polynomial⟩ := isPolynomial_of_registerModes hs.modes hc.modes h
  cases hresult : assemble p s templates degree' T' false with
  | mk a outcome =>
      cases outcome with
      | ok u => exact ⟨a, rfl⟩
      | error f =>
          obtain ⟨q, hq, program, failed⟩ := Assembly.takeAll_eq_error
            (isPlain_assemblySteps hc.isJoined hguards hlength) hresult
          obtain ⟨he, hconstraints⟩ := isPolynomial_of_mem_certifiedBy hs hc.isJoined hguards
            hlength polynomial hq
          obtain ⟨program', result, registered⟩ := SquareProgram.exists_nonnegativeOn
            (p := program) he q.scope hconstraints degree' q.place.name
          rw [registered] at failed
          simp at failed

/-! ## Every assembly -/

/--
The assembly over an accepted system, on top of any program, is laid out, unless an inequality that
is asked for cannot be registered.  Over a system of polynomials all of them can.
-/
theorem isLaidOut_or_error :
    (∀ {K : Type} [Scalar K] (time : Symbol) (modes : List (Mode K))
      (transitions : List (Transition K)) (p : SquareProgram K)
      (templates : List (ValueTemplate K)) (degree : ℤ) (T : K),
      HybridSystem.validate (.ofParts time modes transitions) = .ok () →
      templates.length = modes.length →
      (∀ a, assemble p (.ofParts time modes transitions) templates degree T false = (a, .ok ()) →
        a.IsLaidOut (.ofParts time modes transitions) p degree T) ∧
      ∀ a f, assemble p (.ofParts time modes transitions) templates degree T false =
          (a, .error f) →
        ∃ q ∈ certifiedBy (assemblySteps (.ofParts time modes transitions) templates T false),
          ∃ program : SquareProgram K, (program.nonnegativeOn q.polynomial q.scope q.constraints
            degree q.place.name).2 = .error f) ∧
    ∀ (time : Symbol) (modes : List (Mode Rat)) (transitions : List (Transition Rat))
      (p p' q : SquareProgram Rat) (templates : List (ValueTemplate Rat)) (degree : ℤ) (T : Rat),
      SystemData.IsPolynomial (.ofParts time modes transitions) →
      HybridSystem.validate (.ofParts time modes transitions) = .ok () →
      registerModes time degree T p' 0 modes = (q, .ok templates) →
      ∃ a, assemble p (.ofParts time modes transitions) templates degree T false = (a, .ok ()) ∧
        a.IsLaidOut (.ofParts time modes transitions) p degree T := by
  have guards {K : Type} (time : Symbol) (modes : List (Mode K))
      (transitions : List (Transition K)) :
      ∀ t ∈ (SystemData.ofParts time modes transitions).transitions, t.guard ≠ [] :=
    fun t ht => (SystemData.mem_transitions_ofParts.mp ht).2
  refine ⟨fun {K} _ time modes transitions p templates degree T hvalid hlength => ⟨fun a h => ?_,
    fun a f h => ?_⟩, fun time modes transitions p p' q templates degree T hs hvalid h => ?_⟩
  · exact isLaidOut_of_assemble (isJoined_of_validate hvalid) (guards time modes transitions)
      hlength h
  · exact Assembly.takeAll_eq_error (isPlain_assemblySteps (isJoined_of_validate hvalid)
      (guards time modes transitions) hlength) h
  · have consistent := (validate_eq_ok hs).mp hvalid
    have hlength := (isPolynomial_of_registerModes hs.modes consistent.modes h).1
    obtain ⟨a, assembled⟩ :=
      exists_assemble hs consistent (guards time modes transitions) h p degree T
    exact ⟨a, assembled, isLaidOut_of_assemble consistent.isJoined (guards time modes transitions)
      hlength assembled⟩

def statedZero : SquareProgram Rat := ⟨[], [], [⟨.zero, [.named "x"], [[0]], "s", []⟩]⟩

/-- Four records after a statement that was there before: two flows, a target set and a jump. -/
theorem isLaidOut_or_error_parkingSystem : ∃ q templates a,
    registerModes (.named "t") 2 1 .empty 0 [drivingMode, parkedMode] = (q, .ok templates) ∧
      assemble statedZero parkingSystem templates 2 1 false = (a, .ok ()) ∧
        a.IsLaidOut parkingSystem statedZero 2 1 ∧ a.records.length = 4 := by
  have consistent := (validate_eq_ok isPolynomial_parkingSystem).mp validate_parkingSystem
  obtain ⟨q, templates, hregister, -⟩ := registerModes_spec isPolynomial_parkingSystem.modes
    consistent.modes width_drift_parkingSystem 2 0 SquareProgram.isRegular_empty
  obtain ⟨a, assembled, laidOut⟩ := isLaidOut_or_error.2 (.named "t") [drivingMode, parkedMode]
    [parkingJump] statedZero .empty q templates 2 1 isPolynomial_parkingSystem
    validate_parkingSystem hregister
  refine ⟨q, templates, a, hregister, assembled, laidOut, ?_⟩
  rw [← List.length_map ConstraintRecord.place, laidOut.places.length_eq]
  rfl

/-! ## Resets that are polynomial only once expanded -/

def fractionalState : Expression Rat :=
  let x : Expression Rat := .ofSymbol (.named "x")
  (x * (x + .number 1)).reciprocal - (x * x + x).reciprocal + x

def fractionalLoopSystem : HybridSystem Rat :=
  .ofParts (.named "t") [{ parkedMode with
    states := [.named "x"]
    domain := [.ofSymbol (.named "x")]
    targetSet := []
    terminalCost := .zero }]
    [⟨.integer 0, .integer 0, [.number 1], some (.ofColumn [fractionalState])⟩]

/-- The value after the jump holds the square of the reset, in which the fractions do not cancel, so
that the assembly over this accepted system fails after its first record. -/
theorem not_isLaidOut_fractionalLoopSystem : fractionalLoopSystem.validate = .ok () ∧
    ∃ q templates a, registerModes (.named "t") 2 1 .empty 0 fractionalLoopSystem.modes =
        (q, .ok templates) ∧
      assemble q fractionalLoopSystem templates 2 1 false =
        (a, .error (.notPolynomial ["t", "x"])) ∧
      a.records.map ConstraintRecord.place = [⟨.liouville, 0, none⟩] ∧
        ¬ a.IsLaidOut fractionalLoopSystem q 2 1 := by
  refine ⟨by decide +kernel, ?_⟩
  have checked : (do
      let registered := registerModes (.named "t") 2 1 .empty 0 fractionalLoopSystem.modes
      let templates ← registered.2
      let run := assemble registered.1 fractionalLoopSystem templates 2 1 false
      .ok (run.2, run.1.records.map ConstraintRecord.place)) =
      .ok (.error (.notPolynomial ["t", "x"]), [⟨.liouville, 0, none⟩]) := by
    decide +kernel
  obtain ⟨templates, registered, checked⟩ := bind_eq_ok.mp checked
  obtain ⟨failed, places⟩ := Prod.mk.inj (Except.ok.inj checked)
  refine ⟨_, templates, _, Prod.ext rfl registered, Prod.ext rfl failed, places, fun laidOut => ?_⟩
  have count := laidOut.places.length_eq
  rw [places] at count
  exact absurd count (by decide)

end HybridRelaxation
