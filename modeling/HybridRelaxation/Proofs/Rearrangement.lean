import Mathlib
import HybridRelaxation.Proofs.Outcome

/-!
# Rearranged lists

A permutation of positions leads from each item of a list to a related item of another list.
Whether there is one only depends on the lists as multisets, which is how lists that are put together
from parts in another order are compared.
-/

namespace HybridRelaxation

variable {α β γ δ : Type} {τ : Equiv.Perm ℕ} {R : α → β → Prop} {xs : List α} {ys : List β}

/-- Items are related to those where a permutation of positions leads, and nothing else is there. -/
structure Rearranges (τ : Equiv.Perm ℕ) (R : α → β → Prop) (xs : List α) (ys : List β) : Prop where
  exists_right : ∀ {k : ℕ} {x : α}, xs[k]? = some x → ∃ y, ys[τ k]? = some y ∧ R x y
  exists_left : ∀ {k : ℕ} {y : β}, ys[k]? = some y → ∃ x, xs[τ.symm k]? = some x ∧ R x y

namespace Rearranges

theorem symm (h : Rearranges τ R xs ys) : Rearranges τ.symm (fun y x => R x y) ys xs :=
  ⟨h.exists_left, h.exists_right⟩

theorem related (h : Rearranges τ R xs ys) {k : ℕ} {x : α} {y : β} (hx : xs[k]? = some x)
    (hy : ys[τ k]? = some y) : R x y := by
  obtain ⟨_, hget, hxy⟩ := h.exists_right hx
  rwa [Option.some.inj (hy.symm.trans hget)]

theorem imp_at {R' : α → β → Prop} (h : Rearranges τ R xs ys)
    (himp : ∀ k x y, xs[k]? = some x → ys[τ k]? = some y → R x y → R' x y) :
    Rearranges τ R' xs ys := by
  refine ⟨fun hx => ?_, fun {k y} hy => ?_⟩
  · obtain ⟨y, hy, hxy⟩ := h.exists_right hx
    exact ⟨y, hy, himp _ _ y hx hy hxy⟩
  · obtain ⟨x, hx, hxy⟩ := h.exists_left hy
    exact ⟨x, hx, himp _ x _ hx (by rwa [Equiv.apply_symm_apply]) hxy⟩

theorem imp {R' : α → β → Prop} (h : Rearranges τ R xs ys) (himp : ∀ x y, R x y → R' x y) :
    Rearranges τ R' xs ys :=
  h.imp_at (fun _ x y _ _ => himp x y)

theorem of_forall₂ (h : List.Forall₂ R xs ys) : Rearranges (Equiv.refl ℕ) R xs ys :=
  ⟨exists_right_at h, exists_right_at h.flip⟩

theorem lt_iff (h : Rearranges τ R xs ys) (k : ℕ) : τ k < ys.length ↔ k < xs.length := by
  constructor
  · intro hk
    obtain ⟨x, hx, -⟩ := h.exists_left (List.getElem?_eq_getElem hk)
    rw [Equiv.symm_apply_apply] at hx
    exact (List.getElem?_eq_some_iff.mp hx).1
  · intro hk
    obtain ⟨y, hy, -⟩ := h.exists_right (List.getElem?_eq_getElem hk)
    exact (List.getElem?_eq_some_iff.mp hy).1

theorem optionRel (h : Rearranges τ R xs ys) (k : ℕ) : Option.Rel R xs[k]? ys[τ k]? := by
  cases hx : xs[k]? with
  | none =>
      have hy : ys[τ k]? = none := by
        rwa [List.getElem?_eq_none_iff, ← not_lt, h.lt_iff, not_lt, ← List.getElem?_eq_none_iff]
      rw [hy]
      exact .none
  | some x =>
      obtain ⟨y, hy, hxy⟩ := h.exists_right hx
      rw [hy]
      exact .some hxy

theorem range (h : Rearranges τ R xs ys) :
    Rearranges τ (fun j j' => j' = τ j) (List.range xs.length) (List.range ys.length) := by
  refine ⟨fun {k j} hj => ?_, fun {k j} hj => ?_⟩
  · obtain ⟨hk, rfl⟩ := List.getElem?_eq_some_iff.mp hj
    rw [List.length_range] at hk
    rw [List.getElem_range]
    exact ⟨τ k, List.getElem?_range ((h.lt_iff k).mpr hk), rfl⟩
  · obtain ⟨hk, rfl⟩ := List.getElem?_eq_some_iff.mp hj
    rw [List.length_range] at hk
    rw [List.getElem_range]
    refine ⟨τ.symm k, List.getElem?_range ((h.lt_iff _).mp ?_), (τ.apply_symm_apply k).symm⟩
    rwa [τ.apply_symm_apply]

theorem zip {S : γ → δ → Prop} {zs : List γ} {ws : List δ} (h : Rearranges τ R xs ys)
    (h' : Rearranges τ S zs ws) :
    Rearranges τ (fun x y => R x.1 y.1 ∧ S x.2 y.2) (xs.zip zs) (ys.zip ws) := by
  refine ⟨fun {k x} hx => ?_, fun {k y} hy => ?_⟩
  · obtain ⟨hleft, hright⟩ := List.getElem?_zip_eq_some.mp hx
    obtain ⟨y, hy, hxy⟩ := h.exists_right hleft
    obtain ⟨w, hw, hzw⟩ := h'.exists_right hright
    exact ⟨(y, w), List.getElem?_zip_eq_some.mpr ⟨hy, hw⟩, hxy, hzw⟩
  · obtain ⟨hleft, hright⟩ := List.getElem?_zip_eq_some.mp hy
    obtain ⟨x, hx, hxy⟩ := h.exists_left hleft
    obtain ⟨z, hz, hzw⟩ := h'.exists_left hright
    exact ⟨(x, z), List.getElem?_zip_eq_some.mpr ⟨hx, hz⟩, hxy, hzw⟩

theorem zipIdx (h : Rearranges τ R xs ys) :
    Rearranges τ (fun x y => R x.1 y.1 ∧ y.2 = τ x.2 ∧ xs[x.2]? = some x.1 ∧ ys[y.2]? = some y.1)
      xs.zipIdx ys.zipIdx := by
  refine ⟨fun {k x} hx => ?_, fun {k y} hy => ?_⟩
  · rw [List.getElem?_zipIdx, Option.map_eq_some_iff] at hx
    obtain ⟨x, hx, rfl⟩ := hx
    obtain ⟨y, hy, hxy⟩ := h.exists_right hx
    refine ⟨(y, τ k), ?_, hxy, by simp, by simpa using hx, hy⟩
    rw [List.getElem?_zipIdx, hy, Option.map_some, zero_add]
  · rw [List.getElem?_zipIdx, Option.map_eq_some_iff] at hy
    obtain ⟨y, hy, rfl⟩ := hy
    obtain ⟨x, hx, hxy⟩ := h.exists_left hy
    refine ⟨(x, τ.symm k), ?_, hxy, by simp, hx, by simpa using hy⟩
    rw [List.getElem?_zipIdx, hx, Option.map_some, zero_add]

theorem transport (h : Rearranges τ R xs ys) {S : α → γ → Prop} {S' : β → δ → Prop} {zs : List γ}
    {ws : List δ} (hxs : List.Forall₂ S xs zs) (hys : List.Forall₂ S' ys ws) :
    Rearranges τ (fun z w => ∃ x y, R x y ∧ S x z ∧ S' y w) zs ws := by
  refine ⟨fun hz => ?_, fun hw => ?_⟩
  · obtain ⟨x, hx, hxz⟩ := exists_right_at hxs.flip hz
    obtain ⟨y, hy, hxy⟩ := h.exists_right hx
    obtain ⟨w, hw, hyw⟩ := exists_right_at hys hy
    exact ⟨w, hw, x, y, hxy, hxz, hyw⟩
  · obtain ⟨y, hy, hyw⟩ := exists_right_at hys.flip hw
    obtain ⟨x, hx, hxy⟩ := h.exists_left hy
    obtain ⟨z, hz, hxz⟩ := exists_right_at hxs hx
    exact ⟨z, hz, x, y, hxy, hxz, hyw⟩

theorem exists_beside (h : Rearranges τ R xs ys) {S : α → γ → Prop} {zs : List γ}
    (hzs : List.Forall₂ S xs zs) : ∃ ws, Rearranges τ Eq zs ws ∧
      List.Forall₂ (fun y w => ∃ x, R x y ∧ S x w) ys ws := by
  have beside (k : Fin ys.length) : ∃ w, zs[τ.symm k]? = some w ∧ ∃ x, R x (ys.get k) ∧ S x w := by
    obtain ⟨x, hx, hxy⟩ := h.exists_left (List.getElem?_eq_getElem k.isLt)
    obtain ⟨w, hw, hxw⟩ := exists_right_at hzs hx
    exact ⟨w, hw, x, hxy, hxw⟩
  choose w hw hbeside using beside
  have moved {k : ℕ} (hk : k < ys.length) : (List.ofFn w)[k]? = zs[τ.symm k]? := by
    rw [hw ⟨k, hk⟩, List.getElem?_ofFn, dif_pos hk]
  refine ⟨List.ofFn w, ⟨fun {k z} hz => ⟨z, ?_, rfl⟩, fun {k z} hz => ⟨z, ?_, rfl⟩⟩, ?_⟩
  · obtain ⟨x, hx, -⟩ := exists_right_at hzs.flip hz
    obtain ⟨y, hy, -⟩ := h.exists_right hx
    rw [moved (List.getElem?_eq_some_iff.mp hy).1, Equiv.symm_apply_apply, hz]
  · rw [← moved (by simpa using (List.getElem?_eq_some_iff.mp hz).1), hz]
  · exact List.forall₂_iff_get.mpr ⟨by simp, fun k hk _ => by simpa using hbeside ⟨k, hk⟩⟩

end Rearranges

/-! ## Multisets -/

/-- Related multisets: the items of the one list are related to those of the other in some order. -/
theorem rel_coe_iff : Multiset.Rel R (xs : Multiset α) (ys : Multiset β) ↔
    ∃ zs, List.Forall₂ R xs zs ∧ zs.Perm ys := by
  constructor
  · intro h
    induction xs generalizing ys with
    | nil =>
        obtain rfl : ys = [] := by simpa using h
        exact ⟨[], .nil, .refl _⟩
    | cons x xs ih =>
        rw [← Multiset.cons_coe, Multiset.rel_cons_left] at h
        obtain ⟨y, rest, hxy, tail, hys⟩ := h
        obtain ⟨rest, rfl⟩ := Quot.exists_rep rest
        obtain ⟨zs, all, perm⟩ := ih tail
        exact ⟨y :: zs, .cons hxy all, (perm.cons y).trans (Multiset.coe_eq_coe.mp hys.symm)⟩
  · rintro ⟨zs, all, perm⟩
    rw [← Multiset.coe_eq_coe.mpr perm]
    clear perm
    induction all with
    | nil => exact .zero
    | cons head _ ih => exact .cons head ih

/-- The permutation that keeps the first position and moves the others as before. -/
def shifted (τ : Equiv.Perm ℕ) : Equiv.Perm ℕ where
  toFun
    | 0 => 0
    | k + 1 => τ k + 1
  invFun
    | 0 => 0
    | k + 1 => τ.symm k + 1
  left_inv k := by cases k <;> simp
  right_inv k := by cases k <;> simp

theorem exists_positions_of_perm {xs ys : List α} (h : xs.Perm ys) :
    ∃ τ : Equiv.Perm ℕ, ∀ k, ys[τ k]? = xs[k]? := by
  induction h with
  | nil => exact ⟨Equiv.refl ℕ, fun _ => rfl⟩
  | cons x _ ih =>
      obtain ⟨τ, hτ⟩ := ih
      refine ⟨shifted τ, fun k => ?_⟩
      cases k with
      | zero => rfl
      | succ k => exact hτ k
  | swap x y xs =>
      refine ⟨Equiv.swap 0 1, fun k => ?_⟩
      match k with
      | 0 => rfl
      | 1 => rfl
      | k + 2 => rw [Equiv.swap_apply_of_ne_of_ne (by omega) (by omega)]; rfl
  | trans _ _ ih ih' =>
      obtain ⟨τ, hτ⟩ := ih
      obtain ⟨τ', hτ'⟩ := ih'
      exact ⟨τ.trans τ', fun k => (hτ' (τ k)).trans (hτ k)⟩

theorem exists_rearranges (h : Multiset.Rel R (xs : Multiset α) (ys : Multiset β)) :
    ∃ τ, Rearranges τ R xs ys := by
  obtain ⟨zs, all, perm⟩ := rel_coe_iff.mp h
  obtain ⟨τ, hτ⟩ := exists_positions_of_perm perm
  refine ⟨τ, fun hx => ?_, fun {k y} hy => ?_⟩
  · obtain ⟨y, hy, hxy⟩ := exists_right_at all hx
    exact ⟨y, (hτ _).trans hy, hxy⟩
  · rw [← τ.apply_symm_apply k, hτ] at hy
    exact exists_right_at all.flip hy

theorem filterMap_getElem?_range (xs : List α) :
    (List.range xs.length).filterMap (fun k => xs[k]?) = xs := by
  induction xs with
  | nil => rfl
  | cons x xs ih => simp [List.range_succ_eq_map, List.filterMap_map, ih]

theorem Rearranges.perm_range (h : Rearranges τ R xs ys) :
    ((List.range xs.length).map τ).Perm (List.range ys.length) := by
  refine (List.perm_ext_iff_of_nodup (List.nodup_range.map τ.injective) List.nodup_range).mpr
    (fun k => ?_)
  simp only [List.mem_map, List.mem_range]
  constructor
  · rintro ⟨j, hj, rfl⟩
    exact (h.lt_iff j).mpr hj
  · intro hk
    exact ⟨τ.symm k, (h.lt_iff _).mp (by rwa [Equiv.apply_symm_apply]), τ.apply_symm_apply k⟩

theorem Rearranges.rel (h : Rearranges τ R xs ys) :
    Multiset.Rel R (xs : Multiset α) (ys : Multiset β) := by
  refine rel_coe_iff.mpr ⟨(List.range xs.length).filterMap (fun k => ys[τ k]?), ?_, ?_⟩
  · conv_lhs => rw [← filterMap_getElem?_range xs]
    exact List.rel_filterMap (fun k _ hk => hk ▸ h.optionRel k)
      (List.forall₂_same.mpr (fun _ _ => rfl))
  · have moved := h.perm_range.filterMap (fun k => ys[k]?)
    rwa [filterMap_getElem?_range, List.filterMap_map] at moved

theorem rel_coe_of_forall₂ (h : List.Forall₂ R xs ys) :
    Multiset.Rel R (xs : Multiset α) (ys : Multiset β) :=
  rel_coe_iff.mpr ⟨ys, h, .refl ys⟩

theorem Rearranges.rel_flatMap {S : γ → δ → Prop} {f : α → List γ} {g : β → List δ}
    (h : Rearranges τ R xs ys)
    (hfg : ∀ x y, R x y → Multiset.Rel S (f x : Multiset γ) (g y : Multiset δ)) :
    Multiset.Rel S (xs.flatMap f : List γ) (ys.flatMap g : List δ) := by
  rw [← Multiset.coe_bind, ← Multiset.coe_bind]
  exact Multiset.rel_bind hfg h.rel

theorem Rearranges.sum_map_eq {M : Type*} [AddCommMonoid M] {f : α → M} {g : β → M}
    (h : Rearranges τ R xs ys) (hfg : ∀ x ∈ xs, ∀ y ∈ ys, R x y → f x = g y) :
    (xs.map f).sum = (ys.map g).sum := by
  have same : Multiset.Rel Eq ((xs : Multiset α).map f) ((ys : Multiset β).map g) :=
    Multiset.rel_map.mpr (h.rel.mono hfg)
  rw [← Multiset.sum_coe, ← Multiset.sum_coe, ← Multiset.map_coe, ← Multiset.map_coe,
    Multiset.rel_eq.mp same]

/-! ## Groups -/

section Groups

variable [DecidableEq β] (key : α → β) {keys : List β}

theorem perm_flatMap_filter_key (hkeys : keys.Nodup) {xs : List α} (h : ∀ x ∈ xs, key x ∈ keys) :
    (keys.flatMap (fun k => xs.filter (fun x => key x = k))).Perm xs := by
  induction keys generalizing xs with
  | nil =>
      cases xs with
      | nil => exact .refl _
      | cons x xs => simpa using h x (by simp)
  | cons k keys ih =>
      obtain ⟨fresh, distinct⟩ := List.nodup_cons.mp hkeys
      have rest : ∀ x ∈ xs.filter (fun x => !decide (key x = k)), key x ∈ keys := fun x hx => by
        obtain ⟨hmem, hne⟩ := List.mem_filter.mp hx
        exact (List.mem_cons.mp (h x hmem)).resolve_left (by simpa using hne)
      have groups : keys.flatMap (fun l => (xs.filter (fun x => !decide (key x = k))).filter
          (fun x => key x = l)) = keys.flatMap (fun l => xs.filter (fun x => key x = l)) := by
        refine List.flatMap_congr (fun l hl => ?_)
        have apart : l ≠ k := fun same => fresh (same ▸ hl)
        rw [List.filter_filter]
        refine List.filter_congr (fun x _ => ?_)
        by_cases hx : key x = l <;> simp [hx, apart]
      rw [List.flatMap_cons, ← groups]
      exact ((ih distinct rest).append_left _).trans (List.filter_append_perm _ xs)

theorem exists_groups {r : α → γ → Prop} {xs : List α} {zs : List γ} (h : List.Forall₂ r xs zs)
    (hkeys : keys.Nodup) (hcover : ∀ x ∈ xs, key x ∈ keys) : ∃ groups : List (List γ),
      List.Forall₂ (fun k group => List.Forall₂ r (xs.filter (fun x => key x = k)) group)
        keys groups ∧ groups.flatten.Perm zs := by
  obtain ⟨zs', grouped, perm⟩ := List.perm_comp_forall₂ (perm_flatMap_filter_key key hkeys hcover) h
  obtain ⟨groups, rfl, all⟩ := exists_parts_of_flatMap grouped
  exact ⟨groups, all, perm⟩

end Groups

end HybridRelaxation
