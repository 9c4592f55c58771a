import Mathlib

/-!
# Computations that may fail

A sequence of steps succeeds exactly if each of its steps succeeds in turn.
-/

namespace HybridRelaxation

variable {ε α β : Type}

@[simp] theorem ok_bind (a : α) (f : α → Except ε β) : ((Except.ok a : Except ε α) >>= f) = f a :=
  rfl

@[simp] theorem error_bind (e : ε) (f : α → Except ε β) :
    ((Except.error e : Except ε α) >>= f) = .error e := rfl

theorem bind_eq_ok {x : Except ε α} {f : α → Except ε β} {b : β} :
    (x >>= f) = .ok b ↔ ∃ a, x = .ok a ∧ f a = .ok b := by
  cases x with
  | error e => simp
  | ok a => simp

theorem bind_eq_error {x : Except ε α} {f : α → Except ε β} {e : ε} :
    (x >>= f) = .error e ↔ x = .error e ∨ ∃ a, x = .ok a ∧ f a = .error e := by
  cases x with
  | error e' => simp
  | ok a => simp

theorem map_eq_ok {x : Except ε α} {f : α → β} {b : β} :
    x.map f = .ok b ↔ ∃ a, x = .ok a ∧ f a = b := by
  cases x <;> simp [Except.map]

theorem map_eq_error {x : Except ε α} {f : α → β} {e : ε} : x.map f = .error e ↔ x = .error e := by
  cases x <;> simp [Except.map]

theorem mapM_eq_ok {f : α → Except ε β} {xs : List α} {ys : List β} :
    xs.mapM f = .ok ys ↔ List.Forall₂ (fun x y => f x = .ok y) xs ys := by
  induction xs generalizing ys with
  | nil =>
      simp only [List.mapM_nil, List.forall₂_nil_left_iff]
      exact ⟨fun h => (Except.ok.inj h).symm, fun h => h ▸ rfl⟩
  | cons x xs ih =>
      simp only [List.mapM_cons, bind_eq_ok, ih, List.forall₂_cons_left_iff]
      constructor
      · rintro ⟨y, hy, ys', hys, h⟩
        exact ⟨y, ys', hy, hys, (Except.ok.inj h).symm⟩
      · rintro ⟨y, ys', hy, hys, rfl⟩
        exact ⟨y, hy, ys', hys, rfl⟩

theorem exists_mapM_eq_ok {f : α → Except ε β} {xs : List α} (h : ∀ x ∈ xs, ∃ y, f x = .ok y) :
    ∃ ys, xs.mapM f = .ok ys := by
  induction xs with
  | nil => exact ⟨[], rfl⟩
  | cons x xs ih =>
      obtain ⟨y, hy⟩ := h x (by simp)
      obtain ⟨ys, hys⟩ := ih (fun x' hx' => h x' (by simp [hx']))
      exact ⟨y :: ys, mapM_eq_ok.mpr (.cons hy (mapM_eq_ok.mp hys))⟩

theorem exists_of_mapM_eq_error {f : α → Except ε β} {xs : List α} {e : ε}
    (h : xs.mapM f = .error e) : ∃ x ∈ xs, f x = .error e := by
  induction xs with
  | nil => exact absurd h (by simp [pure, Except.pure])
  | cons x xs ih =>
      rw [List.mapM_cons] at h
      rcases bind_eq_error.mp h with hx | ⟨y, -, h⟩
      · exact ⟨x, by simp, hx⟩
      · rcases bind_eq_error.mp h with hxs | ⟨ys, -, h⟩
        · obtain ⟨x', hx', failed⟩ := ih hxs
          exact ⟨x', by simp [hx'], failed⟩
        · exact absurd h (by simp [pure, Except.pure])

theorem exists_mapM_eq_error {f : α → Except ε β} {xs : List α} {x : α} (hx : x ∈ xs)
    (h : ∃ e, f x = .error e) : ∃ e, xs.mapM f = .error e := by
  obtain ⟨e, he⟩ := h
  cases hall : xs.mapM f with
  | error e => exact ⟨e, rfl⟩
  | ok ys =>
      obtain ⟨k, hk, rfl⟩ := List.mem_iff_getElem.mp hx
      have done := List.forall₂_iff_get.mp (mapM_eq_ok.mp hall)
      simpa [he] using done.2 k hk (done.1 ▸ hk)

theorem forM_eq_ok {f : α → Except ε Unit} {xs : List α} :
    xs.forM f = .ok () ↔ ∀ x ∈ xs, f x = .ok () := by
  induction xs with
  | nil => simp [List.forM, pure, Except.pure]
  | cons x xs ih =>
      change (f x >>= fun _ => xs.forM f) = _ ↔ _
      rw [bind_eq_ok]
      constructor
      · rintro ⟨_, hx, hxs⟩
        exact List.forall_mem_cons.mpr ⟨hx, ih.mp hxs⟩
      · intro h
        obtain ⟨hx, hxs⟩ := List.forall_mem_cons.mp h
        exact ⟨(), hx, ih.mpr hxs⟩

theorem bind_check_eq_ok {x : Except ε Unit} {f : Unit → Except ε β} {b : β} :
    (x >>= f) = .ok b ↔ x = .ok () ∧ f () = .ok b := by
  cases x with
  | error e => simp
  | ok a => simp

/-! ## Related lists -/

theorem exists_right_of_mem {r : α → β → Prop} {xs : List α} {ys : List β}
    (h : List.Forall₂ r xs ys) {x : α} (hx : x ∈ xs) : ∃ y ∈ ys, r x y := by
  induction h with
  | nil => simp at hx
  | cons head tail ih =>
      rcases List.mem_cons.mp hx with rfl | hx
      · exact ⟨_, by simp, head⟩
      · obtain ⟨y, hy, hxy⟩ := ih hx
        exact ⟨y, by simp [hy], hxy⟩

theorem exists_left_of_mem {r : α → β → Prop} {xs : List α} {ys : List β}
    (h : List.Forall₂ r xs ys) {y : β} (hy : y ∈ ys) : ∃ x ∈ xs, r x y :=
  exists_right_of_mem h.flip hy

theorem exists_right_at {r : α → β → Prop} {xs : List α} {ys : List β} (h : List.Forall₂ r xs ys)
    {i : ℕ} {x : α} (hx : xs[i]? = some x) : ∃ y, ys[i]? = some y ∧ r x y := by
  induction h generalizing i with
  | nil => simp at hx
  | @cons x' y' xs ys head _ ih =>
      cases i with
      | zero =>
          obtain rfl : x' = x := by simpa using hx
          exact ⟨y', rfl, head⟩
      | succ i => exact ih (by simpa using hx)

theorem related_at {r : α → β → Prop} {xs : List α} {ys : List β} (h : List.Forall₂ r xs ys)
    {i : ℕ} {x : α} {y : β} (hx : xs[i]? = some x) (hy : ys[i]? = some y) : r x y := by
  obtain ⟨_, hget, hxy⟩ := exists_right_at h hx
  rwa [Option.some.inj (hy.symm.trans hget)]

theorem related_zip {γ δ : Type} {r : α → β → Prop} {r' : γ → δ → Prop} {xs : List α} {ys : List β}
    {zs : List γ} {ws : List δ} (h : List.Forall₂ r xs ys) (h' : List.Forall₂ r' zs ws) :
    List.Forall₂ (fun x y => r x.1 y.1 ∧ r' x.2 y.2) (xs.zip zs) (ys.zip ws) := by
  induction h generalizing zs ws with
  | nil => exact .nil
  | cons head tail ih =>
      cases h' with
      | nil => exact .nil
      | cons head' tail' => exact .cons ⟨head, head'⟩ (ih tail')

theorem exists_forall₂_right {r : α → β → Prop} {xs : List α} (h : ∀ x ∈ xs, ∃ y, r x y) :
    ∃ ys, List.Forall₂ r xs ys := by
  induction xs with
  | nil => exact ⟨[], .nil⟩
  | cons x xs ih =>
      obtain ⟨y, hy⟩ := h x (by simp)
      obtain ⟨ys, hys⟩ := ih (fun x' hx' => h x' (by simp [hx']))
      exact ⟨y :: ys, .cons hy hys⟩

theorem forall₂_imp_of_mem {r r' : α → β → Prop} {xs : List α} {ys : List β}
    (h : List.Forall₂ r xs ys) (himp : ∀ x ∈ xs, ∀ y, r x y → r' x y) : List.Forall₂ r' xs ys := by
  induction h with
  | nil => exact .nil
  | @cons x y xs ys head _ ih =>
      exact .cons (himp x (by simp) y head) (ih (fun x' hx' => himp x' (by simp [hx'])))

theorem forall₂_self_map (f : α → β) (xs : List α) :
    List.Forall₂ (fun x y => f x = y) xs (xs.map f) :=
  List.forall₂_map_right_iff.mpr (List.forall₂_same.mpr (fun _ _ => rfl))

theorem forall₂_comp {γ : Type} {r : α → β → Prop} {r' : β → γ → Prop} {xs : List α} {ys : List β}
    {zs : List γ} (h : List.Forall₂ r xs ys) (h' : List.Forall₂ r' ys zs) :
    List.Forall₂ (fun x z => ∃ y, r x y ∧ r' y z) xs zs := by
  induction h generalizing zs with
  | nil =>
      cases h'
      exact .nil
  | cons head _ ih =>
      cases h' with
      | cons head' tail' => exact .cons ⟨_, head, head'⟩ (ih tail')

theorem exists_last_right {r : α → β → Prop} {xs : List α} {x : α} {zs : List β}
    (h : List.Forall₂ r (xs ++ [x]) zs) :
    ∃ ys y, zs = ys ++ [y] ∧ List.Forall₂ r xs ys ∧ r x y := by
  induction xs generalizing zs with
  | nil =>
      cases h with
      | cons head tail =>
          obtain rfl := List.forall₂_nil_left_iff.mp tail
          exact ⟨[], _, rfl, .nil, head⟩
  | cons x' xs ih =>
      cases h with
      | cons head tail =>
          obtain ⟨ys, y, rfl, all, last⟩ := ih tail
          exact ⟨_ :: ys, y, rfl, .cons head all, last⟩

theorem exists_parts_of_flatMap {γ : Type} {r : β → γ → Prop} {f : α → List β} {xs : List α}
    {zs : List γ} (h : List.Forall₂ r (xs.flatMap f) zs) :
    ∃ parts, zs = parts.flatten ∧
      List.Forall₂ (fun x part => List.Forall₂ r (f x) part) xs parts := by
  induction xs generalizing zs with
  | nil =>
      obtain rfl := List.forall₂_nil_left_iff.mp h
      exact ⟨[], rfl, .nil⟩
  | cons x xs ih =>
      rw [List.flatMap_cons] at h
      have head := List.forall₂_take (f x).length h
      have tail := List.forall₂_drop (f x).length h
      rw [List.take_left] at head
      rw [List.drop_left] at tail
      obtain ⟨parts, rest, all⟩ := ih tail
      refine ⟨zs.take (f x).length :: parts, ?_, .cons head all⟩
      rw [List.flatten_cons, ← rest, List.take_append_drop]

theorem optionRel_map {γ δ : Type} {r : α → β → Prop} {r' : γ → δ → Prop} {f : α → γ} {g : β → δ}
    {o : Option α} {o' : Option β} (h : Option.Rel r o o')
    (himp : ∀ a b, r a b → r' (f a) (g b)) : Option.Rel r' (o.map f) (o'.map g) := by
  cases h with
  | none => exact .none
  | some h => exact .some (himp _ _ h)

/-! ## Entries by key -/

theorem find?_key_eq_some {α β : Type*} [DecidableEq α] {entries : List (α × β)}
    (h : (entries.map Prod.fst).Nodup) {k : α} {t : α × β} :
    entries.find? (fun entry => entry.1 = k) = some t ↔ t ∈ entries ∧ t.1 = k := by
  constructor
  · intro found
    exact ⟨List.mem_of_find?_eq_some found, by simpa using List.find?_some found⟩
  · rintro ⟨ht, hk⟩
    cases found : entries.find? (fun entry => entry.1 = k) with
    | none =>
        rw [List.find?_eq_none] at found
        exact absurd (by simpa using hk) (found t ht)
    | some u =>
        have hu : u.1 = k := by simpa using List.find?_some found
        rw [List.inj_on_of_nodup_map h (List.mem_of_find?_eq_some found) ht (hu.trans hk.symm)]

def upsert {α β : Type*} [DecidableEq α] (k : α) (first : β) (change : β → β) :
    List (α × β) → List (α × β)
  | [] => [(k, first)]
  | (l, d) :: entries =>
      if k = l then (l, change d) :: entries else (l, d) :: upsert k first change entries

section Upsert

variable {α β : Type*} [DecidableEq α] (k : α) (first : β) (change : β → β)

theorem keys_upsert (entries : List (α × β)) :
    (upsert k first change entries).map Prod.fst =
      if k ∈ entries.map Prod.fst then entries.map Prod.fst else entries.map Prod.fst ++ [k] := by
  induction entries with
  | nil => simp [upsert]
  | cons entry entries ih =>
      obtain ⟨l, d⟩ := entry
      by_cases h : k = l
      · simp [upsert, h]
      · simp only [upsert, h, if_false, List.map_cons, ih, List.mem_cons, false_or]
        split <;> simp

theorem nodup_upsert {entries : List (α × β)} (h : (entries.map Prod.fst).Nodup) :
    ((upsert k first change entries).map Prod.fst).Nodup := by
  rw [keys_upsert]
  split
  · exact h
  · next fresh => exact h.append (List.nodup_singleton k) (by simpa using fresh)

end Upsert

end HybridRelaxation
