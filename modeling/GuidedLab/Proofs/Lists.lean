/-!
# Lists that agree in part

Two lists agree in part when a function has the same values along both. Then they have items at the
same positions, and what follows from the part for one item follows for the lists.
-/

namespace GuidedLab.Lists

variable {α β γ : Type}

/-- Where lists agree in part, the items at one position do. -/
theorem exists_getElem?_of_map_eq {f : α → β} {xs ys : List α} (h : xs.map f = ys.map f) {j : Nat}
    {x : α} (hx : xs[j]? = some x) : ∃ y, ys[j]? = some y ∧ f x = f y := by
  have hj : (xs.map f)[j]? = (ys.map f)[j]? := by rw [h]
  rw [List.getElem?_map, List.getElem?_map, hx, Option.map_some] at hj
  obtain ⟨y, hy, hyx⟩ := Option.map_eq_some_iff.1 hj.symm
  exact ⟨y, hy, hyx.symm⟩

/-- Lists that agree in part agree in what their items at one position then agree in. -/
theorem map_eq_of_map_eq {f : α → β} {g : α → γ} {xs ys : List α} (h : xs.map f = ys.map f)
    (each : ∀ (j : Nat) (x y : α), xs[j]? = some x → ys[j]? = some y → f x = f y → g x = g y) :
    xs.map g = ys.map g := by
  apply List.ext_getElem?
  intro j
  rw [List.getElem?_map, List.getElem?_map]
  cases hx : xs[j]? with
  | none =>
      have hlen : xs.length = ys.length := by
        rw [← List.length_map f, h, List.length_map]
      rw [List.getElem?_eq_none_iff] at hx
      rw [List.getElem?_eq_none (hlen ▸ hx)]
  | some x =>
      obtain ⟨y, hy, hxy⟩ := exists_getElem?_of_map_eq h hx
      rw [hy, Option.map_some, Option.map_some, each j x y hx hy hxy]

/-- Lists that agree in part are equal if their items at one position then are. -/
theorem eq_of_map_eq {f : α → β} {xs ys : List α} (h : xs.map f = ys.map f)
    (each : ∀ (j : Nat) (x y : α), xs[j]? = some x → ys[j]? = some y → f x = f y → x = y) :
    xs = ys := by
  have hid : xs.map id = ys.map id := map_eq_of_map_eq h each
  rwa [List.map_id, List.map_id] at hid

theorem flatMap_eq_of_map_eq {f : α → List γ} {key : α → β} {xs ys : List α}
    (h : xs.map key = ys.map key) (same : ∀ x ∈ xs, ∀ y, key x = key y → f x = f y) :
    xs.flatMap f = ys.flatMap f := by
  induction xs generalizing ys with
  | nil =>
      rw [List.map_nil, eq_comm, List.map_eq_nil_iff] at h
      rw [h]
  | cons x xs ih =>
      cases ys with
      | nil => cases h
      | cons y ys =>
          injection h with hx hxs
          rw [List.flatMap_cons, List.flatMap_cons, same x List.mem_cons_self y hx,
            ih hxs fun z hz => same z (List.mem_cons_of_mem _ hz)]

theorem map_set_of_eq {f : α → β} {l : List α} {index : Nat} {x y : α} (hx : l[index]? = some x)
    (h : f y = f x) : (l.set index y).map f = l.map f := by
  obtain ⟨hlt, rfl⟩ := List.getElem?_eq_some_iff.1 hx
  rw [List.map_set, h, ← List.map_set, List.set_getElem_self]

theorem perm_of_map_some {xs ys : List α} (h : (xs.map some).Perm (ys.map some)) : xs.Perm ys := by
  have hfilter := h.filterMap id
  rwa [List.filterMap_map, List.filterMap_map, Function.id_comp, List.filterMap_some,
    List.filterMap_some] at hfilter

end GuidedLab.Lists
