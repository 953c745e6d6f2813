import ModularC.TypeNames

/-!
The two views of the registered type names stay in step (`TypeNames.run_consistent`).
-/

namespace ModularC

namespace TypeNames

/-- The set holds exactly the names of the order, and the order holds each name once. -/
structure Consistent (s : TypeNames) : Prop where
  nodup : s.order.Nodup
  mem_names : ∀ x, x ∈ s.names ↔ x ∈ s.order

variable {s : TypeNames}

theorem empty_consistent : empty.Consistent := ⟨List.nodup_nil, fun _ => Iff.rfl⟩

theorem withStandard_consistent : withStandard.Consistent := ⟨List.nodup_nil, fun _ => Iff.rfl⟩

theorem Consistent.names_contains (h : s.Consistent) (x : String) :
    s.names.contains x = s.order.contains x := by
  rw [Bool.eq_iff_iff, List.contains_iff_mem, List.contains_iff_mem]
  exact h.mem_names x

/-! ### Registering -/

theorem Consistent.register_of_mem (h : s.Consistent) {x : String} (hx : x ∈ s.order) :
    s.register x = (false, s) := by
  rw [register, h.names_contains, List.contains_iff_mem.2 hx, if_pos rfl]

theorem Consistent.register_of_not_mem (h : s.Consistent) {x : String} (hx : x ∉ s.order) :
    s.register x = (true, { s with names := x :: s.names, order := s.order ++ [x] }) := by
  have hc : s.order.contains x = false := by
    rw [List.contains_eq_mem, decide_eq_false_iff_not]
    exact hx
  rw [register, h.names_contains, hc]
  rfl

theorem Consistent.register_consistent (h : s.Consistent) (x : String) :
    (s.register x).2.Consistent := by
  by_cases hx : x ∈ s.order
  · rw [h.register_of_mem hx]
    exact h
  · rw [h.register_of_not_mem hx]
    constructor
    · refine List.nodup_append.2 ⟨h.nodup, List.nodup_cons.2 ⟨List.not_mem_nil, List.nodup_nil⟩, ?_⟩
      intro a ha b hb hab
      rw [List.mem_singleton] at hb
      exact hx (hb ▸ hab ▸ ha)
    · intro y
      simp only [List.mem_cons, List.mem_append, List.not_mem_nil, or_false, h.mem_names y]
      exact or_comm

theorem register_standard (s : TypeNames) (x : String) :
    (s.register x).2.standard = s.standard := by
  unfold register
  split <;> rfl

theorem Consistent.register_fst (h : s.Consistent) (x : String) :
    (s.register x).1 = true ↔ x ∉ s.order := by
  by_cases hx : x ∈ s.order
  · simp [h.register_of_mem hx, hx]
  · simp [h.register_of_not_mem hx, hx]

theorem Consistent.register_order (h : s.Consistent) (x : String) :
    (s.register x).2.order = if x ∈ s.order then s.order else s.order ++ [x] := by
  by_cases hx : x ∈ s.order
  · rw [h.register_of_mem hx, if_pos hx]
  · rw [h.register_of_not_mem hx, if_neg hx]

/-! ### Supplying -/

theorem supply_cons (x : String) (xs : List String) :
    s.supply (x :: xs) = (s.register x).2.supply xs := rfl

theorem supply_standard (s : TypeNames) (xs : List String) :
    (s.supply xs).standard = s.standard := by
  induction xs generalizing s with
  | nil => rfl
  | cons x xs ih => rw [supply_cons, ih, register_standard]

theorem Consistent.supply_consistent (h : s.Consistent) (xs : List String) :
    (s.supply xs).Consistent := by
  induction xs generalizing s with
  | nil => exact h
  | cons x xs ih => exact ih (h.register_consistent x)

theorem Consistent.supply_order (h : s.Consistent) (xs : List String) :
    (s.supply xs).order = s.order ++ (xs.filter (· ∉ s.order)).eraseDups := by
  induction xs generalizing s with
  | nil => simp [supply]
  | cons x xs ih =>
    rw [supply_cons]
    by_cases hx : x ∈ s.order
    · rw [h.register_of_mem hx, ih h, List.filter_cons_of_neg (by simpa using hx)]
    · have h' := h.register_consistent x
      rw [h.register_of_not_mem hx] at h' ⊢
      rw [ih h', List.filter_cons_of_pos (by simpa using hx), List.eraseDups_cons,
        List.filter_filter]
      have hfresh : (xs.filter fun y => decide (y ∉ s.order ++ [x])) =
          xs.filter fun y => !y == x && decide (y ∉ s.order) := by
        congr 1
        funext y
        by_cases hy : y = x <;> simp [hy]
      simp only [hfresh, List.append_assoc, List.singleton_append]

example : (empty.supply ["a_t", "b_t", "a_t"]).order = ["a_t", "b_t"] := by decide

/-! ### Rolling back -/

theorem mem_foldl_filter {ds ns : List String} {x : String} :
    x ∈ ds.foldl (fun names name => names.filter (· != name)) ns ↔ x ∈ ns ∧ x ∉ ds := by
  induction ds generalizing ns with
  | nil => simp
  | cons d ds ih =>
    rw [List.foldl_cons, ih, List.mem_filter, List.mem_cons, bne_iff_ne, ne_eq, not_or, and_assoc]

theorem Consistent.rollback_consistent (h : s.Consistent) (k : Nat) : (s.rollback k).Consistent where
  nodup := h.nodup.sublist (List.take_sublist k s.order)
  mem_names x := by
    -- the kept prefix and the dropped rest share no name, since the order has no repeats
    have hsplit := h.nodup
    rw [← List.take_append_drop k s.order, List.nodup_append] at hsplit
    simp only [rollback, mem_foldl_filter, h.mem_names x]
    constructor
    · rintro ⟨hx, hdrop⟩
      rw [← List.take_append_drop k s.order, List.mem_append] at hx
      exact hx.resolve_right hdrop
    · intro hx
      exact ⟨List.mem_of_mem_take hx, fun hd => hsplit.2.2 x hx x hd rfl⟩

/-! ### Membership -/

theorem Consistent.contains_iff (h : s.Consistent) (x : String) :
    s.contains x = true ↔ x ∈ s.order ∨ s.standard = true ∧ x ∈ Standard.typeNames := by
  rw [contains, h.names_contains]
  simp

/-! ### Runs -/

/-- A change to a name set. -/
inductive Op where
  | supply (names : List String)
  | register (name : String)
  | rollback (k : Nat)

/-- Applies one change. -/
def Op.apply (s : TypeNames) : Op → TypeNames
  | .supply names => s.supply names
  | .register name => (s.register name).2
  | .rollback k => s.rollback k

/-- Applies changes in order. -/
def run (s : TypeNames) (ops : List Op) : TypeNames := ops.foldl Op.apply s

theorem Consistent.apply (h : s.Consistent) (op : Op) : (Op.apply s op).Consistent := by
  cases op with
  | supply names => exact h.supply_consistent names
  | register name => exact h.register_consistent name
  | rollback k => exact h.rollback_consistent k

theorem Op.apply_standard (s : TypeNames) (op : Op) : (Op.apply s op).standard = s.standard := by
  cases op with
  | supply names => exact supply_standard s names
  | register name => exact register_standard s name
  | rollback k => rfl

theorem Consistent.run (h : s.Consistent) (ops : List Op) :
    (s.run ops).Consistent ∧ (s.run ops).standard = s.standard := by
  induction ops generalizing s with
  | nil => exact ⟨h, rfl⟩
  | cons op ops ih =>
    obtain ⟨hc, hstd⟩ := ih (h.apply op)
    exact ⟨hc, hstd.trans (Op.apply_standard s op)⟩

/-- Whatever a name set has been through since it started empty or knowing the standard names,
its two views agree, and each operation on it reads as one on its order of registration. -/
theorem run_consistent (standard : Bool) (ops : List Op) :
    let s := (if standard then withStandard else empty).run ops
    s.Consistent ∧
      (∀ x, ((s.register x).1 = true ↔ x ∉ s.order) ∧
        (s.register x).2.order = if x ∈ s.order then s.order else s.order ++ [x]) ∧
      (∀ xs, (s.supply xs).order = s.order ++ (xs.filter (· ∉ s.order)).eraseDups) ∧
      s.size = s.order.length ∧ s.checkpoint = s.size ∧
      (∀ k, (s.rollback k).order = s.order.take k) ∧
      (∀ x, s.contains x = true ↔ x ∈ s.order ∨ standard = true ∧ x ∈ Standard.typeNames) := by
  intro s
  have hstart : (if standard then withStandard else empty).Consistent ∧
      (if standard then withStandard else empty).standard = standard := by
    cases standard
    · exact ⟨empty_consistent, rfl⟩
    · exact ⟨withStandard_consistent, rfl⟩
  obtain ⟨h, hstd⟩ := hstart.1.run ops
  refine ⟨h, fun x => ⟨h.register_fst x, h.register_order x⟩, h.supply_order, rfl, rfl,
    fun _ => rfl, fun x => ?_⟩
  rw [h.contains_iff, hstd, hstart.2]

end TypeNames

end ModularC
