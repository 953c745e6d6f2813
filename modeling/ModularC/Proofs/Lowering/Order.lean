import ModularC.Lowering.Order

/-!
Hoisting and deduplication as list operations.
-/

namespace ModularC

namespace Element

theorem tier_lt (e : Element) : e.tier < 6 := by
  cases e with
  | function f =>
    simp only [tier]
    split <;> omega
  | _ => simp [tier]

end Element

/-! ### Hoisting -/

section Hoist

private theorem filter_tier_and (es : List Element) (t a : Nat) :
    es.filter (fun x => x.tier == t && x.tier == a) =
      if a = t then es.filter (·.tier == t) else [] := by
  split
  · subst a
    simp only [Bool.and_self]
  · rw [List.filter_eq_nil_iff]
    intro x _ hx
    simp only [Bool.and_eq_true, beq_iff_eq] at hx
    omega

private theorem flatMap_range_ite {α : Type} (L : List α) (t n : Nat) :
    (List.range n).flatMap (fun a => if a = t then L else []) = if t < n then L else [] := by
  induction n with
  | zero => simp
  | succ n ih =>
    rw [List.range_succ, List.flatMap_append, ih]
    by_cases h : t = n
    · subst h
      simp
    · by_cases h' : t < n
      · simp [h', show t < n + 1 by omega, Ne.symm h]
      · simp [h', show ¬ t < n + 1 by omega, Ne.symm h]

/-- Hoisting keeps each tier as it was: the elements of one tier come out in their input order. -/
theorem filter_hoist (es : List Element) (t : Nat) :
    (hoist es).filter (·.tier == t) = es.filter (·.tier == t) := by
  simp only [hoist, List.filter_flatMap, List.filter_filter, filter_tier_and, flatMap_range_ite]
  split
  · rfl
  · symm
    rw [List.filter_eq_nil_iff]
    intro x _ hx
    have := x.tier_lt
    simp only [beq_iff_eq] at hx
    omega

@[simp] theorem mem_hoist {e : Element} {es : List Element} : e ∈ hoist es ↔ e ∈ es := by
  simp only [hoist, List.mem_flatMap, List.mem_range, List.mem_filter, beq_iff_eq]
  constructor
  · rintro ⟨_, _, he, _⟩
    exact he
  · intro he
    exact ⟨e.tier, e.tier_lt, he, rfl⟩

theorem hoist_pairwise_tier (es : List Element) :
    (hoist es).Pairwise (fun a b => a.tier ≤ b.tier) := by
  rw [hoist, List.pairwise_flatMap]
  constructor
  · intro t _
    refine List.Pairwise.imp_of_mem ?_ (List.pairwise_of_forall (R := fun _ _ => True) (by simp))
    intro a b ha hb _
    simp only [List.mem_filter, beq_iff_eq] at ha hb
    omega
  · refine List.pairwise_lt_range.imp_of_mem ?_
    intro s t _ _ hst a ha b hb
    simp only [List.mem_filter, beq_iff_eq] at ha hb
    omega

theorem hoist_append_of_tier_zero {hs es : List Element} (h : ∀ e ∈ hs, e.tier = 0) :
    hoist (hs ++ es) = hs ++ hoist es := by
  have hfront : ∀ t, hs.filter (·.tier == t) = if t = 0 then hs else [] := by
    intro t
    split
    · subst t
      exact List.filter_eq_self.mpr fun e he => by simp [h e he]
    · exact List.filter_eq_nil_iff.mpr fun e he => by simp [h e he]; omega
  simp only [hoist, List.filter_append, hfront]
  rw [show List.range 6 = 0 :: [1, 2, 3, 4, 5] from rfl]
  simp

theorem mem_prefix_of_tier_lt {pre post : List Element} {e x : Element}
    (hs : (pre ++ e :: post).Pairwise fun a b => a.tier ≤ b.tier) (hx : x ∈ pre ++ e :: post)
    (ht : x.tier < e.tier) : x ∈ pre := by
  rcases List.mem_append.mp hx with hx | hx
  · exact hx
  · rcases List.mem_cons.mp hx with rfl | hx
    · exact absurd ht (Nat.lt_irrefl _)
    · have := (List.pairwise_cons.mp (List.pairwise_append.mp hs).2.1).1 x hx
      omega

end Hoist

/-! ### Deduplication -/

section Dedup

variable {seen : List String} {defined : List (String × String)} {es out : List Element}

private theorem map_cons_eq_ok {e : Element} {x : Except Error (List Element)}
    {out : List Element} (h : (e :: ·) <$> x = .ok out) :
    ∃ rest, x = .ok rest ∧ out = e :: rest := by
  cases x with
  | error => simp [Functor.map, Except.map] at h
  | ok rest =>
    simp only [Functor.map, Except.map, Except.ok.injEq] at h
    exact ⟨rest, rfl, h.symm⟩

theorem dedupAfter_cons {e : Element} (h : dedupAfter seen defined (e :: es) = .ok out) :
    (e.isDeduplicated = false ∧ ∃ rest, dedupAfter seen defined es = .ok rest ∧ out = e :: rest) ∨
    (e.isDeduplicated = true ∧ e.render ∈ seen ∧ dedupAfter seen defined es = .ok out) ∨
    (e.isDeduplicated = true ∧ e.render ∉ seen ∧ ∃ defined' rest,
      dedupAfter (e.render :: seen) defined' es = .ok rest ∧ out = e :: rest) := by
  unfold dedupAfter at h
  by_cases hd : e.isDeduplicated
  · simp only [hd, Bool.not_true, Bool.false_eq_true, if_false] at h
    by_cases hs : seen.contains e.render
    · simp only [hs, if_true] at h
      exact .inr (.inl ⟨hd, by simpa using hs, h⟩)
    · simp only [hs, Bool.false_eq_true, if_false] at h
      refine .inr (.inr ⟨hd, by simpa using hs, ?_⟩)
      split at h
      · obtain ⟨rest, hr, rfl⟩ := map_cons_eq_ok h
        exact ⟨defined, rest, hr, rfl⟩
      · split at h
        · cases h
        · obtain ⟨rest, hr, rfl⟩ := map_cons_eq_ok h
          exact ⟨_, rest, hr, rfl⟩
  · simp only [Bool.not_eq_true] at hd
    simp only [hd, Bool.not_false, if_true] at h
    obtain ⟨rest, hr, rfl⟩ := map_cons_eq_ok h
    exact .inl ⟨hd, rest, hr, rfl⟩

private theorem map_cons_eq_error {e : Element} {x : Except Error (List Element)} {err : Error}
    (h : (e :: ·) <$> x = .error err) : x = .error err := by
  cases x with
  | error => simpa [Functor.map, Except.map] using h
  | ok rest => simp [Functor.map, Except.map] at h

theorem dedupAfter_eq_error {err : Error} (h : dedupAfter seen defined es = .error err) :
    ∃ name first second, err = .conflictingDefinition name first second := by
  induction es generalizing seen defined with
  | nil => simp [dedupAfter] at h
  | cons e es ih =>
    unfold dedupAfter at h
    dsimp only at h
    split at h
    · exact ih (map_cons_eq_error h)
    · split at h
      · exact ih h
      · split at h
        · exact ih (map_cons_eq_error h)
        · split at h
          · cases h
            exact ⟨_, _, _, rfl⟩
          · exact ih (map_cons_eq_error h)

theorem dedupAfter_sublist (h : dedupAfter seen defined es = .ok out) : out.Sublist es := by
  induction es generalizing seen defined out with
  | nil =>
    simp only [dedupAfter, Except.ok.injEq] at h
    simp [← h]
  | cons e es ih =>
    rcases dedupAfter_cons h with ⟨_, rest, hr, rfl⟩ | ⟨_, _, hr⟩ | ⟨_, _, _, rest, hr, rfl⟩
    · exact (ih hr).cons_cons e
    · exact (ih hr).cons e
    · exact (ih hr).cons_cons e

theorem dedupAfter_fresh (h : dedupAfter seen defined es = .ok out) :
    (∀ e ∈ out, e.isDeduplicated = true → e.render ∉ seen) ∧
      out.Pairwise (fun a b => a.isDeduplicated = true → b.isDeduplicated = true →
        a.render ≠ b.render) := by
  induction es generalizing seen defined out with
  | nil =>
    simp only [dedupAfter, Except.ok.injEq] at h
    simp [← h]
  | cons e es ih =>
    rcases dedupAfter_cons h with ⟨hd, rest, hr, rfl⟩ | ⟨_, _, hr⟩ | ⟨hd, hs, _, rest, hr, rfl⟩
    · obtain ⟨hfresh, hpair⟩ := ih hr
      refine ⟨?_, List.pairwise_cons.mpr ⟨fun b _ ha => by simp [hd] at ha, hpair⟩⟩
      intro x hx
      rcases List.mem_cons.mp hx with rfl | hx
      · simp [hd]
      · exact hfresh x hx
    · exact ih hr
    · obtain ⟨hfresh, hpair⟩ := ih hr
      refine ⟨?_, List.pairwise_cons.mpr ⟨?_, hpair⟩⟩
      · intro x hx
        rcases List.mem_cons.mp hx with rfl | hx
        · exact fun _ => hs
        · exact fun hxd hxs => hfresh x hx hxd (List.mem_cons_of_mem _ hxs)
      · intro b hb _ hbd heq
        exact hfresh b hb hbd (heq ▸ List.mem_cons_self)

theorem dedupAfter_append_of_fresh {hs : List Element}
    (hd : ∀ e ∈ hs, e.isDeduplicated = true ∧ e.definedName? = none ∧ e.render ∉ seen)
    (hp : hs.Pairwise (fun a b => a.render ≠ b.render))
    (h : dedupAfter seen defined (hs ++ es) = .ok out) :
    ∃ rest, out = hs ++ rest ∧ rest.Sublist es := by
  induction hs generalizing seen out with
  | nil => exact ⟨out, rfl, dedupAfter_sublist h⟩
  | cons e hs ih =>
    obtain ⟨he, hn, hs'⟩ := hd e List.mem_cons_self
    obtain ⟨hne, hp⟩ := List.pairwise_cons.mp hp
    unfold dedupAfter at h
    simp only [List.cons_append, he, Bool.not_true, Bool.false_eq_true, if_false, hn] at h
    simp only [List.contains_iff_mem, hs', if_false] at h
    obtain ⟨rest, hr, rfl⟩ := map_cons_eq_ok h
    have hd' : ∀ x ∈ hs, x.isDeduplicated = true ∧ x.definedName? = none ∧
        x.render ∉ e.render :: seen := by
      intro x hx
      obtain ⟨h1, h2, h3⟩ := hd x (List.mem_cons_of_mem _ hx)
      refine ⟨h1, h2, ?_⟩
      simp only [List.mem_cons, not_or]
      exact ⟨fun heq => hne x hx heq.symm, h3⟩
    obtain ⟨rest', rfl, hsub⟩ := ih hd' hp hr
    exact ⟨rest', rfl, hsub⟩

/-- In `es`, everything `want e` names is read, before `e`, by a declaration or among `seen`. -/
def ReadBefore (seen : List String) (want : Element → Option String) (es : List Element) : Prop :=
  ∀ pre e post, es = pre ++ e :: post → ∀ text, want e = some text →
    text ∈ seen ∨ ∃ y ∈ pre, y.isDeduplicated = true ∧ y.render = text

private theorem readBefore_tail {want : Element → Option String} {x : Element}
    {seen' : List String} (h : ReadBefore seen want (x :: es))
    (hx : x.isDeduplicated = true → x.render ∈ seen') (hs : ∀ t ∈ seen, t ∈ seen') :
    ReadBefore seen' want es := by
  intro pre e post hes text hw
  rcases h (x :: pre) e post (by simp [hes]) text hw with hin | ⟨y, hy, hyd, rfl⟩
  · exact .inl (hs _ hin)
  · rcases List.mem_cons.mp hy with rfl | hy
    · exact .inl (hx hyd)
    · exact .inr ⟨y, hy, hyd, rfl⟩

/-- Deduplication keeps what stood before every wanted element represented before it. -/
theorem dedupAfter_readBefore {want : Element → Option String}
    (hw : ∀ e, e.isDeduplicated = true → want e = none)
    (h : dedupAfter seen defined es = .ok out) (hr : ReadBefore seen want es) :
    ReadBefore seen want out := by
  induction es generalizing seen defined out with
  | nil =>
    simp only [dedupAfter, Except.ok.injEq] at h
    simpa [← h] using hr
  | cons x es ih =>
    rcases dedupAfter_cons h with ⟨hd, rest, hrest, rfl⟩ | ⟨_, hs, hrest⟩ |
      ⟨hd, _, _, rest, hrest, rfl⟩
    · have hrt := ih hrest (readBefore_tail hr (by simp [hd]) fun _ h => h)
      intro pre e post hes text hwe
      cases pre with
      | nil =>
        simp only [List.nil_append, List.cons.injEq] at hes
        obtain ⟨rfl, rfl⟩ := hes
        simpa using hr [] x es rfl text hwe
      | cons y pre =>
        simp only [List.cons_append, List.cons.injEq] at hes
        obtain ⟨rfl, hes⟩ := hes
        rcases hrt pre e post hes text hwe with hin | ⟨z, hz, hzd, hzt⟩
        · exact .inl hin
        · exact .inr ⟨z, List.mem_cons_of_mem _ hz, hzd, hzt⟩
    · exact ih hrest (readBefore_tail hr (fun _ => hs) fun _ h => h)
    · have hrt := ih hrest (readBefore_tail hr (fun _ => List.mem_cons_self)
        fun _ h => List.mem_cons_of_mem _ h)
      intro pre e post hes text hwe
      cases pre with
      | nil =>
        simp only [List.nil_append, List.cons.injEq] at hes
        obtain ⟨rfl, rfl⟩ := hes
        simp [hw x hd] at hwe
      | cons y pre =>
        simp only [List.cons_append, List.cons.injEq] at hes
        obtain ⟨rfl, hes⟩ := hes
        rcases hrt pre e post hes text hwe with hin | ⟨z, hz, hzd, hzt⟩
        · rcases List.mem_cons.mp hin with rfl | hin
          · exact .inr ⟨x, List.mem_cons_self, hd, rfl⟩
          · exact .inl hin
        · exact .inr ⟨z, List.mem_cons_of_mem _ hz, hzd, hzt⟩

theorem dedup_sublist (h : dedup es = .ok out) : out.Sublist es := dedupAfter_sublist h

theorem dedup_pairwise_render (h : dedup es = .ok out) :
    out.Pairwise (fun a b => a.isDeduplicated = true → b.isDeduplicated = true →
      a.render ≠ b.render) :=
  (dedupAfter_fresh h).2

end Dedup

end ModularC
