import ModularC.Lowering.Records

/-!
Records split off typedefs (`extractRecords_splits_inlineRecords`).
-/

namespace ModularC

/-- A struct or union written with its fields in place. -/
def TypePart.isInlineRecord : TypePart → Bool
  | .record ⟨kind, _, some (.fields _)⟩ => kind != .enum
  | _ => false

namespace TypePart

variable {a : String} {ps : List TypePart}

private theorem isInlineRecord_eq_false {p : TypePart}
    (hp : ∀ kind tag? fs, p = .record ⟨kind, tag?, some (.fields fs)⟩ → False) :
    p.isInlineRecord = false := by
  unfold isInlineRecord
  split
  · exact absurd rfl (hp _ _ _)
  · rfl

theorem splitRecord_eq_none (h : splitRecord a ps = none) : ∀ p ∈ ps, p.isInlineRecord = false := by
  induction ps using splitRecord.induct a with
  | case1 => simp
  | case2 kind tag? fs ps hk => simp [splitRecord.eq_2, hk] at h
  | case3 kind tag? fs ps hk ih =>
    rw [splitRecord.eq_2, if_neg hk] at h
    intro q hq
    rcases List.mem_cons.mp hq with rfl | hq
    · simpa [isInlineRecord] using hk
    · exact ih (Option.map_eq_none_iff.mp h) q hq
  | case4 p ps hp ih =>
    rw [splitRecord.eq_3 _ _ _ hp] at h
    intro q hq
    rcases List.mem_cons.mp hq with rfl | hq
    · exact isInlineRecord_eq_false hp
    · exact ih (Option.map_eq_none_iff.mp h) q hq

/-- Splitting finds the first inline record: the parts before it hold none, and it is left with
its tag, or `__ALIAS_struct` when it had none, and no body. -/
theorem splitRecord_eq_some {rest : List TypePart} {kind : RecordKind} {tag : String}
    {fs : List Declaration} (h : splitRecord a ps = some (rest, kind, tag, fs)) :
    ∃ pre tag? post, ps = pre ++ .record ⟨kind, tag?, some (.fields fs)⟩ :: post ∧
      (∀ p ∈ pre, p.isInlineRecord = false) ∧ kind ≠ .enum ∧
      tag = tag?.getD ("__" ++ a ++ "_struct") ∧
      rest = pre ++ .record ⟨kind, some tag, none⟩ :: post := by
  induction ps using splitRecord.induct a generalizing rest with
  | case1 => simp [splitRecord] at h
  | case2 kind' tag? fs' ps hk =>
    rw [splitRecord.eq_2, if_pos hk] at h
    simp only [Option.some.injEq, Prod.mk.injEq] at h
    obtain ⟨rfl, rfl, rfl, rfl⟩ := h
    exact ⟨[], tag?, ps, rfl, by simp, by simpa using hk, rfl, rfl⟩
  | case3 kind' tag? fs' ps hk ih =>
    rw [splitRecord.eq_2, if_neg hk] at h
    obtain ⟨⟨rest', r⟩, hr, hrest⟩ := Option.map_eq_some_iff.mp h
    simp only [Prod.mk.injEq] at hrest
    obtain ⟨rfl, rfl⟩ := hrest
    obtain ⟨pre, tag₀, post, rfl, hpre, hne, htag, rfl⟩ := ih hr
    refine ⟨_ :: pre, tag₀, post, rfl, ?_, hne, htag, rfl⟩
    intro q hq
    rcases List.mem_cons.mp hq with rfl | hq
    · simpa [isInlineRecord] using hk
    · exact hpre q hq
  | case4 p ps hp ih =>
    rw [splitRecord.eq_3 _ _ _ hp] at h
    obtain ⟨⟨rest', r⟩, hr, hrest⟩ := Option.map_eq_some_iff.mp h
    simp only [Prod.mk.injEq] at hrest
    obtain ⟨rfl, rfl⟩ := hrest
    obtain ⟨pre, tag₀, post, rfl, hpre, hne, htag, rfl⟩ := ih hr
    refine ⟨p :: pre, tag₀, post, rfl, ?_, hne, htag, rfl⟩
    intro q hq
    rcases List.mem_cons.mp hq with rfl | hq
    · exact isInlineRecord_eq_false hp
    · exact hpre q hq

theorem splitRecord_of_forall (h : ∀ p ∈ ps, p.isInlineRecord = false) : splitRecord a ps = none := by
  induction ps using splitRecord.induct a with
  | case1 => rfl
  | case2 kind tag? fs ps hk =>
    have := h _ (List.mem_cons_self ..)
    simp [isInlineRecord, hk] at this
  | case3 kind tag? fs ps hk ih =>
    rw [splitRecord.eq_2, if_neg hk, ih fun q hq => h q (List.mem_cons_of_mem _ hq)]
    rfl
  | case4 p ps hp ih =>
    rw [splitRecord.eq_3 _ _ _ hp, ih fun q hq => h q (List.mem_cons_of_mem _ hq)]
    rfl

/-- The first inline record is split off wherever it stands: its tag, or `__ALIAS_struct`, is left
in its place with no body. -/
theorem splitRecord_append {pre post : List TypePart} {kind : RecordKind} {tag? : Option String}
    {fs : List Declaration} (hpre : ∀ p ∈ pre, p.isInlineRecord = false) (hk : kind ≠ .enum) :
    splitRecord a (pre ++ .record ⟨kind, tag?, some (.fields fs)⟩ :: post) =
      some (pre ++ .record ⟨kind, some (tag?.getD ("__" ++ a ++ "_struct")), none⟩ :: post, kind,
        tag?.getD ("__" ++ a ++ "_struct"), fs) := by
  induction pre with
  | nil =>
    rw [List.nil_append, splitRecord.eq_2, if_pos (by simpa using hk)]
    rfl
  | cons p pre ih =>
    have hp := hpre p (List.mem_cons_self ..)
    have ih := ih fun q hq => hpre q (List.mem_cons_of_mem _ hq)
    rw [List.cons_append]
    by_cases hrec : ∃ k t f, p = .record ⟨k, t, some (.fields f)⟩
    · obtain ⟨k, t, f, rfl⟩ := hrec
      have hk' : ¬ (k != .enum) = true := by simpa [isInlineRecord] using hp
      rw [splitRecord.eq_2, if_neg hk', ih]
      rfl
    · rw [splitRecord.eq_3 _ _ _ fun k t f h => hrec ⟨k, t, f, h⟩, ih]
      rfl

end TypePart

namespace Typedef

variable {t : Typedef} {e : Element}

theorem mem_split (h : e ∈ t.split) :
    (∃ kind tag, e = .recordForward kind tag) ∨ (∃ exported kind tag fs, e = .recordDef exported kind tag fs) ∨
      ∃ t', e = .typedef t' := by
  unfold split at h
  split at h
  · simp only [List.mem_singleton] at h
    exact .inr (.inr ⟨t, h⟩)
  · split at h
    · simp only [List.mem_singleton] at h
      exact .inr (.inr ⟨t, h⟩)
    · simp only [List.mem_cons, List.not_mem_nil, or_false] at h
      rcases h with rfl | rfl | rfl
      · exact .inl ⟨_, _, rfl⟩
      · exact .inr (.inl ⟨_, _, _, _, rfl⟩)
      · exact .inr (.inr ⟨_, rfl⟩)

theorem split_noInlineRecord {t' : Typedef} (hname : t.name?.isSome)
    (hone : (t.base.parts.filter TypePart.isInlineRecord).length ≤ 1) (h : .typedef t' ∈ t.split) :
    ∀ p ∈ t'.base.parts, p.isInlineRecord = false := by
  obtain ⟨aliasName, ha⟩ := Option.isSome_iff_exists.mp hname
  unfold split at h
  rw [ha] at h
  simp only at h
  split at h
  · rename_i hnone
    simp only [List.mem_singleton, Element.typedef.injEq] at h
    subst h
    exact TypePart.splitRecord_eq_none hnone
  · rename_i parts kind tag fs hsome
    simp only [List.mem_cons, reduceCtorEq, Element.typedef.injEq, List.not_mem_nil, or_false,
      false_or] at h
    subst h
    obtain ⟨pre, tag?, post, hps, hpre, hne, _, rfl⟩ := TypePart.splitRecord_eq_some hsome
    -- the record found is the only inline one, so none is left after it
    have hpost : ∀ p ∈ post, p.isInlineRecord = false := by
      rw [hps, List.filter_append, List.filter_cons] at hone
      have hfirst : TypePart.isInlineRecord (.record ⟨kind, tag?, some (.fields fs)⟩) = true := by
        simpa [TypePart.isInlineRecord] using hne
      rw [List.filter_eq_nil_iff.mpr (fun p hp => by simp [hpre p hp]), if_pos hfirst] at hone
      simp only [List.nil_append, List.length_cons] at hone
      have hnil : post.filter TypePart.isInlineRecord = [] := List.eq_nil_of_length_eq_zero (by omega)
      intro p hp
      simpa using List.filter_eq_nil_iff.mp hnil p hp
    intro p hp
    simp only [List.mem_append, List.mem_cons] at hp
    rcases hp with hp | rfl | hp
    · exact hpre p hp
    · rfl
    · exact hpost p hp

theorem split_recordForward {kind : RecordKind} {tag : String} (h : .recordForward kind tag ∈ t.split) :
    ∃ aliasName tag? fs, t.name? = some aliasName ∧ .record ⟨kind, tag?, some (.fields fs)⟩ ∈ t.base.parts ∧
      tag = tag?.getD ("__" ++ aliasName ++ "_struct") := by
  unfold split at h
  split at h
  · simp at h
  · rename_i aliasName ha
    split at h
    · simp at h
    · rename_i parts kind' tag' fs hsome
      simp only [List.mem_cons, Element.recordForward.injEq, reduceCtorEq, List.not_mem_nil,
        or_false] at h
      obtain ⟨rfl, rfl⟩ := h
      obtain ⟨pre, tag?, post, hps, -, -, htag, -⟩ := TypePart.splitRecord_eq_some hsome
      exact ⟨aliasName, tag?, fs, ha, by simp [hps], htag⟩

theorem split_of_keep (h : t.name? = none ∨ ∀ p ∈ t.base.parts, p.isInlineRecord = false) :
    t.split = [.typedef t] := by
  unfold split
  split
  · rfl
  · rename_i aliasName ha
    rcases h with h | h
    · rw [h] at ha
      cases ha
    · rw [TypePart.splitRecord_of_forall h]

theorem split_of_inline {aliasName : String} {pre post : List TypePart} {kind : RecordKind}
    {tag? : Option String} {fs : List Declaration} (hname : t.name? = some aliasName)
    (hparts : t.base.parts = pre ++ .record ⟨kind, tag?, some (.fields fs)⟩ :: post)
    (hk : kind ≠ .enum) (hpre : ∀ p ∈ pre, p.isInlineRecord = false) :
    t.split = [.recordForward kind (tag?.getD ("__" ++ aliasName ++ "_struct")),
      .recordDef t.exported kind (tag?.getD ("__" ++ aliasName ++ "_struct")) fs,
      .typedef { t with base := ⟨pre ++ .record ⟨kind, some (tag?.getD ("__" ++ aliasName ++ "_struct")),
        none⟩ :: post⟩ }] := by
  unfold split
  rw [hname]
  dsimp only
  rw [hparts, TypePart.splitRecord_append hpre hk]

end Typedef

theorem mem_extractRecords {e : Element} {es : List Element} :
    e ∈ extractRecords es ↔ (∃ t, .typedef t ∈ es ∧ e ∈ t.split) ∨ (e ∈ es ∧ ∀ t, e ≠ .typedef t) := by
  simp only [extractRecords, List.mem_flatMap]
  constructor
  · rintro ⟨x, hx, he⟩
    cases x with
    | typedef t => exact .inl ⟨t, hx, he⟩
    | _ =>
      simp only [List.mem_singleton] at he
      subst he
      exact .inr ⟨hx, fun _ => nofun⟩
  · rintro (⟨t, ht, he⟩ | ⟨he, hne⟩)
    · exact ⟨_, ht, he⟩
    · refine ⟨e, he, ?_⟩
      cases e with
      | typedef t => exact absurd rfl (hne t)
      | _ => simp

@[simp] theorem extractRecords_append {xs ys : List Element} :
    extractRecords (xs ++ ys) = extractRecords xs ++ extractRecords ys :=
  List.flatMap_append

@[simp] theorem extractRecords_typedef {t : Typedef} : extractRecords [.typedef t] = t.split := by
  simp [extractRecords]

theorem extractRecords_of_ne {e : Element} (he : ∀ t, e ≠ .typedef t) : extractRecords [e] = [e] := by
  cases e with
  | typedef t => exact absurd rfl (he t)
  | _ => rfl

theorem extractRecords_of_forall {xs : List Element}
    (h : ∀ t, .typedef t ∈ xs → ∀ p ∈ t.base.parts, p.isInlineRecord = false) :
    extractRecords xs = xs := by
  induction xs with
  | nil => rfl
  | cons e xs ih =>
    have ih := ih fun t ht => h t (List.mem_cons_of_mem _ ht)
    rw [← List.singleton_append, extractRecords_append, ih]
    by_cases he : ∃ t, e = .typedef t
    · obtain ⟨t, rfl⟩ := he
      rw [extractRecords_typedef, Typedef.split_of_keep (.inr (h t (List.mem_cons_self ..)))]
    · rw [extractRecords_of_ne fun t ht => he ⟨t, ht⟩]

theorem extractRecords_noInlineRecord {xs : List Element}
    (h : ∀ t, .typedef t ∈ xs →
      t.name?.isSome ∧ (t.base.parts.filter TypePart.isInlineRecord).length ≤ 1) :
    ∀ t, .typedef t ∈ extractRecords xs → ∀ p ∈ t.base.parts, p.isInlineRecord = false := by
  intro t ht
  rcases mem_extractRecords.mp ht with ⟨t₀, ht₀, hsplit⟩ | ⟨_, hne⟩
  · obtain ⟨hname, hone⟩ := h t₀ ht₀
    exact Typedef.split_noInlineRecord hname hone hsplit
  · exact absurd rfl (hne t)

/-- Record extraction replaces each named typedef whose type holds a struct or union body in place
by three elements: the forward declaration of the record's tag (its own, or `__ALIAS_struct`), the
record's definition, and the typedef with the body taken out and the tag left in its place. Every
other element passes through, in order. When every typedef is named and carries at most one inline
record, as the parser's are, no typedef of the result carries one, and a second extraction changes
nothing. -/
theorem extractRecords_splits_inlineRecords :
    (∀ (t : Typedef) (aliasName : String) (pre post : List TypePart) (kind : RecordKind)
        (tag? : Option String) (fs : List Declaration),
        t.name? = some aliasName →
        t.base.parts = pre ++ .record ⟨kind, tag?, some (.fields fs)⟩ :: post → kind ≠ .enum →
        (∀ p ∈ pre, p.isInlineRecord = false) →
        extractRecords [.typedef t] =
          [.recordForward kind (tag?.getD ("__" ++ aliasName ++ "_struct")),
            .recordDef t.exported kind (tag?.getD ("__" ++ aliasName ++ "_struct")) fs,
            .typedef { t with base := ⟨pre ++ .record ⟨kind,
              some (tag?.getD ("__" ++ aliasName ++ "_struct")), none⟩ :: post⟩ }]) ∧
      (∀ t : Typedef, (t.name? = none ∨ ∀ p ∈ t.base.parts, p.isInlineRecord = false) →
        extractRecords [.typedef t] = [.typedef t]) ∧
      (∀ e : Element, (∀ t, e ≠ .typedef t) → extractRecords [e] = [e]) ∧
      (∀ xs ys, extractRecords (xs ++ ys) = extractRecords xs ++ extractRecords ys) ∧
      ∀ xs, (∀ t, .typedef t ∈ xs →
          t.name?.isSome ∧ (t.base.parts.filter TypePart.isInlineRecord).length ≤ 1) →
        (∀ t, .typedef t ∈ extractRecords xs → ∀ p ∈ t.base.parts, p.isInlineRecord = false) ∧
          extractRecords (extractRecords xs) = extractRecords xs := by
  refine ⟨?_, ?_, fun e he => extractRecords_of_ne he, fun xs ys => extractRecords_append, ?_⟩
  · intro t aliasName pre post kind tag? fs hname hparts hk hpre
    rw [extractRecords_typedef, Typedef.split_of_inline hname hparts hk hpre]
  · intro t h
    rw [extractRecords_typedef, Typedef.split_of_keep h]
  · intro xs h
    have hnone := extractRecords_noInlineRecord h
    exact ⟨hnone, extractRecords_of_forall hnone⟩

/-- The fields of `struct { int x; }`. -/
def pointFields : List Declaration := [⟨⟨[.keyword .int]⟩, [⟨⟨[], .name "x", []⟩, none⟩]⟩]

/-- `typedef struct { int x; } point_t;` -/
def pointTypedef : Typedef :=
  ⟨false, ⟨[.record ⟨.struct, none, some (.fields pointFields)⟩]⟩, ⟨[], .name "point_t", []⟩⟩

/-- `typedef int count_t;` -/
def countTypedef : Typedef := ⟨false, ⟨[.keyword .int]⟩, ⟨[], .name "count_t", []⟩⟩

/-- The anonymous struct of `point_t` is split off under the tag `__point_t_struct`, a plain
typedef and a `#link` line pass through, and extracting again changes nothing. -/
theorem pointTypedef_extractRecords :
    extractRecords [.typedef pointTypedef] =
        [.recordForward .struct "__point_t_struct", .recordDef false .struct "__point_t_struct" pointFields,
          .typedef { pointTypedef with base := ⟨[.record ⟨.struct, some "__point_t_struct", none⟩]⟩ }] ∧
      extractRecords [.typedef countTypedef] = [.typedef countTypedef] ∧
      extractRecords [.link "m"] = [.link "m"] ∧
      extractRecords (extractRecords [.typedef pointTypedef, .link "m"]) =
        extractRecords [.typedef pointTypedef, .link "m"] := by
  have hsplits := extractRecords_splits_inlineRecords
  refine ⟨hsplits.1 pointTypedef "point_t" [] [] .struct none pointFields rfl rfl (by decide)
      (by simp), hsplits.2.1 countTypedef (.inr (by decide)),
    hsplits.2.2.1 (.link "m") (by simp), (hsplits.2.2.2.2 _ ?_).2⟩
  intro t ht
  simp only [List.mem_cons, Element.typedef.injEq, reduceCtorEq, List.not_mem_nil, or_false] at ht
  subst ht
  decide

end ModularC
