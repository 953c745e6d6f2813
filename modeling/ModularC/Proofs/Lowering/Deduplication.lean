import ModularC.Proofs.Lowering.NormalForm
import ModularC.Proofs.Syntax.Parsed

/-!
Deduplication exactly (`dedup_eq_ok_iff`), and how it meets hoisting.
-/

namespace ModularC

/-! ### What deduplication keeps -/

/-- The elements deduplication keeps after the texts `seen`: every element that is no deduplicated
declaration, and each declaration whose text neither `seen` nor an earlier declaration has. -/
def dropRepeats (seen : List String) : List Element → List Element
  | [] => []
  | e :: es =>
    if e.isDeduplicated then
      if e.render ∈ seen then dropRepeats seen es else e :: dropRepeats (e.render :: seen) es
    else e :: dropRepeats seen es

namespace Element

theorem isDeduplicated_of_definedName {e : Element} {n : String} (h : e.definedName? = some n) :
    e.isDeduplicated = true := by
  cases e <;> simp_all [definedName?, isDeduplicated]

/-- `a` and `b` do not define one name. -/
def DefinesApart (a b : Element) : Prop :=
  a.definedName? = none ∨ a.definedName? ≠ b.definedName?

theorem DefinesApart.symm {a b : Element} (h : a.DefinesApart b) : b.DefinesApart a := by
  by_cases hb : b.definedName? = none
  · exact .inl hb
  · rcases h with ha | ha
    · exact .inr (by rw [ha]; exact hb)
    · exact .inr (Ne.symm ha)

theorem definesApart_of_definedName_eq_none {a b : Element} (h : a.definedName? = none) :
    a.DefinesApart b :=
  .inl h

end Element

/-- No declaration of `es` defines a name that `defined` has, and no two define one name. -/
def DefinesFresh (defined : List (String × String)) (es : List Element) : Prop :=
  (∀ e ∈ es, ∀ n, e.definedName? = some n → defined.lookup n = none) ∧
    es.Pairwise Element.DefinesApart

section Fresh

variable {defined : List (String × String)} {e : Element} {es : List Element}

private theorem lookup_cons_of_ne {n name text : String} (h : n ≠ name) :
    ((name, text) :: defined).lookup n = defined.lookup n := by
  rw [List.lookup_cons, beq_false_of_ne h]

theorem definesFresh_cons_of_none (h : e.definedName? = none) :
    DefinesFresh defined (e :: es) ↔ DefinesFresh defined es := by
  simp only [DefinesFresh, List.mem_cons, forall_eq_or_imp, h, reduceCtorEq, false_implies,
    implies_true, true_and, List.pairwise_cons, Element.definesApart_of_definedName_eq_none h]

theorem definesFresh_cons_of_some {name text : String} (h : e.definedName? = some name)
    (hfree : defined.lookup name = none) :
    DefinesFresh defined (e :: es) ↔ DefinesFresh ((name, text) :: defined) es := by
  constructor
  · rintro ⟨hout, hpair⟩
    obtain ⟨hne, hpair⟩ := List.pairwise_cons.mp hpair
    refine ⟨fun x hx n hn => ?_, hpair⟩
    have hxn : n ≠ name := by
      rintro rfl
      rcases hne x hx with he | he
      · simp [h] at he
      · exact he (h.trans hn.symm)
    rw [lookup_cons_of_ne hxn]
    exact hout x (List.mem_cons_of_mem _ hx) n hn
  · rintro ⟨hout, hpair⟩
    have hfree' : ∀ x ∈ es, ∀ n, x.definedName? = some n → n ≠ name ∧ defined.lookup n = none := by
      intro x hx n hn
      have := hout x hx n hn
      by_cases hxn : n = name
      · subst hxn
        rw [List.lookup_cons_self] at this
        cases this
      · exact ⟨hxn, by rwa [lookup_cons_of_ne hxn] at this⟩
    refine ⟨?_, List.pairwise_cons.mpr ⟨?_, hpair⟩⟩
    · intro x hx n hn
      rcases List.mem_cons.mp hx with rfl | hx
      · rw [h, Option.some.injEq] at hn
        exact hn ▸ hfree
      · exact (hfree' x hx n hn).2
    · intro x hx
      refine .inr fun heq => ?_
      exact (hfree' x hx name (heq ▸ h)).1 rfl

end Fresh

section Dedup

variable {seen : List String} {defined : List (String × String)} {es ys : List Element}

private theorem map_cons_ok_iff {e : Element} {x : Except Error (List Element)} :
    (e :: ·) <$> x = .ok ys ↔ ∃ rest, x = .ok rest ∧ ys = e :: rest := by
  cases x with
  | error => simp [Functor.map, Except.map]
  | ok rest =>
    simp only [Functor.map, Except.map, Except.ok.injEq]
    exact ⟨fun h => ⟨rest, rfl, h.symm⟩, fun ⟨_, h, hys⟩ => by cases h; exact hys.symm⟩

private theorem exists_ok_cons_iff {e : Element} {x : Except Error (List Element)}
    {kept : List Element} {P : Prop} (h : ∀ ys, x = .ok ys ↔ ys = kept ∧ P) :
    (∃ rest, x = .ok rest ∧ ys = e :: rest) ↔ ys = e :: kept ∧ P := by
  constructor
  · rintro ⟨rest, hx, rfl⟩
    obtain ⟨rfl, hp⟩ := (h rest).mp hx
    exact ⟨rfl, hp⟩
  · rintro ⟨rfl, hp⟩
    exact ⟨kept, (h kept).mpr ⟨rfl, hp⟩, rfl⟩

theorem dedupAfter_eq_ok_iff :
    dedupAfter seen defined es = .ok ys ↔
      ys = dropRepeats seen es ∧ DefinesFresh defined (dropRepeats seen es) := by
  induction es generalizing seen defined ys with
  | nil =>
    simp only [dedupAfter, dropRepeats, Except.ok.injEq]
    exact ⟨fun h => ⟨h.symm, by simp [DefinesFresh]⟩, fun h => h.1.symm⟩
  | cons e es ih =>
    unfold dedupAfter dropRepeats
    by_cases hd : e.isDeduplicated
    · by_cases hs : e.render ∈ seen
      · simp only [hd, hs, Bool.not_true, Bool.false_eq_true, if_false, List.contains_iff_mem,
          if_true]
        exact ih
      · simp only [hd, hs, Bool.not_true, Bool.false_eq_true, if_false, List.contains_iff_mem,
          if_true]
        split
        · rename_i hn
          rw [map_cons_ok_iff, definesFresh_cons_of_none hn]
          exact exists_ok_cons_iff fun _ => ih
        · rename_i name hn
          split
          · rename_i first hl
            refine ⟨fun h => (by cases h), ?_⟩
            rintro ⟨-, hout, -⟩
            simp [hout e List.mem_cons_self name hn] at hl
          · rename_i hl
            rw [map_cons_ok_iff, definesFresh_cons_of_some hn hl]
            exact exists_ok_cons_iff fun _ => ih
    · have hn : e.definedName? = none := by
        cases h : e.definedName? with
        | none => rfl
        | some n => exact absurd (Element.isDeduplicated_of_definedName h) hd
      simp only [hd, Bool.not_false, if_true, Bool.false_eq_true, if_false, map_cons_ok_iff,
        definesFresh_cons_of_none hn]
      exact exists_ok_cons_iff fun _ => ih

/-- Deduplication succeeds exactly when no two declarations it keeps define one name, and then
gives what `dropRepeats` keeps. -/
theorem dedup_eq_ok_iff :
    dedup es = .ok ys ↔ ys = dropRepeats [] es ∧ (dropRepeats [] es).Pairwise Element.DefinesApart := by
  rw [dedup, dedupAfter_eq_ok_iff, DefinesFresh]
  simp

theorem dedup_isOk_iff :
    (∃ ys, dedup es = .ok ys) ↔ (dropRepeats [] es).Pairwise Element.DefinesApart := by
  simp only [dedup_eq_ok_iff, exists_eq_left]

end Dedup

/-! ### Facts about what is kept -/

section Repeats

variable {seen seen' : List String} {es : List Element}

theorem dropRepeats_sublist : (dropRepeats seen es).Sublist es := by
  induction es generalizing seen with
  | nil => exact .slnil
  | cons e es ih =>
    unfold dropRepeats
    split
    · split
      · exact ih.cons e
      · exact ih.cons_cons e
    · exact ih.cons_cons e

theorem dropRepeats_congr
    (h : ∀ x ∈ es, x.isDeduplicated = true → (x.render ∈ seen ↔ x.render ∈ seen')) :
    dropRepeats seen es = dropRepeats seen' es := by
  induction es generalizing seen seen' with
  | nil => rfl
  | cons e es ih =>
    have htail : ∀ x ∈ es, x.isDeduplicated = true → (x.render ∈ seen ↔ x.render ∈ seen') :=
      fun x hx => h x (List.mem_cons_of_mem _ hx)
    unfold dropRepeats
    by_cases hd : e.isDeduplicated
    · have he := h e List.mem_cons_self hd
      by_cases hs : e.render ∈ seen
      · simp only [hd, if_true, hs, he.mp hs]
        exact ih htail
      · have hs' : e.render ∉ seen' := fun h' => hs (he.mpr h')
        simp only [hd, if_true, hs, hs', if_false]
        congr 1
        exact ih fun x hx hxd => by simp only [List.mem_cons, htail x hx hxd]
    · simp only [hd, Bool.false_eq_true, if_false]
      congr 1
      exact ih htail

theorem dropRepeats_eq_self
    (hseen : ∀ x ∈ es, x.isDeduplicated = true → x.render ∉ seen)
    (hpair : es.Pairwise fun a b => a.isDeduplicated = true → b.isDeduplicated = true →
      a.render ≠ b.render) :
    dropRepeats seen es = es := by
  induction es generalizing seen with
  | nil => rfl
  | cons e es ih =>
    obtain ⟨hne, hpair⟩ := List.pairwise_cons.mp hpair
    unfold dropRepeats
    by_cases hd : e.isDeduplicated
    · simp only [hd, if_true, hseen e List.mem_cons_self hd, if_false]
      congr 1
      refine ih (fun x hx hxd => ?_) hpair
      simp only [List.mem_cons, not_or]
      exact ⟨fun heq => hne x hx hd hxd heq.symm, hseen x (List.mem_cons_of_mem _ hx) hxd⟩
    · simp only [hd, Bool.false_eq_true, if_false]
      exact congrArg _ (ih (fun x hx => hseen x (List.mem_cons_of_mem _ hx)) hpair)

theorem filter_dropRepeats {p : Element → Bool}
    (hp : ∀ a ∈ es, ∀ b ∈ es, a.isDeduplicated = true → b.isDeduplicated = true →
      a.render = b.render → p a = p b) :
    (dropRepeats seen es).filter p = dropRepeats seen (es.filter p) := by
  induction es generalizing seen with
  | nil => rfl
  | cons e es ih =>
    have hp' : ∀ a ∈ es, ∀ b ∈ es, a.isDeduplicated = true → b.isDeduplicated = true →
        a.render = b.render → p a = p b :=
      fun a ha b hb => hp a (List.mem_cons_of_mem _ ha) b (List.mem_cons_of_mem _ hb)
    by_cases hd : e.isDeduplicated
    · by_cases hs : e.render ∈ seen
      · by_cases hpe : p e
        · simp [dropRepeats, hd, hs, hpe, ih hp']
        · simp [dropRepeats, hd, hs, hpe, ih hp']
      · by_cases hpe : p e
        · simp [dropRepeats, hd, hs, hpe, ih hp']
        · -- `e` is filtered out, and so is every declaration that reads like it
          simp only [dropRepeats, hd, hs, if_true, if_false, List.filter_cons, hpe,
            Bool.false_eq_true, ih hp']
          refine dropRepeats_congr fun x hx hxd => ?_
          obtain ⟨hxes, hpx⟩ := List.mem_filter.mp hx
          simp only [List.mem_cons, or_iff_right_iff_imp]
          intro heq
          have := hp x (List.mem_cons_of_mem _ hxes) e List.mem_cons_self hxd hd heq
          simp [hpe, hpx] at this
    · by_cases hpe : p e
      · simp [dropRepeats, hd, hpe, ih hp']
      · simp [dropRepeats, hd, hpe, ih hp']

end Repeats

/-! ### Lists sorted by tier -/

section Sorted

theorem eq_of_tierSorted {l₁ l₂ : List Element} (h₁ : l₁.Pairwise fun a b => a.tier ≤ b.tier)
    (h₂ : l₂.Pairwise fun a b => a.tier ≤ b.tier)
    (hf : ∀ t, l₁.filter (·.tier == t) = l₂.filter (·.tier == t)) : l₁ = l₂ := by
  induction l₁ generalizing l₂ with
  | nil =>
    cases l₂ with
    | nil => rfl
    | cons y l₂ =>
      have := hf y.tier
      simp at this
  | cons x l₁ ih =>
    cases l₂ with
    | nil =>
      have := hf x.tier
      simp at this
    | cons y l₂ =>
      obtain ⟨hx, hl₁⟩ := List.pairwise_cons.mp h₁
      obtain ⟨hy, hl₂⟩ := List.pairwise_cons.mp h₂
      -- the heads share the lowest tier of both lists
      have hxy : x.tier = y.tier := by
        have hxmem : x ∈ (y :: l₂).filter (·.tier == x.tier) := by
          rw [← hf x.tier]
          simp
        have hymem : y ∈ (x :: l₁).filter (·.tier == y.tier) := by
          rw [hf y.tier]
          simp
        simp only [List.mem_filter, List.mem_cons, beq_self_eq_true, and_true] at hxmem hymem
        rcases hxmem with rfl | hxl
        · rfl
        rcases hymem with rfl | hyl
        · rfl
        exact Nat.le_antisymm (hx y hyl) (hy x hxl)
      have hhead := hf x.tier
      simp only [List.filter_cons, beq_self_eq_true, if_true, hxy] at hhead
      obtain ⟨rfl, -⟩ := List.cons.inj hhead
      refine congrArg _ (ih hl₁ hl₂ fun t => ?_)
      have ht := hf t
      by_cases hxt : x.tier = t
      · simpa [List.filter_cons, hxt] using ht
      · simpa [List.filter_cons, hxt] using ht

theorem hoist_eq_self {l : List Element} (h : l.Pairwise fun a b => a.tier ≤ b.tier) :
    hoist l = l :=
  eq_of_tierSorted (hoist_pairwise_tier l) h (filter_hoist l)

theorem pairwise_iff_filter_tier {R : Element → Element → Prop}
    (hR : ∀ a b, a.tier ≠ b.tier → R a b) {l : List Element} :
    l.Pairwise R ↔ ∀ t, (l.filter (·.tier == t)).Pairwise R := by
  constructor
  · exact fun h t => h.filter _
  · intro h
    induction l with
    | nil => exact .nil
    | cons x l ih =>
      refine List.pairwise_cons.mpr ⟨fun y hy => ?_, ih fun t => ?_⟩
      · by_cases hxy : x.tier = y.tier
        · have hx := h x.tier
          simp only [List.filter_cons, beq_self_eq_true, if_true, List.pairwise_cons] at hx
          exact hx.1 y (List.mem_filter.mpr ⟨hy, by simp [hxy]⟩)
        · exact hR x y hxy
      · have ht := h t
        by_cases hxt : x.tier = t
        · simp only [List.filter_cons, hxt, beq_self_eq_true, if_true] at ht
          exact (List.pairwise_cons.mp ht).2
        · simpa [List.filter_cons, hxt] using ht

end Sorted

theorem Element.tier_eq_of_definedName {a b : Element} {n : String} (ha : a.definedName? = some n)
    (hb : b.definedName? = some n) : a.tier = b.tier := by
  have hhead : ∀ e : Element, e.definedName? = some n →
      (e.tier = 2 ∧ n.toList.head? = some 't') ∨ (e.tier = 3 ∧ n.toList.head? ≠ some 't') := by
    intro e he
    cases e with
    | typedef t =>
      simp only [definedName?, Option.map_eq_some_iff] at he
      obtain ⟨x, -, rfl⟩ := he
      exact .inl ⟨rfl, by simp⟩
    | recordDef _ kind name _ =>
      simp only [definedName?, Option.some.injEq] at he
      subst he
      exact .inr ⟨rfl, by cases kind <;> simp [RecordKind.spelling]⟩
    | enumDef _ name _ =>
      simp only [definedName?, Option.some.injEq] at he
      subst he
      exact .inr ⟨rfl, by simp⟩
    | _ => simp [definedName?] at he
  rcases hhead a ha with ⟨h₁, h₂⟩ | ⟨h₁, h₂⟩ <;> rcases hhead b hb with ⟨h₃, h₄⟩ | ⟨h₃, h₄⟩
  · omega
  · exact absurd h₂ h₄
  · exact absurd h₄ h₂
  · omega

theorem Element.definesApart_of_tier_ne {a b : Element} (h : a.tier ≠ b.tier) : a.DefinesApart b := by
  cases ha : a.definedName? with
  | none => exact .inl ha
  | some n =>
    refine .inr fun hab => h (Element.tier_eq_of_definedName ha (hab ▸ ha))

/-! ### Deduplicating twice -/

/-- Hoisting and deduplicating a list, then hoisting and deduplicating what came out, gives it
back. -/
theorem dedup_hoist_idempotent :
    (∀ xs ys, dedup (hoist xs) = .ok ys → dedup (hoist ys) = .ok ys) ∧
      ∀ (m : Module) l, m.lower = .ok l →
        dedup (hoist l.module.elements) = .ok l.module.elements := by
  have hfixed : ∀ xs ys, dedup (hoist xs) = .ok ys → dedup (hoist ys) = .ok ys := by
    intro xs ys h
    obtain ⟨rfl, hapart⟩ := dedup_eq_ok_iff.mp h
    have hsorted := (hoist_pairwise_tier xs).sublist
      (dropRepeats_sublist : (dropRepeats [] (hoist xs)).Sublist _)
    have hkeep : dropRepeats [] (dropRepeats [] (hoist xs)) = dropRepeats [] (hoist xs) :=
      dropRepeats_eq_self (by simp) (dedup_pairwise_render h)
    rw [hoist_eq_self hsorted, dedup_eq_ok_iff, hkeep]
    exact ⟨rfl, hapart⟩
  refine ⟨hfixed, fun m l h => ?_⟩
  obtain ⟨_, _, _, hdedup⟩ := Module.lower_eq_ok h
  exact hfixed _ _ hdedup

/-- Two files' declarations merged: a variable, a typedef and a forward declaration, then the same
typedef again, a prototype, and the same forward declaration again. -/
def mergedDeclarations : List Element :=
  [.global ⟨⟨[.keyword .int]⟩, [⟨⟨[], .name "v", []⟩, none⟩]⟩,
   .typedef ⟨false, ⟨[.keyword .int]⟩, ⟨[], .name "t", []⟩⟩,
   .recordForward .struct "s",
   .typedef ⟨false, ⟨[.keyword .int]⟩, ⟨[], .name "t", []⟩⟩,
   .function ⟨false, ⟨[.keyword .void]⟩,
     ⟨[], .name "f", [.params ⟨[⟨⟨[.keyword .void]⟩, ⟨[], .anonymous, []⟩⟩], false⟩]⟩, none⟩,
   .recordForward .struct "s"]

/-- What hoisting and deduplication keep of `mergedDeclarations`, in tier order. -/
def mergedDeclarationsKept : List Element :=
  [.recordForward .struct "s",
   .typedef ⟨false, ⟨[.keyword .int]⟩, ⟨[], .name "t", []⟩⟩,
   .function ⟨false, ⟨[.keyword .void]⟩,
     ⟨[], .name "f", [.params ⟨[⟨⟨[.keyword .void]⟩, ⟨[], .anonymous, []⟩⟩], false⟩]⟩, none⟩,
   .global ⟨⟨[.keyword .int]⟩, [⟨⟨[], .name "v", []⟩, none⟩]⟩]

theorem mergedDeclarations_dedup_hoist_idempotent :
    dedup (hoist mergedDeclarations) = .ok mergedDeclarationsKept ∧
      dedup (hoist mergedDeclarationsKept) = .ok mergedDeclarationsKept :=
  ⟨rfl, dedup_hoist_idempotent.1 mergedDeclarations _ rfl⟩

/-! ### Texts that show their tier -/

/-- Whether an element's text shows its tier among the declarations deduplication keeps once: a
forward declaration names an identifier, and a function's declarator ends in its parameters after a
type that starts plainly. -/
def Element.showsTier : Element → Bool
  | .recordForward _ tag => isIdentifier tag
  | .function f => f.form.isFunction && f.base.startsPlain
  | _ => true

/-- The tier that the text of a declaration other than a prototype shows: `#include` lines,
forward declarations, typedefs, then record and enum definitions, told apart by their first
character and by a brace. -/
def textTier (s : String) : Nat :=
  match s.toList.head? with
  | some '#' => 0
  | some 't' => 2
  | _ => if '{' ∈ s.toList then 3 else 1

private theorem RecordKind.head_spelling (kind : RecordKind) :
    ∃ c rest, kind.spelling.toList = c :: rest ∧ c ≠ '#' ∧ c ≠ 't' ∧ c ≠ '{' ∧ '{' ∉ rest := by
  cases kind
  · exact ⟨'s', "truct".toList, rfl, by decide, by decide, by decide, by decide⟩
  · exact ⟨'u', "nion".toList, rfl, by decide, by decide, by decide, by decide⟩
  · exact ⟨'e', "num".toList, rfl, by decide, by decide, by decide, by decide⟩

theorem Element.tier_eq_textTier {e : Element} (hd : e.isDeduplicated = true)
    (hs : e.showsTier = true) (hf : ∀ f, e ≠ .function f) : e.tier = textTier e.render := by
  cases e with
  | header h => simp [render, textTier, tier]
  | typedef t => simp [render, textTier, tier]
  | recordForward kind tag =>
    obtain ⟨c, rest, hk, hc, ht, hcb, hrb⟩ := kind.head_spelling
    have htag : '{' ∉ tag.toList := by
      simp only [showsTier, isIdentifier, Bool.and_eq_true, List.all_eq_true] at hs
      intro hmem
      simpa [isWordChar] using hs.1 _ hmem
    simp [render, textTier, tier, hk, hc, ht, Ne.symm hcb, hrb, htag]
  | recordDef _ kind name fields =>
    obtain ⟨c, rest, hk, hc, ht, -, -⟩ := kind.head_spelling
    simp [render, textTier, tier, hk, hc, ht, Declaration.renderFields, Print.braced]
  | enumDef _ name items =>
    simp [render, textTier, tier, Enumerator.renderBlock, Print.enumBraces]
  | function f => exact absurd rfl (hf f)
  | import_ | directive | typeDirective | link | global => simp [isDeduplicated] at hd

theorem Element.tier_eq_of_render_eq {a b : Element} (ha : a.isDeduplicated = true)
    (hb : b.isDeduplicated = true) (hsa : a.showsTier = true) (hsb : b.showsTier = true)
    (h : a.render = b.render) : a.tier = b.tier := by
  have hproto : ∀ {x y : Element} (f : FunctionDef), x = .function f → x.isDeduplicated = true →
      x.showsTier = true → y.isDeduplicated = true → y.showsTier = true → y.render = x.render →
      x.tier = y.tier := by
    intro x y f hx hxd hxs hyd hys hr
    subst hx
    have hbody : f.body = none := by simpa [isDeduplicated] using hxd
    have hfwd : f.forward = f := by
      obtain ⟨_, _, _, body⟩ := f
      simp only at hbody
      simp [FunctionDef.forward, hbody]
    simp only [showsTier, Bool.and_eq_true] at hxs
    have htag : ∀ kind tag, y = .recordForward kind tag → isIdentifier tag = true := by
      rintro kind tag rfl
      exact hys
    obtain ⟨g, rfl, hg⟩ := Element.eq_prototype_of_render_eq hyd htag hxs.1 hxs.2 (hfwd ▸ hr)
    simp [tier, hbody, hg]
  by_cases hfa : ∃ f, a = .function f
  · obtain ⟨f, hf⟩ := hfa
    exact hproto f hf ha hsa hb hsb h.symm
  by_cases hfb : ∃ g, b = .function g
  · obtain ⟨g, hg⟩ := hfb
    exact (hproto g hg hb hsb ha hsa h).symm
  simp only [not_exists] at hfa hfb
  rw [Element.tier_eq_textTier ha hsa hfa, Element.tier_eq_textTier hb hsb hfb, h]

theorem dropRepeats_hoist {xs : List Element}
    (h : ∀ a ∈ xs, ∀ b ∈ xs, a.isDeduplicated = true → b.isDeduplicated = true →
      a.render = b.render → a.tier = b.tier) :
    dropRepeats [] (hoist xs) = hoist (dropRepeats [] xs) := by
  refine eq_of_tierSorted ((hoist_pairwise_tier xs).sublist dropRepeats_sublist)
    (hoist_pairwise_tier _) fun t => ?_
  have hcompat : ∀ l : List Element, (∀ x ∈ l, x ∈ xs) →
      ∀ a ∈ l, ∀ b ∈ l, a.isDeduplicated = true → b.isDeduplicated = true →
        a.render = b.render → (a.tier == t) = (b.tier == t) := by
    intro l hl a ha b hb hda hdb hr
    rw [h a (hl a ha) b (hl b hb) hda hdb hr]
  rw [filter_dropRepeats (hcompat _ fun x hx => mem_hoist.mp hx), filter_hoist, filter_hoist,
    filter_dropRepeats (hcompat _ fun x hx => hx)]

/-- Where declarations that read alike stand in one tier, hoisting and deduplication commute: both
orders fail together, and otherwise give the same list. -/
theorem dedup_hoist_comm {xs : List Element} (hxs : ∀ e ∈ xs, e.showsTier = true) :
    ((∃ ys, dedup (hoist xs) = .ok ys) ↔ ∃ ys, dedup xs = .ok ys) ∧
      ∀ ys, dedup xs = .ok ys → dedup (hoist xs) = .ok (hoist ys) := by
  have hcomm := dropRepeats_hoist fun a ha b hb hda hdb hr =>
    Element.tier_eq_of_render_eq hda hdb (hxs a ha) (hxs b hb) hr
  -- names are defined once in the hoisted list exactly when in the list itself
  have hapart : (hoist (dropRepeats [] xs)).Pairwise Element.DefinesApart ↔
      (dropRepeats [] xs).Pairwise Element.DefinesApart := by
    rw [pairwise_iff_filter_tier fun _ _ => Element.definesApart_of_tier_ne,
      pairwise_iff_filter_tier fun _ _ => Element.definesApart_of_tier_ne]
    simp only [filter_hoist]
  refine ⟨?_, fun ys h => ?_⟩
  · rw [dedup_isOk_iff, dedup_isOk_iff, hcomm, hapart]
  · obtain ⟨rfl, hp⟩ := dedup_eq_ok_iff.mp h
    rw [dedup_eq_ok_iff, hcomm]
    exact ⟨rfl, hapart.mpr hp⟩

theorem mergedDeclarations_dedup_hoist_comm :
    (∀ e ∈ mergedDeclarations, e.showsTier = true) ∧
      ((∃ ys, dedup (hoist mergedDeclarations) = .ok ys) ↔ ∃ ys, dedup mergedDeclarations = .ok ys) ∧
      ∀ ys, dedup mergedDeclarations = .ok ys → dedup (hoist mergedDeclarations) = .ok (hoist ys) :=
  ⟨by decide, dedup_hoist_comm (by decide)⟩

/-! ### Lists the parser and lowering build -/

theorem Element.WellFormed.showsTier {e : Element} (h : e.WellFormed) : e.showsTier = true := by
  cases e with
  | recordForward _ tag => exact h
  | function f => simpa [Element.showsTier, Element.WellFormed] using h
  | header _ => exact h.elim
  | _ => rfl

theorem Element.Settled.showsTier {e : Element} (h : e.Settled) : e.showsTier = true := by
  cases e with
  | recordForward _ tag => exact h
  | function f => simpa [Element.showsTier] using h.2
  | _ => rfl

theorem Module.parse_showsTier {source path : String} {names : TypeNames} {m : Module}
    (h : Module.parse source names path = .ok m) : ∀ e ∈ m.elements, e.showsTier = true :=
  fun e he => (Module.wellFormed_iff.mp (Module.parse_wellFormed h) e he).showsTier

theorem Pass.apply_showsTier {p : Pass} {es es' : List Element} {hs : Option (List String)}
    (h : p.apply es = .ok (es', hs)) (hes : ∀ e ∈ es, e.showsTier = true)
    (hwf : p = .flatten ∨ p = .surface → ∀ e ∈ es, e.WellFormed) :
    ∀ e ∈ es', e.showsTier = true := by
  cases p with
  | flatten =>
    obtain ⟨flat, hflat, h⟩ := Except.bind_eq_ok h
    cases h
    exact fun e he => (flatten_wellFormed hflat (hwf (.inl rfl)) e he).1.showsTier
  | surface =>
    obtain ⟨s, hsurf, h⟩ := Except.bind_eq_ok h
    cases h
    have hall : Element.AllWellFormed es := Element.allWellFormed_iff.mpr (hwf (.inr rfl))
    exact fun e he => (Element.surfaceAll_mem hsurf hall e he).1.showsTier
  | headers =>
    cases h
    intro e he
    rcases List.mem_append.mp he with he | he
    · obtain ⟨_, -, rfl⟩ := List.mem_map.mp he
      rfl
    · exact hes e he
  | prototypes =>
    cases h
    intro e he
    rcases mem_addPrototypes.mp he with he | ⟨f, hf, -, rfl⟩
    · exact hes e he
    · simpa [Element.showsTier, FunctionDef.forward] using hes _ hf
  | hoist =>
    cases h
    exact fun e he => hes e (mem_hoist.mp he)
  | dedup =>
    obtain ⟨ys, hys, h⟩ := Except.bind_eq_ok h
    cases h
    exact fun e he => hes e ((dedup_sublist hys).subset he)

theorem lowerElements_showsTier {es flat : List Element} (hflat : flatten es = .ok flat)
    (hwf : ∀ e ∈ es, e.WellFormed) :
    ∀ e ∈ addPrototypes ((inferHeaders (lowerElements flat)).map .header ++ lowerElements flat),
      e.showsTier = true := by
  have hsettled := settled_of_mem_lowerElements hflat hwf
  intro e he
  rcases mem_addPrototypes.mp he with he | ⟨f, hf, -, rfl⟩
  · rcases List.mem_append.mp he with he | he
    · obtain ⟨_, -, rfl⟩ := List.mem_map.mp he
      rfl
    · exact (hsettled e he).showsTier
  · rcases List.mem_append.mp hf with hf | hf
    · simp at hf
    · simpa [Element.showsTier, FunctionDef.forward] using (hsettled _ hf).showsTier

end ModularC
