import Mathlib.Data.String.Basic
import ModularC.Proofs.Lowering.Defer
import ModularC.Proofs.Lowering.Order
import ModularC.Proofs.Lowering.Surface

/-!
Lowered modules are in the form C takes.
-/

namespace ModularC

/-! ### Settled elements -/

/-- An element as lowering leaves it: no import, `#include`, `#link` or `#type` line; a function
with no `defer`, whose declarator ends in parameters and whose type starts plainly; a typedef with
no inline record; a forward declaration of an identifier. -/
def Element.Settled : Element → Prop
  | .import_ _ | .header _ | .link _ | .typeDirective _ => False
  | .function f => f.deferFree = true ∧ f.form.isFunction = true ∧ f.base.startsPlain = true
  | .typedef t => ∀ p ∈ t.base.parts, p.isInlineRecord = false
  | .recordForward _ tag => isIdentifier tag = true
  | _ => True

theorem Keyword.ofWord?_eq_none_of_head {s : String} (h : s.toList.head? = some '_') :
    Keyword.ofWord? s = none := by
  rw [Keyword.ofWord?, List.find?_eq_none]
  intro k _ hk
  have hs : s = k.spelling := (beq_iff_eq.mp hk).symm
  subst hs
  revert h
  cases k <;> decide

theorem isIdentifier_anonymousTag {a : String} (h : isIdentifier a = true) :
    isIdentifier ("__" ++ a ++ "_struct") = true := by
  simp only [isIdentifier, Bool.and_eq_true, List.all_eq_true, Option.isNone_iff_eq_none] at h ⊢
  refine ⟨?_, Keyword.ofWord?_eq_none_of_head (by simp)⟩
  intro c hc
  simp only [String.toList_append, List.mem_append] at hc
  rcases hc with (hc | hc) | hc
  · simp at hc
    simp [hc, isWordChar]
  · exact h.1 c hc
  · have hs : "_struct".toList = ['_', 's', 't', 'r', 'u', 'c', 't'] := rfl
    rw [hs] at hc
    simp only [List.mem_cons, List.not_mem_nil, or_false] at hc
    rcases hc with rfl | rfl | rfl | rfl | rfl | rfl | rfl <;> rfl

theorem Element.settled_of_mem_split {t : Typedef} {x : Element} (ht : t.WellFormed)
    (hx : x ∈ t.split) : x.Settled := by
  obtain ⟨⟨n, hn, hid⟩, hone, htags⟩ := ht
  rcases Typedef.mem_split hx with ⟨kind, tag, rfl⟩ | ⟨_, _, _, _, rfl⟩ | ⟨t', rfl⟩
  · obtain ⟨a, tag?, fs, ha, hmem, rfl⟩ := Typedef.split_recordForward hx
    rw [hn, Option.some.injEq] at ha
    subst ha
    cases tag? with
    | none => exact isIdentifier_anonymousTag hid
    | some tag => exact htags _ hmem kind tag _ rfl
  · trivial
  · exact Typedef.split_noInlineRecord (by simp [hn]) hone hx

theorem Element.settled_replayDefers {e : Element} (hwf : e.WellFormed) (hi : ∀ i, e ≠ .import_ i)
    (hk : e.keptInC = true) (ht : ∀ t, e ≠ .typedef t) : e.replayDefers.Settled := by
  cases e with
  | function f =>
    obtain ⟨hform, hbase⟩ := hwf
    exact ⟨f.replayDefers_deferFree, by simpa using hform, by simpa using hbase⟩
  | import_ i => exact absurd rfl (hi i)
  | typedef t => exact absurd rfl (ht t)
  | header _ => exact hwf.elim
  | link _ | typeDirective _ => simp [Element.keptInC] at hk
  | recordForward _ _ => exact hwf
  | directive _ | recordDef _ _ _ _ | enumDef _ _ _ | global _ => trivial

theorem Element.replayDefers_eq_typedef {e : Element} {t : Typedef} :
    e.replayDefers = .typedef t ↔ e = .typedef t := by
  cases e <;> simp [Element.replayDefers]

theorem settled_of_mem_lowerElements {es flat : List Element} (hflat : flatten es = .ok flat)
    (hwf : ∀ e ∈ es, e.WellFormed) : ∀ x ∈ lowerElements flat, x.Settled := by
  have hflatwf := flatten_wellFormed hflat hwf
  intro x hx
  rw [lowerElements, mem_extractRecords] at hx
  rcases hx with ⟨t, ht, hxt⟩ | ⟨hx, hnt⟩
  · obtain ⟨e, he, het⟩ := List.mem_map.mp ht
    rw [Element.replayDefers_eq_typedef] at het
    subst het
    have hwft := (hflatwf _ (List.mem_filter.mp he).1).1
    exact Element.settled_of_mem_split hwft hxt
  · obtain ⟨e, he, rfl⟩ := List.mem_map.mp hx
    obtain ⟨hmem, hk⟩ := List.mem_filter.mp he
    obtain ⟨hwfe, hi⟩ := hflatwf e hmem
    refine Element.settled_replayDefers hwfe hi hk ?_
    intro t het
    exact hnt t (Element.replayDefers_eq_typedef.mpr het)

/-! ### Prototypes -/

theorem mem_addPrototypes {x : Element} {es : List Element} :
    x ∈ addPrototypes es ↔
      x ∈ es ∨ ∃ f, .function f ∈ es ∧ f.body.isSome = true ∧ x = .function f.forward := by
  simp only [addPrototypes, List.mem_append, List.mem_filterMap]
  refine or_congr Iff.rfl ⟨?_, ?_⟩
  · rintro ⟨e, he, hx⟩
    cases e with
    | function f =>
      simp only [Option.ite_none_right_eq_some, Option.some.injEq] at hx
      exact ⟨f, he, hx.1, hx.2.symm⟩
    | _ => cases hx
  · rintro ⟨f, hf, hbody, rfl⟩
    exact ⟨.function f, hf, by simp [hbody]⟩

theorem addPrototypes_headers_append (hs : List String) (es : List Element) :
    addPrototypes (hs.map .header ++ es) = hs.map .header ++ addPrototypes es := by
  simp [addPrototypes, List.filterMap_map]

theorem Element.settled_forward {f : FunctionDef} (h : (Element.function f).Settled) :
    (Element.function f.forward).Settled :=
  ⟨by simp [FunctionDef.deferFree, FunctionDef.forward], h.2⟩

/-- The text of the prototype a function definition wants before it. -/
def Element.prototypeText? : Element → Option String
  | .function f => if f.body.isSome then some (Element.function f.forward).render else none
  | _ => none

theorem Element.prototypeText?_eq_none {e : Element} (h : e.isDeduplicated = true) :
    e.prototypeText? = none := by
  cases e with
  | function f =>
    simp only [Element.isDeduplicated, Option.isNone_iff_eq_none] at h
    simp [Element.prototypeText?, h]
  | _ => rfl

theorem readBefore_hoist_addPrototypes (es : List Element) :
    ReadBefore [] Element.prototypeText? (hoist (addPrototypes es)) := by
  intro pre e post heq text hw
  cases e with
  | function f =>
    simp only [Element.prototypeText?, Option.ite_none_right_eq_some, Option.some.injEq] at hw
    obtain ⟨hbody, rfl⟩ := hw
    have hdef : Element.function f ∈ es := by
      have hmem : Element.function f ∈ hoist (addPrototypes es) := by simp [heq]
      rcases mem_addPrototypes.mp (mem_hoist.mp hmem) with hf | ⟨g, _, _, hg⟩
      · exact hf
      · simp only [Element.function.injEq] at hg
        simp [hg, FunctionDef.forward] at hbody
    have hproto : Element.function f.forward ∈ pre ++ .function f :: post := by
      rw [← heq, mem_hoist]
      exact mem_addPrototypes.mpr (.inr ⟨f, hdef, hbody, rfl⟩)
    refine .inr ⟨.function f.forward, ?_, by simp [Element.isDeduplicated, FunctionDef.forward], rfl⟩
    -- the prototype is in tier four, the definition in tier five
    have htier : (Element.function f.forward).tier < (Element.function f).tier := by
      simp [Element.tier, FunctionDef.forward, Option.isSome_iff_ne_none.mp hbody]
    have hsorted := hoist_pairwise_tier (addPrototypes es)
    rw [heq] at hsorted
    exact mem_prefix_of_tier_lt hsorted hproto htier
  | _ => simp [Element.prototypeText?] at hw

/-! ### Headers -/

private theorem nodup_eraseDups {α : Type} [BEq α] [LawfulBEq α] : ∀ l : List α, l.eraseDups.Nodup
  | [] => List.nodup_nil
  | a :: as => by
    have : (as.filter fun b => !b == a).length < as.length + 1 :=
      Nat.lt_succ_of_le (List.length_filter_le _ _)
    rw [List.eraseDups_cons, List.nodup_cons]
    refine ⟨?_, nodup_eraseDups _⟩
    simp [List.mem_eraseDups]
termination_by l => l.length

theorem inferHeaders_pairwise_lt (es : List Element) : (inferHeaders es).Pairwise (· < ·) := by
  have hsorted : (inferHeaders es).Pairwise (· ≤ ·) := by
    have htrans : ∀ a b c : String, decide (a ≤ b) = true → decide (b ≤ c) = true →
        decide (a ≤ c) = true := fun a b c hab hbc => by
      simpa using le_trans (by simpa using hab) (by simpa using hbc)
    have htotal : ∀ a b : String, (decide (a ≤ b) || decide (b ≤ a)) = true := fun a b => by
      simpa using le_total a b
    simpa [inferHeaders] using List.pairwise_mergeSort htrans htotal _
  have hnodup : (inferHeaders es).Nodup :=
    (List.mergeSort_perm _ _).nodup_iff.mpr (nodup_eraseDups _)
  exact (hsorted.and hnodup).imp fun h => lt_of_le_of_ne h.1 h.2

theorem Element.header_render_inj {a b : String}
    (h : (Element.header a).render = (Element.header b).render) : a = b := by
  simpa [Element.render] using h

/-! ### The lowered module -/

/-- The form C takes: no import, `#type` or `#link` line and no `defer`; no typedef with a struct or
union body in place; elements in tier order; no two declarations that read the same; a prototype
before every function definition; and the `#include` lines first, sorted and each once. -/
structure Module.NormalForm (m : Module) : Prop where
  noImport : ∀ i, .import_ i ∉ m.elements
  noTypeDirective : ∀ n, .typeDirective n ∉ m.elements
  noLink : ∀ n, .link n ∉ m.elements
  deferFree : ∀ f, .function f ∈ m.elements → f.deferFree = true
  noInlineRecord : ∀ t, .typedef t ∈ m.elements → ∀ p ∈ t.base.parts, p.isInlineRecord = false
  tierSorted : m.elements.Pairwise fun a b => a.tier ≤ b.tier
  distinct : m.elements.Pairwise fun a b =>
    a.isDeduplicated = true → b.isDeduplicated = true → a.render ≠ b.render
  prototyped : ∀ pre f post, m.elements = pre ++ .function f :: post → f.body.isSome = true →
    ∃ g, .function g ∈ pre ∧ g.body = none ∧
      (Element.function g).render = (Element.function f.forward).render
  headersFirst : ∃ (hs : List String) (rest : List Element), m.elements = hs.map .header ++ rest ∧
    (∀ h, .header h ∉ rest) ∧ hs.Pairwise (· < ·)

theorem Module.lower_eq_ok {m : Module} {l : Lowered} (h : m.lower = .ok l) :
    ∃ flat, flatten m.elements = .ok flat ∧
      l.links = (flat.filterMap Element.linkName?).eraseDups ∧
      dedup (hoist (addPrototypes ((inferHeaders (lowerElements flat)).map .header ++
        lowerElements flat))) = .ok l.module.elements := by
  unfold Module.lower at h
  obtain ⟨flat, hflat, h⟩ := Except.bind_eq_ok h
  obtain ⟨es, hes, h⟩ := Except.bind_eq_ok h
  cases h
  exact ⟨flat, hflat, rfl, hes⟩

theorem Module.normalForm_of_settled {body : List Element} {m : Module}
    (hbody : ∀ x ∈ body, x.Settled)
    (h : dedup (hoist (addPrototypes ((inferHeaders body).map .header ++ body))) = .ok m.elements) :
    m.NormalForm := by
  have hlt := inferHeaders_pairwise_lt body
  -- the headers stay in front through prototypes, hoisting and deduplication
  have hfront : hoist (addPrototypes ((inferHeaders body).map .header ++ body)) =
      (inferHeaders body).map .header ++ hoist (addPrototypes body) := by
    rw [addPrototypes_headers_append, hoist_append_of_tier_zero (by simp [Element.tier])]
  have h' : dedupAfter [] [] ((inferHeaders body).map .header ++ hoist (addPrototypes body)) =
      .ok m.elements := by
    rw [← hfront]
    exact h
  obtain ⟨rest, hrest, hsub⟩ := dedupAfter_append_of_fresh
    (by simp [Element.isDeduplicated, Element.definedName?])
    (List.pairwise_map.mpr (hlt.imp fun hab heq => ne_of_lt hab (Element.header_render_inj heq))) h'
  have hsettled : ∀ x ∈ rest, x.Settled := by
    intro x hx
    rcases mem_addPrototypes.mp (mem_hoist.mp (hsub.subset hx)) with hx | ⟨f, hf, -, rfl⟩
    · exact hbody x hx
    · exact Element.settled_forward (hbody _ hf)
  have hall : ∀ x ∈ m.elements, (∃ n, x = .header n) ∨ x.Settled := by
    intro x hx
    rw [hrest] at hx
    rcases List.mem_append.mp hx with hx | hx
    · obtain ⟨n, -, rfl⟩ := List.mem_map.mp hx
      exact .inl ⟨n, rfl⟩
    · exact .inr (hsettled x hx)
  have hsettledOf : ∀ x ∈ m.elements, (∀ n, x ≠ .header n) → x.Settled := by
    intro x hx hne
    rcases hall x hx with ⟨n, rfl⟩ | hs
    · exact absurd rfl (hne n)
    · exact hs
  refine ⟨?noImport, ?noTypeDirective, ?noLink, ?deferFree, ?noInlineRecord, ?tierSorted,
    ?distinct, ?prototyped, ⟨inferHeaders body, rest, hrest, fun n hn => hsettled _ hn, hlt⟩⟩
  case noImport => exact fun i hi => hsettledOf _ hi (by intro n hn; cases hn)
  case noTypeDirective => exact fun n hn => hsettledOf _ hn (by intro n hn; cases hn)
  case noLink => exact fun n hn => hsettledOf _ hn (by intro n hn; cases hn)
  case deferFree => exact fun f hf => (hsettledOf _ hf (by intro n hn; cases hn)).1
  case noInlineRecord => exact fun t ht => hsettledOf _ ht (by intro n hn; cases hn)
  case tierSorted => exact (hoist_pairwise_tier _).sublist (dedup_sublist h)
  case distinct => exact dedup_pairwise_render h
  case prototyped =>
    intro pre f post heq hdef
    have hread := dedupAfter_readBefore (fun _ => Element.prototypeText?_eq_none) h
      (readBefore_hoist_addPrototypes _)
    rcases hread pre (.function f) post heq (Element.function f.forward).render
      (by simp [Element.prototypeText?, hdef]) with
      hnil | ⟨y, hy, hyd, hyr⟩
    · cases hnil
    have hf : (Element.function f).Settled := hsettledOf _ (by simp [heq]) (by intro n hn; cases hn)
    have hymem : y ∈ m.elements := by simp [heq, hy]
    have htag : ∀ kind tag, y = .recordForward kind tag → isIdentifier tag = true := by
      rintro kind tag rfl
      exact hsettledOf _ hymem (by intro n hn; cases hn)
    obtain ⟨g, rfl, hg⟩ := Element.eq_prototype_of_render_eq hyd htag hf.2.1 hf.2.2 hyr
    exact ⟨g, hy, hg, hyr⟩

/-- Lowering a well-formed module gives a module in normal form, and the libraries its `#link`
lines name, each once in order of first mention. -/
theorem Module.lower_normalForm {m : Module} {l : Lowered} (hwf : m.WellFormed)
    (h : m.lower = .ok l) :
    l.module.NormalForm ∧ l.links = (m.elements.filterMap Element.linkName?).eraseDups := by
  have hwf := Module.wellFormed_iff.mp hwf
  obtain ⟨flat, hflat, hlinks, hdedup⟩ := Module.lower_eq_ok h
  refine ⟨Module.normalForm_of_settled (settled_of_mem_lowerElements hflat hwf) hdedup, ?_⟩
  rw [hlinks, flatten_linkNames hflat hwf]

/-- A module with a `#link` line, a typedef of an anonymous struct, and a function that defers a
call. -/
def deferSample : Module :=
  ⟨"main", "main.c",
    [.link "m",
     .typedef ⟨false, ⟨[.record ⟨.struct, none, some (.fields
        [⟨⟨[.keyword .int]⟩, [⟨⟨[], .name "x", []⟩, none⟩]⟩])⟩]⟩, ⟨[], .name "point", []⟩⟩,
     .function ⟨false, ⟨[.keyword .int]⟩, ⟨[], .name "main", [.params ⟨[], false⟩]⟩,
        some [.defer (.call (.ident "f") []), .return_ (some (.literal (.number "0")))]⟩],
    ["point"]⟩

theorem deferSample_lower_normalForm :
    ∃ l, deferSample.lower = .ok l ∧ l.module.NormalForm ∧ l.links = ["m"] := by
  have hwf : deferSample.WellFormed := by
    simp [deferSample, Module.WellFormed, Element.WellFormed, Typedef.WellFormed, Typedef.name?,
      Form.name?, FormCore.name?]
    decide
  cases h : deferSample.lower with
  | error e =>
    have hok : deferSample.lower.toBool = true := by decide +kernel
    simp [h, Except.toBool] at hok
  | ok l =>
    obtain ⟨hnf, hlinks⟩ := Module.lower_normalForm hwf h
    exact ⟨l, rfl, hnf, by rw [hlinks]; rfl⟩

end ModularC
