import Mathlib.Data.List.Infix
import ModularC.Resolve

/-!
Two runs of resolution that end the same way, compared one call at a time.
-/

namespace ModularC

namespace Resolution

variable {α β : Type}

theorem run_bind_of_ok {x : Resolution α} {f : α → Resolution β} {r r₁ : Resolver} {a : α}
    (h : x.run r = .ok (a, r₁)) : (x >>= f).run r = (f a).run r₁ := by
  rw [StateT.run_bind, h]
  rfl

theorem run_bind_of_error {x : Resolution α} {f : α → Resolution β} {r : Resolver} {e : Error}
    (h : x.run r = .error e) : (x >>= f).run r = .error e := by
  rw [StateT.run_bind, h]
  rfl

theorem run_bind_cases (x : Resolution α) (r : Resolver) :
    (∃ a r₁, x.run r = .ok (a, r₁)) ∨ ∃ e, x.run r = .error e := by
  rcases x.run r with e | ⟨a, r₁⟩
  · exact .inr ⟨e, rfl⟩
  · exact .inl ⟨a, r₁, rfl⟩

/-- From a resolver that `P` accepts, `y` ends as `x` does; `x` keeps the modules listed before
it and satisfies `Q` when it succeeds and `E` when it fails. -/
def Agrees (P : Resolver → Prop) (x y : Resolution α) (Q : α → Resolver → Prop)
    (E : Error → Prop) : Prop :=
  ∀ r, P r → y.run r = x.run r ∧
    (∀ a r', x.run r = .ok (a, r') → r.order <+: r'.order ∧ Q a r') ∧
    ∀ e, x.run r = .error e → E e

namespace Agrees

variable {P : Resolver → Prop} {Q : α → Resolver → Prop} {E : Error → Prop}

theorem mono {S : Resolver → Prop} {Q' : α → Resolver → Prop} {E' : Error → Prop}
    {x y : Resolution α} (h : Agrees P x y Q E) (hP : ∀ r, S r → P r)
    (hQ : ∀ a r, Q a r → Q' a r) (hE : ∀ e, E e → E' e) : Agrees S x y Q' E' := by
  intro r hr
  obtain ⟨heq, hok, herr⟩ := h r (hP r hr)
  refine ⟨heq, fun a r' h => ?_, fun e h => hE e (herr e h)⟩
  obtain ⟨hgrow, hq⟩ := hok a r' h
  exact ⟨hgrow, hQ a r' hq⟩

theorem of_pre {x y : Resolution α} {φ : Prop} (hφ : ∀ r, P r → φ)
    (h : φ → Agrees P x y Q E) : Agrees P x y Q E :=
  fun r hr => h (hφ r hr) r hr

theorem bind {x y : Resolution α} {f g : α → Resolution β} {R : α → Resolver → Prop}
    {Q : β → Resolver → Prop} (hx : Agrees P x y R E) (hf : ∀ a, Agrees (R a) (f a) (g a) Q E) :
    Agrees P (x >>= f) (y >>= g) Q E := by
  intro r hr
  obtain ⟨heq, hok, herr⟩ := hx r hr
  rcases run_bind_cases x r with ⟨a, r₁, hrun⟩ | ⟨e, hrun⟩
  · obtain ⟨hgrow, hR⟩ := hok a r₁ hrun
    obtain ⟨heq', hok', herr'⟩ := hf a r₁ hR
    rw [run_bind_of_ok hrun, run_bind_of_ok (heq.trans hrun), heq']
    refine ⟨rfl, fun b r₂ h => ?_, herr'⟩
    obtain ⟨hgrow', hq⟩ := hok' b r₂ h
    exact ⟨hgrow.trans hgrow', hq⟩
  · rw [run_bind_of_error hrun, run_bind_of_error (heq.trans hrun)]
    refine ⟨rfl, fun b r₂ h => ?_, fun e' h => ?_⟩
    · cases h
    · cases h
      exact herr e hrun

theorem pure {a : α} (h : ∀ r, P r → Q a r) : Agrees P (Pure.pure a) (Pure.pure a) Q E := by
  intro r hr
  refine ⟨rfl, fun b r' hb => ?_, fun e he => ?_⟩
  · cases hb
    exact ⟨List.prefix_refl _, h r hr⟩
  · cases he

theorem get : Agrees P get get (fun a r => P r ∧ a = r) E := by
  intro r hr
  refine ⟨rfl, fun b r' hb => ?_, fun e he => ?_⟩
  · cases hb
    exact ⟨List.prefix_refl _, hr, rfl⟩
  · cases he

theorem of_order {x y : Resolution α} (h : ∀ L, Agrees (fun r => P r ∧ r.order = L) x y Q E) :
    Agrees P x y Q E :=
  fun r hr => h r.order r ⟨hr, rfl⟩

theorem get_bind {f g : Resolver → Resolution β} {Q : β → Resolver → Prop}
    (h : ∀ r, P r → Agrees P (f r) (g r) Q E) :
    Agrees P (MonadState.get >>= f) (MonadState.get >>= g) Q E :=
  get.bind fun r => of_pre (fun _ h => h.2 ▸ h.1) fun hr =>
    (h r hr).mono (fun _ h => h.1) (fun _ _ h => h) fun _ h => h

theorem set {s : Resolver} {Q : Unit → Resolver → Prop}
    (h : ∀ r, P r → r.order <+: s.order ∧ Q () s) : Agrees P (set s) (set s) Q E := by
  intro r hr
  refine ⟨rfl, fun b r' hb => ?_, fun e he => ?_⟩
  · cases hb
    exact h r hr
  · cases he

theorem modify {f : Resolver → Resolver} {Q : Unit → Resolver → Prop}
    (h : ∀ r, P r → r.order <+: (f r).order ∧ Q () (f r)) : Agrees P (modify f) (modify f) Q E := by
  intro r hr
  refine ⟨rfl, fun b r' hb => ?_, fun e he => ?_⟩
  · cases hb
    exact h r hr
  · cases he

theorem throw {e : Error} (h : ∀ r, P r → E e) : Agrees P (throw e) (throw e) Q E := by
  intro r hr
  refine ⟨rfl, fun b r' hb => ?_, fun e' he => ?_⟩
  · cases hb
  · cases he
    exact h r hr

theorem throw_bind {e : Error} {f g : α → Resolution β} {Q : β → Resolver → Prop}
    (h : ∀ r, P r → E e) : Agrees P (MonadExcept.throw e >>= f) (MonadExcept.throw e >>= g) Q E :=
  (Agrees.throw (Q := fun _ _ => False) h).bind fun _ _ hr => hr.elim

theorem keep {x y : Resolution α} (h : Agrees P x y Q E) (L : List Module) :
    Agrees (fun r => P r ∧ ∀ m ∈ L, m ∈ r.order) x y (fun a r => Q a r ∧ ∀ m ∈ L, m ∈ r.order) E := by
  intro r ⟨hr, hL⟩
  obtain ⟨heq, hok, herr⟩ := h r hr
  refine ⟨heq, fun a r' ha => ?_, herr⟩
  obtain ⟨hgrow, hq⟩ := hok a r' ha
  exact ⟨hgrow, hq, fun m hm => hgrow.subset (hL m hm)⟩

theorem mapM {f g : α → Resolution β} {I : Resolver → Prop} {S : α → β → Prop}
    (mods : β → List Module) :
    ∀ {xs : List α}, (∀ x ∈ xs, Agrees I (f x) (g x)
      (fun b r => I r ∧ S x b ∧ ∀ m ∈ mods b, m ∈ r.order) E) →
    Agrees I (xs.mapM f) (xs.mapM g)
      (fun bs r => I r ∧ List.Forall₂ S xs bs ∧ ∀ b ∈ bs, ∀ m ∈ mods b, m ∈ r.order) E
  | [], _ => pure fun _ hr => ⟨hr, .nil, fun _ hb => by cases hb⟩
  | x :: xs, h => by
    rw [List.mapM_cons, List.mapM_cons]
    refine (h x List.mem_cons_self).bind fun b => of_pre (fun _ hr => hr.2.1) fun hS => ?_
    have hrest := (mapM mods fun y hy => h y (List.mem_cons_of_mem _ hy)).keep (mods b)
    refine (hrest.mono (fun r hr => ⟨hr.1, hr.2.2⟩) (fun _ _ h => h) fun _ h => h).bind
      fun bs => pure fun r ⟨⟨hr, hSs, hbs⟩, hb⟩ => ⟨hr, .cons hS hSs, ?_⟩
    intro c hc
    rcases List.mem_cons.1 hc with rfl | hc
    · exact hb
    · exact hbs c hc

end Agrees

end Resolution

end ModularC
