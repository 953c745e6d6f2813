import ModularC.Syntax.Parse

/-!
Pre- and postconditions of a parse, over both its outcomes.
-/

namespace ModularC

namespace Parse

/-- What `p` does on `src` from a reader that `P` accepts: its result and the reader after it
satisfy `Q`, or its error and the reader it failed with satisfy `E`. -/
def Triple {α : Type} (src : Source) (P : Reader → Prop) (p : Parse α) (Q : α → Reader → Prop)
    (E : Error → Reader → Prop) : Prop :=
  ∀ r, P r → match (p.run src).run.run r with
    | (.ok a, r') => Q a r'
    | (.error e, r') => E e r'

namespace Triple

variable {α β : Type} {src : Source} {P P' : Reader → Prop} {Q Q' : α → Reader → Prop}
  {E E' : Error → Reader → Prop}

theorem mono {p : Parse α} (h : Triple src P p Q E) (hP : ∀ r, P' r → P r)
    (hQ : ∀ a r, Q a r → Q' a r) (hE : ∀ e r, E e r → E' e r) : Triple src P' p Q' E' := by
  intro r hr
  have hp := h r (hP r hr)
  revert hp
  rcases (p.run src).run.run r with ⟨_ | a, r'⟩
  · exact hE _ _
  · exact hQ _ _

theorem strengthen {p : Parse α} {S : Reader → Prop} (h : Triple src P p Q E)
    (hP : ∀ r, S r → P r) : Triple src S p Q E :=
  h.mono hP (fun _ _ h => h) fun _ _ h => h

theorem of_pre {p : Parse α} {φ : Prop} (hφ : ∀ r, P r → φ) (h : φ → Triple src P p Q E) :
    Triple src P p Q E :=
  fun r hr => h (hφ r hr) r hr

theorem bind {x : Parse α} {f : α → Parse β} {R : α → Reader → Prop} {Q : β → Reader → Prop}
    (hx : Triple src P x R E) (hf : ∀ a, Triple src (R a) (f a) Q E) :
    Triple src P (x >>= f) Q E := by
  intro r hr
  simp only [ReaderT.run_bind, ExceptT.run_bind, StateT.run_bind]
  have h := hx r hr
  rcases hrun : (x.run src).run.run r with ⟨_ | a, r'⟩ <;> rw [hrun] at h
  · exact h
  · exact hf a r' h

theorem pure {a : α} (h : ∀ r, P r → Q a r) : Triple src P (Pure.pure a) Q E := h

theorem map {p : Parse α} {g : α → β} {Q : β → Reader → Prop}
    (h : Triple src P p (fun a => Q (g a)) E) : Triple src P (g <$> p) Q E := by
  rw [map_eq_pure_bind]
  exact h.bind fun a => pure fun _ hr => hr

theorem get : Triple src P get (fun a r => P r ∧ a = r) E := fun _ hr => ⟨hr, rfl⟩

theorem read : Triple src P read (fun a r => P r ∧ a = src) E := fun _ hr => ⟨hr, rfl⟩

theorem modify {f : Reader → Reader} {Q : Unit → Reader → Prop} (h : ∀ r, P r → Q () (f r)) :
    Triple src P (modify f) Q E := h

theorem set {s : Reader} {Q : Unit → Reader → Prop} (h : ∀ r, P r → Q () s) :
    Triple src P (set s) Q E := h

theorem throw {e : Error} (h : ∀ r, P r → E e r) : Triple src P (throw e) Q E := h

theorem tryCatch {x : Parse α} {h : Error → Parse α} {F : Error → Reader → Prop}
    (hx : Triple src P x Q F) (hh : ∀ e, Triple src (F e) (h e) Q E) :
    Triple src P (tryCatch x h) Q E := by
  intro r hr
  have hrun := hx r hr
  simp only [ReaderT.run, ExceptT.run, StateT.run, MonadExcept.tryCatch, tryCatchThe,
    MonadExceptOf.tryCatch, ExceptT.tryCatch, ExceptT.mk] at hrun ⊢
  change match StateT.run (x src >>= _) r with
    | (Except.ok a, r') => Q a r'
    | (Except.error e, r') => E e r'
  rw [StateT.run_bind]
  revert hrun
  rcases hxr : x src r with ⟨_ | a, s⟩ <;> intro hrun <;>
    simp only [show StateT.run (x src) r = x src r from rfl, hxr]
  · exact hh _ s hrun
  · exact hrun

theorem peekAt (n : Nat) :
    Triple src P (Parse.peekAt n) (fun t r => P r ∧ t = src.peekAt r.index n) E :=
  fun _ hr => ⟨hr, rfl⟩

theorem peek : Triple src P Parse.peek (fun t r => P r ∧ t = src.peekAt r.index 0) E := peekAt 0

theorem check (s : Symbol) :
    Triple src P (Parse.check s) (fun b r => P r ∧ b = (src.peekAt r.index 0).isSymbol s) E := by
  unfold Parse.check
  exact peek.bind fun t => pure fun _ ⟨hr, ht⟩ => ⟨hr, ht ▸ rfl⟩

theorem startsType (t : Token) : Triple src P (Parse.startsType t) (fun _ r => P r) E := by
  unfold Parse.startsType
  split
  · exact pure fun _ hr => hr
  · exact get.bind fun _ => pure fun _ hr => hr.1
  · exact pure fun _ hr => hr

end Triple

end Parse

end ModularC
