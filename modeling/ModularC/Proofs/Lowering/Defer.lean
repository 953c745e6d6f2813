import ModularC.Lowering.Defer

/-!
Replaying defers leaves no `defer` behind.
-/

namespace ModularC

mutual

/-- No `defer` stands anywhere in the statement. -/
def Stmt.deferFree : Stmt → Bool
  | .defer _ => false
  | .block ss => Stmt.deferFreeAll ss
  | .if_ _ thn els =>
    thn.deferFree && (match els with
      | some e => e.deferFree
      | none => true)
  | .while_ _ body | .doWhile body _ | .for_ _ _ _ body => body.deferFree
  | .switch _ cases => Case.deferFreeAll cases
  | _ => true

def Stmt.deferFreeAll : List Stmt → Bool
  | [] => true
  | s :: ss => s.deferFree && Stmt.deferFreeAll ss

def Case.deferFreeAll : List Case → Bool
  | [] => true
  | ⟨_, body⟩ :: cs => Stmt.deferFreeAll body && Case.deferFreeAll cs

end

/-- A function's body, if it has one, is defer-free. -/
def FunctionDef.deferFree (f : FunctionDef) : Bool :=
  match f.body with
  | some body => Stmt.deferFreeAll body
  | none => true

@[simp] theorem Stmt.deferFreeAll_append (ss ts : List Stmt) :
    Stmt.deferFreeAll (ss ++ ts) = (Stmt.deferFreeAll ss && Stmt.deferFreeAll ts) := by
  induction ss with
  | nil => simp [Stmt.deferFreeAll]
  | cons s ss ih => simp [Stmt.deferFreeAll, ih, Bool.and_assoc]

@[simp] theorem Stmt.deferFreeAll_map_expr (es : List Expr) :
    Stmt.deferFreeAll (es.map .expr) = true := by
  induction es with
  | nil => rfl
  | cons e es ih => simp [Stmt.deferFreeAll, Stmt.deferFree, ih]

theorem Stmt.collapse_deferFree {ss : List Stmt} (h : Stmt.deferFreeAll ss = true) :
    (Stmt.collapse ss).deferFree = true := by
  match ss, h with
  | [], _ => rfl
  | [s], h => simpa [Stmt.collapse, Stmt.deferFreeAll] using h
  | s :: t :: ss, h => simpa [Stmt.collapse, Stmt.deferFree] using h

mutual

theorem Stmt.replayDefers_deferFree (pending : List Expr) (s : Stmt) :
    Stmt.deferFreeAll (s.replayDefers pending).1 = true := by
  cases s with
  | defer e => rfl
  | return_ v => simp [Stmt.replayDefers, Stmt.deferFreeAll, Stmt.deferFree]
  | block ss =>
    simp only [Stmt.replayDefers, Stmt.deferFreeAll, Stmt.deferFree, Bool.and_true]
    exact Stmt.replayDefersAll_deferFree pending ss
  | if_ c thn els =>
    have hthn := Stmt.collapse_deferFree (thn.replayDefers_deferFree pending)
    cases els with
    | none => simp [Stmt.replayDefers, Stmt.deferFreeAll, Stmt.deferFree, hthn]
    | some e =>
      have he := Stmt.collapse_deferFree (e.replayDefers_deferFree (thn.replayDefers pending).2)
      simp [Stmt.replayDefers, Stmt.deferFreeAll, Stmt.deferFree, hthn, he]
  | while_ c body =>
    have hb := Stmt.collapse_deferFree (body.replayDefers_deferFree pending)
    simp [Stmt.replayDefers, Stmt.deferFreeAll, Stmt.deferFree, hb]
  | doWhile body c =>
    have hb := Stmt.collapse_deferFree (body.replayDefers_deferFree pending)
    simp [Stmt.replayDefers, Stmt.deferFreeAll, Stmt.deferFree, hb]
  | for_ i c st body =>
    have hb := Stmt.collapse_deferFree (body.replayDefers_deferFree pending)
    simp [Stmt.replayDefers, Stmt.deferFreeAll, Stmt.deferFree, hb]
  | switch v cases =>
    simp only [Stmt.replayDefers, Stmt.deferFreeAll, Stmt.deferFree, Bool.and_true]
    exact Case.replayDefersAll_deferFree pending cases
  | declaration d => rfl
  | expr e => rfl
  | break_ => rfl
  | continue_ => rfl
  | empty => rfl
termination_by sizeOf s

theorem Stmt.replayDefersAll_deferFree (pending : List Expr) (ss : List Stmt) :
    Stmt.deferFreeAll (Stmt.replayDefersAll pending ss).1 = true := by
  cases ss with
  | nil => rfl
  | cons s ss =>
    have hs := s.replayDefers_deferFree pending
    have hss := Stmt.replayDefersAll_deferFree (s.replayDefers pending).2 ss
    simp only [Stmt.replayDefersAll, Stmt.deferFreeAll_append, hs, hss, Bool.and_self]
termination_by sizeOf ss

theorem Case.replayDefersAll_deferFree (pending : List Expr) (cs : List Case) :
    Case.deferFreeAll (Case.replayDefersAll pending cs).1 = true := by
  cases cs with
  | nil => rfl
  | cons c cs =>
    obtain ⟨label, body⟩ := c
    have hb := Stmt.replayDefersAll_deferFree pending body
    have hcs := Case.replayDefersAll_deferFree (Stmt.replayDefersAll pending body).2 cs
    simp only [Case.replayDefersAll, Case.deferFreeAll, hb, hcs, Bool.and_self]
termination_by sizeOf cs

end

@[simp] theorem FunctionDef.replayDefers_form (f : FunctionDef) : f.replayDefers.form = f.form := by
  unfold FunctionDef.replayDefers
  split <;> rfl

@[simp] theorem FunctionDef.replayDefers_base (f : FunctionDef) : f.replayDefers.base = f.base := by
  unfold FunctionDef.replayDefers
  split <;> rfl

private theorem replayed_deferFree (body : List Stmt) :
    Stmt.deferFreeAll (if Stmt.endsInReturn body then (Stmt.replayDefersAll [] body).1
      else (Stmt.replayDefersAll [] body).1 ++ (Stmt.replayDefersAll [] body).2.map .expr) =
      true := by
  split
  · exact Stmt.replayDefersAll_deferFree [] body
  · rw [Stmt.deferFreeAll_append, Stmt.replayDefersAll_deferFree, Stmt.deferFreeAll_map_expr]
    rfl

theorem FunctionDef.replayDefers_deferFree (f : FunctionDef) : f.replayDefers.deferFree = true := by
  unfold FunctionDef.replayDefers
  split
  · simp [FunctionDef.deferFree, *]
  · simp [FunctionDef.deferFree, Stmt.deferFreeAll, *]
  · simp only [FunctionDef.deferFree]
    exact replayed_deferFree _

end ModularC
