import ModularC.Proofs.Lowering.Defer

/-!
Where replayed defers land: before each `return`, exactly the expressions deferred before it.
-/

namespace ModularC

/-- A `defer` or a `return`, as met in reading a body. -/
inductive Mark where
  | defer (e : Expr)
  | return_ (value : Option Expr)

mutual

/-- The defers and returns of a statement, in textual order. -/
def Stmt.marks : Stmt → List Mark
  | .defer e => [.defer e]
  | .return_ v => [.return_ v]
  | .block ss => Stmt.marksAll ss
  | .if_ _ thn none => thn.marks
  | .if_ _ thn (some els) => thn.marks ++ els.marks
  | .while_ _ body | .doWhile body _ | .for_ _ _ _ body => body.marks
  | .switch _ cases => Case.marksAll cases
  | .declaration _ | .expr _ | .break_ | .continue_ | .empty => []

def Stmt.marksAll : List Stmt → List Mark
  | [] => []
  | s :: ss => s.marks ++ Stmt.marksAll ss

def Case.marksAll : List Case → List Mark
  | [] => []
  | ⟨_, body⟩ :: cs => Stmt.marksAll body ++ Case.marksAll cs

end

namespace Mark

/-- The deferred expressions, in order of registration. -/
def deferred : List Mark → List Expr
  | [] => []
  | .defer e :: ms => e :: deferred ms
  | .return_ _ :: ms => deferred ms

/-- For each `return`, the expressions deferred before it, after those of `pending`. -/
def pendings (pending : List Expr) : List Mark → List (List Expr)
  | [] => []
  | .defer e :: ms => pendings (pending ++ [e]) ms
  | .return_ _ :: ms => pending :: pendings pending ms

@[simp] theorem deferred_append (ms ms' : List Mark) :
    deferred (ms ++ ms') = deferred ms ++ deferred ms' := by
  induction ms with
  | nil => rfl
  | cons m ms ih => cases m <;> simp [deferred, ih]

theorem pendings_append (pending : List Expr) (ms ms' : List Mark) :
    pendings pending (ms ++ ms') = pendings pending ms ++ pendings (pending ++ deferred ms) ms' := by
  induction ms generalizing pending with
  | nil => simp [pendings, deferred]
  | cons m ms ih => cases m <;> simp [pendings, deferred, ih]

end Mark

mutual

theorem Stmt.replayDefers_pending (pending : List Expr) (s : Stmt) :
    (s.replayDefers pending).2 = pending ++ Mark.deferred s.marks := by
  cases s with
  | defer e => rfl
  | return_ v => simp [Stmt.replayDefers, Stmt.marks, Mark.deferred]
  | block ss => simpa [Stmt.replayDefers, Stmt.marks] using Stmt.replayDefersAll_pending pending ss
  | if_ c thn els =>
    have hthn := thn.replayDefers_pending pending
    cases els with
    | none => simpa [Stmt.replayDefers, Stmt.marks] using hthn
    | some e =>
      have he := e.replayDefers_pending (thn.replayDefers pending).2
      rw [hthn] at he
      simp [Stmt.replayDefers, Stmt.marks, he, hthn]
  | while_ _ body | doWhile body _ | for_ _ _ _ body =>
    simpa [Stmt.replayDefers, Stmt.marks] using body.replayDefers_pending pending
  | switch v cases =>
    simpa [Stmt.replayDefers, Stmt.marks] using Case.replayDefersAll_pending pending cases
  | declaration _ | expr _ | break_ | continue_ | empty =>
    simp [Stmt.replayDefers, Stmt.marks, Mark.deferred]
termination_by sizeOf s

theorem Stmt.replayDefersAll_pending (pending : List Expr) (ss : List Stmt) :
    (Stmt.replayDefersAll pending ss).2 = pending ++ Mark.deferred (Stmt.marksAll ss) := by
  cases ss with
  | nil => simp [Stmt.replayDefersAll, Stmt.marksAll, Mark.deferred]
  | cons s ss =>
    have hs := s.replayDefers_pending pending
    have hss := Stmt.replayDefersAll_pending (s.replayDefers pending).2 ss
    rw [hs] at hss
    simp [Stmt.replayDefersAll, Stmt.marksAll, hss, hs]
termination_by sizeOf ss

theorem Case.replayDefersAll_pending (pending : List Expr) (cs : List Case) :
    (Case.replayDefersAll pending cs).2 = pending ++ Mark.deferred (Case.marksAll cs) := by
  cases cs with
  | nil => simp [Case.replayDefersAll, Case.marksAll, Mark.deferred]
  | cons c cs =>
    obtain ⟨label, body⟩ := c
    have hb := Stmt.replayDefersAll_pending pending body
    have hcs := Case.replayDefersAll_pending (Stmt.replayDefersAll pending body).2 cs
    rw [hb] at hcs
    simp [Case.replayDefersAll, Case.marksAll, hcs, hb]
termination_by sizeOf cs

end

mutual

/-- The statement with every `defer` removed: dropped from statement lists, `;` where one filled a
slot alone. -/
def Stmt.eraseDefers : Stmt → Stmt
  | .defer _ => .empty
  | .block ss => .block (Stmt.eraseDefersAll ss)
  | .if_ c thn none => .if_ c thn.eraseDefers none
  | .if_ c thn (some els) => .if_ c thn.eraseDefers (some els.eraseDefers)
  | .while_ c body => .while_ c body.eraseDefers
  | .doWhile body c => .doWhile body.eraseDefers c
  | .for_ i c st body => .for_ i c st body.eraseDefers
  | .switch v cases => .switch v (Case.eraseDefersAll cases)
  | s => s

def Stmt.eraseDefersAll : List Stmt → List Stmt
  | [] => []
  | .defer _ :: ss => Stmt.eraseDefersAll ss
  | s :: ss => s.eraseDefers :: Stmt.eraseDefersAll ss

def Case.eraseDefersAll : List Case → List Case
  | [] => []
  | ⟨label, body⟩ :: cs => ⟨label, Stmt.eraseDefersAll body⟩ :: Case.eraseDefersAll cs

end

mutual

/-- Each `return` of a statement in a slot, in textual order, with the expression statements that
stand directly before it in its statement list. -/
def Stmt.returnRuns : Stmt → List (List Expr × Option Expr)
  | .return_ v => [([], v)]
  | .block ss => Stmt.returnRunsAll [] ss
  | .if_ _ thn none => thn.returnRuns
  | .if_ _ thn (some els) => thn.returnRuns ++ els.returnRuns
  | .while_ _ body | .doWhile body _ | .for_ _ _ _ body => body.returnRuns
  | .switch _ cases => Case.returnRunsAll cases
  | .defer _ | .declaration _ | .expr _ | .break_ | .continue_ | .empty => []

/-- The same for a statement list, after the expression statements `run` that end what comes
before it. -/
def Stmt.returnRunsAll (run : List Expr) : List Stmt → List (List Expr × Option Expr)
  | [] => []
  | .return_ v :: ss => (run, v) :: Stmt.returnRunsAll [] ss
  | .expr e :: ss => Stmt.returnRunsAll (run ++ [e]) ss
  | s :: ss => s.returnRuns ++ Stmt.returnRunsAll [] ss

def Case.returnRunsAll : List Case → List (List Expr × Option Expr)
  | [] => []
  | ⟨_, body⟩ :: cs => Stmt.returnRunsAll [] body ++ Case.returnRunsAll cs

end

/-- The expression statements that end a statement list, after `run` for those before it. -/
def Stmt.runAfter (run : List Expr) : List Stmt → List Expr
  | [] => run
  | .expr e :: ss => Stmt.runAfter (run ++ [e]) ss
  | _ :: ss => Stmt.runAfter [] ss

/-- A block that holds a lone `return` means, in a slot, that `return`. -/
def Stmt.unwrapReturn : Stmt → Stmt
  | .block [.return_ v] => .return_ v
  | s => s

mutual

/-- The statement with the expression statements directly before each `return` set aside. -/
def Stmt.trim : Stmt → Stmt
  | .block ss => .block (Stmt.trimAll ss)
  | .if_ c thn none => .if_ c thn.trim.unwrapReturn none
  | .if_ c thn (some els) => .if_ c thn.trim.unwrapReturn (some els.trim.unwrapReturn)
  | .while_ c body => .while_ c body.trim.unwrapReturn
  | .doWhile body c => .doWhile body.trim.unwrapReturn c
  | .for_ i c st body => .for_ i c st body.trim.unwrapReturn
  | .switch v cases => .switch v (Case.trimAll cases)
  | s => s

def Stmt.trimAll : List Stmt → List Stmt
  | [] => []
  | .expr e :: ss =>
    match Stmt.trimAll ss with
    | .return_ v :: rest => .return_ v :: rest
    | rest => .expr e :: rest
  | s :: ss => s.trim :: Stmt.trimAll ss

def Case.trimAll : List Case → List Case
  | [] => []
  | ⟨label, body⟩ :: cs => ⟨label, Stmt.trimAll body⟩ :: Case.trimAll cs

end

/-- The statements that hold others: blocks, branches, loops and `switch`. -/
def Stmt.compound : Stmt → Bool
  | .block _ | .if_ .. | .while_ .. | .doWhile .. | .for_ .. | .switch .. => true
  | _ => false

section Lists

variable {x : Stmt} {run : List Expr}

theorem Stmt.eraseDefersAll_cons (s : Stmt) (ss : List Stmt) :
    Stmt.eraseDefersAll (s :: ss) = Stmt.eraseDefersAll [s] ++ Stmt.eraseDefersAll ss := by
  cases s <;> simp [Stmt.eraseDefersAll]

theorem Stmt.collapse_eraseDefersAll (s : Stmt) :
    Stmt.collapse (Stmt.eraseDefersAll [s]) = s.eraseDefers := by
  cases s <;> simp [Stmt.eraseDefersAll, Stmt.eraseDefers, Stmt.collapse]

theorem Stmt.returnRunsAll_compound (hx : x.compound = true) (xs : List Stmt) :
    Stmt.returnRunsAll run (x :: xs) = x.returnRuns ++ Stmt.returnRunsAll [] xs := by
  cases x <;> simp_all [Stmt.compound, Stmt.returnRunsAll]

theorem Stmt.runAfter_compound (hx : x.compound = true) (xs : List Stmt) :
    Stmt.runAfter run (x :: xs) = Stmt.runAfter [] xs := by
  cases x <;> simp_all [Stmt.compound, Stmt.runAfter]

theorem Stmt.trimAll_compound (hx : x.compound = true) (xs : List Stmt) :
    Stmt.trimAll (x :: xs) = x.trim :: Stmt.trimAll xs := by
  cases x <;> simp_all [Stmt.compound, Stmt.trimAll]

theorem Stmt.returnRunsAll_append (run : List Expr) (xs ys : List Stmt) :
    Stmt.returnRunsAll run (xs ++ ys) =
      Stmt.returnRunsAll run xs ++ Stmt.returnRunsAll (Stmt.runAfter run xs) ys := by
  induction xs generalizing run with
  | nil => simp [Stmt.returnRunsAll, Stmt.runAfter]
  | cons x xs ih => cases x <;> simp [Stmt.returnRunsAll, Stmt.runAfter, ih]

theorem Stmt.runAfter_append (run : List Expr) (xs ys : List Stmt) :
    Stmt.runAfter run (xs ++ ys) = Stmt.runAfter (Stmt.runAfter run xs) ys := by
  induction xs generalizing run with
  | nil => rfl
  | cons x xs ih => cases x <;> simp [Stmt.runAfter, ih]

@[simp] theorem Stmt.returnRunsAll_map_expr (run es : List Expr) :
    Stmt.returnRunsAll run (es.map .expr) = [] := by
  induction es generalizing run with
  | nil => rfl
  | cons e es ih => simp [Stmt.returnRunsAll, ih]

@[simp] theorem Stmt.runAfter_map_expr (run es : List Expr) :
    Stmt.runAfter run (es.map .expr) = run ++ es := by
  induction es generalizing run with
  | nil => simp [Stmt.runAfter]
  | cons e es ih => simp [Stmt.runAfter, ih]

theorem Stmt.returnRunsAll_singleton (x : Stmt) : Stmt.returnRunsAll [] [x] = x.returnRuns := by
  cases x <;> simp [Stmt.returnRunsAll, Stmt.returnRuns]

theorem Stmt.returnRuns_collapse (xs : List Stmt) :
    (Stmt.collapse xs).returnRuns = Stmt.returnRunsAll [] xs := by
  match xs with
  | [] => rfl
  | [x] => exact (Stmt.returnRunsAll_singleton x).symm
  | _ :: _ :: _ => rfl

theorem Stmt.trimAll_singleton (x : Stmt) : Stmt.trimAll [x] = [x.trim] := by
  cases x <;> simp [Stmt.trimAll, Stmt.trim]

theorem Stmt.trimAll_map_expr_return (es : List Expr) (v : Option Expr) (rest : List Stmt) :
    Stmt.trimAll (es.map .expr ++ .return_ v :: rest) = .return_ v :: Stmt.trimAll rest := by
  induction es with
  | nil => simp [Stmt.trimAll, Stmt.trim]
  | cons e es ih => simp [Stmt.trimAll, ih]

theorem Stmt.trimAll_append_congr {ys zs : List Stmt} (h : Stmt.trimAll ys = Stmt.trimAll zs)
    (xs : List Stmt) : Stmt.trimAll (xs ++ ys) = Stmt.trimAll (xs ++ zs) := by
  induction xs with
  | nil => exact h
  | cons x xs ih => cases x <;> simp [Stmt.trimAll, ih]

end Lists

namespace Mark

/-- `rs'` is `rs` with one list of `ps` appended to each run, in order. -/
def Extends (rs' rs : List (List Expr × Option Expr)) (ps : List (List Expr)) : Prop :=
  rs' = List.zipWith (fun r p => (r.1 ++ p, r.2)) rs ps ∧ rs.length = ps.length

theorem Extends.nil : Extends [] [] [] := ⟨rfl, rfl⟩

theorem Extends.append {rs' rs ps qs' qs ps'} (h : Extends rs' rs ps) (h' : Extends qs' qs ps') :
    Extends (rs' ++ qs') (rs ++ qs) (ps ++ ps') := by
  obtain ⟨rfl, hlen⟩ := h
  obtain ⟨rfl, hlen'⟩ := h'
  exact ⟨(List.zipWith_append hlen).symm, by simp [hlen, hlen']⟩

end Mark

/-- `out` is what replaying made of `orig`, the returns of `orig` meeting the pending lists
`pend`: each return keeps its place with its run extended by its pending list, the two lists end
on the same run, and trimming cannot tell them apart whatever follows. -/
structure Stmt.Replays (pend : List (List Expr)) (out orig : List Stmt) : Prop where
  runs : ∀ run, Mark.Extends (Stmt.returnRunsAll run out) (Stmt.returnRunsAll run orig) pend
  runAfter : ∀ run, Stmt.runAfter run out = Stmt.runAfter run orig
  trim : ∀ rest, Stmt.trimAll (out ++ rest) = Stmt.trimAll (orig ++ rest)

namespace Stmt.Replays

theorem nil : Stmt.Replays [] [] [] :=
  ⟨fun _ => Mark.Extends.nil, fun _ => rfl, fun _ => rfl⟩

theorem append {pend pend' out out' orig orig'} (h : Stmt.Replays pend out orig)
    (h' : Stmt.Replays pend' out' orig') : Stmt.Replays (pend ++ pend') (out ++ out') (orig ++ orig') where
  runs run := by
    rw [Stmt.returnRunsAll_append, Stmt.returnRunsAll_append, h.runAfter run]
    exact (h.runs run).append (h'.runs _)
  runAfter run := by rw [Stmt.runAfter_append, Stmt.runAfter_append, h.runAfter, h'.runAfter]
  trim rest := by
    rw [List.append_assoc, List.append_assoc, h.trim]
    exact Stmt.trimAll_append_congr (h'.trim rest) orig

theorem self {xs : List Stmt} (h : ∀ run, Stmt.returnRunsAll run xs = []) : Stmt.Replays [] xs xs :=
  ⟨fun run => by rw [h]; exact Mark.Extends.nil, fun _ => rfl, fun _ => rfl⟩

theorem compound {pend} {x y : Stmt} (hx : x.compound = true) (hy : y.compound = true)
    (hruns : Mark.Extends x.returnRuns y.returnRuns pend) (htrim : x.trim = y.trim) :
    Stmt.Replays pend [x] [y] where
  runs run := by
    simpa [Stmt.returnRunsAll_compound hx, Stmt.returnRunsAll_compound hy, Stmt.returnRunsAll]
      using hruns
  runAfter run := by rw [Stmt.runAfter_compound hx, Stmt.runAfter_compound hy]
  trim rest := by
    rw [List.singleton_append, List.singleton_append, Stmt.trimAll_compound hx,
      Stmt.trimAll_compound hy, htrim]

theorem return_ (pending : List Expr) (v : Option Expr) :
    Stmt.Replays [pending] (pending.map .expr ++ [.return_ v]) [.return_ v] where
  runs run := by
    refine ⟨?_, rfl⟩
    simp [Stmt.returnRunsAll_append, Stmt.returnRunsAll]
  runAfter run := by simp [Stmt.runAfter_append, Stmt.runAfter]
  trim rest := by
    rw [List.append_assoc, List.singleton_append, Stmt.trimAll_map_expr_return]
    simp [Stmt.trimAll, Stmt.trim]

end Stmt.Replays

theorem Stmt.eraseDefersAll_singleton {s : Stmt} (hd : ∀ e, s ≠ .defer e) :
    Stmt.eraseDefersAll [s] = [s.eraseDefers] := by
  cases s <;> simp_all [Stmt.eraseDefersAll]

theorem Stmt.replayDefers_single (pending : List Expr) {s : Stmt} (hd : ∀ e, s ≠ .defer e)
    (hr : ∀ v, s ≠ .return_ v) : ∃ x, (s.replayDefers pending).1 = [x] := by
  cases s with
  | defer e => exact absurd rfl (hd e)
  | return_ v => exact absurd rfl (hr v)
  | if_ c thn els => cases els <;> simp [Stmt.replayDefers]
  | _ => simp [Stmt.replayDefers]

theorem Stmt.unwrapReturn_trim_collapse (es : List Expr) (v : Option Expr) :
    (Stmt.collapse (es.map .expr ++ [.return_ v])).trim.unwrapReturn = .return_ v := by
  cases es with
  | nil => rfl
  | cons e es =>
    have hc : Stmt.collapse ((e :: es).map .expr ++ [.return_ v]) =
        .block ((e :: es).map .expr ++ [.return_ v]) := by
      cases es <;> rfl
    rw [hc, Stmt.trim, Stmt.trimAll_map_expr_return]
    rfl

theorem Stmt.Replays.slot {pend pending} {s : Stmt}
    (h : Stmt.Replays pend (s.replayDefers pending).1 (Stmt.eraseDefersAll [s])) :
    Mark.Extends (Stmt.collapse (s.replayDefers pending).1).returnRuns s.eraseDefers.returnRuns pend ∧
      (Stmt.collapse (s.replayDefers pending).1).trim.unwrapReturn =
        s.eraseDefers.trim.unwrapReturn := by
  refine ⟨?runs, ?trim⟩
  case runs =>
    rw [Stmt.returnRuns_collapse, ← Stmt.collapse_eraseDefersAll, Stmt.returnRuns_collapse]
    exact h.runs []
  case trim =>
    by_cases hd : ∃ e, s = .defer e
    · obtain ⟨e, rfl⟩ := hd
      rfl
    by_cases hr : ∃ v, s = .return_ v
    · obtain ⟨v, rfl⟩ := hr
      exact Stmt.unwrapReturn_trim_collapse pending v
    have hd : ∀ e, s ≠ .defer e := fun e he => hd ⟨e, he⟩
    obtain ⟨x, hx⟩ := Stmt.replayDefers_single pending hd (fun v hv => hr ⟨v, hv⟩)
    have htrim := h.trim []
    rw [hx, Stmt.eraseDefersAll_singleton hd, List.append_nil, List.append_nil,
      Stmt.trimAll_singleton, Stmt.trimAll_singleton, List.cons.injEq] at htrim
    rw [hx, Stmt.collapse, htrim.1]

mutual

theorem Stmt.replayDefers_replays (pending : List Expr) (s : Stmt) :
    Stmt.Replays (Mark.pendings pending s.marks) (s.replayDefers pending).1
      (Stmt.eraseDefersAll [s]) := by
  cases s with
  | defer e => exact Stmt.Replays.nil
  | return_ v => exact Stmt.Replays.return_ pending v
  | block ss =>
    have h := Stmt.replayDefersAll_replays pending ss
    simp only [Stmt.replayDefers, Stmt.marks, Stmt.eraseDefersAll, Stmt.eraseDefers]
    refine Stmt.Replays.compound rfl rfl ?_ ?_
    · simpa [Stmt.returnRuns] using h.runs []
    · simpa [Stmt.trim] using h.trim []
  | if_ c thn els =>
    obtain ⟨hruns, htrim⟩ := (thn.replayDefers_replays pending).slot
    cases els with
    | none =>
      simp only [Stmt.replayDefers, Stmt.marks, Stmt.eraseDefersAll, Stmt.eraseDefers]
      refine Stmt.Replays.compound rfl rfl ?_ ?_
      · simpa [Stmt.returnRuns] using hruns
      · simp [Stmt.trim, htrim]
    | some e =>
      -- the else arm meets what the then arm left pending
      obtain ⟨heruns, hetrim⟩ := (e.replayDefers_replays (thn.replayDefers pending).2).slot
      simp only [Stmt.replayDefers, Stmt.marks, Mark.pendings_append, Stmt.eraseDefersAll,
        Stmt.eraseDefers]
      rw [← Stmt.replayDefers_pending]
      refine Stmt.Replays.compound rfl rfl ?_ ?_
      · simpa [Stmt.returnRuns] using hruns.append heruns
      · simp [Stmt.trim, htrim, hetrim]
  | while_ _ body | doWhile body _ | for_ _ _ _ body =>
    obtain ⟨hruns, htrim⟩ := (body.replayDefers_replays pending).slot
    simp only [Stmt.replayDefers, Stmt.marks, Stmt.eraseDefersAll, Stmt.eraseDefers]
    refine Stmt.Replays.compound rfl rfl ?_ ?_
    · simpa [Stmt.returnRuns] using hruns
    · simp [Stmt.trim, htrim]
  | switch v cases =>
    obtain ⟨hruns, htrim⟩ := Case.replayDefersAll_replays pending cases
    simp only [Stmt.replayDefers, Stmt.marks, Stmt.eraseDefersAll, Stmt.eraseDefers]
    refine Stmt.Replays.compound rfl rfl ?_ ?_
    · simpa [Stmt.returnRuns] using hruns
    · simp [Stmt.trim, htrim]
  | declaration _ | expr _ | break_ | continue_ | empty =>
    simp only [Stmt.replayDefers, Stmt.marks, Mark.pendings, Stmt.eraseDefersAll,
      Stmt.eraseDefers]
    exact Stmt.Replays.self (by simp [Stmt.returnRunsAll, Stmt.returnRuns])
termination_by sizeOf s

theorem Stmt.replayDefersAll_replays (pending : List Expr) (ss : List Stmt) :
    Stmt.Replays (Mark.pendings pending (Stmt.marksAll ss)) (Stmt.replayDefersAll pending ss).1
      (Stmt.eraseDefersAll ss) := by
  cases ss with
  | nil => exact Stmt.Replays.nil
  | cons s ss =>
    have hs := s.replayDefers_replays pending
    have hss := Stmt.replayDefersAll_replays (s.replayDefers pending).2 ss
    simp only [Stmt.replayDefersAll, Stmt.marksAll, Mark.pendings_append]
    rw [← Stmt.replayDefers_pending, Stmt.eraseDefersAll_cons]
    exact hs.append hss
termination_by sizeOf ss

theorem Case.replayDefersAll_replays (pending : List Expr) (cs : List Case) :
    Mark.Extends (Case.returnRunsAll (Case.replayDefersAll pending cs).1)
        (Case.returnRunsAll (Case.eraseDefersAll cs)) (Mark.pendings pending (Case.marksAll cs)) ∧
      Case.trimAll (Case.replayDefersAll pending cs).1 = Case.trimAll (Case.eraseDefersAll cs) := by
  cases cs with
  | nil => exact ⟨Mark.Extends.nil, rfl⟩
  | cons c cs =>
    obtain ⟨label, body⟩ := c
    have hb := Stmt.replayDefersAll_replays pending body
    have hcs := Case.replayDefersAll_replays (Stmt.replayDefersAll pending body).2 cs
    simp only [Case.replayDefersAll, Case.marksAll, Mark.pendings_append, Case.eraseDefersAll,
      Case.returnRunsAll, Case.trimAll]
    rw [← Stmt.replayDefersAll_pending]
    refine ⟨(hb.runs []).append hcs.1, ?_⟩
    rw [← hcs.2]
    simpa using hb.trim []
termination_by sizeOf cs

end

theorem Stmt.replayDefersAll_append (pending : List Expr) (xs ys : List Stmt) :
    (Stmt.replayDefersAll pending (xs ++ ys)).1 = (Stmt.replayDefersAll pending xs).1 ++
      (Stmt.replayDefersAll (Stmt.replayDefersAll pending xs).2 ys).1 := by
  induction xs generalizing pending with
  | nil => rfl
  | cons x xs ih => simp [Stmt.replayDefersAll, ih]

theorem Stmt.replayDefersAll_getLast_return (pending : List Expr) (xs : List Stmt)
    (v : Option Expr) :
    (Stmt.replayDefersAll pending (xs ++ [.return_ v])).1.getLast? = some (.return_ v) := by
  simp [Stmt.replayDefersAll_append, Stmt.replayDefersAll, Stmt.replayDefers]

theorem FunctionDef.replayDefers_places_defers {f : FunctionDef} {body : List Stmt}
    (hf : f.body = some body) (hne : body ≠ []) :
    let synth := f.name? != some "main" && f.returnsVoid && !Stmt.endsInReturn body
    let closed := if synth then body ++ [.return_ none] else body
    let tail := if Stmt.endsInReturn closed then []
      else (Mark.deferred (Stmt.marksAll closed)).map Stmt.expr
    ∃ out, f.replayDefers = { f with body := some (out ++ tail) } ∧
      Stmt.deferFreeAll (out ++ tail) = true ∧
      (synth = true → (out ++ tail).getLast? = some (.return_ none)) ∧
      Mark.Extends (Stmt.returnRunsAll [] (out ++ tail))
        (Stmt.returnRunsAll [] (Stmt.eraseDefersAll closed)) (Mark.pendings [] (Stmt.marksAll closed)) ∧
      Stmt.trimAll (out ++ tail) = Stmt.trimAll (Stmt.eraseDefersAll closed ++ tail) := by
  intro synth closed tail
  have hrep :
      f.replayDefers = { f with body := some ((Stmt.replayDefersAll [] closed).1 ++ tail) } := by
    obtain ⟨b, bs, rfl⟩ := List.exists_cons_of_ne_nil hne
    simp only [FunctionDef.replayDefers, hf]
    change { f with body := some (if Stmt.endsInReturn closed
      then (Stmt.replayDefersAll [] closed).1
      else (Stmt.replayDefersAll [] closed).1 ++
        (Stmt.replayDefersAll [] closed).2.map Stmt.expr) } = _
    rw [Stmt.replayDefersAll_pending, List.nil_append]
    by_cases hend : Stmt.endsInReturn closed <;> simp [tail, hend]
  have htailRuns : ∀ run, Stmt.returnRunsAll run tail = [] := by
    intro run
    simp only [tail]
    split <;> simp [Stmt.returnRunsAll]
  have htailFree : Stmt.deferFreeAll tail = true := by
    simp only [tail]
    split <;> simp [Stmt.deferFreeAll]
  have hr := Stmt.replayDefersAll_replays [] closed
  refine ⟨(Stmt.replayDefersAll [] closed).1, hrep, ?deferFree, ?synth, ?runs, hr.trim tail⟩
  case deferFree =>
    rw [Stmt.deferFreeAll_append, Stmt.replayDefersAll_deferFree, htailFree]
    rfl
  case synth =>
    intro hs
    have hclosed : closed = body ++ [.return_ none] := if_pos hs
    have htail : tail = [] := by simp [tail, hclosed, Stmt.endsInReturn]
    rw [htail, List.append_nil, hclosed]
    exact Stmt.replayDefersAll_getLast_return [] body none
  case runs =>
    rw [Stmt.returnRunsAll_append, Stmt.Replays.runAfter hr, htailRuns, List.append_nil]
    exact hr.runs []

/-- The body of `int work(int fail) { defer first(); defer second(); if (fail) return 1; step();
return 0; }`. -/
def workBody : List Stmt :=
  [.defer (.call (.ident "first") []), .defer (.call (.ident "second") []),
    .if_ (.ident "fail") (.return_ (some (.literal (.number "1")))) none,
    .expr (.call (.ident "step") []), .return_ (some (.literal (.number "0")))]

def deferringWork : FunctionDef where
  exported := false
  base := ⟨[.keyword .int]⟩
  form := ⟨[], .name "work", [.params ⟨[⟨⟨[.keyword .int]⟩, ⟨[], .name "fail", []⟩⟩], false⟩]⟩
  body := some workBody

/-- Both returns of `work` get `first(); second();` in front of them, the one alone in the `if`
arm inside a new block; trimming leaves the body without its defers. -/
theorem deferringWork_places_defers :
    deferringWork.body = some workBody ∧ workBody ≠ [] ∧
      ∃ out, deferringWork.replayDefers = { deferringWork with body := some out } ∧
        Stmt.deferFreeAll out = true ∧
        Mark.Extends (Stmt.returnRunsAll [] out)
          [([], some (.literal (.number "1"))),
            ([.call (.ident "step") []], some (.literal (.number "0")))]
          [[.call (.ident "first") [], .call (.ident "second") []],
            [.call (.ident "first") [], .call (.ident "second") []]] ∧
        Stmt.trimAll out =
          [.if_ (.ident "fail") (.return_ (some (.literal (.number "1")))) none,
            .return_ (some (.literal (.number "0")))] := by
  have h := @FunctionDef.replayDefers_places_defers deferringWork workBody rfl (by simp [workBody])
  have hsynth : (deferringWork.name? != some "main" && deferringWork.returnsVoid &&
      !Stmt.endsInReturn workBody) = false := rfl
  have hend : Stmt.endsInReturn workBody = true := rfl
  simp only [hsynth, Bool.false_eq_true, if_false] at h
  simp only [hend, if_true, List.append_nil] at h
  obtain ⟨out, hrep, hfree, -, hruns, htrim⟩ := h
  exact ⟨rfl, by simp [workBody], out, hrep, hfree, hruns, htrim⟩

end ModularC
