import Mathlib.Data.List.Infix
import Mathlib.Data.List.Nodup
import ModularC.Resolve

/-!
The places of a tree, which bound how deeply resolution nests.
-/

namespace ModularC

/-- A name a place may hold: not empty, not `.` or `..`, and without a slash. -/
def Path.isPlain (name : String) : Bool :=
  name != "" && name != "." && name != ".." && !name.toList.contains '/'

theorem List.false_of_mem_splitOnP {α : Type} {p : α → Bool} :
    ∀ {xs l : List α}, l ∈ xs.splitOnP p → ∀ a ∈ l, p a = false
  | [], l, hl => by
    rw [List.splitOnP_nil, List.mem_singleton] at hl
    subst hl
    intro a ha
    cases ha
  | x :: xs, l, hl => by
    rw [List.splitOnP_cons_eq_if_modifyHead] at hl
    split at hl
    · rcases List.mem_cons.1 hl with rfl | hl
      · intro a ha
        cases ha
      · exact List.false_of_mem_splitOnP hl
    · obtain ⟨l₀, ls, hs⟩ := List.exists_cons_of_ne_nil (List.splitOnP_ne_nil p xs)
      rw [hs, List.modifyHead_cons] at hl
      rcases List.mem_cons.1 hl with rfl | hl
      · intro a ha
        rcases List.mem_cons.1 ha with rfl | ha
        · simpa using ‹¬p a = true›
        · exact List.false_of_mem_splitOnP (hs ▸ List.mem_cons_self) a ha
      · exact List.false_of_mem_splitOnP (hs ▸ List.mem_cons_of_mem _ hl)

namespace Path

theorem slash_not_mem_of_mem_pieces {path x : String} (h : x ∈ pieces path) :
    '/' ∉ x.toList := by
  obtain ⟨l, hl, rfl⟩ := List.mem_map.1 h
  rw [List.splitOn_eq_splitOnP] at hl
  intro hmem
  rw [String.toList_ofList] at hmem
  simpa using List.false_of_mem_splitOnP hl '/' hmem

theorem isPlain_iff {x : String} :
    isPlain x = true ↔ x ≠ "" ∧ x ≠ "." ∧ x ≠ ".." ∧ '/' ∉ x.toList := by
  simp [isPlain, and_assoc]

theorem pieces_render {place : List String} (h : ∀ x ∈ place, isPlain x = true) :
    (pieces (Tree.render place)).filter (· != "") = place := by
  have hslash : ∀ l ∈ place.map String.toList, '/' ∉ l := by
    intro l hl
    obtain ⟨x, hx, rfl⟩ := List.mem_map.1 hl
    exact (isPlain_iff.1 (h x hx)).2.2.2
  have hsplit : ("/".intercalate place).toList.splitOn '/' =
      if place = [] then [[]] else place.map String.toList := by
    rw [String.toList_intercalate]
    split
    · subst_vars
      rfl
    · exact List.splitOn_intercalate '/' hslash (by simpa)
  have hnonempty : ∀ x ∈ place, (x != "") = true := by
    intro x hx
    simpa using (isPlain_iff.1 (h x hx)).1
  rw [pieces, Tree.render, String.toList_append, show "/".toList = ['/'] from rfl,
    List.singleton_append, List.splitOn_cons_eq_if_modifyHead, if_pos (by simp), hsplit]
  split
  · subst_vars
    rfl
  · simp only [List.map_cons, List.map_map, List.filter_cons]
    rw [List.filter_eq_self.2 (by simpa using hnonempty)]
    simp

end Path

namespace Tree

variable (t : Tree)

/-- The places that lie in the tree: the mount and the places above it, and every place on the
way to a file or a listed directory. -/
def places : List (List String) :=
  t.mount.inits ++ (t.files.map (·.1) ++ t.dirs).flatMap fun rel => rel.inits.tail.map (t.mount ++ ·)

theorem mem_places_of_isPrefix {rel : List String} (hne : rel ≠ [])
    (hrel : ∃ full ∈ t.files.map (·.1) ++ t.dirs, rel <+: full) : t.mount ++ rel ∈ t.places := by
  obtain ⟨full, hfull, hpre⟩ := hrel
  apply List.mem_append_right
  apply List.mem_flatMap.2
  refine ⟨full, hfull, List.mem_map.2 ⟨rel, ?_, rfl⟩⟩
  have hinits : rel ∈ full.inits := (List.mem_inits _ _).2 hpre
  cases full with
  | nil =>
    rw [List.prefix_nil] at hpre
    exact absurd hpre hne
  | cons y ys =>
    rw [List.inits_cons, List.tail_cons]
    rw [List.inits_cons, List.mem_cons] at hinits
    exact hinits.resolve_left hne

theorem mem_places {p : List String} {n : Node} (h : t.node? p = some n) : p ∈ t.places := by
  unfold node? at h
  split at h
  next hpre => exact List.mem_append_left _ ((List.mem_inits _ _).2 (List.isPrefixOf_iff_prefix.1 hpre))
  split at h
  next hnot hmount =>
    have hp : p = t.mount ++ p.drop t.mount.length :=
      (List.prefix_iff_eq_append.1 (List.isPrefixOf_iff_prefix.1 hmount)).symm
    have hne : p.drop t.mount.length ≠ [] := by
      intro hnil
      rw [hnil, List.append_nil] at hp
      exact hnot (by rw [hp]; exact List.isPrefixOf_iff_prefix.2 (List.prefix_refl _))
    rw [hp]
    apply t.mem_places_of_isPrefix hne
    dsimp only at h
    split at h
    next text hlook =>
      obtain ⟨l₁, l₂, hfiles, -⟩ := List.lookup_eq_some_iff.1 hlook
      exact ⟨p.drop t.mount.length, by simp [hfiles], List.prefix_refl _⟩
    split at h
    next hany =>
      rw [Bool.or_eq_true, List.any_eq_true, List.any_eq_true] at hany
      rcases hany with ⟨d, hd, hpre⟩ | ⟨f, hf, hpre⟩
      · exact ⟨d, by simp [hd], List.isPrefixOf_iff_prefix.1 hpre⟩
      · exact ⟨f.1, List.mem_append_left _ (List.mem_map_of_mem hf), List.isPrefixOf_iff_prefix.1 hpre⟩
    · cases h
  · cases h

theorem length_flatMap_le_foldl {α β : Type} (g : α → List β) (len : α → Nat)
    (hg : ∀ x, (g x).length = len x) :
    ∀ (xs : List α) (a : Nat), a + (xs.flatMap g).length ≤ xs.foldl (fun n x => n + len x + 1) a
  | [], a => by
    simp only [List.flatMap_nil, List.length_nil, Nat.add_zero, List.foldl_nil, Nat.le_refl]
  | x :: xs, a => by
    have ih := length_flatMap_le_foldl g len hg xs (a + len x + 1)
    rw [List.flatMap_cons, List.length_append, hg, List.foldl_cons]
    omega

theorem places_length_le : 4 * t.places.length + 2 ≤ Resolver.fuelFor t := by
  have hinits : ∀ rel : List String, (rel.inits.tail.map (t.mount ++ ·)).length = rel.length := by
    intro rel
    rw [List.length_map, List.length_tail, List.length_inits, Nat.add_sub_cancel]
  have hfiles := length_flatMap_le_foldl
    (fun f : List String × String => f.1.inits.tail.map (t.mount ++ ·)) (fun f => f.1.length)
    (fun f => hinits f.1) t.files 0
  have hdirs := length_flatMap_le_foldl (fun rel => rel.inits.tail.map (t.mount ++ ·)) List.length
    hinits t.dirs 0
  rw [Resolver.fuelFor, places, List.length_append, List.length_inits, List.flatMap_append,
    List.length_append, List.flatMap_map]
  omega

theorem nil_mem_places : [] ∈ t.places :=
  List.mem_append_left _ ((List.mem_inits _ _).2 List.nil_prefix)

theorem follow_plain {start p : List String} {m n : Node} :
    ∀ {parts : List String}, t.follow start m parts = .ok (p, n) →
      (∀ x ∈ start, Path.isPlain x = true) → (∀ x ∈ parts, x ≠ "" ∧ '/' ∉ x.toList) →
      ∀ x ∈ p, Path.isPlain x = true := by
  intro parts
  induction parts generalizing start m with
  | nil =>
    intro h hstart _
    cases h
    exact hstart
  | cons part parts ih =>
    intro h hstart hparts
    have hrest : ∀ x ∈ parts, x ≠ "" ∧ '/' ∉ x.toList := fun x hx => hparts x (List.mem_cons_of_mem _ hx)
    unfold follow at h
    split at h
    · cases h
    by_cases hdot : part = "."
    · rw [if_pos (by simp [hdot])] at h
      exact ih h hstart hrest
    rw [if_neg (by simpa using hdot)] at h
    by_cases hdots : part = ".."
    · rw [if_pos (by simp [hdots])] at h
      exact ih h (fun x hx => hstart x ((List.dropLast_sublist _).subset hx)) hrest
    rw [if_neg (by simpa using hdots)] at h
    split at h
    · refine ih h (fun x hx => ?_) hrest
      rcases List.mem_append.1 hx with hx | hx
      · exact hstart x hx
      · rw [List.mem_singleton] at hx
        subst hx
        obtain ⟨hne, hslash⟩ := hparts _ List.mem_cons_self
        exact Path.isPlain_iff.2 ⟨hne, hdot, hdots, hslash⟩
    · cases h

theorem walk_plain {cwd : List String} {path : String} {p : List String} {n : Node}
    (hcwd : ∀ x ∈ cwd, Path.isPlain x = true) (h : t.walk cwd path = .ok (p, n)) :
    ∀ x ∈ p, Path.isPlain x = true := by
  have hparts : ∀ x ∈ (Path.pieces path).filter (· != ""), x ≠ "" ∧ '/' ∉ x.toList := by
    intro x hx
    rw [List.mem_filter] at hx
    exact ⟨by simpa using hx.2, Path.slash_not_mem_of_mem_pieces hx.1⟩
  have hstart : ∀ x ∈ (if path.startsWith "/" then [] else cwd), Path.isPlain x = true := by
    split
    · intro x hx
      cases hx
    · exact hcwd
  unfold walk at h
  split at h
  · cases h
  dsimp only at h
  split at h
  · split at h
    · cases h
    · exact t.follow_plain h hstart hparts
  · exact t.follow_plain h hstart hparts

theorem follow_of_plain {start q : List String} {m n : Node} :
    ∀ {p : List String}, (∀ x ∈ p, Path.isPlain x = true) → t.follow start m p = .ok (q, n) →
      q = start ++ p ∧ (p ≠ [] → t.node? q = some n) := by
  intro p
  induction p generalizing start m with
  | nil =>
    intro _ h
    cases h
    exact ⟨(List.append_nil _).symm, fun h => absurd rfl h⟩
  | cons x xs ih =>
    intro hp h
    obtain ⟨-, hdot, hdots, -⟩ := Path.isPlain_iff.1 (hp x List.mem_cons_self)
    unfold follow at h
    split at h
    · cases h
    rw [if_neg (by simpa using hdot), if_neg (by simpa using hdots)] at h
    split at h
    next m' hnode =>
      obtain ⟨hq, hnq⟩ := ih (fun y hy => hp y (List.mem_cons_of_mem _ hy)) h
      refine ⟨by rw [hq, List.append_assoc, List.singleton_append], fun _ => ?_⟩
      cases xs with
      | nil =>
        unfold follow at h
        cases h
        exact hnode
      | cons => exact hnq (List.cons_ne_nil _ _)
    · cases h

/-- A plain place written out and walked from the root is reached again, and lies in the tree. -/
theorem walk_render {cwd p q : List String} {n : Node} (hp : ∀ x ∈ p, Path.isPlain x = true)
    (h : t.walk cwd (render p) = .ok (q, n)) : q = p ∧ p ∈ t.places := by
  have hfollow : t.follow [] .dir p = .ok (q, n) := by
    unfold walk at h
    rw [if_neg (by simp [render]), if_pos (by simp [render]), Path.pieces_render hp] at h
    dsimp only at h
    split at h
    · split at h
      · cases h
      · exact h
    · exact h
  obtain ⟨hq, hnode⟩ := t.follow_of_plain hp hfollow
  rw [List.nil_append] at hq
  refine ⟨hq, ?_⟩
  cases p with
  | nil => exact t.nil_mem_places
  | cons x xs => exact t.mem_places (hq ▸ hnode (List.cons_ne_nil _ _))

theorem canonicalize_eq_ok {cwd : List String} {path c : String}
    (h : t.canonicalize cwd path = .ok c) : ∃ p n, t.walk cwd path = .ok (p, n) ∧ c = render p := by
  unfold canonicalize at h
  cases hw : t.walk cwd path with
  | error e =>
    rw [hw] at h
    cases h
  | ok pn =>
    rw [hw] at h
    cases h
    exact ⟨pn.1, pn.2, rfl, rfl⟩

end Tree

end ModularC
