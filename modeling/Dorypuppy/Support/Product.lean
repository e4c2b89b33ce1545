import Dorypuppy.Support.Machine

/-!
# Support — machines made of parts

A machine has parts when each input is one of a part, and its step is a step of this part alone, a
machine of its own that sees nothing of the others (`Parts`).  A run is then a run of each part
(`Parts.run_part`), so two runs whose inputs are the same in each part, in the same order, end with
the same parts and have the same outputs in each (`Parts.agree`); and if one order of the inputs is
a run, every such order is (`Parts.goes_on`).
-/

namespace Support

variable {σ ι ο κ τ α β : Type} [DecidableEq κ]

/-- The machine `M` is made of the machines `L k`.  In a state that has the invariant `I`, a step
of an input with the key `k` is the step of `L k` on its part of the state, takes place when that
does, and leaves the other parts alone. -/
structure Parts (M : Machine σ ι ο) (L : κ → Machine τ α β) where
  I : σ → Prop
  key : ι → κ
  act : ι → α
  view : κ → σ → τ
  out : κ → ο → Option β
  keep : ∀ {s i s' os}, I s → M.step s i = some (s', os) → I s'
  moves : ∀ {s i s' os}, I s → M.step s i = some (s', os) →
    (L (key i)).step (view (key i) s) (act i) =
      some (view (key i) s', os.filterMap (out (key i)))
  stays : ∀ {s i s' os k}, I s → M.step s i = some (s', os) → k ≠ key i →
    view k s' = view k s ∧ os.filterMap (out k) = []
  goes : ∀ {s i}, I s → ((L (key i)).step (view (key i) s) (act i)).isSome → (M.step s i).isSome

namespace Parts

variable {M : Machine σ ι ο} {L : κ → Machine τ α β} (P : Parts M L) {s₀ s s' : σ}
  {h h' : History ι ο}

/-- The inputs of a part. -/
def acts (k : κ) (is : List ι) : List α := (is.filter (P.key · = k)).map P.act

/-- What happened in a part. -/
def part (k : κ) (h : History ι ο) : History α β :=
  (h.filter (P.key ·.1 = k)).map fun x => (P.act x.1, x.2.filterMap (P.out k))

theorem acts_append (k : κ) (is js : List ι) :
    P.acts k (is ++ js) = P.acts k is ++ P.acts k js := by
  rw [acts, List.filter_append, List.map_append]
  rfl

theorem part_append (k : κ) (h h' : History ι ο) :
    P.part k (h ++ h') = P.part k h ++ P.part k h' := by
  rw [part, List.filter_append, List.map_append]
  rfl

theorem part_inputs (k : κ) (h : History ι ο) : (P.part k h).inputs = P.acts k h.inputs := by
  rw [acts, History.inputs, History.inputs, part, List.map_map, List.filter_map, List.map_map]
  rfl

/-- A run is a run of each part, with the outputs of the part. -/
theorem run_part (h₀ : P.I s₀) (r : M.Run s₀ h s) : P.I s ∧ ∀ k,
    (L k).Run (P.view k s₀) (P.part k h) (P.view k s) ∧
      (P.part k h).outputs = h.outputs.filterMap (P.out k) := by
  induction r with
  | nil => exact ⟨h₀, fun k => ⟨.nil, rfl⟩⟩
  | @snoc h s s' i os r _ hs ih =>
      obtain ⟨hI, ih⟩ := ih
      refine ⟨P.keep hI hs, fun k => ?_⟩
      obtain ⟨rk, ho⟩ := ih k
      rw [part_append, History.outputs_append, History.outputs_append, List.filterMap_append, ho]
      by_cases hk : P.key i = k
      · subst hk
        have hp : P.part (P.key i) [(i, os)] = [(P.act i, os.filterMap (P.out (P.key i)))] := by
          simp [part]
        rw [hp]
        exact ⟨rk.snoc trivial (P.moves hI hs), by simp⟩
      · obtain ⟨hv, hn⟩ := P.stays hI hs (Ne.symm hk)
        have hp : P.part k [(i, os)] = [] := by simp [part, hk]
        rw [hp, hv, List.append_nil]
        exact ⟨rk, by simp [hn]⟩

/-- **Two orders of the same inputs.**  Two runs with the same inputs in each part end with the same
parts, and have the same outputs in each. -/
theorem agree (h₀ : P.I s₀) (r : M.Run s₀ h s) (r' : M.Run s₀ h' s')
    (hsame : ∀ k, P.acts k h.inputs = P.acts k h'.inputs) (k : κ) :
    P.view k s = P.view k s' ∧
      h.outputs.filterMap (P.out k) = h'.outputs.filterMap (P.out k) := by
  obtain ⟨rk, ho⟩ := (P.run_part h₀ r).2 k
  obtain ⟨rk', ho'⟩ := (P.run_part h₀ r').2 k
  obtain ⟨hp, hv⟩ := rk.det rk' (by rw [part_inputs, part_inputs, hsame])
  exact ⟨hv, by rw [← ho, ← ho', hp]⟩

/-- **Another order of the inputs of a run** is one of a run. -/
theorem goes_on (h₀ : P.I s₀) (r : M.Run s₀ h s) {is : List ι}
    (hsame : ∀ k, P.acts k h.inputs = P.acts k is) :
    ∃ h' s', M.Run s₀ h' s' ∧ h'.inputs = is := by
  suffices ∀ pre, pre <+: is → ∃ h' s', M.Run s₀ h' s' ∧ h'.inputs = pre from
    this is (List.prefix_refl is)
  intro pre
  induction pre using List.reverseRecOn with
  | nil => exact fun _ => ⟨[], s₀, .nil, rfl⟩
  | append_singleton pre i ih =>
      intro hp
      obtain ⟨h', s', r', rfl⟩ := ih ((List.prefix_append _ _).trans hp)
      obtain ⟨hI, hparts⟩ := P.run_part h₀ r'
      -- the part of the input has made the step in the given run
      have hpre : P.acts (P.key i) h'.inputs ++ [P.act i] <+: (P.part (P.key i) h).inputs := by
        obtain ⟨rest, rfl⟩ := hp
        rw [part_inputs, hsame, acts_append, acts_append]
        exact ⟨P.acts (P.key i) rest, by simp [acts]⟩
      obtain ⟨k, os, -, u, u', -, hk, rk, hu, -⟩ := ((P.run_part h₀ r).2 (P.key i)).1.at hpre
      obtain ⟨-, rfl⟩ := rk.det (hparts (P.key i)).1 (by rw [hk, part_inputs])
      obtain ⟨⟨s'', os'⟩, hs⟩ := Option.isSome_iff_exists.mp (P.goes hI (by rw [hu]; rfl))
      exact ⟨_, s'', r'.snoc trivial hs, by simp⟩

end Parts

end Support
