import Dorypuppy.Support.Machine

/-!
# Support — a machine followed by another

A machine `M` is *followed* by a machine `N` along an abstraction `α` of its states when each of
its steps is either one of `N`, from the image to the image and with the same outputs, or is not
seen by `N` at all: the image stays and nothing is put out.

* `Follows.run`: then each run of `M` has a run of `N` with the same outputs, between the images,
  and its steps meet whatever condition the steps they come from were asked to meet.
* `Follows.strengthen`: an invariant of `N` may be used to show that the steps of `M` meet what the
  abstraction asks of them.

A machine that does more than `N` may also put out later what `N` puts out at once; then `M` *lags*
behind `N`, and what it still owes is a function of its state.

* `Lags.run`: each run of `M` has a run of `N` that has put out the same and what is owed.
-/

namespace Support

variable {σ τ ι κ ο : Type}

namespace Machine

variable {M : Machine σ ι ο} {N : Machine τ κ ο} {C : σ → ι → Prop} {I : σ → Prop} {α : σ → τ}
  {name : σ → ι → Option κ}

/-- From states with `I`, steps of `M` that meet `C` keep `I` and are followed by `N` along `α`.
`name` is the input of `N`, if there is one. -/
structure Follows (M : Machine σ ι ο) (N : Machine τ κ ο) (C : σ → ι → Prop) (I : σ → Prop)
    (α : σ → τ) (name : σ → ι → Option κ) : Prop where
  keep : ∀ {s s' : σ} {i : ι} {os : List ο}, I s → C s i → M.step s i = some (s', os) → I s'
  seen : ∀ {s s' : σ} {i : ι} {os : List ο} {j : κ}, I s → C s i → M.step s i = some (s', os) →
    name s i = some j → N.step (α s) j = some (α s', os)
  unseen : ∀ {s s' : σ} {i : ι} {os : List ο}, I s → C s i → M.step s i = some (s', os) →
    name s i = none → α s' = α s ∧ os = []

/-- A run of `M` is followed by a run of `N`. -/
theorem Follows.run (f : M.Follows N C I α name) {D : τ → κ → Prop} {s₀ s : σ}
    {h : History ι ο} (hI : I s₀)
    (r : M.RunWhere (fun s i => C s i ∧ ∀ j, name s i = some j → D (α s) j) s₀ h s) :
    I s ∧ ∃ k, N.RunWhere D (α s₀) k (α s) ∧ k.outputs = h.outputs := by
  induction r with
  | nil => exact ⟨hI, [], .nil, rfl⟩
  | @snoc h s s' i os _ hC hs ih =>
      obtain ⟨hI, k, r, hk⟩ := ih
      refine ⟨f.keep hI hC.1 hs, ?_⟩
      cases hname : name s i with
      | none =>
          obtain ⟨hα, rfl⟩ := f.unseen hI hC.1 hs hname
          exact ⟨k, hα ▸ r, by simp [hk]⟩
      | some j =>
          exact ⟨_, r.snoc (hC.2 j hname) (f.seen hI hC.1 hs hname), by simp [hk]⟩

/-- Steps whose image meets `D`, and so keeps an invariant `J` of `N`, meet `C` where `J` gives
it. -/
theorem Follows.strengthen (f : M.Follows N C I α name) {D : τ → κ → Prop} {J : τ → Prop}
    (hJ : ∀ {t t' : τ} {j : κ} {os : List ο}, J t → D t j → N.step t j = some (t', os) → J t')
    (hC : ∀ {s : σ} {i : ι}, I s → J (α s) → C s i) :
    M.Follows N (fun s i => ∀ j, name s i = some j → D (α s) j) (fun s => I s ∧ J (α s)) α
      name := by
  refine ⟨fun hI hD hs => ?_, fun hI _ => f.seen hI.1 (hC hI.1 hI.2),
    fun hI _ => f.unseen hI.1 (hC hI.1 hI.2)⟩
  rename_i s s' i os
  have hmeets : C s i := hC hI.1 hI.2
  refine ⟨f.keep hI.1 hmeets hs, ?_⟩
  cases hname : name s i with
  | none =>
      obtain ⟨hα, -⟩ := f.unseen hI.1 hmeets hs hname
      exact hα ▸ hI.2
  | some j => exact hJ hI.2 (hD j hname) (f.seen hI.1 hmeets hs hname)

/-- From states with `I`, steps of `M` that meet `C` keep `I` and are steps of `N` along `α`, or not
seen by it.  `out` and `see` give what is looked at of the outputs of `M` and of `N`, and `owed`
what of it `M` has yet to put out. -/
structure Lags {ρ ν : Type} (M : Machine σ ι ο) (N : Machine τ κ ρ) (C : σ → ι → Prop)
    (I : σ → Prop) (α : σ → τ) (name : σ → ι → Option κ) (out : ο → Option ν)
    (see : ρ → Option ν) (owed : σ → List ν) : Prop where
  keep : ∀ {s s' : σ} {i : ι} {os : List ο}, I s → C s i → M.step s i = some (s', os) → I s'
  seen : ∀ {s s' : σ} {i : ι} {os : List ο} {j : κ}, I s → C s i → M.step s i = some (s', os) →
    name s i = some j → ∃ ps, N.step (α s) j = some (α s', ps) ∧
      owed s ++ ps.filterMap see = os.filterMap out ++ owed s'
  unseen : ∀ {s s' : σ} {i : ι} {os : List ο}, I s → C s i → M.step s i = some (s', os) →
    name s i = none → α s' = α s ∧ owed s = os.filterMap out ++ owed s'

/-- A run of `M` is a run of `N`, with what is owed.  The inputs of `N` that have `p` are those
that `q` gives. -/
theorem Lags.run {ρ ν : Type} {N : Machine τ κ ρ} {out : ο → Option ν} {see : ρ → Option ν}
    {owed : σ → List ν} (f : M.Lags N C I α name out see owed) {p : κ → Bool} {q : ι → Option κ}
    (hpq : ∀ {s s' : σ} {i : ι} {os : List ο}, I s → C s i → M.step s i = some (s', os) →
      (name s i).filter p = q i)
    {s₀ s : σ} {h : History ι ο} (hI : I s₀) (r : M.RunWhere C s₀ h s) :
    I s ∧ ∃ k, N.Run (α s₀) k (α s) ∧
      owed s₀ ++ k.outputs.filterMap see = h.outputs.filterMap out ++ owed s ∧
      k.inputs.filter p = h.inputs.filterMap q := by
  induction r with
  | nil => exact ⟨hI, [], .nil, by simp, rfl⟩
  | @snoc h s s' i os _ hC hs ih =>
      obtain ⟨hI, k, r, hk, hin⟩ := ih
      refine ⟨f.keep hI hC hs, ?_⟩
      have hq := hpq hI hC hs
      cases hname : name s i with
      | none =>
          obtain ⟨hα, howed⟩ := f.unseen hI hC hs hname
          rw [hname] at hq
          refine ⟨k, hα ▸ r, ?_, ?_⟩
          · simp [hk, howed]
          · simp [hin, ← hq]
      | some j =>
          obtain ⟨ps, hstep, howed⟩ := f.seen hI hC hs hname
          rw [hname] at hq
          refine ⟨_, r.snoc trivial hstep, ?_, ?_⟩
          · rw [History.outputs_append, History.outputs_cons, History.outputs_nil,
              List.append_nil, List.filterMap_append, ← List.append_assoc, hk,
              List.append_assoc, howed]
            simp
          · have hone : [j].filter p = [i].filterMap q := by
              rw [List.filterMap_cons, ← hq]
              cases hj : p j <;> simp [Option.filter, hj]
            simp only [History.inputs_append, History.inputs_cons, History.inputs_nil,
              List.filter_append, List.filterMap_append, hin, hone]

end Machine

end Support
