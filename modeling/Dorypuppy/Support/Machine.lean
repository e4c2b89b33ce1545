import Mathlib.Data.List.Basic
import Mathlib.Data.List.Infix

/-!
# Support — machines and their runs

A machine takes an input in a state and gives the next state with the outputs of the step, in
order, or refuses the input.  Whatever the program does not decide itself (which thread goes
next, what a library call returns, what the user does) is in the input, so the step is a
function and a run is determined by its inputs.

* `Machine.RunWhere C s₀ h s`: a run from `s₀` to `s` whose every step meets the condition `C` on
  the state before it and its input; `h` is what happened, each input with its outputs.
  `Machine.Run` is the run with no condition.
* `RunWhere.inv`: what holds at the start and is kept by each step holds after every run.  The
  property speaks of the history and the state together.
* `Machine.exec`, `Machine.execWhere`: the run of a given list of inputs, computed.
* `Machine.Drains`: steps that use up a measure.  Their runs are no longer than it
  (`Drains.bound`), and one of them comes to rest (`Drains.rests`).
* `Throughout P is`: each input of the list has `P` with the inputs before it.
* `part view k`: what an input or an output is for one of several parts.
-/

namespace Support

variable {σ ι ο : Type}

/-- A machine over states `σ`, inputs `ι` and outputs `ο`. -/
structure Machine (σ ι ο : Type) where
  step : σ → ι → Option (σ × List ο)

/-- What happened in a run: each input with the outputs of its step. -/
abbrev History (ι ο : Type) := List (ι × List ο)

namespace History

def inputs (h : History ι ο) : List ι := h.map Prod.fst

def outputs (h : History ι ο) : List ο := h.flatMap Prod.snd

@[simp] theorem inputs_nil : inputs ([] : History ι ο) = [] := rfl

@[simp] theorem outputs_nil : outputs ([] : History ι ο) = [] := rfl

@[simp] theorem inputs_append (h k : History ι ο) : inputs (h ++ k) = inputs h ++ inputs k :=
  List.map_append

@[simp] theorem outputs_append (h k : History ι ο) :
    outputs (h ++ k) = outputs h ++ outputs k := List.flatMap_append

@[simp] theorem inputs_cons (i : ι) (os : List ο) (h : History ι ο) :
    inputs ((i, os) :: h) = i :: inputs h := rfl

@[simp] theorem outputs_cons (i : ι) (os : List ο) (h : History ι ο) :
    outputs ((i, os) :: h) = os ++ outputs h := by simp [outputs]

end History

/-! ### Runs -/

/-- A run whose steps all meet `C`, a condition on the state before the step and its input. -/
inductive Machine.RunWhere (M : Machine σ ι ο) (C : σ → ι → Prop) (s₀ : σ) :
    History ι ο → σ → Prop where
  | nil : M.RunWhere C s₀ [] s₀
  | snoc {h : History ι ο} {s s' : σ} {i : ι} {os : List ο} :
      M.RunWhere C s₀ h s → C s i → M.step s i = some (s', os) →
      M.RunWhere C s₀ (h ++ [(i, os)]) s'

/-- A run, with no condition on its steps. -/
abbrev Machine.Run (M : Machine σ ι ο) (s₀ : σ) (h : History ι ο) (s : σ) : Prop :=
  M.RunWhere (fun _ _ => True) s₀ h s

namespace Machine

variable {M : Machine σ ι ο} {C D : σ → ι → Prop} {s₀ s s' t : σ} {h k : History ι ο}

/-- A condition that follows from another in the states that are reached. -/
theorem RunWhere.imp (hCD : ∀ {h s i}, M.RunWhere C s₀ h s → C s i → D s i)
    (r : M.RunWhere C s₀ h s) : M.RunWhere D s₀ h s := by
  induction r with
  | nil => exact .nil
  | snoc r hC hs ih => exact .snoc ih (hCD r hC) hs

theorem RunWhere.mono (hCD : ∀ s i, C s i → D s i) (r : M.RunWhere C s₀ h s) :
    M.RunWhere D s₀ h s := r.imp fun _ => hCD _ _

theorem RunWhere.run (r : M.RunWhere C s₀ h s) : M.Run s₀ h s := r.mono fun _ _ _ => trivial

/-- What holds at the start and is kept by each step holds after every run.  The step may use
that its state was reached by the run so far, and that it meets the run's condition. -/
theorem RunWhere.inv (I : History ι ο → σ → Prop) (init : I [] s₀)
    (keep : ∀ {h : History ι ο} {s s' : σ} {i : ι} {os : List ο}, M.RunWhere C s₀ h s → C s i →
      M.step s i = some (s', os) → I h s → I (h ++ [(i, os)]) s')
    (r : M.RunWhere C s₀ h s) : I h s := by
  induction r with
  | nil => exact init
  | snoc r hC hs ih => exact keep r hC hs ih

theorem RunWhere.trans (r₁ : M.RunWhere C s₀ h s) (r₂ : M.RunWhere C s k t) :
    M.RunWhere C s₀ (h ++ k) t := by
  induction r₂ with
  | nil => simpa using r₁
  | snoc _ hC hs ih => rw [← List.append_assoc]; exact .snoc ih hC hs

theorem Run.one {i : ι} {os : List ο} (hs : M.step s i = some (s', os)) :
    M.Run s [(i, os)] s' := RunWhere.snoc (h := []) .nil trivial hs

theorem Run.of_one {i : ι} {os : List ο} (r : M.Run s [(i, os)] s') :
    M.step s i = some (s', os) := by
  generalize e : [(i, os)] = h at r
  cases r with
  | nil => cases e
  | @snoc h t _ j os' r _ hs =>
      rcases List.append_eq_singleton_iff.mp e.symm with ⟨rfl, e⟩ | ⟨-, e⟩
      · cases e
        generalize e : ([] : History ι ο) = h at r
        cases r with
        | nil => exact hs
        | snoc => exact absurd e (by simp)
      · cases e

/-- The inputs determine the run. -/
theorem RunWhere.det (r : M.RunWhere C s₀ h s) (r' : M.RunWhere D s₀ k t)
    (e : h.inputs = k.inputs) : h = k ∧ s = t := by
  induction r generalizing k t with
  | nil =>
      cases r' with
      | nil => exact ⟨rfl, rfl⟩
      | snoc => simp at e
  | snoc _ _ hs ih =>
      cases r' with
      | nil => simp at e
      | snoc r' _ hs' =>
          simp only [History.inputs_append, History.inputs_cons, History.inputs_nil] at e
          obtain ⟨e, ei⟩ := List.append_inj' e rfl
          obtain ⟨rfl, rfl⟩ := ih r' e
          cases ei
          rw [hs] at hs'
          cases hs'
          exact ⟨rfl, rfl⟩

/-- A run that meets two conditions. -/
theorem RunWhere.and (r : M.RunWhere C s₀ h s) (r' : M.RunWhere D s₀ h t) :
    M.RunWhere (fun s i => C s i ∧ D s i) s₀ h s := by
  induction r generalizing t with
  | nil => exact .nil
  | @snoc h s s' i os r hC hs ih =>
      generalize e : h ++ [(i, os)] = k at r'
      cases r' with
      | nil => simp at e
      | snoc r' hD hs' =>
          obtain ⟨rfl, ei⟩ := List.append_inj' e rfl
          cases ei
          obtain ⟨-, rfl⟩ := r.det r' rfl
          exact .snoc (ih r') ⟨hC, hD⟩ hs

/-- A run cut after its first `h` steps. -/
theorem RunWhere.split (r : M.RunWhere C s₀ (h ++ k) t) :
    ∃ s, M.RunWhere C s₀ h s ∧ M.RunWhere C s k t := by
  generalize e : h ++ k = l at r
  induction r generalizing k with
  | nil =>
      obtain ⟨rfl, rfl⟩ := List.append_eq_nil_iff.mp e
      exact ⟨_, .nil, .nil⟩
  | @snoc l s s' i os r hC hs ih =>
      rcases List.eq_nil_or_concat k with rfl | ⟨k, x, rfl⟩
      · rw [List.append_nil] at e
        exact ⟨s', e ▸ r.snoc hC hs, .nil⟩
      · rw [List.concat_eq_append, ← List.append_assoc] at e
        obtain ⟨e, ex⟩ := List.append_inj' e rfl
        obtain ⟨u, r₁, r₂⟩ := ih e
        cases ex
        exact ⟨u, r₁, by rw [List.concat_eq_append]; exact r₂.snoc hC hs⟩

/-- A run cut before and after one of its steps. -/
theorem RunWhere.cut {i : ι} {os : List ο} (r : M.RunWhere C s₀ (h ++ (i, os) :: k) t) :
    ∃ s s', M.RunWhere C s₀ h s ∧ M.step s i = some (s', os) ∧ M.RunWhere C s' k t := by
  rw [← List.singleton_append, ← List.append_assoc] at r
  obtain ⟨s', r, r₂⟩ := r.split
  obtain ⟨s, r₁, r⟩ := r.split
  exact ⟨s, s', r₁, Run.of_one r.run, r₂⟩

/-- The step of an input, found by the inputs before it. -/
theorem RunWhere.at {pre : List ι} {i : ι} (r : M.RunWhere C s₀ h t)
    (hp : pre ++ [i] <+: h.inputs) : ∃ k os l s s', h = k ++ (i, os) :: l ∧ k.inputs = pre ∧
      M.RunWhere C s₀ k s ∧ M.step s i = some (s', os) ∧ M.RunWhere C s' l t := by
  obtain ⟨rest, hrest⟩ := hp
  rw [List.append_assoc] at hrest
  obtain ⟨k, l, rfl, rfl, hl⟩ := List.map_eq_append_iff.mp hrest.symm
  obtain ⟨⟨j, os⟩, l, rfl, rfl, -⟩ := List.map_eq_cons_iff.mp hl
  obtain ⟨s, s', r₁, hs, r₂⟩ := r.cut
  exact ⟨k, os, l, s, s', rfl, rfl, r₁, hs, r₂⟩

/-- The run of a list of inputs from `s`, when no step refuses and each meets `C`. -/
def execWhere (M : Machine σ ι ο) (C : σ → ι → Bool) : σ → List ι → Option (History ι ο × σ)
  | s, [] => some ([], s)
  | s, i :: is =>
      if C s i then
        match M.step s i with
        | none => none
        | some (s', os) =>
            match execWhere M C s' is with
            | none => none
            | some (h, t) => some ((i, os) :: h, t)
      else none

/-- The run of a list of inputs from `s`, when no step refuses. -/
def exec (M : Machine σ ι ο) : σ → List ι → Option (History ι ο × σ) :=
  M.execWhere fun _ _ => true

theorem execWhere_run {C : σ → ι → Bool} : ∀ (is : List ι) {s : σ},
    M.execWhere C s is = some (h, t) → M.RunWhere (fun s i => C s i = true) s h t := by
  intro is
  induction is generalizing h with
  | nil => intro s e; cases e; exact .nil
  | cons i is ih =>
      intro s e
      simp only [execWhere] at e
      split at e
      · rename_i hC
        split at e
        · cases e
        · rename_i s' os hs
          split at e
          · cases e
          · rename_i h' t' he
            cases e
            have one : M.RunWhere (fun s i => C s i = true) s [(i, os)] s' :=
              RunWhere.snoc (h := []) .nil hC hs
            exact one.trans (ih he)
      · cases e

theorem exec_run (is : List ι) (e : M.exec s is = some (h, t)) : M.Run s h t :=
  (execWhere_run is e).run

theorem exec_cons (s : σ) (i : ι) (is : List ι) : M.exec s (i :: is) =
    (M.step s i).bind fun x => (M.exec x.1 is).map fun r => ((i, x.2) :: r.1, r.2) := by
  simp only [exec, execWhere, if_true]
  cases M.step s i with
  | none => rfl
  | some x =>
      obtain ⟨s', os⟩ := x
      simp only [Option.bind_some]
      cases M.execWhere (fun _ _ => true) s' is <;> rfl

theorem exec_append (s : σ) (is js : List ι) : M.exec s (is ++ js) =
    (M.exec s is).bind fun r => (M.exec r.2 js).map fun r' => (r.1 ++ r'.1, r'.2) := by
  induction is generalizing s with
  | nil =>
      simp only [List.nil_append, exec, execWhere, Option.bind_some]
      exact Option.map_id'.symm
  | cons i is ih =>
      rw [List.cons_append, exec_cons, exec_cons]
      cases M.step s i with
      | none => rfl
      | some x =>
          simp only [Option.bind_some, ih]
          cases M.exec x.1 is with
          | none => rfl
          | some r => simp [Option.map_map, Function.comp_def]

/-! ### Steps that use up a measure -/

/-- Each step that meets `C` in a state with `I` keeps `I` and makes `μ` smaller. -/
structure Drains (M : Machine σ ι ο) (C : σ → ι → Prop) (I : σ → Prop) (μ : σ → Nat) :
    Prop where
  less : ∀ {s s' : σ} {i : ι} {os : List ο}, I s → C s i → M.step s i = some (s', os) →
    I s' ∧ μ s' < μ s

variable {I : σ → Prop} {μ : σ → Nat}

/-- A run is no longer than what it uses up. -/
theorem Drains.bound (d : M.Drains C I μ) (hI : I s) (r : M.RunWhere C s h t) :
    I t ∧ h.length + μ t ≤ μ s := by
  induction r with
  | nil => exact ⟨hI, by simp⟩
  | snoc _ hC hs ih =>
      obtain ⟨hI, hle⟩ := ih
      obtain ⟨hI', hlt⟩ := d.less hI hC hs
      refine ⟨hI', ?_⟩
      rw [List.length_append, List.length_singleton]
      omega

/-- Some run leads to a state where no step is left. -/
theorem Drains.rests (d : M.Drains C I μ) (hI : I s) :
    ∃ h t, M.RunWhere C s h t ∧ ∀ i, C t i → M.step t i = none := by
  induction hn : μ s using Nat.strong_induction_on generalizing s with
  | _ n ih =>
      by_cases hrest : ∀ i, C s i → M.step s i = none
      · exact ⟨[], s, .nil, hrest⟩
      · push Not at hrest
        obtain ⟨i, hC, hne⟩ := hrest
        obtain ⟨⟨s', os⟩, hs⟩ := Option.ne_none_iff_exists'.mp hne
        obtain ⟨hI', hlt⟩ := d.less hI hC hs
        obtain ⟨h, t, r, hrest⟩ := ih _ (hn ▸ hlt) hI' rfl
        have one : M.RunWhere C s [(i, os)] s' := RunWhere.snoc (h := []) .nil hC hs
        exact ⟨_, t, one.trans r, hrest⟩

end Machine

/-! ### Properties of the inputs in their order -/

/-- Each input of the list has `P` with the inputs before it. -/
def Throughout (P : List ι → ι → Prop) (is : List ι) : Prop :=
  ∀ pre i, pre ++ [i] <+: is → P pre i

@[simp] theorem throughout_nil (P : List ι → ι → Prop) : Throughout P [] := by
  simp [Throughout]

@[simp] theorem throughout_snoc {P : List ι → ι → Prop} {is : List ι} {i : ι} :
    Throughout P (is ++ [i]) ↔ Throughout P is ∧ P is i := by
  constructor
  · exact fun h => ⟨fun pre j hp => h pre j (hp.trans (List.prefix_append _ _)),
      h is i (List.prefix_refl _)⟩
  · rintro ⟨h, hi⟩ pre j hp
    rcases List.prefix_concat_iff.mp hp with e | hp
    · obtain ⟨epre, ej⟩ := List.append_inj' e rfl
      cases epre
      cases ej
      exact hi
    · exact h pre j hp

theorem throughout_iff_take {P : List ι → ι → Prop} {is : List ι} :
    Throughout P is ↔ ∀ n : Fin is.length, P (is.take n) is[n] := by
  refine ⟨fun h n => h _ _ ?_, fun h pre i hp => ?_⟩
  · rw [Fin.getElem_fin, List.take_concat_get']
    exact List.take_prefix _ _
  · obtain ⟨l, rfl⟩ := hp
    simpa using h ⟨pre.length, by simp⟩

/-- What comes before the one input of a kind. -/
theorem before_unique {p : ι → Bool} {a b a' b' : List ι} {i j : ι} (hi : p i) (hj : p j)
    (e : a ++ i :: b = a' ++ j :: b') (once : (a ++ i :: b).countP p ≤ 1) : a = a' := by
  have twice (c d f : List ι) (i j : ι) (hi : p i) (hj : p j) :
      1 < (c ++ i :: (d ++ j :: f)).countP p := by
    simp only [List.countP_append, List.countP_cons, hi, hj, if_true]
    omega
  rcases List.append_eq_append_iff.mp e with ⟨l, rfl, e'⟩ | ⟨l, rfl, e'⟩
  · cases l with
    | nil => simp
    | cons k l =>
        obtain ⟨rfl, rfl⟩ := List.cons.inj e'
        exact absurd once (twice _ _ _ _ _ hi hj).not_ge
  · cases l with
    | nil => simp
    | cons k l =>
        obtain ⟨rfl, rfl⟩ := List.cons.inj e'
        rw [e] at once
        exact absurd once (twice _ _ _ _ _ hj hi).not_ge

/-- A property of the one input of a kind. -/
theorem throughout_once {p : ι → Bool} {P : List ι → Prop} {a b : List ι} {i : ι} (hi : p i)
    (once : (a ++ i :: b).countP p ≤ 1) :
    Throughout (fun pre j => p j → P pre) (a ++ i :: b) ↔ P a := by
  refine ⟨fun h => h a i ⟨b, by simp⟩ hi, fun hP pre j hpre hj => ?_⟩
  obtain ⟨l, hl⟩ := hpre
  rw [List.append_assoc, List.singleton_append] at hl
  exact before_unique hi hj hl.symm once ▸ hP

instance (P : List ι → ι → Prop) [∀ pre i, Decidable (P pre i)] (is : List ι) :
    Decidable (Throughout P is) :=
  decidable_of_iff _ throughout_iff_take.symm

/-! ### What belongs to one part -/

section Part
variable {κ α β : Type} [DecidableEq κ] {view : β → Option (κ × α)} {k k' : κ} {x : β} {a : α}

/-- What an input or an output is for the part `k`, when `view` tells whose it is. -/
def part (view : β → Option (κ × α)) (k : κ) (x : β) : Option α :=
  match view x with
  | some (k', a) => if k' = k then some a else none
  | none => none

theorem part_eq_some : part view k x = some a ↔ view x = some (k, a) := by
  unfold part
  split
  · rename_i k' a' hx
    rw [hx, Option.ite_none_right_eq_some, Option.some.injEq, Option.some.injEq, Prod.mk.injEq]
  · rename_i hx
    rw [hx]
    exact iff_of_false nofun nofun

theorem part_own (hx : view x = some (k, a)) : part view k x = some a := part_eq_some.mpr hx

theorem part_other (hx : view x = some (k', a)) (hne : k' ≠ k) : part view k x = none := by
  rw [part, hx]
  exact if_neg hne

variable {mk : α → β}

variable (view) in
theorem filterMap_part_own (hmk : ∀ a, view (mk a) = some (k, a)) (as : List α) :
    (as.map mk).filterMap (part view k) = as := by
  induction as with
  | nil => rfl
  | cons a as ih => rw [List.map_cons, List.filterMap_cons_some (part_own (hmk a)), ih]

variable (view) in
theorem filterMap_part_other (hmk : ∀ a, view (mk a) = some (k', a)) (hne : k' ≠ k)
    (as : List α) : (as.map mk).filterMap (part view k) = [] := by
  induction as with
  | nil => rfl
  | cons a as ih => rw [List.map_cons, List.filterMap_cons_none (part_other (hmk a) hne), ih]

end Part

end Support
