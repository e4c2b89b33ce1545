import Dorypuppy.Support.Machine

/-!
# Support — monitors

A monitor says in which order things may happen, whatever machine makes them happen.  It reads marks
one after another, each takes it from one phase to the next, and it refuses a mark that may not come
in its phase.  A machine is watched through a view, which gives the marks of its outputs.

* `Monitor.run`: the phase after a list of marks.
* `RunWhere.monitored`: a machine whose steps keep a relation to the phases is never refused.
* `Monitor.later`: of a list that is not refused, what comes after a phase is what this phase and
  those it leads to take.
* `Monitor.countP_le`: and marks that use up something come as often as there is of it.
-/

namespace Support

variable {φ μ σ ι ο : Type}

structure Monitor (φ μ : Type) where
  start : φ
  next : φ → μ → Option φ

namespace Monitor

variable (m : Monitor φ μ)

/-- The phase after a list of marks, when none is refused. -/
def run : φ → List μ → Option φ
  | a, [] => some a
  | a, x :: xs =>
      match m.next a x with
      | none => none
      | some b => run b xs

@[simp] theorem run_nil (a : φ) : m.run a [] = some a := rfl

theorem run_cons (a : φ) (x : μ) (xs : List μ) :
    m.run a (x :: xs) = (m.next a x).bind fun b => m.run b xs := by
  rw [run]
  cases m.next a x <;> rfl

@[simp] theorem run_singleton (a : φ) (x : μ) : m.run a [x] = m.next a x := by
  rw [run_cons]
  cases m.next a x <;> rfl

theorem run_append (a : φ) (xs ys : List μ) :
    m.run a (xs ++ ys) = (m.run a xs).bind fun b => m.run b ys := by
  induction xs generalizing a with
  | nil => rfl
  | cons x xs ih =>
      rw [List.cons_append, run_cons, run_cons]
      cases m.next a x with
      | none => rfl
      | some b => exact ih b

variable {m}

/-- Phases with `P` lead to such phases only, by marks with `Q`; so all marks from there on have
`Q`. -/
theorem later {P : φ → Prop} {Q : μ → Prop}
    (keep : ∀ {a b x}, P a → m.next a x = some b → P b ∧ Q x) :
    ∀ {xs : List μ} {a b : φ}, P a → m.run a xs = some b → P b ∧ ∀ x ∈ xs, Q x := by
  intro xs
  induction xs with
  | nil =>
      intro a b ha h
      cases h
      exact ⟨ha, by simp⟩
  | cons x xs ih =>
      intro a b ha h
      rw [run_cons, Option.bind_eq_some_iff] at h
      obtain ⟨c, hc, h⟩ := h
      obtain ⟨hP, hQ⟩ := keep ha hc
      obtain ⟨hb, hxs⟩ := ih hP h
      refine ⟨hb, fun y hy => ?_⟩
      rcases List.mem_cons.mp hy with rfl | hy
      · exact hQ
      · exact hxs y hy

/-- Marks with `Q` use up the rank of the phases. -/
theorem countP_le {P : φ → Prop} {Q : μ → Bool} (rank : φ → Nat)
    (keep : ∀ {a b x}, P a → m.next a x = some b →
      P b ∧ rank b + (if Q x then 1 else 0) ≤ rank a) :
    ∀ {xs : List μ} {a b : φ}, P a → m.run a xs = some b → xs.countP Q + rank b ≤ rank a := by
  intro xs
  induction xs with
  | nil =>
      intro a b _ h
      cases h
      simp
  | cons x xs ih =>
      intro a b ha h
      rw [run_cons, Option.bind_eq_some_iff] at h
      obtain ⟨c, hc, h⟩ := h
      obtain ⟨hP, hle⟩ := keep ha hc
      have := ih hP h
      rw [List.countP_cons]
      omega

end Monitor

/-- **A machine that a monitor watches.** -/
theorem Machine.RunWhere.monitored {M : Machine σ ι ο} {C : σ → ι → Prop} {s₀ s : σ}
    {h : History ι ο} (m : Monitor φ μ) (view : ο → Option μ) (R : σ → φ → Prop)
    (init : R s₀ m.start)
    (keep : ∀ {h : History ι ο} {s s' : σ} {i : ι} {os : List ο} {a : φ},
      M.RunWhere C s₀ h s → C s i → M.step s i = some (s', os) → R s a →
      ∃ b, m.run a (os.filterMap view) = some b ∧ R s' b)
    (r : M.RunWhere C s₀ h s) :
    ∃ a, m.run m.start (h.outputs.filterMap view) = some a ∧ R s a := by
  refine r.inv (fun h s => ∃ a, m.run m.start (h.outputs.filterMap view) = some a ∧ R s a)
    ⟨m.start, rfl, init⟩ ?_
  rintro h s s' i os r hC hs ⟨a, ha, hR⟩
  obtain ⟨b, hb, hR'⟩ := keep r hC hs hR
  refine ⟨b, ?_, hR'⟩
  rw [History.outputs_append, List.filterMap_append, Monitor.run_append, ha]
  simpa using hb

end Support
