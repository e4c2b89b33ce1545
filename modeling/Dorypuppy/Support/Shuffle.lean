import Mathlib.Data.List.Count
import Mathlib.Data.List.Perm.Basic
import Dorypuppy.Support.Machine

/-!
# Support — interleavings

`SameOrder key l₁ l₂`: the two lists have the same elements of each key, in the same order.  They
are two interleavings of the same sequences, one for each key.

What is read off the elements of one key, or off the number of elements of a kind, is the same for
both.  `SameOrder.before` compares the two places of one element: what came before it with its key
is the same.
-/

namespace Support

variable {ι κ β : Type} [DecidableEq κ] {key : ι → κ} {l l₁ l₂ l₃ : List ι}

/-- Two interleavings of the same sequences. -/
def SameOrder (key : ι → κ) (l₁ l₂ : List ι) : Prop :=
  ∀ k, l₁.filter (key · = k) = l₂.filter (key · = k)

namespace SameOrder

theorem perm (h : SameOrder key l₁ l₂) : l₁.Perm l₂ := by
  classical
  rw [List.perm_iff_count]
  intro a
  have count (l : List ι) : l.count a = (l.filter (key · = key a)).count a :=
    (List.count_filter (by simp)).symm
  rw [count l₁, count l₂, h]

theorem any_eq (h : SameOrder key l₁ l₂) (p : ι → Bool) : l₁.any p = l₂.any p :=
  Bool.eq_iff_iff.mpr <| by
    simp only [List.any_eq_true]
    exact exists_congr fun a => and_congr_left fun _ => h.perm.mem_iff

theorem countP_eq (h : SameOrder key l₁ l₂) (p : ι → Bool) : l₁.countP p = l₂.countP p :=
  h.perm.countP_eq p

theorem mem_iff (h : SameOrder key l₁ l₂) {a : ι} : a ∈ l₁ ↔ a ∈ l₂ := h.perm.mem_iff

/-- What a projection sees that looks at one key only. -/
theorem filterMap_eq {f : ι → Option β} (k : κ) (hf : ∀ a, key a ≠ k → f a = none)
    (h : SameOrder key l₁ l₂) : l₁.filterMap f = l₂.filterMap f := by
  have part (l : List ι) : l.filterMap f = (l.filter (key · = k)).filterMap f := by
    rw [List.filterMap_filter]
    congr 1
    funext a
    by_cases ha : key a = k <;> simp [ha, hf]
  rw [part l₁, part l₂, h k]

end SameOrder

/-- Whether there is an element of a kind that belongs to one key. -/
theorem any_eq_of_filter {p : ι → Bool} {k : κ} (hp : ∀ a, p a → key a = k)
    (h : l₁.filter (key · = k) = l₂.filter (key · = k)) : l₁.any p = l₂.any p := by
  have part (l : List ι) : l.any p = (l.filter (key · = k)).any p := by
    rw [List.any_filter]
    congr 1
    funext a
    cases ha : p a with
    | false => rw [Bool.and_false]
    | true => rw [hp a ha, decide_eq_true rfl, Bool.true_and]
  rw [part l₁, part l₂, h]

/-- An element kept by a filter, with what was kept before it. -/
theorem filter_snoc_prefix {p : ι → Bool} {l pre : List ι} {a : ι}
    (h : pre ++ [a] <+: l.filter p) : ∃ l', l' ++ [a] <+: l ∧ l'.filter p = pre := by
  induction l generalizing pre with
  | nil => simp at h
  | cons b l ih =>
      rw [List.filter_cons] at h
      split at h
      · rename_i hb
        cases pre with
        | nil =>
            rw [List.nil_append, List.cons_prefix_cons] at h
            obtain ⟨rfl, -⟩ := h
            exact ⟨[], by simp, rfl⟩
        | cons c pre =>
            rw [List.cons_append, List.cons_prefix_cons] at h
            obtain ⟨rfl, h⟩ := h
            obtain ⟨l', hl', hpre⟩ := ih h
            exact ⟨c :: l', by simpa using hl', by rw [List.filter_cons, if_pos hb, hpre]⟩
      · rename_i hb
        obtain ⟨l', hl', hpre⟩ := ih h
        exact ⟨b :: l', by simpa using hl', by rw [List.filter_cons, if_neg hb, hpre]⟩

/-- An element of one interleaving is in the other, and the same elements of its key come before
it. -/
theorem SameOrder.before (h : SameOrder key l₁ l₂) {pre : List ι} {a : ι} (hp : pre ++ [a] <+: l₂) :
    ∃ pre', pre' ++ [a] <+: l₁ ∧
      pre'.filter (key · = key a) = pre.filter (key · = key a) := by
  refine filter_snoc_prefix ?_
  rw [h]
  have := hp.filter (key · = key a)
  rwa [List.filter_append, List.filter_singleton, decide_eq_true rfl, cond_true] at this

end Support
