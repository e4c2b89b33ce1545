import Mathlib.Data.List.Induction

/-!
# Support — the join of two one-shot events

A join waits for two events, one of which brings a value, and gives the value when both have come.
Whichever comes second gives it: the left event gives the value it brings, the right one the value
that was kept.

`Join.run_eq`: over any events in which each side comes at most once, in any order, the join has
given the left value exactly when both have come.
-/

namespace Support

variable {α : Type}

inductive JoinEvent (α : Type) where
  | left (a : α)
  | right

namespace JoinEvent

def value? : JoinEvent α → Option α
  | .left a => some a
  | .right => none

def isRight : JoinEvent α → Bool
  | .left _ => false
  | .right => true

end JoinEvent

/-- What has come: the value of the left event, and whether the right one has. -/
structure Join (α : Type) where
  value : Option α
  right : Bool

namespace Join

def empty : Join α := ⟨none, false⟩

def step (j : Join α) : JoinEvent α → Join α × List α
  | .left a => ({ j with value := some a }, if j.right then [a] else [])
  | .right => ({ j with right := true }, j.value.toList)

/-- The join after the events, and what it gave. -/
def run (j : Join α) (es : List (JoinEvent α)) : Join α × List α :=
  es.foldl (fun r e => ((r.1.step e).1, r.2 ++ (r.1.step e).2)) (j, [])

@[simp] theorem run_nil (j : Join α) : j.run [] = (j, []) := rfl

@[simp] theorem run_snoc (j : Join α) (es : List (JoinEvent α)) (e : JoinEvent α) :
    j.run (es ++ [e]) = (((j.run es).1.step e).1, (j.run es).2 ++ ((j.run es).1.step e).2) := by
  simp [run]

/-- Each side comes at most once. -/
def OneShot (es : List (JoinEvent α)) : Prop :=
  (es.filterMap JoinEvent.value?).length ≤ 1 ∧ es.countP JoinEvent.isRight ≤ 1

theorem OneShot.init {es : List (JoinEvent α)} {e : JoinEvent α} (h : OneShot (es ++ [e])) :
    OneShot es := by
  obtain ⟨h₁, h₂⟩ := h
  rw [List.filterMap_append, List.length_append] at h₁
  rw [List.countP_append] at h₂
  exact ⟨by omega, by omega⟩

/-- What the join holds and what it has given, over one-shot events. -/
theorem run_eq (es : List (JoinEvent α)) (h : OneShot es) :
    (empty : Join α).run es =
      (⟨(es.filterMap JoinEvent.value?).head?, es.any JoinEvent.isRight⟩,
        if es.any JoinEvent.isRight then es.filterMap JoinEvent.value? else []) := by
  induction es using List.reverseRecOn with
  | nil => rfl
  | append_singleton es e ih =>
      rw [run_snoc, ih h.init]
      cases e with
      | left a =>
          -- the left event is the first one of its side
          have hes : es.filterMap JoinEvent.value? = [] := by
            have := h.1
            simp only [List.filterMap_append, List.length_append] at this
            exact List.length_eq_zero_iff.mp (by simpa [JoinEvent.value?] using this)
          simp only [step, List.filterMap_append, hes, List.any_append]
          cases es.any JoinEvent.isRight <;> simp [JoinEvent.value?, JoinEvent.isRight]
      | right =>
          have hes : es.any JoinEvent.isRight = false := by
            have := h.2
            rw [List.countP_append] at this
            have : es.countP JoinEvent.isRight = 0 := by
              simpa [JoinEvent.isRight] using this
            simpa [List.countP_eq_zero] using this
          have hle := h.init.1
          simp only [step, List.filterMap_append, hes, List.any_append]
          match he : es.filterMap JoinEvent.value? with
          | [] => simp [JoinEvent.value?, JoinEvent.isRight]
          | [a] => simp [JoinEvent.value?, JoinEvent.isRight]
          | a :: b :: l => rw [he] at hle; simp at hle

/-- **The join is exact.**  It has given the left value if both events have come, and nothing
otherwise. -/
theorem run_given (es : List (JoinEvent α)) (h : OneShot es) :
    ((empty : Join α).run es).2 =
      if es.any JoinEvent.isRight then es.filterMap JoinEvent.value? else [] := by
  rw [run_eq es h]

end Join

end Support
