import Mathlib.Data.List.Basic

/-!
# Support — cells written one at a time

A state is written by a list of writes, one after the other.  A cell is a part of the state that
each write either sets or leaves alone.  It holds what the last write that sets it puts in, and the
other writes make no difference to it (`Cell.get_foldl`).
-/

namespace Support

variable {σ ω α : Type} {write : σ → ω → σ}

/-- A part of the state, the writes that set it, and what they put in. -/
structure Cell (write : σ → ω → σ) (α : Type) where
  get : σ → α
  sets : ω → Bool
  value : ω → α
  written : ∀ s w, get (write s w) = if sets w then value w else get s

namespace Cell

variable (c : Cell write α)

/-- What the last write that sets the cell puts in. -/
def last (ws : List ω) : Option α := (ws.filter c.sets).getLast?.map c.value

theorem last_cons (w : ω) (ws : List ω) :
    c.last (w :: ws) = if c.sets w then some ((c.last ws).getD (c.value w)) else c.last ws := by
  unfold last
  rw [List.filter_cons]
  split
  · rw [List.getLast?_cons]
    cases (ws.filter c.sets).getLast? <;> rfl
  · rfl

/-- A cell holds what the last write of it has put in. -/
theorem get_foldl (s : σ) (ws : List ω) :
    c.get (ws.foldl write s) = (c.last ws).getD (c.get s) := by
  induction ws generalizing s with
  | nil => rfl
  | cons w ws ih =>
      rw [List.foldl_cons, ih, c.written, c.last_cons]
      split
      · rfl
      · rfl

/-- A cell that is empty at first. -/
theorem get_foldl_join (c : Cell write (Option α)) {s : σ} (hs : c.get s = none) (ws : List ω) :
    c.get (ws.foldl write s) = (c.last ws).join := by
  rw [c.get_foldl, hs]
  cases c.last ws <;> rfl

end Cell

end Support
