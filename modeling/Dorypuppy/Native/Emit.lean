import Dorypuppy.Support.Cells
import Dorypuppy.Native.Outputs

/-!
# Native — `on` and `emit`

The five overloads of `on` store what they are given in five places, and the four overloads of
`emit` call it from there.  A `std::function` may be empty; a call of an empty one throws
`std::bad_function_call`.  `Callbacks` holds the five places as they are, empty functions included;
`on_callbacks` and `dispatch_callbacks` say that `DoryProcessSpawn` is the part of it where every
registered function has a target.

Each place is a cell (`errorCell` and the others), so it holds the last function registered for it.
`emit_iff` says when `emit` runs that function and nothing else: always for the exit and stream
events; for a name without arguments unless the last function registered for it is empty, since
`emit` asks only whether the name is a key; and for an error if and only if there is an error
callback exactly when there is an exit callback, since `emit` asks for the wrong one of the two.
The class itself emits no error (`step_emits`).
-/

namespace Dorypuppy

open Support (Cell)

variable {F : Type}

/-! ### The members and the overloads -/

/-- The members `on` writes.  `none` is an empty `std::function`, which a default `nullptr` gives,
or a key that is not in `eventListeners`. -/
structure Callbacks (F : Type) where
  eventListeners : String → Option (Option F)
  errorCallback : Option F
  exitCallback : Option F
  stdoutCallback : Option F
  stderrCallback : Option F

/-- The overloads of `on`.  The template `variadic` stores its function in `eventListeners`, so it
can be used for a function without arguments only. -/
inductive Overload where
  | text | status | chunk | variadic | plain
  deriving DecidableEq

/-- The argument lists, one for each overload of `emit`. -/
inductive Signature where
  | text | status | chunk | plain
  deriving DecidableEq

def Overload.signature : Overload → Signature
  | .text => .text
  | .status => .status
  | .chunk => .chunk
  | .variadic | .plain => .plain

def Args.signature : Args → Signature
  | .text _ _ => .text
  | .status _ _ => .status
  | .chunk _ _ => .chunk
  | .plain => .plain

/-- A call of `on`. -/
structure Registration (F : Type) where
  overload : Overload
  name : String
  func : Option F

/-- What a call of a `std::function` does. -/
inductive Called (F : Type) where
  | invoke (f : F) (args : Args)
  | badFunctionCall
  deriving DecidableEq

namespace Callbacks

/-- A `DoryProcessSpawn` as it is constructed. -/
def empty : Callbacks F where
  eventListeners _ := none
  errorCallback := none
  exitCallback := none
  stdoutCallback := none
  stderrCallback := none

def on (c : Callbacks F) (r : Registration F) : Callbacks F :=
  match r.overload with
  | .text => if r.name = "error" then { c with errorCallback := r.func } else c
  | .status => if r.name = "exit" then { c with exitCallback := r.func } else c
  | .chunk =>
      if r.name = "stdout" then { c with stdoutCallback := r.func }
      else if r.name = "stderr" then { c with stderrCallback := r.func }
      else c
  | .variadic | .plain =>
      { c with eventListeners := fun n => if n = r.name then some r.func else c.eventListeners n }

/-- A call of a `std::function`. -/
def run (f : Option F) (args : Args) : List (Called F) :=
  match f with
  | some f => [.invoke f args]
  | none => [.badFunctionCall]

/-- What `emit` does, by the overload for `args`. -/
def emit (c : Callbacks F) (name : String) (args : Args) : List (Called F) :=
  match args with
  | .status _ _ => if name = "exit" ∧ c.exitCallback.isSome then run c.exitCallback args else []
  | .chunk _ _ =>
      (if name = "stdout" ∧ c.stdoutCallback.isSome then run c.stdoutCallback args else []) ++
      (if name = "stderr" ∧ c.stderrCallback.isSome then run c.stderrCallback args else [])
  | .text _ _ =>
      -- the guard is that of the exit event
      if name = "error" ∧ c.exitCallback.isSome then run c.errorCallback args else []
  | .plain =>
      match c.eventListeners name with
      | some f => run f args
      | none => []

/-- The members after calls of `on`. -/
def after (rs : List (Registration F)) : Callbacks F := rs.foldl on empty

end Callbacks

/-! ### The functions `DoryProcessSpawn` has -/

/-- The members, when each registered function has a target. -/
@[simps] def Listeners.callbacks (l : Listeners F) : Callbacks F where
  eventListeners name := (l.eventListeners name).map some
  errorCallback := l.errorCallback
  exitCallback := l.exitCallback
  stdoutCallback := l.stdoutCallback
  stderrCallback := l.stderrCallback

/-- The registration of a function with a target. -/
def Func.registration (name : String) : Func F → Registration F
  | .text f => ⟨.text, name, some f⟩
  | .status f => ⟨.status, name, some f⟩
  | .chunk f => ⟨.chunk, name, some f⟩
  | .plain f => ⟨.plain, name, some f⟩

/-- The call of a function, to which `getPid()` gives `pid`. -/
def Called.act (pid : Int) : Called F → Act F
  | .invoke f args => .invoke f args pid
  | .badFunctionCall => .badFunctionCall

theorem Listeners.callbacks_empty : (Listeners.empty : Listeners F).callbacks = .empty := rfl

theorem on_callbacks (o : DoryProcessSpawn F) (name : String) (f : Func F) :
    (o.on name f).listeners.callbacks = o.listeners.callbacks.on (f.registration name) := by
  cases f with
  | text f | status f | chunk f =>
      simp only [DoryProcessSpawn.on, Callbacks.on, Func.registration,
        apply_ite DoryProcessSpawn.listeners, apply_ite Listeners.callbacks]
      rfl
  | plain f =>
      simp only [DoryProcessSpawn.on, Callbacks.on, Func.registration, Listeners.callbacks,
        apply_ite (Option.map some), Option.map_some]
      rfl

theorem dispatch_callbacks (o : DoryProcessSpawn F) (name : String) (args : Args) :
    o.dispatch name args = (o.listeners.callbacks.emit name args).map (Called.act o.getPid) := by
  have guarded (p : Prop) [Decidable p] (f : Option F) :
      (if p then o.call f args else []) =
        (if p ∧ f.isSome then Callbacks.run f args else []).map (Called.act o.getPid) := by
    by_cases hp : p
    · cases f <;> simp [hp, DoryProcessSpawn.call, Callbacks.run, Called.act]
    · simp [hp]
  cases args with
  | status e g => exact guarded _ _
  | chunk buf nread =>
      rw [DoryProcessSpawn.dispatch, Callbacks.emit, List.map_append]
      exact congrArg₂ _ (guarded _ _) (guarded _ _)
  | text n m =>
      simp only [DoryProcessSpawn.dispatch, Callbacks.emit, Listeners.callbacks_exitCallback]
      by_cases h : name = "error" ∧ o.listeners.exitCallback.isSome
      · rw [if_pos h, if_pos h, Listeners.callbacks_errorCallback]
        cases o.listeners.errorCallback <;> rfl
      · rw [if_neg h, if_neg h]
        rfl
  | plain =>
      simp only [DoryProcessSpawn.dispatch, Callbacks.emit, Listeners.callbacks_eventListeners]
      cases o.listeners.eventListeners name <;> rfl

/-! ### What is registered -/

/-- A registration for a name and a signature. -/
def Registration.isFor (name : String) (sig : Signature) (r : Registration F) : Bool :=
  r.name = name && r.overload.signature = sig

/-- The function last registered for a name and a signature, if there is one. -/
def lastFor (rs : List (Registration F)) (name : String) (sig : Signature) : Option (Option F) :=
  (rs.filter (Registration.isFor name sig)).getLast?.map Registration.func

namespace Callbacks

/-- `errorCallback`, as `on` writes it. -/
def errorCell : Cell (@on F) (Option F) where
  get := errorCallback
  sets := Registration.isFor "error" .text
  value := Registration.func
  written c r := by
    obtain ⟨overload, name, f⟩ := r
    cases overload <;> simp [on, Registration.isFor, Overload.signature, apply_ite errorCallback]

def exitCell : Cell (@on F) (Option F) where
  get := exitCallback
  sets := Registration.isFor "exit" .status
  value := Registration.func
  written c r := by
    obtain ⟨overload, name, f⟩ := r
    cases overload <;> simp [on, Registration.isFor, Overload.signature, apply_ite exitCallback]

def stdoutCell : Cell (@on F) (Option F) where
  get := stdoutCallback
  sets := Registration.isFor "stdout" .chunk
  value := Registration.func
  written c r := by
    obtain ⟨overload, name, f⟩ := r
    cases overload <;> simp [on, Registration.isFor, Overload.signature, apply_ite stdoutCallback]

def stderrCell : Cell (@on F) (Option F) where
  get := stderrCallback
  sets := Registration.isFor "stderr" .chunk
  value := Registration.func
  written c r := by
    obtain ⟨overload, name, f⟩ := r
    cases overload <;> simp [on, Registration.isFor, Overload.signature, apply_ite stderrCallback]
    rintro rfl h
    exact absurd h (by decide)

/-- The entry of `eventListeners` under a name. -/
def eventCell (name : String) : Cell (@on F) (Option (Option F)) where
  get c := c.eventListeners name
  sets := Registration.isFor name .plain
  value r := some r.func
  written c r := by
    obtain ⟨overload, name', f⟩ := r
    cases overload <;> simp [on, Registration.isFor, Overload.signature, apply_ite eventListeners,
      @eq_comm _ name name']

/-! ### When `emit` runs the last function registered -/

variable (rs : List (Registration F))

theorem after_errorCallback : (after rs).errorCallback = (lastFor rs "error" .text).join :=
  errorCell.get_foldl_join rfl rs

theorem after_exitCallback : (after rs).exitCallback = (lastFor rs "exit" .status).join :=
  exitCell.get_foldl_join rfl rs

theorem after_stdoutCallback : (after rs).stdoutCallback = (lastFor rs "stdout" .chunk).join :=
  stdoutCell.get_foldl_join rfl rs

theorem after_stderrCallback : (after rs).stderrCallback = (lastFor rs "stderr" .chunk).join :=
  stderrCell.get_foldl_join rfl rs

theorem after_eventListeners (name : String) :
    (after rs).eventListeners name = lastFor rs name .plain := by
  refine ((eventCell name).get_foldl_join rfl rs).trans ?_
  rw [Cell.last, lastFor]
  change Option.join (Option.map _ (List.getLast? (rs.filter (Registration.isFor name .plain)))) = _
  cases (rs.filter (Registration.isFor name .plain)).getLast? <;> rfl

end Callbacks

/-- The pairs of a name and an argument list `emit` is made for. -/
def Supported (name : String) : Signature → Prop
  | .text => name = "error"
  | .status => name = "exit"
  | .chunk => name = "stdout" ∨ name = "stderr"
  | .plain => True

/-- One call of the last function registered, if it has a target, and nothing else. -/
def callOfLast (rs : List (Registration F)) (name : String) (args : Args) : List (Called F) :=
  match (lastFor rs name args.signature).join with
  | some f => [.invoke f args]
  | none => []

/-- `emit` calls the last function registered for its name and signature and nothing else. -/
def CallsLast (rs : List (Registration F)) (name : String) (args : Args) : Prop :=
  (Callbacks.after rs).emit name args = callOfLast rs name args

/-- Registrations for other names or signatures make no difference to `emit`. -/
def OwnOnly (rs : List (Registration F)) (name : String) (args : Args) : Prop :=
  ∀ rs', rs'.filter (Registration.isFor name args.signature) =
      rs.filter (Registration.isFor name args.signature) →
    (Callbacks.after rs').emit name args = (Callbacks.after rs).emit name args

/-- What the guards of `emit` rest on: there is an error callback exactly when there is an exit
callback, and the last function registered for a name without arguments is not an empty one. -/
def Guarded (rs : List (Registration F)) (name : String) : Signature → Prop
  | .text => (lastFor rs "error" .text).join.isSome = (lastFor rs "exit" .status).join.isSome
  | .plain => lastFor rs name .plain ≠ some none
  | .status | .chunk => True

variable {rs rs' : List (Registration F)} {name : String} {args : Args}

theorem lastFor_congr {sig : Signature}
    (h : rs'.filter (Registration.isFor name sig) = rs.filter (Registration.isFor name sig)) :
    lastFor rs' name sig = lastFor rs name sig := by
  rw [lastFor, lastFor, h]

/-- `emit` for the exit and stream events. -/
theorem emit_guarded (hs : Supported name args.signature)
    (hsig : args.signature = .status ∨ args.signature = .chunk) : CallsLast rs name args := by
  have call (f : Option F) : (if f.isSome then Callbacks.run f args else []) =
      match f with
      | some f => [.invoke f args]
      | none => [] := by
    cases f <;> rfl
  unfold CallsLast callOfLast
  cases args with
  | status e g =>
      obtain rfl : name = "exit" := hs
      rw [Args.signature, ← call, ← Callbacks.after_exitCallback]
      exact if_congr (and_iff_right rfl) rfl rfl
  | chunk buf nread =>
      rcases hs with rfl | rfl
      · rw [Args.signature, ← call, ← Callbacks.after_stdoutCallback, Callbacks.emit]
        simp
      · rw [Args.signature, ← call, ← Callbacks.after_stderrCallback, Callbacks.emit]
        simp
  | text | plain => rcases hsig with h | h <;> cases h

theorem emit_text {n m : String} : (Callbacks.after rs).emit "error" (.text n m) =
    if (lastFor rs "exit" .status).join.isSome then
      Callbacks.run (lastFor rs "error" .text).join (.text n m)
    else [] := by
  rw [← Callbacks.after_exitCallback, ← Callbacks.after_errorCallback]
  exact if_congr (and_iff_right rfl) rfl rfl

theorem emit_plain : (Callbacks.after rs).emit name .plain =
    match lastFor rs name .plain with
    | some f => Callbacks.run f .plain
    | none => [] := by
  rw [← Callbacks.after_eventListeners]
  rfl

theorem callsLast_iff (hs : Supported name args.signature) :
    CallsLast rs name args ↔ Guarded rs name args.signature := by
  cases args with
  | status | chunk => exact iff_of_true (emit_guarded hs (by simp [Args.signature])) trivial
  | text n m =>
      obtain rfl : name = "error" := hs
      rw [CallsLast, callOfLast, emit_text]
      simp only [Args.signature, Guarded]
      -- which of the two callbacks there are
      cases (lastFor rs "exit" .status).join <;> cases (lastFor rs "error" .text).join <;>
        simp [Callbacks.run]
  | plain =>
      rw [CallsLast, callOfLast, emit_plain]
      simp only [Args.signature, Guarded]
      cases lastFor rs name .plain with
      | none => simp
      | some f => cases f <;> simp [Callbacks.run]

/-- Error callbacks without an exit callback are not called. -/
theorem emit_error_own {n m : String} :
    (Callbacks.after (rs.filter (Registration.isFor "error" .text))).emit "error" (.text n m) =
      [] := by
  have hnone : lastFor (rs.filter (Registration.isFor "error" .text)) "exit" .status = none := by
    rw [lastFor, List.filter_filter, List.filter_eq_nil_iff.mpr]
    · rfl
    · rintro r -
      simp only [Registration.isFor, Bool.and_eq_true, decide_eq_true_eq]
      rintro ⟨⟨hexit, -⟩, herror, -⟩
      exact absurd (hexit.symm.trans herror) (by decide)
  rw [emit_text, hnone]
  rfl

/-- With an exit callback `emit` calls something. -/
theorem emit_error_exit {f : F} {n m : String} :
    (Callbacks.after (rs ++ [⟨.status, "exit", some f⟩])).emit "error" (.text n m) ≠ [] := by
  have hsome : lastFor (rs ++ [⟨.status, "exit", some f⟩]) "exit" .status = some (some f) := by
    simp [lastFor, Registration.isFor, Overload.signature]
  rw [emit_text, hsome]
  cases (lastFor (rs ++ [⟨.status, "exit", some f⟩]) "error" .text).join <;> simp [Callbacks.run]

theorem ownOnly_iff [Nonempty F] (hs : Supported name args.signature) :
    OwnOnly rs name args ↔ args.signature ≠ .text := by
  constructor
  · intro h hsig
    obtain ⟨f⟩ := ‹Nonempty F›
    cases args with
    | text n m =>
        obtain rfl : name = "error" := hs
        -- an exit callback, which is no registration for the error, shows
        have hown := h (rs.filter (Registration.isFor "error" .text)) (by simp [Args.signature])
        have hexit := h (rs.filter (Registration.isFor "error" .text) ++
          [⟨.status, "exit", some f⟩]) <| by
            have hother : Registration.isFor "error" .text ⟨.status, "exit", some f⟩ = false := rfl
            simp [Args.signature, hother]
        exact emit_error_exit (hexit.trans (hown.symm.trans emit_error_own))
    | status | chunk | plain => cases hsig
  · intro hsig rs' h
    cases args with
    | status | chunk =>
        have hcall (rs : List (Registration F)) : CallsLast rs name _ :=
          emit_guarded hs (by simp [Args.signature])
        rw [hcall, hcall, callOfLast, callOfLast, lastFor_congr h]
    | text => exact absurd rfl hsig
    | plain =>
        have hlast : lastFor rs' name .plain = lastFor rs name .plain := lastFor_congr h
        rw [emit_plain, emit_plain, hlast]

/-- **When `emit` calls the last function registered.**  After any calls of `on`, for a pair of a
name and an argument list it is made for: `emit` calls the function last registered for the two,
once and with these arguments, and nothing where there is none, if and only if `Guarded` holds of
the registrations; and what it does depends on the registrations for the two alone if and only if it
is not an error that is emitted. -/
theorem emit_iff [Nonempty F] (rs : List (Registration F)) (hs : Supported name args.signature) :
    (CallsLast rs name args ↔ Guarded rs name args.signature) ∧
      (OwnOnly rs name args ↔ args.signature ≠ .text) :=
  ⟨callsLast_iff hs, ownOnly_iff hs⟩

theorem emit_iff_example :
    CallsLast [⟨.status, "exit", some ()⟩, ⟨.text, "error", some ()⟩] "error"
        (.text "uv_spawn" "ENOENT") ∧
      ¬ OwnOnly [⟨.status, "exit", some ()⟩, ⟨.text, "error", some ()⟩] "error"
        (.text "uv_spawn" "ENOENT") := by
  have hs : Supported "error" (Args.text "uv_spawn" "ENOENT").signature := rfl
  exact ⟨(emit_iff _ hs).1.mpr rfl, fun h => (emit_iff _ hs).2.mp h rfl⟩

/-- **An error with an exit callback alone throws**, and one with an error callback alone is
lost. -/
theorem error_guard :
    Supported "error" (Args.text "uv_spawn" "ENOENT").signature ∧
      (Callbacks.after [⟨.status, "exit", some ()⟩]).emit "error" (.text "uv_spawn" "ENOENT") =
        [.badFunctionCall] ∧
      (Callbacks.after [⟨.text, "error", some ()⟩]).emit "error" (.text "uv_spawn" "ENOENT") = [] ∧
      ¬ CallsLast [⟨.status, "exit", some ()⟩] "error" (.text "uv_spawn" "ENOENT") ∧
      ¬ CallsLast [⟨.text, "error", some ()⟩] "error" (.text "uv_spawn" "ENOENT") := by
  refine ⟨rfl, by decide, by decide, ?_, ?_⟩
  · unfold CallsLast
    decide
  · unfold CallsLast
    decide

example : (Callbacks.after [⟨.plain, "timeout", (none : Option Unit)⟩]).emit "timeout" .plain =
    [.badFunctionCall] := by decide

/-! ### What the class emits itself -/

theorem on_getPid (o : DoryProcessSpawn F) (name : String) (f : Func F) :
    (o.on name f).getPid = o.getPid := by
  cases f <;> simp only [DoryProcessSpawn.on] <;> repeat' (first | rfl | split)

/-- `emit` of an object after calls of `on` with functions that have a target. -/
theorem dispatch_after (o : DoryProcessSpawn F) (ho : o.listeners = .empty)
    (rs : List (String × Func F)) (name : String) (args : Args) :
    (rs.foldl (fun o r => o.on r.1 r.2) o).dispatch name args =
      ((Callbacks.after (rs.map fun r => r.2.registration r.1)).emit name args).map
        (Called.act o.getPid) := by
  have hfold (rs : List (String × Func F)) (o : DoryProcessSpawn F) :
      (rs.foldl (fun o r => o.on r.1 r.2) o).listeners.callbacks =
          (rs.map fun r => r.2.registration r.1).foldl Callbacks.on o.listeners.callbacks ∧
        (rs.foldl (fun o r => o.on r.1 r.2) o).getPid = o.getPid := by
    induction rs generalizing o with
    | nil => exact ⟨rfl, rfl⟩
    | cons r rs ih =>
        obtain ⟨hcallbacks, hpid⟩ := ih (o.on r.1 r.2)
        rw [on_callbacks] at hcallbacks
        exact ⟨hcallbacks, hpid.trans (on_getPid ..)⟩
  obtain ⟨hcallbacks, hpid⟩ := hfold rs o
  rw [dispatch_callbacks, hcallbacks, hpid, ho, Listeners.callbacks_empty]
  rfl

theorem mem_emit {o : DoryProcessSpawn F} {n : String} {a : Args} :
    .emit name args ∈ o.emit n a ↔ name = n ∧ args = a := by
  rw [DoryProcessSpawn.emit, List.mem_cons, Act.emit.injEq, or_iff_left]
  intro h
  cases o.dispatch_isCall n a _ h

theorem readError_emit (o : DoryProcessSpawn F) (nread : Int) :
    .emit name args ∉ o.readError nread := by
  simp only [DoryProcessSpawn.readError]
  split <;> simp [DoryProcessSpawn.kill]

/-- The class emits no error. -/
theorem step_emits {s s' : Child F} {i : Input} {as : List (Act F)}
    (h : Child.step s i = some (s', as)) (he : .emit name args ∈ as) :
    Supported name args.signature ∧ args.signature ≠ .text := by
  cases Child.step_inv h with
  | timerCb =>
      rw [DoryProcessSpawn.timerCbHead_snd] at he
      have he : name = "timeout" ∧ args = .plain := by
        split at he <;> simpa [mem_emit, DoryProcessSpawn.timerCbTail] using he
      rw [he.2]
      exact ⟨trivial, by simp [Args.signature]⟩
  | @exitCb o pc e g =>
      rw [DoryProcessSpawn.exitCb_snd] at he
      have he : name = "exit" ∧ args = .status e g := by
        split at he <;> split at he <;> simp [mem_emit] at he <;> exact he
      rw [he.2]
      exact ⟨he.1, by simp [Args.signature]⟩
  | @stdoutCb o pc nread buf =>
      rw [DoryProcessSpawn.stdoutCbHead_snd] at he
      have he : name = "stdout" ∧ args = .chunk buf nread := by
        split at he
        · simpa [mem_emit, DoryProcessSpawn.readCbTail] using he
        · split at he <;> simp [DoryProcessSpawn.readCbTail, readError_emit] at he
      rw [he.2]
      exact ⟨.inl he.1, by simp [Args.signature]⟩
  | @stderrCb o pc nread buf =>
      rw [DoryProcessSpawn.stderrCbHead_snd] at he
      have he : name = "stderr" ∧ args = .chunk buf nread ∨
          name = "exit" ∧ args = .status o.exitStatus o.termSignal := by
        split at he
        · exact .inl (by simpa [mem_emit, DoryProcessSpawn.readCbTail] using he)
        · split at he
          · split at he <;>
              simp [mem_emit, DoryProcessSpawn.readCbTail, readError_emit] at he
            exact .inr he
          · simp [DoryProcessSpawn.readCbTail] at he
      rcases he with ⟨hn, rfl⟩ | ⟨hn, rfl⟩
      · exact ⟨.inr hn, by simp [Args.signature]⟩
      · exact ⟨hn, by simp [Args.signature]⟩
  | _ => simp [DoryProcessSpawn.kill] at he

/-- With a target in each registered function the guards hold, but for the error. -/
theorem guarded_of_targets (hrs : ∀ r ∈ rs, r.func.isSome) {sig : Signature} (hsig : sig ≠ .text) :
    Guarded rs name sig := by
  cases sig with
  | text => exact absurd rfl hsig
  | plain =>
      intro hlast
      obtain ⟨r, hr, hf⟩ := Option.map_eq_some_iff.mp hlast
      have := hrs r (List.mem_filter.mp (List.mem_of_getLast? hr)).1
      rw [hf] at this
      cases this
  | status | chunk => trivial

/-- **What a child emits calls the last function registered**, if each one has a target. -/
theorem step_callsLast {s s' : Child F} {i : Input} {as : List (Act F)}
    (h : Child.step s i = some (s', as)) (he : .emit name args ∈ as)
    (hrs : ∀ r ∈ rs, r.func.isSome) : CallsLast rs name args := by
  obtain ⟨hs, hsig⟩ := step_emits h he
  exact (callsLast_iff hs).mpr (guarded_of_targets hrs hsig)

end Dorypuppy
