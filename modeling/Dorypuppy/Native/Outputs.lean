import Dorypuppy.Native.Tracks

/-!
# Native — what a step does

The parts of a step's outputs that the results speak of: the calls `emit("exit", …)`, the calls of
`emit` for the other events of a child, the handles closed, the signals sent, the registered
functions run.  For each, one lemma says what a step puts out.
-/

namespace Dorypuppy

open Support (Machine History)

variable {F : Type}

namespace Act

/-- The arguments of a call `emit("exit", …)`. -/
def exit? : Act F → Option (Int × Int)
  | .emit name (.status e g) => if name = "exit" then some (e, g) else none
  | _ => none

@[simp] theorem exit?_uv (c : UvCall) : (.uv c : Act F).exit? = none := rfl

@[simp] theorem exit?_free : (.free : Act F).exit? = none := rfl

@[simp] theorem exit?_status (e g : Int) :
    (.emit "exit" (.status e g) : Act F).exit? = some (e, g) := rfl

@[simp] theorem exit?_chunk (name : String) (buf : List UInt8) (nread : Int) :
    (.emit name (.chunk buf nread) : Act F).exit? = none := rfl

@[simp] theorem exit?_plain (name : String) : (.emit name .plain : Act F).exit? = none := rfl

/-- A call of `emit` for `stdout`, `stderr` or `timeout`. -/
def isEvent : Act F → Bool
  | .emit name (.chunk _ _) => name = "stdout" || name = "stderr"
  | .emit name .plain => name = "timeout"
  | _ => false

def closes (h : Handle) : Act F → Bool
  | .uv (.close h') => h' = h
  | _ => false

/-- The pid and the signal of a `uv_process_kill`. -/
def signal? : Act F → Option (Int × Int)
  | .uv (.processKill pid g) => some (pid, g)
  | _ => none

/-- The options `uv_spawn` is called with. -/
def spawn? : Act F → Option UvProcessOptions
  | .uv (.spawn options) => some options
  | _ => none

/-- The timeout `uv_timer_start` is called with. -/
def timer? : Act F → Option UInt64
  | .uv (.timerStart timeout) => some timeout
  | _ => none

def isInvoke : Act F → Bool
  | .invoke _ _ _ => true
  | _ => false

/-- What `emit` does after it was called. -/
def isCall : Act F → Bool
  | .invoke _ _ _ | .badFunctionCall => true
  | _ => false

end Act

namespace DoryProcessSpawn

variable (o : DoryProcessSpawn F) (name : String)

theorem call_isCall (f : Option F) (args : Args) : ∀ a ∈ o.call f args, a.isCall := by
  cases f <;> simp [call, Act.isCall]

theorem dispatch_isCall (args : Args) : ∀ a ∈ o.dispatch name args, a.isCall := by
  intro a ha
  cases args with
  | status e g =>
      simp only [dispatch] at ha
      split at ha
      · exact call_isCall _ _ _ a ha
      · cases ha
  | chunk buf nread =>
      simp only [dispatch, List.mem_append] at ha
      rcases ha with ha | ha
      all_goals
        split at ha
        · exact call_isCall _ _ _ a ha
        · cases ha
  | text n m =>
      simp only [dispatch] at ha
      split at ha
      · split at ha <;> cases List.mem_singleton.mp ha <;> rfl
      · cases ha
  | plain => exact call_isCall _ _ _ a ha

/-- A projection that sees no function run sees nothing of `dispatch`. -/
theorem dispatch_filterMap {β : Type} (f : Act F → Option β) (hf : ∀ a, a.isCall → f a = none)
    (args : Args) : (o.dispatch name args).filterMap f = [] :=
  List.filterMap_eq_nil_iff.mpr fun a ha => hf a (o.dispatch_isCall name args a ha)

theorem dispatch_countP (p : Act F → Bool) (hp : ∀ a, a.isCall → p a = false) (args : Args) :
    (o.dispatch name args).countP p = 0 :=
  List.countP_eq_zero.mpr fun a ha => by simp [hp a (o.dispatch_isCall name args a ha)]

/-- `emit`, read through such a projection, is its call. -/
theorem emit_filterMap {β : Type} (f : Act F → Option β) (hf : ∀ a, a.isCall → f a = none)
    (args : Args) : (o.emit name args).filterMap f = (f (.emit name args)).toList := by
  rw [emit, List.filterMap_cons, o.dispatch_filterMap name f hf]
  cases f (.emit name args) <;> rfl

theorem emit_any (p : Act F → Bool) (hp : ∀ a, a.isCall → p a = false) (args : Args) :
    (o.emit name args).any p = p (.emit name args) := by
  have hd : (o.dispatch name args).any p = false :=
    List.any_eq_false.mpr fun a ha => by simp [hp a (o.dispatch_isCall name args a ha)]
  rw [emit, List.any_cons, hd, Bool.or_false]

theorem emit_countP (p : Act F → Bool) (hp : ∀ a, a.isCall → p a = false) (args : Args) :
    (o.emit name args).countP p = [Act.emit name args].countP p := by
  rw [emit, List.countP_cons, o.dispatch_countP name p hp, List.countP_singleton, Nat.zero_add]

@[simp] theorem emit_exit (args : Args) :
    (o.emit name args).filterMap Act.exit? = ((Act.emit name args : Act F).exit?).toList :=
  o.emit_filterMap name _ (fun a h => by cases a <;> first | rfl | cases h) args

@[simp] theorem emit_signal (args : Args) : (o.emit name args).filterMap Act.signal? = [] :=
  o.emit_filterMap name _ (fun a h => by cases a <;> first | rfl | cases h) args

@[simp] theorem emit_spawn (args : Args) : (o.emit name args).filterMap Act.spawn? = [] :=
  o.emit_filterMap name _ (fun a h => by cases a <;> first | rfl | cases h) args

@[simp] theorem emit_timer (args : Args) : (o.emit name args).filterMap Act.timer? = [] :=
  o.emit_filterMap name _ (fun a h => by cases a <;> first | rfl | cases h) args

@[simp] theorem emit_isEvent (args : Args) :
    (o.emit name args).any Act.isEvent = (Act.emit name args : Act F).isEvent :=
  o.emit_any name _ (fun a h => by cases a <;> first | rfl | cases h) args

@[simp] theorem emit_closes (h : Handle) (args : Args) :
    (o.emit name args).countP (Act.closes h) = 0 :=
  o.emit_countP name _ (fun a h => by cases a <;> first | rfl | cases h) args

end DoryProcessSpawn

/-! ### The exit event -/

@[simp] theorem readError_exit (o : DoryProcessSpawn F) (nread : Int) :
    (o.readError nread).filterMap Act.exit? = [] := by
  simp only [DoryProcessSpawn.readError]
  split <;> rfl

@[simp] theorem readError_isEvent (o : DoryProcessSpawn F) (nread : Int) :
    (o.readError nread).any Act.isEvent = false := by
  simp only [DoryProcessSpawn.readError]
  split <;> rfl

@[simp] theorem readError_closes (o : DoryProcessSpawn F) (nread : Int) (h : Handle) :
    (o.readError nread).countP (Act.closes h) = 0 := by
  simp only [DoryProcessSpawn.readError]
  split <;> rfl

namespace Child

variable {s s' : Child F} {i : Input} {as : List (Act F)}

/-- The exit event a step puts out. -/
def exitOf (o : DoryProcessSpawn F) : Input → List (Int × Int)
  | .exitCb e g => if o.stderrFlushed then [(e, g)] else []
  | .stderrCb nread _ => if nread < 0 ∧ o.exited then [(o.exitStatus, o.termSignal)] else []
  | _ => []

theorem step_exit (h : step s i = some (s', as)) : as.filterMap Act.exit? = exitOf s.obj i := by
  cases step_inv h with
  | timerCb =>
      rw [DoryProcessSpawn.timerCbHead_snd]
      split <;> simp [exitOf, DoryProcessSpawn.timerCbTail, List.filterMap_cons]
  | exitCb =>
      rw [DoryProcessSpawn.exitCb_snd]
      split <;> split <;> simp [exitOf, List.filterMap_cons, *]
  | stdoutCb =>
      rw [DoryProcessSpawn.stdoutCbHead_snd]
      split
      · simp [exitOf, DoryProcessSpawn.readCbTail, List.filterMap_cons]
      · split <;> simp [exitOf, DoryProcessSpawn.readCbTail, List.filterMap_cons]
  | @stderrCb o pc nread buf =>
      rw [DoryProcessSpawn.stderrCbHead_snd]
      split
      · have : ¬ nread < 0 := by omega
        simp [exitOf, DoryProcessSpawn.readCbTail, this, List.filterMap_cons]
      · split
        · split <;> simp [exitOf, DoryProcessSpawn.readCbTail, List.filterMap_cons, *]
        · simp [exitOf, DoryProcessSpawn.readCbTail, List.filterMap_cons, *]
  | killReturn | kill => simp [DoryProcessSpawn.kill, exitOf, List.filterMap_cons]
  | _ => simp [exitOf, List.filterMap_cons]

/-! ### The other events -/

end Child

/-- The inputs that raise `stdout`, `stderr` or `timeout`. -/
def Input.raises : Input → Bool
  | .timerCb => true
  | .stdoutCb nread _ | .stderrCb nread _ => 0 < nread
  | _ => false

namespace Child

theorem step_event (h : step s i = some (s', as)) : as.any Act.isEvent = i.raises := by
  cases step_inv h with
  | timerCb =>
      rw [DoryProcessSpawn.timerCbHead_snd]
      simp [Input.raises, Act.isEvent]
  | exitCb =>
      rw [DoryProcessSpawn.exitCb_snd]
      split <;> split <;> simp [Input.raises, Act.isEvent]
  | stdoutCb =>
      rw [DoryProcessSpawn.stdoutCbHead_snd]
      split
      · simp [Input.raises, Act.isEvent, *]
      · split <;> simp [Input.raises, Act.isEvent, DoryProcessSpawn.readCbTail, *]
  | stderrCb =>
      rw [DoryProcessSpawn.stderrCbHead_snd]
      split
      · simp [Input.raises, Act.isEvent, *]
      · split
        · split <;> simp [Input.raises, Act.isEvent, DoryProcessSpawn.readCbTail, *]
        · simp [Input.raises, Act.isEvent, DoryProcessSpawn.readCbTail, *]
  | killReturn | kill => rfl
  | _ => rfl

end Child

/-! ### Closed handles -/

/-- Whether the step of an input closes a handle. -/
def DoryProcessSpawn.closesAt (o : DoryProcessSpawn F) : Handle → Input → Bool
  | .process, i => i.exits
  | .pipeOut, i => i.endsOut
  | .pipeErr, i => i.endsErr
  | .timer, i => !o.timer.closing && (i.fires || i.exits && o.timer.loop = o.uvLoop)

namespace Child

theorem step_closes (hd : Handle) (h : step s i = some (s', as)) :
    as.countP (Act.closes hd) = (s.obj.closesAt hd i).toNat := by
  simp only [DoryProcessSpawn.closesAt]
  cases step_inv h with
  | timerCb =>
      rw [DoryProcessSpawn.timerCbHead_snd]
      split <;> cases hd <;> simp [Act.closes, Input.exits, Input.endsOut, Input.endsErr,
        Input.fires, DoryProcessSpawn.timerCbTail, *]
  | @exitCb o pc e g =>
      have hemit : (if o.stderrFlushed then (o.exitCb e g).1.emit "exit" (.status e g)
          else []).countP (Act.closes hd) = 0 := by split <;> simp
      rw [DoryProcessSpawn.exitCb_snd, List.countP_append, List.countP_cons, hemit]
      by_cases hl : o.timer.loop = o.uvLoop <;> by_cases hc : o.timer.closing = true <;>
        cases hd <;>
        simp [Act.closes, Input.exits, Input.endsOut, Input.endsErr, Input.fires, hl, hc]
  | @stdoutCb o pc nread buf =>
      rw [DoryProcessSpawn.stdoutCbHead_snd]
      split
      · have : ¬ nread < 0 := by omega
        cases hd <;> simp [Act.closes, Input.exits, Input.endsOut, Input.endsErr, Input.fires,
          DoryProcessSpawn.readCbTail, this]
      · split <;> cases hd <;> simp [Act.closes, Input.exits, Input.endsOut, Input.endsErr,
          Input.fires, DoryProcessSpawn.readCbTail, *]
  | @stderrCb o pc nread buf =>
      have hemit : (if o.exited then (o.stderrCbHead nread buf).1.emit "exit"
          (.status o.exitStatus o.termSignal) else []).countP (Act.closes hd) = 0 := by
        split <;> simp
      rw [DoryProcessSpawn.stderrCbHead_snd]
      split
      · have : ¬ nread < 0 := by omega
        cases hd <;> simp [Act.closes, Input.exits, Input.endsOut, Input.endsErr, Input.fires,
          DoryProcessSpawn.readCbTail, this]
      · split
        · rw [List.countP_append, List.countP_append, List.countP_cons, hemit]
          cases hd <;> simp [Act.closes, Input.exits, Input.endsOut, Input.endsErr, Input.fires,
            DoryProcessSpawn.readCbTail, *]
        · cases hd <;> simp [Act.closes, Input.exits, Input.endsOut, Input.endsErr, Input.fires,
            DoryProcessSpawn.readCbTail, *]
  | _ =>
      cases hd <;> simp [Act.closes, Input.exits, Input.endsOut, Input.endsErr, Input.fires,
        DoryProcessSpawn.kill]

end Child

/-! ### Signals and registered functions -/

/-- The signals a step sends. -/
def DoryProcessSpawn.signalsAt (o : DoryProcessSpawn F) : Input → List (Int × Int)
  | .timerCb | .killReturn => [(o.process.pid, SIGKILL)]
  | .stdoutCb nread _ | .stderrCb nread _ =>
      if nread < 0 ∧ nread ≠ UV_EOF then [(o.process.pid, SIGTERM)] else []
  | .kill g => [(o.process.pid, g)]
  | _ => []

@[simp] theorem signal?_uvClose (h : Handle) : (.uv (.close h) : Act F).signal? = none := rfl

theorem readError_signal (o : DoryProcessSpawn F) {nread : Int} (h : nread < 0) :
    (o.readError nread).filterMap Act.signal? =
      if nread < 0 ∧ nread ≠ UV_EOF then [(o.process.pid, SIGTERM)] else [] := by
  simp only [DoryProcessSpawn.readError]
  split
  · simp [*]
  · simp [*, DoryProcessSpawn.kill, Act.signal?]

namespace Child

theorem step_signal (h : step s i = some (s', as)) :
    as.filterMap Act.signal? = s.obj.signalsAt i := by
  cases step_inv h with
  | timerCb =>
      rw [DoryProcessSpawn.timerCbHead_snd]
      split <;> simp [DoryProcessSpawn.signalsAt, DoryProcessSpawn.timerCbTail, Act.signal?,
        List.filterMap_cons]
  | @exitCb o pc e g =>
      have hemit : (if o.stderrFlushed then (o.exitCb e g).1.emit "exit" (.status e g)
          else []).filterMap Act.signal? = [] := by split <;> simp
      rw [DoryProcessSpawn.exitCb_snd, List.filterMap_append, List.filterMap_cons, hemit]
      split <;> simp [DoryProcessSpawn.signalsAt]
  | @stdoutCb o pc nread buf =>
      rw [DoryProcessSpawn.stdoutCbHead_snd]
      split
      · have : ¬ nread < 0 := by omega
        simp [DoryProcessSpawn.signalsAt, DoryProcessSpawn.readCbTail, Act.signal?, this]
      · split
        · rename_i hn
          simp [DoryProcessSpawn.signalsAt, DoryProcessSpawn.readCbTail, Act.signal?,
            readError_signal _ hn]
        · simp [DoryProcessSpawn.signalsAt, DoryProcessSpawn.readCbTail, Act.signal?, *]
  | @stderrCb o pc nread buf =>
      have hemit : (if o.exited then (o.stderrCbHead nread buf).1.emit "exit"
          (.status o.exitStatus o.termSignal) else []).filterMap Act.signal? = [] := by
        split <;> simp
      rw [DoryProcessSpawn.stderrCbHead_snd]
      split
      · have : ¬ nread < 0 := by omega
        simp [DoryProcessSpawn.signalsAt, DoryProcessSpawn.readCbTail, Act.signal?, this]
      · split
        · rename_i hn
          rw [List.filterMap_append, List.filterMap_append, List.filterMap_cons, hemit,
            readError_signal _ hn]
          simp [DoryProcessSpawn.signalsAt, DoryProcessSpawn.readCbTail, Act.signal?]
        · simp [DoryProcessSpawn.signalsAt, DoryProcessSpawn.readCbTail, Act.signal?, *]
  | killReturn | kill => rfl
  | _ => simp [DoryProcessSpawn.signalsAt, Act.signal?]

/-! ### The call of `uv_spawn` -/

@[simp] theorem readError_spawn (o : DoryProcessSpawn F) (nread : Int) :
    (o.readError nread).filterMap Act.spawn? = [] := by
  simp only [DoryProcessSpawn.readError]
  split <;> rfl

@[simp] theorem readError_timer (o : DoryProcessSpawn F) (nread : Int) :
    (o.readError nread).filterMap Act.timer? = [] := by
  simp only [DoryProcessSpawn.readError]
  split <;> rfl

/-- `uv_spawn` is called with the options of the object. -/
theorem step_spawn (h : step s i = some (s', as)) :
    ∀ o ∈ as.filterMap Act.spawn?, o = s.obj.options := by
  cases step_inv h with
  | timerCb =>
      rw [DoryProcessSpawn.timerCbHead_snd]
      split <;> simp [Act.spawn?, DoryProcessSpawn.timerCbTail, List.filterMap_cons]
  | exitCb =>
      rw [DoryProcessSpawn.exitCb_snd]
      split <;> split <;> simp [Act.spawn?, List.filterMap_cons]
  | stdoutCb =>
      rw [DoryProcessSpawn.stdoutCbHead_snd]
      split
      · simp [Act.spawn?, DoryProcessSpawn.readCbTail]
      · split <;> simp [Act.spawn?, DoryProcessSpawn.readCbTail]
  | stderrCb =>
      rw [DoryProcessSpawn.stderrCbHead_snd]
      split
      · simp [Act.spawn?, DoryProcessSpawn.readCbTail]
      · split
        · split <;> simp [Act.spawn?, DoryProcessSpawn.readCbTail, List.filterMap_cons]
        · simp [Act.spawn?, DoryProcessSpawn.readCbTail]
  | _ => simp [Act.spawn?, DoryProcessSpawn.kill]

theorem step_options (h : step s i = some (s', as)) : s'.obj.options = s.obj.options := by
  cases step_inv h with
  | stdoutCb => rw [DoryProcessSpawn.stdoutCbHead_fst]; split <;> rfl
  | stderrCb => rw [DoryProcessSpawn.stderrCbHead_fst]; split <;> rfl
  | timerCb => rw [DoryProcessSpawn.timerCbHead_fst]
  | exitCb => rw [DoryProcessSpawn.exitCb_fst]
  | _ => rfl

/-- Those the constructor made of its arguments. -/
theorem run_spawn {c : Setup F} {h : History Input (Act F)} (r : (machine F).Run (start c) h s) :
    s.obj.options = (start c).obj.options ∧
      ∀ o, .uv (.spawn o) ∈ h.outputs → o = (start c).obj.options := by
  induction r with
  | nil => exact ⟨rfl, fun o ho => by cases ho⟩
  | @snoc h s s' i as _ _ hs ih =>
      refine ⟨(step_options hs).trans ih.1, fun o ho => ?_⟩
      rw [History.outputs_append, List.mem_append] at ho
      rcases ho with ho | ho
      · exact ih.2 o ho
      · rw [History.outputs_cons, History.outputs_nil, List.append_nil] at ho
        exact (step_spawn hs o (List.mem_filterMap.mpr ⟨_, ho, rfl⟩)).trans ih.1

/-! ### The call of `uv_timer_start` -/

/-- It is called in `spawn()`, with the timeout of the object. -/
theorem step_arms_for (h : step s i = some (s', as)) :
    ∀ t ∈ as.filterMap Act.timer?, t = s.obj.timeout ∧ i.arms = true := by
  cases step_inv h with
  | timerCb =>
      rw [DoryProcessSpawn.timerCbHead_snd]
      split <;> simp [Act.timer?, DoryProcessSpawn.timerCbTail, List.filterMap_cons]
  | exitCb =>
      rw [DoryProcessSpawn.exitCb_snd]
      split <;> split <;> simp [Act.timer?, List.filterMap_cons]
  | stdoutCb =>
      rw [DoryProcessSpawn.stdoutCbHead_snd]
      split
      · simp [Act.timer?, DoryProcessSpawn.readCbTail]
      · split <;> simp [Act.timer?, DoryProcessSpawn.readCbTail]
  | stderrCb =>
      rw [DoryProcessSpawn.stderrCbHead_snd]
      split
      · simp [Act.timer?, DoryProcessSpawn.readCbTail]
      · split
        · split <;> simp [Act.timer?, DoryProcessSpawn.readCbTail, List.filterMap_cons]
        · simp [Act.timer?, DoryProcessSpawn.readCbTail]
  | timerStart => simp [Act.timer?, Input.arms]
  | _ => simp [Act.timer?, DoryProcessSpawn.kill]

/-- That is the one the object was made with, and not 0. -/
theorem run_arms_for {c : Setup F} {h : History Input (Act F)}
    (r : (machine F).Run (start c) h s) :
    ∀ t, .uv (.timerStart t) ∈ h.outputs → t = c.timeout ∧ 0 < c.timeout := by
  induction r with
  | nil => exact fun t ht => by cases ht
  | @snoc h s s' i as r _ hs ih =>
      intro t ht
      rw [History.outputs_append, List.mem_append] at ht
      rcases ht with ht | ht
      · exact ih t ht
      · rw [History.outputs_cons, History.outputs_nil, List.append_nil] at ht
        obtain ⟨rfl, hi⟩ := step_arms_for hs t (List.mem_filterMap.mpr ⟨_, ht, rfl⟩)
        have hpos := (run_tracks (r.snoc trivial hs)).timed (.inl (by simp [hi]))
        rw [(step_const hs).1, (run_const r).1] at hpos
        exact ⟨(run_const r).1, hpos⟩

/-- With a timeout, it has been called when `spawn()` comes to `uv_spawn`. -/
theorem run_armed {c : Setup F} {h : History Input (Act F)} (r : (machine F).Run (start c) h s)
    (ht : 0 < c.timeout) : 2 ≤ s.pc.rank → .uv (.timerStart c.timeout) ∈ h.outputs := by
  induction r with
  | nil => exact fun h2 => absurd h2 (by simp [start, SpawnPc.rank])
  | @snoc h s s' i as r _ hs ih =>
      intro h2
      rw [History.outputs_append, List.mem_append]
      by_cases h2' : 2 ≤ s.pc.rank
      · exact .inl (ih h2')
      · right
        have hc := (run_const r).1
        cases step_inv hs with
        | enterUntimed h0 =>
            rw [show _ = c.timeout from hc] at h0
            exact absurd h0 (UInt64.pos_iff_ne_zero.mp ht)
        | timerStart => rw [← hc]; exact .head _
        | enterTimed => simp [SpawnPc.rank] at h2
        | timerCb | exitCb | stdoutCb | stderrCb | kill => exact absurd h2 h2'
        | _ => simp [SpawnPc.rank] at h2'

end Child

end Dorypuppy
