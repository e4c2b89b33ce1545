import Dorypuppy.Native.Uv

/-!
# Native — the class `DoryProcessSpawn`

The members of `DoryProcessSpawn.hpp` and its methods.  A method gives the object after it and what
it did, in order: calls of `emit`, registered functions run, libuv calls, buffers freed (`Act`).

The three callbacks that go on after `emit` are cut there: what comes after the `emit` reads the
object as it is once the registered function has returned.  `timerCbTail` and `readCbTail` are these
rests.

`F` is the type of the functions `on` registers; a member that is a default `nullptr` is `none`.
-/

namespace Dorypuppy

/-- The argument lists `emit` is called with, one for each of its overloads. -/
inductive Args where
  | status (exitStatus termSignal : Int)
  | chunk (buf : List UInt8) (nread : Int)
  | text (name message : String)
  | plain
  deriving DecidableEq

/-- What a method of `DoryProcessSpawn` does.  `invoke` is a registered function run with the
arguments of `emit`; `getPid` is what `getPid()` returns to it. -/
inductive Act (F : Type) where
  | emit (name : String) (args : Args)
  | invoke (f : F) (args : Args) (getPid : Int)
  | badFunctionCall
  | uv (call : UvCall)
  | free
  deriving DecidableEq

/-- The members `on` writes. -/
structure Listeners (F : Type) where
  eventListeners : String → Option F
  errorCallback : Option F
  exitCallback : Option F
  stdoutCallback : Option F
  stderrCallback : Option F

/-- No function registered. -/
def Listeners.empty {F : Type} : Listeners F where
  eventListeners _ := none
  errorCallback := none
  exitCallback := none
  stdoutCallback := none
  stderrCallback := none

/-- What the constructor finds in the members that neither it nor an initialiser sets. -/
structure Uninit where
  timerLoop : LoopPtr
  timerClosing : Bool
  processPid : Int
  processClosing : Bool
  pid : Int
  exitStatus : Int
  termSignal : Int
  deriving DecidableEq

structure DoryProcessSpawn (F : Type) where
  timeout : UInt64
  uvLoop : LoopPtr
  process : UvProcess
  options : UvProcessOptions
  pipeOut : UvPipe
  pipeErr : UvPipe
  timer : UvTimer
  exited : Bool
  stderrFlushed : Bool
  pid : Int
  exitStatus : Int
  termSignal : Int
  listeners : Listeners F

/-- A function given to `on`, by the overload that takes it. -/
inductive Func (F : Type) where
  | text (f : F)
  | status (f : F)
  | chunk (f : F)
  | plain (f : F)

namespace DoryProcessSpawn

variable {F : Type}

/-- The constructor, on memory `mem`. -/
def new (mem : Uninit) (loop : LoopPtr) (args : List (Option CString)) (cwd : Option CString)
    (env : Option (List (Option CString))) : DoryProcessSpawn F where
  timeout := 0
  uvLoop := loop
  process := { pid := mem.processPid, closing := mem.processClosing, watched := false }
  options :=
    { file := args.head?.join
      args := args
      cwd := cwd
      env := env
      stdio := [.ignore, .createPipe .pipeOut, .createPipe .pipeErr] }
  pipeOut := .init
  pipeErr := .init
  timer := { loop := mem.timerLoop, closing := mem.timerClosing, armed := false }
  exited := false
  stderrFlushed := false
  pid := mem.pid
  exitStatus := mem.exitStatus
  termSignal := mem.termSignal
  listeners := .empty

/-- The libuv calls of the constructor. -/
def newActs : List (Act F) := [.uv (.pipeInit .pipeOut), .uv (.pipeInit .pipeErr)]

def getPid (o : DoryProcessSpawn F) : Int := o.pid

def kill (o : DoryProcessSpawn F) (termSignal : Int) : List (Act F) :=
  [.uv (.processKill o.process.pid termSignal)]

/-! ### `on` and `emit` -/

/-- A registered function runs; nothing runs for a `nullptr`. -/
def call (o : DoryProcessSpawn F) (f : Option F) (args : Args) : List (Act F) :=
  match f with
  | some f => [.invoke f args o.getPid]
  | none => []

/-- What the overload of `emit` chosen by `args` runs.  The one for errors asks for an
`exitCallback` before it runs `errorCallback`. -/
def dispatch (o : DoryProcessSpawn F) (name : String) (args : Args) : List (Act F) :=
  match args with
  | .status _ _ => if name = "exit" then o.call o.listeners.exitCallback args else []
  | .chunk _ _ =>
      (if name = "stdout" then o.call o.listeners.stdoutCallback args else []) ++
      (if name = "stderr" then o.call o.listeners.stderrCallback args else [])
  | .text _ _ =>
      if name = "error" ∧ o.listeners.exitCallback.isSome then
        match o.listeners.errorCallback with
        | some f => [.invoke f args o.getPid]
        | none => [.badFunctionCall]
      else []
  | .plain => o.call (o.listeners.eventListeners name) args

/-- A call of `emit`. -/
def emit (o : DoryProcessSpawn F) (name : String) (args : Args) : List (Act F) :=
  .emit name args :: o.dispatch name args

/-- The overloads of `on`. -/
def on (o : DoryProcessSpawn F) (name : String) : Func F → DoryProcessSpawn F
  | .text f =>
      if name = "error" then
        { o with listeners := { o.listeners with errorCallback := some f } }
      else o
  | .status f =>
      if name = "exit" then
        { o with listeners := { o.listeners with exitCallback := some f } }
      else o
  | .chunk f =>
      if name = "stdout" then
        { o with listeners := { o.listeners with stdoutCallback := some f } }
      else if name = "stderr" then
        { o with listeners := { o.listeners with stderrCallback := some f } }
      else o
  | .plain f =>
      { o with listeners := { o.listeners with
          eventListeners := fun n => if n = name then some f else o.listeners.eventListeners n } }

/-! ### Closing handles -/

/-- `uv_close` on a handle of the object. -/
def uvClose (o : DoryProcessSpawn F) : Handle → DoryProcessSpawn F
  | .process => { o with process := o.process.close }
  | .pipeOut => { o with pipeOut := o.pipeOut.close }
  | .pipeErr => { o with pipeErr := o.pipeErr.close }
  | .timer => { o with timer := o.timer.close }

/-- `_clearTimer`. -/
def clearTimer (o : DoryProcessSpawn F) : DoryProcessSpawn F × List (Act F) :=
  if o.timer.closing then (o, []) else (o.uvClose .timer, [.uv (.close .timer)])

/-! ### The callbacks -/

/-- The timer callback up to its `emit`. -/
def timerCbHead (o : DoryProcessSpawn F) : DoryProcessSpawn F × List (Act F) :=
  let (o, closed) := { o with timer := o.timer.expire }.clearTimer
  (o, closed ++ o.emit "timeout" .plain)

/-- The rest of the timer callback. -/
def timerCbTail (o : DoryProcessSpawn F) : List (Act F) :=
  [.uv (.processKill o.process.pid SIGKILL)]

/-- `options.exit_cb`. -/
def exitCb (o : DoryProcessSpawn F) (exitStatus termSignal : Int) :
    DoryProcessSpawn F × List (Act F) :=
  let o := { o with process := o.process.reap }
  let (o, cleared) := if o.timer.loop = o.uvLoop then o.clearTimer else (o, [])
  let o := o.uvClose .process
  let o := { o with exited := true, termSignal := termSignal, exitStatus := exitStatus }
  (o, cleared ++ .uv (.close .process) ::
    if o.stderrFlushed then o.emit "exit" (.status exitStatus termSignal) else [])

/-- A read error other than the end of the stream. -/
def readError (o : DoryProcessSpawn F) (nread : Int) : List (Act F) :=
  if nread = UV_EOF then [] else o.kill SIGTERM

/-- The read callback of `pipeOut`, up to the `free`. -/
def stdoutCbHead (o : DoryProcessSpawn F) (nread : Int) (buf : List UInt8) :
    DoryProcessSpawn F × List (Act F) :=
  if 0 < nread then (o, o.emit "stdout" (.chunk buf nread))
  else if nread < 0 then (o.uvClose .pipeOut, o.readError nread ++ [.uv (.close .pipeOut)])
  else (o, [])

/-- The read callback of `pipeErr`, up to the `free`. -/
def stderrCbHead (o : DoryProcessSpawn F) (nread : Int) (buf : List UInt8) :
    DoryProcessSpawn F × List (Act F) :=
  if 0 < nread then (o, o.emit "stderr" (.chunk buf nread))
  else if nread < 0 then
    let o' := { o.uvClose .pipeErr with stderrFlushed := true }
    (o', o.readError nread ++ .uv (.close .pipeErr) ::
      if o'.exited then o'.emit "exit" (.status o'.exitStatus o'.termSignal) else [])
  else (o, [])

/-- The rest of a read callback: `free(buf->base)`. -/
def readCbTail : List (Act F) := [.free]

/-! ### The object after a callback, and what the callback did -/

variable (o : DoryProcessSpawn F)

theorem clearTimer_fst : o.clearTimer.1 =
    { o with timer := if o.timer.closing then o.timer else o.timer.close } := by
  unfold clearTimer; split <;> simp [uvClose, *]

@[simp] theorem timerCbHead_fst : o.timerCbHead.1 =
    { o with timer := if o.timer.closing then o.timer.expire else o.timer.expire.close } := by
  simp [timerCbHead, clearTimer_fst]

@[simp] theorem exitCb_fst (e g : Int) : (o.exitCb e g).1 =
    { o with
      timer := if o.timer.loop = o.uvLoop ∧ o.timer.closing = false then o.timer.close else o.timer
      process := o.process.reap.close
      exited := true
      exitStatus := e
      termSignal := g } := by
  unfold exitCb
  by_cases hl : o.timer.loop = o.uvLoop <;> by_cases hc : o.timer.closing = true <;>
    simp [hl, hc, clearTimer_fst, uvClose]

@[simp] theorem stdoutCbHead_fst (nread : Int) (buf : List UInt8) :
    (o.stdoutCbHead nread buf).1 =
      if nread < 0 then { o with pipeOut := o.pipeOut.close } else o := by
  unfold stdoutCbHead
  by_cases h : nread < 0
  · rw [if_neg (by omega), if_pos h, if_pos h]; rfl
  · rw [if_neg h]; split <;> simp

@[simp] theorem stderrCbHead_fst (nread : Int) (buf : List UInt8) :
    (o.stderrCbHead nread buf).1 =
      if nread < 0 then { o with pipeErr := o.pipeErr.close, stderrFlushed := true } else o := by
  unfold stderrCbHead
  by_cases h : nread < 0
  · rw [if_neg (by omega), if_pos h, if_pos h]; rfl
  · rw [if_neg h]; split <;> simp

theorem timerCbHead_snd : o.timerCbHead.2 =
    (if o.timer.closing then [] else [.uv (.close .timer)]) ++
      o.timerCbHead.1.emit "timeout" .plain := by
  simp only [timerCbHead, clearTimer, UvTimer.expire_closing]
  split <;> rfl

theorem exitCb_snd (e g : Int) : (o.exitCb e g).2 =
    (if o.timer.loop = o.uvLoop ∧ o.timer.closing = false then [.uv (.close .timer)] else []) ++
      .uv (.close .process) ::
        if o.stderrFlushed then (o.exitCb e g).1.emit "exit" (.status e g) else [] := by
  simp only [exitCb, clearTimer]
  by_cases hl : o.timer.loop = o.uvLoop <;> by_cases hc : o.timer.closing = true <;>
    simp [hl, hc, uvClose]

theorem stdoutCbHead_snd (nread : Int) (buf : List UInt8) : (o.stdoutCbHead nread buf).2 =
    if 0 < nread then o.emit "stdout" (.chunk buf nread)
    else if nread < 0 then o.readError nread ++ [.uv (.close .pipeOut)]
    else [] := by
  simp only [stdoutCbHead]
  split
  · rfl
  · split <;> rfl

theorem stderrCbHead_snd (nread : Int) (buf : List UInt8) : (o.stderrCbHead nread buf).2 =
    if 0 < nread then o.emit "stderr" (.chunk buf nread)
    else if nread < 0 then o.readError nread ++ .uv (.close .pipeErr) ::
      if o.exited then
        (o.stderrCbHead nread buf).1.emit "exit" (.status o.exitStatus o.termSignal)
      else []
    else [] := by
  by_cases h : nread < 0
  · have h' : ¬ 0 < nread := by omega
    simp only [stderrCbHead, if_neg h', if_pos h]
    rfl
  · simp only [stderrCbHead, if_neg h]
    split <;> rfl

end DoryProcessSpawn

end Dorypuppy
