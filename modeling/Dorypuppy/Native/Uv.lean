import Mathlib.Data.Int.Notation
import Mathlib.Tactic.Simps.Basic

/-!
# Native — the part of libuv the code stands on

libuv itself is not in the repository, only its headers.  This module holds the handle structures
as far as the code reads or changes them, the constants of `uv/errno.h` and `signal.h` the code
uses, and the calls the code makes.  What a call returns is an input of the machines above.

A handle structure mixes two things.  `loop`, `pid` and the closing flag are memory: before the
first libuv call on the handle they hold whatever was there.  `armed`, `watched` and `reading` are
what the loop knows of the handle: it runs no callback of a handle it was never given.
-/

namespace Dorypuppy

/-- The address of an event loop. -/
abbrev LoopPtr := Nat

/-- The bytes of a C string, without the terminating NUL. -/
abbrev CString := List UInt8

/-- `UV_EOF` of `uv/errno.h`. -/
def UV_EOF : Int := -4095

def SIGKILL : Int := 9

def SIGTERM : Int := 15

/-- libuv reports an error by a negative code. -/
abbrev UvError := { r : Int // r < 0 }

/-- The pid of a process is positive. -/
abbrev Pid := { pid : Int // 0 < pid }

instance (n : Nat) : OfNat Pid (n + 1) := ⟨⟨n + 1, by omega⟩⟩

/-- The four handles of one `DoryProcessSpawn`. -/
inductive Handle where
  | process | pipeOut | pipeErr | timer
  deriving DecidableEq, Repr

structure UvTimer where
  loop : LoopPtr
  closing : Bool
  armed : Bool
  deriving DecidableEq, Repr

structure UvProcess where
  pid : Int
  closing : Bool
  watched : Bool
  deriving DecidableEq, Repr

structure UvPipe where
  closing : Bool
  reading : Bool
  deriving DecidableEq, Repr

/-- `uv_timer_init`: sets `timer.loop` and clears the flags. -/
@[simps] def UvTimer.init (_ : UvTimer) (loop : LoopPtr) : UvTimer :=
  { loop := loop, closing := false, armed := false }

/-- `uv_timer_start` with repeat 0. -/
@[simps] def UvTimer.start (t : UvTimer) : UvTimer := { t with armed := true }

/-- The loop takes a one-shot timer off before it runs its callback. -/
@[simps] def UvTimer.expire (t : UvTimer) : UvTimer := { t with armed := false }

@[simps] def UvTimer.close (t : UvTimer) : UvTimer := { t with closing := true, armed := false }

/-- `uv_pipe_init`. -/
@[simps] def UvPipe.init : UvPipe := { closing := false, reading := false }

@[simps] def UvPipe.readStart (p : UvPipe) : UvPipe := { p with reading := true }

@[simps] def UvPipe.close (_ : UvPipe) : UvPipe := { closing := true, reading := false }

/-- The loop takes a reaped process off before it runs `exit_cb`. -/
@[simps] def UvProcess.reap (p : UvProcess) : UvProcess := { p with watched := false }

@[simps] def UvProcess.close (p : UvProcess) : UvProcess :=
  { p with closing := true, watched := false }

/-- How `uv_spawn` ends: the child runs; it failed before there was a process; or the process was
forked and its `exec` failed, so that it was reaped inside `uv_spawn`. -/
inductive UvSpawnResult where
  | ok (pid : Pid)
  | forkFailed (r : UvError)
  | execFailed (r : UvError) (pid : Pid)
  deriving DecidableEq

/-- The value `uv_spawn` returns. -/
def UvSpawnResult.code : UvSpawnResult → Int
  | .ok _ => 0
  | .forkFailed r | .execFailed r _ => r

def UvSpawnResult.isOk : UvSpawnResult → Bool
  | .ok _ => true
  | .forkFailed _ | .execFailed _ _ => false

theorem UvSpawnResult.code_neg : ∀ {r : UvSpawnResult}, r.isOk = false → r.code < 0
  | .forkFailed r, _ | .execFailed r _, _ => r.2

/-- `uv_spawn` on the process handle: it initialises the handle, and writes `pid` once there is a
process. -/
def UvProcess.spawn (p : UvProcess) : UvSpawnResult → UvProcess
  | .ok pid => { pid := pid, closing := false, watched := true }
  | .forkFailed _ => { p with closing := false }
  | .execFailed _ pid => { p with pid := pid, closing := false }

/-- An entry of `options.stdio`. -/
inductive UvStdio where
  | ignore
  | createPipe (stream : Handle)
  deriving DecidableEq, Repr

/-- `uv_process_options_t`, without the `exit_cb`.  `args` and `env` are the pointers of the array,
the terminating `NULL` included. -/
structure UvProcessOptions where
  file : Option CString
  args : List (Option CString)
  cwd : Option CString
  env : Option (List (Option CString))
  stdio : List UvStdio
  deriving DecidableEq

/-- A libuv call the code makes. -/
inductive UvCall where
  | pipeInit (h : Handle)
  | timerInit
  | timerStart (timeout : UInt64)
  | spawn (options : UvProcessOptions)
  | readStart (h : Handle)
  | close (h : Handle)
  | processKill (pid signum : Int)
  deriving DecidableEq

end Dorypuppy
