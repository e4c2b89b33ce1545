import Dorypuppy.Support.Machine
import Dorypuppy.Native.DoryProcessSpawn

/-!
# Native — one child, as a machine

`spawn()` runs on the thread that called it while the loop thread is already running, so its
libuv calls are steps of their own and callbacks come in between.  A callback runs on the loop
thread and is one step.

The loop runs the timer callback while the timer is armed, `exit_cb` while it watches the process,
and a read callback while the stream is reading; each libuv call that arms a source is one step, so
its callback may come right after it.  Which of them comes next, what a read brings, and what
`uv_spawn` and `uv_read_start` return is the input.
-/

namespace Dorypuppy

open Support (Machine History)

/-- Where `spawn()` is.  `killReturn r` is `kill(); return r;` after a failed `uv_read_start`. -/
inductive SpawnPc where
  | enter | timerStart | uvSpawn | storePid | readOut | readErr
  | killReturn (r : UvError)
  | returned (r : Int)
  deriving DecidableEq

/-- A `DoryProcessSpawn` and where its `spawn()` is. -/
structure Child (F : Type) where
  obj : DoryProcessSpawn F
  pc : SpawnPc

/-- What a `DoryProcessSpawn` is made from: the memory the constructor finds, its arguments, and
what is set before `spawn()`. -/
structure Setup (F : Type) where
  mem : Uninit
  loop : LoopPtr
  args : List (Option CString)
  cwd : Option CString
  env : Option (List (Option CString))
  timeout : UInt64
  listeners : Listeners F

/-- `./child` with its four listeners, as `example.cpp` starts it. -/
def Setup.example (timeout : UInt64) : Setup Unit where
  mem :=
    { timerLoop := 0, timerClosing := false, processPid := 0, processClosing := false, pid := 0
      exitStatus := 0, termSignal := 0 }
  loop := 1
  args := [some "./child".toUTF8.toList, none]
  cwd := none
  env := none
  timeout := timeout
  listeners :=
    { eventListeners := fun name => if name = "timeout" then some () else none
      errorCallback := none
      exitCallback := some ()
      stdoutCallback := some ()
      stderrCallback := some () }

/-- The steps of `spawn()`, up to `killReturn`; the callbacks of the loop thread; and a call of
`kill`.  A `uv_read_start` that returns 0 is `none`. -/
inductive Input where
  | enter
  | timerStart
  | uvSpawn (r : UvSpawnResult)
  | storePid
  | readOut (r : Option UvError)
  | readErr (r : Option UvError)
  | killReturn
  | timerCb
  | exitCb (exitStatus termSignal : Int)
  | stdoutCb (nread : Int) (buf : List UInt8)
  | stderrCb (nread : Int) (buf : List UInt8)
  | kill (termSignal : Int)
  deriving DecidableEq

/-- The inputs that are callbacks of the loop thread. -/
def Input.isCallback : Input → Bool
  | .timerCb | .exitCb _ _ | .stdoutCb _ _ | .stderrCb _ _ => true
  | _ => false

/-- What `spawn()` goes on with at a place in the code, every result libuv can give. -/
def SpawnPc.takes : SpawnPc → Input → Bool
  | .enter, .enter | .timerStart, .timerStart | .uvSpawn, .uvSpawn _ | .storePid, .storePid
  | .readOut, .readOut _ | .readErr, .readErr _ | .killReturn _, .killReturn => true
  | _, _ => false

namespace Child

variable {F : Type}

/-- One step of `spawn()`.  `enter` is the test of `timeout` with `uv_timer_init`. -/
def spawnStep (o : DoryProcessSpawn F) : SpawnPc → Input → Option (Child F × List (Act F))
  | .enter, .enter =>
      if 0 < o.timeout then
        some (⟨{ o with timer := o.timer.init o.uvLoop }, .timerStart⟩, [.uv .timerInit])
      else some (⟨o, .uvSpawn⟩, [])
  | .timerStart, .timerStart =>
      some (⟨{ o with timer := o.timer.start }, .uvSpawn⟩, [.uv (.timerStart o.timeout)])
  | .uvSpawn, .uvSpawn r =>
      some (⟨{ o with process := o.process.spawn r },
        match r with
        | .ok _ => .storePid
        | _ => .returned r.code⟩, [.uv (.spawn o.options)])
  | .storePid, .storePid => some (⟨{ o with pid := o.process.pid }, .readOut⟩, [])
  | .readOut, .readOut none =>
      some (⟨{ o with pipeOut := o.pipeOut.readStart }, .readErr⟩, [.uv (.readStart .pipeOut)])
  | .readOut, .readOut (some r) => some (⟨o, .killReturn r⟩, [.uv (.readStart .pipeOut)])
  | .readErr, .readErr none =>
      some (⟨{ o with pipeErr := o.pipeErr.readStart }, .returned 0⟩,
        [.uv (.readStart .pipeErr)])
  | .readErr, .readErr (some r) => some (⟨o, .killReturn r⟩, [.uv (.readStart .pipeErr)])
  | .killReturn r, .killReturn => some (⟨o, .returned r⟩, o.kill SIGKILL)
  | _, _ => none

/-- A callback of the loop thread, up to the registered function it runs. -/
def callbackHead (s : Child F) : Input → Option (Child F × List (Act F))
  | .timerCb =>
      if s.obj.timer.armed then some (⟨s.obj.timerCbHead.1, s.pc⟩, s.obj.timerCbHead.2) else none
  | .exitCb exitStatus termSignal =>
      if s.obj.process.watched then
        some (⟨(s.obj.exitCb exitStatus termSignal).1, s.pc⟩,
          (s.obj.exitCb exitStatus termSignal).2)
      else none
  | .stdoutCb nread buf =>
      if s.obj.pipeOut.reading then
        some (⟨(s.obj.stdoutCbHead nread buf).1, s.pc⟩, (s.obj.stdoutCbHead nread buf).2)
      else none
  | .stderrCb nread buf =>
      if s.obj.pipeErr.reading then
        some (⟨(s.obj.stderrCbHead nread buf).1, s.pc⟩, (s.obj.stderrCbHead nread buf).2)
      else none
  | _ => none

/-- The rest of a callback. -/
def callbackTail (s : Child F) : Input → List (Act F)
  | .timerCb => s.obj.timerCbTail
  | .stdoutCb _ _ | .stderrCb _ _ => DoryProcessSpawn.readCbTail
  | _ => []

def step (s : Child F) (i : Input) : Option (Child F × List (Act F)) :=
  match i with
  | .kill termSignal => some (s, s.obj.kill termSignal)
  | i =>
      if i.isCallback then
        match s.callbackHead i with
        | some (s', as) => some (s', as ++ s'.callbackTail i)
        | none => none
      else spawnStep s.obj s.pc i

/-- One `DoryProcessSpawn`, from the call of `spawn()` on. -/
def machine (F : Type) : Machine (Child F) Input (Act F) := ⟨step⟩

/-- A constructed object with its listeners registered and its `timeout` set, before `spawn()`. -/
def start (c : Setup F) : Child F :=
  ⟨{ (.new c.mem c.loop c.args c.cwd c.env : DoryProcessSpawn F) with
      timeout := c.timeout, listeners := c.listeners }, .enter⟩

/-! ### What one step can do -/

/-- Every step, with the child after it and what it did. -/
inductive Step : Child F → Input → Child F → List (Act F) → Prop where
  | enterTimed {o} : 0 < o.timeout →
      Step ⟨o, .enter⟩ .enter ⟨{ o with timer := o.timer.init o.uvLoop }, .timerStart⟩
        [.uv .timerInit]
  | enterUntimed {o} : o.timeout = 0 → Step ⟨o, .enter⟩ .enter ⟨o, .uvSpawn⟩ []
  | timerStart {o} : Step ⟨o, .timerStart⟩ .timerStart
      ⟨{ o with timer := o.timer.start }, .uvSpawn⟩ [.uv (.timerStart o.timeout)]
  | uvSpawn {o} (pid) : Step ⟨o, .uvSpawn⟩ (.uvSpawn (.ok pid))
      ⟨{ o with process := o.process.spawn (.ok pid) }, .storePid⟩ [.uv (.spawn o.options)]
  | uvSpawnError {o r} : r.isOk = false → Step ⟨o, .uvSpawn⟩ (.uvSpawn r)
      ⟨{ o with process := o.process.spawn r }, .returned r.code⟩ [.uv (.spawn o.options)]
  | storePid {o} : Step ⟨o, .storePid⟩ .storePid ⟨{ o with pid := o.process.pid }, .readOut⟩ []
  | readOut {o} : Step ⟨o, .readOut⟩ (.readOut none)
      ⟨{ o with pipeOut := o.pipeOut.readStart }, .readErr⟩ [.uv (.readStart .pipeOut)]
  | readOutError {o r} : Step ⟨o, .readOut⟩ (.readOut (some r)) ⟨o, .killReturn r⟩
      [.uv (.readStart .pipeOut)]
  | readErr {o} : Step ⟨o, .readErr⟩ (.readErr none)
      ⟨{ o with pipeErr := o.pipeErr.readStart }, .returned 0⟩ [.uv (.readStart .pipeErr)]
  | readErrError {o r} : Step ⟨o, .readErr⟩ (.readErr (some r)) ⟨o, .killReturn r⟩
      [.uv (.readStart .pipeErr)]
  | killReturn {o r} : Step ⟨o, .killReturn r⟩ .killReturn ⟨o, .returned r⟩ (o.kill SIGKILL)
  | timerCb {o pc} : o.timer.armed = true → Step ⟨o, pc⟩ .timerCb ⟨o.timerCbHead.1, pc⟩
      (o.timerCbHead.2 ++ o.timerCbHead.1.timerCbTail)
  | exitCb {o pc e g} : o.process.watched = true →
      Step ⟨o, pc⟩ (.exitCb e g) ⟨(o.exitCb e g).1, pc⟩ (o.exitCb e g).2
  | stdoutCb {o pc nread buf} : o.pipeOut.reading = true →
      Step ⟨o, pc⟩ (.stdoutCb nread buf) ⟨(o.stdoutCbHead nread buf).1, pc⟩
        ((o.stdoutCbHead nread buf).2 ++ DoryProcessSpawn.readCbTail)
  | stderrCb {o pc nread buf} : o.pipeErr.reading = true →
      Step ⟨o, pc⟩ (.stderrCb nread buf) ⟨(o.stderrCbHead nread buf).1, pc⟩
        ((o.stderrCbHead nread buf).2 ++ DoryProcessSpawn.readCbTail)
  | kill {o pc g} : Step ⟨o, pc⟩ (.kill g) ⟨o, pc⟩ (o.kill g)

theorem spawnStep_inv {o : DoryProcessSpawn F} {pc : SpawnPc} {i : Input} {s' : Child F}
    {as : List (Act F)} (h : spawnStep o pc i = some (s', as)) : Step ⟨o, pc⟩ i s' as := by
  unfold spawnStep at h
  split at h
  case h_1 =>
    split at h
    · cases h; exact .enterTimed ‹_›
    · cases h; exact .enterUntimed (by simpa [UInt64.pos_iff_ne_zero] using ‹¬ 0 < o.timeout›)
  case h_2 => cases h; exact .timerStart
  case h_3 r =>
    cases r with
    | ok pid => cases h; exact .uvSpawn pid
    | forkFailed r => cases h; exact .uvSpawnError rfl
    | execFailed r pid => cases h; exact .uvSpawnError rfl
  case h_4 => cases h; exact .storePid
  case h_5 => cases h; exact .readOut
  case h_6 => cases h; exact .readOutError
  case h_7 => cases h; exact .readErr
  case h_8 => cases h; exact .readErrError
  case h_9 => cases h; exact .killReturn
  case h_10 => cases h

theorem callbackHead_isCallback {s s' : Child F} {i : Input} {as : List (Act F)}
    (h : s.callbackHead i = some (s', as)) : i.isCallback = true := by
  cases i with
  | timerCb | exitCb | stdoutCb | stderrCb => rfl
  | _ => cases h

theorem spawnStep_isCallback {o : DoryProcessSpawn F} {pc : SpawnPc} {i : Input} {s' : Child F}
    {as : List (Act F)} (h : spawnStep o pc i = some (s', as)) : i.isCallback = false := by
  cases i with
  | timerCb | exitCb | stdoutCb | stderrCb => simp [spawnStep] at h
  | _ => rfl

theorem callbackHead_step {s s' : Child F} {i : Input} {as : List (Act F)}
    (h : s.callbackHead i = some (s', as)) : step s i = some (s', as ++ s'.callbackTail i) := by
  cases i with
  | timerCb | exitCb | stdoutCb | stderrCb => simp only [step, Input.isCallback, if_true, h]
  | _ => cases h

theorem spawnStep_step {s s' : Child F} {i : Input} {as : List (Act F)}
    (h : spawnStep s.obj s.pc i = some (s', as)) : step s i = some (s', as) := by
  cases i with
  | timerCb | exitCb | stdoutCb | stderrCb | kill => simp [spawnStep] at h
  | _ => exact h

/-- A callback is one of `Step`'s. -/
theorem callbackHead_inv {s s' : Child F} {i : Input} {as : List (Act F)}
    (h : s.callbackHead i = some (s', as)) : Step s i s' (as ++ s'.callbackTail i) := by
  obtain ⟨o, pc⟩ := s
  cases i with
  | timerCb | exitCb | stdoutCb | stderrCb =>
      simp only [callbackHead, Option.ite_none_right_eq_some, Option.some.injEq,
        Prod.mk.injEq] at h
      obtain ⟨hg, rfl, rfl⟩ := h
      simp only [callbackTail, List.append_nil]
      constructor
      exact hg
  | _ => cases h

/-- A step is one of `Step`'s. -/
theorem step_inv {s s' : Child F} {i : Input} {as : List (Act F)}
    (h : step s i = some (s', as)) : Step s i s' as := by
  cases i with
  | timerCb | exitCb | stdoutCb | stderrCb =>
      simp only [step, Input.isCallback, if_true] at h
      split at h
      · cases h; exact callbackHead_inv ‹_›
      · cases h
  | kill => cases h; exact .kill
  | enter | timerStart | uvSpawn | storePid | readOut | readErr | killReturn =>
      exact spawnStep_inv h

/-! ### What a child takes -/

theorem timerCb_comes (s : Child F) : (s.callbackHead .timerCb).isSome = s.obj.timer.armed := by
  simp only [callbackHead]; split <;> simp_all

theorem exitCb_comes (s : Child F) (e g : Int) :
    (s.callbackHead (.exitCb e g)).isSome = s.obj.process.watched := by
  simp only [callbackHead]; split <;> simp_all

theorem stdoutCb_comes (s : Child F) (nread : Int) (buf : List UInt8) :
    (s.callbackHead (.stdoutCb nread buf)).isSome = s.obj.pipeOut.reading := by
  simp only [callbackHead]; split <;> simp_all

theorem stderrCb_comes (s : Child F) (nread : Int) (buf : List UInt8) :
    (s.callbackHead (.stderrCb nread buf)).isSome = s.obj.pipeErr.reading := by
  simp only [callbackHead]; split <;> simp_all

theorem spawnStep_takes (o : DoryProcessSpawn F) (pc : SpawnPc) (i : Input) :
    (spawnStep o pc i).isSome = pc.takes i := by
  cases pc <;> cases i <;> first | rfl | skip
  case enter.enter =>
      simp only [spawnStep]
      split <;> rfl
  case readOut.readOut r => cases r <;> rfl
  case readErr.readErr r => cases r <;> rfl

/-- A callback leaves `spawn()` where it is. -/
theorem callbackHead_pc {s s' : Child F} {i : Input} {as : List (Act F)}
    (h : s.callbackHead i = some (s', as)) : s'.pc = s.pc := by
  cases i with
  | timerCb | exitCb | stdoutCb | stderrCb =>
      simp only [callbackHead, Option.ite_none_right_eq_some, Option.some.injEq,
        Prod.mk.injEq] at h
      exact h.2.1 ▸ rfl
  | _ => cases h

/-- A step one child makes, another one makes too, if its source is active or its `spawn()` is at
the same place. -/
theorem step_accepts {s s' t : Child F} {i : Input} {as : List (Act F)}
    (hs : step s i = some (s', as)) (hto : t.obj.timeout = s.obj.timeout)
    (hcb : i.isCallback → (t.callbackHead i).isSome)
    (hpc : i.isCallback = false → t.pc = s.pc) :
    ∃ t' bs, step t i = some (t', bs) ∧ (t.pc = s.pc → t'.pc = s'.pc) := by
  by_cases hi : i.isCallback
  · obtain ⟨⟨t', bs⟩, ht⟩ := Option.isSome_iff_exists.mp (hcb hi)
    refine ⟨t', _, callbackHead_step ht, fun hpc => ?_⟩
    rw [callbackHead_pc ht, hpc]
    cases step_inv hs with
    | timerCb | exitCb | stdoutCb | stderrCb => rfl
    | _ => cases hi
  · obtain ⟨o, pc⟩ := t
    cases hpc (by simpa using hi)
    cases step_inv hs with
    | enterTimed ht => exact ⟨_, _, if_pos (hto ▸ ht), fun _ => rfl⟩
    | enterUntimed ht =>
        have ht' : ¬ 0 < o.timeout := by rw [show o.timeout = 0 from hto.trans ht]; simp
        exact ⟨_, _, if_neg ht', fun _ => rfl⟩
    | @uvSpawnError _ r hr =>
        cases r with
        | ok pid => cases hr
        | forkFailed | execFailed => exact ⟨_, _, rfl, fun _ => rfl⟩
    | timerCb | exitCb | stdoutCb | stderrCb => exact absurd rfl hi
    | _ => exact ⟨_, _, rfl, fun _ => rfl⟩

end Child

end Dorypuppy
