import Mathlib.Logic.Function.Basic
import Dorypuppy.Java.DoryProcess

/-!
# Manager — the state

The manager is the pair of `DoryPuppy` and its native half: the Java objects, the native objects,
the two maps named `processList`, the threads inside a call, and what the loop thread is doing.
The operating system is there as the table of the pids in use.

Three fields are kept for the statements alone, and no step looks at them: whose `start()` made a
native object (`Spawn.puppy`), how far its registration has come (`Spawn.stage`), and which object
an entry of a map was put in for (`NativeEntry.child`, `JavaEntry.child`).
-/

namespace Dorypuppy.Manager

abbrev PuppyId := Nat

abbrev ObjId := Nat

/-- `uv_default_loop()`. -/
def uvLoop : LoopPtr := 1

/-- The loop thread, or a thread of the application. -/
inductive Tid where
  | loop
  | caller (n : Nat)
  deriving DecidableEq

/-- How far the registration of a native object has come: no entry yet, an entry in the native
`processList`, an entry in both. -/
inductive Stage where
  | new | native | java
  deriving DecidableEq

/-- A native object, as the native `spawn` makes it. -/
structure Spawn where
  child : Child JniCallback
  puppy : PuppyId
  stage : Stage

/-- `std::make_shared<DoryProcessSpawn>(*process)`: a copy of the object. -/
structure NativeEntry where
  copy : DoryProcessSpawn JniCallback
  child : ObjId

structure JavaEntry where
  puppy : PuppyId
  child : ObjId

/-- The calls of the public methods. -/
inductive Api where
  | start (timeout : Int64)
  | puppySpawn
  | kill (signal : Int)
  | puppyKill (signal : Int)
  deriving DecidableEq

/-- Where a call is; each of these is one step, `spawning` the steps of `spawn()`.

The call of `start` goes through `setTimeout`, `create` (the arrays, `new`, `on`), `spawning`
(`spawn()`, and then the test of its result with `processList[pid] = …`), `javaPut` (the test of
what the native `spawn` returned with `processList.put`), `setPid` and `setStartedAt` (with the
`return pid` after it); `puppySpawn` is `create` to `javaPut`.  The call of `kill` goes through
`killCheck` (`pid == 0`), `killRead` (`puppy.pid`), `killCount` (`processList.count(pid)`) and
`killDeref` (`processList[pid]->kill`). -/
inductive CallPc where
  | setTimeout (timeout : Int64)
  | create
  | spawning (c : ObjId)
  | javaPut (c : ObjId) (pid : Int)
  | setPid (pid : Int)
  | setStartedAt (pid : Int)
  | killCheck (signal : Int)
  | killRead (signal : Int)
  | killCount (pid signal : Int)
  | killDeref (pid signal : Int)
  deriving DecidableEq

/-- A call under way: the `DoryProcess` it is on, whether it is a call of `start`, and where it
is. -/
structure Call where
  puppy : PuppyId
  inStart : Bool
  pc : CallPc
  deriving DecidableEq

def Api.begin (p : PuppyId) : Api → Call
  | .start timeout => ⟨p, true, .setTimeout timeout⟩
  | .puppySpawn => ⟨p, false, .create⟩
  | .kill signal => ⟨p, false, .killCheck signal⟩
  | .puppyKill signal => ⟨p, false, .killRead signal⟩

/-- Where a callback is that called a method of `DoryPuppy`.  The three writes are those of
`jniExit`; `remove` is the `processList.remove(pid)` of `jniExit`, `erase` the
`processList.erase(pid)` of the registered function, `tail` what the callback does after it. -/
inductive JniPc where
  | containsKey | setCode | setSignal | setExitedAt | nullCheck | call | inListener
  | remove | erase | tail
  deriving DecidableEq

/-- A callback that called a method of `DoryPuppy`: the object it is a callback of, what it is,
the method with its arguments, and where it is. -/
structure Frame where
  child : ObjId
  input : Input
  method : JniCallback
  pid : Int
  args : JArgs
  pc : JniPc
  deriving DecidableEq

/-- Who has a pid: a child, or a process of somebody else. -/
inductive Holder where
  | child (c : ObjId)
  | other
  deriving DecidableEq

/-- The pid table after an input of the child `c`: `uv_spawn` keeps the pid it got when it returns
0, and the pid is free from `exit_cb` on. -/
def pidsAfter (os : Int → Option Holder) (c : ObjId) (o : DoryProcessSpawn JniCallback) :
    Input → Int → Option Holder
  | .uvSpawn (.ok pid) => Function.update os pid (some (.child c))
  | .exitCb _ _ => Function.update os o.process.pid none
  | _ => os

structure State where
  puppies : PuppyId → DoryProcess
  objs : ObjId → Option Spawn
  next : ObjId
  nativeList : Int → Option (Option NativeEntry)
  javaList : Int → Option JavaEntry
  calls : Tid → Option Call
  frame : Option Frame
  os : Int → Option Holder
  /-- A null entry was dereferenced. -/
  crashed : Bool

/-- The library loaded, with all `DoryProcess` objects constructed that there will be. -/
def State.init (puppies : PuppyId → List (Option JString) × StringTable) : State where
  puppies p := .new (puppies p).1 (puppies p).2
  objs _ := none
  next := 0
  nativeList _ := none
  javaList _ := none
  calls _ := none
  frame := none
  os _ := none
  crashed := false

/-- No thread is inside a call, and no callback is running. -/
def State.Quiescent (s : State) : Prop := (∀ t, s.calls t = none) ∧ s.frame = none

/-- A call that is inside `puppySpawn` or the native `kill`. -/
def CallPc.inSpawnOrKill : CallPc → Bool
  | .create | .spawning _ | .javaPut _ _ | .killCount _ _ | .killDeref _ _ => true
  | .setTimeout _ | .setPid _ | .setStartedAt _ | .killCheck _ | .killRead _ => false

/-- No thread is inside `puppySpawn` or the native `kill`, and no callback is running.  A thread
may be in a part of `start` before or after its `puppySpawn`. -/
def State.Settled (s : State) : Prop :=
  (∀ t call, s.calls t = some call → call.pc.inSpawnOrKill = false) ∧ s.frame = none

theorem State.Quiescent.settled {s : State} (hq : s.Quiescent) : s.Settled := by
  refine ⟨fun t call hc => ?_, hq.2⟩
  rw [hq.1 t] at hc
  cases hc

/-- What can happen next: the application changes a `DoryProcess` or calls a method, a thread does
the next step of its call or of its `spawn()`, the loop runs a callback of a native object or goes
on with the one it is in, a listener returns or throws, a process of somebody else starts or ends.

`mem` is the memory `new` finds, `now` what `new Date()` gives. -/
inductive Label where
  | set (p : PuppyId) (x : Setter)
  | call (t : Tid) (p : PuppyId) (api : Api)
  | step (t : Tid) (mem : Uninit) (now : Date)
  | spawn (t : Tid) (i : Input)
  | callback (c : ObjId) (i : Input)
  | jni (now : Date)
  | listenerReturns
  | listenerThrows
  | otherStarts (pid : Pid)
  | otherEnds (pid : Int)

/-- What a step does, as far as the statements speak of it.  `c` is the native object whose
callback it is an effect of. -/
inductive Event where
  | act (c : ObjId) (a : Act JniCallback)
  | listener (p : PuppyId) (l : Listener) (k : JniCallback) (pid : Int) (args : JArgs) (c : ObjId)
  | wrote (p : PuppyId) (w : Write) (c : ObjId)
  | removed (pid : Int) (entry : Option ObjId) (c : ObjId)
  | erased (pid : Int) (entry : Option ObjId) (c : ObjId)
  | killed (p : PuppyId) (pid signal : Int) (entry : ObjId)
  | nullEntry (p : PuppyId) (pid : Int)
  | returned (t : Tid) (p : PuppyId) (pid : Int)
  | threw (t : Tid) (p : PuppyId) (code : Int)
  deriving DecidableEq

/-! ### Maps -/

/-- What a map holds after `put`. -/
theorem update_some {κ ν : Type} [DecidableEq κ] {m : κ → Option ν} {k k' : κ} {v x : ν}
    (h : Function.update m k (some v) k' = some x) : k' = k ∧ v = x ∨ m k' = some x := by
  by_cases hk : k' = k
  · subst hk
    rw [Function.update_self] at h
    exact .inl ⟨rfl, Option.some.inj h⟩
  · rw [Function.update_of_ne hk] at h
    exact .inr h

/-- What a map holds after `remove`. -/
theorem update_none {κ ν : Type} [DecidableEq κ] {m : κ → Option ν} {k k' : κ} {x : ν}
    (h : Function.update m k none k' = some x) : k' ≠ k ∧ m k' = some x := by
  by_cases hk : k' = k
  · subst hk
    rw [Function.update_self] at h
    cases h
  · rw [Function.update_of_ne hk] at h
    exact ⟨hk, h⟩

end Dorypuppy.Manager
