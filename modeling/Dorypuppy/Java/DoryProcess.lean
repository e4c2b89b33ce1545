import Dorypuppy.Java.Jni

/-!
# Java — the class `DoryProcess`

The fields of `DoryProcess` and what `DoryPuppy.puppySpawn` makes of them: the arrays it hands to
the native `spawn`, and the `DoryProcessSpawn` that makes from these.

`protected` fields are read and written by the `DoryPuppy` of the same package.  The list of the
command and the map that `environment()` gives out stay shared with whoever holds them, so both
can change at any time (`Setter`).
-/

namespace Dorypuppy

abbrev Date := Nat

/-- A listener object. -/
abbrev Listener := Nat

/-- A `Hashtable<String, String>`, in the order its `entrySet` gives. -/
structure StringTable where
  entries : List (JString × JString)
  nodup : (entries.map Prod.fst).Nodup

structure DoryProcess where
  command : List (Option JString)
  directory : Option JString
  environment : StringTable
  pid : Int
  timeout : Int64
  code : Int
  signal : Int
  startedAt : Option Date
  exitedAt : Option Date
  stdoutListener : Option Listener
  stderrListener : Option Listener
  exitListener : Option Listener
  timeoutListener : Option Listener

/-- A change made from outside: the four setters of listeners, `directory`, and the shared list
and map. -/
inductive Setter where
  | listener (event : JniCallback) (listener : Option Listener)
  | directory (directory : Option JString)
  | command (command : List (Option JString))
  | environment (environment : StringTable)

/-- A field `DoryPuppy` or `start` writes, with its value. -/
inductive Write where
  | pid (pid : Int)
  | timeout (timeout : Int64)
  | code (code : Int)
  | signal (signal : Int)
  | startedAt (now : Date)
  | exitedAt (now : Date)
  deriving DecidableEq

namespace DoryProcess

/-- The constructor; `environment` is a copy of `System.getenv()`. -/
def new (command : List (Option JString)) (environment : StringTable) : DoryProcess where
  command := command
  directory := none
  environment := environment
  pid := 0
  timeout := 0
  code := 0
  signal := 0
  startedAt := none
  exitedAt := none
  stdoutListener := none
  stderrListener := none
  exitListener := none
  timeoutListener := none

/-- The listener of an event. -/
def listenerOf (p : DoryProcess) : JniCallback → Option Listener
  | .stdout => p.stdoutListener
  | .stderr => p.stderrListener
  | .exit => p.exitListener
  | .timeout => p.timeoutListener

/-- A setter of a listener ignores null. -/
def apply (p : DoryProcess) : Setter → DoryProcess
  | .listener _ none => p
  | .listener .stdout (some l) => { p with stdoutListener := some l }
  | .listener .stderr (some l) => { p with stderrListener := some l }
  | .listener .exit (some l) => { p with exitListener := some l }
  | .listener .timeout (some l) => { p with timeoutListener := some l }
  | .directory d => { p with directory := d }
  | .command c => { p with command := c }
  | .environment e => { p with environment := e }

def write (p : DoryProcess) : Write → DoryProcess
  | .pid pid => { p with pid := pid }
  | .timeout timeout => { p with timeout := timeout }
  | .code code => { p with code := code }
  | .signal signal => { p with signal := signal }
  | .startedAt now => { p with startedAt := some now }
  | .exitedAt now => { p with exitedAt := some now }

def isRunning (p : DoryProcess) : Bool := p.pid ≠ 0 && p.exitedAt.isNone

/-! ### `puppySpawn`, up to the native `spawn` -/

/-- `key + "=" + value`, for each entry. -/
def envArray (p : DoryProcess) : List JString :=
  p.environment.entries.map fun e => e.1 ++ 0x3D :: e.2

/-- The native copy of `envArray`, which is null when it has no entry. -/
def environ (p : DoryProcess) : Option (Option (List (Option CString))) :=
  if 0 < p.envArray.length then (stringArray (p.envArray.map some)).map some else some none

/-- The arguments of the native `spawn`, copied as it copies them, and the object it makes from
them in memory `mem`. -/
def setup (p : DoryProcess) (mem : Uninit) (loop : LoopPtr) : Option (Setup JniCallback) :=
  match stringArray p.command, p.environ with
  | some args, some env =>
      some {
        mem := mem
        loop := loop
        args := args
        cwd := p.directory.map getStringUTFChars
        env := env
        timeout := p.timeout.toUInt64
        listeners := jniListeners }
  | _, _ => none

/-- The strings the native `spawn` gives to `GetStringUTFChars`, in order. -/
def utfStrings (p : DoryProcess) : List (Option JString) :=
  p.command ++ p.envArray.map some ++ p.directory.toList.map some

theorem setup_listeners {p : DoryProcess} {mem : Uninit} {loop : LoopPtr}
    {c : Setup JniCallback} (h : p.setup mem loop = some c) : c.listeners = jniListeners := by
  unfold setup at h
  split at h
  · cases h; rfl
  · cases h

theorem setup_timeout {p : DoryProcess} {mem : Uninit} {loop : LoopPtr}
    {c : Setup JniCallback} (h : p.setup mem loop = some c) : c.timeout = p.timeout.toUInt64 := by
  unfold setup at h
  split at h
  · cases h; rfl
  · cases h

theorem environ_eq (p : DoryProcess) : p.environ =
    if p.environment.entries = [] then some none
    else some (some (p.envArray.map (fun s => some (getStringUTFChars s)) ++ [none])) := by
  simp only [environ, envArray, List.length_map, List.length_pos_iff, stringArray_some,
    Option.map_some]
  split <;> simp_all

/-- What the object is made from. -/
theorem setup_eq {p : DoryProcess} {mem : Uninit} {loop : LoopPtr} {c : Setup JniCallback}
    (h : p.setup mem loop = some c) : none ∉ p.command ∧
      c.args = p.command.map (Option.map getStringUTFChars) ++ [none] ∧
      c.cwd = p.directory.map getStringUTFChars ∧
      c.env = if p.environment.entries = [] then none
        else some (p.envArray.map (fun s => some (getStringUTFChars s)) ++ [none]) := by
  unfold setup at h
  split at h
  · rename_i args env hargs henv
    cases h
    obtain ⟨hnull, hargs⟩ := stringArray_eq hargs
    refine ⟨hnull, hargs, rfl, ?_⟩
    rw [environ_eq] at henv
    split at henv
    · rw [if_pos ‹_›]; exact (Option.some.inj henv).symm
    · rw [if_neg ‹_›]; exact (Option.some.inj henv).symm
  · cases h

/-- An element of the command is the only string that can be null. -/
theorem none_mem_utfStrings {p : DoryProcess} : none ∈ p.utfStrings ↔ none ∈ p.command := by
  simp [utfStrings]

/-- The copies are made when none of the strings is null. -/
theorem setup_isSome {p : DoryProcess} {mem : Uninit} {loop : LoopPtr} :
    (p.setup mem loop).isSome ↔ none ∉ p.utfStrings := by
  obtain ⟨env, henv⟩ : ∃ env, p.environ = some env := by
    rw [environ_eq]
    split <;> exact ⟨_, rfl⟩
  rw [none_mem_utfStrings, ← stringArray_isSome, setup, henv]
  cases stringArray p.command <;> simp

/-! ### Which fields a change leaves alone -/

variable (p : DoryProcess) (x : Setter)

@[simp] theorem apply_pid : (p.apply x).pid = p.pid := by
  cases x with
  | listener k l => cases k <;> cases l <;> rfl
  | _ => rfl

/-- The exit fields are written by `DoryPuppy` only. -/
theorem apply_exit : (p.apply x).code = p.code ∧ (p.apply x).signal = p.signal ∧
    (p.apply x).exitedAt = p.exitedAt := by
  cases x with
  | listener k l => cases k <;> cases l <;> exact ⟨rfl, rfl, rfl⟩
  | _ => exact ⟨rfl, rfl, rfl⟩

/-- A listener that is set stays set. -/
theorem apply_listenerOf {k : JniCallback} (h : (p.listenerOf k).isSome) :
    ((p.apply x).listenerOf k).isSome := by
  cases x with
  | listener k' l => cases l <;> cases k' <;> cases k <;> first | exact h | rfl
  | _ => exact h

/-- `pid` is written by a write of `pid` only. -/
theorem write_pid {w : Write} (h : ∀ pid, w ≠ .pid pid) : (p.write w).pid = p.pid := by
  cases w <;> first | rfl | exact absurd rfl (h _)

@[simp] theorem write_listenerOf (w : Write) (k : JniCallback) :
    (p.write w).listenerOf k = p.listenerOf k := by
  cases w <;> cases k <;> rfl

end DoryProcess

end Dorypuppy
