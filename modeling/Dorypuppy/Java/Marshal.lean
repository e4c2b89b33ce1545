import Mathlib.Data.List.Nodup
import Dorypuppy.Java.DoryProcess
import Dorypuppy.Support.Machine

/-!
# Java — `puppySpawn` while its `DoryProcess` changes

`DoryPuppy.puppySpawn` asks the list of the command for its size and copies it after that, and does
the same with the map of the environment, entry by entry.  It tests `directory` and reads it again.
The list, the map and the fields are shared, and nothing is locked.  Here each of these accesses is
one step, and other threads change the `DoryProcess` in between.

* `marshals_calm`: as long as the list is not shorter at its copy than when its size was read, no
  key is added or removed, and `directory` is not set to null between its two reads, the native
  `spawn` is called after a bounded number of steps, and each string is one that the `DoryProcess`
  had during the call.
* `marshals_whole`: when nothing changes, the native `spawn` makes what `DoryProcess.setup` says.
-/

namespace Dorypuppy

open Support (Machine History)

/-! ### The map -/

namespace StringTable

def keys (t : StringTable) : List JString := t.entries.map Prod.fst

/-- `put` of a key that is there. -/
def replace (t : StringTable) (key value : JString) : StringTable where
  entries := t.entries.map fun e => if e.1 = key then (key, value) else e
  nodup := by
    have hkeys : (t.entries.map fun e => if e.1 = key then (key, value) else e).map Prod.fst =
        t.entries.map Prod.fst := by
      rw [List.map_map]
      refine List.map_congr_left fun e _ => ?_
      by_cases h : e.1 = key <;> simp [h]
    exact hkeys ▸ t.nodup

@[simp] theorem replace_keys (t : StringTable) (key value : JString) :
    (t.replace key value).keys = t.keys := by
  simp only [keys, replace, List.map_map]
  refine List.map_congr_left fun e _ => ?_
  by_cases h : e.1 = key <;> simp [h]

def remove (t : StringTable) (key : JString) : StringTable where
  entries := t.entries.filter fun e => e.1 ≠ key
  nodup := (List.Sublist.map _ List.filter_sublist).nodup t.nodup

def empty : StringTable := ⟨[], List.nodup_nil⟩

end StringTable

/-! ### The steps of `puppySpawn` -/

/-- A change another thread makes.  `put` of a new key may move the other entries; `order` is how
they are then. -/
inductive Change where
  | command (command : List (Option JString))
  | put (key value : JString) (order : StringTable)
  | remove (key : JString)
  | clear
  | directory (directory : Option JString)
  | timeout (timeout : Int64)

/-- The arguments of the native `spawn`. -/
structure SpawnArgs where
  cmdArray : List (Option JString)
  timeout : Int64
  directory : Option JString
  envArray : Option (List (Option JString))

/-- The two arrays, as far as they are filled. -/
structure Arrays where
  cmd : List (Option JString)
  env : List (Option JString)

/-- An entry that the iterator gave out; it is live while it is in the map. -/
structure Held where
  key : JString
  value : JString
  live : Bool

inductive JavaException where
  | concurrentModification | noSuchElement | arrayIndexOutOfBounds | nullPointer
  deriving DecidableEq

/-- Where `puppySpawn` is: `i` entries are stored, and the iterator expects this `modCount`. -/
inductive MarshalPc where
  | commandSize
  | toArray (size : Nat)
  | environmentSize (cmd : List (Option JString))
  | entrySet (a : Arrays)
  | hasNext (a : Arrays) (i expected : Nat)
  | next (a : Arrays) (i expected : Nat)
  | store (a : Arrays) (i expected : Nat) (entry : Held)
  | timeout (a : Arrays)
  | directoryTest (a : Arrays) (timeout : Int64)
  | directoryString (a : Arrays) (timeout : Int64)
  | called (args : SpawnArgs)
  | threw (e : JavaException)

structure Marshal where
  puppy : DoryProcess
  modCount : Nat
  pc : MarshalPc

/-- The thread goes on, or another one changes the `DoryProcess`.  `found` is what `hasNext` answers
when the map has been modified. -/
inductive MarshalLabel where
  | go (found : Bool)
  | change (c : Change)

/-- `key + "=" + value`. -/
def entryString (e : JString × JString) : JString := e.1 ++ 0x3D :: e.2

/-- `toArray(new String[size])`. -/
def toArray (l : List (Option JString)) (size : Nat) : List (Option JString) :=
  l ++ List.replicate (size - l.length) none

/-- The call, with `(envArray.length > 0) ? envArray : null`. -/
def Arrays.call (a : Arrays) (timeout : Int64) (directory : Option JString) : SpawnArgs where
  cmdArray := a.cmd
  timeout := timeout
  directory := directory
  envArray := if 0 < a.env.length then some a.env else none

namespace Marshal

/-- The next step of `puppySpawn`. -/
def advance (m : Marshal) (found : Bool) : Option MarshalPc :=
  match m.pc with
  | .commandSize => some (.toArray m.puppy.command.length)
  | .toArray size => some (.environmentSize (Dorypuppy.toArray m.puppy.command size))
  | .environmentSize cmd =>
      some (.entrySet ⟨cmd, List.replicate m.puppy.environment.entries.length none⟩)
  | .entrySet a => some (.hasNext a 0 m.modCount)
  | .hasNext a i expected =>
      if (if m.modCount = expected then decide (i < m.puppy.environment.entries.length) else found)
      then some (.next a i expected) else some (.timeout a)
  | .next a i expected =>
      if m.modCount = expected then
        match m.puppy.environment.entries[i]? with
        | some e => some (.store a i expected ⟨e.1, e.2, true⟩)
        | none => some (.threw .noSuchElement)
      else some (.threw .concurrentModification)
  | .store a i expected entry =>
      if i < a.env.length then
        some (.hasNext
          { a with env := a.env.set i (some (entryString (entry.key, entry.value))) }
          (i + 1) expected)
      else some (.threw .arrayIndexOutOfBounds)
  | .timeout a => some (.directoryTest a m.puppy.timeout)
  | .directoryTest a timeout =>
      if m.puppy.directory.isSome then some (.directoryString a timeout)
      else some (.called (a.call timeout none))
  | .directoryString a timeout =>
      match m.puppy.directory with
      | some d => some (.called (a.call timeout (some d)))
      | none => some (.threw .nullPointer)
  | .called _ | .threw _ => none

/-- The map is changed, and with it the entry the thread holds. -/
def withTable (m : Marshal) (t : StringTable) (modCount : Nat) (held : Held → Held) : Marshal where
  puppy := { m.puppy with environment := t }
  modCount := modCount
  pc :=
    match m.pc with
    | .store a i expected entry => .store a i expected (held entry)
    | pc => pc

def change (m : Marshal) : Change → Option Marshal
  | .command c => some { m with puppy := { m.puppy with command := c } }
  | .put key value order =>
      if key ∈ m.puppy.environment.keys then
        some (m.withTable (m.puppy.environment.replace key value) m.modCount fun e =>
          if e.live ∧ e.key = key then { e with value := value } else e)
      else if order.entries.Perm ((key, value) :: m.puppy.environment.entries) then
        some (m.withTable order (m.modCount + 1) id)
      else none
  | .remove key =>
      if key ∈ m.puppy.environment.keys then
        some (m.withTable (m.puppy.environment.remove key) (m.modCount + 1) fun e =>
          if e.key = key then { e with live := false } else e)
      else some m
  | .clear => some (m.withTable .empty (m.modCount + 1) fun e => { e with live := false })
  | .directory d => some { m with puppy := { m.puppy with directory := d } }
  | .timeout t => some { m with puppy := { m.puppy with timeout := t } }

def step (m : Marshal) : MarshalLabel → Option (Marshal × List Empty)
  | .go found => (m.advance found).map fun pc => ({ m with pc := pc }, [])
  | .change c => (m.change c).map fun m' => (m', [])

end Marshal

def marshal : Machine Marshal MarshalLabel Empty := ⟨Marshal.step⟩

/-- A call of `puppySpawn` begins. -/
def Marshal.init (p : DoryProcess) (modCount : Nat) : Marshal := ⟨p, modCount, .commandSize⟩

/-! ### The native copy -/

/-- The native `spawn`, up to the object it makes. -/
def SpawnArgs.setup (a : SpawnArgs) (mem : Uninit) (loop : LoopPtr) : Option (Setup JniCallback) :=
  match stringArray a.cmdArray,
    (match a.envArray with
      | none => some none
      | some env => (stringArray env).map some) with
  | some args, some env =>
      some {
        mem := mem
        loop := loop
        args := args
        cwd := a.directory.map getStringUTFChars
        env := env
        timeout := a.timeout.toUInt64
        listeners := jniListeners }
  | _, _ => none

/-- What `puppySpawn` passes on of a `DoryProcess` that does not change. -/
def DoryProcess.spawnArgs (p : DoryProcess) : SpawnArgs where
  cmdArray := p.command
  timeout := p.timeout
  directory := p.directory
  envArray := if 0 < p.envArray.length then some (p.envArray.map some) else none

theorem DoryProcess.spawnArgs_setup (p : DoryProcess) (mem : Uninit) (loop : LoopPtr) :
    p.spawnArgs.setup mem loop = p.setup mem loop := by
  by_cases h : 0 < p.envArray.length
  · have hargs : p.spawnArgs.envArray = some (p.envArray.map some) := if_pos h
    have henv : p.environ = (stringArray (p.envArray.map some)).map some := if_pos h
    rw [SpawnArgs.setup, hargs, DoryProcess.setup, henv]
    rfl
  · have hargs : p.spawnArgs.envArray = none := if_neg h
    have henv : p.environ = some none := if_neg h
    rw [SpawnArgs.setup, hargs, DoryProcess.setup, henv]
    rfl

/-! ### What is seen of the `DoryProcess` -/

variable {p : DoryProcess} {n : Nat} {m m' : Marshal} {l : MarshalLabel} {is : List MarshalLabel}
  {h : History MarshalLabel Empty} {os : List Empty}

/-- The list of the command when the call began, or after a change. -/
def HadCommand (p : DoryProcess) (is : List MarshalLabel) (c : List (Option JString)) : Prop :=
  c = p.command ∨ .change (.command c) ∈ is

def HadTimeout (p : DoryProcess) (is : List MarshalLabel) (t : Int64) : Prop :=
  t = p.timeout ∨ .change (.timeout t) ∈ is

def HadDirectory (p : DoryProcess) (is : List MarshalLabel) (d : Option JString) : Prop :=
  d = p.directory ∨ .change (.directory d) ∈ is

def HadEntry (p : DoryProcess) (is : List MarshalLabel) (e : JString × JString) : Prop :=
  e ∈ p.environment.entries ∨ ∃ order, .change (.put e.1 e.2 order) ∈ is

theorem HadCommand.mono {c : List (Option JString)} (h : HadCommand p is c) :
    HadCommand p (is ++ [l]) c := h.imp_right (List.mem_append_left _)

theorem HadTimeout.mono {t : Int64} (h : HadTimeout p is t) : HadTimeout p (is ++ [l]) t :=
  h.imp_right (List.mem_append_left _)

theorem HadDirectory.mono {d : Option JString} (h : HadDirectory p is d) :
    HadDirectory p (is ++ [l]) d := h.imp_right (List.mem_append_left _)

theorem HadEntry.mono {e : JString × JString} (h : HadEntry p is e) : HadEntry p (is ++ [l]) e :=
  h.imp_right fun ⟨order, ho⟩ => ⟨order, List.mem_append_left _ ho⟩

/-- The first `i` entries are stored, each as it was at some moment. -/
def Filled (p : DoryProcess) (is : List MarshalLabel) (env : List (Option JString)) (i : Nat) :
    Prop :=
  ∃ es : List (JString × JString), es.map Prod.fst = p.environment.keys.take i ∧
    (∀ e ∈ es, HadEntry p is e) ∧
    env = es.map (fun e => some (entryString e)) ++
      List.replicate (p.environment.keys.length - i) none

theorem Filled.mono {env : List (Option JString)} {i : Nat} (h : Filled p is env i) :
    Filled p (is ++ [l]) env i := by
  obtain ⟨es, hkeys, hes, henv⟩ := h
  exact ⟨es, hkeys, fun e he => (hes e he).mono, henv⟩

theorem filled_zero : Filled p is (List.replicate p.environment.keys.length none) 0 :=
  ⟨[], by simp, by simp, by simp⟩

theorem Filled.length {env : List (Option JString)} {i : Nat} (h : Filled p is env i) :
    env.length = p.environment.keys.length := by
  obtain ⟨es, hkeys, -, rfl⟩ := h
  have := congrArg List.length hkeys
  simp only [List.length_map, List.length_take] at this
  simp only [List.length_append, List.length_map, List.length_replicate]
  omega

/-- One more entry. -/
theorem Filled.set {env : List (Option JString)} {i : Nat} {e : JString × JString}
    (h : Filled p is env i) (hi : i < p.environment.keys.length)
    (hkey : p.environment.keys[i]? = some e.1) (he : HadEntry p is e) :
    Filled p is (env.set i (some (entryString e))) (i + 1) := by
  obtain ⟨es, hkeys, hes, rfl⟩ := h
  have hlen : es.length = i := by
    have := congrArg List.length hkeys
    simp only [List.length_map, List.length_take] at this
    omega
  refine ⟨es ++ [e], ?_, ?_, ?_⟩
  · rw [List.map_append, hkeys, List.map_singleton, List.take_add_one, hkey]
    rfl
  · intro e' he'
    rcases List.mem_append.mp he' with he' | he'
    · exact hes e' he'
    · exact List.mem_singleton.mp he' ▸ he
  · obtain ⟨k, hk⟩ : ∃ k, p.environment.keys.length - i = k + 1 :=
      ⟨p.environment.keys.length - i - 1, by omega⟩
    rw [hk, show p.environment.keys.length - (i + 1) = k by omega, List.set_append_right _ _
      (by simp [hlen])]
    simp [hlen, List.replicate_succ]

/-- What the native `spawn` is called with when the call was left in peace. -/
structure Fair (p : DoryProcess) (is : List MarshalLabel) (a : SpawnArgs) : Prop where
  command : HadCommand p is a.cmdArray
  timeout : HadTimeout p is a.timeout
  directory : HadDirectory p is a.directory
  environment : ∃ es : List (JString × JString), es.map Prod.fst = p.environment.keys ∧
    (∀ e ∈ es, HadEntry p is e) ∧
    a.envArray = if es = [] then none else some (es.map fun e => some (entryString e))

/-! ### A call left in peace -/

def MarshalPc.ended : MarshalPc → Bool
  | .called _ | .threw _ => true
  | _ => false

/-- The list that is copied is not shorter than the size that was read, no key is added or removed,
and `directory` is not set to null between its two reads. -/
def calm (m : Marshal) : MarshalLabel → Bool
  | .go _ =>
      match m.pc with
      | .toArray size => size ≤ m.puppy.command.length
      | _ => true
  | .change (.put key _ _) => m.pc.ended || decide (key ∈ m.puppy.environment.keys)
  | .change (.remove key) => m.pc.ended || decide (key ∉ m.puppy.environment.keys)
  | .change .clear => m.pc.ended
  | .change (.directory d) =>
      match m.pc with
      | .directoryString _ _ => d.isSome
      | _ => true
  | _ => true

/-- What the `DoryProcess` is during the call. -/
structure Current (p : DoryProcess) (is : List MarshalLabel) (x : DoryProcess) : Prop where
  command : HadCommand p is x.command
  timeout : HadTimeout p is x.timeout
  directory : HadDirectory p is x.directory
  entries : ∀ e ∈ x.environment.entries, HadEntry p is e
  keys : x.environment.keys = p.environment.keys

/-- What the thread has in hand at each place. -/
def MarshalPlace (p : DoryProcess) (is : List MarshalLabel) (x : DoryProcess) (modCount : Nat) :
    MarshalPc → Prop
  | .commandSize | .toArray _ => True
  | .environmentSize cmd => HadCommand p is cmd
  | .entrySet a => HadCommand p is a.cmd ∧ Filled p is a.env 0
  | .hasNext a i expected => HadCommand p is a.cmd ∧ expected = modCount ∧
      i ≤ p.environment.keys.length ∧ Filled p is a.env i
  | .next a i expected => HadCommand p is a.cmd ∧ expected = modCount ∧
      i < p.environment.keys.length ∧ Filled p is a.env i
  | .store a i expected entry => HadCommand p is a.cmd ∧ expected = modCount ∧
      i < p.environment.keys.length ∧ Filled p is a.env i ∧
      p.environment.keys[i]? = some entry.key ∧ HadEntry p is (entry.key, entry.value)
  | .timeout a => HadCommand p is a.cmd ∧ Filled p is a.env p.environment.keys.length
  | .directoryTest a t => HadCommand p is a.cmd ∧ Filled p is a.env p.environment.keys.length ∧
      HadTimeout p is t
  | .directoryString a t => HadCommand p is a.cmd ∧ Filled p is a.env p.environment.keys.length ∧
      HadTimeout p is t ∧ x.directory.isSome
  | .called a => Fair p is a
  | .threw _ => False

structure MarshalInv (p : DoryProcess) (is : List MarshalLabel) (m : Marshal) : Prop where
  current : m.pc.ended = false → Current p is m.puppy
  place : MarshalPlace p is m.puppy m.modCount m.pc

theorem MarshalPlace.mono {x : DoryProcess} {pc : MarshalPc} (h : MarshalPlace p is x n pc) :
    MarshalPlace p (is ++ [l]) x n pc := by
  cases pc with
  | commandSize | toArray => exact h
  | environmentSize => exact HadCommand.mono h
  | entrySet => exact ⟨h.1.mono, h.2.mono⟩
  | hasNext | next => exact ⟨h.1.mono, h.2.1, h.2.2.1, h.2.2.2.mono⟩
  | store =>
      obtain ⟨hc, he, hi, hf, hk, hhad⟩ := h
      exact ⟨hc.mono, he, hi, hf.mono, hk, hhad.mono⟩
  | timeout => exact ⟨h.1.mono, h.2.mono⟩
  | directoryTest => exact ⟨h.1.mono, h.2.1.mono, h.2.2.mono⟩
  | directoryString => exact ⟨h.1.mono, h.2.1.mono, h.2.2.1.mono, h.2.2.2⟩
  | called =>
      obtain ⟨es, hkeys, hes, henv⟩ := h.environment
      exact ⟨h.command.mono, h.timeout.mono, h.directory.mono, es, hkeys,
        fun e he => (hes e he).mono, henv⟩
  | threw => exact h

theorem Current.mono {x : DoryProcess} (c : Current p is x) : Current p (is ++ [l]) x :=
  ⟨c.command.mono, c.timeout.mono, c.directory.mono, fun e he => (c.entries e he).mono, c.keys⟩

/-- The call is made with whole arrays. -/
theorem call_fair {a : Arrays} {t : Int64} {d : Option JString} (hc : HadCommand p is a.cmd)
    (hf : Filled p is a.env p.environment.keys.length) (ht : HadTimeout p is t)
    (hd : HadDirectory p is d) : Fair p is (a.call t d) := by
  obtain ⟨es, hkeys, hes, henv⟩ := hf
  refine ⟨hc, ht, hd, es, by simpa using hkeys, hes, ?_⟩
  have henv : a.env = es.map fun e => some (entryString e) := by simpa using henv
  cases es with
  | nil => simp [Arrays.call, henv]
  | cons => simp [Arrays.call, henv]

/-- Each step of the thread goes on to the next place. -/
theorem advance_place {found : Bool} {pc : MarshalPc} (c : Current p is m.puppy)
    (pl : MarshalPlace p is m.puppy m.modCount m.pc) (hC : calm m (.go found) = true)
    (h : m.advance found = some pc) : MarshalPlace p is m.puppy m.modCount pc := by
  have hlen : m.puppy.environment.entries.length = p.environment.keys.length := by
    rw [← c.keys, StringTable.keys, List.length_map]
  unfold Marshal.advance at h
  split at h <;> rename_i hpc <;> rw [hpc] at pl
  · -- commandSize
    cases h
    exact trivial
  · -- toArray
    cases h
    rw [calm, hpc] at hC
    have hle := of_decide_eq_true hC
    show HadCommand p is (toArray _ _)
    rw [toArray, Nat.sub_eq_zero_of_le hle, List.replicate_zero, List.append_nil]
    exact c.command
  · -- environmentSize
    cases h
    exact ⟨pl, hlen ▸ filled_zero⟩
  · -- entrySet
    cases h
    exact ⟨pl.1, rfl, Nat.zero_le _, pl.2⟩
  · -- hasNext
    obtain ⟨hc, rfl, hi, hf⟩ := pl
    rw [if_pos rfl] at h
    split at h
    · rename_i hlt
      cases h
      exact ⟨hc, rfl, hlen ▸ of_decide_eq_true hlt, hf⟩
    · rename_i hge
      cases h
      have hlast : _ = p.environment.keys.length :=
        le_antisymm hi (not_lt.mp fun hlt => hge (decide_eq_true (hlen.symm ▸ hlt)))
      exact ⟨hc, hlast ▸ hf⟩
  · -- next
    obtain ⟨hc, rfl, hi, hf⟩ := pl
    rw [if_pos rfl] at h
    split at h
    · rename_i e he
      cases h
      refine ⟨hc, rfl, hi, hf, ?_, c.entries e (List.mem_of_getElem? he)⟩
      rw [← c.keys, StringTable.keys, List.getElem?_map, he]
      rfl
    · rename_i hnone
      have := List.getElem?_eq_none_iff.mp hnone
      omega
  · -- store
    obtain ⟨hc, rfl, hi, hf, hkey, hhad⟩ := pl
    rw [if_pos (hf.length.symm ▸ hi)] at h
    cases h
    exact ⟨hc, rfl, hi, hf.set hi hkey hhad⟩
  · -- timeout
    cases h
    exact ⟨pl.1, pl.2, c.timeout⟩
  · -- directoryTest
    obtain ⟨hc, hf, ht⟩ := pl
    split at h
    · cases h
      exact ⟨hc, hf, ht, ‹_›⟩
    · rename_i hnone
      cases h
      have hd : m.puppy.directory = none := by simpa using hnone
      exact call_fair hc hf ht (hd ▸ c.directory)
  · -- directoryString
    obtain ⟨hc, hf, ht, hsome⟩ := pl
    split at h
    · rename_i d hd
      cases h
      exact call_fair hc hf ht (hd ▸ c.directory)
    · rename_i hnone
      rw [hnone] at hsome
      cases hsome
  · cases h
  · cases h

/-- Only one place depends on the `DoryProcess`. -/
theorem MarshalPlace.of_puppy {x x' : DoryProcess} {pc : MarshalPc} (h : MarshalPlace p is x n pc)
    (hd : ∀ a t, pc = .directoryString a t → x'.directory.isSome) : MarshalPlace p is x' n pc := by
  cases pc with
  | directoryString => exact ⟨h.1, h.2.1, h.2.2.1, hd _ _ rfl⟩
  | _ => exact h

/-- After the call the map is of no account. -/
theorem MarshalInv.ended (k : MarshalInv p is m) (hend : m.pc.ended = true) (t : StringTable)
    (modCount : Nat) (held : Held → Held) : MarshalInv p is (m.withTable t modCount held) := by
  obtain ⟨x, n, pc⟩ := m
  cases pc with
  | called =>
      refine ⟨fun h => ?_, k.place⟩
      cases h
  | threw =>
      refine ⟨fun h => ?_, k.place⟩
      cases h
  | _ => cases hend

theorem MarshalInv.mono (k : MarshalInv p is m) : MarshalInv p (is ++ [l]) m :=
  ⟨fun h => (k.current h).mono, k.place.mono⟩

/-- A value is replaced, and with it that of the entry the thread holds. -/
theorem put_inv {key value : JString} {order : StringTable} (k : MarshalInv p is m) :
    MarshalInv p (is ++ [.change (.put key value order)])
      (m.withTable (m.puppy.environment.replace key value) m.modCount fun e =>
        if e.live ∧ e.key = key then { e with value := value } else e) := by
  have hnew : HadEntry p (is ++ [.change (.put key value order)]) (key, value) :=
    .inr ⟨order, List.mem_append_right _ (.head _)⟩
  constructor
  · intro hend
    have hend : m.pc.ended = false := by
      cases hpc : m.pc <;> simp_all [Marshal.withTable, MarshalPc.ended]
    have c := (k.current hend).mono (l := .change (.put key value order))
    refine ⟨c.command, c.timeout, c.directory, fun e he => ?_, (StringTable.replace_keys ..).trans
      c.keys⟩
    obtain ⟨e₀, he₀, rfl⟩ := List.mem_map.mp he
    split
    · exact hnew
    · exact c.entries e₀ he₀
  · have pl := k.place.mono (l := .change (.put key value order))
    cases hpc : m.pc with
    | store a i expected entry =>
        rw [hpc] at pl
        obtain ⟨hc, he, hi, hf, hkey, hhad⟩ := pl
        simp only [Marshal.withTable, hpc]
        split
        · rename_i hlive
          exact ⟨hc, he, hi, hf, hkey, hlive.2 ▸ hnew⟩
        · exact ⟨hc, he, hi, hf, hkey, hhad⟩
    | _ =>
        rw [hpc] at pl
        simp only [Marshal.withTable, hpc]
        exact pl

theorem change_inv {c : Change} (k : MarshalInv p is m) (hC : calm m (.change c) = true)
    (h : m.change c = some m') : MarshalInv p (is ++ [.change c]) m' := by
  have pl := k.place.mono (l := .change c)
  cases c with
  | command cmd =>
      cases h
      refine ⟨fun hend => ?_, pl.of_puppy fun a t hpc => ?_⟩
      · have c := (k.current hend).mono (l := .change (.command cmd))
        exact ⟨.inr (List.mem_append_right _ (.head _)), c.timeout, c.directory, c.entries, c.keys⟩
      · have hpc : m.pc = .directoryString a t := hpc
        rw [hpc] at pl
        exact pl.2.2.2
  | directory d =>
      cases h
      refine ⟨fun hend => ?_, pl.of_puppy fun a t hpc => ?_⟩
      · have c := (k.current hend).mono (l := .change (.directory d))
        exact ⟨c.command, c.timeout, .inr (List.mem_append_right _ (.head _)), c.entries, c.keys⟩
      · have hpc : m.pc = .directoryString a t := hpc
        rw [calm, hpc] at hC
        exact hC
  | timeout t =>
      cases h
      refine ⟨fun hend => ?_, pl.of_puppy fun a t hpc => ?_⟩
      · have c := (k.current hend).mono (l := .change (.timeout t))
        exact ⟨c.command, .inr (List.mem_append_right _ (.head _)), c.directory, c.entries, c.keys⟩
      · have hpc : m.pc = .directoryString a t := hpc
        rw [hpc] at pl
        exact pl.2.2.2
  | put key value order =>
      simp only [Marshal.change] at h
      split at h
      · cases h
        exact put_inv k
      · rename_i hkey
        split at h
        · cases h
          refine k.mono.ended ?_ _ _ _
          simpa [calm, hkey] using hC
        · cases h
  | remove key =>
      simp only [Marshal.change] at h
      split at h
      · rename_i hkey
        cases h
        refine k.mono.ended ?_ _ _ _
        simpa [calm, hkey] using hC
      · cases h
        exact k.mono
  | clear =>
      cases h
      exact k.mono.ended hC _ _ _

theorem run_marshal (r : marshal.RunWhere (fun m l => calm m l = true) (.init p n) h m) :
    MarshalInv p h.inputs m := by
  have init : MarshalInv p [] (.init p n) :=
    ⟨fun _ => ⟨.inl rfl, .inl rfl, .inl rfl, fun e he => .inl he, rfl⟩, trivial⟩
  refine r.inv (fun h m => MarshalInv p h.inputs m) init ?_
  intro h m m' l os _ hC hs k
  rw [History.inputs_append]
  cases l with
  | go found =>
      obtain ⟨pc, hpc, he⟩ := Option.map_eq_some_iff.mp hs
      cases he
      have hlive : m.pc.ended = false := by
        cases hend : m.pc with
        | called | threw => simp [Marshal.advance, hend] at hpc
        | _ => rfl
      exact ⟨fun _ => (k.current hlive).mono, (advance_place (k.current hlive) k.place hC hpc).mono⟩
  | change c =>
      obtain ⟨m', hm', he⟩ := Option.map_eq_some_iff.mp hs
      cases he
      exact change_inv k hC hm'

theorem MarshalInv.not_threw (k : MarshalInv p is m) (e : JavaException) : m.pc ≠ .threw e := by
  intro he
  have pl := k.place
  rw [he] at pl
  exact pl

theorem MarshalInv.goes_on (k : MarshalInv p is m) (hnot : ∀ a, m.pc ≠ .called a) :
    m.pc.ended = false := by
  cases hpc : m.pc with
  | called a => exact absurd hpc (hnot a)
  | threw e => exact absurd hpc (k.not_threw e)
  | _ => rfl

/-! ### The call is made -/

def MarshalLabel.isGo : MarshalLabel → Bool
  | .go _ => true
  | .change _ => false

/-- The steps that are left, with `k` keys in the map. -/
def MarshalPc.left (k : Nat) : MarshalPc → Nat
  | .commandSize => 3 * k + 8
  | .toArray _ => 3 * k + 7
  | .environmentSize _ => 3 * k + 6
  | .entrySet _ => 3 * k + 5
  | .hasNext _ i _ => 3 * (k - i) + 4
  | .next _ i _ => 3 * (k - i) + 3
  | .store _ i _ _ => 3 * (k - i) + 2
  | .timeout _ => 3
  | .directoryTest _ _ => 2
  | .directoryString _ _ => 1
  | .called _ | .threw _ => 0

theorem advance_left {found : Bool} {pc : MarshalPc}
    (pl : MarshalPlace p is m.puppy m.modCount m.pc) (h : m.advance found = some pc) :
    pc.left p.environment.keys.length < m.pc.left p.environment.keys.length := by
  unfold Marshal.advance at h
  split at h <;> rename_i hpc <;> rw [hpc] at pl ⊢
  · cases h; simp [MarshalPc.left]
  · cases h; simp [MarshalPc.left]
  · cases h; simp [MarshalPc.left]
  · cases h; simp [MarshalPc.left]
  · split at h <;> split at h <;> cases h <;> simp only [MarshalPc.left] <;> omega
  · split at h
    · split at h <;> cases h <;> simp [MarshalPc.left]
    · cases h; simp [MarshalPc.left]
  · have hi := pl.2.2.1
    split at h <;> cases h <;> simp only [MarshalPc.left] <;> omega
  · cases h; simp [MarshalPc.left]
  · split at h <;> cases h <;> simp [MarshalPc.left]
  · split at h <;> cases h <;> simp [MarshalPc.left]
  · cases h
  · cases h

theorem withTable_left (t : StringTable) (modCount : Nat) (held : Held → Held) (k : Nat) :
    (m.withTable t modCount held).pc.left k = m.pc.left k := by
  obtain ⟨x, n, pc⟩ := m
  cases pc <;> rfl

theorem change_left {c : Change} (h : m.change c = some m') (k : Nat) :
    m'.pc.left k = m.pc.left k := by
  cases c with
  | put key value order =>
      simp only [Marshal.change] at h
      split at h
      · cases h
        exact withTable_left ..
      · split at h
        · cases h
          exact withTable_left ..
        · cases h
  | remove key =>
      simp only [Marshal.change] at h
      split at h <;> cases h
      · exact withTable_left ..
      · rfl
  | clear =>
      cases h
      exact withTable_left ..
  | _ => cases h; rfl

theorem advance_some (hend : m.pc.ended = false) (found : Bool) : (m.advance found).isSome := by
  unfold Marshal.advance
  cases hpc : m.pc with
  | hasNext => dsimp only; split <;> split <;> rfl
  | next =>
      dsimp only
      split
      · split <;> rfl
      · rfl
  | store | directoryTest | directoryString => dsimp only; split <;> rfl
  | called | threw => rw [hpc] at hend; cases hend
  | _ => rfl

theorem run_left (r : marshal.RunWhere (fun m l => calm m l = true) (.init p n) h m) :
    h.inputs.countP MarshalLabel.isGo + m.pc.left p.environment.keys.length ≤
      3 * p.environment.keys.length + 8 := by
  refine r.inv (fun h m => h.inputs.countP MarshalLabel.isGo +
    m.pc.left p.environment.keys.length ≤ 3 * p.environment.keys.length + 8)
    (by simp [Marshal.init, MarshalPc.left]) ?_
  intro h m m' l os r _ hs ih
  rw [History.inputs_append, History.inputs_cons, History.inputs_nil, List.countP_append,
    List.countP_singleton]
  cases l with
  | go found =>
      obtain ⟨pc, hpc, he⟩ := Option.map_eq_some_iff.mp hs
      cases he
      have := advance_left (run_marshal r).place hpc
      simp only [MarshalLabel.isGo, if_true]
      omega
  | change c =>
      obtain ⟨m', hm', he⟩ := Option.map_eq_some_iff.mp hs
      cases he
      rw [change_left hm']
      simpa [MarshalLabel.isGo] using ih

/-- **A call of `puppySpawn` that is left in peace.**  The values of the map may change, and the
list of the command, `directory` and `timeout` be set: as long as the list is not shorter at its
copy than when its size was read, no key is added or removed, and `directory` is not set to null
between its reads, the thread has at most three steps for each key and eight more, always has a next
one until it calls the native `spawn`, throws nothing, and passes on the list, the directory, the
timeout and for each key the value that the `DoryProcess` had at some moment of the call. -/
theorem marshals_calm (r : marshal.RunWhere (fun m l => calm m l = true) (.init p n) h m) :
    h.inputs.countP MarshalLabel.isGo ≤ 3 * p.environment.keys.length + 8 ∧
    (∀ e, m.pc ≠ .threw e) ∧
    (∀ a, m.pc = .called a → Fair p h.inputs a) ∧
    ((∀ a, m.pc ≠ .called a) → ∀ found, (m.step (.go found)).isSome) := by
  have k := run_marshal r
  refine ⟨(Nat.le_add_right _ _).trans (run_left r), k.not_threw, fun a ha => ?_,
    fun hnot found => ?_⟩
  · have pl := k.place
    rw [ha] at pl
    exact pl
  · rw [Marshal.step, Option.isSome_map]
    exact advance_some (k.goes_on hnot) found

/-- A command of one element and one variable. -/
def marshalled : DoryProcess :=
  { DoryProcess.new [some [0x61]] ⟨[([0x4B], [0x56])], by decide⟩ with directory := some [0x64] }

def goes (k : Nat) : List MarshalLabel := List.replicate k (.go true)

/-- The value of the entry is changed while the thread holds it. -/
theorem marshals_calm_example : ∃ h m a,
    marshal.RunWhere (fun m l => calm m l = true) (.init marshalled 0) h m ∧ m.pc = .called a ∧
    Fair marshalled h.inputs a ∧ a.envArray = some [some [0x4B, 0x3D, 0x57]] := by
  have r := Machine.execWhere_run (M := marshal) (C := calm) (s := .init marshalled 0)
    (goes 6 ++ .change (.put [0x4B] [0x57] .empty) :: goes 5) rfl
  exact ⟨_, _, _, r, rfl, (marshals_calm r).2.2.1 _ rfl, rfl⟩

/-! ### A call during which nothing changes -/

/-- Entries with the keys of a table, each of the table, are the entries of the table. -/
theorem StringTable.entries_eq (t : StringTable) {es : List (JString × JString)}
    (hkeys : es.map Prod.fst = t.keys) (hes : ∀ e ∈ es, e ∈ t.entries) : es = t.entries := by
  have hlen : es.length = t.entries.length := by
    simpa [StringTable.keys] using congrArg List.length hkeys
  refine List.ext_getElem hlen fun i hi hi' => ?_
  have hfst : es[i].1 = t.entries[i].1 := by
    have := congrArg (·[i]?) hkeys
    simpa [StringTable.keys, hi, hi'] using this
  exact List.inj_on_of_nodup_map t.nodup (hes _ (List.getElem_mem hi)) (List.getElem_mem hi') hfst

/-- Without changes, what was seen is what is there. -/
theorem Fair.whole {a : SpawnArgs} (f : Fair p is a) (hgo : ∀ l ∈ is, l.isGo = true) :
    a = p.spawnArgs := by
  have hno (c : Change) : .change c ∉ is := fun hc => Bool.noConfusion (hgo _ hc)
  obtain ⟨es, hkeys, hes, henv⟩ := f.environment
  have hentries : es = p.environment.entries :=
    p.environment.entries_eq hkeys fun e he => (hes e he).resolve_right fun ⟨_, ho⟩ => hno _ ho
  have hcmd := f.command.resolve_right (hno _)
  have htime := f.timeout.resolve_right (hno _)
  have hdir := f.directory.resolve_right (hno _)
  obtain ⟨cmd, t, d, env⟩ := a
  subst hcmd htime hdir hentries henv
  simp only [DoryProcess.spawnArgs, DoryProcess.envArray, List.length_map, List.length_pos_iff,
    List.map_map]
  by_cases h : p.environment.entries = [] <;> simp [h, entryString, Function.comp_def]

/-- The size that was read is that of the list. -/
theorem advance_toArray {found : Bool} {size : Nat} (h : m.advance found = some (.toArray size)) :
    size = m.puppy.command.length := by
  unfold Marshal.advance at h
  split at h
  · cases h
    rfl
  · cases h
  · cases h
  · cases h
  · split at h <;> split at h <;> cases h
  · split at h
    · split at h <;> cases h
    · cases h
  · split at h <;> cases h
  · cases h
  · split at h <;> cases h
  · split at h <;> cases h
  · cases h
  · cases h

/-- Without changes the `DoryProcess` is what it was, with the size that was read. -/
theorem run_still (r : marshal.RunWhere (fun _ l => l.isGo = true) (.init p n) h m) :
    m.puppy = p ∧ m.modCount = n ∧ ∀ size, m.pc = .toArray size → size = p.command.length := by
  refine r.inv (fun _ m => m.puppy = p ∧ m.modCount = n ∧
    ∀ size, m.pc = .toArray size → size = p.command.length) ⟨rfl, rfl, fun _ h => by cases h⟩ ?_
  rintro h m m' l os _ hl hs ⟨hp, hn, -⟩
  cases l with
  | go found =>
      obtain ⟨pc, hpc, he⟩ := Option.map_eq_some_iff.mp hs
      cases he
      refine ⟨hp, hn, fun size hsize => ?_⟩
      obtain rfl : pc = .toArray size := hsize
      rw [advance_toArray hpc, hp]
  | change c => cases hl

/-- **A call of `puppySpawn` during which nothing changes** is over after at most three steps for
each key and eight more, and it ends with the call of the native `spawn`, which makes of its
arguments what `DoryProcess.setup` says, or throws as that does. -/
theorem marshals_whole (r : marshal.RunWhere (fun _ l => l.isGo = true) (.init p n) h m) :
    h.length ≤ 3 * p.environment.keys.length + 8 ∧
    ((∀ found, m.step (.go found) = none) → ∃ a, m = ⟨p, n, .called a⟩ ∧
      ∀ mem loop, a.setup mem loop = p.setup mem loop) := by
  have hgo : ∀ l ∈ h.inputs, l.isGo = true := by
    refine r.inv (fun h _ => ∀ l ∈ h.inputs, l.isGo = true) (by simp) ?_
    intro h _ _ l _ _ hl _ ih
    simpa [or_imp, forall_and] using ⟨ih, hl⟩
  obtain ⟨hp, hn, -⟩ := run_still r
  have rc : marshal.RunWhere (fun m l => calm m l = true) (.init p n) h m := by
    refine r.imp fun {h m l} r hl => ?_
    obtain ⟨hp, -, hsize⟩ := run_still r
    cases l with
    | go found =>
        rw [calm]
        cases hpc : m.pc with
        | toArray size =>
            rw [hp, hsize size hpc]
            exact decide_eq_true le_rfl
        | _ => rfl
    | change c => cases hl
  have k := run_marshal rc
  refine ⟨?_, fun hend => ?_⟩
  · have hall : h.inputs.countP MarshalLabel.isGo = h.length := by
      rw [List.countP_eq_length.mpr hgo, History.inputs, List.length_map]
    have := run_left rc
    omega
  · obtain ⟨x, y, pc⟩ := m
    obtain rfl : x = p := hp
    obtain rfl : y = n := hn
    cases pc with
    | called a =>
        refine ⟨a, rfl, fun mem loop => ?_⟩
        have f : Fair x h.inputs a := k.place
        rw [f.whole hgo, DoryProcess.spawnArgs_setup]
    | threw e => exact absurd rfl (k.not_threw e)
    | _ =>
        have hsome := advance_some (k.goes_on fun a ha => MarshalPc.noConfusion ha) true
        have hnone := hend true
        rw [Marshal.step, Option.map_eq_none_iff] at hnone
        rw [hnone] at hsome
        cases hsome

theorem marshals_whole_example : ∃ h m a,
    marshal.RunWhere (fun _ l => l.isGo = true) (.init marshalled 0) h m ∧ h.length = 11 ∧
    m = ⟨marshalled, 0, .called a⟩ ∧ a.setup (Setup.example 0).mem 1 =
      marshalled.setup (Setup.example 0).mem 1 := by
  have r := Machine.execWhere_run (M := marshal) (C := fun _ l => l.isGo)
    (s := .init marshalled 0) (goes 11) rfl
  obtain ⟨a, hm, ha⟩ := (marshals_whole r).2 fun _ => rfl
  exact ⟨_, _, a, r, rfl, hm, ha _ _⟩

/-! ### What else a call can end in -/

/-- Where the inputs lead. -/
def endOf (is : List MarshalLabel) : Option MarshalPc :=
  (marshal.exec (.init marshalled 0) is).map fun r => r.2.pc

/-- A key is removed while the array is filled. -/
example : endOf (goes 5 ++ .change (.remove [0x4B]) :: goes 1) =
    some (.threw .concurrentModification) := rfl

/-- A key is added between the size of the map and its iterator. -/
example : endOf (goes 3 ++ .change (.put [0x4C] [] ⟨[([0x4B], [0x56]), ([0x4C], [])], by decide⟩)
    :: goes 7) = some (.threw .arrayIndexOutOfBounds) := rfl

/-- A key is removed there: the last place of `envArray` stays null. -/
example : (endOf (goes 3 ++ .change (.remove [0x4B]) :: goes 5)) =
    some (.called ⟨[some [0x61]], 0, some [0x64], some [none]⟩) := rfl

/-- The list gets shorter before its copy: `cmdArray` ends in a null. -/
example : (endOf (goes 1 ++ .change (.command []) :: goes 10)) =
    some (.called ⟨[none], 0, some [0x64], some [some [0x4B, 0x3D, 0x56]]⟩) := rfl

/-- `directory` is set to null after its test. -/
example : endOf (goes 10 ++ .change (.directory none) :: goes 1) =
    some (.threw .nullPointer) := rfl

end Dorypuppy
