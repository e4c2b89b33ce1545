import Dorypuppy.Native.Child

/-!
# Java — what crosses the JNI

A Java string is its UTF-16 code units, and `GetStringUTFChars` gives its modified UTF-8: each unit
on its own, so that a supplementary character takes two groups of three bytes, and `U+0000` takes
two bytes.  It has no result for a null string.

The native `spawn` registers four functions on the object it makes.  Each of them calls one method
of `DoryPuppy`, so its name here is that of the event.
-/

namespace Dorypuppy

abbrev JString := List UInt16

/-- One UTF-16 unit in modified UTF-8. -/
def utf8Unit (u : UInt16) : List UInt8 :=
  if 0 < u ∧ u < 0x80 then [u.toUInt8]
  else if u < 0x800 then
    [(0xC0 : UInt8) ||| (u >>> 6).toUInt8, (0x80 : UInt8) ||| (u &&& 0x3F).toUInt8]
  else [(0xE0 : UInt8) ||| (u >>> 12).toUInt8, (0x80 : UInt8) ||| (u >>> 6 &&& 0x3F).toUInt8,
    (0x80 : UInt8) ||| (u &&& 0x3F).toUInt8]

def getStringUTFChars (s : JString) : CString := s.flatMap utf8Unit

/-- A `String[]` copied into a C array that ends with `NULL`.  There is none when an element is
null. -/
def stringArray (a : List (Option JString)) : Option (List (Option CString)) :=
  (a.mapM fun s : Option JString => s.map getStringUTFChars).map fun l => l.map some ++ [none]

/-- Each string is copied, in order. -/
theorem stringArray_eq {a : List (Option JString)} {l : List (Option CString)}
    (h : stringArray a = some l) :
    none ∉ a ∧ l = a.map (Option.map getStringUTFChars) ++ [none] := by
  obtain ⟨cs, hcs, rfl⟩ := Option.map_eq_some_iff.mp h
  clear h
  induction a generalizing cs with
  | nil =>
      cases hcs
      exact ⟨List.not_mem_nil, rfl⟩
  | cons s a ih =>
      simp only [List.mapM_cons, Option.pure_def, Option.bind_eq_bind, Option.bind_eq_some_iff,
        Option.some.injEq] at hcs
      obtain ⟨b, hb, bs, hbs, rfl⟩ := hcs
      obtain ⟨hnone, htail⟩ := ih bs hbs
      obtain ⟨s, rfl, rfl⟩ := Option.map_eq_some_iff.mp hb
      refine ⟨by simp [hnone], ?_⟩
      rw [List.map_cons, List.cons_append, htail]
      rfl

theorem stringArray_some (a : List JString) :
    stringArray (a.map some) = some (a.map (fun s => some (getStringUTFChars s)) ++ [none]) := by
  have hmap : (a.map some).mapM (fun s : Option JString => s.map getStringUTFChars) =
      some (a.map getStringUTFChars) := by
    induction a with
    | nil => rfl
    | cons s a ih => rw [List.map_cons, List.mapM_cons, ih]; rfl
  rw [stringArray, hmap, Option.map_some, List.map_map]
  rfl

/-- The strings of an array without null. -/
theorem exists_strings {a : List (Option JString)} (h : none ∉ a) :
    ∃ b : List JString, b.map some = a := by
  refine ⟨a.filterMap id, ?_⟩
  rw [List.map_filterMap_some_eq_filter_map_isSome, List.map_id]
  refine List.filter_eq_self.mpr fun x hx => ?_
  cases x with
  | none => exact absurd hx h
  | some x => rfl

/-- A `String[]` without null is copied. -/
theorem stringArray_isSome {a : List (Option JString)} : (stringArray a).isSome ↔ none ∉ a := by
  constructor
  · intro h
    obtain ⟨l, hl⟩ := Option.isSome_iff_exists.mp h
    exact (stringArray_eq hl).1
  · intro h
    obtain ⟨b, rfl⟩ := exists_strings h
    rw [stringArray_some]
    rfl

/-- The functions the native `spawn` registers. -/
inductive JniCallback where
  | timeout | stdout | stderr | exit
  deriving DecidableEq

/-- The event a function is registered for. -/
def JniCallback.name : JniCallback → String
  | .timeout => "timeout"
  | .stdout => "stdout"
  | .stderr => "stderr"
  | .exit => "exit"

/-- The calls of `on` in the native `spawn`. -/
def jniOn (o : DoryProcessSpawn JniCallback) : DoryProcessSpawn JniCallback :=
  (((o.on "timeout" (.plain .timeout)).on "stdout" (.chunk .stdout)).on "stderr"
    (.chunk .stderr)).on "exit" (.status .exit)

/-- What the calls of `on` leave registered. -/
def jniListeners : Listeners JniCallback where
  eventListeners name := if name = "timeout" then some .timeout else none
  errorCallback := none
  exitCallback := some .exit
  stdoutCallback := some .stdout
  stderrCallback := some .stderr

theorem jniOn_eq (o : DoryProcessSpawn JniCallback) (h : o.listeners = .empty) :
    jniOn o = { o with listeners := jniListeners } := by
  simp [jniOn, DoryProcessSpawn.on, jniListeners, h, Listeners.empty]

/-- The arguments of a method of `DoryPuppy`, after the pid. -/
inductive JArgs where
  | bytes (array : List UInt8)
  | status (code signal : Int)
  | none
  deriving DecidableEq

/-- What a registered function passes on of its own arguments. -/
def jniArgs : Args → JArgs
  | .chunk buf nread => .bytes (buf.take nread.toNat)
  | .status exitStatus termSignal => .status exitStatus termSignal
  | .plain | .text _ _ => .none

end Dorypuppy
