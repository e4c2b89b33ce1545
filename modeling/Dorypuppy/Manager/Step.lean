import Dorypuppy.Native.Reached
import Dorypuppy.Manager.State

/-!
# Manager — its steps

An access to a field or a map that two threads share is one step, and so is every libuv call of
`spawn()`.  A callback runs in one step up to the method of `DoryPuppy` it calls, if it calls one;
then the steps of the method follow, and what the callback does after it.

The machine assumes more than the source gives in four places.

* `create` copies the command, the environment, the timeout and the directory of a `DoryProcess`
  in one step.  `puppySpawn` reads them one after another, without a lock; these reads, one by one,
  are in `Java.Marshal`.
* `setStartedAt` writes the field and reads `this.pid` for `return pid`, in one step.
* A look-up in the Java map and the access to what it gives are one step, as in
  `processList.get(pid).code = code`.
* After a listener has thrown, the exception is still pending in the loop thread, and the callbacks
  that come later call Java all the same.  JNI leaves it open what such a call does; here it goes
  like any other.
-/

namespace Dorypuppy.Manager

open Support (Machine History)
open Function (update)

/-- The registered function a callback runs, with its arguments and what `getPid()` gives it. -/
def invoked : List (Act JniCallback) → Option (JniCallback × Args × Int)
  | [] => none
  | .invoke f args pid :: _ => some (f, args, pid)
  | _ :: as => invoked as

namespace State

/-- The state after the step of an input of the child `c`. -/
def withChild (s : State) (c : ObjId) (sp : Spawn) (i : Input) (child : Child JniCallback) :
    State :=
  { s with
    objs := update s.objs c (some { sp with child := child })
    os := pidsAfter s.os c sp.child.obj i }

/-- The next step of a call, other than those of `spawn()`. -/
def stepCall (s : State) (t : Tid) (call : Call) (mem : Uninit) (now : Date) :
    Option (State × List Event) :=
  let goto (s : State) (pc : CallPc) : State :=
    { s with calls := update s.calls t (some { call with pc := pc }) }
  let ret (s : State) : State := { s with calls := update s.calls t none }
  let write (w : Write) : State :=
    { s with puppies := update s.puppies call.puppy ((s.puppies call.puppy).write w) }
  match call.pc with
  | .setTimeout timeout => some (goto (write (.timeout timeout)) .create, [])
  | .create =>
      match (s.puppies call.puppy).setup mem uvLoop with
      | none => none
      | some setup =>
          some (goto { s with
            objs := update s.objs s.next
              (some { child := Child.start setup, puppy := call.puppy, stage := .new })
            next := s.next + 1 } (.spawning s.next), [])
  | .spawning c =>
      match s.objs c with
      | none => none
      | some sp =>
          match sp.child.pc with
          | .returned r =>
              if r = 0 then
                let pid := sp.child.obj.getPid
                some (goto { s with
                  nativeList := update s.nativeList pid (some (some ⟨sp.child.obj, c⟩))
                  objs := update s.objs c (some { sp with stage := .native }) }
                  (.javaPut c pid), [])
              else some (goto s (.javaPut c r), [])
          | _ => none
  | .javaPut c pid =>
      match s.objs c with
      | none => none
      | some sp =>
          if pid ≤ 0 then some (ret s, [.threw t call.puppy pid])
          else
            let s' := { s with
              javaList := update s.javaList pid (some ⟨call.puppy, c⟩)
              objs := update s.objs c (some { sp with stage := .java }) }
            if call.inStart then some (goto s' (.setPid pid), [])
            else some (ret s', [.returned t call.puppy pid])
  | .setPid pid => some (goto (write (.pid pid)) (.setStartedAt pid), [])
  | .setStartedAt _ =>
      some (ret (write (.startedAt now)), [.returned t call.puppy (s.puppies call.puppy).pid])
  | .killCheck signal =>
      if (s.puppies call.puppy).pid = 0 then some (ret s, [])
      else some (goto s (.killRead signal), [])
  | .killRead signal => some (goto s (.killCount (s.puppies call.puppy).pid signal), [])
  | .killCount pid signal =>
      if (s.nativeList pid).isSome then some (goto s (.killDeref pid signal), [])
      else some (ret s, [])
  | .killDeref pid signal =>
      match s.nativeList pid with
      | some (some e) =>
          some (ret s, [.killed call.puppy e.copy.process.pid signal e.child])
      | _ =>
          some ({ s with nativeList := update s.nativeList pid (some none), crashed := true },
            [.nullEntry call.puppy pid])

/-- A step of `spawn()`.  `uv_spawn` takes a pid that is free. -/
def stepSpawn (s : State) (call : Call) (i : Input) : Option (State × List Event) :=
  match call.pc with
  | .spawning c =>
      match s.objs c with
      | none => none
      | some sp =>
          match Child.spawnStep sp.child.obj sp.child.pc i with
          | none => none
          | some (child, as) =>
              if i.writesPid.all fun pid => s.os pid = none then
                some (s.withChild c sp i child, as.map (.act c))
              else none
  | _ => none

/-- A callback of a native object, up to the method of `DoryPuppy` it calls, or to its end.  The
source does not ask whether an exception is pending when it calls Java. -/
def stepCallback (s : State) (c : ObjId) (i : Input) : Option (State × List Event) :=
  match s.objs c with
  | none => none
  | some sp =>
      match sp.child.callbackHead i with
      | none => none
      | some (child, as) =>
          let s' := s.withChild c sp i child
          match invoked as with
          | none => some (s', (as ++ child.callbackTail i).map (.act c))
          | some (f, args, pid) =>
              some ({ s' with frame := some ⟨c, i, f, pid, jniArgs args, .containsKey⟩ },
                as.map (.act c))

end State

/-- What comes after the map entry was found. -/
def Frame.found (f : Frame) : JniPc := if f.method = .exit then .setCode else .nullCheck

/-- What comes after the listener, or when there was no entry or no listener. -/
def Frame.after (f : Frame) : JniPc := if f.method = .exit then .remove else .tail

/-- What comes after an exception: the method ends there. -/
def Frame.thrown (f : Frame) : JniPc := if f.method = .exit then .erase else .tail

/-- The writes of `jniExit`. -/
def Frame.write? (f : Frame) (now : Date) : Option (Write × JniPc) :=
  match f.pc, f.args with
  | .setCode, .status code _ => some (.code code, .setSignal)
  | .setSignal, .status _ signal => some (.signal signal, .setExitedAt)
  | .setExitedAt, .status _ _ => some (.exitedAt now, .nullCheck)
  | _, _ => none

namespace State

/-- The next step of the method the loop thread is in, and of the callback after it.
`processList.get(pid)` of an absent key gives a `NullPointerException`. -/
def stepJni (s : State) (f : Frame) (now : Date) : Option (State × List Event) :=
  let goto (s : State) (pc : JniPc) : State := { s with frame := some { f with pc := pc } }
  let throw : Option (State × List Event) := some (goto s f.thrown, [])
  match f.pc with
  | .containsKey =>
      if (s.javaList f.pid).isSome then some (goto s f.found, []) else some (goto s f.after, [])
  | .setCode | .setSignal | .setExitedAt =>
      match f.write? now, s.javaList f.pid with
      | some (w, pc), some e =>
          some (goto { s with
            puppies := update s.puppies e.puppy ((s.puppies e.puppy).write w) } pc,
            [.wrote e.puppy w f.child])
      | some _, none => throw
      | none, _ => none
  | .nullCheck =>
      match s.javaList f.pid with
      | some e =>
          if ((s.puppies e.puppy).listenerOf f.method).isSome then some (goto s .call, [])
          else some (goto s f.after, [])
      | none => throw
  | .call =>
      match s.javaList f.pid with
      | some e =>
          match (s.puppies e.puppy).listenerOf f.method with
          | some l =>
              some (goto s .inListener, [.listener e.puppy l f.method f.pid f.args f.child])
          | none => throw
      | none => throw
  | .inListener => none
  | .remove =>
      some (goto { s with javaList := update s.javaList f.pid none } .erase,
        [.removed f.pid ((s.javaList f.pid).map JavaEntry.child) f.child])
  | .erase =>
      some (goto { s with nativeList := update s.nativeList f.pid none } .tail,
        [.erased f.pid ((s.nativeList f.pid).join.map NativeEntry.child) f.child])
  | .tail =>
      match s.objs f.child with
      | none => none
      | some sp =>
          some ({ s with frame := none }, (sp.child.callbackTail f.input).map (.act f.child))

/-- The loop thread calls from inside a listener only. -/
def canCall (s : State) : Tid → Bool
  | .loop => s.frame.any fun f => f.pc = .inListener
  | .caller _ => true

def step (s : State) (l : Label) : Option (State × List Event) :=
  if s.crashed then none
  else
    match l with
    | .set p x => some ({ s with puppies := update s.puppies p ((s.puppies p).apply x) }, [])
    | .call t p api =>
        if s.calls t = none ∧ s.canCall t then
          some ({ s with calls := update s.calls t (some (api.begin p)) }, [])
        else none
    | .step t mem now =>
        match s.calls t with
        | some call => s.stepCall t call mem now
        | none => none
    | .spawn t i =>
        match s.calls t with
        | some call => s.stepSpawn call i
        | none => none
    | .callback c i => if s.frame = none then s.stepCallback c i else none
    | .jni now =>
        match s.frame with
        | some f => s.stepJni f now
        | none => none
    | .listenerReturns =>
        match s.frame with
        | some f =>
            if f.pc = .inListener ∧ s.calls .loop = none then
              some ({ s with frame := some { f with pc := f.after } }, [])
            else none
        | none => none
    | .listenerThrows =>
        match s.frame with
        | some f =>
            if f.pc = .inListener ∧ s.calls .loop = none then
              some ({ s with frame := some { f with pc := f.thrown } }, [])
            else none
        | none => none
    | .otherStarts pid =>
        if s.os pid = none then some ({ s with os := update s.os pid (some .other) }, []) else none
    | .otherEnds pid =>
        if s.os pid = some .other then some ({ s with os := update s.os pid none }, []) else none

end State

/-- The manager. -/
def machine : Machine State Label Event := ⟨State.step⟩

/-! ### What one step can do -/

/-- The steps of a call of `kill` that only go on or return. -/
inductive KillMove (s : State) (call : Call) : CallPc → Option CallPc → Prop where
  | noPid {g} : (s.puppies call.puppy).pid = 0 → KillMove s call (.killCheck g) none
  | pid {g} : (s.puppies call.puppy).pid ≠ 0 → KillMove s call (.killCheck g) (some (.killRead g))
  | read {g} : KillMove s call (.killRead g) (some (.killCount (s.puppies call.puppy).pid g))
  | count {q g} : (s.nativeList q).isSome → KillMove s call (.killCount q g) (some (.killDeref q g))
  | absent {q g} : (s.nativeList q).isSome = false → KillMove s call (.killCount q g) none

/-- The steps of a method that only read. -/
inductive JniMove (s : State) (f : Frame) : JniPc → JniPc → Prop where
  | contains : (s.javaList f.pid).isSome → JniMove s f .containsKey f.found
  | absent : (s.javaList f.pid).isSome = false → JniMove s f .containsKey f.after
  | listener {e} : s.javaList f.pid = some e →
      ((s.puppies e.puppy).listenerOf f.method).isSome → JniMove s f .nullCheck .call
  | noListener {e} : s.javaList f.pid = some e →
      ((s.puppies e.puppy).listenerOf f.method).isSome = false → JniMove s f .nullCheck f.after

/-- Every step, with the state after it and what it did. -/
inductive Step (s : State) : Label → State → List Event → Prop where
  | set {p x} : Step s (.set p x)
      { s with puppies := update s.puppies p ((s.puppies p).apply x) } []
  | call {t p api} : s.calls t = none → s.canCall t →
      Step s (.call t p api) { s with calls := update s.calls t (some (api.begin p)) } []
  | setTimeout {t mem now call timeout} : s.calls t = some call → call.pc = .setTimeout timeout →
      Step s (.step t mem now) { s with
        puppies := update s.puppies call.puppy ((s.puppies call.puppy).write (.timeout timeout))
        calls := update s.calls t (some { call with pc := .create }) } []
  | create {t mem now call setup} : s.calls t = some call → call.pc = .create →
      (s.puppies call.puppy).setup mem uvLoop = some setup →
      Step s (.step t mem now) { s with
        objs := update s.objs s.next (some ⟨Child.start setup, call.puppy, .new⟩)
        next := s.next + 1
        calls := update s.calls t (some { call with pc := .spawning s.next }) } []
  | nativePut {t mem now call c sp} : s.calls t = some call → call.pc = .spawning c →
      s.objs c = some sp → sp.child.pc = .returned 0 →
      Step s (.step t mem now) { s with
        nativeList := update s.nativeList sp.child.obj.pid (some (some ⟨sp.child.obj, c⟩))
        objs := update s.objs c (some { sp with stage := .native })
        calls := update s.calls t (some { call with pc := .javaPut c sp.child.obj.pid }) } []
  | spawnFailed {t mem now call c sp r} : s.calls t = some call → call.pc = .spawning c →
      s.objs c = some sp → sp.child.pc = .returned r → r ≠ 0 →
      Step s (.step t mem now)
        { s with calls := update s.calls t (some { call with pc := .javaPut c r }) } []
  | javaThrow {t mem now call c pid} : s.calls t = some call → call.pc = .javaPut c pid →
      pid ≤ 0 →
      Step s (.step t mem now) { s with calls := update s.calls t none } [.threw t call.puppy pid]
  | javaPut {t mem now call c pid sp} : s.calls t = some call → call.pc = .javaPut c pid →
      s.objs c = some sp → 0 < pid →
      Step s (.step t mem now) { s with
        javaList := update s.javaList pid (some ⟨call.puppy, c⟩)
        objs := update s.objs c (some { sp with stage := .java })
        calls := update s.calls t
          (if call.inStart then some { call with pc := .setPid pid } else none) }
        (if call.inStart then [] else [.returned t call.puppy pid])
  | setPid {t mem now call pid} : s.calls t = some call → call.pc = .setPid pid →
      Step s (.step t mem now) { s with
        puppies := update s.puppies call.puppy ((s.puppies call.puppy).write (.pid pid))
        calls := update s.calls t (some { call with pc := .setStartedAt pid }) } []
  | setStartedAt {t mem now call pid} : s.calls t = some call → call.pc = .setStartedAt pid →
      Step s (.step t mem now) { s with
        puppies := update s.puppies call.puppy ((s.puppies call.puppy).write (.startedAt now))
        calls := update s.calls t none } [.returned t call.puppy (s.puppies call.puppy).pid]
  | killMove {t mem now call pc'} : s.calls t = some call → KillMove s call call.pc pc' →
      Step s (.step t mem now)
        { s with calls := update s.calls t (pc'.map fun pc => { call with pc := pc }) } []
  | killDeref {t mem now call pid g e} : s.calls t = some call → call.pc = .killDeref pid g →
      s.nativeList pid = some (some e) →
      Step s (.step t mem now) { s with calls := update s.calls t none }
        [.killed call.puppy e.copy.process.pid g e.child]
  | nullDeref {t mem now call pid g} : s.calls t = some call → call.pc = .killDeref pid g →
      (s.nativeList pid).join = none →
      Step s (.step t mem now)
        { s with nativeList := update s.nativeList pid (some none), crashed := true }
        [.nullEntry call.puppy pid]
  | spawn {t i call c sp child as} : s.calls t = some call → call.pc = .spawning c →
      s.objs c = some sp → Child.spawnStep sp.child.obj sp.child.pc i = some (child, as) →
      (∀ pid, i.writesPid = some pid → s.os pid = none) →
      Step s (.spawn t i) (s.withChild c sp i child) (as.map (.act c))
  | callback {c i sp child as} : s.frame = none → s.objs c = some sp →
      sp.child.callbackHead i = some (child, as) → invoked as = none →
      Step s (.callback c i) (s.withChild c sp i child)
        ((as ++ child.callbackTail i).map (.act c))
  | callbackInvoke {c i sp child as k args pid} : s.frame = none → s.objs c = some sp →
      sp.child.callbackHead i = some (child, as) → invoked as = some (k, args, pid) →
      Step s (.callback c i) { s.withChild c sp i child with
        frame := some ⟨c, i, k, pid, jniArgs args, .containsKey⟩ } (as.map (.act c))
  | jniMove {now f pc'} : s.frame = some f → JniMove s f f.pc pc' →
      Step s (.jni now) { s with frame := some { f with pc := pc' } } []
  | write {now f w pc' e} : s.frame = some f → f.write? now = some (w, pc') →
      s.javaList f.pid = some e →
      Step s (.jni now) { s with
        puppies := update s.puppies e.puppy ((s.puppies e.puppy).write w)
        frame := some { f with pc := pc' } } [.wrote e.puppy w f.child]
  | listener {now f e l} : s.frame = some f → f.pc = .call → s.javaList f.pid = some e →
      (s.puppies e.puppy).listenerOf f.method = some l →
      Step s (.jni now) { s with frame := some { f with pc := .inListener } }
        [.listener e.puppy l f.method f.pid f.args f.child]
  | nullPointer {now f} : s.frame = some f →
      (f.pc = .setCode ∨ f.pc = .setSignal ∨ f.pc = .setExitedAt ∨ f.pc = .nullCheck ∨
        f.pc = .call) →
      (∀ e, s.javaList f.pid = some e →
        f.pc = .call ∧ (s.puppies e.puppy).listenerOf f.method = none) →
      Step s (.jni now) { s with frame := some { f with pc := f.thrown } } []
  | remove {now f} : s.frame = some f → f.pc = .remove →
      Step s (.jni now) { s with
        javaList := update s.javaList f.pid none
        frame := some { f with pc := .erase } }
        [.removed f.pid ((s.javaList f.pid).map JavaEntry.child) f.child]
  | erase {now f} : s.frame = some f → f.pc = .erase →
      Step s (.jni now) { s with
        nativeList := update s.nativeList f.pid none
        frame := some { f with pc := .tail } }
        [.erased f.pid ((s.nativeList f.pid).join.map NativeEntry.child) f.child]
  | tail {now f sp} : s.frame = some f → f.pc = .tail → s.objs f.child = some sp →
      Step s (.jni now) { s with frame := none }
        ((sp.child.callbackTail f.input).map (.act f.child))
  | listenerReturns {f} : s.frame = some f → f.pc = .inListener → s.calls .loop = none →
      Step s .listenerReturns { s with frame := some { f with pc := f.after } } []
  | listenerThrows {f} : s.frame = some f → f.pc = .inListener → s.calls .loop = none →
      Step s .listenerThrows { s with frame := some { f with pc := f.thrown } } []
  | otherStarts {pid : Pid} : s.os pid = none →
      Step s (.otherStarts pid) { s with os := update s.os pid (some .other) } []
  | otherEnds {pid} : s.os pid = some .other →
      Step s (.otherEnds pid) { s with os := update s.os pid none } []

variable {s s' : State} {os : List Event}

theorem stepCall_inv {t : Tid} {call : Call} {mem : Uninit} {now : Date}
    (hc : s.calls t = some call) (h : s.stepCall t call mem now = some (s', os)) :
    Step s (.step t mem now) s' os := by
  unfold State.stepCall at h
  cases hpc : call.pc with
  | setTimeout timeout =>
      simp only [hpc] at h
      cases h
      exact .setTimeout hc hpc
  | create =>
      simp only [hpc] at h
      split at h
      · cases h
      · cases h; exact .create hc hpc ‹_›
  | spawning c =>
      simp only [hpc] at h
      split at h
      · cases h
      · split at h
        · split at h
          · cases h
            subst_vars
            exact .nativePut hc hpc ‹_› ‹_›
          · cases h; exact .spawnFailed hc hpc ‹_› ‹_› ‹_›
        · cases h
  | javaPut c pid =>
      simp only [hpc] at h
      split at h
      · cases h
      · rename_i sp hsp
        split at h
        · cases h; exact .javaThrow hc hpc ‹_›
        · rename_i hpos
          have : Step s (.step t mem now) _ _ := .javaPut hc hpc hsp (by omega)
          split at h
          all_goals
            cases h
            simpa only [*, if_true, Bool.false_eq_true, if_false] using this
  | setPid pid =>
      simp only [hpc] at h
      cases h
      exact .setPid hc hpc
  | setStartedAt pid =>
      simp only [hpc] at h
      cases h
      exact .setStartedAt hc hpc
  | killCheck g =>
      simp only [hpc] at h
      split at h
      · have hm : KillMove s call (.killCheck g) none := .noPid ‹_›
        cases h
        exact .killMove hc (hpc ▸ hm)
      · have hm : KillMove s call (.killCheck g) (some (.killRead g)) := .pid ‹_›
        cases h
        exact .killMove hc (hpc ▸ hm)
  | killRead g =>
      simp only [hpc] at h
      have hm : KillMove s call (.killRead g) (some _) := .read
      cases h
      exact .killMove hc (hpc ▸ hm)
  | killCount pid g =>
      simp only [hpc] at h
      split at h
      · have hm : KillMove s call (.killCount pid g) (some (.killDeref pid g)) := .count ‹_›
        cases h
        exact .killMove hc (hpc ▸ hm)
      · have hm : KillMove s call (.killCount pid g) none := .absent (Bool.eq_false_iff.mpr ‹_›)
        cases h
        exact .killMove hc (hpc ▸ hm)
  | killDeref pid g =>
      simp only [hpc] at h
      split at h
      · cases h; exact .killDeref hc hpc ‹_›
      · rename_i hn
        cases h
        refine .nullDeref hc hpc ?_
        cases hq : s.nativeList pid with
        | none => rfl
        | some e =>
            cases e with
            | none => rfl
            | some e => exact absurd hq (hn e)

theorem stepSpawn_inv {t : Tid} {call : Call} {i : Input} (hc : s.calls t = some call)
    (h : s.stepSpawn call i = some (s', os)) : Step s (.spawn t i) s' os := by
  unfold State.stepSpawn at h
  split at h
  · rename_i c hpc
    split at h
    · cases h
    · split at h
      · cases h
      · rename_i sp hsp r child as hstep
        split at h
        · rename_i hfree
          have hfree (pid : Int) (hw : i.writesPid = some pid) : s.os pid = none := by
            simpa [hw] using hfree
          have := Step.spawn hc hpc hsp hstep hfree
          cases h
          exact this
        · cases h
  · cases h

theorem stepCallback_inv {c : ObjId} {i : Input} (hf : s.frame = none)
    (h : s.stepCallback c i = some (s', os)) : Step s (.callback c i) s' os := by
  unfold State.stepCallback at h
  split at h
  · cases h
  · split at h
    · cases h
    · dsimp only at h
      split at h
      · cases h; exact .callback hf ‹_› ‹_› ‹_›
      · cases h; exact .callbackInvoke hf ‹_› ‹_› ‹_›

theorem stepJni_inv {f : Frame} {now : Date} (hf : s.frame = some f)
    (h : s.stepJni f now = some (s', os)) : Step s (.jni now) s' os := by
  have hwrite (hpc : f.pc = .setCode ∨ f.pc = .setSignal ∨ f.pc = .setExitedAt)
      (h : (match f.write? now, s.javaList f.pid with
        | some (w, pc), some e =>
            some ({ s with
              puppies := update s.puppies e.puppy ((s.puppies e.puppy).write w)
              frame := some { f with pc := pc } }, [.wrote e.puppy w f.child])
        | some _, none => some ({ s with frame := some { f with pc := f.thrown } }, [])
        | none, _ => none) = some (s', os)) : Step s (.jni now) s' os := by
    split at h
    · cases h; exact .write hf ‹_› ‹_›
    · cases h
      refine .nullPointer hf ?_ (by simp [*])
      tauto
    · cases h
  unfold State.stepJni at h
  cases hpc : f.pc with
  | containsKey =>
      simp only [hpc] at h
      split at h
      · have hm : JniMove s f .containsKey f.found := .contains ‹_›
        cases h
        exact .jniMove hf (hpc ▸ hm)
      · have hm : JniMove s f .containsKey f.after := .absent (Bool.eq_false_iff.mpr ‹_›)
        cases h
        exact .jniMove hf (hpc ▸ hm)
  | setCode => simp only [hpc] at h; exact hwrite (.inl hpc) h
  | setSignal => simp only [hpc] at h; exact hwrite (.inr (.inl hpc)) h
  | setExitedAt => simp only [hpc] at h; exact hwrite (.inr (.inr hpc)) h
  | nullCheck =>
      simp only [hpc] at h
      split at h
      · rename_i e he
        split at h
        · have hm : JniMove s f .nullCheck .call := .listener he ‹_›
          cases h
          exact .jniMove hf (hpc ▸ hm)
        · have hm : JniMove s f .nullCheck f.after := .noListener he (Bool.eq_false_iff.mpr ‹_›)
          cases h
          exact .jniMove hf (hpc ▸ hm)
      · cases h
        exact .nullPointer hf (by simp [hpc]) (by simp [*])
  | call =>
      simp only [hpc] at h
      split at h
      · split at h
        · cases h; exact .listener hf hpc ‹_› ‹_›
        · cases h
          exact .nullPointer hf (by simp [hpc]) (by simp [*])
      · cases h
        exact .nullPointer hf (by simp [hpc]) (by simp [*])
  | inListener => simp only [hpc] at h; cases h
  | remove => simp only [hpc] at h; cases h; exact .remove hf hpc
  | erase => simp only [hpc] at h; cases h; exact .erase hf hpc
  | tail =>
      simp only [hpc] at h
      split at h
      · cases h
      · cases h; exact .tail hf hpc ‹_›

/-- A step is one of `Step`'s, and comes in a state that has not crashed. -/
theorem step_inv {l : Label} (h : s.step l = some (s', os)) :
    s.crashed = false ∧ Step s l s' os := by
  unfold State.step at h
  split at h
  · cases h
  · refine ⟨Bool.eq_false_iff.mpr ‹_›, ?_⟩
    cases l with
    | set p x => cases h; exact .set
    | call t p api =>
        dsimp only at h
        split at h
        · rename_i hcan
          cases h
          exact .call hcan.1 hcan.2
        · cases h
    | step t mem now =>
        dsimp only at h
        split at h
        · exact stepCall_inv ‹_› h
        · cases h
    | spawn t i =>
        dsimp only at h
        split at h
        · exact stepSpawn_inv ‹_› h
        · cases h
    | callback c i =>
        dsimp only at h
        split at h
        · exact stepCallback_inv ‹_› h
        · cases h
    | jni now =>
        dsimp only at h
        split at h
        · exact stepJni_inv ‹_› h
        · cases h
    | listenerReturns =>
        dsimp only at h
        split at h
        · split at h
          · rename_i hin
            cases h
            exact .listenerReturns ‹_› hin.1 hin.2
          · cases h
        · cases h
    | listenerThrows =>
        dsimp only at h
        split at h
        · split at h
          · rename_i hin
            cases h
            exact .listenerThrows ‹_› hin.1 hin.2
          · cases h
        · cases h
    | otherStarts pid =>
        dsimp only at h
        split at h
        · cases h; exact .otherStarts ‹_›
        · cases h
    | otherEnds pid =>
        dsimp only at h
        split at h
        · cases h; exact .otherEnds ‹_›
        · cases h

/-! ### Steps that take place -/

variable {t : Tid} {call : Call}

/-- The next step of a call. -/
theorem call_goes {mem : Uninit} {now : Date} (hcr : s.crashed = false)
    (hc : s.calls t = some call) : s.step (.step t mem now) = s.stepCall t call mem now := by
  simp only [State.step, hcr, hc, Bool.false_eq_true, if_false]

/-- A step that `spawn()` makes, its call makes. -/
theorem spawn_goes {c : ObjId} {sp : Spawn} {i : Input} {ch : Child JniCallback}
    {as : List (Act JniCallback)} (hcr : s.crashed = false) (hc : s.calls t = some call)
    (hpc : call.pc = .spawning c) (hsp : s.objs c = some sp)
    (hst : Child.spawnStep sp.child.obj sp.child.pc i = some (ch, as))
    (hfree : ∀ pid, i.writesPid = some pid → s.os pid = none) :
    s.step (.spawn t i) = some (s.withChild c sp i ch, as.map (.act c)) := by
  have hall : (i.writesPid.all fun pid => decide (s.os pid = none)) = true := by
    cases hw : i.writesPid with
    | none => rfl
    | some pid => simpa using hfree pid hw
  simp only [State.step, hcr, hc, State.stepSpawn, hpc, hsp, hst, hall, Bool.false_eq_true,
    if_true, if_false]

/-! ### Runs of the examples -/

/-- One `DoryProcess` of the command `ls`, with an empty environment, as often as needed. -/
def examplePuppies : PuppyId → List (Option JString) × StringTable :=
  fun _ => ([some [0x6C, 0x73]], ⟨[], by simp⟩)

/-- The next step of the call of a thread. -/
def go (t : Tid) : Label := .step t (Setup.example 0).mem 0

/-- A call of `start` by thread `t`, up to the return of `spawn()`, that gives the pid to a child
without timeout. -/
def spawnsWith (t : Tid) (p : PuppyId) (pid : Pid) : List Label :=
  [.call t p (.start 0), go t, go t, .spawn t .enter, .spawn t (.uvSpawn (.ok pid)),
    .spawn t .storePid, .spawn t (.readOut none), .spawn t (.readErr none)]

/-- Such a call up to its last step. -/
def startsWith (t : Tid) (p : PuppyId) (pid : Pid) : List Label :=
  spawnsWith t p pid ++ [go t, go t, go t, go t]

/-- A call of `kill` by thread `t`, up to the step before the signal. -/
def killsUpTo (t : Tid) (p : PuppyId) : List Label :=
  [.call t p (.kill 9), go t, go t, go t]

/-- The exit of a child without listener, up to the end of its callback. -/
def exits (c : ObjId) : List Label :=
  [.callback c (.stderrCb UV_EOF []), .callback c (.exitCb 0 0), .jni 0, .jni 0, .jni 0, .jni 0,
    .jni 0, .jni 0, .jni 0, .jni 0]

end Dorypuppy.Manager
