import Dorypuppy.Manager.Frames

/-!
# Manager — callbacks and registrations as one step each

The manager with nothing in between: a callback of a native object runs to its end at once, with
the listener it calls, which returns normally and calls nothing (`State.event`); a call of
`puppySpawn` runs from its beginning to its return (`State.register`).  Each of them is a run of
`machine` (`event_run`, `register_run`).

`event_eq` and `register_eq` say when such a run exists, where it ends, and which listener it calls.
-/

namespace Dorypuppy.Manager

open Child (Reached)
open Support (Machine History)
open Function (update update_self update_of_ne)

variable {s s' t : State} {now : Date} {n : Nat}

/-! ### A callback -/

/-- The label of the next step of the callback, when its listener only returns. -/
def Frame.next (f : Frame) (now : Date) : Label :=
  if f.pc = .inListener then .listenerReturns else .jni now

/-- The rest of a callback, of at most `n` steps. -/
def State.finish (now : Date) : Nat → State → Option (History Label Event × State)
  | 0, s => if s.frame = none then some ([], s) else none
  | n + 1, s =>
      match s.frame with
      | none => some ([], s)
      | some f =>
          match s.step (f.next now) with
          | none => none
          | some (s', os) => (s'.finish now n).map fun r => ((f.next now, os) :: r.1, r.2)

/-- A callback of the object `c`.  `jniExit` takes ten steps, the other methods fewer. -/
def State.event (s : State) (c : ObjId) (i : Input) (now : Date) :
    Option (History Label Event × State) :=
  match s.step (.callback c i) with
  | none => none
  | some (s', os) => (s'.finish now 10).map fun r => ((.callback c i, os) :: r.1, r.2)

theorem finish_run {h : History Label Event} (e : s.finish now n = some (h, t)) :
    machine.Run s h t ∧ t.frame = none := by
  induction n generalizing s h with
  | zero =>
      rw [State.finish, Option.ite_none_right_eq_some] at e
      obtain ⟨hf, e⟩ := e
      cases e
      exact ⟨.nil, hf⟩
  | succ n ih =>
      rw [State.finish] at e
      split at e
      · cases e
        exact ⟨.nil, ‹_›⟩
      · split at e
        · cases e
        · rename_i hs
          obtain ⟨⟨h', t'⟩, he, hr⟩ := Option.map_eq_some_iff.mp e
          cases hr
          obtain ⟨r, hf⟩ := ih he
          exact ⟨(Machine.Run.one (M := machine) hs).trans r, hf⟩

theorem event_run {c : ObjId} {i : Input} {h : History Label Event}
    (e : s.event c i now = some (h, t)) : machine.Run s h t ∧ t.frame = none := by
  unfold State.event at e
  split at e
  · cases e
  · rename_i s' os hs
    have hs : machine.step s (.callback c i) = some (s', os) := hs
    obtain ⟨⟨h', t'⟩, he, hr⟩ := Option.map_eq_some_iff.mp e
    cases hr
    obtain ⟨r, hf⟩ := finish_run he
    exact ⟨(Machine.Run.one hs).trans r, hf⟩

/-! ### What a method leaves -/

def Event.isListener : Event → Bool
  | .listener _ _ _ _ _ _ => true
  | _ => false

/-- The three writes of `jniExit`. -/
def exitWrites (p : DoryProcess) (code signal : Int) (now : Date) : DoryProcess :=
  ((p.write (.code code)).write (.signal signal)).write (.exitedAt now)

/-- The listener a method calls. -/
def State.heard (s : State) (f : Frame) : List Event :=
  match s.javaList f.pid with
  | none => []
  | some e =>
      match (s.puppies e.puppy).listenerOf f.method with
      | none => []
      | some l => [.listener e.puppy l f.method f.pid f.args f.child]

/-- The state after the removals of a method, if it makes them. -/
def State.left (s : State) (f : Frame) : State :=
  if f.method = .exit then
    { s with
      javaList := update s.javaList f.pid none
      nativeList := update s.nativeList f.pid none
      frame := none }
  else { s with frame := none }

/-- The `DoryProcess` objects after the writes of a method, if it makes them. -/
def State.written (s : State) (f : Frame) (now : Date) : PuppyId → DoryProcess :=
  match s.javaList f.pid with
  | none => s.puppies
  | some e =>
      match f.method, f.args with
      | .exit, .status code signal =>
          update s.puppies e.puppy (exitWrites (s.puppies e.puppy) code signal now)
      | _, _ => s.puppies

/-- The state after a method that was called with no other step in between. -/
def State.afterMethod (s : State) (f : Frame) (now : Date) : State :=
  State.left { s with puppies := s.written f now } f

/-- The rest of a callback leads to `t`, and `evs` are the listeners it calls. -/
def Ends (now : Date) (n : Nat) (s t : State) (evs : List Event) : Prop :=
  ∃ h, s.finish now n = some (h, t) ∧ h.outputs.filter Event.isListener = evs

theorem ends_none (hf : s.frame = none) : Ends now n s s [] := by
  refine ⟨[], ?_, rfl⟩
  cases n with
  | zero => exact if_pos hf
  | succ n => rw [State.finish, hf]

theorem ends_step {f : Frame} {l : Label} {os evs : List Event} (hf : s.frame = some f)
    (hl : f.next now = l) (hs : s.step l = some (s', os)) (h : Ends now n s' t evs) :
    Ends now (n + 1) s t (os.filter Event.isListener ++ evs) := by
  obtain ⟨k, hk, rfl⟩ := h
  refine ⟨(l, os) :: k, ?_, by simp⟩
  rw [State.finish, hf]
  simp only [hl, hs, hk, Option.map_some]

theorem filter_acts (c : ObjId) (as : List (Act JniCallback)) :
    (as.map (Event.act c)).filter Event.isListener = [] := by
  rw [List.filter_map, List.map_eq_nil_iff]
  exact List.filter_eq_nil_iff.mpr fun _ _ => by simp [Event.isListener]

section
variable {f : Frame} (hcr : s.crashed = false) (hf : s.frame = some f)
include hcr hf

theorem ends_jni {os evs : List Event} (hpc : f.pc ≠ .inListener)
    (hs : s.stepJni f now = some (s', os)) (h : Ends now n s' t evs) :
    Ends now (n + 1) s t (os.filter Event.isListener ++ evs) := by
  refine ends_step hf (if_neg hpc) ?_ h
  simp [State.step, hcr, hf, hs]

theorem ends_tail {sp : Spawn} (hsp : s.objs f.child = some sp) (hpc : f.pc = .tail) :
    Ends now (n + 1) s { s with frame := none } [] := by
  have hs : s.stepJni f now = some ({ s with frame := none },
      (sp.child.callbackTail f.input).map (.act f.child)) := by
    simp only [State.stepJni, hpc, hsp]
  have h := ends_jni hcr hf (by simp [hpc]) hs (ends_none (n := n) rfl)
  rwa [filter_acts] at h

variable {sp : Spawn} (hsp : s.objs f.child = some sp)
include hsp

theorem ends_erase (hpc : f.pc = .erase) : Ends now (n + 2) s
    { s with nativeList := update s.nativeList f.pid none, frame := none } [] :=
  ends_jni hcr hf (by simp [hpc]) (by simp only [State.stepJni, hpc]; rfl)
    (ends_tail (s := { s with
      nativeList := update s.nativeList f.pid none
      frame := some { f with pc := .tail } }) hcr rfl hsp rfl)

theorem ends_remove (hpc : f.pc = .remove) : Ends now (n + 3) s
    { s with
      javaList := update s.javaList f.pid none
      nativeList := update s.nativeList f.pid none
      frame := none } [] :=
  ends_jni hcr hf (by simp [hpc]) (by simp only [State.stepJni, hpc]; rfl)
    (ends_erase (s := { s with
      javaList := update s.javaList f.pid none
      frame := some { f with pc := .erase } }) hcr rfl hsp rfl)

theorem ends_after (hpc : f.pc = f.after) : Ends now (n + 3) s (s.left f) [] := by
  unfold Frame.after at hpc
  unfold State.left
  split at hpc
  · rw [if_pos ‹_›]
    exact ends_remove hcr hf hsp hpc
  · rw [if_neg ‹_›]
    exact ends_tail hcr hf hsp hpc

theorem ends_listener (hloop : s.calls .loop = none) (hpc : f.pc = .inListener) :
    Ends now (n + 4) s (s.left f) [] := by
  let g : Frame := { f with pc := f.after }
  have hs : s.step .listenerReturns = some ({ s with frame := some g }, []) := by
    simp [g, State.step, hcr, hf, hpc, hloop]
  exact ends_step hf (if_pos hpc) hs (ends_after (f := g) hcr rfl hsp rfl)

theorem ends_nullCheck (hloop : s.calls .loop = none) {e : JavaEntry}
    (he : s.javaList f.pid = some e) (hpc : f.pc = .nullCheck) :
    Ends now (n + 6) s (s.left f) (s.heard f) := by
  simp only [State.heard, he]
  cases hl : (s.puppies e.puppy).listenerOf f.method with
  | none =>
      let g : Frame := { f with pc := f.after }
      have hs : s.stepJni f now = some ({ s with frame := some g }, []) := by
        simp [g, State.stepJni, hpc, he, hl]
      exact ends_jni (n := n + 5) hcr hf (by simp [hpc]) hs (ends_after (f := g) hcr rfl hsp rfl)
  | some l =>
      let g : Frame := { f with pc := .call }
      let g' : Frame := { f with pc := .inListener }
      have hs : s.stepJni f now = some ({ s with frame := some g }, []) := by
        simp [g, State.stepJni, hpc, he, hl]
      have hcall : State.stepJni { s with frame := some g } g now =
          some ({ s with frame := some g' },
            [.listener e.puppy l f.method f.pid f.args f.child]) := by
        simp [g, g', State.stepJni, he, hl]
      have hend : Ends now (n + 4) { s with frame := some g' } (s.left f) [] :=
        ends_listener (f := g') hcr rfl hsp hloop rfl
      exact ends_jni hcr hf (by simp [hpc]) hs
        (ends_jni (s := { s with frame := some g }) (f := g) hcr rfl (by simp [g]) hcall hend)

omit hsp in
theorem ends_write {e : JavaEntry} {w : Write} {pc : JniPc} {evs : List Event}
    (he : s.javaList f.pid = some e) (hw : f.write? now = some (w, pc))
    (h : Ends now n { s with
      puppies := update s.puppies e.puppy ((s.puppies e.puppy).write w)
      frame := some { f with pc := pc } } t evs) : Ends now (n + 1) s t evs := by
  have hexit := (Frame.write_pc hw).1
  have hs : s.stepJni f now = some ({ s with
      puppies := update s.puppies e.puppy ((s.puppies e.puppy).write w)
      frame := some { f with pc := pc } }, [.wrote e.puppy w f.child]) := by
    cases hpc : f.pc with
    | setCode | setSignal | setExitedAt => simp only [State.stepJni, hpc, hw, he]
    | _ => simp [Frame.write?, hpc] at hw
  refine ends_jni hcr hf ?_ hs h
  intro hpc
  rw [hpc] at hexit
  cases hexit

theorem ends_setCode (hloop : s.calls .loop = none) {e : JavaEntry} {code signal : Int}
    (he : s.javaList f.pid = some e) (hm : f.method = .exit) (ha : f.args = .status code signal)
    (hpc : f.pc = .setCode) : Ends now (n + 9) s (s.afterMethod f now) (s.heard f) := by
  let stateAt (p : DoryProcess) (pc : JniPc) : State :=
    { s with puppies := update s.puppies e.puppy p, frame := some { f with pc := pc } }
  let p₁ := (s.puppies e.puppy).write (.code code)
  let p₂ := p₁.write (.signal signal)
  let p₃ := p₂.write (.exitedAt now)
  have hw : f.write? now = some (.code code, .setSignal) := by simp [Frame.write?, hpc, ha]
  have hw₁ : Frame.write? { f with pc := .setSignal } now =
      some (.signal signal, .setExitedAt) := by
    simp [Frame.write?, ha]
  have hw₂ : Frame.write? { f with pc := .setExitedAt } now =
      some (.exitedAt now, .nullCheck) := by
    simp [Frame.write?, ha]
  have hheard : (stateAt p₃ .nullCheck).heard { f with pc := .nullCheck } = s.heard f := by
    simp [State.heard, stateAt, he, p₃, p₂, p₁]
  have hleft : (stateAt p₃ .nullCheck).left { f with pc := .nullCheck } = s.afterMethod f now := by
    simp [State.afterMethod, State.left, State.written, stateAt, he, hm, ha, exitWrites, p₃, p₂,
      p₁]
  have h₃ : Ends now (n + 6) (stateAt p₃ .nullCheck) (s.afterMethod f now) (s.heard f) := by
    rw [← hheard, ← hleft]
    exact ends_nullCheck hcr rfl hsp hloop he rfl
  have h₂ : Ends now (n + 7) (stateAt p₂ .setExitedAt) (s.afterMethod f now) (s.heard f) :=
    ends_write (s := stateAt p₂ .setExitedAt) hcr rfl he hw₂ (by simpa [stateAt, p₃] using h₃)
  have h₁ : Ends now (n + 8) (stateAt p₁ .setSignal) (s.afterMethod f now) (s.heard f) :=
    ends_write (s := stateAt p₁ .setSignal) hcr rfl he hw₁ (by simpa [stateAt, p₂] using h₂)
  exact ends_write hcr hf he hw h₁

/-- **A callback that called its method** runs to its end, and calls the listener at most once. -/
theorem ends_method (hloop : s.calls .loop = none)
    (hargs : f.method = .exit → ∃ code signal, f.args = .status code signal)
    (hpc : f.pc = .containsKey) : Ends now 10 s (s.afterMethod f now) (s.heard f) := by
  cases he : s.javaList f.pid with
  | none =>
      have hs : s.stepJni f now = some ({ s with frame := some { f with pc := f.after } }, []) := by
        simp [State.stepJni, hpc, he]
      have hw : s.written f now = s.puppies := by simp only [State.written, he]
      simp only [State.heard, he, State.afterMethod, hw]
      exact ends_jni hcr hf (by simp [hpc]) hs
        (ends_after (n := 6) (f := { f with pc := f.after }) hcr rfl hsp rfl)
  | some e =>
      let g : Frame := { f with pc := f.found }
      have hs : s.stepJni f now = some ({ s with frame := some g }, []) := by
        simp [g, State.stepJni, hpc, he]
      refine ends_jni hcr hf (by simp [hpc]) hs ?_
      by_cases hm : f.method = .exit
      · obtain ⟨code, signal, ha⟩ := hargs hm
        exact ends_setCode (n := 0) (f := g) hcr rfl hsp hloop he hm ha (if_pos hm)
      · have hw : s.written f now = s.puppies := by
          simp only [State.written, he]
          split
          · exact absurd ‹_› hm
          · rfl
        rw [State.afterMethod, hw]
        exact ends_nullCheck (n := 3) (f := g) hcr rfl hsp hloop he (if_neg hm)

end

theorem raised_exit {o : DoryProcessSpawn JniCallback} {i : Input} {args : Args}
    (h : raised o i = some (.exit, args)) : ∃ code signal, args = .status code signal := by
  cases i with
  | exitCb code signal =>
      simp only [raised, Option.ite_none_right_eq_some] at h
      cases h.2
      exact ⟨code, signal, rfl⟩
  | stderrCb nread buf =>
      simp only [raised] at h
      split at h
      · cases h
      · rw [Option.ite_none_right_eq_some] at h
        cases h.2
        exact ⟨_, _, rfl⟩
  | stdoutCb => simp [raised] at h
  | _ => cases h

/-- The state after a callback of the object `sp`, which is `ch` after it, and the listener that was
called. -/
def State.afterEvent (s : State) (c : ObjId) (sp : Spawn) (i : Input) (ch : Child JniCallback)
    (now : Date) : State × List Event :=
  let s' := s.withChild c sp i ch
  match raised sp.child.obj i with
  | none => (s', [])
  | some (k, args) =>
      let f : Frame := ⟨c, i, k, sp.child.obj.pid, jniArgs args, .containsKey⟩
      (s'.afterMethod f now, s'.heard f)

/-- A callback that does not raise the exit event changes its object alone. -/
theorem afterEvent_quiet {c : ObjId} {sp : Spawn} {i : Input} {ch : Child JniCallback}
    (hf : s.frame = none) (h : ∀ args, raised sp.child.obj i ≠ some (.exit, args)) :
    (s.afterEvent c sp i ch now).1 = { s.withChild c sp i ch with frame := none } := by
  unfold State.afterEvent
  cases hr : raised sp.child.obj i with
  | none => simp [State.withChild, hf]
  | some x =>
      obtain ⟨k, args⟩ := x
      have hk : k ≠ .exit := by
        rintro rfl
        exact h args hr
      simp only [State.afterMethod, State.left, State.written]
      rw [if_neg hk]
      cases (s.withChild c sp i ch).javaList sp.child.obj.pid with
      | none => rfl
      | some e => cases k <;> first | rfl | exact absurd rfl hk

/-- A callback that raises the exit event takes both entries out, after the writes. -/
theorem afterEvent_exit {c : ObjId} {sp : Spawn} {i : Input} {ch : Child JniCallback}
    {code signal : Int} (h : raised sp.child.obj i = some (.exit, .status code signal)) :
    (s.afterEvent c sp i ch now).1 = { s.withChild c sp i ch with
      puppies :=
        match s.javaList sp.child.obj.pid with
        | none => s.puppies
        | some e => update s.puppies e.puppy (exitWrites (s.puppies e.puppy) code signal now)
      javaList := update s.javaList sp.child.obj.pid none
      nativeList := update s.nativeList sp.child.obj.pid none
      frame := none } := by
  simp only [State.afterEvent, h]
  rfl

/-- The step of a child that is a callback frees its pid, or leaves the pid table alone. -/
theorem pidsAfter_callback {c : ObjId} {ch : Child JniCallback} {i : Input}
    {x : Child JniCallback × List (Act JniCallback)} (h : ch.callbackHead i = some x) (q : Int) :
    pidsAfter s.os c ch.obj i q = if i.exits ∧ q = ch.obj.process.pid then none else s.os q := by
  cases i with
  | exitCb e g => simp only [pidsAfter, Input.exits, true_and, Function.update_apply]
  | timerCb | stdoutCb | stderrCb => rfl
  | _ => cases h

/-- **A callback as one step**: it takes place when the object takes it. -/
theorem event_eq {c : ObjId} {sp : Spawn} (i : Input) (now : Date) (hcr : s.crashed = false)
    (hloop : s.calls .loop = none) (hf : s.frame = none) (hsp : s.objs c = some sp)
    (hl : sp.child.obj.listeners = jniListeners) :
    match sp.child.callbackHead i with
    | none => s.event c i now = none
    | some (ch, _) => ∃ h, s.event c i now = some (h, (s.afterEvent c sp i ch now).1) ∧
        h.outputs.filter Event.isListener = (s.afterEvent c sp i ch now).2 := by
  have hstep : s.step (.callback c i) = s.stepCallback c i := by
    simp [State.step, hcr, hf]
  simp only [State.event, hstep, State.stepCallback, hsp]
  cases hst : sp.child.callbackHead i with
  | none => rfl
  | some x =>
      obtain ⟨ch, as⟩ := x
      have hinv := invoked_eq hl hst
      simp only [State.afterEvent]
      cases hr : raised sp.child.obj i with
      | none =>
          rw [hr, Option.map_none] at hinv
          have hend : Ends now 10 (s.withChild c sp i ch) (s.withChild c sp i ch) [] := ends_none hf
          obtain ⟨h, hfin, hout⟩ := hend
          rw [hinv]
          simp only [hfin, Option.map_some]
          refine ⟨_, rfl, ?_⟩
          rw [History.outputs_cons, List.filter_append, filter_acts, hout]
          rfl
      | some x =>
          obtain ⟨k, args⟩ := x
          rw [hr, Option.map_some] at hinv
          have hargs : k = .exit → ∃ code signal, jniArgs args = .status code signal := by
            rintro rfl
            obtain ⟨code, signal, rfl⟩ := raised_exit hr
            exact ⟨code, signal, rfl⟩
          have hend : Ends now 10 { s.withChild c sp i ch with
              frame := some ⟨c, i, k, sp.child.obj.pid, jniArgs args, .containsKey⟩ } _ _ :=
            ends_method hcr rfl (update_self ..) hloop hargs rfl
          obtain ⟨h, hfin, hout⟩ := hend
          rw [hinv]
          simp only [hfin, Option.map_some]
          refine ⟨_, rfl, ?_⟩
          rw [History.outputs_cons, List.filter_append, filter_acts, hout]
          rfl

/-! ### A registration -/

/-- A call of `puppySpawn` by the thread `n`, with what libuv does in `spawn()`. -/
def registration (n : Nat) (p : PuppyId) (mem : Uninit) (is : List Input) (now : Date) :
    List Label :=
  .call (.caller n) p .puppySpawn :: .step (.caller n) mem now ::
    (is.map (.spawn (.caller n)) ++ [.step (.caller n) mem now, .step (.caller n) mem now])

/-- A call of `puppySpawn` that returns the pid `q`, the only one libuv writes. -/
def State.register (s : State) (n : Nat) (p : PuppyId) (q : Int) (mem : Uninit) (is : List Input)
    (now : Date) : Option (History Label Event × State) :=
  if is.all fun i => i.writesPid.all (· = q) then
    (machine.exec s (registration n p mem is now)).filter fun r =>
      .returned (.caller n) p q ∈ r.1.outputs
  else none

/-- The steps of `spawn()` under a pid that is free or is not. -/
def spawnAll : Child JniCallback → Bool → List Input → Option (Child JniCallback × Bool)
  | ch, free, [] => some (ch, free)
  | ch, free, i :: is =>
      match Child.spawnStep ch.obj ch.pc i with
      | none => none
      | some (ch', _) =>
          if i.writesPid = none ∨ free = true then spawnAll ch' (free && !i.spawns) is else none

theorem spawnAll_reached {is : List Input} {ch ch' : Child JniCallback} {free free' : Bool}
    (hr : Reached ch) (h : spawnAll ch free is = some (ch', free')) : Reached ch' := by
  induction is generalizing ch free with
  | nil =>
      cases h
      exact hr
  | cons i is ih =>
      rw [spawnAll] at h
      split at h
      · cases h
      · rename_i hst
        rw [Option.ite_none_right_eq_some] at h
        exact ih (hr.step (Child.spawnStep_step hst)) h.2

/-- The state after the steps of `spawn()` of the object `c`. -/
structure Spawned (s s' : State) (c : ObjId) (sp : Spawn) (q : Int) (ch : Child JniCallback)
    (free : Bool) : Prop where
  eq : s' = { s with objs := update s.objs c (some { sp with child := ch }), os := s'.os }
  free : s'.os q = none ↔ free = true
  other : ∀ q' ≠ q, s'.os q' = s.os q'

/-- A step of `spawn()` that may write the pid `q` moves the pid table there alone. -/
theorem pidsAfter_spawnStep {c : ObjId} {o : DoryProcessSpawn JniCallback} {pc : SpawnPc}
    {i : Input} {q : Int} {x : Child JniCallback × List (Act JniCallback)}
    (h : Child.spawnStep o pc i = some x)
    (hq : ∀ q' ∈ i.writesPid, q' = q) :
    (pidsAfter s.os c o i q = none ↔ s.os q = none ∧ i.spawns = false) ∧
      ∀ q' ≠ q, pidsAfter s.os c o i q' = s.os q' := by
  have same (hos : pidsAfter s.os c o i = s.os) (hi : i.spawns = false) :
      (pidsAfter s.os c o i q = none ↔ s.os q = none ∧ i.spawns = false) ∧
        ∀ q' ≠ q, pidsAfter s.os c o i q' = s.os q' := by
    rw [hos]
    exact ⟨by simp [hi], fun _ _ => rfl⟩
  cases i with
  | uvSpawn r =>
      cases r with
      | ok pid =>
          obtain rfl : (pid : Int) = q := hq pid rfl
          refine ⟨?_, fun q' hne => update_of_ne hne _ _⟩
          simp [pidsAfter, Input.spawns, UvSpawnResult.isOk]
      | forkFailed | execFailed => exact same rfl rfl
  | exitCb => simp [Child.spawnStep] at h
  | _ => exact same rfl rfl

/-- A step of `spawn()` takes place when the pid it writes is free. -/
theorem step_spawn {t : Tid} {call : Call} {c : ObjId} {sp : Spawn} {q : Int} {i : Input}
    (hcr : s.crashed = false) (hc : s.calls t = some call) (hpc : call.pc = .spawning c)
    (hsp : s.objs c = some sp) (hq : ∀ q' ∈ i.writesPid, q' = q) :
    machine.step s (.spawn t i) =
      match Child.spawnStep sp.child.obj sp.child.pc i with
      | none => none
      | some (ch, as) =>
          if i.writesPid = none ∨ decide (s.os q = none) = true then
            some (s.withChild c sp i ch, as.map (.act c))
          else none := by
  have hfree : (i.writesPid.all fun pid => s.os pid = none) ↔
      i.writesPid = none ∨ decide (s.os q = none) = true := by
    cases hw : i.writesPid with
    | none => simp
    | some q' => simp [hq q' hw]
  simp only [machine, State.step, hcr, hc, State.stepSpawn, hpc, hsp, Bool.false_eq_true, if_false]
  cases Child.spawnStep sp.child.obj sp.child.pc i with
  | none => rfl
  | some x => exact if_congr hfree rfl rfl

/-- The steps of `spawn()` of one object. -/
theorem exec_spawns {t : Tid} {call : Call} {c : ObjId} {sp : Spawn} {q : Int} {is : List Input}
    (hcr : s.crashed = false) (hc : s.calls t = some call) (hpc : call.pc = .spawning c)
    (hsp : s.objs c = some sp) (hq : ∀ i ∈ is, ∀ q' ∈ i.writesPid, q' = q) :
    match spawnAll sp.child (decide (s.os q = none)) is with
    | none => machine.exec s (is.map (.spawn t)) = none
    | some (ch, free) => ∃ h s', machine.exec s (is.map (.spawn t)) = some (h, s') ∧
        (∀ e ∈ h.outputs, ∃ a, e = .act c a) ∧ Spawned s s' c sp q ch free := by
  induction is generalizing s sp with
  | nil =>
      refine ⟨[], s, rfl, nofun, ?_, by simp, fun _ _ => rfl⟩
      have : update s.objs c (some sp) = s.objs := by rw [← hsp, Function.update_eq_self]
      simp [this]
  | cons i is ih =>
      have hqi := hq i (.head _)
      rw [List.map_cons, Machine.exec_cons, step_spawn hcr hc hpc hsp hqi, spawnAll]
      cases hst : Child.spawnStep sp.child.obj sp.child.pc i with
      | none => rfl
      | some x =>
          obtain ⟨ch, as⟩ := x
          by_cases hall : i.writesPid = none ∨ decide (s.os q = none) = true
          · obtain ⟨hnone, hother⟩ := pidsAfter_spawnStep (s := s) (c := c) hst hqi
            have hdec : decide ((s.withChild c sp i ch).os q = none) =
                (decide (s.os q = none) && !i.spawns) := by
              rw [Bool.eq_iff_iff, decide_eq_true_iff, Bool.and_eq_true, decide_eq_true_iff,
                Bool.not_eq_true']
              exact hnone
            have ih := ih (s := s.withChild c sp i ch) hcr hc (update_self ..)
              fun j hj => hq j (.tail _ hj)
            simp only [if_pos hall, Option.bind_some]
            rw [hdec] at ih
            cases hall' : spawnAll ch (decide (s.os q = none) && !i.spawns) is with
            | none =>
                rw [hall'] at ih
                simp only [ih, Option.map_none]
            | some y =>
                obtain ⟨ch', free⟩ := y
                rw [hall'] at ih
                obtain ⟨h, s', hex, hact, heq, hf, ho⟩ := ih
                simp only [hex, Option.map_some]
                refine ⟨_, s', rfl, fun e he => ?_, ?_, hf, fun q' hne => ?_⟩
                · rw [History.outputs_cons, List.mem_append] at he
                  rcases he with he | he
                  · obtain ⟨a, -, rfl⟩ := List.mem_map.mp he
                    exact ⟨a, rfl⟩
                  · exact hact e he
                · rw [heq]
                  simp [State.withChild]
                · exact (ho q' hne).trans (hother q' hne)
          · simp only [if_neg hall, Option.bind_none]

section
variable {tid : Tid} {call : Call} {c : ObjId} {sp : Spawn} {mem : Uninit}
  (hcr : s.crashed = false) (hc : s.calls tid = some call) (hpc : call.pc = .spawning c)
  (hin : call.inStart = false) (hsp : s.objs c = some sp)
include hcr hc hpc hin hsp

/-- The two insertions after a `spawn()` that returned 0. -/
theorem exec_puts (hret : sp.child.pc = .returned 0) (hpos : 0 < sp.child.obj.pid) :
    machine.exec s [.step tid mem now, .step tid mem now] =
      some ([(.step tid mem now, []),
        (.step tid mem now, [.returned tid call.puppy sp.child.obj.pid])],
        { s with
          nativeList := update s.nativeList sp.child.obj.pid (some (some ⟨sp.child.obj, c⟩))
          javaList := update s.javaList sp.child.obj.pid (some ⟨call.puppy, c⟩)
          objs := update s.objs c (some { sp with stage := .java })
          calls := update s.calls tid none }) := by
  simp [Machine.exec, Machine.execWhere, machine, State.step, State.stepCall, hcr, hc, hpc, hin,
    hsp, hret, DoryProcessSpawn.getPid, Int.not_le.mpr hpos]

/-- `puppySpawn` returns a pid after a `spawn()` that returned 0. -/
theorem exec_puts_returned {h : History Label Event} {q : Int} (hr : Reached sp.child)
    (he : machine.exec s [.step tid mem now, .step tid mem now] = some (h, t))
    (hmem : Event.returned tid call.puppy q ∈ h.outputs) :
    sp.child.pc = .returned 0 ∧ sp.child.obj.pid = q := by
  cases hp : sp.child.pc with
  | returned r =>
      by_cases hr₀ : r = 0
      · subst hr₀
        refine ⟨rfl, ?_⟩
        by_cases hpos : 0 < sp.child.obj.pid
        · rw [exec_puts hcr hc hpc hin hsp hp hpos] at he
          cases he
          have hq : q = sp.child.obj.pid := by simpa using hmem
          exact hq.symm
        · simp [Machine.exec, Machine.execWhere, machine, State.step, State.stepCall, hcr, hc, hpc,
            hsp, hp, DoryProcessSpawn.getPid, Int.not_lt.mp hpos] at he
          rw [← he.1] at hmem
          simp at hmem
      · -- the code is negative, and `puppySpawn` throws
        simp [Machine.exec, Machine.execWhere, machine, State.step, State.stepCall, hcr, hc, hpc,
          hsp, hp, hr₀, hr.code hp] at he
        rw [← he.1] at hmem
        simp at hmem
  | _ =>
      simp [Machine.exec, Machine.execWhere, machine, State.step, State.stepCall, hcr, hc, hpc, hsp,
        hp] at he

end

/-- The native object that `puppySpawn` makes, with whether its pid is free after it. -/
def spawned (p : DoryProcess) (mem : Uninit) (q : Int) (free : Bool) (is : List Input) :
    Option (Child JniCallback × Bool) :=
  if is.all fun i => i.writesPid.all (· = q) then
    ((p.setup mem uvLoop).bind fun setup => spawnAll (.start setup) free is).filter fun r =>
      r.1.pc = .returned 0 ∧ r.1.obj.pid = q
  else none

theorem spawned_started {p : DoryProcess} {mem : Uninit} {q : Int} {is : List Input}
    {ch : Child JniCallback} {free free' : Bool}
    (h : spawned p mem q free is = some (ch, free')) :
    ch.pc = .returned 0 ∧ ch.obj.process.pid = q := by
  unfold spawned at h
  rw [Option.ite_none_right_eq_some, Option.filter_eq_some_iff] at h
  obtain ⟨-, h, hret⟩ := h
  obtain ⟨setup, -, hall⟩ := Option.bind_eq_some_iff.mp h
  obtain ⟨hpc, hpid⟩ := of_decide_eq_true hret
  have hr := spawnAll_reached (Child.reached_start setup) hall
  exact ⟨hpc, (hr.started hpc).2.symm.trans hpid⟩

/-- The state after `puppySpawn`. -/
structure Registers (s s' : State) (p : PuppyId) (q : Int) (ch : Child JniCallback) (free : Bool) :
    Prop where
  eq : s' = { s with
    objs := update s.objs s.next (some ⟨ch, p, .java⟩)
    next := s.next + 1
    nativeList := update s.nativeList q (some (some ⟨ch.obj, s.next⟩))
    javaList := update s.javaList q (some ⟨p, s.next⟩)
    os := s'.os }
  free : s'.os q = none ↔ free = true
  other : ∀ q' ≠ q, s'.os q' = s.os q'

/-- The state in which `spawn()` is called on a new object. -/
def State.created (s : State) (n : Nat) (p : PuppyId) (setup : Setup JniCallback) : State :=
  { s with
    objs := update s.objs s.next (some ⟨Child.start setup, p, .new⟩)
    next := s.next + 1
    calls := update s.calls (.caller n) (some ⟨p, false, .spawning s.next⟩) }

theorem exec_registration {p : PuppyId} {mem : Uninit} {is : List Input} (hcr : s.crashed = false)
    (hc : s.calls (.caller n) = none) : machine.exec s (registration n p mem is now) =
      ((s.puppies p).setup mem uvLoop).bind fun setup =>
        ((machine.exec (s.created n p setup) (is.map (.spawn (.caller n)))).bind fun r =>
          (machine.exec r.2 [.step (.caller n) mem now, .step (.caller n) mem now]).map fun r' =>
            (r.1 ++ r'.1, r'.2)).map fun r =>
          ((.call (.caller n) p .puppySpawn, []) :: (.step (.caller n) mem now, []) :: r.1,
            r.2) := by
  have hcall : machine.step s (.call (.caller n) p .puppySpawn) =
      some ({ s with calls := update s.calls (.caller n) (some ⟨p, false, .create⟩) }, []) := by
    simp [machine, State.step, State.canCall, Api.begin, hcr, hc]
  rw [registration, Machine.exec_cons, hcall, Option.bind_some, Machine.exec_cons]
  cases hset : (s.puppies p).setup mem uvLoop with
  | none => simp [machine, State.step, State.stepCall, hcr, hset]
  | some setup =>
      have hcreate : machine.step
          { s with calls := update s.calls (.caller n) (some ⟨p, false, .create⟩) }
          (.step (.caller n) mem now) = some (s.created n p setup, []) := by
        simp [machine, State.step, State.stepCall, State.created, hcr, hset]
      rw [hcreate, Option.bind_some, Option.bind_some, Machine.exec_append, Option.map_map]
      rfl

/-- The state before the two insertions. -/
theorem Spawned.before {p : PuppyId} {q : Int} {setup : Setup JniCallback}
    {ch : Child JniCallback} {free : Bool} (hcr : s.crashed = false)
    (hs : Spawned (s.created n p setup) s' s.next ⟨Child.start setup, p, .new⟩ q ch free) :
    s'.crashed = false ∧ s'.calls (.caller n) = some ⟨p, false, .spawning s.next⟩ ∧
      s'.objs s.next = some ⟨ch, p, .new⟩ := by
  rw [hs.eq]
  exact ⟨hcr, update_self .., update_self ..⟩

/-- The state after them. -/
theorem Spawned.registers {p : PuppyId} {q : Int} {setup : Setup JniCallback}
    {ch : Child JniCallback} {free : Bool} (hc : s.calls (.caller n) = none)
    (hs : Spawned (s.created n p setup) s' s.next ⟨Child.start setup, p, .new⟩ q ch free) :
    Registers s { s' with
      nativeList := update s'.nativeList q (some (some ⟨ch.obj, s.next⟩))
      javaList := update s'.javaList q (some ⟨p, s.next⟩)
      objs := update s'.objs s.next (some ⟨ch, p, .java⟩)
      calls := update s'.calls (.caller n) none } p q ch free := by
  refine ⟨?_, hs.free, hs.other⟩
  have hcalls : update s.calls (.caller n) none = s.calls := by
    rw [← hc, Function.update_eq_self]
  rw [hs.eq]
  simp only [State.created, Function.update_idem, hcalls]

/-- **A registration as one step.** -/
theorem register_eq (n : Nat) (p : PuppyId) {q : Int} (mem : Uninit) (is : List Input) (now : Date)
    (hcr : s.crashed = false) (hc : s.calls (.caller n) = none) (hq : 0 < q) :
    match spawned (s.puppies p) mem q (s.os q = none) is with
    | none => s.register n p q mem is now = none
    | some (ch, free) => ∃ h s', s.register n p q mem is now = some (h, s') ∧
        h.outputs.filter Event.isListener = [] ∧ Registers s s' p q ch free := by
  unfold spawned State.register
  by_cases hall : is.all fun i => i.writesPid.all (· = q)
  · rw [if_pos hall, if_pos hall, exec_registration hcr hc]
    cases hset : (s.puppies p).setup mem uvLoop with
    | none => rfl
    | some setup =>
        have hwrites : ∀ i ∈ is, ∀ q' ∈ i.writesPid, q' = q := by
          simpa [Option.all_eq_true] using hall
        have hspawns := exec_spawns (s := s.created n p setup) (q := q) hcr (update_self ..) rfl
          (update_self ..) hwrites
        have hos : (s.created n p setup).os = s.os := rfl
        rw [hos] at hspawns
        simp only [Option.bind_some]
        cases hall' : spawnAll (Child.start setup) (decide (s.os q = none)) is with
        | none =>
            rw [hall'] at hspawns
            simp only [hspawns]
            rfl
        | some y =>
            obtain ⟨ch, free⟩ := y
            rw [hall'] at hspawns
            obtain ⟨h, s', hex, hact, hs⟩ := hspawns
            obtain ⟨hcr', hc', hsp'⟩ := hs.before hcr
            simp only [hex, Option.bind_some]
            by_cases hret : ch.pc = .returned 0 ∧ ch.obj.pid = q
            · rw [Option.filter_some_pos (by simpa using hret)]
              obtain ⟨hpc, rfl⟩ := hret
              rw [exec_puts hcr' hc' rfl rfl hsp' hpc hq, Option.map_some, Option.map_some,
                Option.filter_some_pos (by simp)]
              refine ⟨_, _, rfl, ?_, hs.registers hc⟩
              rw [History.outputs_cons, History.outputs_cons, List.nil_append, List.nil_append,
                History.outputs_append, List.filter_append, List.append_eq_nil_iff]
              refine ⟨List.filter_eq_nil_iff.mpr fun e he => ?_, rfl⟩
              obtain ⟨a, rfl⟩ := hact e he
              simp [Event.isListener]
            · -- `puppySpawn` does not return the pid
              rw [Option.filter_some_neg (by simpa using hret)]
              refine Option.filter_eq_none_iff.mpr fun r hr hmem => hret ?_
              simp only [Option.map_eq_some_iff] at hr
              obtain ⟨_, ⟨⟨h', t'⟩, hputs, rfl⟩, rfl⟩ := hr
              have hmem' : Event.returned (.caller n) p q ∈ h'.outputs := by
                simp only [decide_eq_true_eq, History.outputs_cons, List.nil_append,
                  History.outputs_append, List.mem_append] at hmem
                refine hmem.resolve_left fun he => ?_
                obtain ⟨a, ha⟩ := hact _ he
                cases ha
              exact exec_puts_returned hcr' hc' rfl rfl hsp'
                (spawnAll_reached (Child.reached_start setup) hall') hputs hmem'
  · rw [if_neg hall, if_neg hall]

theorem register_run {p : PuppyId} {q : Int} {mem : Uninit} {is : List Input}
    {h : History Label Event} (e : s.register n p q mem is now = some (h, t)) :
    machine.Run s h t := by
  unfold State.register at e
  rw [Option.ite_none_right_eq_some, Option.filter_eq_some_iff] at e
  exact Machine.exec_run _ e.2.1

end Dorypuppy.Manager
