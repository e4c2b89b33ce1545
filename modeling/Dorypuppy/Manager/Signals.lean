import Dorypuppy.Native.Outputs
import Dorypuppy.Manager.Frames

/-!
# Manager — who gets the signals

Signals are sent in four places: by `kill` through the native map, by the timer callback, by a
read callback that saw an error, and by `spawn()` when a `uv_read_start` failed.  None of them
looks whether the child is still there, and of the things that lead to them only the timer is ended
by `exit_cb`: the entry of the map stays until the exit event, the streams until they end, and the
timer may expire before there is a child.

`signals_live`: in every run in which none of these is used outside the life of its child, each
signal goes to a child that `uv_spawn` has started and `exit_cb` has not ended.
-/

namespace Dorypuppy.Manager

open Child (Reached born done)
open Support (Machine History)
open Function (update update_self update_of_ne)

variable {s s' : State} {l : Label} {os : List Event}

/-- The pid and the signal of a `uv_process_kill`. -/
def Event.signal? : Event → Option (Int × Int)
  | .act _ a => a.signal?
  | .killed _ pid signal _ => some (pid, signal)
  | _ => none

/-- A child has the pid: its `uv_spawn` returned 0 and its `exit_cb` has not run. -/
def Live (s : State) (q : Int) : Prop :=
  ∃ c sp, s.objs c = some sp ∧ sp.child.obj.process.watched = true ∧ sp.child.obj.process.pid = q

theorem live_iff (ok : Objects s) (q : Int) : Live s q ↔ ∃ c, s.os q = some (.child c) := by
  simp only [Live, ok.holder]

/-- The read callback sees an error that is not the end of the stream. -/
def readFails : Input → Bool
  | .stdoutCb nread _ | .stderrCb nread _ => nread < 0 && nread ≠ UV_EOF
  | _ => false

/-- What may lead to a signal happens within the life of its child: `kill` finds the entry of a
child that has not exited, a read fails before `exit_cb`, the timer expires after `uv_spawn`
returned 0, and a failed `uv_read_start` comes before `exit_cb`. -/
def inLife (s : State) : Label → Bool
  | .step t _ _ => (s.calls t).all fun call =>
      match call.pc with
      | .killDeref pid _ => (s.nativeList pid).join.all fun e =>
          (s.objs e.child).all fun sp => !sp.child.obj.exited
      | _ => true
  | .callback c i => (s.objs c).all fun sp =>
      (!readFails i || !sp.child.obj.exited) && (!i.fires || born sp.child)
  | .spawn t .killReturn => (s.calls t).all fun call =>
      match call.pc with
      | .spawning c => (s.objs c).all fun sp => !sp.child.obj.exited
      | _ => true
  | _ => true

/-- A step within the lives of the children. -/
abbrev InLife (s : State) (l : Label) : Prop := inLife s l = true

theorem InLife.kill {t : Tid} {mem : Uninit} {now : Date} (hC : InLife s (.step t mem now))
    {call : Call} {pid g : Int} {e : NativeEntry} {sp : Spawn} (hc : s.calls t = some call)
    (hpc : call.pc = .killDeref pid g) (he : s.nativeList pid = some (some e))
    (hsp : s.objs e.child = some sp) : sp.child.obj.exited = false := by
  simpa [InLife, inLife, hc, hpc, he, hsp] using hC

theorem InLife.callback {c : ObjId} {i : Input} (hC : InLife s (.callback c i)) {sp : Spawn}
    (hsp : s.objs c = some sp) :
    (readFails i → sp.child.obj.exited = false) ∧ (i.fires → born sp.child = true) := by
  simp only [InLife, inLife, hsp, Option.all_some, Bool.and_eq_true, Bool.or_eq_true,
    Bool.not_eq_true'] at hC
  exact ⟨fun h => hC.1.resolve_left (by simp [h]), fun h => hC.2.resolve_left (by simp [h])⟩

theorem InLife.spawn {t : Tid} (hC : InLife s (.spawn t .killReturn)) {call : Call} {c : ObjId}
    {sp : Spawn} (hc : s.calls t = some call) (hpc : call.pc = .spawning c)
    (hsp : s.objs c = some sp) : sp.child.obj.exited = false := by
  simpa [InLife, inLife, hc, hpc, hsp] using hC

/-! ### The timer callback -/

/-- Between the head of the timer callback and its signal the child lives. -/
def TimerLive (s : State) : Prop :=
  ∀ f, s.frame = some f → f.input = .timerCb →
    ∃ sp, s.objs f.child = some sp ∧ sp.child.obj.process.watched = true

/-- While a callback runs no `exit_cb` does. -/
theorem watched_stays (v : Inv s) (hs : Step s l s' os) {f : Frame} (hf : s.frame = some f)
    {c : ObjId} {sp : Spawn} (h : s.objs c = some sp)
    (hw : sp.child.obj.process.watched = true) :
    ∃ sp', s'.objs c = some sp' ∧ sp'.child.obj.process.watched = true := by
  obtain ⟨sp', hsp', -⟩ := step_later v.objects v.calls hs h
  refine ⟨sp', hsp', ?_⟩
  cases obj_change hs hsp' with
  | same h' _ => cases h.symm.trans h'; exact hw
  | new _ _ hn =>
      subst hn
      exact absurd (v.objects.lt h) (lt_irrefl _)
  | put _ h' => cases h.symm.trans h'; exact hw
  | @spawn t i _ _ _ _ _ _ h' hst =>
      cases h.symm.trans h'
      rw [Child.step_watched (Child.spawnStep_step hst), hw, Bool.true_and, Bool.or_eq_true]
      refine .inr ?_
      cases i with
      | exitCb => simp [Child.spawnStep] at hst
      | _ => rfl
  | callback =>
      cases hs with
      | callback hnone | callbackInvoke hnone => rw [hnone] at hf; cases hf

theorem step_timerLive (v : Inv s) (ht : TimerLive s) (hC : InLife s l) (hs : Step s l s' os) :
    TimerLive s' := by
  have keep {f : Frame} (hf : s.frame = some f) (hi : f.input = .timerCb) :
      ∃ sp, s'.objs f.child = some sp ∧ sp.child.obj.process.watched = true := by
    obtain ⟨sp, hsp, hw⟩ := ht f hf hi
    exact watched_stays v hs hf hsp hw
  intro f hf hi
  cases hs with
  | @callbackInvoke c i sp ch as k args pid hnone hsp hst hinv =>
      cases hf
      subst hi
      have hr := (v.objects.reached c sp hsp).1
      have hb := (hC.callback hsp).2 rfl
      simp only [Child.callbackHead, Option.ite_none_right_eq_some] at hst
      have hw : sp.child.obj.process.watched = true := by
        rw [hr.watched_eq, hb, hr.armed hst.1]
        rfl
      refine ⟨_, update_self .., ?_⟩
      obtain ⟨-, h⟩ := hst
      cases h
      simpa using hw
  | callback hnone => rw [show s.frame = some f from hf] at hnone; cases hnone
  | jniMove hf₀ | write hf₀ | listener hf₀ | nullPointer hf₀ | remove hf₀ | erase hf₀
  | listenerReturns hf₀ | listenerThrows hf₀ =>
      cases hf
      have hkeep := keep hf₀ hi
      exact hkeep
  | tail => cases hf
  | _ => exact keep hf hi

theorem run_timerLive {puppies : PuppyId → List (Option JString) × StringTable}
    {h : History Label Event} (r : machine.RunWhere InLife (.init puppies) h s) : TimerLive s := by
  refine r.inv (fun _ s => TimerLive s) (fun f hf => by cases hf) ?_
  intro h s s' l os r hC hs ht
  exact step_timerLive (run_inv r) ht hC (step_inv hs).2

/-! ### Every signal -/

theorem mem_signals_act {c : ObjId} {as : List (Act JniCallback)} {x : Int × Int}
    (h : x ∈ (as.map (Event.act c)).filterMap Event.signal?) : x ∈ as.filterMap Act.signal? := by
  rw [List.filterMap_map] at h
  exact h

/-- A signal of a step of a child goes to its own pid, and is one of three kinds. -/
theorem signalsAt_cases {o : DoryProcessSpawn JniCallback} {i : Input} {q g : Int}
    (h : (q, g) ∈ o.signalsAt i) : q = o.process.pid ∧
      (i.fires = true ∨ readFails i = true ∨ i = .killReturn ∨ ∃ g, i = .kill g) := by
  cases i with
  | timerCb => simp_all [DoryProcessSpawn.signalsAt, Input.fires]
  | killReturn => simp_all [DoryProcessSpawn.signalsAt]
  | kill => simp_all [DoryProcessSpawn.signalsAt]
  | stdoutCb nread buf | stderrCb nread buf =>
      simp only [DoryProcessSpawn.signalsAt] at h
      split at h
      · simp_all [readFails]
      · cases h
  | _ => cases h

/-- **Signals go to children that have not been reaped.**  In every run in which `kill` finds no
entry of a child that has exited, no read fails after `exit_cb`, no timer expires before `uv_spawn`
returned 0 and no `uv_read_start` fails after `exit_cb`, each signal that is sent goes to the pid
of a child whose `uv_spawn` returned 0 and whose `exit_cb` has not run. -/
theorem signals_live {puppies : PuppyId → List (Option JString) × StringTable}
    {h : History Label Event} (r : machine.RunWhere InLife (.init puppies) h s)
    (hC : InLife s l) (hs : s.step l = some (s', os)) {q g : Int}
    (hq : (q, g) ∈ os.filterMap Event.signal?) : Live s q := by
  have v := run_inv r
  obtain ⟨-, hs⟩ := step_inv hs
  -- a child that is born and has not exited lives
  have live {c : ObjId} {sp : Spawn} (hsp : s.objs c = some sp) (hb : born sp.child = true)
      (hx : sp.child.obj.exited = false) (hp : q = sp.child.obj.process.pid) : Live s q := by
    refine ⟨c, sp, hsp, ?_, hp.symm⟩
    rw [(v.objects.reached c sp hsp).1.watched_eq, hb, hx]
    rfl
  -- the signals of a callback
  have callback {c : ObjId} {i : Input} {sp : Spawn} {ch : Child JniCallback}
      {as : List (Act JniCallback)} (hC : InLife s (.callback c i)) (hsp : s.objs c = some sp)
      (hst : sp.child.callbackHead i = some (ch, as))
      (hq : (q, g) ∈ (as ++ ch.callbackTail i).filterMap Act.signal?) : Live s q := by
    rw [Child.step_signal (Child.callbackHead_step hst)] at hq
    obtain ⟨hpid, hi⟩ := signalsAt_cases hq
    have hr := (v.objects.reached c sp hsp).1
    obtain ⟨hread, hfire⟩ := hC.callback hsp
    cases i with
    | timerCb =>
        simp only [Child.callbackHead, Option.ite_none_right_eq_some] at hst
        exact live hsp (hfire rfl) (hr.armed hst.1) hpid
    | stdoutCb nread buf =>
        simp only [Child.callbackHead, Option.ite_none_right_eq_some] at hst
        have hfail : readFails (.stdoutCb nread buf) = true := by simpa [Input.fires] using hi
        exact live hsp (hr.stored (.inl hst.1)).1 (hread hfail) hpid
    | stderrCb nread buf =>
        simp only [Child.callbackHead, Option.ite_none_right_eq_some] at hst
        have hfail : readFails (.stderrCb nread buf) = true := by simpa [Input.fires] using hi
        exact live hsp (hr.stored (.inr (.inl hst.1))).1 (hread hfail) hpid
    | exitCb => cases hq
    | _ => cases hst
  cases hs with
  | @killDeref t mem now call pid g' e hc hpc he =>
      simp only [List.filterMap_cons, Event.signal?, List.filterMap_nil, List.mem_singleton,
        Prod.mk.injEq] at hq
      obtain ⟨sp, hsp, -, hb, hp, hcp⟩ := v.entries.native pid e he
      exact live hsp hb (hC.kill hc hpc he hsp) (by rw [hq.1, hcp, hp])
  | @spawn t i call c sp ch as hc hpc hsp hst _ =>
      have hmem := mem_signals_act hq
      rw [Child.step_signal (Child.spawnStep_step hst)] at hmem
      cases i with
      | killReturn =>
          obtain ⟨hpid, -⟩ := signalsAt_cases hmem
          have hr := (v.objects.reached c sp hsp).1
          obtain ⟨e, he⟩ : ∃ e, sp.child.pc = .killReturn e := by
            generalize sp.child.pc = pc at hst
            cases Child.spawnStep_inv hst
            exact ⟨_, rfl⟩
          exact live hsp (hr.killing he) (hC.spawn hc hpc hsp) hpid
      | timerCb | stdoutCb | stderrCb | kill => simp [Child.spawnStep] at hst
      | _ => cases hmem
  | @callback c i sp ch as hf hsp hst hinv => exact callback hC hsp hst (mem_signals_act hq)
  | @callbackInvoke c i sp ch as k args pid hf hsp hst hinv =>
      refine callback hC hsp hst ?_
      rw [List.filterMap_append, List.mem_append]
      exact .inl (mem_signals_act hq)
  | @tail now f sp hf hpc hsp =>
      have hmem := mem_signals_act hq
      cases hi : f.input with
      | timerCb =>
          rw [hi] at hmem
          obtain ⟨sp', hsp', hw⟩ := run_timerLive r f hf hi
          cases hsp.symm.trans hsp'
          refine ⟨f.child, sp, hsp, hw, ?_⟩
          simp only [Child.callbackTail, DoryProcessSpawn.timerCbTail, List.filterMap_cons,
            Act.signal?, List.filterMap_nil, List.mem_singleton, Prod.mk.injEq] at hmem
          exact hmem.1.symm
      | _ => rw [hi] at hmem; cases hmem
  | javaPut =>
      split at hq <;> cases hq
  | _ => cases hq

theorem signals_live_example : ∃ h s s' os,
    machine.RunWhere InLife (.init examplePuppies) h s ∧
    h.inputs = startsWith (.caller 0) 0 7 ++ killsUpTo (.caller 0) 0 ∧
    s.step (go (.caller 0)) = some (s', os) ∧ Live s 7 := by
  have r := Machine.execWhere_run (M := machine) (C := inLife) (s := .init examplePuppies)
    (startsWith (.caller 0) 0 7 ++ killsUpTo (.caller 0) 0) rfl
  refine ⟨_, _, _, _, r, rfl, rfl, signals_live (l := go (.caller 0)) r rfl rfl (g := 9) ?_⟩
  exact .head _

/-- **`kill` after the child was reaped.**  The child exits while its stderr is still open, so its
entry stays; `kill` finds the entry and signals a pid that is free. -/
theorem kill_reaped : ∃ h s s' os, machine.Run (.init examplePuppies) h s ∧
    h.inputs = startsWith (.caller 0) 0 7 ++ [.callback 0 (.exitCb 0 0)] ++
      killsUpTo (.caller 0) 0 ∧
    s.step (go (.caller 0)) = some (s', os) ∧ (7, 9) ∈ os.filterMap Event.signal? ∧
    ¬ Live s 7 := by
  have r := Machine.exec_run (M := machine) (s := .init examplePuppies)
    (startsWith (.caller 0) 0 7 ++ [.callback 0 (.exitCb 0 0)] ++
      killsUpTo (.caller 0) 0) rfl
  refine ⟨_, _, _, _, r, rfl, rfl, ?_, fun hl => ?_⟩
  · exact .head _
  · obtain ⟨c, hc⟩ := (live_iff (run_inv r).objects 7).mp hl
    cases hc

end Dorypuppy.Manager
