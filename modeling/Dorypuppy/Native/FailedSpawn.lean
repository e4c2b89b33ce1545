import Dorypuppy.Native.Outputs

/-!
# Native — after a `spawn()` that failed

`spawn()` arms its sources one after the other and has three early returns.  None of them disarms
what was armed before: the timer stays armed, and after a failed `uv_read_start` on `pipeErr` the
stream `pipeOut` keeps reading.  `exit_cb` is the one callback that stays quiet, since the end of
stderr it waits for does not come.

`failed_silent_iff` says when no callback runs a registered function or sends a signal after the
failure: when the timer has had its turn (or there was none) and stdout has ended (or never
started).
-/

namespace Dorypuppy

open Support (Machine History)

variable {F : Type}

namespace Child

variable {s s' : Child F} {i : Input} {as : List (Act F)} {c : Setup F}
  {h : History Input (Act F)}

/-- No sequence of callbacks from here on runs a registered function or sends a signal. -/
def Silent (s : Child F) : Prop :=
  ∀ h s', (machine F).RunWhere (fun _ i => i.isCallback) s h s' →
    ∀ a ∈ h.outputs, a.isInvoke = false ∧ a.signal? = none

/-- No source of an event is armed, and the exit event waits for a stderr that does not end. -/
structure Quiet (s : Child F) : Prop where
  armed : s.obj.timer.armed = false
  outReading : s.obj.pipeOut.reading = false
  errReading : s.obj.pipeErr.reading = false
  flushed : s.obj.stderrFlushed = false

/-- In a quiet child only `exit_cb` can come, and it closes handles only. -/
theorem Quiet.step (q : Quiet s) (hi : i.isCallback) (hs : step s i = some (s', as)) :
    Quiet s' ∧ ∀ a ∈ as, a.isInvoke = false ∧ a.signal? = none := by
  obtain ⟨ha, ho, he, hf⟩ := q
  cases step_inv hs with
  | timerCb h => rw [ha] at h; cases h
  | stdoutCb h => rw [ho] at h; cases h
  | stderrCb h => rw [he] at h; cases h
  | @exitCb o pc e g =>
      refine ⟨⟨?_, ?_, ?_, ?_⟩, ?_⟩
      · rw [DoryProcessSpawn.exitCb_fst]
        dsimp only
        split
        · rfl
        · exact ha
      · simpa using ho
      · simpa using he
      · simpa using hf
      · rw [DoryProcessSpawn.exitCb_snd, hf]
        intro a hmem
        simp only [Bool.false_eq_true, if_false, List.mem_append, List.mem_singleton] at hmem
        rcases hmem with hmem | rfl
        · split at hmem
          · rw [List.mem_singleton.mp hmem]; exact ⟨rfl, rfl⟩
          · cases hmem
        · exact ⟨rfl, rfl⟩
  | _ => cases hi

theorem Quiet.silent (q : Quiet s) : Silent s := by
  intro h s' r
  suffices hq : Quiet s' ∧ ∀ a ∈ h.outputs, a.isInvoke = false ∧ a.signal? = none from hq.2
  refine r.inv (fun h s' => Quiet s' ∧ ∀ a ∈ h.outputs, a.isInvoke = false ∧ a.signal? = none)
    ⟨q, by simp⟩ ?_
  rintro h s s' i os - hi hs ⟨q, ho⟩
  obtain ⟨q', ho'⟩ := q.step hi hs
  refine ⟨q', fun a hmem => ?_⟩
  simp only [History.outputs_append, History.outputs_cons, History.outputs_nil, List.append_nil,
    List.mem_append] at hmem
  exact hmem.elim (ho a) (ho' a)

/-- A callback that can come and sends a signal breaks the silence. -/
theorem Silent.signalsAt (q : Silent s) (hi : i.isCallback) (hs : step s i = some (s', as)) :
    s.obj.signalsAt i = [] := by
  rw [← step_signal hs, List.filterMap_eq_nil_iff]
  intro a ha
  exact (q _ _ (.snoc .nil hi hs) a (by simpa using ha)).2

/-- An armed timer and a reading `pipeOut` each have such a callback. -/
theorem silent_iff (he : s.obj.pipeErr.reading = false) (hf : s.obj.stderrFlushed = false) :
    Silent s ↔ s.obj.timer.armed = false ∧ s.obj.pipeOut.reading = false := by
  refine ⟨fun q => ⟨?_, ?_⟩, fun ⟨ha, ho⟩ => Quiet.silent ⟨ha, ho, he, hf⟩⟩
  · by_contra ha
    have hs : s.callbackHead .timerCb = some _ := if_pos (by simpa using ha)
    exact List.cons_ne_nil _ _ (q.signalsAt rfl (callbackHead_step hs))
  · by_contra ho
    -- a read error that is not the end of the stream
    have hs : s.callbackHead (.stdoutCb (-1) []) = some _ := if_pos (by simpa using ho)
    exact List.cons_ne_nil _ _ (q.signalsAt rfl (callbackHead_step hs))

/-! ### What is armed when `spawn()` has failed -/

/-- With a timeout, `spawn()` does not come to `uv_spawn` before it started the timer. -/
theorem run_arms (r : (machine F).Run (start c) h s) (ht : 0 < c.timeout)
    (hr : 2 ≤ s.pc.rank) : h.inputs.any Input.arms = true := by
  revert hr
  refine r.inv (fun h s => 2 ≤ s.pc.rank → h.inputs.any Input.arms = true)
    (by simp [start, SpawnPc.rank]) ?_
  intro h s s' i os r _ hs ih hr
  simp only [History.inputs_append, History.inputs_cons, History.inputs_nil, List.any_append,
    List.any_cons, List.any_nil, Bool.or_false, Bool.or_eq_true]
  by_cases hr₂ : 2 ≤ s.pc.rank
  · exact .inl (ih hr₂)
  cases step_inv hs with
  | @enterUntimed o h0 =>
      have : o.timeout = c.timeout := (run_const r.run).1
      simp [← this, h0] at ht
  | timerStart => exact .inr rfl
  | enterTimed => simp [SpawnPc.rank] at hr
  | timerCb | exitCb | stdoutCb | stderrCb | kill => exact absurd hr hr₂
  | _ => simp [SpawnPc.rank] at hr₂

/-- `uv_read_start` on `pipeErr` returned 0 only if `spawn()` returned 0. -/
theorem run_startsErr (r : (machine F).Run (start c) h s)
    (he : h.inputs.any Input.startsErr) : s.pc = .returned 0 := by
  revert he
  refine r.inv (fun h s => h.inputs.any Input.startsErr → s.pc = .returned 0) (by simp) ?_
  intro h s s' i os _ _ hs ih he
  simp only [History.inputs_append, History.inputs_cons, History.inputs_nil, List.any_append,
    List.any_cons, List.any_nil, Bool.or_false, Bool.or_eq_true] at he
  cases step_inv hs with
  | readErr => rfl
  | timerCb | exitCb | stdoutCb | stderrCb | kill =>
      exact ih (he.resolve_right (by simp [Input.startsErr]))
  | _ => exact absurd (ih (he.resolve_right (by simp [Input.startsErr]))) (by simp)

/-- A `spawn()` that failed does not read `pipeErr`. -/
theorem failed_startsErr (r : (machine F).Run (start c) h s) {code : Int}
    (hpc : s.pc = .returned code) (hcode : code ≠ 0) : h.inputs.any Input.startsErr = false := by
  by_contra he
  have := hpc.symm.trans (run_startsErr r (by simpa using he))
  injection this with this
  exact hcode this

/-- **When a failed `spawn()` stays silent.**  Once `spawn()` has returned an error, no sequence of
callbacks runs a registered function or sends a signal, if and only if there is no timeout or the
timer expired or `exit_cb` ran before; and `uv_read_start` on `pipeOut` had not succeeded or stdout
ended before. -/
theorem failed_silent_iff (r : (machine F).Run (start c) h s) {code : Int}
    (hpc : s.pc = .returned code) (hcode : code ≠ 0) :
    Silent s ↔
      (c.timeout = 0 ∨ h.inputs.any Input.fires ∨ h.inputs.any Input.exits) ∧
      (h.inputs.any Input.startsOut → h.inputs.any Input.endsOut) := by
  have t := run_tracks r
  have hstart := failed_startsErr r hpc hcode
  have hend : h.inputs.any Input.endsErr = false := by
    by_contra he
    rw [t.endsErr (by simpa using he)] at hstart
    cases hstart
  rw [silent_iff (by rw [t.errReading, hstart]; rfl) (by rw [t.flushed, hend])]
  refine and_congr ?_ ?_
  · rw [t.armed]
    by_cases ht : c.timeout = 0
    · have harms : h.inputs.any Input.arms = false := by
        by_contra ha
        have := t.timed (.inl (by simpa using ha))
        rw [(run_const r).1, ht] at this
        simp at this
      simp [harms, ht]
    · have harms := run_arms r (by simpa [UInt64.pos_iff_ne_zero] using ht)
        (by rw [hpc]; simp [SpawnPc.rank])
      rw [harms]
      cases h.inputs.any Input.fires <;> cases h.inputs.any Input.exits <;> simp [ht]
  · rw [t.outReading]
    cases h.inputs.any Input.startsOut <;> cases h.inputs.any Input.endsOut <;> simp

theorem failed_silent_iff_example : ∃ h s, (machine Unit).Run (start (.example 0)) h s ∧
    h.inputs = [.enter, .uvSpawn (.execFailed ⟨-2, by decide⟩ 7)] ∧ Silent s := by
  have r := Machine.exec_run (M := machine Unit) (s := start (.example 0))
    [.enter, .uvSpawn (.execFailed ⟨-2, by decide⟩ 7)] rfl
  refine ⟨_, _, r, rfl, (failed_silent_iff r rfl (by decide)).mpr ⟨.inl rfl, ?_⟩⟩
  simp [Input.startsOut]

/-- **A failed `spawn()` that speaks.**  With a timeout, `uv_spawn` fails and `spawn()` returns its
error; then the timer expires, runs the `timeout` function and sends SIGKILL to whatever pid the
uninitialised process handle holds. -/
theorem failed_timeout_fires : ∃ h s, (machine Unit).Run (start (.example 5)) h s ∧
    h.inputs = [.enter, .timerStart, .uvSpawn (.forkFailed ⟨-12, by decide⟩)] ∧
    s.pc = .returned (-12) ∧ ¬ Silent s := by
  refine ⟨_, _, Machine.exec_run (M := machine Unit) (s := start (.example 5))
    [.enter, .timerStart, .uvSpawn (.forkFailed ⟨-12, by decide⟩)] rfl, rfl, rfl, fun q => ?_⟩
  have hmem := q [(.timerCb, [.uv (.close .timer), .emit "timeout" .plain, .invoke () .plain 0,
    .uv (.processKill 0 SIGKILL)])] _ (.snoc .nil rfl rfl)
  exact absurd (hmem (.uv (.processKill 0 SIGKILL)) (by simp)).2 (by simp [Act.signal?])

end Child

end Dorypuppy
