import Dorypuppy.Native.Tracks

/-!
# Native — the two pids, and what holds of every child that is reached

`process.pid` is written by `uv_spawn`, `pid` by the step after it; before that both hold what the
memory held (`Pids`).

`Child.Reached` is any child some run leads to.  Its lemmas say what a program that uses the class
can rely on, without the run: from `uv_spawn` on the pid does not change, a stream that reads and a
`spawn()` that returned 0 have stored it, and a child that has ended (`Child.ended`) takes no
further step.
-/

namespace Dorypuppy

open Support (Machine History)

variable {F : Type}

namespace Child

variable {s s' : Child F} {i : Input} {as : List (Act F)} {c : Setup F}
  {h : History Input (Act F)}

/-- What `process.pid` and `pid` hold after the inputs `is`, and which steps of `spawn()` come after
`uv_spawn` and `storePid`. -/
structure Pids (c : Setup F) (is : List Input) (s : Child F) : Prop where
  spawned : ∀ pid : Pid, .uvSpawn (.ok pid) ∈ is → s.obj.process.pid = pid
  unspawned : s.pc.rank ≤ 2 → s.obj.process.pid = c.mem.processPid
  storing : s.pc = .storePid → is.any Input.spawns
  stored : .storePid ∈ is → is.any Input.spawns ∧ s.obj.pid = s.obj.process.pid
  unstored : .storePid ∉ is → s.obj.pid = c.mem.pid
  starting : s.pc = .readOut ∨ s.pc = .readErr ∨ (∃ r, s.pc = .killReturn r) →
    .storePid ∈ is
  started : is.any Input.startsOut ∨ is.any Input.startsErr → .storePid ∈ is
  done : s.pc = .returned 0 → is.any Input.startsErr

theorem step_pids {is : List Input} (hs : step s i = some (s', as)) (t : Tracks is s)
    (p : Pids c is s) : Pids c (is ++ [i]) s' := by
  have hproc := step_processPid hs
  have hpid := step_pid hs
  have hrank := step_rank hs
  -- no second `uv_spawn`
  have hsame (h3 : 3 ≤ s.pc.rank) : s'.obj.process.pid = s.obj.process.pid := by
    cases step_inv hs with
    | uvSpawn | uvSpawnError => simp [SpawnPc.rank] at h3
    | _ => exact hproc
  constructor
  · intro pid hmem
    rcases List.mem_append.mp hmem with hmem | hmem
    · have h3 := t.spawns (List.any_eq_true.mpr ⟨_, hmem, rfl⟩)
      rw [hsame h3, p.spawned pid hmem]
    · cases List.mem_singleton.mp hmem
      exact hproc
  · intro h2
    have hne : s'.obj.process.pid = s.obj.process.pid := by
      cases step_inv hs with
      | uvSpawn | uvSpawnError => simp [SpawnPc.rank] at h2
      | _ => exact hproc
    rw [hne, p.unspawned (by omega)]
  · intro hpc
    rw [List.any_append, Bool.or_eq_true]
    cases step_inv hs with
    | uvSpawn => exact .inr rfl
    | uvSpawnError => cases hpc
    | timerCb | exitCb | stdoutCb | stderrCb | kill => exact .inl (p.storing hpc)
    | _ => cases hpc
  · intro hmem
    rcases List.mem_append.mp hmem with hmem | hmem
    · obtain ⟨hsp, he⟩ := p.stored hmem
      refine ⟨by rw [List.any_append, hsp, Bool.true_or], ?_⟩
      rw [hsame (t.spawns hsp), ← he, hpid]
      split
      · exact he.symm
      · rfl
    · cases List.mem_singleton.mp hmem
      rw [if_pos rfl] at hpid
      cases step_inv hs with
      | storePid => exact ⟨by rw [List.any_append, p.storing rfl, Bool.true_or], rfl⟩
  · intro hmem
    rw [List.mem_append, not_or, List.mem_singleton] at hmem
    rw [hpid, if_neg (Ne.symm hmem.2), p.unstored hmem.1]
  · intro hpc
    rw [List.mem_append, List.mem_singleton]
    cases step_inv hs with
    | storePid => exact .inr rfl
    | readOut | readOutError => exact .inl (p.starting (.inl rfl))
    | readErrError => exact .inl (p.starting (.inr (.inl rfl)))
    | timerCb | exitCb | stdoutCb | stderrCb | kill => exact .inl (p.starting hpc)
    | _ => simp at hpc
  · intro hst
    rw [List.mem_append]
    simp only [List.any_append, List.any_cons, List.any_nil, Bool.or_false, Bool.or_eq_true] at hst
    by_cases hi : i.startsOut ∨ i.startsErr
    · cases step_inv hs with
      | readOut => exact .inl (p.starting (.inl rfl))
      | readErr => exact .inl (p.starting (.inr (.inl rfl)))
      | _ => simp [Input.startsOut, Input.startsErr] at hi
    · rw [not_or] at hi
      exact .inl (p.started (hst.imp (fun h => h.resolve_right hi.1) fun h => h.resolve_right hi.2))
  · intro hpc
    rw [List.any_append, Bool.or_eq_true]
    cases step_inv hs with
    | readErr => exact .inr rfl
    | @uvSpawnError o r hr =>
        have := UvSpawnResult.code_neg hr
        simp only [SpawnPc.returned.injEq] at hpc
        omega
    | @killReturn o r =>
        have := r.2
        simp only [SpawnPc.returned.injEq] at hpc
        omega
    | timerCb | exitCb | stdoutCb | stderrCb | kill => exact .inl (p.done hpc)
    | _ => cases hpc

theorem run_pids (r : (machine F).Run (start c) h s) : Pids c h.inputs s := by
  refine r.inv (fun h s => Pids c h.inputs s) ?_ ?_
  · constructor <;> simp [start, DoryProcessSpawn.new]
  · intro h s s' i os r _ hs p
    rw [History.inputs_append]
    exact step_pids hs (run_tracks r.run) p


/-! ### Reached children -/

/-- A child some run leads to. -/
def Reached (s : Child F) : Prop := ∃ c h, (machine F).Run (start c) h s

theorem reached_start (c : Setup F) : Reached (start c) := ⟨c, [], .nil⟩

theorem Reached.step (r : Reached s) (hs : step s i = some (s', as)) : Reached s' := by
  obtain ⟨c, h, r⟩ := r
  exact ⟨c, _, r.snoc trivial hs⟩

theorem Reached.tracks (r : Reached s) : ∃ c is, Tracks is s ∧ Pids c is s := by
  obtain ⟨c, h, r⟩ := r
  exact ⟨c, h.inputs, run_tracks r, run_pids r⟩

/-- `uv_spawn` returned 0. -/
def born (s : Child F) : Bool := s.obj.process.watched || s.obj.exited

/-- The exit event was raised. -/
def done (s : Child F) : Bool := s.obj.exited && s.obj.stderrFlushed

/-- `spawn()` has returned, `exit_cb` has run, and no stream reads. -/
def ended (s : Child F) : Bool :=
  (match s.pc with
    | .returned _ => true
    | _ => false) &&
  s.obj.exited && !s.obj.pipeOut.reading && !s.obj.pipeErr.reading

theorem Tracks.born_eq {is : List Input} (t : Tracks is s) :
    born s = is.any Input.spawns := by
  rw [born, t.watched, t.exited]
  cases hx : is.any Input.exits with
  | false => simp
  | true => simp [t.exits hx]

/-- The process is watched from `uv_spawn` to `exit_cb`. -/
theorem Reached.watched_eq (r : Reached s) :
    s.obj.process.watched = (born s && !s.obj.exited) := by
  obtain ⟨c, is, t, -⟩ := r.tracks
  rw [t.born_eq, t.exited, t.watched]

theorem born_of_watched (h : s.obj.process.watched = true) : born s = true := by
  rw [born, h, Bool.true_or]

theorem Reached.born_after (r : Reached s) (hs : Child.step s i = some (s', as)) :
    born s' = (born s || i.spawns) := by
  obtain ⟨c, is, t, -⟩ := r.tracks
  rw [t.born_eq, (step_tracks hs t).born_eq]
  simp

/-- From `uv_spawn` on, the pid stays. -/
theorem Reached.born_step (r : Reached s) (hs : Child.step s i = some (s', as))
    (h : born s = true) : born s' = true ∧ s'.obj.process.pid = s.obj.process.pid := by
  obtain ⟨c, is, t, p⟩ := r.tracks
  have t' := step_tracks hs t
  rw [t.born_eq] at h
  refine ⟨by rw [t'.born_eq, List.any_append, h, Bool.true_or], ?_⟩
  rw [step_processPid hs]
  cases step_inv hs with
  | uvSpawn | uvSpawnError => have := t.spawns h; simp [SpawnPc.rank] at this
  | _ => rfl

/-- The input that makes a child with a pid. -/
theorem eq_of_spawns (hi : i.spawns = true) : ∃ pid, i = .uvSpawn (.ok pid) := by
  cases i with
  | uvSpawn r => cases r <;> first | exact ⟨_, rfl⟩ | cases hi
  | _ => cases hi

theorem callbackHead_spawns (h : s.callbackHead i = some (s', as)) : i.spawns = false := by
  cases i <;> first | rfl | cases h

/-- No other step makes a child that has a pid. -/
theorem Reached.born_back (r : Reached s) (hs : Child.step s i = some (s', as))
    (hi : i.spawns = false) (h : born s' = true) :
    born s = true ∧ s'.obj.process.pid = s.obj.process.pid := by
  rw [r.born_after hs, hi, Bool.or_false] at h
  exact ⟨h, (r.born_step hs h).2⟩

/-- A stream that reads, or has ended, and a `spawn()` that returned 0 have stored the pid. -/
theorem Reached.stored (r : Reached s) (h : s.obj.pipeOut.reading = true ∨
    s.obj.pipeErr.reading = true ∨ s.obj.stderrFlushed = true ∨ s.pc = .returned 0) :
    born s = true ∧ s.obj.pid = s.obj.process.pid := by
  obtain ⟨c, is, t, p⟩ := r.tracks
  rw [t.born_eq]
  refine p.stored (p.started ?_)
  rcases h with h | h | h | h
  · rw [t.outReading, Bool.and_eq_true] at h
    exact .inl h.1
  · rw [t.errReading, Bool.and_eq_true] at h
    exact .inr h.1
  · rw [t.flushed] at h
    exact .inr (t.endsErr h)
  · exact .inr (p.done h)

/-- A `spawn()` that returned 0 has stored the pid. -/
theorem Reached.started (r : Reached s) (h : s.pc = .returned 0) :
    born s = true ∧ s.obj.pid = s.obj.process.pid :=
  r.stored (.inr (.inr (.inr h)))

theorem Reached.pid_pos (r : Reached s) (h : born s = true) : 0 < s.obj.process.pid := by
  obtain ⟨c, is, t, p⟩ := r.tracks
  rw [t.born_eq] at h
  obtain ⟨i, hi, hsp⟩ := List.any_eq_true.mp h
  cases i with
  | uvSpawn res =>
      cases res with
      | ok pid => exact p.spawned pid hi ▸ pid.2
      | forkFailed | execFailed => cases hsp
  | _ => cases hsp

/-- `spawn()` returns 0 or an error of libuv. -/
theorem Reached.code (r : Reached s) {code : Int} (h : s.pc = .returned code) : code ≤ 0 := by
  obtain ⟨c, hist, r⟩ := r
  revert code
  refine r.inv (fun _ s => ∀ {code}, s.pc = .returned code → code ≤ 0)
    (fun h => by simp [start] at h) ?_
  intro h s s' i os _ _ hs ih code hpc
  cases step_inv hs with
  | uvSpawnError hr =>
      have := UvSpawnResult.code_neg hr
      simp only [SpawnPc.returned.injEq] at hpc
      omega
  | @killReturn o r =>
      have := r.2
      simp only [SpawnPc.returned.injEq] at hpc
      omega
  | readErr =>
      simp only [SpawnPc.returned.injEq] at hpc
      omega
  | timerCb | exitCb | stdoutCb | stderrCb | kill => exact ih hpc
  | _ => cases hpc

/-- There is no process before `uv_spawn`. -/
theorem Reached.unborn (r : Reached s) (h : s.pc.rank ≤ 2) : born s = false := by
  obtain ⟨c, is, t, -⟩ := r.tracks
  rw [t.born_eq]
  exact not_yet id t.spawns (by omega)

theorem Reached.killing (r : Reached s) {e : UvError} (h : s.pc = .killReturn e) :
    born s = true := by
  obtain ⟨c, is, t, p⟩ := r.tracks
  rw [t.born_eq]
  exact (p.stored (p.starting (.inr (.inr ⟨e, h⟩)))).1

/-- A child whose timer is armed has not exited. -/
theorem Reached.armed (r : Reached s) (h : s.obj.timer.armed = true) : s.obj.exited = false := by
  obtain ⟨c, is, t, -⟩ := r.tracks
  rw [t.armed] at h
  rw [t.exited]
  simp_all

theorem Reached.flushed (r : Reached s) (h : s.obj.stderrFlushed = true) :
    s.obj.pipeErr.reading = false := by
  obtain ⟨c, is, t, -⟩ := r.tracks
  rw [t.flushed] at h
  rw [t.errReading, h, Bool.not_true, Bool.and_false]

theorem Reached.exited (r : Reached s) (h : s.obj.exited = true) :
    s.obj.process.watched = false := by
  rw [r.watched_eq, h, Bool.not_true, Bool.and_false]

theorem spawnStep_returned {r : Int} (h : s.pc = .returned r) : spawnStep s.obj s.pc i = none := by
  rw [h]
  cases i <;> rfl

/-- No callback comes to a child that has ended, and its `spawn()` makes no step. -/
theorem Reached.ended (r : Reached s) (h : ended s = true) :
    s.callbackHead i = none ∧ spawnStep s.obj s.pc i = none := by
  simp only [Child.ended, Bool.and_eq_true, Bool.not_eq_true'] at h
  obtain ⟨⟨⟨hret, hx⟩, hout⟩, herr⟩ := h
  have harmed : s.obj.timer.armed = false := by
    by_contra ha
    rw [r.armed (by simpa using ha)] at hx
    cases hx
  constructor
  · cases i <;> simp [callbackHead, harmed, hout, herr, r.exited hx]
  · split at hret
    · exact spawnStep_returned ‹_›
    · cases hret

/-- What a step of a child keeps. -/
theorem step_keeps (hs : step s i = some (s', as)) :
    (∀ r, s.pc = .returned r → s'.pc = .returned r) ∧
      (s.obj.exited = true → s'.obj.exited = true) ∧
      (s.obj.stderrFlushed = true → s'.obj.stderrFlushed = true) := by
  refine ⟨fun r hr => ?_, fun h => ?_, fun h => ?_⟩
  · cases step_inv hs with
    | timerCb | exitCb | stdoutCb | stderrCb | kill => exact hr
    | _ => cases hr
  · rw [step_exited hs, h, Bool.true_or]
  · rw [step_flushed hs, h, Bool.true_or]

/-- `spawn()` returns once. -/
theorem run_returned {k : History Input (Act F)} {t : Child F} {code : Int}
    (r : (machine F).Run s k t) (hpc : s.pc = .returned code) : t.pc = .returned code := by
  induction r with
  | nil => exact hpc
  | snoc _ _ hs ih => exact (step_keeps hs).1 _ ih

/-- From `uv_spawn` on, no run changes the pid. -/
theorem run_born {k : History Input (Act F)} {t : Child F} (hr : Reached s)
    (r : (machine F).Run s k t) (hb : born s = true) :
    Reached t ∧ born t = true ∧ t.obj.process.pid = s.obj.process.pid := by
  induction r with
  | nil => exact ⟨hr, hb, rfl⟩
  | snoc _ _ hs ih =>
      obtain ⟨hr, hb, hpid⟩ := ih
      obtain ⟨hb', hpid'⟩ := hr.born_step hs hb
      exact ⟨hr.step hs, hb', hpid'.trans hpid⟩

end Child

end Dorypuppy
