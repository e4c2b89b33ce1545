import Mathlib.Data.Fintype.EquivFin
import Dorypuppy.Native.Handles
import Dorypuppy.Native.Reached

/-!
# Native — the memory the constructor finds

Neither the constructor nor an initialiser sets the timer, the process handle, `pid`, `exit_status`
and `term_signal`.  `onMemory` is a child on other memory: the members nothing has written yet
changed, the rest the same.  `step_onMemory` says that it makes the same step, with the same
outputs, unless the input reads a member before it is written, and there are three such inputs:
`exit_cb` with `timeout == 0` (`timer.loop`), the timer callback or `kill` before `uv_spawn`
(`process.pid`), and a function run on `timeout` before `storePid` (`pid`).

`memory_independent_iff`: these are all, and each of them shows.
-/

namespace Dorypuppy

open Support (Machine History Throughout)

variable {F : Type}

/-- The same setup on other memory. -/
def Setup.on (c : Setup F) (mem : Uninit) : Setup F := { c with mem := mem }

/-- `uv_spawn` has written `process.pid`. -/
def Input.writes (i : Input) : Bool := i.writesPid.isSome

/-- The inputs that read `process.pid` and may come before `uv_spawn`. -/
def Input.readsPid : Input → Bool
  | .timerCb | .kill _ => true
  | _ => false

namespace Child

variable {s s' : Child F} {i : Input} {is : List Input} {as : List (Act F)} {c : Setup F}
  {h : History Input (Act F)}

/-- The child after the inputs `is`, on other memory: the members that nothing has written yet hold
what `mem` holds. -/
def onMemory (mem : Uninit) (is : List Input) (s : Child F) : Child F :=
  { s with obj := { s.obj with
      timer :=
        if s.obj.timeout = 0 ∨ s.pc = .enter then
          { s.obj.timer with loop := mem.timerLoop, closing := mem.timerClosing }
        else s.obj.timer
      process := { s.obj.process with
        pid := if is.any Input.writes then s.obj.process.pid else mem.processPid
        closing := if 3 ≤ s.pc.rank then s.obj.process.closing else mem.processClosing }
      pid := if .storePid ∈ is then s.obj.pid else mem.pid
      exitStatus := if s.obj.exited then s.obj.exitStatus else mem.exitStatus
      termSignal := if s.obj.exited then s.obj.termSignal else mem.termSignal } }

theorem start_onMemory (c : Setup F) (mem : Uninit) :
    (start c).onMemory mem [] = start (c.on mem) := by
  simp [onMemory, start, Setup.on, DoryProcessSpawn.new, SpawnPc.rank]

/-- Once `uv_spawn` and `storePid` have come, only the timer may still hold what memory held. -/
theorem onMemory_started {mem : Uninit} (hw : is.any Input.writes = true) (hp : .storePid ∈ is) :
    s.onMemory mem is =
      { s with obj := { s.obj with
          timer :=
            if s.obj.timeout = 0 ∨ s.pc = .enter then
              { s.obj.timer with loop := mem.timerLoop, closing := mem.timerClosing }
            else s.obj.timer
          process := { s.obj.process with
            closing := if 3 ≤ s.pc.rank then s.obj.process.closing else mem.processClosing }
          exitStatus := if s.obj.exited then s.obj.exitStatus else mem.exitStatus
          termSignal := if s.obj.exited then s.obj.termSignal else mem.termSignal } } := by
  simp only [onMemory, if_pos hw, if_pos hp]

theorem step_onMemory {mem : Uninit} (hs : step s i = some (s', as)) (t : Tracks is s)
    (p : Pids c is s) (hx : i.exits → 0 < s.obj.timeout)
    (hk : i.readsPid → is.any Input.writes)
    (hg : i.fires → (s.obj.listeners.eventListeners "timeout").isSome → .storePid ∈ is) :
    step (s.onMemory mem is) i = some (s'.onMemory mem (is ++ [i]), as) := by
  have hspawns (h : is.any Input.spawns) : is.any Input.writes := by
    obtain ⟨j, hj, hsp⟩ := List.any_eq_true.mp h
    obtain ⟨pid, rfl⟩ := eq_of_spawns hsp
    exact List.any_eq_true.mpr ⟨_, hj, rfl⟩
  have hw (h : .storePid ∈ is) := hspawns (p.stored h).1
  cases step_inv hs with
  | enterTimed ht =>
      have hne := UInt64.pos_iff_ne_zero.mp ht
      simp [step, Input.isCallback, onMemory, spawnStep, ht, hne, Input.writes, Input.writesPid,
        SpawnPc.rank, UvTimer.init]
  | enterUntimed ht =>
      simp [step, Input.isCallback, onMemory, spawnStep, ht, Input.writes, Input.writesPid,
        SpawnPc.rank]
  | @timerStart o =>
      have hne : o.timeout ≠ 0 := UInt64.pos_iff_ne_zero.mp (t.timed (.inr rfl))
      simp [step, Input.isCallback, onMemory, spawnStep, Input.writes, Input.writesPid,
        SpawnPc.rank, hne]
  | uvSpawn pid =>
      simp [step, Input.isCallback, onMemory, spawnStep, Input.writes, Input.writesPid,
        SpawnPc.rank, UvProcess.spawn]
  | @uvSpawnError o r hr =>
      cases r with
      | ok pid => cases hr
      | forkFailed | execFailed =>
          simp [step, Input.isCallback, onMemory, spawnStep, Input.writes, Input.writesPid,
            SpawnPc.rank, UvProcess.spawn]
  | storePid =>
      have hw := hspawns (p.storing rfl)
      simp [step, Input.isCallback, onMemory, spawnStep, hw, SpawnPc.rank]
  | readOut | readOutError | readErr | readErrError =>
      simp [step, Input.isCallback, onMemory, spawnStep, Input.writes, Input.writesPid,
        SpawnPc.rank]
  | @killReturn o r =>
      have hp := p.starting (.inr (.inr ⟨r, rfl⟩))
      simp [step, Input.isCallback, onMemory, spawnStep, SpawnPc.rank, DoryProcessSpawn.kill, hp,
        hw hp]
  | kill =>
      have hw := hk rfl
      simp [step, onMemory, DoryProcessSpawn.kill, hw]
  | @timerCb o pc ha =>
      have hw := hk rfl
      have hne : o.timeout ≠ 0 := by
        rw [t.armed, Bool.and_eq_true] at ha
        exact UInt64.pos_iff_ne_zero.mp (t.timed (.inl ha.1))
      have hpc : pc ≠ .enter := by
        rintro rfl
        rw [t.armed, not_yet id t.arms (by simp [SpawnPc.rank])] at ha
        cases ha
      cases hl : o.listeners.eventListeners "timeout" with
      | none =>
          simp [step, Input.isCallback, callbackHead, onMemory, callbackTail, ha, hw, hne, hpc, hl,
            DoryProcessSpawn.timerCbHead_snd, DoryProcessSpawn.timerCbTail, DoryProcessSpawn.emit,
            DoryProcessSpawn.dispatch, DoryProcessSpawn.call]
      | some f =>
          have hp := hg rfl (by simp [hl])
          simp [step, Input.isCallback, callbackHead, onMemory, callbackTail, ha, hw, hp, hne, hpc,
            hl, DoryProcessSpawn.timerCbHead_snd, DoryProcessSpawn.timerCbTail,
            DoryProcessSpawn.emit, DoryProcessSpawn.dispatch, DoryProcessSpawn.call,
            DoryProcessSpawn.getPid]
  | @exitCb o pc e g hwat =>
      have hne : o.timeout ≠ 0 := UInt64.pos_iff_ne_zero.mp (hx rfl)
      have hsp : is.any Input.spawns := by
        rw [t.watched, Bool.and_eq_true] at hwat
        exact hwat.1
      have hrank := t.spawns hsp
      have hpc : pc ≠ .enter := by
        rintro rfl
        simp [SpawnPc.rank] at hrank
      have hw := hspawns hsp
      by_cases hf : o.stderrFlushed
      · have hp : .storePid ∈ is := by
          rw [t.flushed] at hf
          exact p.started (.inr (t.endsErr hf))
        simp [step, Input.isCallback, callbackHead, onMemory, callbackTail, hwat, hw, hp, hne, hpc,
          hf, hrank, UvProcess.reap, UvProcess.close, DoryProcessSpawn.exitCb_snd,
          DoryProcessSpawn.emit, DoryProcessSpawn.dispatch, DoryProcessSpawn.call,
          DoryProcessSpawn.getPid]
      · simp [step, Input.isCallback, callbackHead, onMemory, callbackTail, hwat, hw, hne, hpc, hf,
          hrank, UvProcess.reap, UvProcess.close, DoryProcessSpawn.exitCb_snd]
  | @stdoutCb o pc nread buf hr =>
      have hp : .storePid ∈ is := by
        rw [t.outReading, Bool.and_eq_true] at hr
        exact p.started (.inl hr.1)
      rw [onMemory_started (hw hp) hp, onMemory_started (by simp [hw hp]) (by simp [hp])]
      by_cases hpos : 0 < nread
      · have hneg : ¬ nread < 0 := by omega
        simp [step, Input.isCallback, callbackHead, callbackTail, hr, hpos, hneg,
          DoryProcessSpawn.stdoutCbHead_snd, DoryProcessSpawn.emit, DoryProcessSpawn.dispatch,
          DoryProcessSpawn.call, DoryProcessSpawn.getPid]
      · by_cases hneg : nread < 0 <;>
          simp [step, Input.isCallback, callbackHead, callbackTail, hr, hpos, hneg,
            DoryProcessSpawn.stdoutCbHead_snd, DoryProcessSpawn.readError, DoryProcessSpawn.kill]
  | @stderrCb o pc nread buf hr =>
      have hp : .storePid ∈ is := by
        rw [t.errReading, Bool.and_eq_true] at hr
        exact p.started (.inr hr.1)
      rw [onMemory_started (hw hp) hp, onMemory_started (by simp [hw hp]) (by simp [hp])]
      by_cases hpos : 0 < nread
      · have hneg : ¬ nread < 0 := by omega
        simp [step, Input.isCallback, callbackHead, callbackTail, hr, hpos, hneg,
          DoryProcessSpawn.stderrCbHead_snd, DoryProcessSpawn.emit, DoryProcessSpawn.dispatch,
          DoryProcessSpawn.call, DoryProcessSpawn.getPid]
      · by_cases hneg : nread < 0 <;> cases hex : o.exited <;>
          simp [step, Input.isCallback, callbackHead, callbackTail, hr, hpos, hneg, hex,
            DoryProcessSpawn.stderrCbHead_snd, DoryProcessSpawn.readError, DoryProcessSpawn.kill,
            DoryProcessSpawn.emit, DoryProcessSpawn.dispatch, DoryProcessSpawn.call,
            DoryProcessSpawn.getPid]

/-! ### The inputs under which the memory is never read -/

/-- `exit_cb` comes only with a timeout; the timer callback and `kill` come after `uv_spawn` has
written `process.pid`; the timer callback that runs a function comes after `storePid`. -/
def WrittenFirst (c : Setup F) : List Input → Prop :=
  Throughout fun pre i => (i.exits → 0 < c.timeout) ∧ (i.readsPid → pre.any Input.writes) ∧
    (i.fires → (c.listeners.eventListeners "timeout").isSome → .storePid ∈ pre)

/-- On any two memories the child does the same over the inputs `is`. -/
def MemoryIndependent (c : Setup F) (is : List Input) : Prop :=
  ∀ mem₁ mem₂ h₁ h₂ s₁ s₂, (machine F).Run (start (c.on mem₁)) h₁ s₁ →
    (machine F).Run (start (c.on mem₂)) h₂ s₂ → h₁.inputs = is → h₂.inputs = is →
    h₁.outputs = h₂.outputs

/-- A run whose inputs read nothing unwritten is a run on any memory, with the same outputs. -/
theorem run_onMemory (mem : Uninit) (r : (machine F).Run (start c) h s)
    (hw : WrittenFirst c h.inputs) :
    (machine F).Run (start (c.on mem)) h (s.onMemory mem h.inputs) := by
  revert hw
  refine r.inv (fun h s => WrittenFirst c h.inputs →
    (machine F).Run (start (c.on mem)) h (s.onMemory mem h.inputs)) ?_ ?_
  · intro _
    rw [History.inputs_nil, start_onMemory]
    exact .nil
  · intro h s s' i os r _ hs ih hw
    rw [History.inputs_append, History.inputs_cons, History.inputs_nil] at hw ⊢
    obtain ⟨hw, hx, hk, hg⟩ := Support.throughout_snoc.mp hw
    refine (ih hw).snoc trivial (step_onMemory hs (run_tracks r.run) (run_pids r.run) ?_ hk ?_)
    · rw [(run_const r.run).1]; exact hx
    · rw [run_listeners r.run]; exact hg

/-! ### The inputs under which it is read -/

/-- What a child accepts does not depend on the memory. -/
theorem run_on (mem : Uninit) (r : (machine F).Run (start c) h s) :
    ∃ k t, (machine F).Run (start (c.on mem)) k t ∧ k.inputs = h.inputs ∧ t.pc = s.pc := by
  refine r.inv (fun h s => ∃ k t, (machine F).Run (start (c.on mem)) k t ∧ k.inputs = h.inputs ∧
    t.pc = s.pc) ⟨[], _, .nil, rfl, rfl⟩ ?_
  rintro h s s' i os r - hs ⟨k, t, rt, hk, hpc⟩
  have hto : t.obj.timeout = s.obj.timeout := (run_const rt).1.trans (run_const r.run).1.symm
  have ts := run_tracks r.run
  have tt := run_tracks rt
  rw [hk] at tt
  have hcb (hi : i.isCallback) : (t.callbackHead i).isSome := by
    cases step_inv hs with
    | timerCb ha => rwa [timerCb_comes, tt.armed, ← ts.armed]
    | exitCb hw => rwa [exitCb_comes, tt.watched, ← ts.watched]
    | stdoutCb hr => rwa [stdoutCb_comes, tt.outReading, ← ts.outReading]
    | stderrCb hr => rwa [stderrCb_comes, tt.errReading, ← ts.errReading]
    | _ => cases hi
  obtain ⟨t', bs, hst, hpc'⟩ := step_accepts hs hto hcb fun _ => hpc
  exact ⟨_, t', rt.snoc trivial hst, by simp [hk], hpc' hpc⟩

/-- The step of an input in a run on any memory, with the run before it. -/
theorem run_at (mem : Uninit) (r : (machine F).Run (start c) h s) {pre : List Input}
    (hp : pre ++ [i] <+: h.inputs) : ∃ k u v bs l t, (machine F).Run (start (c.on mem)) k u ∧
      k.inputs = pre ∧ step u i = some (v, bs) ∧
      (machine F).Run (start (c.on mem)) (k ++ (i, bs) :: l) t ∧
      (k ++ (i, bs) :: l).inputs = h.inputs := by
  obtain ⟨m, t, rt, hm, -⟩ := run_on mem r
  obtain ⟨k, bs, l, u, v, rfl, hk, ru, hs, -⟩ := rt.at (hm ▸ hp)
  exact ⟨k, u, v, bs, l, t, ru, hk, hs, rt, hm⟩

/-- Until `uv_spawn` has written it, `process.pid` holds what memory held. -/
theorem unwritten_pid (r : (machine F).Run (start c) h s)
    (hw : h.inputs.any Input.writes = false) : s.obj.process.pid = c.mem.processPid := by
  revert hw
  refine r.inv (fun h s => h.inputs.any Input.writes = false →
    s.obj.process.pid = c.mem.processPid) (fun _ => rfl) ?_
  intro h s s' i os r _ hs ih hw
  simp only [History.inputs_append, History.inputs_cons, History.inputs_nil, List.any_append,
    List.any_cons, List.any_nil, Bool.or_false, Bool.or_eq_false_iff] at hw
  have hnone : i.writesPid = none := by simpa [Input.writes] using hw.2
  rw [step_processPid hs, hnone]
  exact ih hw.1

/-- What an input makes of a number it reads from the memory is in the outputs of every run, so
the input cannot come. -/
theorem reads_absurd {β : Type} (mk : Int → Uninit) (f : Act F → Option (Int × β))
    (hind : MemoryIndependent c h.inputs) (r : (machine F).Run (start c) h s)
    (hread : ∀ n, ∃ k t, (machine F).Run (start (c.on (mk n))) k t ∧ k.inputs = h.inputs ∧
      ∃ b, (n, b) ∈ k.outputs.filterMap f) : False := by
  classical
  obtain ⟨n, hn⟩ := Infinite.exists_notMem_finset
    ((h.outputs.filterMap f).map Prod.fst).toFinset
  obtain ⟨k, t, rk, hk, b, hb⟩ := hread n
  refine hn (List.mem_toFinset.mpr (List.mem_map.mpr ⟨(n, b), ?_, rfl⟩))
  rwa [hind c.mem (mk n) h k s t r rk rfl hk]

/-- The function the timer callback runs, and the pid it sees. -/
def timeoutCall? : Act F → Option (Int × Unit)
  | .invoke _ .plain pid => some (pid, ())
  | _ => none

theorem writtenFirst_of_independent (r : (machine F).Run (start c) h s)
    (hind : MemoryIndependent c h.inputs) : WrittenFirst c h.inputs := by
  intro pre i hp
  refine ⟨fun hx => ?_, fun hk => ?_, fun hg hl => ?_⟩
  · -- with `timer.loop` of another loop the timer is not closed, with the child's own it is
    rw [UInt64.pos_iff_ne_zero]
    intro ht
    obtain ⟨k, u, v, bs, l, t, rk, rfl, hs, rt, hkl⟩ :=
      run_at { c.mem with timerLoop := c.loop, timerClosing := false } r hp
    obtain ⟨k', t', rt', hk', -⟩ := run_on { c.mem with timerLoop := c.loop + 1 } r
    have hnone : closeCount k'.outputs .timer = 0 := by
      rw [closeCount_timer rt']
      simp [Setup.on, ht, Uninit.takenForTimer]
    rw [← hind _ _ _ _ _ _ rt rt' hkl hk', History.outputs_append, History.outputs_cons,
      closeCount, List.countP_append, List.countP_append, step_closes .timer hs] at hnone
    have hfirst : k.inputs.any Input.exits = false := by
      have hwat := step_exits hs hx
      rw [(run_tracks rk).watched, Bool.and_eq_true, Bool.not_eq_true'] at hwat
      exact hwat.2
    have hclose : u.obj.closesAt .timer i = true := by
      rw [DoryProcessSpawn.closesAt, untimed_timer rk ht, (run_const rk).2, hfirst, hx]
      simp [Setup.on]
    rw [hclose] at hnone
    simp at hnone
  · by_contra hw
    refine reads_absurd (fun n => { c.mem with processPid := n }) Act.signal? hind r fun n => ?_
    obtain ⟨k, u, v, bs, l, t, rk, rfl, hs, rt, hkl⟩ :=
      run_at { c.mem with processPid := n } r hp
    have hpid : u.obj.process.pid = n := unwritten_pid rk (by simpa using hw)
    have hsig : ∃ g, (n, g) ∈ bs.filterMap Act.signal? := by
      rw [step_signal hs, ← hpid]
      cases i with
      | timerCb | kill => exact ⟨_, List.mem_singleton_self _⟩
      | _ => cases hk
    obtain ⟨g, hg⟩ := hsig
    refine ⟨_, t, rt, hkl, g, ?_⟩
    rw [History.outputs_append, History.outputs_cons, List.filterMap_append, List.filterMap_append]
    exact List.mem_append_right _ (List.mem_append_left _ hg)
  · by_contra hw
    refine reads_absurd (fun n => { c.mem with pid := n }) timeoutCall? hind r fun n => ?_
    obtain ⟨k, u, v, bs, l, t, rk, rfl, hs, rt, hkl⟩ :=
      run_at { c.mem with pid := n } r hp
    have hpid : u.obj.pid = n := (run_pids rk).unstored hw
    obtain ⟨f, hf⟩ := Option.isSome_iff_exists.mp hl
    have hcall : (n, ()) ∈ bs.filterMap timeoutCall? := by
      cases step_inv hs with
      | @timerCb o pc ha =>
          have hlisten : o.listeners = c.listeners := run_listeners rk
          refine List.mem_filterMap.mpr ⟨.invoke f .plain n, ?_, rfl⟩
          simp only [DoryProcessSpawn.timerCbHead_snd, DoryProcessSpawn.emit,
            DoryProcessSpawn.dispatch, DoryProcessSpawn.timerCbHead_fst, hlisten, hf,
            DoryProcessSpawn.call, DoryProcessSpawn.getPid]
          rw [← hpid]
          simp
      | _ => cases hg
    refine ⟨_, t, rt, hkl, (), ?_⟩
    rw [History.outputs_append, History.outputs_cons, List.filterMap_append, List.filterMap_append]
    exact List.mem_append_right _ (List.mem_append_left _ hcall)

/-- **When the memory the constructor finds is not seen.**  Over the inputs of a run the child does
the same on any two memories, if and only if each input that reads a member comes after the step
that writes it. -/
theorem memory_independent_iff (r : (machine F).Run (start c) h s) :
    MemoryIndependent c h.inputs ↔ WrittenFirst c h.inputs := by
  refine ⟨writtenFirst_of_independent r, fun hw mem₁ mem₂ h₁ h₂ s₁ s₂ r₁ r₂ e₁ e₂ => ?_⟩
  rw [((run_onMemory mem₁ r hw).det r₁ e₁.symm).1.symm,
    ((run_onMemory mem₂ r hw).det r₂ e₂.symm).1.symm]

theorem memory_independent_iff_example : ∃ h s, (machine Unit).Run (start (.example 5)) h s ∧
    h.inputs = [.enter, .timerStart, .uvSpawn (.ok 7), .storePid, .readOut none, .readErr none,
      .timerCb, .stderrCb UV_EOF [], .exitCb 0 9] ∧ MemoryIndependent (.example 5) h.inputs := by
  have r := Machine.exec_run (M := machine Unit) (s := start (.example 5))
    [.enter, .timerStart, .uvSpawn (.ok 7), .storePid, .readOut none, .readErr none,
      .timerCb, .stderrCb UV_EOF [], .exitCb 0 9] rfl
  exact ⟨_, _, r, rfl, (memory_independent_iff r).mpr (by simp only [WrittenFirst]; decide)⟩

/-- **`exit_cb` reads a `timer.loop` nobody wrote.**  With `timeout == 0`, memory that holds the
address of the child's loop makes `exit_cb` close a timer there is not. -/
theorem untimed_exit : ¬ MemoryIndependent (.example 0) (spawned ++ [.exitCb 0 0]) := by
  intro hind
  have r₁ := Machine.exec_run (M := machine Unit)
    (s := start ((Setup.example 0).on (Setup.example 0).mem)) (spawned ++ [.exitCb 0 0]) rfl
  have r₂ := Machine.exec_run (M := machine Unit)
    (s := start ((Setup.example 0).on { (Setup.example 0).mem with timerLoop := 1 }))
    (spawned ++ [.exitCb 0 0]) rfl
  exact absurd (congrArg (closeCount · .timer) (hind _ _ _ _ _ _ r₁ r₂ rfl rfl)) (by decide)

end Child

end Dorypuppy
