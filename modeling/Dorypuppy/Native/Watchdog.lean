import Dorypuppy.Native.ExitJoin
import Dorypuppy.Native.FailedSpawn
import Dorypuppy.Native.Reached

/-!
# Native — the watchdog of a timed child

The timer is started before there is a child.  Its callback reads two fields that `spawn()` fills
later: `process.pid`, written by `uv_spawn`, which it signals, and `pid`, written by the step
after, which `getPid()` gives to the `timeout` function.  An expiry before those steps finds
whatever the memory held, and there is no second one: the child then runs without a watchdog.

`watchdog_iff`: a timed child whose `exit_cb` has not run has its watchdog, armed or fired at this
child, exactly in the runs whose expiry comes after both fields were written (or finds the child's
pid in them by chance).

`timeout_once`: expiry and exit compete for the timer, and the one that comes second finds it
closed.
-/

namespace Dorypuppy

open Support (Machine History Throughout)

variable {F : Type}

namespace Child

variable {s s' : Child F} {i : Input} {as : List (Act F)} {c : Setup F}
  {h : History Input (Act F)}

/-- A run that comes to `uv_spawn` starts before it. -/
theorem run_spawns (r : (machine F).Run s h s') :
    s.pc.rank ≤ s'.pc.rank ∧ (h.inputs.any Input.spawns → s.pc.rank ≤ 2) := by
  refine r.inv (fun h s' => s.pc.rank ≤ s'.pc.rank ∧ (h.inputs.any Input.spawns → s.pc.rank ≤ 2))
    ⟨le_rfl, by simp⟩ ?_
  rintro h t t' i os - - hs ⟨hle, hsp⟩
  refine ⟨hle.trans (step_rank hs), fun hany => ?_⟩
  simp only [History.inputs_append, History.inputs_cons, History.inputs_nil, List.any_append,
    List.any_cons, List.any_nil, Bool.or_false, Bool.or_eq_true] at hany
  rcases hany with hany | hi
  · exact hsp hany
  · exact hle.trans (step_spawns hs hi).1.le

/-! ### The expiry -/

/-- The timer callback has called `emit("timeout")` while `getPid()` was `pid`, and has sent
SIGKILL to `pid`. -/
def TimedOut (c : Setup F) (h : History Input (Act F)) (s : Child F) (pid : Int) : Prop :=
  ∃ h₁ s₁ as s₂ h₂, h = h₁ ++ (Input.timerCb, as) :: h₂ ∧
    (machine F).Run (start c) h₁ s₁ ∧ step s₁ .timerCb = some (s₂, as) ∧
    (machine F).Run s₂ h₂ s ∧ s₁.obj.getPid = pid ∧ .emit "timeout" .plain ∈ as ∧
    .uv (.processKill pid SIGKILL) ∈ as

/-- After the inputs `pre`, `pid` and `process.pid` hold the pid of the child: they were written,
or held it by chance. -/
def PidsHold (c : Setup F) (pid : Int) (pre : List Input) : Prop :=
  (.storePid ∈ pre ∨ c.mem.pid = pid) ∧ (pre.any Input.spawns ∨ c.mem.processPid = pid)

/-- The timer expires only when `pid` and `process.pid` hold the pid of the child. -/
def PidKnown (c : Setup F) (pid : Int) : List Input → Prop :=
  Throughout fun pre i => i.fires → PidsHold c pid pre

theorem fires_once (r : (machine F).Run (start c) h s) :
    h.inputs.countP Input.fires = (h.inputs.any Input.fires).toNat :=
  run_once (fun hs t hi => by
    have := step_fires hs hi
    rw [t.armed] at this
    simp_all) r

/-- Inside a run whose child gets `pid`, the two fields hold it just when they were written. -/
theorem pids_iff {s₁ s₂ : Child F} {h₁ h₂ : History Input (Act F)} {pid : Pid}
    (r₁ : (machine F).Run (start c) h₁ s₁) (hs : step s₁ .timerCb = some (s₂, as))
    (r₂ : (machine F).Run s₂ h₂ s)
    (hp : .uvSpawn (.ok pid) ∈ (h₁ ++ (Input.timerCb, as) :: h₂).inputs) :
    s₁.obj.pid = pid ∧ s₁.obj.process.pid = pid ↔ PidsHold c pid h₁.inputs := by
  have p := run_pids r₁
  simp only [History.inputs_append, History.inputs_cons, List.mem_append, List.mem_cons,
    reduceCtorEq, false_or] at hp
  by_cases hsp : h₁.inputs.any Input.spawns
  · -- `uv_spawn` returned before, and it is the one of this child
    have hmem : .uvSpawn (.ok pid) ∈ h₁.inputs := by
      refine hp.resolve_right fun hmem => ?_
      have h2 := (run_spawns r₂).2 (List.any_eq_true.mpr ⟨_, hmem, rfl⟩)
      have h3 := ((run_tracks r₁).spawns hsp).trans (step_rank hs)
      omega
    have hproc := p.spawned pid hmem
    by_cases hst : .storePid ∈ h₁.inputs
    · simp [PidsHold, hsp, hst, hproc, (p.stored hst).2]
    · simp [PidsHold, hsp, hst, hproc, p.unstored hst]
  · have hmem : .uvSpawn (.ok pid) ∈ h₂.inputs := by
      refine hp.resolve_left fun hmem => hsp (List.any_eq_true.mpr ⟨_, hmem, rfl⟩)
    have h2 := (run_spawns r₂).2 (List.any_eq_true.mpr ⟨_, hmem, rfl⟩)
    have hproc := p.unspawned ((step_rank hs).trans h2)
    have hst : .storePid ∉ h₁.inputs := fun hst => hsp (p.stored hst).1
    simp [PidsHold, hsp, hst, hproc, p.unstored hst]

/-- The timer callback calls `emit("timeout")` and signals `process.pid`. -/
theorem timerCb_acts (hs : step s .timerCb = some (s', as)) :
    .emit "timeout" .plain ∈ as ∧
      ∀ pid, .uv (.processKill pid SIGKILL) ∈ as ↔ s.obj.process.pid = pid := by
  constructor
  · cases step_inv hs with
    | timerCb =>
        rw [DoryProcessSpawn.timerCbHead_snd]
        simp [DoryProcessSpawn.emit]
  · intro pid
    have hsig : ((pid, SIGKILL) : Int × Int) ∈ as.filterMap Act.signal? ↔
        s.obj.process.pid = pid := by
      rw [step_signal hs]
      simp [DoryProcessSpawn.signalsAt, eq_comm]
    rw [← hsig, List.mem_filterMap]
    refine ⟨fun hmem => ⟨_, hmem, rfl⟩, ?_⟩
    rintro ⟨a, ha, hsa⟩
    unfold Act.signal? at hsa
    split at hsa
    · cases hsa; exact ha
    · cases hsa

/-- A timer that fired at the child found its pid. -/
theorem TimedOut.known (r : (machine F).Run (start c) h s) (pid : Pid)
    (hp : .uvSpawn (.ok pid) ∈ h.inputs) (ht : TimedOut c h s pid) : PidKnown c pid h.inputs := by
  have honce : h.inputs.countP Input.fires ≤ 1 := fires_once r ▸ Bool.toNat_le _
  obtain ⟨h₁, s₁, as, s₂, h₂, rfl, r₁, hs, r₂, hpid, -, hkill⟩ := ht
  rw [History.inputs_append, History.inputs_cons] at honce ⊢
  refine (Support.throughout_once rfl honce).mpr ?_
  exact (pids_iff r₁ hs r₂ hp).mp ⟨hpid, ((timerCb_acts hs).2 _).mp hkill⟩

/-- **When a timed start has its watchdog.**  In every run of a child with a timeout whose `spawn()`
has returned 0 and whose `exit_cb` has not run, the timer is armed or has fired at this child, if
and only if it did not expire before `spawn()` had stored the pid (or found it there by chance). -/
theorem watchdog_iff (r : (machine F).Run (start c) h s) (ht : 0 < c.timeout)
    (hpc : s.pc = .returned 0) (hx : h.inputs.any Input.exits = false) (pid : Pid)
    (hp : .uvSpawn (.ok pid) ∈ h.inputs) :
    (s.obj.timer.armed ∨ TimedOut c h s pid) ↔ PidKnown c pid h.inputs := by
  have harms := run_arms r ht (by rw [hpc]; simp [SpawnPc.rank])
  have harmed : s.obj.timer.armed = !h.inputs.any Input.fires := by
    rw [(run_tracks r).armed, harms, hx, Bool.or_false, Bool.true_and]
  cases hf : h.inputs.any Input.fires with
  | false =>
      rw [hf] at harmed
      refine iff_of_true (.inl harmed) fun pre i hpre hi => ?_
      have : i ∈ h.inputs := hpre.subset (by simp)
      rw [List.any_eq_false] at hf
      exact absurd hi (hf i this)
  | true =>
      rw [hf] at harmed
      rw [harmed]
      simp only [Bool.not_true, Bool.false_eq_true, false_or]
      constructor
      · exact TimedOut.known r pid hp
      · intro hk
        obtain ⟨i, hi, hfi⟩ := List.any_eq_true.mp hf
        obtain ⟨⟨j, as⟩, hmem, rfl⟩ := List.mem_map.mp hi
        obtain rfl : j = .timerCb := by cases j <;> first | rfl | cases hfi
        obtain ⟨h₁, h₂, rfl⟩ := List.append_of_mem hmem
        obtain ⟨s₁, r₁, r₂⟩ := r.split
        obtain ⟨s₂, r₂, r₃⟩ := Machine.RunWhere.split (h := [(Input.timerCb, as)]) r₂
        have hs : step s₁ .timerCb = some (s₂, as) := Machine.Run.of_one r₂
        have honce := (fires_once r).trans_le (Bool.toNat_le _)
        rw [History.inputs_append, History.inputs_cons] at honce hk
        have := (Support.throughout_once rfl honce).mp hk
        obtain ⟨hpid, hproc⟩ := (pids_iff r₁ hs r₃ hp).mpr this
        exact ⟨h₁, s₁, as, s₂, h₂, rfl, r₁, hs, r₃, hpid, (timerCb_acts hs).1,
          ((timerCb_acts hs).2 _).mpr hproc⟩

theorem watchdog_iff_example : ∃ h s, (machine Unit).Run (start (.example 5)) h s ∧
    h.inputs = [.enter, .timerStart, .uvSpawn (.ok 7), .storePid, .timerCb,
      .readOut none, .readErr none] ∧
    (s.obj.timer.armed ∨ TimedOut (.example 5) h s 7) := by
  have r := Machine.exec_run (M := machine Unit) (s := start (.example 5))
    [.enter, .timerStart, .uvSpawn (.ok 7), .storePid, .timerCb, .readOut none,
      .readErr none] rfl
  refine ⟨_, _, r, rfl, (watchdog_iff r (by decide) rfl rfl 7 ?_).mpr ?_⟩
  · decide
  · simp only [PidKnown, PidsHold]
    decide

/-- **An early expiry leaves no watchdog.**  The timer expires while `uv_spawn` has not returned
yet; the child that it then starts has neither an armed timer nor a timeout of its own. -/
theorem early_expiry : ∃ h s, (machine Unit).Run (start (.example 5)) h s ∧
    h.inputs = [.enter, .timerStart, .timerCb, .uvSpawn (.ok 7), .storePid,
      .readOut none, .readErr none] ∧
    s.pc = .returned 0 ∧ h.inputs.any Input.exits = false ∧
    ¬ (s.obj.timer.armed ∨ TimedOut (.example 5) h s 7) := by
  have r := Machine.exec_run (M := machine Unit) (s := start (.example 5))
    [.enter, .timerStart, .timerCb, .uvSpawn (.ok 7), .storePid, .readOut none,
      .readErr none] rfl
  refine ⟨_, _, r, rfl, rfl, rfl, ?_⟩
  rintro (ha | ht)
  · cases ha
  · have hk := TimedOut.known r 7 (by decide) ht
    simp only [PidKnown, PidsHold] at hk
    revert hk
    decide

/-! ### The race of the expiry and the exit -/

/-- A call `emit("timeout")`. -/
def isTimeout : Act F → Bool
  | .emit name .plain => name = "timeout"
  | _ => false

@[simp] theorem emit_isTimeout (o : DoryProcessSpawn F) (name : String) (args : Args) :
    (o.emit name args).countP isTimeout = [(.emit name args : Act F)].countP isTimeout :=
  o.emit_countP name _ (fun a h => by cases a <;> first | rfl | cases h) args

@[simp] theorem readError_isTimeout (o : DoryProcessSpawn F) (nread : Int) :
    (o.readError nread).countP isTimeout = 0 := by
  simp only [DoryProcessSpawn.readError]
  split <;> rfl

/-- The timer callback calls `emit("timeout")`, and nothing else does. -/
theorem step_timeout (hs : step s i = some (s', as)) : as.countP isTimeout = i.fires.toNat := by
  cases step_inv hs with
  | timerCb =>
      rw [DoryProcessSpawn.timerCbHead_snd]
      split <;> simp [Input.fires, isTimeout, DoryProcessSpawn.timerCbTail]
  | exitCb =>
      rw [DoryProcessSpawn.exitCb_snd]
      split <;> split <;> simp [Input.fires, isTimeout]
  | stdoutCb =>
      rw [DoryProcessSpawn.stdoutCbHead_snd]
      split
      · simp [Input.fires, isTimeout, DoryProcessSpawn.readCbTail]
      · split <;> simp [Input.fires, isTimeout, DoryProcessSpawn.readCbTail]
  | stderrCb =>
      rw [DoryProcessSpawn.stderrCbHead_snd]
      split
      · simp [Input.fires, isTimeout, DoryProcessSpawn.readCbTail]
      · split
        · split <;> simp [Input.fires, isTimeout, DoryProcessSpawn.readCbTail]
        · simp [Input.fires, isTimeout, DoryProcessSpawn.readCbTail]
  | _ => rfl

theorem run_timeout (r : (machine F).Run (start c) h s) :
    h.outputs.countP isTimeout = h.inputs.countP Input.fires := by
  refine r.inv (fun h _ => h.outputs.countP isTimeout = h.inputs.countP Input.fires) rfl ?_
  intro h s s' i os _ _ hs ih
  simp only [History.inputs_append, History.outputs_append, History.inputs_cons,
    History.inputs_nil, History.outputs_cons, History.outputs_nil, List.append_nil,
    List.countP_append, ih, step_timeout hs, List.countP_singleton]
  cases i.fires <;> rfl

/-- The step is the timer callback: it calls `emit("timeout")` once, and after it, it sends one
signal, SIGKILL to `pid`. -/
def TimesOut (pid : Int) (i : Input) (as : List (Act F)) : Prop :=
  i = .timerCb ∧ ∃ pre post, as = pre ++ .emit "timeout" .plain :: post ∧
    pre.countP isTimeout = 0 ∧ post.countP isTimeout = 0 ∧
    pre.filterMap Act.signal? = [] ∧ post.filterMap Act.signal? = [(pid, SIGKILL)]

theorem timerCb_timesOut (hs : step s .timerCb = some (s', as)) :
    TimesOut s.obj.process.pid .timerCb as := by
  cases step_inv hs with
  | @timerCb o pc ha =>
      rw [DoryProcessSpawn.timerCbHead_snd, DoryProcessSpawn.emit]
      have hcount := o.timerCbHead.1.dispatch_countP "timeout" isTimeout
        (fun a h => by cases a <;> first | rfl | cases h) .plain
      have hsig := o.timerCbHead.1.dispatch_filterMap "timeout" Act.signal?
        (fun a h => by cases a <;> first | rfl | cases h) .plain
      refine ⟨rfl, if o.timer.closing then [] else [.uv (.close .timer)],
        o.timerCbHead.1.dispatch "timeout" .plain ++ o.timerCbHead.1.timerCbTail, by simp, ?_,
        ?_, ?_, ?_⟩
      · split <;> simp [isTimeout]
      · rw [List.countP_append, hcount]
        rfl
      · split <;> simp
      · rw [List.filterMap_append, hsig]
        simp [DoryProcessSpawn.timerCbTail, Act.signal?]

/-- **The timeout comes once, and never late.**  In every run of a child that `uv_spawn` has
started, `emit("timeout")` is called at most once.  Each step that follows and calls it, or is the
timer callback, does both: it comes before `exit_cb` and the exit event, and after the call it
sends one signal, SIGKILL to the child.  Once `exit_cb` has run the timer does not expire. -/
theorem timeout_once {k : History Input (Act F)} {t : Child F} {pid : Pid}
    (r : (machine F).Run (start c) h s) (hp : .uvSpawn (.ok pid) ∈ h.inputs)
    (r' : (machine F).Run s k t) :
    (h ++ k).outputs.countP isTimeout ≤ 1 ∧
      (∀ k₁ i as k₂, k = k₁ ++ (i, as) :: k₂ → i = .timerCb ∨ as.any isTimeout →
        (h ++ k₁).inputs.any Input.exits = false ∧ (h ++ k₁).outputs.filterMap Act.exit? = [] ∧
          TimesOut pid i as) ∧
      ((h ++ k).inputs.any Input.exits → step t .timerCb = none) := by
  have r₀ := r.trans r'
  refine ⟨?_, ?_, fun hx => ?_⟩
  · rw [run_timeout r₀, fires_once r₀]
    exact Bool.toNat_le _
  · rintro k₁ i as k₂ rfl hi
    obtain ⟨s₁, r₁, r₂⟩ := r'.split
    obtain ⟨s₂, r₂, -⟩ := Machine.RunWhere.split (h := [(i, as)]) r₂
    have hs : step s₁ i = some (s₂, as) := Machine.Run.of_one r₂
    -- the step calls `emit("timeout")`, so it is the timer callback
    have hfires : i.fires = true := by
      rcases hi with rfl | hi
      · rfl
      · rw [List.any_eq_true, ← List.countP_pos_iff, step_timeout hs] at hi
        cases hf : i.fires with
        | false => rw [hf] at hi; cases hi
        | true => rfl
    obtain rfl : i = .timerCb := by cases i <;> first | rfl | cases hfires
    have t₁ := run_tracks (r.trans r₁)
    have harmed := step_fires hs rfl
    rw [t₁.armed, Bool.and_eq_true, Bool.not_eq_true', Bool.or_eq_false_iff] at harmed
    obtain ⟨-, -, hx⟩ := harmed
    refine ⟨hx, ?_, ?_⟩
    · have hlen := run_exit_length (r.trans r₁)
      rw [hx, if_neg (by simp)] at hlen
      exact List.length_eq_zero_iff.mp hlen
    · have hproc := (run_pids (r.trans r₁)).spawned pid <| by
        rw [History.inputs_append]
        exact List.mem_append_left _ hp
      exact hproc ▸ timerCb_timesOut hs
  · by_contra hs
    obtain ⟨⟨t', as⟩, hs⟩ := Option.ne_none_iff_exists'.mp hs
    have harmed := step_fires hs rfl
    rw [(run_tracks r₀).armed, hx] at harmed
    simp at harmed

/-- A read error, the expiry, and then the exit of the child. -/
def expires : List Input := [.stdoutCb (-5) [], .timerCb, .exitCb 0 9, .stderrCb UV_EOF []]

theorem timeout_once_example : ∃ h s k t, (machine Unit).Run (start (.example 5)) h s ∧
    h.inputs = [.enter, .timerStart, .uvSpawn (.ok 7), .storePid, .readOut none, .readErr none] ∧
    s.pc = .returned 0 ∧ (machine Unit).Run s k t ∧ k.inputs = expires ∧
    (h ++ k).outputs.countP isTimeout ≤ 1 ∧ step t .timerCb = none := by
  have r := Machine.exec_run (M := machine Unit) (s := start (.example 5))
    [.enter, .timerStart, .uvSpawn (.ok 7), .storePid, .readOut none, .readErr none] rfl
  refine ⟨_, _, _, _, r, rfl, rfl, Machine.exec_run expires rfl, rfl, ?_⟩
  have once := timeout_once r (show Input.uvSpawn (.ok 7) ∈ _ by decide)
    (Machine.exec_run expires rfl)
  exact ⟨once.1, once.2.2 rfl⟩

end Child

end Dorypuppy
