import Dorypuppy.Native.Child

/-!
# Native — the inputs so far determine the object

After any run of a child, each flag of the object and each armed source is a function of the
inputs seen so far (`Tracks`): `exited` says that `exit_cb` ran, a stream reads from its
`uv_read_start` to its end, the timer is armed from `uv_timer_start` to the first of its expiry and
`exit_cb`.  Every property of a child's runs is then one of its inputs and its outputs.
-/

namespace Dorypuppy

open Support (Machine History)

/-! ### What an input is -/

namespace Input

/-- `uv_timer_start` was called. -/
def arms : Input → Bool
  | .timerStart => true
  | _ => false

/-- `uv_spawn` returned 0. -/
def spawns : Input → Bool
  | .uvSpawn r => r.isOk
  | _ => false

/-- The pid `uv_spawn` writes to the process handle, once there is a process. -/
def writesPid : Input → Option Int
  | .uvSpawn (.ok pid) | .uvSpawn (.execFailed _ pid) => some pid
  | _ => none

/-- `uv_read_start` on `pipeOut` returned 0. -/
def startsOut : Input → Bool
  | .readOut none => true
  | _ => false

/-- `uv_read_start` on `pipeErr` returned 0. -/
def startsErr : Input → Bool
  | .readErr none => true
  | _ => false

/-- The timer expired. -/
def fires : Input → Bool
  | .timerCb => true
  | _ => false

/-- `exit_cb` ran. -/
def exits : Input → Bool
  | .exitCb _ _ => true
  | _ => false

/-- The read callback of `pipeOut` saw `nread < 0`. -/
def endsOut : Input → Bool
  | .stdoutCb nread _ => nread < 0
  | _ => false

/-- The read callback of `pipeOut` saw data. -/
def bringsOut : Input → Bool
  | .stdoutCb nread _ => 0 < nread
  | _ => false

/-- The read callback of `pipeErr` saw `nread < 0`. -/
def endsErr : Input → Bool
  | .stderrCb nread _ => nread < 0
  | _ => false

end Input

/-- How far `spawn()` has come. -/
def SpawnPc.rank : SpawnPc → Nat
  | .enter => 0
  | .timerStart => 1
  | .uvSpawn => 2
  | .storePid => 3
  | .readOut => 4
  | .readErr => 5
  | .killReturn _ => 6
  | .returned _ => 7

theorem SpawnPc.rank_le (pc : SpawnPc) : pc.rank ≤ 7 := by
  cases pc <;> simp [SpawnPc.rank]

namespace Child

variable {F : Type}

variable {s s' : Child F} {i : Input} {is : List Input} {as : List (Act F)}

/-! ### What one step changes -/

theorem step_rank (h : step s i = some (s', as)) : s.pc.rank ≤ s'.pc.rank := by
  cases step_inv h <;> simp [SpawnPc.rank]

theorem spawnStep_rank {o : DoryProcessSpawn F} {pc : SpawnPc}
    (h : spawnStep o pc i = some (s', as)) : pc.rank < s'.pc.rank := by
  cases spawnStep_inv h with
  | timerCb | exitCb | stdoutCb | stderrCb | kill => simp [spawnStep] at h
  | _ => simp [SpawnPc.rank]

/-- A callback writes no pid. -/
theorem callbackHead_noPid (h : s.callbackHead i = some (s', as)) (pid : Int) :
    i.writesPid ≠ some pid := by
  cases i with
  | timerCb | exitCb | stdoutCb | stderrCb => nofun
  | _ => cases h

theorem step_arms (h : step s i = some (s', as)) (hi : i.arms) :
    s.pc.rank = 1 ∧ s'.pc.rank = 2 := by
  cases step_inv h <;> first | exact ⟨rfl, rfl⟩ | cases hi

theorem step_spawns (h : step s i = some (s', as)) (hi : i.spawns) :
    s.pc.rank = 2 ∧ s'.pc.rank = 3 := by
  cases step_inv h with
  | uvSpawnError hr => exact absurd (hi.symm.trans hr) (by simp)
  | _ => first | exact ⟨rfl, rfl⟩ | cases hi

theorem step_startsOut (h : step s i = some (s', as)) (hi : i.startsOut) :
    s.pc.rank = 4 ∧ s'.pc.rank = 5 := by
  cases step_inv h <;> first | exact ⟨rfl, rfl⟩ | cases hi

theorem step_startsErr (h : step s i = some (s', as)) (hi : i.startsErr) :
    s.pc.rank = 5 ∧ s'.pc.rank = 7 := by
  cases step_inv h <;> first | exact ⟨rfl, rfl⟩ | cases hi

theorem step_fires (h : step s i = some (s', as)) (hi : i.fires) : s.obj.timer.armed = true := by
  cases step_inv h <;> first | assumption | cases hi

theorem step_exits (h : step s i = some (s', as)) (hi : i.exits) :
    s.obj.process.watched = true := by
  cases step_inv h <;> first | assumption | cases hi

theorem step_endsOut (h : step s i = some (s', as)) (hi : i.endsOut) :
    s.obj.pipeOut.reading = true := by
  cases step_inv h <;> first | assumption | cases hi

theorem step_endsErr (h : step s i = some (s', as)) (hi : i.endsErr) :
    s.obj.pipeErr.reading = true := by
  cases step_inv h <;> first | assumption | cases hi

theorem step_exited (h : step s i = some (s', as)) :
    s'.obj.exited = (s.obj.exited || i.exits) := by
  cases step_inv h <;> simp [Input.exits]
  all_goals split <;> rfl

theorem step_flushed (h : step s i = some (s', as)) :
    s'.obj.stderrFlushed = (s.obj.stderrFlushed || i.endsErr) := by
  cases step_inv h <;> simp [Input.endsErr]
  all_goals split <;> simp [*]

theorem step_watched (h : step s i = some (s', as)) :
    s'.obj.process.watched = (i.spawns || (s.obj.process.watched && !i.exits)) := by
  cases step_inv h with
  | @uvSpawnError o r hr =>
      cases r with
      | ok pid => cases hr
      | forkFailed | execFailed =>
          simp [Input.spawns, Input.exits, UvProcess.spawn, UvSpawnResult.isOk]
  | stdoutCb | stderrCb => simp [Input.spawns, Input.exits]; split <;> rfl
  | _ => simp [Input.spawns, Input.exits, UvProcess.spawn, UvSpawnResult.isOk]

theorem step_outReading (h : step s i = some (s', as)) :
    s'.obj.pipeOut.reading = (i.startsOut || (s.obj.pipeOut.reading && !i.endsOut)) := by
  cases step_inv h <;> simp [Input.startsOut, Input.endsOut]
  all_goals split <;> simp [*]

theorem step_errReading (h : step s i = some (s', as)) :
    s'.obj.pipeErr.reading = (i.startsErr || (s.obj.pipeErr.reading && !i.endsErr)) := by
  cases step_inv h <;> simp [Input.startsErr, Input.endsErr]
  all_goals split <;> simp [*]

theorem step_outClosing (h : step s i = some (s', as)) :
    s'.obj.pipeOut.closing = (s.obj.pipeOut.closing || i.endsOut) := by
  cases step_inv h <;> simp [Input.endsOut]
  all_goals split <;> simp [*]

theorem step_errClosing (h : step s i = some (s', as)) :
    s'.obj.pipeErr.closing = (s.obj.pipeErr.closing || i.endsErr) := by
  cases step_inv h <;> simp [Input.endsErr]
  all_goals split <;> simp [*]

/-- `uv_spawn` initialises the process handle, `exit_cb` closes it. -/
theorem step_procClosing (h : step s i = some (s', as)) :
    (i.spawns → s'.obj.process.closing = false) ∧
      (3 ≤ s.pc.rank → s'.obj.process.closing = (s.obj.process.closing || i.exits)) := by
  cases step_inv h with
  | uvSpawn | uvSpawnError => simp_all [SpawnPc.rank, UvProcess.spawn, Input.spawns]
  | stdoutCb | stderrCb => simp [Input.spawns, Input.exits]; split <;> exact fun _ => rfl
  | _ => simp [Input.spawns, Input.exits]

theorem step_processPid (h : step s i = some (s', as)) :
    s'.obj.process.pid = i.writesPid.getD s.obj.process.pid := by
  cases step_inv h with
  | @uvSpawnError o r hr => cases r <;> rfl
  | stdoutCb => rw [DoryProcessSpawn.stdoutCbHead_fst]; split <;> rfl
  | stderrCb => rw [DoryProcessSpawn.stderrCbHead_fst]; split <;> rfl
  | timerCb => rw [DoryProcessSpawn.timerCbHead_fst]; rfl
  | exitCb => rw [DoryProcessSpawn.exitCb_fst]; rfl
  | _ => rfl

/-- `pid` is written by `storePid` only. -/
theorem step_pid (h : step s i = some (s', as)) :
    s'.obj.pid = if i = .storePid then s.obj.process.pid else s.obj.pid := by
  cases step_inv h with
  | stdoutCb => rw [DoryProcessSpawn.stdoutCbHead_fst]; split <;> rfl
  | stderrCb => rw [DoryProcessSpawn.stderrCbHead_fst]; split <;> rfl
  | timerCb => rw [DoryProcessSpawn.timerCbHead_fst]; rfl
  | exitCb => rw [DoryProcessSpawn.exitCb_fst]; rfl
  | _ => rfl

theorem step_const (h : step s i = some (s', as)) :
    s'.obj.timeout = s.obj.timeout ∧ s'.obj.uvLoop = s.obj.uvLoop ∧
      s'.obj.listeners = s.obj.listeners := by
  cases step_inv h with
  | stdoutCb | stderrCb => simp only [DoryProcessSpawn.stdoutCbHead_fst,
      DoryProcessSpawn.stderrCbHead_fst]; split <;> exact ⟨rfl, rfl, rfl⟩
  | _ => simp

/-- `spawn()` initialises the timer in its first step, and only with a timeout. -/
theorem step_enter (h : step s i = some (s', as)) (hr : s.pc.rank = 0) (hr' : s'.pc.rank ≠ 0) :
    (s'.pc.rank = 1 → 0 < s.obj.timeout) ∧
      (0 < s.obj.timeout → s'.obj.timer = s.obj.timer.init s.obj.uvLoop) := by
  cases step_inv h with
  | enterTimed ht => exact ⟨fun _ => ht, fun _ => rfl⟩
  | @enterUntimed o ht =>
      refine ⟨fun e => ?_, fun e => ?_⟩
      · simp [SpawnPc.rank] at e
      · simp [ht] at e
  | timerCb | exitCb | stdoutCb | stderrCb | kill => exact absurd hr hr'
  | _ => cases hr

/-- Once initialised, the timer is closed by its expiry and by `exit_cb`. -/
theorem step_timer (h : step s i = some (s', as)) (hr : s.pc.rank ≠ 0)
    (hl : s.obj.timer.loop = s.obj.uvLoop) :
    s'.obj.timer.loop = s'.obj.uvLoop ∧
      s'.obj.timer.closing = (s.obj.timer.closing || (i.fires || i.exits)) := by
  cases step_inv h with
  | enterTimed | enterUntimed => exact absurd rfl hr
  | timerCb => simp [Input.fires]; split <;> simp_all
  | exitCb => simp [Input.exits]; split <;> simp_all
  | stdoutCb | stderrCb => simp [Input.fires, Input.exits]; split <;> simp_all
  | _ => simp_all [Input.fires, Input.exits]

/-- The timer leaves the loop when it expires, and when `exit_cb` clears it. -/
theorem step_armed (h : step s i = some (s', as)) (h₀ : s.pc.rank = 0 → s.obj.timer.armed = false)
    (hl : s.obj.timer.armed → s.obj.timer.loop = s.obj.uvLoop ∧ s.obj.timer.closing = false) :
    s'.obj.timer.armed = (i.arms || (s.obj.timer.armed && !(i.fires || i.exits))) := by
  cases step_inv h with
  | enterTimed => simp_all [Input.arms, Input.fires, Input.exits, SpawnPc.rank]
  | @exitCb o =>
      simp only [Input.arms, Input.fires, Input.exits, DoryProcessSpawn.exitCb_fst]
      cases ha : o.timer.armed with
      | false => split <;> simp [ha]
      | true => rw [if_pos (hl ha)]; simp
  | timerCb => simp [Input.arms, Input.fires]; split <;> simp
  | stdoutCb | stderrCb => simp [Input.arms, Input.fires, Input.exits]; split <;> rfl
  | _ => simp [Input.arms, Input.fires, Input.exits]

/-! ### The invariant -/

/-- `is` are the inputs that led to `s`.  The first nine say which steps come before which, the
rest what the object holds. -/
structure Tracks (is : List Input) (s : Child F) : Prop where
  arms : is.any Input.arms → 2 ≤ s.pc.rank
  spawns : is.any Input.spawns → 3 ≤ s.pc.rank
  startsOut : is.any Input.startsOut → 5 ≤ s.pc.rank
  startsErr : is.any Input.startsErr → 7 ≤ s.pc.rank
  fires : is.any Input.fires → is.any Input.arms
  exits : is.any Input.exits → is.any Input.spawns
  endsOut : is.any Input.endsOut → is.any Input.startsOut
  endsErr : is.any Input.endsErr → is.any Input.startsErr
  timed : is.any Input.arms ∨ s.pc.rank = 1 → 0 < s.obj.timeout
  exited : s.obj.exited = is.any Input.exits
  flushed : s.obj.stderrFlushed = is.any Input.endsErr
  watched : s.obj.process.watched = (is.any Input.spawns && !is.any Input.exits)
  outReading : s.obj.pipeOut.reading = (is.any Input.startsOut && !is.any Input.endsOut)
  errReading : s.obj.pipeErr.reading = (is.any Input.startsErr && !is.any Input.endsErr)
  outClosing : s.obj.pipeOut.closing = is.any Input.endsOut
  errClosing : s.obj.pipeErr.closing = is.any Input.endsErr
  procClosing : is.any Input.spawns → s.obj.process.closing = is.any Input.exits
  armed : s.obj.timer.armed =
    (is.any Input.arms && !(is.any Input.fires || is.any Input.exits))
  timer : 0 < s.obj.timeout → 1 ≤ s.pc.rank → s.obj.timer.loop = s.obj.uvLoop ∧
    s.obj.timer.closing = (is.any Input.fires || is.any Input.exits)

/-- An armed timer is initialised and open. -/
theorem Tracks.armedLoop (t : Tracks is s) (ha : s.obj.timer.armed) :
    s.obj.timer.loop = s.obj.uvLoop ∧ s.obj.timer.closing = false := by
  rw [t.armed, Bool.and_eq_true, Bool.not_eq_true'] at ha
  have := t.arms ha.1
  obtain ⟨hl, hc⟩ := t.timer (t.timed (.inl ha.1)) (by omega)
  exact ⟨hl, hc.trans ha.2⟩

/-- What comes after a step of `spawn()` has not come before it. -/
theorem not_yet {p q : Input → Bool} {n : Nat} (hpq : is.any p → is.any q)
    (hq : is.any q → n ≤ s.pc.rank) (hn : s.pc.rank < n) : is.any p = false := by
  by_contra hp
  exact absurd (hq (hpq (by simpa using hp))) (by omega)

theorem start_tracks (c : Setup F) : Tracks [] (start c) := by
  constructor <;> simp [start, DoryProcessSpawn.new, SpawnPc.rank]

/-- A source that is armed once, and not again once it is over. -/
theorem source_snoc {on on' a A b B : Bool} (h : on = (A && !B)) (h' : on' = (a || (on && !b)))
    (hB : a = true → B = false) (hb : a = true → b = false) :
    on' = ((A || a) && !(B || b)) := by
  subst h h'
  cases a with
  | false => cases A <;> cases B <;> simp
  | true => simp [hB, hb]

theorem step_tracks (h : step s i = some (s', as)) (t : Tracks is s) :
    Tracks (is ++ [i]) s' := by
  have hr := step_rank h
  have h₀ : s.pc.rank = 0 → s.obj.timer.armed = false := fun e => by
    rw [t.armed, not_yet id t.arms (by omega)]; rfl
  have any_snoc (p : Input → Bool) : (is ++ [i]).any p = (is.any p || p i) := by simp
  have comm (A a B b : Bool) : ((A || a) || (B || b)) = ((A || B) || (a || b)) := by ac_rfl
  constructor <;> try simp only [any_snoc, Bool.or_eq_true]
  case arms =>
    rintro (hs | hi)
    · exact (t.arms hs).trans hr
    · exact (step_arms h hi).2.ge
  case spawns =>
    rintro (hs | hi)
    · exact (t.spawns hs).trans hr
    · exact (step_spawns h hi).2.ge
  case startsOut =>
    rintro (hs | hi)
    · exact (t.startsOut hs).trans hr
    · exact (step_startsOut h hi).2.ge
  case startsErr =>
    rintro (hs | hi)
    · exact (t.startsErr hs).trans hr
    · exact (step_startsErr h hi).2.ge
  case fires =>
    rintro (hs | hi)
    · exact .inl (t.fires hs)
    · have := step_fires h hi
      rw [t.armed] at this
      exact .inl (by simp_all)
  case exits =>
    rintro (hs | hi)
    · exact .inl (t.exits hs)
    · have := step_exits h hi
      rw [t.watched] at this
      exact .inl (by simp_all)
  case endsOut =>
    rintro (hs | hi)
    · exact .inl (t.endsOut hs)
    · have := step_endsOut h hi
      rw [t.outReading] at this
      exact .inl (by simp_all)
  case endsErr =>
    rintro (hs | hi)
    · exact .inl (t.endsErr hs)
    · have := step_endsErr h hi
      rw [t.errReading] at this
      exact .inl (by simp_all)
  case timed =>
    rw [(step_const h).1]
    rintro ((hs | hi) | hr')
    · exact t.timed (.inl hs)
    · exact t.timed (.inr (step_arms h hi).1)
    · rcases Nat.eq_zero_or_pos s.pc.rank with e | e
      · exact (step_enter h e (by omega)).1 hr'
      · exact t.timed (.inr (by omega))
  case exited => rw [step_exited h, t.exited]
  case flushed => rw [step_flushed h, t.flushed]
  case outClosing => rw [step_outClosing h, t.outClosing]
  case errClosing => rw [step_errClosing h, t.errClosing]
  case procClosing =>
    rintro (hs | hi)
    · rw [(step_procClosing h).2 (t.spawns hs), t.procClosing hs]
    · rw [(step_procClosing h).1 hi,
        not_yet t.exits t.spawns (by have := step_spawns h hi; omega)]
      cases i <;> first | rfl | cases hi
  case watched =>
    refine source_snoc t.watched (step_watched h) (fun hi => ?_) (fun hi => ?_)
    · exact not_yet t.exits t.spawns (by have := step_spawns h hi; omega)
    · cases i <;> first | rfl | cases hi
  case outReading =>
    refine source_snoc t.outReading (step_outReading h) (fun hi => ?_) (fun hi => ?_)
    · exact not_yet t.endsOut t.startsOut (by have := step_startsOut h hi; omega)
    · cases i <;> first | rfl | cases hi
  case errReading =>
    refine source_snoc t.errReading (step_errReading h) (fun hi => ?_) (fun hi => ?_)
    · exact not_yet t.endsErr t.startsErr (by have := step_startsErr h hi; omega)
    · cases i <;> first | rfl | cases hi
  case armed =>
    rw [comm]
    refine source_snoc t.armed (step_armed h h₀ t.armedLoop) (fun hi => ?_) (fun hi => ?_)
    · have := step_arms h hi
      rw [not_yet t.fires t.arms (by omega), not_yet t.exits t.spawns (by omega)]
      rfl
    · cases i <;> first | rfl | cases hi
  case timer =>
    rw [(step_const h).1, comm]
    intro ht hr'
    rcases Nat.eq_zero_or_pos s.pc.rank with e | e
    · have hi : i.fires = false ∧ i.exits = false := by
        constructor
        · by_contra hi
          simpa [h₀ e] using step_fires h (by simpa using hi)
        · by_contra hi
          have := step_exits h (by simpa using hi)
          rw [t.watched, not_yet id t.spawns (by omega)] at this
          cases this
      rw [(step_enter h e (by omega)).2 ht, not_yet t.fires t.arms (by omega),
        not_yet t.exits t.spawns (by omega), hi.1, hi.2, (step_const h).2.1]
      exact ⟨rfl, rfl⟩
    · obtain ⟨hl, hc⟩ := t.timer ht e
      rw [← hc]
      exact step_timer h (by omega) hl

/-- `spawn()` changes neither its timeout nor its loop. -/
theorem run_const {c : Setup F} {h : History Input (Act F)}
    (r : (machine F).Run (start c) h s) : s.obj.timeout = c.timeout ∧ s.obj.uvLoop = c.loop :=
  r.inv (fun _ s => s.obj.timeout = c.timeout ∧ s.obj.uvLoop = c.loop) ⟨rfl, rfl⟩
    fun _ _ hs ih => ⟨(step_const hs).1.trans ih.1, (step_const hs).2.1.trans ih.2⟩

theorem run_listeners {c : Setup F} {h : History Input (Act F)}
    (r : (machine F).Run (start c) h s) : s.obj.listeners = c.listeners := by
  induction r with
  | nil => rfl
  | snoc _ _ hs ih => exact (step_const hs).2.2.trans ih

/-- The inputs of a run determine the child it reaches. -/
theorem run_tracks {c : Setup F} {h : History Input (Act F)}
    (r : (machine F).Run (start c) h s) : Tracks h.inputs s :=
  r.inv (fun h s => Tracks h.inputs s) (start_tracks c) fun _ _ hs t => by
    rw [History.inputs_append]
    exact step_tracks hs t

/-- An input that a child takes only while it has not taken one of its kind comes at most once. -/
theorem run_once {p : Input → Bool} {c : Setup F} {h : History Input (Act F)}
    (hp : ∀ {s s' : Child F} {i : Input} {as : List (Act F)} {is : List Input},
      step s i = some (s', as) → Tracks is s → p i → is.any p = false)
    (r : (machine F).Run (start c) h s) : h.inputs.countP p = (h.inputs.any p).toNat := by
  refine r.inv (fun h _ => h.inputs.countP p = (h.inputs.any p).toNat) rfl ?_
  intro h s s' i os r _ hs ih
  simp only [History.inputs_append, History.inputs_cons, History.inputs_nil, List.countP_append,
    List.any_append, List.any_cons, List.any_nil, Bool.or_false, ih]
  cases hi : p i with
  | false => simp [hi]
  | true => simp [hi, hp hs (run_tracks r.run) hi]

theorem exits_once {c : Setup F} {h : History Input (Act F)}
    (r : (machine F).Run (start c) h s) :
    h.inputs.countP Input.exits = (h.inputs.any Input.exits).toNat :=
  run_once (fun hs t hi => by
    have := step_exits hs hi
    rw [t.watched] at this
    simp_all) r

theorem endsOut_once {c : Setup F} {h : History Input (Act F)}
    (r : (machine F).Run (start c) h s) :
    h.inputs.countP Input.endsOut = (h.inputs.any Input.endsOut).toNat :=
  run_once (fun hs t hi => by
    have := step_endsOut hs hi
    rw [t.outReading] at this
    simp_all) r

theorem endsErr_once {c : Setup F} {h : History Input (Act F)}
    (r : (machine F).Run (start c) h s) :
    h.inputs.countP Input.endsErr = (h.inputs.any Input.endsErr).toNat :=
  run_once (fun hs t hi => by
    have := step_endsErr hs hi
    rw [t.errReading] at this
    simp_all) r

end Child

end Dorypuppy
