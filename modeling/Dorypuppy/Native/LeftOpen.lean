import Dorypuppy.Native.FailedSpawn
import Dorypuppy.Native.Handles
import Dorypuppy.Native.Reached

/-!
# Native — what a failed `spawn()` leaves on the loop

The constructor gives the loop both pipes, `spawn()` the timer and the process.  An error return of
`spawn()` closes none of them.  What is closed after it is what the callbacks still close: `exit_cb`
of a killed child its process and the timer, an expiry the timer, and a read callback `pipeOut`,
once `uv_read_start` on it has returned 0.

`left_open` says which handles stay open for good: `pipeErr` always, since its read callback never
comes (`failed_leaves_open`); `pipeOut` unless it reads; the process unless there was a child.
-/

namespace Dorypuppy

open Support (Machine History)

variable {F : Type}

namespace Child

variable {s s' : Child F} {i : Input} {as : List (Act F)} {c : Setup F}
  {h : History Input (Act F)}

/-- A libuv call that gives a handle to the loop. -/
def initialises (hd : Handle) : Act F → Bool
  | .uv (.pipeInit h) => h = hd
  | .uv .timerInit => hd = .timer
  | .uv (.spawn _) => hd = .process
  | _ => false

/-- The acts of the constructor and of a run after it. -/
def lifeActs (h : History Input (Act F)) : List (Act F) := DoryProcessSpawn.newActs ++ h.outputs

/-- No callback is to come. -/
def Settled (s : Child F) : Prop := ∀ i, s.callbackHead i = none

/-- Whatever follows, once it has settled each handle given to the loop was closed once. -/
def GivesBack (h : History Input (Act F)) (s : Child F) : Prop :=
  ∀ k t, (machine F).Run s k t → Settled t → ∀ hd, (lifeActs (h ++ k)).any (initialises hd) →
    closeCount (lifeActs (h ++ k)) hd = 1

theorem settled_iff : Settled s ↔ s.obj.timer.armed = false ∧ s.obj.process.watched = false ∧
    s.obj.pipeOut.reading = false ∧ s.obj.pipeErr.reading = false := by
  constructor
  · intro hset
    refine ⟨?_, ?_, ?_, ?_⟩
    · simpa [callbackHead] using hset .timerCb
    · simpa [callbackHead] using hset (.exitCb 0 0)
    · simpa [callbackHead] using hset (.stdoutCb 0 [])
    · simpa [callbackHead] using hset (.stderrCb 0 [])
  · rintro ⟨ha, hw, ho, he⟩ i
    cases i <;> simp [callbackHead, ha, hw, ho, he]

/-! ### What is given to the loop -/

@[simp] theorem emit_initialises (o : DoryProcessSpawn F) (name : String) (args : Args)
    (hd : Handle) : (o.emit name args).any (initialises hd) = false :=
  o.emit_any name _ (fun a h => by cases a <;> first | rfl | cases h) args

@[simp] theorem readError_initialises (o : DoryProcessSpawn F) (nread : Int) (hd : Handle) :
    (o.readError nread).any (initialises hd) = false := by
  simp only [DoryProcessSpawn.readError]
  split <;> rfl

/-- A callback gives nothing to the loop. -/
theorem callback_initialises (hs : step s i = some (s', as)) (hi : i.isCallback) (hd : Handle) :
    as.any (initialises hd) = false := by
  cases step_inv hs with
  | timerCb =>
      rw [DoryProcessSpawn.timerCbHead_snd]
      split <;> simp [initialises, DoryProcessSpawn.timerCbTail]
  | exitCb =>
      rw [DoryProcessSpawn.exitCb_snd]
      split <;> split <;> simp [initialises]
  | stdoutCb =>
      rw [DoryProcessSpawn.stdoutCbHead_snd]
      split
      · simp [initialises, DoryProcessSpawn.readCbTail]
      · split <;> simp [initialises, DoryProcessSpawn.readCbTail]
  | stderrCb =>
      rw [DoryProcessSpawn.stderrCbHead_snd]
      split
      · simp [initialises, DoryProcessSpawn.readCbTail]
      · split
        · split <;> simp [initialises, DoryProcessSpawn.readCbTail]
        · simp [initialises, DoryProcessSpawn.readCbTail]
  | _ => cases hi

/-- `spawn()` gives the loop the timer in its first step, if there is a timeout, and the process in
the step of `uv_spawn`. -/
theorem run_initialises (r : (machine F).Run (start c) h s) :
    h.outputs.any (initialises .timer) = decide (0 < c.timeout ∧ 1 ≤ s.pc.rank) ∧
      h.outputs.any (initialises .process) = decide (3 ≤ s.pc.rank) := by
  refine r.inv (fun h s => h.outputs.any (initialises .timer) =
    decide (0 < c.timeout ∧ 1 ≤ s.pc.rank) ∧
      h.outputs.any (initialises .process) = decide (3 ≤ s.pc.rank))
    (by simp [start, SpawnPc.rank]) ?_
  rintro h s s' i os r - hs ⟨htimer, hprocess⟩
  have hto := (run_const r.run).1
  simp only [History.outputs_append, History.outputs_cons, History.outputs_nil, List.append_nil,
    List.any_append, htimer, hprocess]
  have hnone (hi : i.isCallback) (hd : Handle) := callback_initialises hs hi hd
  cases step_inv hs with
  | timerCb | exitCb | stdoutCb | stderrCb =>
      rw [hnone rfl, hnone rfl, Bool.or_false, Bool.or_false]
      exact ⟨rfl, rfl⟩
  | enterTimed ht => simp [initialises, SpawnPc.rank, ← hto, ht]
  | enterUntimed ht => simp [SpawnPc.rank, ← hto, ht]
  | kill => simp [initialises, DoryProcessSpawn.kill]
  | _ => simp [initialises, SpawnPc.rank, DoryProcessSpawn.kill]

/-! ### Settling -/

/-- The number of sources a callback may come from. -/
def sources (s : Child F) : Nat :=
  s.obj.timer.armed.toNat + s.obj.process.watched.toNat + s.obj.pipeOut.reading.toNat +
    s.obj.pipeErr.reading.toNat

/-- The last callback of a source ends it and arms none. -/
theorem sources_lt (hs : step s i = some (s', as))
    (hi : i.fires || i.exits || i.endsOut || i.endsErr) : sources s' < sources s := by
  cases step_inv hs with
  | @timerCb o pc ha =>
      have : (if o.timer.closing then o.timer.expire else o.timer.expire.close).armed = false := by
        split <;> rfl
      simp [sources, ha, this]
  | @exitCb o pc e g hw =>
      have : (if o.timer.loop = o.uvLoop ∧ o.timer.closing = false then o.timer.close
          else o.timer).armed.toNat ≤ o.timer.armed.toNat := by
        split <;> simp
      simp [sources, hw]
      omega
  | @stdoutCb o pc nread buf hr =>
      have hn : nread < 0 := by
        simpa [Input.fires, Input.exits, Input.endsOut, Input.endsErr] using hi
      simp [sources, hr, hn]
  | @stderrCb o pc nread buf hr =>
      have hn : nread < 0 := by
        simpa [Input.fires, Input.exits, Input.endsOut, Input.endsErr] using hi
      simp [sources, hr, hn]
  | _ => cases hi

/-- Every child comes to rest. -/
theorem settles (s : Child F) : ∃ k t, (machine F).Run s k t ∧ Settled t := by
  induction hn : sources s using Nat.strong_induction_on generalizing s with
  | _ n ih =>
      by_cases hset : Settled s
      · exact ⟨[], s, .nil, hset⟩
      have next {i : Input} {s' : Child F} {as : List (Act F)}
          (hc : s.callbackHead i = some (s', as))
          (hi : i.fires || i.exits || i.endsOut || i.endsErr) :
          ∃ k t, (machine F).Run s k t ∧ Settled t := by
        have hs := callbackHead_step hc
        obtain ⟨k, t, r, hset'⟩ := ih _ (hn ▸ sources_lt hs hi) s' rfl
        exact ⟨_, t, (Machine.Run.one hs).trans r, hset'⟩
      -- some source is active, and its last callback can come
      simp only [settled_iff, not_and_or, Bool.not_eq_false] at hset
      rcases hset with ha | hw | ho | he
      · exact next (i := .timerCb) (if_pos ha) rfl
      · exact next (i := .exitCb 0 0) (if_pos hw) rfl
      · exact next (i := .stdoutCb UV_EOF []) (if_pos ho) rfl
      · exact next (i := .stderrCb UV_EOF []) (if_pos he) rfl

/-! ### After the failure -/

/-- **What a failed `spawn()` leaves open.**  Of the handles given to the loop, once the child has
settled these are not closed exactly once: `pipeErr`; `pipeOut`, unless `uv_read_start` on it
returned 0; the process, unless `uv_spawn` returned 0. -/
theorem left_open (r : (machine F).Run (start c) h s) {code : Int} (hpc : s.pc = .returned code)
    (hcode : code ≠ 0) (hset : Settled s) (hd : Handle) :
    ((lifeActs h).any (initialises hd) ∧ closeCount (lifeActs h) hd ≠ 1) ↔
      hd = .pipeErr ∨ (hd = .pipeOut ∧ h.inputs.any Input.startsOut = false) ∨
        (hd = .process ∧ h.inputs.any Input.spawns = false) := by
  have t := run_tracks r
  obtain ⟨ha, hw, ho, -⟩ := settled_iff.mp hset
  obtain ⟨htimer, hprocess⟩ := run_initialises r
  have hrank : s.pc.rank = 7 := by rw [hpc]; rfl
  have hcount : closeCount (lifeActs h) hd = closeCount h.outputs hd := by
    simp [lifeActs, closeCount, DoryProcessSpawn.newActs, Act.closes]
  have hstart := failed_startsErr r hpc hcode
  -- a source that was armed and is at rest has ended
  have ended {a b : Bool} (hab : b = true → a = true) (h : (a && !b) = false) : b = a := by
    cases a <;> cases b <;> simp_all
  rw [hcount, lifeActs, List.any_append]
  cases hd with
  | process =>
      rw [closeCount_eq (p := Input.exits) (fun _ _ => rfl) r, exits_once r,
        ended t.exits (t.watched ▸ hw), hprocess, hrank]
      cases h.inputs.any Input.spawns <;> simp
  | pipeOut =>
      rw [closeCount_eq (p := Input.endsOut) (fun _ _ => rfl) r, endsOut_once r,
        ended t.endsOut (t.outReading ▸ ho)]
      cases h.inputs.any Input.startsOut <;> simp [DoryProcessSpawn.newActs, initialises]
  | pipeErr =>
      have hend : h.inputs.any Input.endsErr = false := by
        by_contra he
        rw [t.endsErr (by simpa using he)] at hstart
        cases hstart
      rw [closeCount_eq (p := Input.endsErr) (fun _ _ => rfl) r, endsErr_once r, hend]
      simp [DoryProcessSpawn.newActs, initialises]
  | timer =>
      refine iff_of_false ?_ (by simp)
      rintro ⟨hinit, hclosed⟩
      rw [htimer] at hinit
      have ht : 0 < c.timeout ∧ 1 ≤ s.pc.rank := by
        simpa only [DoryProcessSpawn.newActs, initialises, List.any_cons, List.any_nil,
          reduceCtorEq, decide_false, Bool.or_false, Bool.false_or, decide_eq_true_eq] using hinit
      obtain ⟨ht, -⟩ := ht
      rw [t.armed, run_arms r ht (by omega)] at ha
      rw [Bool.true_and, Bool.not_eq_false'] at ha
      rw [closeCount_timer r, if_pos ht, ha] at hclosed
      exact hclosed rfl

/-- **A failed `spawn()` does not give back what it took.**  Whatever has happened before the error
return, what follows it does not close each handle given to the loop: `pipeErr` stays open. -/
theorem failed_leaves_open (r : (machine F).Run (start c) h s) {code : Int}
    (hpc : s.pc = .returned code) (hcode : code ≠ 0) : ¬ GivesBack h s := by
  intro hback
  obtain ⟨k, t, r', hset⟩ := settles s
  have hopen := left_open (r.trans r') (run_returned r' hpc) hcode hset .pipeErr
  obtain ⟨hinit, hne⟩ := hopen.mpr (.inl rfl)
  exact hne (hback k t r' hset .pipeErr hinit)

theorem failed_leaves_open_example : ∃ h s, (machine Unit).Run (start (.example 5)) h s ∧
    h.inputs = [.enter, .timerStart, .uvSpawn (.ok 7), .storePid, .readOut none,
      .readErr (some ⟨-12, by decide⟩), .killReturn] ∧ s.pc = .returned (-12) ∧
    ¬ GivesBack h s := by
  have r := Machine.exec_run (M := machine Unit) (s := start (.example 5))
    [.enter, .timerStart, .uvSpawn (.ok 7), .storePid, .readOut none,
      .readErr (some ⟨-12, by decide⟩), .killReturn] rfl
  exact ⟨_, _, r, rfl, rfl, failed_leaves_open r rfl (by decide)⟩

/-- **A command that is not there.**  `uv_spawn` fails in `exec` and no callback is to come: both
pipes and the process stay on the loop. -/
theorem missing_command : ∃ h s, (machine Unit).Run (start (.example 0)) h s ∧
    h.inputs = [.enter, .uvSpawn (.execFailed ⟨-2, by decide⟩ 7)] ∧ s.pc = .returned (-2) ∧
    Settled s ∧ ¬ GivesBack h s := by
  refine ⟨_, _, Machine.exec_run [.enter, .uvSpawn (.execFailed ⟨-2, by decide⟩ 7)] rfl, rfl, rfl,
    settled_iff.mpr ⟨rfl, rfl, rfl, rfl⟩, fun hback => ?_⟩
  have hclosed := hback [] _ .nil (settled_iff.mpr ⟨rfl, rfl, rfl, rfl⟩) .pipeOut rfl
  cases hclosed

end Child

end Dorypuppy
