import Dorypuppy.Native.ExitJoin

/-!
# Native — the life cycle of the handles

Five places close the four handles of a child: `exit_cb` the process, each read callback its
stream, and `_clearTimer`, called from the timer callback and from `exit_cb`, the timer.

`handle_life_cycle` counts the calls of `uv_close` in any run.  It needs `timer.loop` to differ
from `uv_loop` as long as `uv_timer_init` was not called, which nothing in the class provides:
with `timeout == 0` it is how `exit_cb` tells that there is no timer to close.
-/

namespace Dorypuppy

open Support (Machine History)

variable {F : Type}

/-- `uv_is_closing`. -/
def DoryProcessSpawn.closing (o : DoryProcessSpawn F) : Handle → Bool
  | .process => o.process.closing
  | .pipeOut => o.pipeOut.closing
  | .pipeErr => o.pipeErr.closing
  | .timer => o.timer.closing

/-- Without a timeout `exit_cb` takes these contents for an initialised timer, and closes it. -/
def Uninit.takenForTimer (mem : Uninit) (loop : LoopPtr) : Bool :=
  mem.timerLoop = loop && !mem.timerClosing

namespace Child

variable {s s' : Child F} {i : Input} {as : List (Act F)} {c : Setup F}
  {h : History Input (Act F)}

/-- The number of calls of `uv_close` on a handle. -/
def closeCount (as : List (Act F)) (hd : Handle) : Nat := as.countP (Act.closes hd)

/-- A handle whose `uv_close` is called in the step of an input `p`, whatever the object. -/
theorem closeCount_eq {hd : Handle} {p : Input → Bool}
    (hp : ∀ (o : DoryProcessSpawn F) (i : Input), o.closesAt hd i = p i)
    (r : (machine F).Run (start c) h s) : closeCount h.outputs hd = h.inputs.countP p := by
  refine r.inv (fun h _ => closeCount h.outputs hd = h.inputs.countP p) rfl ?_
  intro h s s' i os r _ hs ih
  simp only [closeCount] at ih ⊢
  simp only [History.inputs_append, History.outputs_append, History.inputs_cons,
    History.inputs_nil, History.outputs_cons, History.outputs_nil, List.append_nil,
    List.countP_append, ih, step_closes hd hs, hp, List.countP_singleton]
  cases p i <;> rfl

/-- Without a timeout nothing writes `timer.loop`, and only `exit_cb` closes the timer, if
`timer.loop` happens to hold the child's loop. -/
theorem untimed_timer (r : (machine F).Run (start c) h s) (ht : c.timeout = 0) :
    s.obj.timer =
      { loop := c.mem.timerLoop
        closing := c.mem.timerClosing ||
          h.inputs.any Input.exits && decide (c.mem.timerLoop = c.loop)
        armed := false } := by
  refine r.inv (fun h s => s.obj.timer =
    { loop := c.mem.timerLoop
      closing := c.mem.timerClosing ||
        h.inputs.any Input.exits && decide (c.mem.timerLoop = c.loop)
      armed := false }) (by simp [start, DoryProcessSpawn.new]) ?_
  intro h s s' i os r _ hs ih
  obtain ⟨hto, hlo⟩ := run_const r.run
  simp only [History.inputs_append, History.inputs_cons, History.inputs_nil, List.any_append,
    List.any_cons, List.any_nil, Bool.or_false]
  cases step_inv hs with
  | @enterTimed o hpos => simp [show o.timeout = 0 from hto.trans ht] at hpos
  | @timerStart o =>
      have hpos := (run_tracks r.run).timed (.inr rfl)
      simp [show o.timeout = 0 from hto.trans ht] at hpos
  | timerCb ha =>
      rw [show _ = _ from congrArg UvTimer.armed ih] at ha
      cases ha
  | @exitCb o =>
      have htimer : o.timer = _ := ih
      have hloop : o.uvLoop = c.loop := hlo
      simp only [DoryProcessSpawn.exitCb_fst, Input.exits, Bool.or_true, Bool.true_and, htimer,
        hloop]
      by_cases hl : c.mem.timerLoop = c.loop <;> cases hc : c.mem.timerClosing <;>
        cases h.inputs.any Input.exits <;> simp [hl, UvTimer.close]
  | stdoutCb =>
      simp only [DoryProcessSpawn.stdoutCbHead_fst]
      split <;> simpa [Input.exits] using ih
  | stderrCb =>
      simp only [DoryProcessSpawn.stderrCbHead_fst]
      split <;> simpa [Input.exits] using ih
  | _ => simpa [Input.exits] using ih

/-- Whether a step closes the timer: with a timeout, the first expiry or `exit_cb`. -/
theorem closesAt_timer (r : (machine F).Run (start c) h s)
    (hs : step s i = some (s', as)) :
    s.obj.closesAt .timer i =
      if 0 < c.timeout then
        !(h.inputs.any Input.fires || h.inputs.any Input.exits) && (i.fires || i.exits)
      else i.exits && Uninit.takenForTimer c.mem c.loop := by
  have t := run_tracks r
  obtain ⟨hto, hlo⟩ := run_const r
  have hx (hi : i.exits = true) : 3 ≤ s.pc.rank ∧ h.inputs.any Input.exits = false := by
    have := step_exits hs hi
    rw [t.watched, Bool.and_eq_true, Bool.not_eq_true'] at this
    exact ⟨t.spawns this.1, this.2⟩
  have hf (hi : i.fires = true) : 2 ≤ s.pc.rank ∧ 0 < c.timeout := by
    have := step_fires hs hi
    rw [t.armed, Bool.and_eq_true] at this
    exact ⟨t.arms this.1, hto ▸ t.timed (.inl this.1)⟩
  simp only [DoryProcessSpawn.closesAt, hlo]
  by_cases ht : 0 < c.timeout
  · rw [if_pos ht]
    by_cases hi : i.fires = true ∨ i.exits = true
    · have hr : 1 ≤ s.pc.rank := by
        rcases hi with hi | hi
        · have := hf hi; omega
        · have := hx hi; omega
      obtain ⟨hloop, hclosing⟩ := t.timer (hto ▸ ht) hr
      simp [hloop, hlo, hclosing]
    · simp_all
  · have h0 : c.timeout = 0 := by simpa [UInt64.pos_iff_ne_zero] using ht
    have hfires : i.fires = false := by
      by_contra hi
      exact ht (hf (by simpa using hi)).2
    rw [if_neg ht, untimed_timer r h0, hfires]
    cases hi : i.exits with
    | false => simp
    | true =>
        simp only [(hx hi).2, Uninit.takenForTimer, Bool.false_and, Bool.or_false, Bool.false_or,
          Bool.true_and, Bool.and_comm]

theorem closeCount_timer (r : (machine F).Run (start c) h s) : closeCount h.outputs .timer =
    (if 0 < c.timeout then h.inputs.any Input.fires || h.inputs.any Input.exits
      else h.inputs.any Input.exits && Uninit.takenForTimer c.mem c.loop).toNat := by
  refine r.inv (fun h _ => closeCount h.outputs .timer =
    (if 0 < c.timeout then h.inputs.any Input.fires || h.inputs.any Input.exits
      else h.inputs.any Input.exits && Uninit.takenForTimer c.mem c.loop).toNat)
    (by simp [closeCount]) ?_
  intro h s s' i os r _ hs ih
  have hx : i.exits = true → h.inputs.any Input.exits = false := fun hi => by
    have := step_exits hs hi
    rw [(run_tracks r.run).watched, Bool.and_eq_true, Bool.not_eq_true'] at this
    exact this.2
  simp only [closeCount] at ih ⊢
  simp only [History.inputs_append, History.outputs_append, History.inputs_cons,
    History.inputs_nil, History.outputs_cons, History.outputs_nil, List.append_nil,
    List.countP_append, ih, step_closes .timer hs, closesAt_timer r.run hs,
    List.any_append, List.any_cons, List.any_nil, Bool.or_false]
  revert hx
  generalize h.inputs.any Input.fires = f, h.inputs.any Input.exits = x, i.fires = f',
    i.exits = x', Uninit.takenForTimer c.mem c.loop = d
  by_cases ht : 0 < c.timeout <;> simp only [ht, if_true, if_false] <;>
    revert f x f' x' d <;> decide

/-- A handle a step closes is not closing yet. -/
theorem closes_open {is : List Input} (hs : step s i = some (s', as)) (t : Tracks is s)
    {hd : Handle} (hc : Act.uv (.close hd) ∈ as) : s.obj.closing hd = false := by
  have hat : s.obj.closesAt hd i = true := by
    have hpos : 0 < as.countP (Act.closes hd) :=
      List.countP_pos_iff.mpr ⟨_, hc, by simp [Act.closes]⟩
    rw [step_closes hd hs] at hpos
    cases hat : s.obj.closesAt hd i with
    | false => rw [hat] at hpos; cases hpos
    | true => rfl
  cases hd with
  | process =>
      have hw := step_exits hs hat
      rw [t.watched, Bool.and_eq_true, Bool.not_eq_true'] at hw
      exact (t.procClosing hw.1).trans hw.2
  | pipeOut =>
      have hr := step_endsOut hs hat
      rw [t.outReading, Bool.and_eq_true, Bool.not_eq_true'] at hr
      exact t.outClosing.trans hr.2
  | pipeErr =>
      have hr := step_endsErr hs hat
      rw [t.errReading, Bool.and_eq_true, Bool.not_eq_true'] at hr
      exact t.errClosing.trans hr.2
  | timer =>
      rw [DoryProcessSpawn.closesAt, Bool.and_eq_true, Bool.not_eq_true'] at hat
      exact hat.1

/-- **The life cycle of the handles.**  After any run, `uv_close` was called on the process handle
once if `exit_cb` has run, on each stream once if its read callback has seen `nread < 0`, and on
the timer once if there is a timeout and the timer has expired or `exit_cb` has run; and never
otherwise.  No step closes a handle that is closing.  Once `exit_cb` has run and both streams have
ended, every handle is closing. -/
theorem handle_life_cycle (hl : c.mem.timerLoop ≠ c.loop) (r : (machine F).Run (start c) h s) :
    closeCount h.outputs .process = (if h.inputs.any Input.exits then 1 else 0) ∧
      closeCount h.outputs .pipeOut = (if h.inputs.any Input.endsOut then 1 else 0) ∧
      closeCount h.outputs .pipeErr = (if h.inputs.any Input.endsErr then 1 else 0) ∧
      closeCount h.outputs .timer =
        (if 0 < c.timeout ∧ (h.inputs.any Input.fires ∨ h.inputs.any Input.exits) then 1 else 0) ∧
      (∀ i s' as hd, step s i = some (s', as) → Act.uv (.close hd) ∈ as →
        s.obj.closing hd = false) ∧
      (h.inputs.any Input.exits → h.inputs.any Input.endsOut → h.inputs.any Input.endsErr →
        ∀ hd, (hd = .timer → 0 < c.timeout) → s.obj.closing hd = true) := by
  have t := run_tracks r
  refine ⟨?_, ?_, ?_, ?_, fun i s' as hd hs hc => closes_open hs t hc, fun hx ho he hd ht => ?_⟩
  · rw [closeCount_eq (p := Input.exits) (fun _ _ => rfl) r, exits_once r]
    cases h.inputs.any Input.exits <;> rfl
  · rw [closeCount_eq (p := Input.endsOut) (fun _ _ => rfl) r, endsOut_once r]
    cases h.inputs.any Input.endsOut <;> rfl
  · rw [closeCount_eq (p := Input.endsErr) (fun _ _ => rfl) r, endsErr_once r]
    cases h.inputs.any Input.endsErr <;> rfl
  · have hnot : Uninit.takenForTimer c.mem c.loop = false := by simp [Uninit.takenForTimer, hl]
    rw [closeCount_timer r, hnot]
    by_cases ht : 0 < c.timeout <;> cases h.inputs.any Input.fires <;>
      cases h.inputs.any Input.exits <;> simp [ht]
  · have hsp := t.exits hx
    cases hd with
    | process => rw [DoryProcessSpawn.closing, t.procClosing hsp, hx]
    | pipeOut => rw [DoryProcessSpawn.closing, t.outClosing, ho]
    | pipeErr => rw [DoryProcessSpawn.closing, t.errClosing, he]
    | timer =>
        obtain ⟨hto, -⟩ := run_const r
        have := t.spawns hsp
        rw [DoryProcessSpawn.closing, (t.timer (hto ▸ ht rfl) (by omega)).2, hx, Bool.or_true]

theorem handle_life_cycle_example : ∃ h s, (machine Unit).Run (start (.example 5)) h s ∧
    h.inputs = [.enter, .timerStart, .uvSpawn (.ok 7), .storePid, .readOut none,
      .readErr none, .timerCb, .stdoutCb UV_EOF [], .exitCb 0 9] ∧
    closeCount h.outputs .timer = 1 := by
  have r := Machine.exec_run (M := machine Unit) (s := start (.example 5))
    [.enter, .timerStart, .uvSpawn (.ok 7), .storePid, .readOut none,
      .readErr none, .timerCb, .stdoutCb UV_EOF [], .exitCb 0 9] rfl
  exact ⟨_, _, r, rfl, (handle_life_cycle (by decide) r).2.2.2.1⟩

end Child

end Dorypuppy
