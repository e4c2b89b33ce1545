import Dorypuppy.Support.Join
import Dorypuppy.Native.Outputs

/-!
# Native — the exit event

The exit event of a child is a join (`Support.Join`): `exit_cb` brings the status, the end of
stderr is the other side, and whichever comes second calls `emit("exit", …)`.  `step_joins` says
that each step of a child moves `exited`, the stored status and `stderrFlushed` as the join moves,
and calls `emit("exit", …)` when the join gives its value.

* `exit_join_exact`: the event is raised once both sides have come, once, with the status and
  the signal that `exit_cb` was given.
* `exit_last_iff`: the event is the last one of the child exactly in the runs in which no data comes
  on stdout after both sides.  Stdout is no side of the join, so a child whose stdout outlives its
  stderr raises `stdout` after `exit` (`late_stdout`).
-/

namespace Dorypuppy

open Support (Machine History Join JoinEvent Throughout)

variable {F : Type}

namespace Input

/-- The side of the exit join an input is. -/
def joinEvent : Input → Option (JoinEvent (Int × Int))
  | .exitCb e g => some (.left (e, g))
  | .stderrCb nread _ => if nread < 0 then some .right else none
  | _ => none

/-- The status and the signal `exit_cb` is given. -/
def exitStatus? : Input → Option (Int × Int)
  | .exitCb e g => some (e, g)
  | _ => none

theorem filterMap_value (is : List Input) :
    (is.filterMap joinEvent).filterMap JoinEvent.value? = is.filterMap exitStatus? := by
  rw [List.filterMap_filterMap]
  congr 1
  funext i
  cases i with
  | stderrCb nread buf =>
      by_cases h : nread < 0 <;> simp [joinEvent, exitStatus?, h, JoinEvent.value?]
  | _ => rfl

theorem joinEvent_right (i : Input) :
    ((joinEvent i).map JoinEvent.isRight).getD false = i.endsErr := by
  cases i with
  | stderrCb nread buf => by_cases h : nread < 0 <;> simp [joinEvent, endsErr, h, JoinEvent.isRight]
  | _ => rfl

theorem countP_right (is : List Input) :
    (is.filterMap joinEvent).countP JoinEvent.isRight = is.countP endsErr := by
  rw [List.countP_filterMap]
  congr 1
  funext i
  exact joinEvent_right i

theorem any_right (is : List Input) :
    (is.filterMap joinEvent).any JoinEvent.isRight = is.any endsErr := by
  rw [Bool.eq_iff_iff, List.any_eq_true, List.any_eq_true, ← List.countP_pos_iff,
    ← List.countP_pos_iff, countP_right]

end Input

namespace Child

variable {s s' : Child F} {i : Input} {as : List (Act F)} {c : Setup F}
  {h : History Input (Act F)}

/-- The object is in the state of the join. -/
structure Joins (o : DoryProcessSpawn F) (j : Join (Int × Int)) : Prop where
  value : j.value = if o.exited then some (o.exitStatus, o.termSignal) else none
  right : j.right = o.stderrFlushed

/-- **One step of a child is a step of its exit join**, or leaves it alone. -/
theorem step_joins {j : Join (Int × Int)} (h : step s i = some (s', as)) (hj : Joins s.obj j) :
    match i.joinEvent with
    | some e => Joins s'.obj (j.step e).1 ∧ as.filterMap Act.exit? = (j.step e).2
    | none => Joins s'.obj j ∧ as.filterMap Act.exit? = [] := by
  rw [step_exit h]
  obtain ⟨hv, hr⟩ := hj
  cases step_inv h with
  | exitCb => exact ⟨⟨by simp [Join.step], by simpa [Join.step] using hr⟩,
      by simp [exitOf, Join.step, hr]⟩
  | @stderrCb o pc nread buf =>
      by_cases hn : nread < 0
      · simp only [Input.joinEvent, Join.step, exitOf, hn, true_and, hv]
        refine ⟨⟨?_, ?_⟩, ?_⟩
        · simp [hn]
        · simp [hn]
        · split <;> rfl
      · simp only [Input.joinEvent, exitOf, hn, false_and, if_false, and_true]
        refine ⟨?_, ?_⟩
        · simpa [hn] using hv
        · simpa [hn] using hr
  | stdoutCb =>
      refine ⟨?_, rfl⟩
      rw [DoryProcessSpawn.stdoutCbHead_fst]
      split <;> exact ⟨hv, hr⟩
  | timerCb => exact ⟨⟨by simpa using hv, by simpa using hr⟩, rfl⟩
  | _ => exact ⟨⟨hv, hr⟩, rfl⟩

/-- The calls `emit("exit", …)` of a run are what the join of its inputs gives. -/
theorem run_joins (r : (machine F).Run (start c) h s) :
    Joins s.obj (Join.empty.run (h.inputs.filterMap Input.joinEvent)).1 ∧
      h.outputs.filterMap Act.exit? = (Join.empty.run (h.inputs.filterMap Input.joinEvent)).2 := by
  refine r.inv (fun h s =>
    Joins s.obj (Join.empty.run (h.inputs.filterMap Input.joinEvent)).1 ∧
      h.outputs.filterMap Act.exit? = (Join.empty.run (h.inputs.filterMap Input.joinEvent)).2)
    ⟨⟨rfl, rfl⟩, rfl⟩ ?_
  rintro h s s' i os - - hs ⟨hj, ho⟩
  have hstep := step_joins hs hj
  simp only [History.inputs_append, History.outputs_append, History.inputs_cons,
    History.inputs_nil, History.outputs_cons, History.outputs_nil, List.filterMap_append, ho,
    List.append_nil]
  cases he : i.joinEvent with
  | none =>
      rw [he] at hstep
      simpa [he, hstep.2] using hstep.1
  | some e =>
      rw [he] at hstep
      simpa [he, hstep.2] using hstep.1

theorem exitStatus_length (is : List Input) :
    (is.filterMap Input.exitStatus?).length = is.countP Input.exits := by
  rw [List.length_filterMap_eq_countP]
  congr 1
  funext i
  cases i <;> rfl

/-- Each side of the join comes at most once. -/
theorem run_oneShot (r : (machine F).Run (start c) h s) :
    Join.OneShot (h.inputs.filterMap Input.joinEvent) := by
  constructor
  · rw [Input.filterMap_value, exitStatus_length, exits_once r]
    exact Bool.toNat_le _
  · rw [Input.countP_right, endsErr_once r]
    exact Bool.toNat_le _

/-- The calls `emit("exit", …)` of a run: with `exit_cb`'s status, once stderr has ended. -/
theorem run_exit (r : (machine F).Run (start c) h s) : h.outputs.filterMap Act.exit? =
    if h.inputs.any Input.endsErr then h.inputs.filterMap Input.exitStatus? else [] := by
  rw [(run_joins r).2, Join.run_given _ (run_oneShot r), Input.filterMap_value, Input.any_right]

/-- One such call once both sides have come. -/
theorem run_exit_length (r : (machine F).Run (start c) h s) :
    (h.outputs.filterMap Act.exit?).length =
      if h.inputs.any Input.exits ∧ h.inputs.any Input.endsErr then 1 else 0 := by
  rw [run_exit r]
  have hlen := (exitStatus_length h.inputs).trans (exits_once r)
  cases h.inputs.any Input.endsErr with
  | false => simp
  | true => cases hx : h.inputs.any Input.exits <;> simp_all

/-- **The exit join is exact.**  After any run, `emit("exit", …)` was called once if `exit_cb` has
run and the stderr callback has seen `nread < 0`, and not at all otherwise; and its arguments are
those libuv gave to `exit_cb`. -/
theorem exit_join_exact (r : (machine F).Run (start c) h s) :
    (h.outputs.filterMap Act.exit?).length =
        (if h.inputs.any Input.exits ∧ h.inputs.any Input.endsErr then 1 else 0) ∧
      ∀ e g, (e, g) ∈ h.outputs.filterMap Act.exit? → Input.exitCb e g ∈ h.inputs := by
  refine ⟨run_exit_length r, fun e g he => ?_⟩
  rw [run_exit r] at he
  split at he
  · obtain ⟨i, hi, hx⟩ := List.mem_filterMap.mp he
    cases i <;> simp_all [Input.exitStatus?]
  · cases he

/-- `spawn()` of a child without timeout, up to its return of 0. -/
def spawned : List Input :=
  [.enter, .uvSpawn (.ok 7), .storePid, .readOut none, .readErr none]

theorem exit_join_exact_example : ∃ h s, (machine Unit).Run (start (.example 0)) h s ∧
    h.inputs = spawned ++ [.stderrCb UV_EOF [], .exitCb 55 0] ∧
    (h.outputs.filterMap Act.exit?).length = 1 := by
  have r := Machine.exec_run (M := machine Unit) (s := start (.example 0))
    (spawned ++ [.stderrCb UV_EOF [], .exitCb 55 0]) rfl
  exact ⟨_, _, r, rfl, (exit_join_exact r).1⟩

/-! ### Is the exit event the last one -/

/-- No call of `emit` for `stdout`, `stderr` or `timeout` comes after `emit("exit", …)`. -/
def ExitLast (as : List (Act F)) : Prop :=
  as.Pairwise fun a b => a.exit?.isSome → b.isEvent = false

/-- No data comes on stdout once `exit_cb` has run and stderr has ended. -/
def NoLateStdout : List Input → Prop :=
  Throughout fun pre i => i.bringsOut → ¬ (pre.any Input.exits ∧ pre.any Input.endsErr)

theorem exitLast_append {as bs : List (Act F)} : ExitLast (as ++ bs) ↔
    ExitLast as ∧ ExitLast bs ∧ (as.filterMap Act.exit? ≠ [] → bs.any Act.isEvent = false) := by
  simp only [ExitLast, List.pairwise_append]
  refine and_congr_right fun _ => and_congr_right fun _ => ?_
  refine ⟨fun h hne => ?_, fun h a ha b hb he => ?_⟩
  · obtain ⟨x, hx⟩ := List.exists_mem_of_ne_nil _ hne
    obtain ⟨a, ha, hax⟩ := List.mem_filterMap.mp hx
    exact List.any_eq_false.mpr fun b hb => by simp [h a ha b hb (by simp [hax])]
  · obtain ⟨x, hx⟩ := Option.isSome_iff_exists.mp he
    have hne : as.filterMap Act.exit? ≠ [] :=
      List.ne_nil_of_mem (List.mem_filterMap.mpr ⟨a, ha, hx⟩)
    simpa using List.any_eq_false.mp (h hne) b hb

/-- A step that calls `emit("exit", …)` raises no other event. -/
theorem exitOf_raises (o : DoryProcessSpawn F) (i : Input) (hi : i.raises) : exitOf o i = [] := by
  cases i with
  | stderrCb nread buf =>
      have : ¬ nread < 0 := by simp only [Input.raises, decide_eq_true_eq] at hi; omega
      simp [exitOf, this]
  | exitCb => cases hi
  | _ => rfl

theorem step_exitLast (h : step s i = some (s', as)) : ExitLast as := by
  refine List.pairwise_of_forall_mem_list fun a ha b hb he => ?_
  obtain ⟨x, hx⟩ := Option.isSome_iff_exists.mp he
  have hmem : x ∈ exitOf s.obj i := step_exit h ▸ List.mem_filterMap.mpr ⟨a, ha, hx⟩
  have hr : i.raises = false := by
    by_contra hr
    rw [exitOf_raises _ _ (by simpa using hr)] at hmem
    cases hmem
  rw [← step_event h] at hr
  simpa using List.any_eq_false.mp hr b hb

/-- Once `exit_cb` has run and stderr has ended, only stdout can raise an event. -/
theorem raises_iff_bringsOut {is : List Input} (h : step s i = some (s', as)) (t : Tracks is s)
    (hx : is.any Input.exits) (he : is.any Input.endsErr) : i.raises = i.bringsOut := by
  cases step_inv h with
  | timerCb ha => rw [t.armed, hx] at ha; simp at ha
  | stderrCb hr => rw [t.errReading, he] at hr; simp at hr
  | _ => rfl

/-- **When the exit event is the last one.**  In every run, nothing is raised after `exit` if and
only if no data comes on stdout after both `exit_cb` and the end of stderr. -/
theorem exit_last_iff (r : (machine F).Run (start c) h s) :
    ExitLast h.outputs ↔ NoLateStdout h.inputs := by
  refine r.inv (fun h _ => ExitLast h.outputs ↔ NoLateStdout h.inputs)
    ⟨fun _ => Support.throughout_nil _, fun _ => .nil⟩ ?_
  intro h s s' i os r _ hs ih
  simp only [History.inputs_append, History.outputs_append, History.inputs_cons,
    History.inputs_nil, History.outputs_cons, History.outputs_nil, List.append_nil,
    exitLast_append, NoLateStdout, Support.throughout_snoc]
  refine and_congr ih ⟨fun hlast hi hj => ?_, fun hlate => ⟨step_exitLast hs, fun hne => ?_⟩⟩
  · -- both sides of the join have come, so `exit` was raised
    have hne : h.outputs.filterMap Act.exit? ≠ [] := by
      intro e
      have := run_exit_length r.run
      rw [e, if_pos hj] at this
      cases this
    have := hlast.2 hne
    rw [step_event hs, raises_iff_bringsOut hs (run_tracks r.run) hj.1 hj.2, hi] at this
    cases this
  · have hj : h.inputs.any Input.exits ∧ h.inputs.any Input.endsErr := by
      by_contra hj
      have := run_exit_length r.run
      rw [if_neg hj] at this
      exact hne (List.length_eq_zero_iff.mp this)
    rw [step_event hs, raises_iff_bringsOut hs (run_tracks r.run) hj.1 hj.2]
    by_contra hi
    exact hlate (by simpa using hi) hj

theorem exit_last_iff_example : ∃ h s, (machine Unit).Run (start (.example 0)) h s ∧
    h.inputs = spawned ++ [.stdoutCb 1 [65], .stdoutCb UV_EOF [], .stderrCb UV_EOF [], .exitCb 55 0]
      ∧ ExitLast h.outputs := by
  have r := Machine.exec_run (M := machine Unit) (s := start (.example 0))
    (spawned ++ [.stdoutCb 1 [65], .stdoutCb UV_EOF [], .stderrCb UV_EOF [], .exitCb 55 0]) rfl
  exact ⟨_, _, r, rfl, (exit_last_iff r).mpr (by simp only [NoLateStdout]; decide)⟩

/-- **Stdout outlives the exit event.**  Stderr ends, the child exits, and then stdout, which a
grandchild may hold open, brings data. -/
theorem late_stdout : ∃ h s, (machine Unit).Run (start (.example 0)) h s ∧
    h.inputs = spawned ++ [.stderrCb UV_EOF [], .exitCb 55 0, .stdoutCb 1 [65]] ∧
    s.pc = .returned 0 ∧ ¬ ExitLast h.outputs := by
  refine ⟨_, _, Machine.exec_run (spawned ++ [.stderrCb UV_EOF [], .exitCb 55 0,
    .stdoutCb 1 [65]]) rfl, rfl, rfl, ?_⟩
  simp only [ExitLast]
  decide

end Child

end Dorypuppy
