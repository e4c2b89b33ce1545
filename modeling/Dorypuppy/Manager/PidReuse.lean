import Mathlib.Data.List.Range
import Dorypuppy.Manager.Signals

/-!
# Manager — reused pids

The two maps are keyed by the bare pid, and nothing in an entry or in an event says which child it
is of.  An entry stays until the exit event and stdout may stay open after it, so when the operating
system gives a pid away again as soon as `exit_cb` has run, the events of the old child reach the
`DoryProcess` of the new one (`event_of_other`).

`attributed`: in every run in which a pid is given away only once nothing of an earlier child with
it is left, neither an event to come nor an entry, each event reaches the `DoryProcess` whose
`start()` made the child, and the exit event removes the entries of its own child only.
-/

namespace Dorypuppy.Manager

open Child (Reached born)
open Support (Machine History)
open Function (update update_self update_of_ne)

variable {s s' : State} {l : Label} {os : List Event}

/-- Nothing of a child is left to come: it has ended, its call has passed `processList.put` or its
`spawn()` failed, and no callback of it is running. -/
def finished (s : State) (c : ObjId) (sp : Spawn) : Bool :=
  Child.ended sp.child &&
  (sp.stage = .java || match sp.child.pc with
    | .returned r => r < 0
    | _ => false) &&
  s.frame.all fun f => f.child ≠ c

/-- `uv_spawn` takes a pid that no map has and that every earlier child with it has done with. -/
def pidDone (s : State) : Label → Bool
  | .spawn _ (.uvSpawn (.ok pid)) =>
      (s.javaList pid).isNone && (s.nativeList pid).isNone &&
      (List.range s.next).all fun c => (s.objs c).all fun sp =>
        !(born sp.child && sp.child.obj.process.pid = (pid : Int)) || finished s c sp
  | _ => true

/-- A step that reuses a pid only when it is done with. -/
abbrev PidDone (s : State) (l : Label) : Prop := pidDone s l = true

/-- A child with the pid that is not finished. -/
def Unfinished (s : State) (c : ObjId) (q : Int) : Prop :=
  ∃ sp, s.objs c = some sp ∧ born sp.child = true ∧ sp.child.obj.process.pid = q ∧
    finished s c sp = false

theorem PidDone.spawn {t : Tid} {pid : Pid} (hC : PidDone s (.spawn t (.uvSpawn (.ok pid))))
    (ok : Objects s) :
    s.javaList pid = none ∧ s.nativeList pid = none ∧ ∀ c, ¬ Unfinished s c pid := by
  simp only [PidDone, pidDone, Bool.and_eq_true, Option.isNone_iff_eq_none] at hC
  obtain ⟨⟨hj, hn⟩, hall⟩ := hC
  refine ⟨hj, hn, ?_⟩
  rintro c ⟨sp, hsp, hb, hpid, hf⟩
  have := List.all_eq_true.mp hall c (List.mem_range.mpr (ok.lt hsp))
  simp [hsp, hb, hpid, hf] at this

/-! ### Finished children -/

/-- A finished child stays finished. -/
theorem finished_stays (v : Inv s) (hs : Step s l s' os) {c : ObjId} {sp : Spawn}
    (h : s.objs c = some sp) (hf : finished s c sp = true) :
    ∃ sp', s'.objs c = some sp' ∧ finished s' c sp' = true := by
  obtain ⟨sp', hsp', hl⟩ := step_later v.objects v.calls hs h
  simp only [finished, Bool.and_eq_true, Bool.or_eq_true, decide_eq_true_eq,
    Option.all_eq_true] at hf ⊢
  obtain ⟨⟨hended, hset⟩, hframe⟩ := hf
  have idle (i : Input) := (v.objects.reached c sp h).1.ended (i := i) hended
  have hch : sp'.child = sp.child := by
    cases obj_change hs hsp' with
    | same h' _ => cases h.symm.trans h'; rfl
    | new _ _ hn =>
        subst hn
        exact absurd (v.objects.lt h) (lt_irrefl _)
    | put _ h' => cases h.symm.trans h'; rfl
    | spawn _ _ h' hst =>
        cases h.symm.trans h'
        rw [(idle _).2] at hst
        cases hst
    | callback h' hst =>
        cases h.symm.trans h'
        rw [(idle _).1] at hst
        cases hst
  refine ⟨sp', hsp', ⟨hch ▸ hended, ?_⟩, fun f hf' hc => ?_⟩
  · rw [hch]
    exact hset.imp_left hl.java
  · rcases frame_back hs hf' with ⟨f₀, hf₀, hff, -⟩ | ⟨-, -, sp₁, ch, as, hsp₁, hst⟩
    · rw [hff] at hc
      exact hframe f₀ hf₀ hc
    · rw [hc] at hsp₁
      cases h.symm.trans hsp₁
      rw [(idle _).1] at hst
      cases hst

/-- An unfinished child was one, or has just been given its pid. -/
theorem unfinished_back (v : Inv s) (hs : Step s l s' os) {c : ObjId} {q : Int}
    (h : Unfinished s' c q) : Unfinished s c q ∨
      ∃ t pid call, l = .spawn t (.uvSpawn (.ok pid)) ∧ s.calls t = some call ∧
        call.pc = .spawning c ∧ q = pid := by
  obtain ⟨sp', hsp', hb', rfl, hf'⟩ := h
  rcases born_back v.objects hs hsp' hb' with ⟨sp, hsp, hb, hp⟩ | ⟨t, pid, call, hl, hc, hpc, hp⟩
  · refine .inl ⟨sp, hsp, hb, hp, ?_⟩
    by_contra hf
    obtain ⟨sp₁, hsp₁, hf₁⟩ := finished_stays v hs hsp (by simpa using hf)
    cases hsp'.symm.trans hsp₁
    rw [hf₁] at hf'
    cases hf'
  · exact .inr ⟨t, pid, call, hl, hc, hpc, hp⟩

/-! ### One unfinished child to a pid -/

/-- A pid has one unfinished child at most, and while it has one the entries under the pid are
those of this child. -/
structure Apart (s : State) : Prop where
  one : ∀ q c c', Unfinished s c q → Unfinished s c' q → c = c'
  native : ∀ q e c, s.nativeList q = some (some e) → Unfinished s c q → e.child = c
  java : ∀ q e c, s.javaList q = some e → Unfinished s c q → e.child = c

/-- A child whose call has not put it in the Java map is unfinished. -/
theorem unfinished_call (v : Inv s) {c : ObjId} {sp : Spawn} (hsp : s.objs c = some sp)
    (hst : sp.stage ≠ .java) (hret : sp.child.pc = .returned 0) :
    Unfinished s c sp.child.obj.process.pid := by
  have hstored := (v.objects.reached c sp hsp).1.started hret
  exact ⟨sp, hsp, hstored.1, rfl, by simp [finished, hst, hret]⟩

theorem step_apart (v : Inv s) (a : Apart s) (hC : PidDone s l) (hs : Step s l s' os) :
    Apart s' := by
  have back {c : ObjId} {q : Int} (h : Unfinished s' c q) := unfinished_back v hs h
  -- an entry that was there is that of the child, new or old
  have entry {q : Int} {c c₀ : ObjId} (h : Unfinished s' c q)
      (hold : Unfinished s c q → c₀ = c)
      (hnew : ∀ t pid, l = .spawn t (.uvSpawn (.ok pid)) → q ≠ pid) : c₀ = c := by
    rcases back h with h | ⟨t, pid, call, hl, -, -, hq⟩
    · exact hold h
    · exact absurd hq (hnew t pid hl)
  refine ⟨fun q c c' h h' => ?_, fun q e c he h => ?_, fun q e c he h => ?_⟩
  · rcases back h with h | ⟨t, pid, call, rfl, hc, hpc, rfl⟩
    · rcases back h' with h' | ⟨t, pid, call, rfl, -, -, rfl⟩
      · exact a.one q c c' h h'
      · exact absurd h ((hC.spawn v.objects).2.2 c)
    · rcases back h' with h' | ⟨t', pid', call', hl, hc', hpc', -⟩
      · exact absurd h' ((hC.spawn v.objects).2.2 c')
      · cases hl
        cases hc.symm.trans hc'
        cases hpc.symm.trans hpc'
        rfl
  · have old (he : s.nativeList q = some (some e)) : e.child = c := by
      refine entry h (a.native q e c he) ?_
      rintro t pid rfl rfl
      rw [(hC.spawn v.objects).2.1] at he
      cases he
    rcases native_back v hs he with he | ⟨t, mem, now, call, sp, rfl, -, -, hsp, hst, hret, rfl⟩
    · exact old he
    · refine entry h (fun h => a.one _ _ _ ?_ h) (by rintro t pid ⟨⟩)
      exact unfinished_call v hsp (by rw [hst]; decide) hret
  · have old (he : s.javaList q = some e) : e.child = c := by
      refine entry h (a.java q e c he) ?_
      rintro t pid rfl rfl
      rw [(hC.spawn v.objects).1] at he
      cases he
    rcases java_back v hs he with he | ⟨t, mem, now, call, sp, rfl, -, -, hsp, hst, hret, rfl⟩
    · exact old he
    · refine entry h (fun h => a.one _ _ _ ?_ h) (by rintro t pid ⟨⟩)
      exact unfinished_call v hsp (by rw [hst]; decide) hret

theorem run_apart {puppies : PuppyId → List (Option JString) × StringTable}
    {h : History Label Event} (r : machine.RunWhere PidDone (.init puppies) h s) : Apart s := by
  refine r.inv (fun _ s => Apart s) ⟨?_, ?_, ?_⟩ ?_
  · rintro q c c' ⟨sp, hsp, -⟩
    cases hsp
  · intro q e c he
    cases he
  · intro q e c he
    cases he
  · intro h s s' l os r hC hs a
    exact step_apart (run_inv r) a hC (step_inv hs).2

/-! ### Attribution -/

/-- An effect of a child of the `DoryProcess` it is on, or on an entry of the child. -/
def Event.Attributed (s : State) : Event → Prop
  | .listener p _ _ _ _ c | .wrote p _ c => ∃ sp, s.objs c = some sp ∧ sp.puppy = p
  | .removed _ (some c') c | .erased _ (some c') c => c' = c
  | _ => True

/-- A timeout event under a pid that is not that of its child. -/
def Event.Early (s : State) : Event → Prop
  | .listener _ _ .timeout pid _ c =>
      ¬ ∃ sp, s.objs c = some sp ∧ born sp.child = true ∧ sp.child.obj.process.pid = pid
  | _ => False

/-- **Events are attributed to the right child.**  In every run in which a pid is reused only when
it is done with, each call of a listener and each write is an event of a child that `start()` of
the same `DoryProcess` made, timeouts raised before the pid was stored aside, and what the exit
event of a child removes from the maps are entries of this child. -/
theorem attributed {puppies : PuppyId → List (Option JString) × StringTable}
    {h : History Label Event} (r : machine.RunWhere PidDone (.init puppies) h s)
    (hs : s.step l = some (s', os)) {e : Event} (he : e ∈ os) (hearly : ¬ e.Early s) :
    e.Attributed s := by
  have v := run_inv r
  have a := run_apart r
  obtain ⟨-, hs⟩ := step_inv hs
  -- the child of the callback, whose pid it was given
  have child {f : Frame} (hf : s.frame = some f) (hpid : f.method = .timeout →
      ∃ sp, s.objs f.child = some sp ∧ born sp.child = true ∧
        sp.child.obj.process.pid = f.pid) : Unfinished s f.child f.pid := by
    obtain ⟨sp, hsp, hb, hp⟩ : ∃ sp, s.objs f.child = some sp ∧ born sp.child = true ∧
        sp.child.obj.process.pid = f.pid := by
      by_cases hm : f.method = .timeout
      · exact hpid hm
      · obtain ⟨sp, hsp, hst, -⟩ := v.frames.obj f hf
        exact ⟨sp, hsp, (hst hm).1, (hst hm).2.symm⟩
    exact ⟨sp, hsp, hb, hp, by simp [finished, hf]⟩
  have owner {f : Frame} {x : JavaEntry} (hu : Unfinished s f.child f.pid)
      (hx : s.javaList f.pid = some x) : ∃ sp, s.objs f.child = some sp ∧ sp.puppy = x.puppy := by
    obtain ⟨sp, hsp, -, hp, -⟩ := v.entries.java f.pid x hx
    rw [a.java f.pid x f.child hx hu] at hsp
    exact ⟨sp, hsp, hp⟩
  have exits {f : Frame} (hf : s.frame = some f) (hpc : f.pc.ofExit = true) :
      Unfinished s f.child f.pid := by
    refine child hf fun hm => ?_
    rw [v.frames.ofExit f hf hpc] at hm
    cases hm
  cases hs with
  | @listener now f x l' hf hpc hx hl =>
      obtain rfl := List.mem_singleton.mp he
      refine owner (child hf fun hm => ?_) hx
      rw [hm] at hearly
      exact not_not.mp hearly
  | @write now f w pc' x hf hw hx =>
      obtain rfl := List.mem_singleton.mp he
      exact owner (exits hf (Frame.write_pc hw).1) hx
  | @remove now f hf hpc =>
      obtain rfl := List.mem_singleton.mp he
      cases hx : s.javaList f.pid with
      | none => trivial
      | some x => exact a.java f.pid x f.child hx (exits hf (by rw [hpc]; rfl))
  | @erase now f hf hpc =>
      obtain rfl := List.mem_singleton.mp he
      cases hx : (s.nativeList f.pid).join with
      | none => trivial
      | some x =>
          exact a.native f.pid x f.child (Option.join_eq_some_iff.mp hx)
            (exits hf (by rw [hpc]; rfl))
  | spawn | callback | callbackInvoke | tail =>
      obtain ⟨_, -, rfl⟩ := List.mem_map.mp he
      trivial
  | javaPut =>
      split at he
      · cases he
      · obtain rfl := List.mem_singleton.mp he
        trivial
  | javaThrow | setStartedAt | killDeref | nullDeref =>
      obtain rfl := List.mem_singleton.mp he
      trivial
  | _ => cases he

/-- The end of a child without listener: both streams end, and its exit event is handled. -/
def ends (c : ObjId) : List Label := .callback c (.stdoutCb UV_EOF []) :: exits c

theorem attributed_example : ∃ h s s' os,
    machine.RunWhere PidDone (.init examplePuppies) h s ∧
    h.inputs = startsWith (.caller 0) 0 7 ++ ends 0 ++
      startsWith (.caller 0) 1 7 ++
      [.callback 1 (.stderrCb UV_EOF []), .callback 1 (.exitCb 3 0), .jni 0] ∧
    s.step (.jni 0) = some (s', os) ∧ .wrote 1 (.code 3) 1 ∈ os ∧
    (Event.wrote 1 (.code 3) 1).Attributed s := by
  have r := Machine.execWhere_run (M := machine) (C := pidDone) (s := .init examplePuppies)
    (startsWith (.caller 0) 0 7 ++ ends 0 ++
      startsWith (.caller 0) 1 7 ++
      [.callback 1 (.stderrCb UV_EOF []), .callback 1 (.exitCb 3 0), .jni 0]) rfl
  refine ⟨_, _, _, _, r, rfl, rfl, .head _,
    attributed (l := .jni 0) r rfl (.head _) fun h => h⟩

/-- **The exit of one child written to another `DoryProcess`.**  The first child is reaped while its
stderr is still open, a second `DoryProcess` gets its pid, and the exit event of the first child
writes to the second one, whose child is running, and removes its entry. -/
theorem event_of_other : ∃ h s s' os, machine.Run (.init examplePuppies) h s ∧
    h.inputs = startsWith (.caller 0) 0 7 ++ [.callback 0 (.exitCb 3 0)] ++
      startsWith (.caller 0) 1 7 ++
      [.callback 0 (.stderrCb UV_EOF []), .jni 0, .jni 0, .jni 0, .jni 0, .jni 0] ∧
    .wrote 1 (.code 3) 0 ∈ h.outputs ∧ (s.objs 0).map Spawn.puppy = some 0 ∧
    s.step (.jni 0) = some (s', os) ∧ os = [.removed 7 (some 1) 0] ∧
    s.os 7 = some (.child 1) := by
  refine ⟨_, _, _, _, Machine.exec_run (M := machine) (s := .init examplePuppies)
    (startsWith (.caller 0) 0 7 ++ [.callback 0 (.exitCb 3 0)] ++
      startsWith (.caller 0) 1 7 ++
      [.callback 0 (.stderrCb UV_EOF []), .jni 0, .jni 0, .jni 0, .jni 0, .jni 0]) rfl, rfl, ?_,
    rfl, rfl, rfl, rfl⟩
  exact List.mem_of_elem_eq_true rfl

end Dorypuppy.Manager
