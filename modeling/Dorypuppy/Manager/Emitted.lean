import Dorypuppy.Manager.Frames

/-!
# Manager — what the children emit

The calls of `emit` of one child, in the order of the run (`emitted`), step by step: a callback
emits the event it raises, and nothing else emits.  The exit event of a child has been emitted
exactly when the child is done (`run_done`).
-/

namespace Dorypuppy.Manager

open Child (Reached born done)
open Support (Machine History)
open Function (update update_self update_of_ne)

variable {s s' : State} {l : Label} {os : List Event} {c : ObjId}

/-- A call of `emit` of the child `c`. -/
def Event.emit? (c : ObjId) : Event → Option (String × Args)
  | .act c' (.emit name args) => if c' = c then some (name, args) else none
  | _ => none

/-- The calls of `emit` of a child. -/
def emitted (c : ObjId) (os : List Event) : List (String × Args) := os.filterMap (Event.emit? c)

@[simp] theorem emitted_nil (c : ObjId) : emitted c [] = [] := rfl

@[simp] theorem emitted_append (c : ObjId) (os os' : List Event) :
    emitted c (os ++ os') = emitted c os ++ emitted c os' := List.filterMap_append

theorem mem_emitted {os : List Event} {name : String} {args : Args} :
    (name, args) ∈ emitted c os ↔ .act c (.emit name args) ∈ os := by
  rw [emitted, List.mem_filterMap]
  constructor
  · rintro ⟨e, he, h⟩
    unfold Event.emit? at h
    split at h
    · simp only [Option.ite_none_right_eq_some, Option.some.injEq, Prod.mk.injEq] at h
      obtain ⟨rfl, rfl, rfl⟩ := h
      exact he
    · cases h
  · exact fun h => ⟨_, h, by simp [Event.emit?]⟩

/-- The event a child raises in a step. -/
def raisedBy (c : ObjId) (s : State) : Label → Option (JniCallback × Args)
  | .callback c' i =>
      if c' = c then (s.objs c).bind fun sp => raised sp.child.obj i else none
  | _ => none

theorem raisedBy_callback {sp : Spawn} (h : s.objs c = some sp) (i : Input) :
    raisedBy c s (.callback c i) = raised sp.child.obj i := by
  simp [raisedBy, h]

theorem emitted_quiet {as : List (Act JniCallback)} (hq : ∀ a ∈ as, isQuiet a = true)
    (c' : ObjId) : emitted c (as.map (.act c')) = [] := by
  simp only [emitted, List.filterMap_eq_nil_iff, List.mem_map]
  rintro e ⟨a, ha, rfl⟩
  have := hq a ha
  cases a with
  | emit => cases this
  | _ => rfl

theorem emitted_other {as : List (Act JniCallback)} {c' : ObjId} (hne : c' ≠ c) :
    emitted c (as.map (.act c')) = [] := by
  simp only [emitted, List.filterMap_eq_nil_iff, List.mem_map]
  rintro e ⟨a, -, rfl⟩
  cases a with
  | emit => simp [Event.emit?, hne]
  | _ => rfl

theorem spawnStep_quiet {o : DoryProcessSpawn JniCallback} {pc : SpawnPc} {i : Input}
    {ch : Child JniCallback} {as : List (Act JniCallback)}
    (h : Child.spawnStep o pc i = some (ch, as)) : ∀ a ∈ as, isQuiet a = true := by
  cases Child.spawnStep_inv h with
  | timerCb | exitCb | stdoutCb | stderrCb | kill => simp [Child.spawnStep] at h
  | _ => simp [isQuiet, DoryProcessSpawn.kill]

theorem callbackTail_quiet (ch : Child JniCallback) (i : Input) :
    ∀ a ∈ ch.callbackTail i, isQuiet a = true := by
  cases i <;> simp [Child.callbackTail, DoryProcessSpawn.timerCbTail, DoryProcessSpawn.readCbTail,
    isQuiet]

/-- A callback emits the event it raises. -/
theorem emitted_callback {ch ch' : Child JniCallback} {i : Input} {as : List (Act JniCallback)}
    (hl : ch.obj.listeners = jniListeners) (h : ch.callbackHead i = some (ch', as)) :
    emitted c (as.map (.act c)) = (raised ch.obj i).toList.map fun x => (x.1.name, x.2) := by
  obtain ⟨quiet, hq, rfl⟩ := callback_acts hl h
  rw [List.map_append, emitted_append, emitted_quiet hq, List.nil_append]
  cases raised ch.obj i with
  | none => rfl
  | some x => simp [emitted, Event.emit?]

theorem step_emitted (ok : Objects s) (hs : Step s l s' os) :
    emitted c os = (raisedBy c s l).toList.map fun x => (x.1.name, x.2) := by
  -- the acts of a callback of any child
  have callback {c' : ObjId} {i : Input} {sp : Spawn} {ch : Child JniCallback}
      {as : List (Act JniCallback)} (hsp : s.objs c' = some sp)
      (hst : sp.child.callbackHead i = some (ch, as)) : emitted c (as.map (.act c')) =
        (raisedBy c s (.callback c' i)).toList.map fun x => (x.1.name, x.2) := by
    by_cases hc : c' = c
    · subst hc
      rw [raisedBy_callback hsp, emitted_callback (ok.reached c' sp hsp).2 hst]
    · simp [emitted_other hc, raisedBy, hc]
  cases hs with
  | spawn _ _ _ hst => exact emitted_quiet (spawnStep_quiet hst) _
  | @callback c' i sp ch as _ hsp hst =>
      rw [List.map_append, emitted_append, emitted_quiet (callbackTail_quiet ch i),
        List.append_nil]
      exact callback hsp hst
  | callbackInvoke _ hsp hst => exact callback hsp hst
  | tail => exact emitted_quiet (callbackTail_quiet _ _) _
  | javaPut => split <;> rfl
  | _ => rfl

/-! ### The exit event -/

/-- A callback leaves a child done when it was done or the callback raises its exit event. -/
theorem done_callback {ch ch' : Child JniCallback} {i : Input} {as : List (Act JniCallback)}
    (h : ch.callbackHead i = some (ch', as)) :
    done ch' = (done ch || (raised ch.obj i).any (·.1 = .exit)) := by
  have hst := Child.callbackHead_step h
  rw [done, Child.step_exited hst, Child.step_flushed hst, done]
  cases i with
  | timerCb => simp [Input.exits, Input.endsErr, raised]
  | exitCb e g =>
      by_cases hf : ch.obj.stderrFlushed = true <;> simp [Input.exits, Input.endsErr, raised, hf]
  | stdoutCb nread buf =>
      simp only [Input.exits, Input.endsErr, raised, Bool.or_false]
      split <;> simp
  | stderrCb nread buf =>
      simp only [Input.exits, Input.endsErr, raised, Bool.or_false]
      by_cases hn : 0 < nread
      · have hneg : ¬ nread < 0 := by omega
        simp [hn, hneg]
      · by_cases hneg : nread < 0 <;> by_cases hx : ch.obj.exited = true <;> simp [hn, hneg, hx]
  | _ => cases h

theorem done_spawnStep {ch ch' : Child JniCallback} {i : Input} {as : List (Act JniCallback)}
    (h : Child.spawnStep ch.obj ch.pc i = some (ch', as)) : done ch' = done ch := by
  have hst := Child.spawnStep_step h
  rw [done, Child.step_exited hst, Child.step_flushed hst, done]
  cases i with
  | exitCb | stderrCb => simp [Child.spawnStep] at h
  | _ => simp [Input.exits, Input.endsErr]

/-- A child that is done has raised its exit event, and raises it once. -/
theorem done_raised {ch ch' : Child JniCallback} {i : Input} {as : List (Act JniCallback)}
    {args : Args} (hr : Reached ch) (h : ch.callbackHead i = some (ch', as))
    (hk : raised ch.obj i = some (.exit, args)) : done ch = false := by
  by_contra hd
  simp only [done, Bool.not_eq_false, Bool.and_eq_true] at hd
  cases i with
  | exitCb e g =>
      simp only [Child.callbackHead, Option.ite_none_right_eq_some, hr.exited hd.1] at h
      exact absurd h.1 (by simp)
  | stderrCb nread buf =>
      simp only [Child.callbackHead, Option.ite_none_right_eq_some, hr.flushed hd.2] at h
      exact absurd h.1 (by simp)
  | stdoutCb nread buf => simp [raised] at hk
  | _ => cases hk

/-- A child is done when it was done, or the step raises its exit event. -/
theorem step_done (ok : Objects s) (hs : Step s l s' os) {sp' : Spawn}
    (h : s'.objs c = some sp') : done sp'.child =
      ((s.objs c).any (fun sp => done sp.child) || (raisedBy c s l).any (·.1 = .exit)) := by
  cases obj_change hs h with
  | same h' hne =>
      have hraised : raisedBy c s l = none := by
        cases l with
        | callback c' i =>
            refine if_neg ?_
            rintro rfl
            exact hne i rfl
        | _ => rfl
      simp [h', hraised]
  | new _ _ hn =>
      subst hn
      rw [ok.fresh s.next le_rfl]
      rfl
  | put _ h' => simp [h', raisedBy]
  | spawn _ _ h' hst => simp [h', raisedBy, done_spawnStep hst]
  | callback h' hst => rw [h', raisedBy_callback h', Option.any_some, done_callback hst]

/-- **The exit event of a child has been emitted exactly when the child is done.** -/
theorem run_done {puppies : PuppyId → List (Option JString) × StringTable}
    {C : State → Label → Prop} {h : History Label Event}
    (r : machine.RunWhere C (.init puppies) h s) :
    (∃ args, Event.act c (.emit "exit" args) ∈ h.outputs) ↔
      (s.objs c).any (fun sp => done sp.child) := by
  refine r.inv (fun h s => (∃ args, Event.act c (.emit "exit" args) ∈ h.outputs) ↔
    (s.objs c).any (fun sp => done sp.child)) ?_ ?_
  · simp [State.init]
  · intro h s s' l os r _ hs ih
    have v := run_inv r
    obtain ⟨-, hs⟩ := step_inv hs
    have hnew : (∃ args, Event.act c (.emit "exit" args) ∈ os) ↔
        (raisedBy c s l).any (·.1 = .exit) := by
      simp only [← mem_emitted, step_emitted v.objects hs]
      cases raisedBy c s l with
      | none => simp
      | some x =>
          obtain ⟨k, args⟩ := x
          cases k <;> simp [JniCallback.name]
    rw [History.outputs_append, History.outputs_cons, History.outputs_nil, List.append_nil]
    simp only [List.mem_append, exists_or]
    rw [ih, hnew]
    cases hsp' : s'.objs c with
    | some sp' =>
        rw [Option.any_some, step_done v.objects hs hsp', Bool.or_eq_true]
    | none =>
        have hsp : s.objs c = none := by
          by_contra hsp
          obtain ⟨sp, hsp⟩ := Option.ne_none_iff_exists'.mp hsp
          obtain ⟨sp', h, -⟩ := step_later v.objects v.calls hs hsp
          rw [hsp'] at h
          cases h
        have hraised : raisedBy c s l = none := by
          cases l with
          | callback c' i => simp [raisedBy, hsp]
          | _ => rfl
        simp [hsp, hraised]

end Dorypuppy.Manager
