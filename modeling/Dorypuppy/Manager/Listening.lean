import Dorypuppy.Manager.Delivery

/-!
# Manager — what the listeners get

What the listeners get of a child in any run, whatever is late, reused or thrown.

* `listened_sublist`: the listener calls a child causes are some of the events it emitted, in their
  order and with their arguments, the exit event and the timeout at most once.
* `exit_listener_last`: when pids are not reused and the listeners return, the exit listener is the
  last one called for a child.  The child itself may emit more: the read callback of its stdout goes
  on until the stream ends, but `jniExit` has taken the entry away.
-/

namespace Dorypuppy.Manager

open Child (Reached born done)
open Support (Machine History)
open Function (update update_self update_of_ne)

variable {s s' : State} {l : Label} {os : List Event} {c : ObjId}

/-! ### Listener calls and events -/

/-- A listener called for the child: the event and the arguments. -/
def Event.listened? (c : ObjId) : Event → Option (String × JArgs)
  | .listener _ _ k _ args c' => if c' = c then some (k.name, args) else none
  | _ => none

/-- The listener calls a child causes. -/
def listened (c : ObjId) (os : List Event) : List (String × JArgs) :=
  os.filterMap (Event.listened? c)

/-- The events of a child, with the arguments a listener would get. -/
def said (c : ObjId) (os : List Event) : List (String × JArgs) :=
  (emitted c os).map fun x => (x.1, jniArgs x.2)

/-- The event of the child in the method of `DoryPuppy`, before its listener. -/
def carried (s : State) (c : ObjId) : List (String × JArgs) :=
  match s.frame with
  | some f => if f.child = c ∧ f.pc.undelivered = true then [(f.method.name, f.args)] else []
  | none => []

@[simp] theorem listened_append (c : ObjId) (os os' : List Event) :
    listened c (os ++ os') = listened c os ++ listened c os' := List.filterMap_append

@[simp] theorem said_append (c : ObjId) (os os' : List Event) :
    said c (os ++ os') = said c os ++ said c os' := by
  simp [said]

theorem listened_acts (c' : ObjId) (as : List (Act JniCallback)) :
    listened c (as.map (.act c')) = [] := by
  simp [listened, Event.listened?]

theorem step_said (ok : Objects s) (hs : Step s l s' os) :
    said c os = (raisedBy c s l).toList.map fun x => (x.1.name, jniArgs x.2) := by
  rw [said, step_emitted ok hs, List.map_map]
  rfl

theorem carried_of {f : Frame} (hf : s.frame = some f) : carried s c =
    if f.child = c ∧ f.pc.undelivered = true then [(f.method.name, f.args)] else [] := by
  rw [carried, hf]

/-- A callback that goes on carries no more than before. -/
theorem carried_moved {f : Frame} {pc : JniPc} (hf : s.frame = some f)
    (hf' : s'.frame = some { f with pc := pc })
    (h : pc.undelivered = true → f.pc.undelivered = true) :
    (carried s' c).Sublist (carried s c) := by
  rw [carried_of hf, carried_of hf']
  by_cases hu : f.child = c ∧ pc.undelivered = true
  · rw [if_pos hu, if_pos ⟨hu.1, h hu.2⟩]
  · rw [if_neg hu]
    exact List.nil_sublist _

theorem Frame.found_undelivered (f : Frame) : f.found.undelivered = true := by
  unfold Frame.found
  split <;> rfl

theorem Frame.after_undelivered (f : Frame) : f.after.undelivered = false := by
  unfold Frame.after
  split <;> rfl

theorem Frame.thrown_undelivered (f : Frame) : f.thrown.undelivered = false := by
  unfold Frame.thrown
  split <;> rfl

/-- What a step delivers and then carries, it carried before or raises. -/
theorem step_listened (v : Inv s) (hs : Step s l s' os) :
    (listened c os ++ carried s' c).Sublist (carried s c ++ said c os) := by
  rw [step_said v.objects hs]
  have moves {f : Frame} {pc : JniPc} (hf : s.frame = some f)
      (hf' : s'.frame = some { f with pc := pc }) (hl : listened c os = [])
      (h : pc.undelivered = true → f.pc.undelivered = true) :
      (listened c os ++ carried s' c).Sublist
        (carried s c ++ (raisedBy c s l).toList.map fun x => (x.1.name, jniArgs x.2)) := by
    rw [hl, List.nil_append]
    exact (carried_moved hf hf' h).trans (List.sublist_append_left _ _)
  have stays (hl : listened c os = []) (hc : carried s' c = carried s c) :
      (listened c os ++ carried s' c).Sublist
        (carried s c ++ (raisedBy c s l).toList.map fun x => (x.1.name, jniArgs x.2)) := by
    rw [hl, hc, List.nil_append]
    exact List.sublist_append_left _ _
  cases hs with
  | spawn | callback => exact stays (listened_acts _ _) rfl
  | @callbackInvoke c₁ i sp ch as k args pid hnone hsp hst hinv =>
      rw [invoked_eq (v.objects.reached c₁ sp hsp).2 hst, Option.map_eq_some_iff] at hinv
      obtain ⟨⟨k, args⟩, hk, ⟨⟩⟩ := hinv
      rw [listened_acts, List.nil_append]
      refine List.Sublist.trans ?_ (List.sublist_append_right _ _)
      by_cases hc : c₁ = c
      · subst hc
        rw [raisedBy_callback hsp, hk]
        simp [carried, JniPc.undelivered]
      · simp [carried, hc]
  | @jniMove now f pc' hf hm =>
      refine moves hf rfl rfl fun hu => ?_
      generalize hpc : f.pc = pc at hm
      cases hm with
      | contains | listener => rfl
      | absent | noListener =>
          rw [Frame.after_undelivered] at hu
          cases hu
  | @write now f w pc' e hf hw he =>
      refine moves hf rfl rfl fun _ => ?_
      rw [JniPc.undelivered, (Frame.write_pc hw).2.1, Bool.or_true]
  | @listener now f e lis hf hpc he hl =>
      rw [carried_of hf, hpc]
      by_cases hc : f.child = c
      · simp [listened, Event.listened?, carried, hc, JniPc.undelivered, JniPc.hasFound]
      · simp [listened, Event.listened?, carried, hc]
  | nullPointer hf | listenerThrows hf =>
      refine moves hf rfl rfl fun hu => ?_
      rw [Frame.thrown_undelivered] at hu
      cases hu
  | remove hf | erase hf => exact moves hf rfl rfl fun hu => by cases hu
  | tail hf =>
      rw [listened_acts, List.nil_append]
      exact List.nil_sublist _
  | listenerReturns hf =>
      refine moves hf rfl rfl fun hu => ?_
      rw [Frame.after_undelivered] at hu
      cases hu
  | javaPut =>
      refine stays ?_ rfl
      split <;> rfl
  | _ => exact stays rfl rfl

/-! ### At most once -/

/-- The timer of the child is armed, or `spawn()` has yet to start it. -/
def mayFire (ch : Child JniCallback) : Bool := ch.obj.timer.armed || ch.pc.rank ≤ 1

/-- A timer that may fire could before, and one that has fired will not again. -/
theorem mayFire_back {ch ch' : Child JniCallback} {i : Input} {as : List (Act JniCallback)}
    (hr : Reached ch) (hst : Child.step ch i = some (ch', as)) (h : mayFire ch' = true) :
    mayFire ch = true ∧ i.fires = false := by
  obtain ⟨c, is, t, -⟩ := hr.tracks
  have hlate (ha : ch.obj.timer.armed = true) : 2 ≤ ch.pc.rank := by
    rw [t.armed] at ha
    simp only [Bool.and_eq_true] at ha
    exact t.arms ha.1
  have hrank := Child.step_rank hst
  simp only [mayFire, Bool.or_eq_true, decide_eq_true_eq] at h ⊢
  cases Child.step_inv hst with
  | timerCb ha =>
      have h2 := hlate ha
      exfalso
      rcases h with h | h
      · rw [DoryProcessSpawn.timerCbHead_fst] at h
        dsimp only at h
        split at h <;> simp at h
      · exact absurd h2 (by dsimp only at h ⊢; omega)
  | timerStart => exact ⟨.inr le_rfl, rfl⟩
  | exitCb =>
      refine ⟨h.imp (fun h => ?_) id, rfl⟩
      rw [DoryProcessSpawn.exitCb_fst] at h
      dsimp only at h
      split at h
      · simp at h
      · exact h
  | enterTimed | enterUntimed => exact ⟨.inr (Nat.zero_le _), rfl⟩
  | stdoutCb | stderrCb =>
      refine ⟨h.imp (fun h => ?_) id, rfl⟩
      simp only [DoryProcessSpawn.stdoutCbHead_fst, DoryProcessSpawn.stderrCbHead_fst] at h
      split at h <;> exact h
  | _ => exact ⟨h.imp id (hrank.trans ·), rfl⟩

/-- The event is one of the kind. -/
theorem countP_said (k : JniCallback) (x : Option (JniCallback × Args)) :
    (x.toList.map fun x => (x.1.name, jniArgs x.2)).countP (fun y => y.1 = k.name) =
      if x.any (·.1 = k) then 1 else 0 := by
  cases x with
  | none => rfl
  | some x =>
      obtain ⟨k', args⟩ := x
      cases k <;> cases k' <;> simp [JniCallback.name]

/-- An event that is raised while something is left, and leaves nothing, is raised once. -/
theorem run_once {puppies : PuppyId → List (Option JString) × StringTable}
    {C : State → Label → Prop} {h : History Label Event} {k : JniCallback}
    {b : Option Spawn → Bool}
    (keep : ∀ {s l s' os}, Inv s → Step s l s' os → b (s'.objs c) = true →
      b (s.objs c) = true ∧ (raisedBy c s l).any (·.1 = k) = false)
    (spend : ∀ {s l s' os}, Inv s → Step s l s' os → (raisedBy c s l).any (·.1 = k) = true →
      b (s.objs c) = true)
    (r : machine.RunWhere C (.init puppies) h s) :
    (said c h.outputs).countP (fun x => x.1 = k.name) + (if b (s.objs c) then 1 else 0) ≤ 1 := by
  refine r.inv (fun h s => (said c h.outputs).countP (fun x => x.1 = k.name) +
    (if b (s.objs c) then 1 else 0) ≤ 1) ?_ ?_
  · rw [History.outputs_nil, said, emitted_nil]
    split <;> simp
  · intro h s s' l os r _ hs ih
    have v := run_inv r
    obtain ⟨-, hs⟩ := step_inv hs
    rw [History.outputs_append, History.outputs_cons, History.outputs_nil, List.append_nil,
      said_append, List.countP_append, step_said v.objects hs, countP_said]
    by_cases hx : (raisedBy c s l).any (·.1 = k) = true
    · have hleft : b (s'.objs c) = false := by
        by_contra hl
        rw [(keep v hs (by simpa using hl)).2] at hx
        cases hx
      rw [if_pos (spend v hs hx)] at ih
      rw [if_pos hx, hleft, if_neg Bool.false_ne_true]
      omega
    · rw [if_neg hx]
      by_cases hl : b (s'.objs c) = true
      · rw [if_pos (keep v hs hl).1] at ih
        rw [if_pos hl]
        omega
      · rw [if_neg hl]
        omega

theorem raisedBy_none (h : s.objs c = none) (l : Label) : raisedBy c s l = none := by
  cases l <;> simp [raisedBy, h]

/-- A timeout is raised by a timer that is armed. -/
theorem raised_timeout {ch ch' : Child JniCallback} {i : Input} {as : List (Act JniCallback)}
    {args : Args} (hst : ch.callbackHead i = some (ch', as))
    (hk : raised ch.obj i = some (.timeout, args)) :
    i.fires = true ∧ ch.obj.timer.armed = true := by
  cases i with
  | timerCb =>
      simp only [Child.callbackHead, Option.ite_none_right_eq_some] at hst
      exact ⟨rfl, hst.1⟩
  | exitCb | stdoutCb => simp only [raised] at hk; split at hk <;> cases hk
  | stderrCb =>
      simp only [raised] at hk
      split at hk
      · cases hk
      · split at hk <;> cases hk
  | _ => cases hk

/-- An event is raised by a callback. -/
theorem raisedBy_some (hs : Step s l s' os) {x : JniCallback × Args}
    (h : raisedBy c s l = some x) : ∃ i sp ch as, l = .callback c i ∧ s.objs c = some sp ∧
      sp.child.callbackHead i = some (ch, as) ∧ raised sp.child.obj i = some x := by
  cases hs with
  | @callback c₁ i sp ch as _ hsp hst | @callbackInvoke c₁ i sp ch as _ _ _ _ hsp hst =>
      by_cases hc : c₁ = c
      · subst hc
        rw [raisedBy_callback hsp] at h
        exact ⟨i, sp, ch, as, rfl, hsp, hst, h⟩
      · simp [raisedBy, hc] at h
  | _ => cases h

/-- A child that is not there after a step was not there before. -/
theorem objs_none (v : Inv s) (hs : Step s l s' os) (h : s'.objs c = none) :
    s.objs c = none := by
  by_contra hne
  obtain ⟨sp, hsp⟩ := Option.ne_none_iff_exists'.mp hne
  obtain ⟨sp', hsp', -⟩ := step_later v.objects v.calls hs hsp
  rw [h] at hsp'
  cases hsp'

section
variable {puppies : PuppyId → List (Option JString) × StringTable} {C : State → Label → Prop}
  {h : History Label Event} (r : machine.RunWhere C (.init puppies) h s)
include r

/-- The exit event is raised once. -/
theorem run_exit_once : (said c h.outputs).countP (fun x => x.1 = "exit") ≤ 1 := by
  have hle := run_once (c := c) (k := .exit) (b := fun o => !o.any fun sp => done sp.child)
    (fun {s l s' os} v hs hl => ?_) (fun {s l s' os} v hs hx => ?_) r
  · exact (Nat.le_add_right _ _).trans hle
  · cases hsp' : s'.objs c with
    | none =>
        have hnone := objs_none v hs hsp'
        rw [raisedBy_none hnone, hnone]
        exact ⟨rfl, rfl⟩
    | some sp' =>
        rw [hsp', Option.any_some, step_done v.objects hs hsp', Bool.not_or,
          Bool.and_eq_true, Bool.not_eq_true', Bool.not_eq_true'] at hl
        exact ⟨by rw [hl.1]; rfl, hl.2⟩
  · obtain ⟨⟨k, args⟩, hk, hkk⟩ := (Option.any_eq_true ..).mp hx
    obtain rfl : k = .exit := of_decide_eq_true hkk
    obtain ⟨i, sp, ch, as, -, hsp, hst, hk⟩ := raisedBy_some hs hk
    rw [hsp, Option.any_some, done_raised (v.objects.reached c sp hsp).1 hst hk]
    rfl

/-- So is the timeout. -/
theorem run_timeout_once : (said c h.outputs).countP (fun x => x.1 = "timeout") ≤ 1 := by
  have hle := run_once (c := c) (k := .timeout) (b := fun o => o.all fun sp => mayFire sp.child)
    (fun {s l s' os} v hs hl => ?_) (fun {s l s' os} v hs hx => ?_) r
  · exact (Nat.le_add_right _ _).trans hle
  · cases hsp' : s'.objs c with
    | none =>
        have hnone := objs_none v hs hsp'
        rw [raisedBy_none hnone, hnone]
        exact ⟨rfl, rfl⟩
    | some sp' =>
        rw [hsp', Option.all_some] at hl
        have step {sp : Spawn} {i : Input} {ch : Child JniCallback} {as : List (Act JniCallback)}
            (hsp : s.objs c = some sp) (hst : Child.step sp.child i = some (ch, as))
            (hl : mayFire ch = true) :
            (s.objs c).all (fun sp => mayFire sp.child) = true ∧ i.fires = false := by
          obtain ⟨hl, hi⟩ := mayFire_back (v.objects.reached c sp hsp).1 hst hl
          exact ⟨by rw [hsp]; exact hl, hi⟩
        cases obj_change hs hsp' with
        | same hsp hne =>
            refine ⟨by rw [hsp]; exact hl, ?_⟩
            rw [Option.any_eq_false]
            intro x hx
            obtain ⟨i, _, _, _, rfl, -⟩ := raisedBy_some hs hx
            exact absurd rfl (hne i)
        | new _ _ hn =>
            subst hn
            rw [v.objects.fresh s.next le_rfl]
            exact ⟨rfl, rfl⟩
        | put _ hsp => exact ⟨by rw [hsp]; exact hl, rfl⟩
        | spawn _ _ hsp hst => exact ⟨(step hsp (Child.spawnStep_step hst) hl).1, rfl⟩
        | @callback i sp ch as hsp hst =>
            obtain ⟨hl, hi⟩ := step hsp (Child.callbackHead_step hst) hl
            refine ⟨hl, ?_⟩
            rw [raisedBy_callback hsp, Option.any_eq_false]
            rintro ⟨k, args⟩ hk
            refine decide_eq_false ?_
            rintro rfl
            rw [(raised_timeout hst hk).1] at hi
            cases hi
  · obtain ⟨⟨k, args⟩, hk, hkk⟩ := (Option.any_eq_true ..).mp hx
    obtain rfl : k = .timeout := of_decide_eq_true hkk
    obtain ⟨i, sp, ch, as, -, hsp, hst, hk⟩ := raisedBy_some hs hk
    rw [hsp, Option.all_some, mayFire, (raised_timeout hst hk).2]
    rfl

end

/-- What listeners have got and what is on its way to one are among the events. -/
theorem run_listened {puppies : PuppyId → List (Option JString) × StringTable}
    {C : State → Label → Prop} {h : History Label Event}
    (r : machine.RunWhere C (.init puppies) h s) (c : ObjId) :
    (listened c h.outputs ++ carried s c).Sublist (said c h.outputs) := by
  refine r.inv (fun h s => (listened c h.outputs ++ carried s c).Sublist (said c h.outputs))
    (List.Sublist.refl _) ?_
  intro h s s' l os r _ hs ih
  rw [History.outputs_append, History.outputs_cons, History.outputs_nil, List.append_nil,
    listened_append, said_append, List.append_assoc]
  refine ((step_listened (run_inv r) (step_inv hs).2).append_left _).trans ?_
  rw [← List.append_assoc]
  exact ih.append_right _

/-- **Nothing is made up.**  In every run the listener calls a child causes are a sublist of the
events it emitted, with their arguments: none is called twice for one event, none out of order, and
the exit listener and the timeout listener at most once for the child. -/
theorem listened_sublist {puppies : PuppyId → List (Option JString) × StringTable}
    {h : History Label Event} (r : machine.Run (.init puppies) h s) (c : ObjId) :
    (listened c h.outputs).Sublist (said c h.outputs) ∧
      (listened c h.outputs).countP (fun x => x.1 = "exit") ≤ 1 ∧
      (listened c h.outputs).countP (fun x => x.1 = "timeout") ≤ 1 := by
  have hsub : (listened c h.outputs).Sublist (said c h.outputs) :=
    (List.sublist_append_left _ _).trans (run_listened r c)
  exact ⟨hsub, hsub.countP_le.trans (run_exit_once r),
    hsub.countP_le.trans (run_timeout_once r)⟩

theorem listened_sublist_example : ∃ h s, machine.Run (.init examplePuppies) h s ∧
    h.inputs = listens 0 ++ spawnsWith (.caller 0) 0 7 ++
      [.callback 0 (.stdoutCb 2 [104, 105]), .jni 0, .jni 0, go (.caller 0), go (.caller 0),
        go (.caller 0), go (.caller 0), .callback 0 (.stdoutCb 1 [33]), .jni 0, .jni 0, .jni 0] ∧
    listened 0 h.outputs = [("stdout", .bytes [33])] ∧
    said 0 h.outputs = [("stdout", .bytes [104, 105]), ("stdout", .bytes [33])] ∧
    (listened 0 h.outputs).Sublist (said 0 h.outputs) := by
  have r := Machine.exec_run (M := machine) (s := .init examplePuppies)
    (listens 0 ++ spawnsWith (.caller 0) 0 7 ++
      [.callback 0 (.stdoutCb 2 [104, 105]), .jni 0, .jni 0, go (.caller 0), go (.caller 0),
        go (.caller 0), go (.caller 0), .callback 0 (.stdoutCb 1 [33]), .jni 0, .jni 0,
        .jni 0]) rfl
  exact ⟨_, _, r, rfl, rfl, rfl, (listened_sublist r 0).1⟩

/-! ### After the exit listener -/

/-- The exit listener has been called for the child: the method is on its way to `remove`, or the
entry is gone. -/
structure ExitHeard (s : State) (c : ObjId) : Prop where
  obj : ∃ sp, s.objs c = some sp ∧ sp.stage = .java ∧ born sp.child = true ∧
    done sp.child = true ∧
    ((∃ f, s.frame = some f ∧ f.child = c ∧ f.method = .exit ∧
        (f.pc = .inListener ∨ f.pc = .remove)) ∨
      s.javaList sp.child.obj.process.pid = none)
  frame : ∀ f, s.frame = some f → f.child = c → f.method ≠ .timeout ∧ f.pc.hasFound = false

/-- A step that leaves the callback alone. -/
theorem ExitHeard.stay (x : ExitHeard s c)
    (later : ∀ sp, s.objs c = some sp → ∃ sp', s'.objs c = some sp' ∧ sp.Later sp')
    (hf : s'.frame = s.frame)
    (hj : ∀ sp, s.objs c = some sp → s.javaList sp.child.obj.process.pid = none →
      s'.javaList sp.child.obj.process.pid = none) : ExitHeard s' c := by
  obtain ⟨sp, hsp, hst, hb, hd, hx⟩ := x.obj
  obtain ⟨sp', hsp', hl⟩ := later sp hsp
  obtain ⟨hb', hpid⟩ := hl.born hb
  refine ⟨⟨sp', hsp', hl.java hst, hb', hl.done hd, ?_⟩, by rw [hf]; exact x.frame⟩
  rw [hf, hpid]
  exact hx.imp id (hj sp hsp)

/-- The callback goes on, and the child is what it was. -/
theorem ExitHeard.moved (x : ExitHeard s c) {f : Frame} {pc : JniPc} (hf : s.frame = some f)
    (hf' : s'.frame = some { f with pc := pc }) (ho : s'.objs = s.objs)
    (hj : ∀ q, s.javaList q = none → s'.javaList q = none)
    (hin : f.child = c → f.method = .exit → f.pc = .inListener ∨ f.pc = .remove →
      pc = .remove ∨ s'.javaList f.pid = none)
    (hpid : f.child = c → f.method = .exit → ∀ sp, s.objs c = some sp →
      f.pid = sp.child.obj.process.pid)
    (hfound : f.child = c → pc.hasFound = false) : ExitHeard s' c := by
  obtain ⟨sp, hsp, hst, hb, hd, hx⟩ := x.obj
  refine ⟨⟨sp, ho ▸ hsp, hst, hb, hd, ?_⟩, fun g hg hgc => ?_⟩
  · rcases hx with ⟨f₀, hf₀, hc, hm, hpc⟩ | hx
    · cases hf.symm.trans hf₀
      rcases hin hc hm hpc with h | h
      · exact .inl ⟨_, hf', hc, hm, .inr h⟩
      · exact .inr (hpid hc hm sp hsp ▸ h)
    · exact .inr (hj _ hx)
  · cases hf'.symm.trans hg
    exact ⟨(x.frame f hf hgc).1, hfound hgc⟩

/-- Once the exit listener has been called for a child, none is called for it, and this stays. -/
theorem step_exitHeard (v : Inv s) (d : Distinct s) (hret : l.returns = true)
    (x : ExitHeard s c) (hs : Step s l s' os) : ExitHeard s' c ∧ listened c os = [] := by
  have later (sp : Spawn) (h : s.objs c = some sp) := step_later v.objects v.calls hs h
  -- the pid that a callback of the child was given
  have pid {f : Frame} (hf : s.frame = some f) (hc : f.child = c) (hm : f.method ≠ .timeout)
      (sp : Spawn) (hsp : s.objs c = some sp) : f.pid = sp.child.obj.process.pid := by
    obtain ⟨sp', hsp', hborn, -⟩ := v.frames.obj f hf
    rw [hc] at hsp'
    cases hsp.symm.trans hsp'
    exact (hborn hm).2
  have exitPid {f : Frame} (hf : s.frame = some f) (hc : f.child = c) (hm : f.method = .exit) :=
    pid hf hc (by rw [hm]; decide)
  -- a method that looks for the entry of the child does not find it
  have absent {f : Frame} (hf : s.frame = some f) (hc : f.child = c) (hpc : f.pc = .containsKey) :
      (s.javaList f.pid).isSome = false := by
    obtain ⟨sp, hsp, -, -, -, hx⟩ := x.obj
    rcases hx with ⟨f₀, hf₀, -, -, h | h⟩ | hx
    · cases hf.symm.trans hf₀
      rw [hpc] at h
      cases h
    · cases hf.symm.trans hf₀
      rw [hpc] at h
      cases h
    · rw [pid hf hc (x.frame f hf hc).1 sp hsp, hx]
      rfl
  have quiet {f : Frame} (hf : s.frame = some f) (hfound : f.pc.hasFound = true) :
      f.child ≠ c := by
    intro hc
    rw [(x.frame f hf hc).2] at hfound
    cases hfound
  cases hs with
  | @javaPut t mem now call c₁ q sp₁ hc hpc hsp₁ hpos =>
      refine ⟨x.stay later rfl fun sp hsp hnone => ?_, by split <;> rfl⟩
      refine (update_of_ne ?_ _ _).trans hnone
      -- the child in the Java map is not put in it again
      intro hq
      obtain ⟨sp₀, hsp₀, hst, hb, -⟩ := x.obj
      cases hsp.symm.trans hsp₀
      obtain ⟨-, hst₁, hret, hpid⟩ := v.calls.javaPut hc hpc hsp₁ hpos
      have hb₁ := ((v.objects.reached c₁ sp₁ hsp₁).1.started hret).1
      cases d.one _ _ _ _ hsp hsp₁ hb hb₁ (hq.trans hpid.symm)
      cases hsp.symm.trans hsp₁
      rw [hst] at hst₁
      cases hst₁
  | spawn => exact ⟨x.stay later rfl fun _ _ h => h, listened_acts _ _⟩
  | callback hnone => exact ⟨x.stay later rfl fun _ _ h => h, listened_acts _ _⟩
  | @callbackInvoke c₁ i sp₁ ch as k args q hnone hsp₁ hst₁ hinv =>
      refine ⟨?_, listened_acts _ _⟩
      obtain ⟨sp, hsp, hst, hb, hd, hx⟩ := x.obj
      obtain ⟨sp', hsp', hl⟩ := later sp hsp
      obtain ⟨hb', hpid⟩ := hl.born hb
      refine ⟨⟨sp', hsp', hl.java hst, hb', hl.done hd, .inr ?_⟩, fun f hf hc => ?_⟩
      · rw [hpid]
        rcases hx with ⟨f, hf, -⟩ | hx
        · rw [hnone] at hf
          cases hf
        · exact hx
      · cases hf
        refine ⟨fun hm => ?_, rfl⟩
        obtain rfl : c₁ = c := hc
        obtain rfl : k = .timeout := hm
        cases hsp.symm.trans hsp₁
        obtain ⟨hr, hlis⟩ := v.objects.reached c₁ _ hsp₁
        rw [invoked_eq hlis hst₁, Option.map_eq_some_iff] at hinv
        obtain ⟨⟨k, args⟩, hk, ⟨⟩⟩ := hinv
        have harmed := (raised_timeout hst₁ hk).2
        rw [done, hr.armed harmed] at hd
        cases hd
  | @jniMove now f pc' hf hm =>
      refine ⟨?_, rfl⟩
      have hafter : f.child = c → pc' = f.after ∨ f.child ≠ c := by
        intro hc
        generalize hpc : f.pc = pc at hm
        cases hm with
        | contains hsome =>
            rw [absent hf hc hpc] at hsome
            cases hsome
        | absent => exact .inl rfl
        | listener | noListener => exact .inr (quiet hf (by rw [hpc]; rfl))
      refine x.moved hf rfl rfl (fun _ h => h) (fun hc hm _ => ?_) (exitPid hf) fun hc => ?_
      · rcases hafter hc with h | h
        · exact .inl (h.trans (if_pos hm))
        · exact absurd hc h
      · rcases hafter hc with h | h
        · rw [h, (Frame.after_pc f).2]
        · exact absurd hc h
  | @write now f w pc' e hf hw he =>
      have hother := quiet hf (Frame.write_pc hw).2.1
      exact ⟨x.moved hf rfl rfl (fun _ h => h) (fun hc => absurd hc hother) (exitPid hf)
        fun hc => absurd hc hother, rfl⟩
  | @listener now f e lis hf hpc he hl =>
      have hother := quiet hf (by rw [hpc]; rfl)
      refine ⟨x.moved hf rfl rfl (fun _ h => h) (fun hc => absurd hc hother) (exitPid hf)
        fun hc => absurd hc hother, ?_⟩
      simp [listened, Event.listened?, hother]
  | @nullPointer now f hf hpc =>
      have hfound : f.pc.hasFound = true := by
        rcases hpc with h | h | h | h | h <;> rw [h] <;> rfl
      exact ⟨x.moved hf rfl rfl (fun _ h => h) (fun hc => absurd hc (quiet hf hfound))
        (exitPid hf) fun _ => (Frame.thrown_pc f).2, rfl⟩
  | @remove now f hf hpc =>
      refine ⟨x.moved hf rfl rfl (fun q h => ?_) (fun _ _ _ => .inr (update_self ..))
        (exitPid hf) fun _ => rfl, rfl⟩
      by_cases hq : q = f.pid
      · rw [hq]
        exact update_self ..
      · exact (update_of_ne hq _ _).trans h
  | @erase now f hf hpc =>
      refine ⟨x.moved hf rfl rfl (fun _ h => h) (fun _ _ h => ?_) (exitPid hf) fun _ => rfl, rfl⟩
      rw [hpc] at h
      rcases h with h | h <;> cases h
  | @tail now f sp₁ hf hpc =>
      refine ⟨?_, listened_acts _ _⟩
      obtain ⟨sp, hsp, hst, hb, hd, hx⟩ := x.obj
      refine ⟨⟨sp, hsp, hst, hb, hd, .inr ?_⟩, fun f hf => by cases hf⟩
      rcases hx with ⟨f₀, hf₀, -, -, h | h⟩ | hx
      · cases hf.symm.trans hf₀
        rw [hpc] at h
        cases h
      · cases hf.symm.trans hf₀
        rw [hpc] at h
        cases h
      · exact hx
  | @listenerReturns f hf hpc =>
      exact ⟨x.moved hf rfl rfl (fun _ h => h) (fun _ hm _ => .inl (if_pos hm)) (exitPid hf)
        fun _ => (Frame.after_pc f).2, rfl⟩
  | listenerThrows => cases hret
  | _ => exact ⟨x.stay later rfl fun _ _ h => h, rfl⟩

/-- What holds right after the exit listener was called. -/
theorem exitHeard_listener (v : Inv s) (d : Distinct s) (hs : Step s l s' os) {p : PuppyId}
    {lis : Listener} {pid : Int} {args : JArgs} (he : .listener p lis .exit pid args c ∈ os) :
    ExitHeard s' c ∧ os = [.listener p lis .exit pid args c] := by
  cases hs with
  | @listener now f e lis' hf hpc he' hl =>
      have heq := List.mem_singleton.mp he
      obtain ⟨-, -, hm, -, -, hc⟩ := Event.listener.inj heq
      refine ⟨?_, by rw [heq]⟩
      have hnot : f.method ≠ .timeout := by rw [← hm]; decide
      obtain ⟨sp, hsp, hborn, hdone⟩ := v.frames.obj f hf
      obtain ⟨hb, hpid⟩ := hborn hnot
      obtain ⟨sp', hsp', hst, -, hb', hpid'⟩ := v.entries.java f.pid e he'
      rw [← hc] at hsp
      have := d.one _ _ _ _ hsp' hsp hb' hb (hpid'.trans hpid)
      rw [this] at hsp'
      cases hsp.symm.trans hsp'
      refine ⟨⟨sp, hsp, hst, hb, hdone hm.symm, .inl ⟨_, rfl, hc.symm, hm.symm, .inl rfl⟩⟩, ?_⟩
      intro g hg _
      cases hg
      exact ⟨hnot, rfl⟩
  | spawn | callback | callbackInvoke | tail =>
      obtain ⟨_, -, h⟩ := List.mem_map.mp he
      cases h
  | javaPut =>
      split at he
      · cases he
      · cases List.mem_singleton.mp he
  | javaThrow | setStartedAt | killDeref | nullDeref | write | remove | erase =>
      cases List.mem_singleton.mp he
  | _ => cases he

/-- **The exit listener is the last.**  In every run in which pids are not reused and the listeners
return, once the exit listener has been called for a child no listener is called for it again, also
where listeners start processes of their own. -/
theorem exit_listener_last {puppies : PuppyId → List (Option JString) × StringTable}
    {h : History Label Event}
    (r : machine.RunWhere (fun s l => orderly s l = true) (.init puppies) h s)
    {pre post : List Event} {p : PuppyId} {lis : Listener} {pid : Int} {args : JArgs}
    (e : h.outputs = pre ++ .listener p lis .exit pid args c :: post) : listened c post = [] := by
  suffices hall : ∀ pre post p lis pid args,
      h.outputs = pre ++ .listener p lis .exit pid args c :: post →
        ExitHeard s c ∧ listened c post = [] from (hall _ _ _ _ _ _ e).2
  refine r.inv (fun h s => ∀ pre post p lis pid args,
    h.outputs = pre ++ .listener p lis .exit pid args c :: post →
      ExitHeard s c ∧ listened c post = []) (fun pre post p lis pid args e => ?_) ?_
  · simp at e
  · intro h s s' l os r hC hs ih pre post p lis pid args e
    have v := run_inv r
    have d := run_distinct (r.mono fun _ _ h => orderly_fresh h)
    obtain ⟨-, hs⟩ := step_inv hs
    rw [History.outputs_append, History.outputs_cons, History.outputs_nil, List.append_nil] at e
    -- the call is one of this step, or of one before
    have now (post' : List Event) (hos : ∃ a, os = a ++ .listener p lis .exit pid args c :: post') :
        ExitHeard s' c ∧ listened c post' = [] := by
      obtain ⟨a, ha⟩ := hos
      have hmem : .listener p lis .exit pid args c ∈ os := by simp [ha]
      obtain ⟨x, hone⟩ := exitHeard_listener v d hs hmem
      refine ⟨x, ?_⟩
      have hlen := congrArg List.length (ha.symm.trans hone)
      simp only [List.length_append, List.length_cons, List.length_nil] at hlen
      rw [List.eq_nil_of_length_eq_zero (by omega : post'.length = 0)]
      rfl
    rcases List.append_eq_append_iff.mp e with ⟨a, rfl, hos⟩ | ⟨a, hpre, hos⟩
    · exact now post ⟨a, hos⟩
    · cases a with
      | nil => exact now post ⟨[], hos.symm⟩
      | cons x a =>
          obtain ⟨rfl, rfl⟩ := List.cons.inj hos
          obtain ⟨x, hpost⟩ := ih _ _ _ _ _ _ hpre
          obtain ⟨x', hnone⟩ := step_exitHeard v d (Bool.and_eq_true_iff.mp hC).2 x hs
          refine ⟨x', (listened_append c a os).trans ?_⟩
          rw [hpost, hnone]
          rfl

/-- A child that writes once more after its exit event. -/
def writesAfterExit : List Label :=
  listens 0 ++ startsWith (.caller 0) 0 7 ++
    [.callback 0 (.stderrCb UV_EOF []), .callback 0 (.exitCb 3 0), .jni 0, .jni 0, .jni 0,
      .jni 0, .jni 0, .jni 0, .listenerReturns, .jni 0, .jni 0, .jni 0,
      .callback 0 (.stdoutCb 1 [33]), .jni 0, .jni 0]

theorem exit_listener_last_example : ∃ h s pre post,
    machine.RunWhere (fun s l => orderly s l = true) (.init examplePuppies) h s ∧
    h.inputs = writesAfterExit ∧
    h.outputs = pre ++ .listener 0 3 .exit 7 (.status 3 0) 0 :: post ∧
    emitted 0 h.outputs = [("exit", .status 3 0), ("stdout", .chunk [33] 1)] ∧
    listened 0 post = [] := by
  obtain ⟨h, s, r, hin, hmem, hem⟩ : ∃ h s,
      machine.RunWhere (fun s l => orderly s l = true) (.init examplePuppies) h s ∧
      h.inputs = writesAfterExit ∧
      Event.listener 0 3 .exit 7 (.status 3 0) 0 ∈ h.outputs ∧
      emitted 0 h.outputs = [("exit", .status 3 0), ("stdout", .chunk [33] 1)] :=
    ⟨_, _, Machine.execWhere_run (M := machine) (C := orderly) (s := .init examplePuppies)
      writesAfterExit rfl, rfl, List.mem_of_elem_eq_true rfl, rfl⟩
  obtain ⟨pre, post, e⟩ := List.append_of_mem hmem
  exact ⟨h, s, pre, post, r, hin, e, hem, exit_listener_last r e⟩

end Dorypuppy.Manager
