import Mathlib.Algebra.Order.BigOperators.Group.Finset
import Mathlib.Data.Set.Card
import Dorypuppy.Manager.Delivery
import Dorypuppy.Manager.Start

/-!
# Manager — what is under way comes to its end

In these steps, of which a section under `uvMutex` and the copy of a `DoryProcess` are one each, no
call and no method waits for another thread.

* `work_bounded`: in every run a thread makes at most 13 steps for each of its calls, and the loop
  thread at most 10 for each callback.
* `comes_to_rest`: from every state, with no new calls and callbacks, what is under way takes a
  bounded number of steps, whatever their order, and stops only when nothing is under way any more,
  when a null entry was dereferenced, or at a command with a null element.
-/

namespace Dorypuppy.Manager

open Child (Reached born done)
open Support (Machine History)
open Function (update update_self update_of_ne)

variable {s₀ s s' : State} {l : Label} {os : List Event} {t : Tid}

/-! ### The work left -/

/-- The steps a call still takes, at most. -/
def State.stepsLeft (s : State) : CallPc → Nat
  | .setTimeout _ => 13
  | .create => 12
  | .spawning c => 11 - ((s.objs c).map fun sp => sp.child.pc.rank).getD 0
  | .javaPut _ _ => 3
  | .setPid _ => 2
  | .setStartedAt _ => 1
  | .killCheck _ => 4
  | .killRead _ => 3
  | .killCount _ _ => 2
  | .killDeref _ _ => 1

/-- The steps of the call of a thread. -/
def State.work (s : State) (t : Tid) : Nat :=
  ((s.calls t).map fun call => s.stepsLeft call.pc).getD 0

/-- The steps a method and its callback still take, at most. -/
def JniPc.stepsLeft : JniPc → Nat
  | .containsKey => 10
  | .setCode => 9
  | .setSignal => 8
  | .setExitedAt => 7
  | .nullCheck => 6
  | .call => 5
  | .inListener => 4
  | .remove => 3
  | .erase => 2
  | .tail => 1

def State.frameWork (s : State) : Nat := (s.frame.map fun f => f.pc.stepsLeft).getD 0

theorem State.stepsLeft_pos (s : State) (pc : CallPc) : 0 < s.stepsLeft pc := by
  cases pc with
  | spawning c =>
      simp only [State.stepsLeft]
      cases s.objs c with
      | none => decide
      | some sp =>
          have := sp.child.pc.rank_le
          simp only [Option.map_some, Option.getD_some]
          omega
  | _ => simp [State.stepsLeft]

theorem State.stepsLeft_le (s : State) (pc : CallPc) : s.stepsLeft pc ≤ 13 := by
  cases pc <;> simp only [State.stepsLeft] <;> omega

theorem State.work_of {call : Call} (hc : s.calls t = some call) :
    s.work t = s.stepsLeft call.pc := by
  simp [State.work, hc]

theorem State.work_none (hc : s.calls t = none) : s.work t = 0 := by
  simp [State.work, hc]

theorem State.work_le (s : State) (t : Tid) : s.work t ≤ 13 := by
  cases hc : s.calls t with
  | none => simp [State.work_none hc]
  | some call => exact State.work_of hc ▸ s.stepsLeft_le _

theorem JniPc.stepsLeft_le (pc : JniPc) : pc.stepsLeft ≤ 10 := by
  cases pc <;> simp [JniPc.stepsLeft]

theorem State.frameWork_of {f : Frame} (hf : s.frame = some f) : s.frameWork = f.pc.stepsLeft := by
  simp [State.frameWork, hf]

theorem State.frameWork_le (s : State) : s.frameWork ≤ 10 := by
  cases hf : s.frame with
  | none => simp [State.frameWork, hf]
  | some f => exact State.frameWork_of hf ▸ f.pc.stepsLeft_le

/-! ### Steps of others -/

/-- `spawn()` of an object only goes on. -/
theorem rank_later (ok : Objects s) (hs : Step s l s' os) {c : ObjId} {sp sp' : Spawn}
    (h : s.objs c = some sp) (h' : s'.objs c = some sp') :
    sp.child.pc.rank ≤ sp'.child.pc.rank := by
  cases obj_change hs h' with
  | same h₀ _ =>
      cases h.symm.trans h₀
      exact le_rfl
  | new _ _ hn =>
      subst hn
      exact absurd (ok.lt h) (lt_irrefl _)
  | put _ h₀ =>
      cases h.symm.trans h₀
      exact le_rfl
  | spawn _ _ h₀ hst =>
      cases h.symm.trans h₀
      exact Child.step_rank (Child.spawnStep_step hst)
  | callback h₀ hst =>
      cases h.symm.trans h₀
      exact Child.step_rank (Child.callbackHead_step hst)

/-- No step makes a place in the code further from the end. -/
theorem left_later (ok : Objects s) (k : Calls s) (hs : Step s l s' os) {call : Call}
    (hc : s.calls t = some call) : s'.stepsLeft call.pc ≤ s.stepsLeft call.pc := by
  cases hpc : call.pc with
  | spawning c =>
      obtain ⟨sp, hsp, -⟩ := k.works t call c hc (by rw [hpc]; rfl)
      obtain ⟨sp', hsp', -⟩ := step_later ok k hs hsp
      have := rank_later ok hs hsp hsp'
      simp only [State.stepsLeft, hsp, hsp', Option.map_some, Option.getD_some]
      omega
  | _ => exact le_rfl

/-- A thread starts a call. -/
def Label.calls (t : Tid) : Label → Bool
  | .call t' _ _ => t' = t
  | _ => false

/-- A step of a thread starts a call or is one of its call. -/
theorem Label.thread_eq (h : l.thread? = some t) : l.calls t = true ∨ l.own t = true := by
  cases l <;> simp_all [Label.calls, Label.own, Label.thread?]

/-- A step of `spawn()` brings its call nearer to the end. -/
theorem spawn_left {c : ObjId} {sp : Spawn} {i : Input} {ch : Child JniCallback}
    {as : List (Act JniCallback)} (hsp : s.objs c = some sp)
    (hst : Child.spawnStep sp.child.obj sp.child.pc i = some (ch, as))
    (h' : s'.objs c = some { sp with child := ch }) :
    s'.stepsLeft (.spawning c) < s.stepsLeft (.spawning c) := by
  have hlt := Child.spawnStep_rank hst
  have hle := ch.pc.rank_le
  simp only [State.stepsLeft, hsp, h', Option.map_some, Option.getD_some]
  omega

/-- Each step of its own brings a thread nearer to the end of its call, or is the last the program
makes. -/
theorem step_work_own (hs : Step s l s' os) (hl : l.own t = true) :
    s'.work t < s.work t ∨ 0 < s.work t ∧ s'.crashed = true := by
  cases l with
  | step t' mem now =>
      obtain rfl : t' = t := of_decide_eq_true hl
      cases hs with
      | setTimeout hc hpc | setPid hc hpc =>
          left
          simp [State.work, hc, hpc, State.stepsLeft]
      | create hc hpc =>
          left
          simp [State.work, hc, hpc, State.stepsLeft, Child.start, SpawnPc.rank]
      | @nativePut _ _ _ call c sp hc hpc hsp | @spawnFailed _ _ _ call c sp r hc hpc hsp =>
          left
          have := sp.child.pc.rank_le
          rw [State.work_of hc, hpc, State.work_of (update_self ..)]
          simp only [State.stepsLeft, hsp, Option.map_some, Option.getD_some]
          omega
      | javaThrow hc | setStartedAt hc | killDeref hc =>
          left
          rw [State.work_none (update_self ..), State.work_of hc]
          exact s.stepsLeft_pos _
      | @javaPut _ _ _ call c pid sp hc hpc =>
          left
          by_cases hin : call.inStart <;> simp [State.work, hc, hpc, State.stepsLeft, hin]
      | killMove hc hm =>
          left
          rw [State.work_of hc]
          generalize hpc : Call.pc _ = pc at hm
          cases hm with
          | noPid | absent =>
              rw [State.work_none (by simp)]
              exact s.stepsLeft_pos _
          | _ => simp [State.work, State.stepsLeft]
      | nullDeref hc =>
          right
          exact ⟨State.work_of hc ▸ s.stepsLeft_pos _, rfl⟩
  | spawn t' i =>
      obtain rfl : t' = t := of_decide_eq_true hl
      cases hs with
      | @spawn _ _ call c sp ch as hc hpc hsp hst =>
          left
          have hc' : (s.withChild c sp i ch).calls t' = some call := hc
          rw [State.work_of hc, State.work_of hc', hpc]
          exact spawn_left hsp hst (update_self ..)
  | _ => cases hl

/-- A step of another thread, or of the loop, brings no call further from its end. -/
theorem step_work_other (ok : Objects s) (k : Calls s) (hs : Step s l s' os)
    (hl : l.thread? ≠ some t) : s'.work t ≤ s.work t := by
  have hc := step_calls_other hs hl
  cases hcall : s.calls t with
  | none =>
      rw [State.work_none (hc.trans hcall)]
      exact Nat.zero_le _
  | some call =>
      rw [State.work_of (hc.trans hcall), State.work_of hcall]
      exact left_later ok k hs hcall

/-- A step of the method of the loop thread, or the end of its listener. -/
def Label.inMethod : Label → Bool
  | .jni _ | .listenerReturns | .listenerThrows => true
  | _ => false

/-- The loop runs a callback. -/
def Label.begins : Label → Bool
  | .callback _ _ => true
  | _ => false

/-- Each step of a method brings its callback nearer to the end. -/
theorem step_frameWork (hs : Step s l s' os) (hl : l.inMethod = true) :
    s'.frameWork < s.frameWork := by
  have moves {f : Frame} {pc : JniPc} (hf : s.frame = some f)
      (hf' : s'.frame = some { f with pc := pc }) (h : pc.stepsLeft < f.pc.stepsLeft) :
      s'.frameWork < s.frameWork := by
    rw [State.frameWork_of hf, State.frameWork_of hf']
    exact h
  have hafter (f : Frame) : f.after.stepsLeft ≤ 3 := by
    unfold Frame.after
    split <;> simp [JniPc.stepsLeft]
  have hthrown (f : Frame) : f.thrown.stepsLeft ≤ 2 := by
    unfold Frame.thrown
    split <;> simp [JniPc.stepsLeft]
  cases hs with
  | @jniMove now f pc' hf hm =>
      refine moves hf rfl ?_
      generalize f.pc = pc at hm
      cases hm with
      | contains =>
          unfold Frame.found
          split <;> simp [JniPc.stepsLeft]
      | absent | noListener => exact (hafter f).trans_lt (by decide)
      | listener => simp [JniPc.stepsLeft]
  | @write now f w pc' e hf hw =>
      refine moves hf rfl ?_
      unfold Frame.write? at hw
      split at hw <;> cases hw <;> simp [JniPc.stepsLeft, *]
  | listener hf hpc | remove hf hpc | erase hf hpc =>
      exact moves hf rfl (by simp [JniPc.stepsLeft, hpc])
  | @nullPointer now f hf hpc =>
      refine moves hf rfl ((hthrown f).trans_lt ?_)
      rcases hpc with h | h | h | h | h <;> rw [h] <;> decide
  | @tail now f sp hf hpc =>
      rw [State.frameWork_of hf, hpc]
      exact Nat.zero_lt_one
  | @listenerReturns f hf hpc =>
      exact moves hf rfl ((hafter f).trans_lt (by rw [hpc]; decide))
  | @listenerThrows f hf hpc =>
      exact moves hf rfl ((hthrown f).trans_lt (by rw [hpc]; decide))
  | _ => cases hl

theorem step_frame_other (hs : Step s l s' os) (hl : l.inMethod = false) (hb : l.begins = false) :
    s'.frame = s.frame := by
  cases hs with
  | jniMove | write | listener | nullPointer | remove | erase | tail | listenerReturns
  | listenerThrows => cases hl
  | callback | callbackInvoke => cases hb
  | _ => rfl

/-! ### In a whole run -/

/-- What the steps of a thread and of the loop thread amount to. -/
structure Bounded (h : History Label Event) (s : State) (t : Tid) : Prop where
  own : h.inputs.countP (Label.own t) + (if s.crashed then 0 else s.work t) ≤
    13 * h.inputs.countP (Label.calls t)
  method : h.inputs.countP Label.inMethod + s.frameWork ≤ 10 * h.inputs.countP Label.begins

theorem step_bounded {h : History Label Event} (v : Inv s) (hcr : s.crashed = false)
    (b : Bounded h s t) (hs : Step s l s' os) : Bounded (h ++ [(l, os)]) s' t := by
  have count (p : Label → Bool) : (h ++ [(l, os)]).inputs.countP p =
      h.inputs.countP p + if p l then 1 else 0 := by
    simp [List.countP_append, List.countP_cons]
  have ho := b.own
  have hm := b.method
  rw [hcr, if_neg Bool.false_ne_true] at ho
  constructor
  · rw [count, count]
    have hle : (if s'.crashed then 0 else s'.work t) ≤ s'.work t := by
      split
      · exact Nat.zero_le _
      · exact le_rfl
    by_cases hc : l.calls t = true
    · have hnot : l.own t = false := by cases l <;> first | rfl | cases hc
      have := s'.work_le t
      rw [if_pos hc, hnot, if_neg Bool.false_ne_true]
      omega
    · rw [if_neg hc]
      by_cases ht : l.own t = true
      · rw [if_pos ht]
        rcases step_work_own hs ht with hlt | ⟨hpos, hcr'⟩
        · omega
        · rw [if_pos hcr']
          omega
      · have hother : l.thread? ≠ some t := fun h =>
          (Label.thread_eq h).elim (fun h => hc h) fun h => ht h
        have := step_work_other v.objects v.calls hs hother
        rw [if_neg ht]
        omega
  · rw [count, count]
    by_cases hj : l.inMethod = true
    · have hlt := step_frameWork hs hj
      have hnot : l.begins = false := by cases l <;> first | rfl | cases hj
      rw [if_pos hj, hnot, if_neg Bool.false_ne_true]
      omega
    · by_cases hb : l.begins = true
      · have := s'.frameWork_le
        rw [if_neg hj, if_pos hb]
        omega
      · have hf := step_frame_other hs (by simpa using hj) (by simpa using hb)
        rw [if_neg hj, if_neg hb, State.frameWork, hf]
        exact hm

/-- **Few steps for a call, and for a callback.**  In every run, whatever else goes on, a thread
makes at most 13 steps for each call it starts, and the loop thread at most 10 in a method for each
callback. -/
theorem work_bounded {puppies : PuppyId → List (Option JString) × StringTable}
    {h : History Label Event} (r : machine.Run (.init puppies) h s) (t : Tid) :
    h.inputs.countP (Label.own t) ≤ 13 * h.inputs.countP (Label.calls t) ∧
      h.inputs.countP Label.inMethod ≤ 10 * h.inputs.countP Label.begins := by
  have b : Bounded h s t := by
    refine r.inv (fun h s => Bounded h s t) ⟨by simp [State.init, State.work],
      by simp [State.init, State.frameWork]⟩ ?_
    intro h s s' l os r _ hs b
    obtain ⟨hcr, hs⟩ := step_inv hs
    exact step_bounded (run_inv r) hcr b hs
  exact ⟨(Nat.le_add_right _ _).trans b.own, (Nat.le_add_right _ _).trans b.method⟩

/-- A call of `start` that ends, with a timeout that comes in between and finds no entry. -/
theorem work_bounded_example : ∃ h s, machine.Run (.init examplePuppies) h s ∧
    h.inputs = [.call (.caller 0) 0 (.start 5), go (.caller 0), go (.caller 0),
      .spawn (.caller 0) .enter, .spawn (.caller 0) .timerStart, .callback 0 .timerCb, .jni 0,
      .jni 0] ∧
    h.inputs.countP (Label.own (.caller 0)) ≤ 13 * h.inputs.countP (Label.calls (.caller 0)) ∧
    h.inputs.countP Label.inMethod ≤ 10 * h.inputs.countP Label.begins := by
  have r := Machine.exec_run (M := machine) (s := .init examplePuppies)
    [.call (.caller 0) 0 (.start 5), go (.caller 0), go (.caller 0),
      .spawn (.caller 0) .enter, .spawn (.caller 0) .timerStart, .callback 0 .timerCb, .jni 0,
      .jni 0] rfl
  exact ⟨_, _, r, rfl, work_bounded r (.caller 0)⟩

/-! ### A next step -/

/-- An exit callback passes a status on. -/
def StatusArgs (s : State) : Prop :=
  ∀ f, s.frame = some f → f.method = .exit → ∃ code signal, f.args = .status code signal

theorem step_statusArgs (ok : Objects s) (a : StatusArgs s) (hs : Step s l s' os) :
    StatusArgs s' := by
  intro f hf hm
  cases hs with
  | @callbackInvoke c i sp ch as k args pid hnone hsp hst hinv =>
      cases hf
      obtain rfl : k = .exit := hm
      rw [invoked_eq (ok.reached c sp hsp).2 hst, Option.map_eq_some_iff] at hinv
      obtain ⟨⟨k, args⟩, hk, ⟨⟩⟩ := hinv
      obtain ⟨e, g, rfl⟩ := raised_status hk
      exact ⟨e, g, rfl⟩
  | jniMove hf₀ | write hf₀ | listener hf₀ | nullPointer hf₀ | remove hf₀ | erase hf₀
  | listenerReturns hf₀ | listenerThrows hf₀ =>
      cases hf
      have hargs := a _ hf₀ hm
      exact hargs
  | tail => cases hf
  | _ => exact a f hf hm

/-- `spawn()` that has not returned goes on, whatever the pids in use. -/
theorem spawnStep_some (o : DoryProcessSpawn JniCallback) (pc : SpawnPc)
    (h : ∀ r, pc ≠ .returned r) :
    ∃ i, i.writesPid = none ∧ (Child.spawnStep o pc i).isSome := by
  simp only [Child.spawnStep_takes]
  cases pc with
  | enter => exact ⟨.enter, rfl, rfl⟩
  | timerStart => exact ⟨.timerStart, rfl, rfl⟩
  | uvSpawn => exact ⟨.uvSpawn (.forkFailed ⟨-1, by decide⟩), rfl, rfl⟩
  | storePid => exact ⟨.storePid, rfl, rfl⟩
  | readOut => exact ⟨.readOut none, rfl, rfl⟩
  | readErr => exact ⟨.readErr none, rfl, rfl⟩
  | killReturn => exact ⟨.killReturn, rfl, rfl⟩
  | returned r => exact absurd rfl (h r)

/-- A call is about to copy a command that has a null element. -/
def State.AtNull (s : State) : Prop :=
  ∃ t call, s.calls t = some call ∧ call.pc = .create ∧ none ∈ (s.puppies call.puppy).command

/-- A call has a next step, unless it is about to copy a null string. -/
theorem call_steps (k : Calls s) (hcr : s.crashed = false) (hnull : ¬ s.AtNull) {call : Call}
    (hc : s.calls t = some call) : ∃ l, l.own t = true ∧ (s.step l).isSome := by
  have own : (Label.step t (Setup.example 0).mem 0).own t = true := decide_eq_true rfl
  cases hpc : call.pc with
  | create =>
      have hcmd : none ∉ (s.puppies call.puppy).utfStrings := by
        rw [DoryProcess.none_mem_utfStrings]
        exact fun h => hnull ⟨t, call, hc, hpc, h⟩
      have hsome : ((s.puppies call.puppy).setup (Setup.example 0).mem uvLoop).isSome :=
        DoryProcess.setup_isSome.mpr hcmd
      obtain ⟨setup, hset⟩ := Option.isSome_iff_exists.mp hsome
      exact ⟨_, own, by simp [call_goes hcr hc, State.stepCall, hpc, hset]⟩
  | spawning c =>
      obtain ⟨sp, hsp, -⟩ := k.works t call c hc (by rw [hpc]; rfl)
      by_cases hret : ∃ r, sp.child.pc = .returned r
      · obtain ⟨r, hret⟩ := hret
        refine ⟨_, own, ?_⟩
        by_cases hr : r = 0 <;> simp [call_goes hcr hc, State.stepCall, hpc, hsp, hret, hr]
      · obtain ⟨i, hpid, hi⟩ := spawnStep_some sp.child.obj sp.child.pc
          fun r hr => hret ⟨r, hr⟩
        obtain ⟨⟨ch, as⟩, hst⟩ := Option.isSome_iff_exists.mp hi
        refine ⟨.spawn t i, decide_eq_true rfl, ?_⟩
        rw [spawn_goes hcr hc hpc hsp hst (by simp [hpid])]
        rfl
  | javaPut c pid =>
      obtain ⟨sp, hsp, -⟩ := k.works t call c hc (by rw [hpc]; rfl)
      refine ⟨_, own, ?_⟩
      by_cases hle : pid ≤ 0 <;> by_cases hin : call.inStart <;>
        simp [call_goes hcr hc, State.stepCall, hpc, hsp, hle, hin]
  | killCheck g =>
      refine ⟨_, own, ?_⟩
      by_cases hp : (s.puppies call.puppy).pid = 0 <;>
        simp [call_goes hcr hc, State.stepCall, hpc, hp]
  | killCount q g =>
      refine ⟨_, own, ?_⟩
      by_cases hq : (s.nativeList q).isSome <;>
        simp [call_goes hcr hc, State.stepCall, hpc, hq]
  | killDeref q g =>
      refine ⟨_, own, ?_⟩
      rw [call_goes hcr hc, State.stepCall, hpc]
      dsimp only
      split <;> rfl
  | setTimeout | setPid | setStartedAt | killRead =>
      exact ⟨_, own, by simp [call_goes hcr hc, State.stepCall, hpc]⟩

/-- A method has a next step, outside of its listener. -/
theorem method_steps (fr : Frames s) (a : StatusArgs s) (hcr : s.crashed = false) {f : Frame}
    (hf : s.frame = some f) (hpc : f.pc ≠ .inListener) : (s.step (.jni 0)).isSome := by
  have hstep : s.step (.jni 0) = s.stepJni f 0 := by
    simp [State.step, hcr, hf]
  rw [hstep, State.stepJni]
  have writes (hexit : f.pc.ofExit = true)
      (hw : f.pc = .setCode ∨ f.pc = .setSignal ∨ f.pc = .setExitedAt) :
      ∃ w pc, f.write? 0 = some (w, pc) := by
    obtain ⟨code, signal, hargs⟩ := a f hf (fr.ofExit f hf hexit)
    rcases hw with h | h | h <;> exact ⟨_, _, by rw [Frame.write?, h, hargs]⟩
  cases h : f.pc with
  | containsKey => dsimp only; split <;> rfl
  | setCode | setSignal | setExitedAt =>
      obtain ⟨w, pc, hw⟩ := writes (by rw [h]; rfl) (by simp [h])
      simp only [hw]
      cases s.javaList f.pid <;> rfl
  | nullCheck =>
      dsimp only
      split
      · split <;> rfl
      · rfl
  | call =>
      dsimp only
      split
      · split <;> rfl
      · rfl
  | inListener => exact absurd h hpc
  | remove | erase => rfl
  | tail =>
      obtain ⟨sp, hsp, -⟩ := fr.obj f hf
      simp [hsp]

/-! ### Coming to rest -/

/-- A step of what is under way. -/
def Label.internal (l : Label) : Bool :=
  l.inMethod ||
    match l with
    | .step _ _ _ | .spawn _ _ => true
    | _ => false

theorem Label.own_internal (h : l.own t = true) : l.internal = true := by
  cases l <;> first | rfl | cases h

/-- Such a step is one of a call or one of a method. -/
theorem Label.internal_cases (h : l.internal = true) :
    (∃ t, l.own t = true ∧ l.inMethod = false ∧ l.begins = false) ∨
      l.inMethod = true ∧ ∀ t, l.thread? ≠ some t := by
  cases l with
  | step t mem now => exact .inl ⟨t, decide_eq_true rfl, rfl, rfl⟩
  | spawn t i => exact .inl ⟨t, decide_eq_true rfl, rfl, rfl⟩
  | jni | listenerReturns | listenerThrows => exact .inr ⟨rfl, fun _ h => by cases h⟩
  | _ => cases h

theorem Label.own_eq {t' : Tid} (h : l.own t = true) (h' : l.thread? = some t') : t' = t := by
  cases l <;> simp_all [Label.own, Label.thread?]

/-- Where nothing that is under way goes on. -/
theorem at_rest (k : Calls s) (fr : Frames s) (a : StatusArgs s)
    (hrest : ∀ l, l.internal = true → s.step l = none) :
    s.crashed = true ∨ s.Quiescent ∨ s.AtNull := by
  by_contra hnot
  push Not at hnot
  obtain ⟨hcr, hq, hnull⟩ := hnot
  have hcr : s.crashed = false := Bool.eq_false_iff.mpr hcr
  have hcalls (t : Tid) : s.calls t = none := by
    by_contra hne
    obtain ⟨call, hc⟩ := Option.ne_none_iff_exists'.mp hne
    obtain ⟨l, hl, hs⟩ := call_steps k hcr hnull hc
    rw [hrest l (Label.own_internal hl)] at hs
    cases hs
  refine hq ⟨hcalls, ?_⟩
  by_contra hne
  obtain ⟨f, hf⟩ := Option.ne_none_iff_exists'.mp hne
  by_cases hpc : f.pc = .inListener
  · have hs := hrest .listenerReturns rfl
    simp [State.step, hcr, hf, hpc, hcalls] at hs
  · have hs := method_steps fr a hcr hf hpc
    rw [hrest (.jni 0) rfl] at hs
    cases hs

/-- The steps that what is under way still takes, in calls of the threads of `T`. -/
def State.toRest (T : Finset Tid) (s : State) : Nat :=
  if s.crashed then 0 else ∑ t ∈ T, s.work t + s.frameWork

theorem State.toRest_le (T : Finset Tid) (s : State) : s.toRest T ≤ 13 * T.card + 10 := by
  have hsum : ∑ t ∈ T, s.work t ≤ T.card * 13 :=
    T.sum_le_card_nsmul (fun t => s.work t) 13 fun t _ => s.work_le t
  have := s.frameWork_le
  unfold State.toRest
  split <;> omega

/-- What the steps to rest keep: the invariants they need, and that only threads of `T` are in a
call. -/
structure Within (T : Finset Tid) (s : State) : Prop where
  objects : Objects s
  calls : Calls s
  frames : Frames s
  args : StatusArgs s
  callers : ∀ t, (s.calls t).isSome → t ∈ T

/-- Each step of what is under way brings it nearer to rest. -/
theorem step_toRest {T : Finset Tid} (w : Within T s) (hcr : s.crashed = false)
    (hl : l.internal = true) (hs : Step s l s' os) :
    Within T s' ∧ s'.toRest T < s.toRest T := by
  have w' (hcallers : ∀ t, (s'.calls t).isSome → t ∈ T) : Within T s' :=
    ⟨step_objects w.objects hs, step_calls w.objects w.calls hs,
      step_frames w.objects w.calls w.frames hs, step_statusArgs w.objects w.args hs, hcallers⟩
  have hbefore : s.toRest T = ∑ t ∈ T, s.work t + s.frameWork := by
    rw [State.toRest, hcr, if_neg Bool.false_ne_true]
  have hafter : s'.toRest T ≤ ∑ t ∈ T, s'.work t + s'.frameWork := by
    unfold State.toRest
    split
    · exact Nat.zero_le _
    · exact le_rfl
  rcases Label.internal_cases hl with ⟨t, ht, hm, hb⟩ | ⟨hm, hother⟩
  · have hown := step_work_own hs ht
    have hpos : 0 < s.work t := hown.elim (Nat.zero_lt_of_lt) And.left
    have hmem : t ∈ T := by
      refine w.callers t ?_
      cases hc : s.calls t with
      | none => simp [State.work_none hc] at hpos
      | some call => rfl
    refine ⟨w' fun t' h => ?_, ?_⟩
    · by_cases ht' : l.thread? = some t'
      · rwa [Label.own_eq ht ht']
      · exact w.callers t' (step_calls_other hs ht' ▸ h)
    · rw [hbefore]
      have hle (t' : Tid) (hne : t' ≠ t) : s'.work t' ≤ s.work t' :=
        step_work_other w.objects w.calls hs fun h => hne (Label.own_eq ht h)
      rcases hown with hlt | ⟨-, hcr'⟩
      · have hsum : ∑ t ∈ T, s'.work t < ∑ t ∈ T, s.work t := by
          refine Finset.sum_lt_sum (fun t' _ => ?_) ⟨t, hmem, hlt⟩
          by_cases h : t' = t
          · subst h
            exact hlt.le
          · exact hle t' h
        have hf : s'.frameWork = s.frameWork := by
          rw [State.frameWork, step_frame_other hs hm hb, State.frameWork]
        omega
      · have hsum : s.work t ≤ ∑ t ∈ T, s.work t :=
          Finset.single_le_sum (f := fun t => s.work t) (fun _ _ => Nat.zero_le _) hmem
        rw [State.toRest, if_pos hcr']
        omega
  · refine ⟨w' fun t h => w.callers t (step_calls_other hs (hother t) ▸ h), ?_⟩
    have hsum : ∑ t ∈ T, s'.work t ≤ ∑ t ∈ T, s.work t :=
      Finset.sum_le_sum fun t _ => step_work_other w.objects w.calls hs (hother t)
    have := step_frameWork hs hm
    omega

theorem drains (T : Finset Tid) :
    machine.Drains (fun _ l => l.internal = true) (Within T) (State.toRest T) :=
  ⟨fun w hl hs => step_toRest w (step_inv hs).1 hl (step_inv hs).2⟩

theorem run_statusArgs {puppies : PuppyId → List (Option JString) × StringTable}
    {C : State → Label → Prop} {h : History Label Event}
    (r : machine.RunWhere C (.init puppies) h s) : StatusArgs s := by
  refine r.inv (fun _ s => StatusArgs s) (fun f hf => by cases hf) ?_
  intro h s s' l os r _ hs a
  exact step_statusArgs (run_inv r).objects a (step_inv hs).2

theorem step_calls_finite (hs : Step s l s' os) (hfin : {t | (s.calls t).isSome}.Finite) :
    {t | (s'.calls t).isSome}.Finite := by
  refine (hfin.union (Set.finite_singleton (l.thread?.getD .loop))).subset fun t ht => ?_
  by_cases hl : l.thread? = some t
  · exact .inr (by rw [hl]; rfl)
  · have hc : (s.calls t).isSome := step_calls_other hs hl ▸ ht
    exact .inl hc

/-- Only finitely many threads are in a call. -/
theorem run_calls_finite {puppies : PuppyId → List (Option JString) × StringTable}
    {C : State → Label → Prop} {h : History Label Event}
    (r : machine.RunWhere C (.init puppies) h s) : {t | (s.calls t).isSome}.Finite := by
  refine r.inv (fun _ s => {t | (s.calls t).isSome}.Finite) (by simp [State.init]) ?_
  intro h s s' l os _ _ hs hfin
  exact step_calls_finite (step_inv hs).2 hfin

/-- **What is under way comes to rest.**  From every state that is reached, a run of what is under
way, with no new calls and callbacks, has at most 13 steps for each call and 10 for the callback, in
whatever order they come; it stops only when nothing is under way, a null entry was dereferenced,
or a call is at a command with a null element; and some such run does stop. -/
theorem comes_to_rest {puppies : PuppyId → List (Option JString) × StringTable}
    {h₀ : History Label Event} (r : machine.Run (.init puppies) h₀ s₀) :
    {t | (s₀.calls t).isSome}.Finite ∧
    (∀ h s, machine.RunWhere (fun _ l => l.internal = true) s₀ h s →
      h.length ≤ 13 * {t | (s₀.calls t).isSome}.ncard + 10 ∧
      ((∀ l, l.internal = true → s.step l = none) →
        s.crashed = true ∨ s.Quiescent ∨ s.AtNull)) ∧
    ∃ h s, machine.RunWhere (fun _ l => l.internal = true) s₀ h s ∧
      ∀ l, l.internal = true → s.step l = none := by
  have hfin := run_calls_finite r
  have v := run_inv r
  have w : Within hfin.toFinset s₀ :=
    ⟨v.objects, v.calls, v.frames, run_statusArgs r, fun t ht => by simpa using ht⟩
  refine ⟨hfin, fun h s r' => ?_, (drains _).rests w⟩
  obtain ⟨w', hle⟩ := (drains _).bound w r'
  refine ⟨?_, at_rest w'.calls w'.frames w'.args⟩
  rw [Set.ncard_eq_toFinset_card _ hfin]
  have := s₀.toRest_le hfin.toFinset
  omega

/-- A call in `spawn()` and a method in its listener, both under way. -/
theorem comes_to_rest_example : ∃ h₀ s₀, machine.Run (.init examplePuppies) h₀ s₀ ∧
    h₀.inputs = listens 0 ++ startsWith (.caller 0) 0 7 ++
      [.callback 0 (.stdoutCb 1 [33]), .jni 0, .jni 0, .jni 0, .call (.caller 1) 1 (.start 5),
        go (.caller 1), go (.caller 1), .call .loop 0 (.kill 9)] ∧
    s₀.frame.isSome ∧
    ∀ h s, machine.RunWhere (fun _ l => l.internal = true) s₀ h s →
      h.length ≤ 13 * {t | (s₀.calls t).isSome}.ncard + 10 := by
  have r := Machine.exec_run (M := machine) (s := .init examplePuppies)
    (listens 0 ++ startsWith (.caller 0) 0 7 ++
      [.callback 0 (.stdoutCb 1 [33]), .jni 0, .jni 0, .jni 0, .call (.caller 1) 1 (.start 5),
        go (.caller 1), go (.caller 1), .call .loop 0 (.kill 9)]) rfl
  exact ⟨_, _, r, rfl, rfl, fun h s r' => ((comes_to_rest r).2.1 h s r').1⟩

end Dorypuppy.Manager
