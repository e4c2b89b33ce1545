import Dorypuppy.Manager.Kill
import Dorypuppy.Manager.Registry

/-!
# Manager — what `isRunning` says

`isRunning` is `pid != 0 && exitedAt == null`.  `start` writes `pid` and never clears `exitedAt`,
the exit event of any child of the `DoryProcess` writes `exitedAt`, and the exit event of a child
that is not in the Java map yet writes nothing.  So a `DoryProcess` that was started again after an
exit is not running for `isRunning`, although its child is (`restarted`).

`isRunning_iff`: when no `start()` succeeds on a `DoryProcess` after an exit of it was recorded, no
exit of an earlier child is recorded while a later one runs, and each exit event finds its child
registered, `isRunning` says whether the child of the most recent successful `start()` is there and
its exit event has not been emitted.
-/

namespace Dorypuppy.Manager

open Child (Reached born done)
open Support (Machine History)
open Function (update update_self update_of_ne)

variable {s s' : State} {l : Label} {os : List Event} {h : History Label Event} {p : PuppyId}
  {c : ObjId} {q : Int}

/-! ### The history of one `DoryProcess` -/

/-- What a successful `start()` of `p` has returned. -/
def Event.started? (p : PuppyId) : Event → Option Int
  | .returned _ p' pid => if p' = p then some pid else none
  | _ => none

/-- What the most recent successful `start()` of `p` has returned. -/
def lastStart (p : PuppyId) (os : List Event) : Option Int :=
  (os.filterMap (Event.started? p)).getLast?

theorem lastStart_quiet {os' : List Event} (hq : ∀ e ∈ os', e.started? p = none) :
    lastStart p (os ++ os') = lastStart p os := by
  rw [lastStart, List.filterMap_append, List.filterMap_eq_nil_iff.mpr hq, List.append_nil]
  rfl

theorem lastStart_returned (t : Tid) : lastStart p (os ++ [.returned t p q]) = some q := by
  simp [lastStart, Event.started?]

/-- No thread is inside a `start()` of `p`. -/
def OutsideStart (s : State) (p : PuppyId) : Prop :=
  ∀ t call, s.calls t = some call → call.puppy = p → call.inStart = false

/-- The children of `p` are made by `start()`, one call at a time, and no pid is reused. -/
structure Starts (p : PuppyId) (s : State) (l : Label) : Prop where
  fresh : pidFresh s l = true
  sequential : ∀ t timeout, l = .call t p (.start timeout) → OutsideStart s p
  direct : ∀ t, l ≠ .call t p .puppySpawn

/-- The child of the most recent successful `start()` is there, and its exit event has not been
emitted. -/
def Running (h : History Label Event) (s : State) (p : PuppyId) : Prop :=
  ∃ q c sp, lastStart p h.outputs = some q ∧ s.objs c = some sp ∧ sp.puppy = p ∧
    sp.child.pc = .returned 0 ∧ sp.child.obj.getPid = q ∧
    ∀ args, Event.act c (.emit "exit" args) ∉ h.outputs

/-! ### The condition -/

/-- The child with the pid has emitted its exit event. -/
def DoneAt (s : State) (q : Int) : Prop :=
  ∃ c sp, s.objs c = some sp ∧ born sp.child = true ∧ sp.child.obj.process.pid = q ∧
    done sp.child = true

/-- A `start()` of `p` is about to write the pid. -/
def Writing (s : State) (p : PuppyId) (q : Int) : Prop :=
  ∃ t call, s.calls t = some call ∧ call.puppy = p ∧ call.pc = .setPid q

/-- `exitedAt` and the children of `p` go together. -/
structure Recorded (p : PuppyId) (s : State) (l : Label) : Prop where
  /-- A `start()` succeeds when no exit of `p` has been recorded, or its child is done already. -/
  restart : ∀ t mem now call q, l = .step t mem now → s.calls t = some call → call.puppy = p →
    call.pc = .setPid q → (s.puppies p).exitedAt = none ∨ DoneAt s q
  /-- An exit is recorded when it is that of the latest child, or the latest is done already. -/
  overlap : ∀ now f e, l = .jni now → s.frame = some f → f.pc = .setExitedAt →
    s.javaList f.pid = some e → e.puppy = p →
    f.pid = (s.puppies p).pid ∨ DoneAt s (s.puppies p).pid ∨ Writing s p f.pid
  /-- An exit event finds its child registered, or an exit of `p` has been recorded already. -/
  registered : ∀ now f sp, l = .jni now → s.frame = some f → f.method = .exit →
    f.pc = .containsKey → s.objs f.child = some sp → sp.puppy = p →
    sp.stage = .java ∨ (s.puppies p).exitedAt.isSome

/-- The places of an exit callback up to the write of `exitedAt`. -/
def JniPc.beforeWrite : JniPc → Bool
  | .containsKey | .setCode | .setSignal | .setExitedAt => true
  | _ => false

/-- The exit event of the child whose pid `p` has was emitted, and is not recorded yet. -/
def Recording (s : State) (p : PuppyId) : Prop :=
  ∃ f, s.frame = some f ∧ f.method = .exit ∧ f.pid = (s.puppies p).pid ∧ f.pc.beforeWrite = true

/-! ### The fields `pid` and `exitedAt` -/

/-- `exitedAt` is what it was, or an exit callback has written it. -/
theorem exitedAt_back (hs : Step s l s' os) (p : PuppyId) :
    (s'.puppies p).exitedAt = (s.puppies p).exitedAt ∨
    ∃ now f e, l = .jni now ∧ s.frame = some f ∧ f.pc = .setExitedAt ∧
      s.javaList f.pid = some e ∧ e.puppy = p ∧ (s'.puppies p).exitedAt.isSome := by
  cases step_puppy hs p with
  | same h => exact .inl (by rw [h])
  | set _ h => exact .inl (by rw [h, (DoryProcess.apply_exit _ _).2.2])
  | timeout _ _ _ _ h | startedAt h | pid _ _ _ _ h => exact .inl (by rw [h]; rfl)
  | @exit now f e w pc hl hf hw he hp h =>
      rw [h]
      unfold Frame.write? at hw
      split at hw <;> cases hw
      · exact .inl rfl
      · exact .inl rfl
      · exact .inr ⟨now, f, e, hl, hf, ‹_›, he, hp, rfl⟩

theorem exitedAt_stays (hs : Step s l s' os) (hx : (s.puppies p).exitedAt.isSome) :
    (s'.puppies p).exitedAt.isSome := by
  rcases exitedAt_back hs p with h | ⟨-, -, -, -, -, -, -, -, h⟩
  · rwa [h]
  · exact h

/-- A call goes on by the steps of its thread. -/
theorem call_stays (hs : Step s l s' os) {t : Tid} {call : Call} (hc : s.calls t = some call) :
    s'.calls t = some call ∨ ∃ mem now, l = .step t mem now := by
  by_cases ht : l.thread? = some t
  · cases l with
    | step t' mem now =>
        cases ht
        exact .inr ⟨mem, now, rfl⟩
    | call =>
        cases ht
        cases hs with
        | call hnone =>
            rw [hnone] at hc
            cases hc
    | spawn =>
        cases hs with
        | spawn => exact .inl hc
    | _ => cases ht
  · exact .inl ((step_calls_other hs ht).trans hc)

/-- The assignment of `this.pid`. -/
theorem setPid_step {t : Tid} {mem : Uninit} {now : Date} {call : Call}
    (hc : s.calls t = some call) (hpc : call.pc = .setPid q)
    (hs : s.step (.step t mem now) = some (s', os)) : (s'.puppies call.puppy).pid = q := by
  rw [call_goes (step_inv hs).1 hc] at hs
  simp only [State.stepCall, hpc] at hs
  cases hs
  dsimp only
  rw [update_self]
  rfl

/-- The assignment of `startedAt`, after which `start()` returns. -/
theorem setStartedAt_step {t : Tid} {mem : Uninit} {now : Date} {call : Call}
    (hc : s.calls t = some call) (hpc : call.pc = .setStartedAt q)
    (hs : s.step (.step t mem now) = some (s', os)) :
    os = [.returned t call.puppy (s.puppies call.puppy).pid] := by
  rw [call_goes (step_inv hs).1 hc] at hs
  simp only [State.stepCall, hpc] at hs
  cases hs
  rfl

/-! ### The pid and the calls of `start` -/

/-- A child of `p` was started under the pid. -/
def Put (s : State) (p : PuppyId) (q : Int) : Prop :=
  ∃ c sp, s.objs c = some sp ∧ sp.puppy = p ∧ sp.child.pc = .returned 0 ∧
    sp.child.obj.process.pid = q

theorem Put.step (v : Inv s) (hs : Step s l s' os) (hp : Put s p q) : Put s' p q := by
  obtain ⟨c, sp, hsp, hpu, hret, hq⟩ := hp
  obtain ⟨sp', hsp', hl⟩ := step_later v.objects v.calls hs hsp
  have hb := ((v.objects.reached c sp hsp).1.started hret).1
  exact ⟨c, sp', hsp', hl.puppy.trans hpu, hl.returned 0 hret, (hl.born hb).2.trans hq⟩

theorem DoneAt.step (v : Inv s) (hs : Step s l s' os) (hd : DoneAt s q) : DoneAt s' q := by
  obtain ⟨c, sp, hsp, hb, hq, hd⟩ := hd
  obtain ⟨sp', hsp', hl⟩ := step_later v.objects v.calls hs hsp
  exact ⟨c, sp', hsp', (hl.born hb).1, (hl.born hb).2.trans hq, hl.done hd⟩

/-- The pids that a call of `start` carries after `puppySpawn`, and those in the fields, are those
of children of the `DoryProcess`. -/
structure Fields (s : State) : Prop where
  call : ∀ t call q, s.calls t = some call → call.pc = .setPid q ∨ call.pc = .setStartedAt q →
    Put s call.puppy q
  field : ∀ p, (s.puppies p).pid ≠ 0 → Put s p (s.puppies p).pid

theorem step_fields (v : Inv s) (k : Fields s) (hs : Step s l s' os) : Fields s' := by
  refine ⟨fun t call q hc hpc => ?_, fun p hne => ?_⟩
  · rcases call_back hs hc with hc | ⟨p, api, -, -, rfl⟩ | ⟨mem, now, call₀, -, hc₀, hcall, hm⟩
    · exact (k.call t call q hc hpc).step v hs
    · cases api <;> simp [Api.begin] at hpc
    · have hp : Put s call₀.puppy q := by
        generalize hpc₀ : call₀.pc = pc₀ at hm
        rcases hpc with hpc | hpc
        all_goals
          rw [hpc] at hm
          cases hm
        · rename_i c hpos
          obtain ⟨sp, hsp, -⟩ := v.calls.works t call₀ c hc₀ (by rw [hpc₀]; rfl)
          obtain ⟨hp, -, hret, hq⟩ := v.calls.javaPut hc₀ hpc₀ hsp hpos
          exact ⟨c, sp, hsp, hp, hret, hq⟩
        · exact k.call t call₀ q hc₀ (.inl hpc₀)
      rw [hcall]
      exact hp.step v hs
  · rcases pid_back hs p with hq | ⟨t, mem, now, call, q, -, hc, rfl, hpc, hq, -⟩
    · rw [hq] at hne ⊢
      exact (k.field p hne).step v hs
    · rw [hq]
      exact (k.call t call q hc (.inl hpc)).step v hs

theorem run_fields {puppies : PuppyId → List (Option JString) × StringTable}
    {C : State → Label → Prop} (r : machine.RunWhere C (.init puppies) h s) : Fields s := by
  refine r.inv (fun _ s => Fields s) ⟨?_, fun p hne => absurd rfl hne⟩ ?_
  · intro t call q hc
    cases hc
  · intro h s s' l os r _ hs k
    exact step_fields (run_inv r) k (step_inv hs).2

/-- The calls on `p` are those of one `start()` at most, and of `kill`. -/
structure StartCalls (p : PuppyId) (s : State) : Prop where
  one : ∀ t t' call call', s.calls t = some call → s.calls t' = some call' → call.puppy = p →
    call'.puppy = p → call.inStart = true → call'.inStart = true → t = t'
  inStart : ∀ t call, s.calls t = some call → call.puppy = p → call.pc.ofKill = false →
    call.inStart = true

/-- A call stays on its `DoryProcess`, and one of `kill` or of `start` stays one. -/
theorem call_origin (hs : Step s l s' os) {t : Tid} {call : Call} (hc : s'.calls t = some call) :
    (∃ call₀, s.calls t = some call₀ ∧ call₀.puppy = call.puppy ∧ call₀.inStart = call.inStart ∧
      call₀.pc.ofKill = call.pc.ofKill) ∨
    ∃ p api, l = .call t p api ∧ call = api.begin p := by
  rcases call_back hs hc with hc | ⟨p, api, hl, -, rfl⟩ | ⟨mem, now, call₀, -, hc₀, hcall, hm⟩
  · exact .inl ⟨call, hc, rfl, rfl, rfl⟩
  · exact .inr ⟨p, api, hl, rfl⟩
  · refine .inl ⟨call₀, hc₀, by rw [hcall], by rw [hcall], ?_⟩
    generalize call₀.pc = pc₀ at hm
    generalize call.pc = pc at hm
    cases hm <;> rfl

theorem step_startCalls (k : StartCalls p s) (hC : Starts p s l) (hs : Step s l s' os) :
    StartCalls p s' := by
  -- a call of `start` begins when there is none
  have alone {t t' : Tid} {p' : PuppyId} {api : Api} {call₀ : Call} (hl : l = .call t p' api)
      (hp : (api.begin p').puppy = p) (hin : (api.begin p').inStart = true)
      (hc₀ : s.calls t' = some call₀) (hp₀ : call₀.puppy = p) (hin₀ : call₀.inStart = true) :
      False := by
    cases api with
    | start timeout =>
        cases hp
        rw [hC.sequential t timeout hl t' call₀ hc₀ hp₀] at hin₀
        cases hin₀
    | _ => cases hin
  refine ⟨fun t t' call call' hc hc' hp hp' hin hin' => ?_, fun t call hc hp hkill => ?_⟩
  · rcases call_origin hs hc with ⟨call₀, hc₀, hp₀, hin₀, -⟩ | ⟨p', api, hl, rfl⟩
    · rcases call_origin hs hc' with ⟨call₁, hc₁, hp₁, hin₁, -⟩ | ⟨p', api, hl, rfl⟩
      · exact k.one t t' call₀ call₁ hc₀ hc₁ (hp₀.trans hp) (hp₁.trans hp') (hin₀.trans hin)
          (hin₁.trans hin')
      · exact (alone hl hp' hin' hc₀ (hp₀.trans hp) (hin₀.trans hin)).elim
    · rcases call_origin hs hc' with ⟨call₁, hc₁, hp₁, hin₁, -⟩ | ⟨p'', api', hl', rfl⟩
      · exact (alone hl hp hin hc₁ (hp₁.trans hp') (hin₁.trans hin')).elim
      · cases hl.symm.trans hl'
        rfl
  · rcases call_origin hs hc with ⟨call₀, hc₀, hp₀, hin₀, hk₀⟩ | ⟨p', api, hl, rfl⟩
    · exact hin₀.symm.trans (k.inStart t call₀ hc₀ (hp₀.trans hp) (hk₀.trans hkill))
    · cases api with
      | start => rfl
      | puppySpawn =>
          cases hp
          exact absurd hl (hC.direct t)
      | _ => cases hkill

/-- The field `pid` is what the most recent `start()` has returned, or is about to return. -/
structure LastStart (p : PuppyId) (h : History Label Event) (s : State) : Prop where
  started : ∀ t call q, s.calls t = some call → call.puppy = p → call.pc = .setStartedAt q →
    q = (s.puppies p).pid
  last : lastStart p h.outputs =
      (if (s.puppies p).pid = 0 then none else some (s.puppies p).pid) ∨
    ∃ t call, s.calls t = some call ∧ call.puppy = p ∧
      call.pc = .setStartedAt (s.puppies p).pid

/-- A `start()` returns in its last step. -/
theorem step_started (k : StartCalls p s) (hs : Step s l s' os) :
    (∀ e ∈ os, e.started? p = none) ∨ ∃ t mem now call q, l = .step t mem now ∧
      s.calls t = some call ∧ call.puppy = p ∧ call.pc = .setStartedAt q := by
  cases hs with
  | spawn | callback | callbackInvoke | tail =>
      refine .inl fun e he => ?_
      obtain ⟨a, -, rfl⟩ := List.mem_map.mp he
      rfl
  | @javaPut t mem now call c pid sp hc hpc =>
      refine .inl fun e he => ?_
      split at he
      · cases he
      · rename_i hin
        obtain rfl := List.mem_singleton.mp he
        refine if_neg fun hp => hin (k.inStart t call hc hp ?_)
        rw [hpc]
        rfl
  | @setStartedAt t mem now call q hc hpc =>
      by_cases hp : call.puppy = p
      · exact .inr ⟨t, mem, now, call, q, rfl, hc, hp, hpc⟩
      · refine .inl fun e he => ?_
        obtain rfl := List.mem_singleton.mp he
        exact if_neg hp
  | javaThrow | killDeref | nullDeref | write | listener | remove | erase =>
      refine .inl fun e he => ?_
      obtain rfl := List.mem_singleton.mp he
      rfl
  | _ => exact .inl fun _ he => absurd he List.not_mem_nil

theorem step_lastStart (v : Inv s) (f : Fields s) (k : StartCalls p s) (g : LastStart p h s)
    (hs : s.step l = some (s', os)) : LastStart p (h ++ [(l, os)]) s' := by
  have hst := (step_inv hs).2
  -- a call that writes the pid is the one call of `start`
  have writer {t t' : Tid} {call call' : Call} {q q' : Int} (hc : s.calls t = some call)
      (hp : call.puppy = p) (hpc : call.pc = .setStartedAt q) (hc' : s.calls t' = some call')
      (hp' : call'.puppy = p) (hpc' : call'.pc = .setPid q') : False := by
    cases k.one t t' call call' hc hc' hp hp' (k.inStart t call hc hp (by rw [hpc]; rfl))
      (k.inStart t' call' hc' hp' (by rw [hpc']; rfl))
    cases hc.symm.trans hc'
    rw [hpc] at hpc'
    cases hpc'
  have houts : (h ++ [(l, os)]).outputs = h.outputs ++ os := by simp
  refine ⟨fun t call q hc hp hpc => ?_, ?_⟩
  · rcases call_back hst hc with hc | ⟨p', api, -, -, rfl⟩ | ⟨mem, now, call₀, rfl, hc₀, hcall, hm⟩
    · rcases pid_back hst p with hq | ⟨t', -, -, call', q', -, hc', hp', hpc', -⟩
      · exact (g.started t call q hc hp hpc).trans hq.symm
      · exact (writer hc hp hpc hc' hp' hpc').elim
    · cases api <;> cases hpc
    · rw [hpc] at hm
      generalize hpc₀ : call₀.pc = pc₀ at hm
      cases hm
      have hp₀ : call₀.puppy = p := by rw [hcall] at hp; exact hp
      rw [← hp₀, setPid_step hc₀ hpc₀ hs]
  · rw [houts]
    rcases step_started k hst with hquiet | ⟨t, mem, now, call, q, rfl, hc, rfl, hpc⟩
    · rw [lastStart_quiet hquiet]
      rcases pid_back hst p with hq | ⟨t, -, -, call, q, rfl, -, rfl, -, hq, hc'⟩
      · rw [hq]
        refine g.last.imp_right ?_
        rintro ⟨t, call, hc, hp, hpc⟩
        rcases call_stays hst hc with hc' | ⟨mem, now, rfl⟩
        · exact ⟨t, call, hc', hp, hpc⟩
        · have := hquiet (.returned t call.puppy (s.puppies call.puppy).pid) (by
            rw [setStartedAt_step hc hpc hs]
            exact .head _)
          rw [Event.started?, if_pos hp] at this
          cases this
      · exact .inr ⟨t, _, hc', rfl, by rw [hq]⟩
    · left
      have hq := g.started t call q hc rfl hpc
      have hpid : (s'.puppies call.puppy).pid = q := by
        rcases pid_back hst call.puppy with h | ⟨t', -, -, call', q', -, hc', hp', hpc', -⟩
        · exact h.trans hq.symm
        · exact (writer hc rfl hpc hc' hp' hpc').elim
      obtain ⟨c, sp, hsp, -, hret, hpq⟩ := f.call t call q hc (.inr hpc)
      have hr := (v.objects.reached c sp hsp).1
      have hpos := hr.pid_pos (hr.started hret).1
      rw [setStartedAt_step hc hpc hs, lastStart_returned, ← hq, hpid, if_neg (by omega)]

theorem run_starts {puppies : PuppyId → List (Option JString) × StringTable}
    (r : machine.RunWhere (Starts p) (.init puppies) h s) :
    StartCalls p s ∧ LastStart p h s := by
  refine r.inv (fun h s => StartCalls p s ∧ LastStart p h s) ?_ ?_
  · refine ⟨⟨?_, ?_⟩, ⟨?_, .inl rfl⟩⟩
    · intro t t' call call' hc
      cases hc
    · intro t call hc
      cases hc
    · intro t call q hc
      cases hc
  · rintro h s s' l os r hC hs ⟨k, g⟩
    exact ⟨step_startCalls k hC (step_inv hs).2, step_lastStart (run_inv r) (run_fields r) k g hs⟩

/-! ### The exit events -/

/-- A child in the Java map is there until its exit callback removes it. -/
def Present (s : State) : Prop :=
  ∀ c sp, s.objs c = some sp → sp.stage = .java →
    done sp.child = false ∨ exiting s c JniPc.beforeRemove = true →
    (s.javaList sp.child.obj.process.pid).isSome

theorem step_present (v : Inv s) (d : Distinct s) (g : Present s) (hs : Step s l s' os) :
    Present s' := by
  intro c sp' hsp' hst' hwait
  -- a child that was in the map waits as before
  have old {sp : Spawn} (hsp : s.objs c = some sp) (hst : sp.stage = .java) :
      born sp.child = true ∧ (done sp.child = true → done sp'.child = true) ∧
        sp'.child.obj.process.pid = sp.child.obj.process.pid ∧
        (s.javaList sp.child.obj.process.pid).isSome := by
    obtain ⟨sp₁, hsp₁, hl⟩ := step_later v.objects v.calls hs hsp
    cases hsp'.symm.trans hsp₁
    have hb := ((v.objects.reached c sp hsp).1.started
      (v.calls.put c sp hsp (by rw [hst]; decide))).1
    refine ⟨hb, hl.done, (hl.born hb).2, g c sp hsp hst ?_⟩
    rcases hwait with hd | hx
    · exact .inl (Bool.eq_false_iff.mpr fun h => by rw [hl.done h] at hd; cases hd)
    · rcases exiting_back v hs hx with hx | ⟨sp₁, hsp₁, hd⟩
      · exact .inr hx
      · cases hsp.symm.trans hsp₁
        exact .inl hd
  cases map_step v hs with
  | same _ hj hobj =>
      obtain ⟨sp, hsp, hst, -⟩ := hobj c sp' hsp' (by rw [hst']; decide)
      obtain ⟨-, -, hq, hin⟩ := old hsp (hst.trans hst')
      rwa [hj, hq]
  | nativePut _ _ _ _ _ _ hj ho =>
      rw [ho] at hsp'
      rcases update_some hsp' with ⟨rfl, rfl⟩ | hsp
      · cases hst'
      · obtain ⟨-, -, hq, hin⟩ := old hsp hst'
        rwa [hj]
  | javaPut _ _ _ _ hpid _ _ hj ho =>
      rw [hj, Function.update_apply]
      split
      · rfl
      · rename_i hne
        rw [ho] at hsp'
        rcases update_some hsp' with ⟨rfl, rfl⟩ | hsp
        · exact absurd hpid hne
        · exact (old hsp hst').2.2.2
  | @remove now f hf hpc _ hj ho hf' =>
      rw [ho] at hsp'
      obtain ⟨hb, hdone, -, hin⟩ := old hsp' hst'
      have hm := v.frames.ofExit f hf (by rw [hpc]; rfl)
      obtain ⟨sp₀, hsp₀, hborn, hd₀⟩ := v.frames.obj f hf
      obtain ⟨hb₀, hpid⟩ := hborn (by rw [hm]; decide)
      by_cases hcf : c = f.child
      · -- what is removed is the entry of the child that does not wait any more
        subst hcf
        cases hsp'.symm.trans hsp₀
        rcases hwait with hd | hx
        · rw [hd₀ hm] at hd
          cases hd
        · obtain ⟨f', hf'', -, -, hb'⟩ := exiting_iff.mp hx
          cases hf'.symm.trans hf''
          cases hb'
      · rwa [hj, hpid, update_of_ne (d.pid_ne hsp' hsp₀ hb hb₀ hcf)]
  | erase _ _ _ hj ho =>
      rw [ho] at hsp'
      rw [hj]
      exact (old hsp' hst').2.2.2
  | null hj ho =>
      rw [ho] at hsp'
      rw [hj]
      exact (old hsp' hst').2.2.2

theorem run_present {puppies : PuppyId → List (Option JString) × StringTable}
    (r : machine.RunWhere (fun s l => pidFresh s l = true) (.init puppies) h s) : Present s := by
  refine r.inv (fun _ s => Present s) (fun c sp hsp => by cases hsp) ?_
  intro h s s' l os r _ hs g
  exact step_present (run_inv r) (run_distinct r) g (step_inv hs).2

/-- What `exitedAt` says of the children of `p`. -/
structure ExitedAt (p : PuppyId) (s : State) : Prop where
  marked : (s.puppies p).exitedAt.isSome → DoneAt s (s.puppies p).pid ∨
    ∃ q, Writing s p q ∧ DoneAt s q
  written : ∀ c sp, s.objs c = some sp → sp.puppy = p → done sp.child = true →
    (s.puppies p).exitedAt.isSome ∨ exiting s c JniPc.beforeWrite = true

/-- The mark stays while the latest child, or the one whose pid comes next, is done. -/
theorem step_marked (v : Inv s) (g : ExitedAt p s) (hC : Recorded p s l)
    (hs : s.step l = some (s', os)) (hx : (s'.puppies p).exitedAt.isSome) :
    DoneAt s' (s'.puppies p).pid ∨ ∃ q, Writing s' p q ∧ DoneAt s' q := by
  have hst := (step_inv hs).2
  -- what held before the step
  have keep (hold : DoneAt s (s.puppies p).pid ∨ ∃ q, Writing s p q ∧ DoneAt s q)
      (hnew : ∀ t mem now call q, l = .step t mem now → s.calls t = some call →
        call.puppy = p → call.pc = .setPid q → DoneAt s q) :
      DoneAt s' (s'.puppies p).pid ∨ ∃ q, Writing s' p q ∧ DoneAt s' q := by
    rcases pid_back hst p with hq | ⟨t, mem, now, call, q, hl, hc, hp, hpc, hq, -⟩
    · rcases hold with hd | ⟨q, ⟨t, call, hc, rfl, hpc⟩, hd⟩
      · exact .inl (hq ▸ hd.step v hst)
      · rcases call_stays hst hc with hc' | ⟨mem, now, rfl⟩
        · exact .inr ⟨q, ⟨t, call, hc', rfl, hpc⟩, hd.step v hst⟩
        · rw [setPid_step hc hpc hs]
          exact .inl (hd.step v hst)
    · exact .inl (hq ▸ (hnew t mem now call q hl hc hp hpc).step v hst)
  rcases exitedAt_back hst p with hsame | ⟨now, f, e, rfl, hf, hpc, he, hp, -⟩
  · rw [hsame] at hx
    refine keep (g.marked hx) fun t mem now call q hl hc hp hpc => ?_
    refine (hC.restart t mem now call q hl hc hp hpc).resolve_left fun hnone => ?_
    rw [hnone] at hx
    cases hx
  · have hm := v.frames.ofExit f hf (by rw [hpc]; rfl)
    obtain ⟨sp₀, hsp₀, hborn, hd₀⟩ := v.frames.obj f hf
    obtain ⟨hb₀, hpid⟩ := hborn (by rw [hm]; decide)
    have hd : DoneAt s f.pid := ⟨f.child, sp₀, hsp₀, hb₀, hpid.symm, hd₀ hm⟩
    refine keep ?_ fun t mem now call q hl => by cases hl
    rcases hC.overlap now f e rfl hf hpc he hp with hq | hd' | hw
    · exact .inl (hq ▸ hd)
    · exact .inl hd'
    · exact .inr ⟨f.pid, hw, hd⟩

/-- A child that is done is recorded by its exit callback. -/
theorem step_written (v : Inv s) (d : Distinct s) (pr : Present s) (g : ExitedAt p s)
    (hC : Recorded p s l) (hs : Step s l s' os) {sp' : Spawn} (hsp' : s'.objs c = some sp')
    (hp : sp'.puppy = p) (hd : done sp'.child = true) :
    (s'.puppies p).exitedAt.isSome ∨ exiting s' c JniPc.beforeWrite = true := by
  have hback := step_done v.objects hs hsp'
  rw [hd] at hback
  rcases Bool.or_eq_true_iff.mp hback.symm with hold | hnew
  · obtain ⟨sp, hsp, hd₀⟩ := (Option.any_eq_true _ _).mp hold
    obtain ⟨sp₁, hsp₁, hl⟩ := step_later v.objects v.calls hs hsp
    cases hsp'.symm.trans hsp₁
    have hp₀ : sp.puppy = p := hl.puppy.symm.trans hp
    rcases g.written c sp hsp hp₀ hd₀ with hx | hx
    · exact .inl (exitedAt_stays hs hx)
    -- the exit callback of the child is on its way to the write
    obtain ⟨f, hf, rfl, hm, hb⟩ := exiting_iff.mp hx
    obtain ⟨sp₁, hsp₁, hborn, -⟩ := v.frames.obj f hf
    cases hsp.symm.trans hsp₁
    obtain ⟨hb₀, hpid⟩ := hborn (by rw [hm]; decide)
    cases hs with
    | callback hnone | callbackInvoke hnone =>
        rw [hnone] at hf
        cases hf
    | @jniMove now f₀ pc' hf₀ hmove =>
        cases hf₀.symm.trans hf
        generalize hpc : f.pc = pc at hmove
        cases hmove with
        | contains =>
            refine .inr (exiting_iff.mpr ⟨_, rfl, rfl, hm, ?_⟩)
            simp [Frame.found, hm, JniPc.beforeWrite]
        | absent hnone =>
            rcases hC.registered now f sp rfl hf hm hpc hsp hp₀ with hst | hx
            · have hin := pr f.child sp hsp hst
                (.inr (exiting_iff.mpr ⟨f, hf, rfl, hm, by rw [hpc]; rfl⟩))
              rw [← hpid, hnone] at hin
              cases hin
            · exact .inl hx
        | listener | noListener =>
            rw [hpc] at hb
            cases hb
    | @write now f₀ w pc' e hf₀ hw he =>
        cases hf₀.symm.trans hf
        obtain ⟨sp₂, hsp₂, -, hp₂, hb₂, hq₂⟩ := v.entries.java f.pid e he
        have hch := d.one _ _ _ _ hsp₂ hsp hb₂ hb₀ (hq₂.trans hpid)
        rw [hch] at hsp₂
        cases hsp.symm.trans hsp₂
        unfold Frame.write? at hw
        split at hw
        · cases hw
          exact .inr (exiting_iff.mpr ⟨_, rfl, rfl, hm, rfl⟩)
        · cases hw
          exact .inr (exiting_iff.mpr ⟨_, rfl, rfl, hm, rfl⟩)
        · cases hw
          refine .inl ?_
          dsimp only
          rw [← hp₂, hp₀, update_self]
          rfl
        · cases hw
    | nullPointer hf₀ hpc hnone => exact (d.not_nullPointer v hf₀ hpc hnone).elim
    | listener hf₀ hpc | remove hf₀ hpc | erase hf₀ hpc | tail hf₀ hpc | listenerReturns hf₀ hpc
    | listenerThrows hf₀ hpc =>
        cases hf₀.symm.trans hf
        rw [hpc] at hb
        cases hb
    | _ => exact .inr (exiting_iff.mpr ⟨f, hf, rfl, hm, hb⟩)
  · -- the exit event has just been raised
    cases hs with
    | @callback c' i sp ch as hnone hsp hst hinv =>
        have hraised := invoked_eq (v.objects.reached c' sp hsp).2 hst
        rw [hinv] at hraised
        by_cases hc : c' = c
        · subst hc
          rw [raisedBy_callback hsp, Option.map_eq_none_iff.mp hraised.symm] at hnew
          cases hnew
        · simp [raisedBy, hc] at hnew
    | @callbackInvoke c' i sp ch as k args pid hnone hsp hst hinv =>
        by_cases hc : c' = c
        · subst hc
          rw [raisedBy_callback hsp] at hnew
          rw [invoked_eq (v.objects.reached c' sp hsp).2 hst, Option.map_eq_some_iff] at hinv
          obtain ⟨⟨k, args⟩, hk, ⟨⟩⟩ := hinv
          refine .inr (exiting_iff.mpr ⟨_, rfl, rfl, ?_, rfl⟩)
          simpa [hk] using hnew
        · simp [raisedBy, hc] at hnew
    | _ => cases hnew

theorem run_exitedAt {puppies : PuppyId → List (Option JString) × StringTable}
    (r : machine.RunWhere (fun s l => Starts p s l ∧ Recorded p s l) (.init puppies) h s) :
    ExitedAt p s := by
  refine r.inv (fun _ s => ExitedAt p s) ⟨?_, ?_⟩ ?_
  · intro hx
    cases hx
  · intro c sp hsp
    cases hsp
  · intro h s s' l os r hC hs g
    have fresh := r.mono fun _ _ hC => hC.1.fresh
    exact ⟨step_marked (run_inv r) g hC.2 hs, fun c sp hsp =>
      step_written (run_inv r) (run_distinct fresh) (run_present fresh) g hC.2 (step_inv hs).2 hsp⟩

/-- **`isRunning` tells the truth.**  In every history of a `DoryProcess` in which no `start()`
succeeds after an exit was recorded, no exit of an earlier child is recorded while the latest one
runs, and each exit event finds its child registered: outside `start()`, and once the exit event of
the latest child is recorded when it has been emitted, `isRunning()` is true exactly when the child
of the most recent successful `start()` is there and its exit event has not been emitted. -/
theorem isRunning_iff {puppies : PuppyId → List (Option JString) × StringTable}
    (r : machine.RunWhere (fun s l => Starts p s l ∧ Recorded p s l) (.init puppies) h s)
    (hout : OutsideStart s p) (hrec : ¬ Recording s p) :
    (s.puppies p).isRunning = true ↔ Running h s p := by
  have v := run_inv r
  have d := run_distinct (r.mono fun _ _ hC => hC.1.fresh)
  have f := run_fields r
  have g := run_exitedAt r
  obtain ⟨k, last⟩ := run_starts (r.mono fun _ _ hC => hC.1)
  have busy {t : Tid} {call : Call} (hc : s.calls t = some call) (hp : call.puppy = p)
      (hpc : call.pc.ofKill = false) : False := by
    have hin := k.inStart t call hc hp hpc
    rw [hout t call hc hp] at hin
    cases hin
  have hlast : lastStart p h.outputs =
      if (s.puppies p).pid = 0 then none else some (s.puppies p).pid := by
    refine last.last.resolve_right ?_
    rintro ⟨t, call, hc, hp, hpc⟩
    exact busy hc hp (by rw [hpc]; rfl)
  have hdone {c : ObjId} {sp : Spawn} (hsp : s.objs c = some sp) : done sp.child = false ↔
      ∀ args, Event.act c (.emit "exit" args) ∉ h.outputs := by
    rw [← not_exists, run_done r, hsp, Option.any_some, Bool.not_eq_true]
  simp only [DoryProcess.isRunning, Bool.and_eq_true, decide_eq_true_eq,
    Option.isNone_iff_eq_none]
  constructor
  · rintro ⟨hpid, hx⟩
    obtain ⟨c, sp, hsp, hp, hret, hq⟩ := f.field p hpid
    have hstored := (v.objects.reached c sp hsp).1.started hret
    refine ⟨_, c, sp, by rw [hlast, if_neg hpid], hsp, hp, hret, hstored.2.trans hq,
      (hdone hsp).mp (Bool.eq_false_iff.mpr fun hd => ?_)⟩
    rcases g.written c sp hsp hp hd with hx' | hx'
    · rw [hx] at hx'
      cases hx'
    · obtain ⟨fr, hf, rfl, hm, hb⟩ := exiting_iff.mp hx'
      obtain ⟨sp₀, hsp₀, hborn, -⟩ := v.frames.obj fr hf
      cases hsp.symm.trans hsp₀
      exact hrec ⟨fr, hf, hm, (hborn (by rw [hm]; decide)).2.trans hq, hb⟩
  · rintro ⟨q, c, sp, hq, hsp, hp, hret, hpid, hnot⟩
    rw [hlast] at hq
    split at hq
    · cases hq
    · rename_i hne
      refine ⟨hne, ?_⟩
      by_contra hx
      have hb := (v.objects.reached c sp hsp).1.started hret
      rcases g.marked (Option.ne_none_iff_isSome.mp hx) with
        ⟨c', sp', hsp', hb', hq', hd⟩ | ⟨q, ⟨t, call, hc, hp, hpc⟩, -⟩
      · -- the child that is done is the latest one
        have hcc := d.one _ _ _ _ hsp' hsp hb' hb.1
          (hq'.trans ((Option.some.inj hq).trans (hpid.symm.trans hb.2)))
        subst hcc
        cases hsp.symm.trans hsp'
        rw [(hdone hsp).mpr hnot] at hd
        cases hd
      · exact busy hc hp (by rw [hpc]; rfl)

/-! ### One thread -/

/-- A step of one thread that starts and kills one `DoryProcess`, under fresh pids. -/
def Label.startsIn (s : State) (t : Tid) (p : PuppyId) (l : Label) : Bool :=
  l.aloneIn s t p && pidFresh s l && match l with
    | .call _ _ api => (s.calls t).isNone && api ≠ .puppySpawn
    | _ => true

/-- The first cases of the condition. -/
def Label.recordedIn (s : State) (p : PuppyId) : Label → Bool
  | .step t _ _ => (s.calls t).all fun call =>
      match call.pc with
      | .setPid _ => (s.puppies p).exitedAt.isNone
      | _ => true
  | .jni _ => s.frame.all fun f =>
      match f.pc with
      | .setExitedAt => f.pid = (s.puppies p).pid
      | .containsKey => (s.objs f.child).all fun sp => sp.stage = .java
      | _ => true
  | _ => true

theorem startsIn_starts {puppies : PuppyId → List (Option JString) × StringTable} {t : Tid}
    {C : State → Label → Prop}
    (r : machine.RunWhere (fun s l => l.startsIn s t p = true ∧ C s l) (.init puppies) h s) :
    machine.RunWhere (fun s l => Starts p s l ∧ C s l) (.init puppies) h s := by
  refine r.imp fun {h s l} r hl => ⟨?_, hl.2⟩
  have a : Alone t p s := run_alone (r.mono fun s l hl => by
    have := hl.1
    simp only [Label.startsIn, Bool.and_eq_true] at this
    exact this.1.1)
  have hl := hl.1
  simp only [Label.startsIn, Bool.and_eq_true] at hl
  refine ⟨hl.1.2, ?_, ?_⟩
  · rintro t' timeout rfl t'' call hc -
    simp only [decide_eq_true_eq, Bool.and_eq_true, Option.isNone_iff_eq_none] at hl
    rw [(a.thread t'' call hc).1, hl.2.1] at hc
    cases hc
  · rintro t' rfl
    simp at hl

theorem recordedIn_recorded (hl : l.recordedIn s p = true) : Recorded p s l := by
  refine ⟨?_, ?_, ?_⟩
  · rintro t mem now call q rfl hc - hpc
    simpa [Label.recordedIn, hc, hpc] using Or.inl (b := DoneAt s q) hl
  · rintro now f e rfl hf hpc - -
    exact .inl (by simpa [Label.recordedIn, hf, hpc] using hl)
  · rintro now f sp rfl hf - hpc hsp -
    exact .inl (by simpa [Label.recordedIn, hf, hpc, hsp] using hl)

theorem isRunning_iff_example : ∃ h s,
    machine.RunWhere (fun s l => Starts 0 s l ∧ Recorded 0 s l) (.init examplePuppies) h s ∧
    h.inputs = startsWith (.caller 0) 0 7 ++ startsWith (.caller 0) 0 8 ++ exits 1 ∧
    ¬ Running h s 0 := by
  have r := Machine.execWhere_run (M := machine)
    (C := fun s l => l.startsIn s (.caller 0) 0 && l.recordedIn s 0) (s := .init examplePuppies)
    (startsWith (.caller 0) 0 7 ++ startsWith (.caller 0) 0 8 ++ exits 1) rfl
  have r' := startsIn_starts (r.mono fun s l hl =>
    (Bool.and_eq_true_iff.mp hl).imp id recordedIn_recorded)
  obtain ⟨hcalls, hframe⟩ := quiescent_of_one r (.caller 0) rfl rfl rfl
  refine ⟨_, _, r', rfl, fun hrun => ?_⟩
  have := (isRunning_iff r' (fun t call hc => ?_) ?_).mpr hrun
  · cases this
  · rw [hcalls t] at hc
    cases hc
  · rintro ⟨f, hf, -⟩
    rw [hframe] at hf
    cases hf

/-- **A `DoryProcess` started again after its exit.**  `exitedAt` is the time of the first exit, so
`isRunning` is false while the second child runs. -/
theorem restarted : ∃ h s, machine.RunWhere (Starts 0) (.init examplePuppies) h s ∧
    h.inputs = startsWith (.caller 0) 0 7 ++ exits 0 ++ startsWith (.caller 0) 0 8 ∧
    s.Quiescent ∧ Running h s 0 ∧ (s.puppies 0).isRunning = false := by
  have r := Machine.execWhere_run (M := machine)
    (C := fun s l => l.startsIn s (.caller 0) 0) (s := .init examplePuppies)
    (startsWith (.caller 0) 0 7 ++ exits 0 ++ startsWith (.caller 0) 0 8) rfl
  refine ⟨_, _, (startsIn_starts (r.mono fun s l hl => ⟨hl, trivial⟩)).mono fun s l hl => hl.1,
    rfl, quiescent_of_one r (.caller 0) rfl rfl rfl, ⟨8, 1, _, rfl, rfl, rfl, rfl, rfl, ?_⟩, rfl⟩
  intro args hin
  have hd := (run_done r).mp ⟨args, hin⟩
  cases hd

end Dorypuppy.Manager
