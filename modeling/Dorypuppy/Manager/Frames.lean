import Dorypuppy.Manager.Calls

/-!
# Manager — entries and callbacks

What the entries of the two maps and the callback of the loop thread say of the object they belong
to.  An entry under a pid is that of a child with this pid (`Entries`).  A callback that called
`jniStdout`, `jniStderr` or `jniExit` gave it the pid of its child; `jniTimeout` is given whatever
`getPid()` found (`Frames`).

`Inv` gathers the invariants; `run_inv` gives it for every state of the manager.
-/

namespace Dorypuppy.Manager

open Child (Reached born done)
open Support (Machine History)
open Function (update update_self update_of_ne)

variable {s s' : State} {l : Label} {os : List Event}

/-! ### What stays of an object -/

def Stage.rank : Stage → Nat
  | .new => 0
  | .native => 1
  | .java => 2

/-- What stays of an object from one step to the next. -/
structure Spawn.Later (sp sp' : Spawn) : Prop where
  puppy : sp'.puppy = sp.puppy
  stage : sp.stage.rank ≤ sp'.stage.rank
  born : born sp.child = true →
    born sp'.child = true ∧ sp'.child.obj.process.pid = sp.child.obj.process.pid
  returned : ∀ r, sp.child.pc = .returned r → sp'.child.pc = .returned r
  exited : sp.child.obj.exited = true → sp'.child.obj.exited = true
  flushed : sp.child.obj.stderrFlushed = true → sp'.child.obj.stderrFlushed = true

theorem Spawn.Later.refl (sp : Spawn) : sp.Later sp :=
  ⟨rfl, le_rfl, fun h => ⟨h, rfl⟩, fun _ h => h, id, id⟩

theorem Spawn.Later.done {sp sp' : Spawn} (hl : sp.Later sp') (h : done sp.child = true) :
    done sp'.child = true := by
  rw [Child.done, Bool.and_eq_true] at h ⊢
  exact h.imp hl.exited hl.flushed

theorem Spawn.Later.notNew {sp sp' : Spawn} (hl : sp.Later sp') (h : sp.stage ≠ .new) :
    sp'.stage ≠ .new := by
  have := hl.stage
  intro h'
  rw [h'] at this
  cases hst : sp.stage <;> simp_all [Stage.rank]

theorem Spawn.Later.java {sp sp' : Spawn} (hl : sp.Later sp') (h : sp.stage = .java) :
    sp'.stage = .java := by
  have := hl.stage
  rw [h] at this
  cases hst : sp'.stage <;> simp_all [Stage.rank]

theorem Spawn.Later.trans {sp sp' sp'' : Spawn} (hl : sp.Later sp') (hl' : sp'.Later sp'') :
    sp.Later sp'' := by
  refine ⟨hl'.puppy.trans hl.puppy, hl.stage.trans hl'.stage, fun hb => ?_,
    fun r hr => hl'.returned r (hl.returned r hr), fun hx => hl'.exited (hl.exited hx),
    fun hf => hl'.flushed (hl.flushed hf)⟩
  obtain ⟨hb', hp⟩ := hl.born hb
  exact ⟨(hl'.born hb').1, (hl'.born hb').2.trans hp⟩

theorem later_child {sp : Spawn} {i : Input} {ch : Child JniCallback}
    {as : List (Act JniCallback)} (hr : Reached sp.child)
    (hst : Child.step sp.child i = some (ch, as)) : sp.Later { sp with child := ch } := by
  obtain ⟨hret, hx, hf⟩ := Child.step_keeps hst
  exact ⟨rfl, le_rfl, hr.born_step hst, hret, hx, hf⟩

theorem later_stage {sp : Spawn} {st : Stage} (h : sp.stage.rank ≤ st.rank) :
    sp.Later { sp with stage := st } :=
  ⟨rfl, h, fun h => ⟨h, rfl⟩, fun _ h => h, id, id⟩

theorem later_update {c c' : ObjId} {sp sp' sp₁ : Spawn} (hl : sp.Later sp')
    (hc : s.objs c = some sp) (ho : s'.objs = update s.objs c (some sp'))
    (h : s.objs c' = some sp₁) : ∃ sp₂, s'.objs c' = some sp₂ ∧ sp₁.Later sp₂ := by
  rw [ho]
  by_cases hcc : c' = c
  · subst hcc
    cases hc.symm.trans h
    exact ⟨sp', update_self .., hl⟩
  · exact ⟨sp₁, by rw [update_of_ne hcc, h], .refl sp₁⟩

/-- **An object stays**, and with it whose it is, its pid, its stage and how far it has come. -/
theorem step_later (ok : Objects s) (k : Calls s) (hs : Step s l s' os) {c : ObjId} {sp : Spawn}
    (h : s.objs c = some sp) : ∃ sp', s'.objs c = some sp' ∧ sp.Later sp' := by
  cases hs with
  | create =>
      refine ⟨sp, ?_, .refl sp⟩
      rw [← h]
      refine update_of_ne ?_ _ _
      rintro rfl
      rw [ok.fresh s.next le_rfl] at h
      cases h
  | @nativePut t mem now call c sp₁ hc hpc hsp hret =>
      obtain ⟨-, hnew⟩ := k.spawning hc hpc hsp
      exact later_update (later_stage (by rw [hnew]; decide)) hsp rfl h
  | @javaPut t mem now call c pid sp₁ hc hpc hsp hpos =>
      exact later_update (later_stage (by cases sp₁.stage <;> decide)) hsp rfl h
  | spawn _ _ hsp hst =>
      exact later_update (later_child (ok.reached _ _ hsp).1 (Child.spawnStep_step hst)) hsp rfl h
  | callback _ hsp hst | callbackInvoke _ hsp hst =>
      exact later_update (later_child (ok.reached _ _ hsp).1 (Child.callbackHead_step hst)) hsp
        rfl h
  | _ => exact ⟨sp, h, .refl sp⟩

/-- A child that has a pid had it before, or has just been given it. -/
theorem born_back (ok : Objects s) (hs : Step s l s' os) {c : ObjId} {sp' : Spawn}
    (h : s'.objs c = some sp') (hb : born sp'.child = true) :
    (∃ sp, s.objs c = some sp ∧ born sp.child = true ∧
      sp.child.obj.process.pid = sp'.child.obj.process.pid) ∨
    ∃ t pid call, l = .spawn t (.uvSpawn (.ok pid)) ∧ s.calls t = some call ∧
      call.pc = .spawning c ∧ sp'.child.obj.process.pid = pid := by
  cases obj_change hs h with
  | same h _ => exact .inl ⟨sp', h, hb, rfl⟩
  | new => cases hb
  | put _ hsp => exact .inl ⟨_, hsp, hb, rfl⟩
  | @spawn t i call sp ch as hcall hpc hsp hst =>
      have hstep := Child.spawnStep_step hst
      cases hi : i.spawns with
      | true =>
          obtain ⟨pid, rfl⟩ := Child.eq_of_spawns hi
          exact .inr ⟨t, pid, call, rfl, hcall, hpc, Child.step_processPid hstep⟩
      | false =>
          obtain ⟨hb₀, hp⟩ := (ok.reached c sp hsp).1.born_back hstep hi hb
          exact .inl ⟨sp, hsp, hb₀, hp.symm⟩
  | @callback i sp ch as hsp hst =>
      obtain ⟨hb₀, hp⟩ := (ok.reached c sp hsp).1.born_back (Child.callbackHead_step hst)
        (Child.callbackHead_spawns hst) hb
      exact .inl ⟨sp, hsp, hb₀, hp.symm⟩

/-! ### Entries -/

/-- An entry of the native map is a copy of an object whose child has the pid. -/
def NativeOk (s : State) (q : Int) (e : NativeEntry) : Prop :=
  ∃ sp, s.objs e.child = some sp ∧ sp.stage ≠ .new ∧ born sp.child = true ∧
    sp.child.obj.process.pid = q ∧ e.copy.process.pid = q

/-- An entry of the Java map is the `DoryProcess` whose child has the pid. -/
def JavaOk (s : State) (q : Int) (e : JavaEntry) : Prop :=
  ∃ sp, s.objs e.child = some sp ∧ sp.stage = .java ∧ sp.puppy = e.puppy ∧
    born sp.child = true ∧ sp.child.obj.process.pid = q

/-- What the entries of the two maps are, and that a null entry ends the run inside `kill`. -/
structure Entries (s : State) : Prop where
  native : ∀ q e, s.nativeList q = some (some e) → NativeOk s q e
  java : ∀ q e, s.javaList q = some e → JavaOk s q e
  null : ∀ q, s.nativeList q = some none → s.crashed = true
  crash : s.crashed = true → ∃ t call, s.calls t = some call ∧ call.pc.inSpawnOrKill = true

theorem init_entries (puppies : PuppyId → List (Option JString) × StringTable) :
    Entries (.init puppies) := by
  constructor <;> simp [State.init]

/-- An entry is one of before, or the one put in. -/
theorem Entries.keep (e : Entries s) (hs : s.crashed = false)
    (later : ∀ c sp, s.objs c = some sp → ∃ sp', s'.objs c = some sp' ∧ sp.Later sp')
    (hn : ∀ q x, s'.nativeList q = some x →
      s.nativeList q = some x ∨ ∃ e, x = some e ∧ NativeOk s' q e)
    (hj : ∀ q x, s'.javaList q = some x → s.javaList q = some x ∨ JavaOk s' q x)
    (hcr : s'.crashed = s.crashed) : Entries s' := by
  refine ⟨fun q x h => ?_, fun q x h => ?_, fun q h => ?_, fun h => ?_⟩
  · rcases hn q _ h with h | ⟨_, hx, h⟩
    · obtain ⟨sp, hsp, hst, hb, hp, hcp⟩ := e.native q x h
      obtain ⟨sp', hsp', hl⟩ := later _ sp hsp
      obtain ⟨hb', hp'⟩ := hl.born hb
      exact ⟨sp', hsp', hl.notNew hst, hb', hp'.trans hp, hcp⟩
    · cases hx
      exact h
  · rcases hj q _ h with h | h
    · obtain ⟨sp, hsp, hst, hpu, hb, hp⟩ := e.java q x h
      obtain ⟨sp', hsp', hl⟩ := later _ sp hsp
      obtain ⟨hb', hp'⟩ := hl.born hb
      exact ⟨sp', hsp', hl.java hst, hl.puppy.trans hpu, hb', hp'.trans hp⟩
    · exact h
  · rcases hn q _ h with h | ⟨_, h, -⟩
    · rw [e.null q h] at hs
      cases hs
    · cases h
  · rw [hcr, hs] at h
    cases h

theorem step_entries (ok : Objects s) (k : Calls s) (e : Entries s) (hcr : s.crashed = false)
    (hs : Step s l s' os) : Entries s' := by
  have later (c : ObjId) (sp : Spawn) (h : s.objs c = some sp) := step_later ok k hs h
  cases hs with
  | @nativePut t mem now call c sp hc hpc hsp hret =>
      have hst := (ok.reached c sp hsp).1.started hret
      refine e.keep hcr later (fun q x h => ?_) (fun _ _ h => .inl h) rfl
      rcases update_some h with ⟨rfl, rfl⟩ | h
      · exact .inr ⟨_, rfl, _, update_self .., by simp, hst.1, hst.2.symm, hst.2.symm⟩
      · exact .inl h
  | @javaPut t mem now call c pid sp hc hpc hsp hpos =>
      obtain ⟨hp, -, hret, hpid⟩ := k.javaPut hc hpc hsp hpos
      have hst := (ok.reached c sp hsp).1.started hret
      refine e.keep hcr later (fun _ _ h => .inl h) (fun q x h => ?_) rfl
      rcases update_some h with ⟨rfl, rfl⟩ | h
      · exact .inr ⟨_, update_self .., rfl, hp, hst.1, hpid⟩
      · exact .inl h
  | @nullDeref t mem now call pid g hc hpc hnone =>
      refine ⟨fun q x h => ?_, e.java, fun _ _ => rfl, fun _ => ⟨t, call, hc, by rw [hpc]; rfl⟩⟩
      rcases update_some h with ⟨-, hx⟩ | h
      · cases hx
      · exact e.native q x h
  | remove =>
      exact e.keep hcr later (fun _ _ h => .inl h) (fun q x h => .inl (update_none h).2) rfl
  | erase =>
      exact e.keep hcr later (fun q x h => .inl (update_none h).2) (fun _ _ h => .inl h) rfl
  | _ => exact e.keep hcr later (fun _ _ h => .inl h) (fun _ _ h => .inl h) rfl

/-! ### The event a callback raises -/

/-- The registered function a callback runs, with its arguments. -/
def raised (o : DoryProcessSpawn JniCallback) : Input → Option (JniCallback × Args)
  | .timerCb => some (.timeout, .plain)
  | .exitCb e g => if o.stderrFlushed then some (.exit, .status e g) else none
  | .stdoutCb nread buf => if 0 < nread then some (.stdout, .chunk buf nread) else none
  | .stderrCb nread buf =>
      if 0 < nread then some (.stderr, .chunk buf nread)
      else if nread < 0 ∧ o.exited = true then some (.exit, .status o.exitStatus o.termSignal)
      else none
  | _ => none

section
variable {o : DoryProcessSpawn JniCallback} (hl : o.listeners = jniListeners)
include hl

theorem emit_timeout : o.emit "timeout" .plain =
    [.emit "timeout" .plain, .invoke .timeout .plain o.pid] := by
  simp [DoryProcessSpawn.emit, DoryProcessSpawn.dispatch, DoryProcessSpawn.call, hl, jniListeners,
    DoryProcessSpawn.getPid]

theorem emit_stdout (buf : List UInt8) (nread : Int) : o.emit "stdout" (.chunk buf nread) =
    [.emit "stdout" (.chunk buf nread), .invoke .stdout (.chunk buf nread) o.pid] := by
  simp [DoryProcessSpawn.emit, DoryProcessSpawn.dispatch, DoryProcessSpawn.call, hl, jniListeners,
    DoryProcessSpawn.getPid]

theorem emit_stderr (buf : List UInt8) (nread : Int) : o.emit "stderr" (.chunk buf nread) =
    [.emit "stderr" (.chunk buf nread), .invoke .stderr (.chunk buf nread) o.pid] := by
  simp [DoryProcessSpawn.emit, DoryProcessSpawn.dispatch, DoryProcessSpawn.call, hl, jniListeners,
    DoryProcessSpawn.getPid]

theorem emit_exit (e g : Int) : o.emit "exit" (.status e g) =
    [.emit "exit" (.status e g), .invoke .exit (.status e g) o.pid] := by
  simp [DoryProcessSpawn.emit, DoryProcessSpawn.dispatch, DoryProcessSpawn.call, hl, jniListeners,
    DoryProcessSpawn.getPid]

end

/-- What a callback does before it raises its event. -/
def isQuiet : Act JniCallback → Bool
  | .uv _ | .free => true
  | _ => false

theorem readError_quiet (o : DoryProcessSpawn JniCallback) (nread : Int) :
    ∀ a ∈ o.readError nread, isQuiet a = true := by
  simp only [DoryProcessSpawn.readError, DoryProcessSpawn.kill]
  split
  · simp
  · simp [isQuiet]

/-- **A callback in two parts**: libuv calls, and the `emit` of the event it raises. -/
theorem callback_acts {ch ch' : Child JniCallback} {i : Input} {as : List (Act JniCallback)}
    (hl : ch.obj.listeners = jniListeners) (h : ch.callbackHead i = some (ch', as)) :
    ∃ quiet : List (Act JniCallback), (∀ a ∈ quiet, isQuiet a = true) ∧
      as = quiet ++ match raised ch.obj i with
        | some (k, args) => [.emit k.name args, .invoke k args ch.obj.pid]
        | none => [] := by
  cases i with
  | timerCb =>
      simp only [Child.callbackHead, Option.ite_none_right_eq_some, Option.some.injEq,
        Prod.mk.injEq] at h
      obtain ⟨-, rfl, rfl⟩ := h
      refine ⟨if ch.obj.timer.closing then [] else [.uv (.close .timer)], ?_, ?_⟩
      · split <;> simp [isQuiet]
      · rw [DoryProcessSpawn.timerCbHead_snd, emit_timeout (by simpa using hl)]
        simp only [DoryProcessSpawn.timerCbHead_fst]
        rfl
  | exitCb e g =>
      simp only [Child.callbackHead, Option.ite_none_right_eq_some, Option.some.injEq,
        Prod.mk.injEq] at h
      obtain ⟨-, rfl, rfl⟩ := h
      refine ⟨(if ch.obj.timer.loop = ch.obj.uvLoop ∧ ch.obj.timer.closing = false
        then [.uv (.close .timer)] else []) ++ [.uv (.close .process)], ?_, ?_⟩
      · split <;> simp [isQuiet]
      · rw [DoryProcessSpawn.exitCb_snd, emit_exit (by simpa using hl), List.append_assoc]
        simp only [raised, DoryProcessSpawn.exitCb_fst]
        by_cases hf : ch.obj.stderrFlushed = true <;> simp [hf, JniCallback.name]
  | stdoutCb nread buf =>
      simp only [Child.callbackHead, Option.ite_none_right_eq_some, Option.some.injEq,
        Prod.mk.injEq] at h
      obtain ⟨-, rfl, rfl⟩ := h
      rw [DoryProcessSpawn.stdoutCbHead_snd, emit_stdout hl]
      by_cases hn : 0 < nread
      · exact ⟨[], by simp, by simp [raised, hn, JniCallback.name]⟩
      · refine ⟨if nread < 0 then ch.obj.readError nread ++ [.uv (.close .pipeOut)] else [], ?_, ?_⟩
        · split
          · simpa [isQuiet, or_imp, forall_and] using readError_quiet ch.obj nread
          · simp
        · simp [raised, hn]
  | stderrCb nread buf =>
      simp only [Child.callbackHead, Option.ite_none_right_eq_some, Option.some.injEq,
        Prod.mk.injEq] at h
      obtain ⟨-, rfl, rfl⟩ := h
      rw [DoryProcessSpawn.stderrCbHead_snd, emit_stderr hl]
      by_cases hn : 0 < nread
      · exact ⟨[], by simp, by simp [raised, hn, JniCallback.name]⟩
      · refine ⟨if nread < 0 then ch.obj.readError nread ++ [.uv (.close .pipeErr)] else [], ?_, ?_⟩
        · split
          · simpa [isQuiet, or_imp, forall_and] using readError_quiet ch.obj nread
          · simp
        · by_cases hneg : nread < 0
          · have hl' : (ch.obj.stderrCbHead nread buf).1.listeners = jniListeners := by
              simpa [hneg] using hl
            rw [emit_exit hl']
            by_cases hx : ch.obj.exited = true <;> simp [raised, hn, hneg, hx, JniCallback.name]
          · simp [raised, hn, hneg]
  | _ => cases h

theorem invoked_quiet {quiet as : List (Act JniCallback)} (hq : ∀ a ∈ quiet, isQuiet a = true) :
    invoked (quiet ++ as) = invoked as := by
  induction quiet with
  | nil => rfl
  | cons a quiet ih =>
      have ha := hq a (.head _)
      cases a <;> first | exact ih fun b hb => hq b (.tail _ hb) | cases ha

theorem invoked_eq {ch ch' : Child JniCallback} {i : Input} {as : List (Act JniCallback)}
    (hl : ch.obj.listeners = jniListeners) (h : ch.callbackHead i = some (ch', as)) :
    invoked as = (raised ch.obj i).map fun x => (x.1, x.2, ch.obj.pid) := by
  obtain ⟨quiet, hq, rfl⟩ := callback_acts hl h
  rw [invoked_quiet hq]
  cases raised ch.obj i <;> rfl

/-- An event other than the timeout is raised by a child whose pid is stored, and the exit event
leaves it done. -/
theorem raised_facts {ch ch' : Child JniCallback} {i : Input} {as : List (Act JniCallback)}
    {k : JniCallback} {args : Args} (hr : Reached ch) (h : ch.callbackHead i = some (ch', as))
    (hk : raised ch.obj i = some (k, args)) :
    (k ≠ .timeout → born ch = true ∧ ch.obj.pid = ch.obj.process.pid) ∧
      (k = .exit → done ch' = true) := by
  have hst := Child.callbackHead_step h
  cases i with
  | timerCb => cases hk; exact ⟨fun h => absurd rfl h, fun h => by cases h⟩
  | exitCb e g =>
      simp only [raised, Option.ite_none_right_eq_some] at hk
      refine ⟨fun _ => hr.stored (.inr (.inr (.inl hk.1))), fun _ => ?_⟩
      rw [done, Child.step_exited hst, Child.step_flushed hst, hk.1]
      simp [Input.exits]
  | stdoutCb nread buf =>
      simp only [raised, Option.ite_none_right_eq_some, Option.some.injEq, Prod.mk.injEq] at hk
      obtain ⟨-, rfl, rfl⟩ := hk
      simp only [Child.callbackHead, Option.ite_none_right_eq_some] at h
      exact ⟨fun _ => hr.stored (.inl h.1), fun h => by cases h⟩
  | stderrCb nread buf =>
      have hread : ch.obj.pipeErr.reading = true := by
        simp only [Child.callbackHead, Option.ite_none_right_eq_some] at h
        exact h.1
      refine ⟨fun _ => hr.stored (.inr (.inl hread)), fun hexit => ?_⟩
      subst hexit
      simp only [raised] at hk
      split at hk
      · cases hk
      · rename_i hn
        simp only [Option.ite_none_right_eq_some] at hk
        rw [done, Child.step_exited hst, Child.step_flushed hst, hk.1.2]
        simp [Input.endsErr, hk.1.1]
  | _ => cases hk

/-! ### The callback of the loop thread -/

/-- The places `jniExit` and its registered function alone have. -/
def JniPc.ofExit : JniPc → Bool
  | .setCode | .setSignal | .setExitedAt | .remove | .erase => true
  | _ => false

/-- The places after `containsKey` has found the entry and before the listener. -/
def JniPc.hasFound : JniPc → Bool
  | .setCode | .setSignal | .setExitedAt | .nullCheck | .call => true
  | _ => false

structure Frames (s : State) : Prop where
  obj : ∀ f, s.frame = some f → ∃ sp, s.objs f.child = some sp ∧
    (f.method ≠ .timeout → born sp.child = true ∧ f.pid = sp.child.obj.process.pid) ∧
    (f.method = .exit → done sp.child = true)
  ofExit : ∀ f, s.frame = some f → f.pc.ofExit = true → f.method = .exit
  found : ∀ f, s.frame = some f → f.pc.hasFound = true → (s.javaList f.pid).isSome

theorem init_frames (puppies : PuppyId → List (Option JString) × StringTable) :
    Frames (.init puppies) := by
  constructor <;> simp [State.init]

/-- The callback moves to another place, or stays. -/
theorem Frames.keep (fr : Frames s) {f : Frame} {pc : JniPc}
    (later : ∀ c sp, s.objs c = some sp → ∃ sp', s'.objs c = some sp' ∧ sp.Later sp')
    (hf : s.frame = some f) (hf' : s'.frame = some { f with pc := pc })
    (hexit : pc.ofExit = true → f.method = .exit)
    (hfound : pc.hasFound = true → (s'.javaList f.pid).isSome) : Frames s' := by
  refine ⟨fun g hg => ?_, fun g hg hpc => ?_, fun g hg hpc => ?_⟩
  all_goals
    cases hf'.symm.trans hg
  · obtain ⟨sp, hsp, hst, hd⟩ := fr.obj f hf
    obtain ⟨sp', hsp', hl⟩ := later _ sp hsp
    refine ⟨sp', hsp', fun hm => ?_, fun hm => hl.done (hd hm)⟩
    obtain ⟨hb, hp⟩ := hst hm
    exact ⟨(hl.born hb).1, hp.trans (hl.born hb).2.symm⟩
  · exact hexit hpc
  · exact hfound hpc

/-- The callback is where it was, and the entry it has found is still there. -/
theorem Frames.stay (fr : Frames s)
    (later : ∀ c sp, s.objs c = some sp → ∃ sp', s'.objs c = some sp' ∧ sp.Later sp')
    (hf : s'.frame = s.frame)
    (hj : ∀ q, (s.javaList q).isSome → (s'.javaList q).isSome) : Frames s' := by
  cases hframe : s.frame with
  | none =>
      rw [hframe] at hf
      constructor <;> simp [hf]
  | some f =>
      exact fr.keep later hframe (hf.trans hframe) (fr.ofExit f hframe)
        fun hpc => hj _ (fr.found f hframe hpc)

theorem Frame.found_pc (f : Frame) :
    (f.found.ofExit = true → f.method = .exit) := by
  unfold Frame.found
  split
  · exact fun _ => ‹_›
  · intro h; cases h

theorem Frame.after_pc (f : Frame) :
    (f.after.ofExit = true → f.method = .exit) ∧ f.after.hasFound = false := by
  unfold Frame.after
  split
  · exact ⟨fun _ => ‹_›, rfl⟩
  · exact ⟨fun h => (by cases h), rfl⟩

theorem Frame.thrown_pc (f : Frame) :
    (f.thrown.ofExit = true → f.method = .exit) ∧ f.thrown.hasFound = false := by
  unfold Frame.thrown
  split
  · exact ⟨fun _ => ‹_›, rfl⟩
  · exact ⟨fun h => (by cases h), rfl⟩

/-- The writes are made by `jniExit`, and come before the listener. -/
theorem Frame.write_pc {f : Frame} {now : Date} {w : Write} {pc : JniPc}
    (h : f.write? now = some (w, pc)) :
    f.pc.ofExit = true ∧ f.pc.hasFound = true ∧
      (pc = .setSignal ∨ pc = .setExitedAt ∨ pc = .nullCheck) := by
  unfold Frame.write? at h
  split at h <;> cases h <;> simp [JniPc.ofExit, JniPc.hasFound, *]

theorem step_frames (ok : Objects s) (k : Calls s) (fr : Frames s) (hs : Step s l s' os) :
    Frames s' := by
  have later (c : ObjId) (sp : Spawn) (h : s.objs c = some sp) := step_later ok k hs h
  cases hs with
  | @javaPut t mem now call c pid sp hc hpc hsp hpos =>
      refine fr.stay later rfl fun q hq => ?_
      dsimp only
      rw [Function.update_apply]
      split
      · rfl
      · exact hq
  | @callbackInvoke c i sp ch as k' args pid hf hsp hst hinv =>
      obtain ⟨hr, hl⟩ := ok.reached c sp hsp
      rw [invoked_eq hl hst, Option.map_eq_some_iff] at hinv
      obtain ⟨⟨k', args⟩, hk, ⟨⟩⟩ := hinv
      obtain ⟨hst₁, hd⟩ := raised_facts hr hst hk
      refine ⟨fun f hf => ?_, fun f hf hpc => ?_, fun f hf hpc => ?_⟩
      all_goals
        cases hf
      · refine ⟨_, update_self .., fun hm => ?_, hd⟩
        obtain ⟨hb, hpid⟩ := hst₁ hm
        obtain ⟨hb', hpid'⟩ := hr.born_step (Child.callbackHead_step hst) hb
        exact ⟨hb', hpid.trans hpid'.symm⟩
      · cases hpc
      · cases hpc
  | @jniMove now f pc' hf hm =>
      have hexit : pc'.ofExit = true → f.method = .exit := by
        generalize f.pc = pc at hm
        cases hm with
        | contains => exact f.found_pc
        | absent | noListener => exact f.after_pc.1
        | listener => exact fun h => by cases h
      have hfound : pc'.hasFound = true → (s.javaList f.pid).isSome := by
        intro h
        generalize f.pc = pc at hm
        cases hm with
        | contains hj => exact hj
        | listener he => rw [he]; rfl
        | absent | noListener => rw [f.after_pc.2] at h; cases h
      exact fr.keep later hf rfl hexit hfound
  | @write now f w pc' e hf hw he =>
      exact fr.keep later hf rfl (fun _ => fr.ofExit f hf (Frame.write_pc hw).1)
        fun _ => by rw [he]; rfl
  | @listener now f e l' hf hpc he hl =>
      exact fr.keep later hf rfl (fun h => by cases h) fun h => by cases h
  | nullPointer hf | listenerThrows hf =>
      exact fr.keep later hf rfl (Frame.thrown_pc _).1 fun h => by
        rw [(Frame.thrown_pc _).2] at h; cases h
  | listenerReturns hf =>
      exact fr.keep later hf rfl (Frame.after_pc _).1 fun h => by
        rw [(Frame.after_pc _).2] at h; cases h
  | @remove now f hf hpc =>
      exact fr.keep later hf rfl (fun _ => fr.ofExit f hf (by rw [hpc]; rfl)) fun h => by cases h
  | @erase now f hf hpc =>
      exact fr.keep later hf rfl (fun h => by cases h) fun h => by cases h
  | tail => constructor <;> simp
  | _ => exact fr.stay later rfl fun _ h => h

/-- A callback is where it was, or has gone on, or has just called its method. -/
theorem frame_back (hs : Step s l s' os) {f : Frame} (hf : s'.frame = some f) :
    (∃ f₀, s.frame = some f₀ ∧ f = { f₀ with pc := f.pc } ∧
      (f.pc = f₀.pc ∨ f₀.pc = .inListener ∨ ∃ now, l = .jni now)) ∨
    f.pc = .containsKey ∧ s.frame = none ∧ ∃ sp ch as, s.objs f.child = some sp ∧
      sp.child.callbackHead f.input = some (ch, as) := by
  cases hs with
  | callbackInvoke hnone hsp hst => cases hf; exact .inr ⟨rfl, hnone, _, _, _, hsp, hst⟩
  | jniMove hf₀ | write hf₀ | listener hf₀ | nullPointer hf₀ | remove hf₀ | erase hf₀ =>
      cases hf
      exact .inl ⟨_, hf₀, rfl, .inr (.inr ⟨_, rfl⟩)⟩
  | listenerReturns hf₀ hin | listenerThrows hf₀ hin =>
      cases hf
      exact .inl ⟨_, hf₀, rfl, .inr (.inl hin)⟩
  | tail => cases hf
  | _ => exact .inl ⟨f, hf, rfl, .inl rfl⟩

/-! ### All of them -/

/-- What holds in every state of the manager. -/
structure Inv (s : State) : Prop where
  objects : Objects s
  calls : Calls s
  entries : Entries s
  frames : Frames s

theorem init_inv (puppies : PuppyId → List (Option JString) × StringTable) :
    Inv (.init puppies) :=
  ⟨init_objects puppies, init_calls puppies, init_entries puppies, init_frames puppies⟩

theorem step_keeps_inv (v : Inv s) (hs : s.step l = some (s', os)) : Inv s' := by
  obtain ⟨hcr, hs⟩ := step_inv hs
  exact ⟨step_objects v.objects hs, step_calls v.objects v.calls hs,
    step_entries v.objects v.calls v.entries hcr hs, step_frames v.objects v.calls v.frames hs⟩

/-- What a step does to the two maps: nothing, an insertion, a removal, or a null entry. -/
inductive MapStep (s s' : State) : Label → Prop where
  | same {l : Label} : s'.nativeList = s.nativeList → s'.javaList = s.javaList →
      (∀ c sp', s'.objs c = some sp' → sp'.stage ≠ .new → ∃ sp, s.objs c = some sp ∧
        sp.stage = sp'.stage ∧ sp.child.obj.process.pid = sp'.child.obj.process.pid) →
      MapStep s s' l
  | nativePut {t mem now call c sp} : s.calls t = some call → call.pc = .spawning c →
      s.objs c = some sp → sp.stage = .new → sp.child.pc = .returned 0 →
      s'.nativeList =
        update s.nativeList sp.child.obj.process.pid (some (some ⟨sp.child.obj, c⟩)) →
      s'.javaList = s.javaList → s'.objs = update s.objs c (some { sp with stage := .native }) →
      MapStep s s' (.step t mem now)
  | javaPut {t mem now call c pid sp} : s.calls t = some call → call.pc = .javaPut c pid →
      s.objs c = some sp → sp.stage = .native → sp.child.obj.process.pid = pid → 0 < pid →
      s'.nativeList = s.nativeList →
      s'.javaList = update s.javaList pid (some ⟨call.puppy, c⟩) →
      s'.objs = update s.objs c (some { sp with stage := .java }) → MapStep s s' (.step t mem now)
  | remove {now f} : s.frame = some f → f.pc = .remove → s'.nativeList = s.nativeList →
      s'.javaList = update s.javaList f.pid none → s'.objs = s.objs →
      s'.frame = some { f with pc := .erase } → MapStep s s' (.jni now)
  | erase {now f} : s.frame = some f → f.pc = .erase →
      s'.nativeList = update s.nativeList f.pid none → s'.javaList = s.javaList →
      s'.objs = s.objs → s'.frame = some { f with pc := .tail } → MapStep s s' (.jni now)
  | null {l : Label} : s'.javaList = s.javaList → s'.objs = s.objs → s'.crashed = true →
      MapStep s s' l

theorem map_step (v : Inv s) (hs : Step s l s' os) : MapStep s s' l := by
  -- a step of a child leaves its stage, and its pid once it is in a map
  have child {c₀ : ObjId} {sp₀ : Spawn} {i : Input} {ch : Child JniCallback}
      {as : List (Act JniCallback)} (hsp₀ : s.objs c₀ = some sp₀)
      (hst : Child.step sp₀.child i = some (ch, as)) (c : ObjId) (sp' : Spawn)
      (h : update s.objs c₀ (some { sp₀ with child := ch }) c = some sp') (hne : sp'.stage ≠ .new) :
      ∃ sp, s.objs c = some sp ∧ sp.stage = sp'.stage ∧
        sp.child.obj.process.pid = sp'.child.obj.process.pid := by
    rcases update_some h with ⟨rfl, rfl⟩ | h
    · have hr := (v.objects.reached c sp₀ hsp₀).1
      have hb := (hr.started (v.calls.put c sp₀ hsp₀ hne)).1
      exact ⟨sp₀, hsp₀, rfl, ((hr.born_step hst hb).2).symm⟩
    · exact ⟨sp', h, rfl, rfl⟩
  cases hs with
  | create =>
      refine .same rfl rfl fun c sp' h hne => ?_
      rcases update_some h with ⟨rfl, rfl⟩ | h
      · exact absurd rfl hne
      · exact ⟨sp', h, rfl, rfl⟩
  | nativePut hc hpc hsp hret =>
      have hst := (v.objects.reached _ _ hsp).1.started hret
      exact .nativePut hc hpc hsp (v.calls.spawning hc hpc hsp).2 hret (by rw [← hst.2]) rfl rfl
  | javaPut hc hpc hsp hpos =>
      obtain ⟨-, hst, -, hpid⟩ := v.calls.javaPut hc hpc hsp hpos
      exact .javaPut hc hpc hsp hst hpid hpos rfl rfl rfl
  | nullDeref => exact .null rfl rfl rfl
  | spawn _ _ hsp hst => exact .same rfl rfl (child hsp (Child.spawnStep_step hst))
  | callback _ hsp hst | callbackInvoke _ hsp hst =>
      exact .same rfl rfl (child hsp (Child.callbackHead_step hst))
  | remove hf hpc => exact .remove hf hpc rfl rfl rfl rfl
  | erase hf hpc => exact .erase hf hpc rfl rfl rfl rfl
  | _ => exact .same rfl rfl fun c sp' h _ => ⟨sp', h, rfl, rfl⟩

/-- A call puts the child it works on, whose pid is `q`, in the next map. -/
def Puts (s : State) (l : Label) (c : ObjId) (st : Stage) (q : Int) : Prop :=
  ∃ t mem now call sp, l = .step t mem now ∧ s.calls t = some call ∧ call.pc.child? = some c ∧
    s.objs c = some sp ∧ sp.stage = st ∧ sp.child.pc = .returned 0 ∧ sp.child.obj.process.pid = q

/-- An entry of the native map was there, or has just been put in. -/
theorem native_back (v : Inv s) (hs : Step s l s' os) {q : Int} {x : NativeEntry}
    (h : s'.nativeList q = some (some x)) :
    s.nativeList q = some (some x) ∨ Puts s l x.child .new q := by
  cases hs with
  | @nativePut t mem now call c sp hc hpc hsp hret =>
      rcases update_some h with ⟨rfl, hx⟩ | h
      · cases hx
        have hpid := ((v.objects.reached c sp hsp).1.started hret).2
        exact .inr ⟨t, mem, now, call, sp, rfl, hc, by rw [hpc]; rfl, hsp,
          (v.calls.spawning hc hpc hsp).2, hret, hpid.symm⟩
      · exact .inl h
  | nullDeref =>
      rcases update_some h with ⟨-, hx⟩ | h
      · cases hx
      · exact .inl h
  | erase => exact .inl (update_none h).2
  | _ => exact .inl h

/-- An entry of the Java map was there, or has just been put in. -/
theorem java_back (v : Inv s) (hs : Step s l s' os) {q : Int} {x : JavaEntry}
    (h : s'.javaList q = some x) : s.javaList q = some x ∨ Puts s l x.child .native q := by
  cases hs with
  | @javaPut t mem now call c pid sp hc hpc hsp hpos =>
      rcases update_some h with ⟨rfl, rfl⟩ | h
      · obtain ⟨-, hst, hret, hpid⟩ := v.calls.javaPut hc hpc hsp hpos
        exact .inr ⟨t, mem, now, call, sp, rfl, hc, by rw [hpc]; rfl, hsp, hst, hret, hpid⟩
      · exact .inl h
  | remove => exact .inl (update_none h).2
  | _ => exact .inl h

theorem run_inv {puppies : PuppyId → List (Option JString) × StringTable}
    {C : State → Label → Prop} {h : History Label Event}
    (r : machine.RunWhere C (.init puppies) h s) : Inv s :=
  r.inv (fun _ s => Inv s) (init_inv puppies) fun _ _ hs v => step_keeps_inv v hs

end Dorypuppy.Manager
