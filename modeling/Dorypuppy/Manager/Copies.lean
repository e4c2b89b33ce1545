import Dorypuppy.Manager.Children

/-!
# Manager — a `DoryProcess` that is left alone while it is copied

`puppySpawn` reads the command, the environment, the timeout and the directory one after another,
without a lock, so a change in between may be seen by one read and not by another (`Java.Marshal`).
In `create` they are all read at once, at the end.

When nobody changes what a call is reading (`LeftAlone`) this makes no difference: from the step
that enters `puppySpawn` to the copy the `DoryProcess` holds the same, whenever it is read.

* `made_as_held`: then all that a native object gives to `uv_spawn` and to `uv_timer_start` is what
  its `DoryProcess` held when `puppySpawn` was entered, and held until it was copied.
-/

namespace Dorypuppy

namespace DoryProcess

/-- `puppySpawn` reads the same of both. -/
structure ReadsAs (p q : DoryProcess) : Prop where
  command : p.command = q.command
  environment : p.environment = q.environment
  timeout : p.timeout = q.timeout
  directory : p.directory = q.directory

variable {p q : DoryProcess}

theorem ReadsAs.refl (p : DoryProcess) : p.ReadsAs p := ⟨rfl, rfl, rfl, rfl⟩

theorem ReadsAs.trans {x : DoryProcess} (h : p.ReadsAs q) (h' : q.ReadsAs x) : p.ReadsAs x :=
  ⟨h.command.trans h'.command, h.environment.trans h'.environment, h.timeout.trans h'.timeout,
    h.directory.trans h'.directory⟩

theorem ReadsAs.envArray_eq (h : p.ReadsAs q) : p.envArray = q.envArray := by
  rw [envArray, h.environment, envArray]

/-- Of the fields that are written, only the timeout is read. -/
theorem write_readsAs {w : Write} (h : ∀ timeout, w ≠ .timeout timeout) :
    (p.write w).ReadsAs p := by
  cases w with
  | timeout timeout => exact absurd rfl (h timeout)
  | _ => exact ⟨rfl, rfl, rfl, rfl⟩

end DoryProcess

/-- The setter changes what `puppySpawn` reads. -/
def Setter.isRead : Setter → Bool
  | .listener _ _ => false
  | .directory _ | .command _ | .environment _ => true

theorem DoryProcess.apply_readsAs {p : DoryProcess} {x : Setter} (h : x.isRead = false) :
    (p.apply x).ReadsAs p := by
  cases x with
  | listener k l => cases k <;> cases l <;> exact ⟨rfl, rfl, rfl, rfl⟩
  | _ => cases h

namespace Manager

open Support (Machine History)
open Function (update update_self update_of_ne)

variable {s s' : State} {l : Label} {os : List Event} {c : ObjId} {t : Tid} {p : PuppyId}

/-- A call is in `puppySpawn`, and has not made its copy. -/
def Copying (s : State) (p : PuppyId) : Prop :=
  ∃ t call, s.calls t = some call ∧ call.puppy = p ∧ call.pc = .create

/-- Nobody changes what a call is copying, neither with a setter nor in another `start()`. -/
structure LeftAlone (s : State) (l : Label) : Prop where
  setter : ∀ p x, l = .set p x → x.isRead = true → ¬ Copying s p
  timeout : ∀ t mem now call timeout, l = .step t mem now → s.calls t = some call →
    call.pc = .setTimeout timeout → ¬ Copying s call.puppy

/-- The thread takes no step, and `puppySpawn` would read of `p` what it reads of `q`. -/
structure Waits (t : Tid) (p : PuppyId) (q : DoryProcess) (s : State) (l : Label) : Prop where
  reads : (s.puppies p).ReadsAs q
  thread : l.thread? ≠ some t

/-- The last step of the run is the one in which the thread enters `puppySpawn` with `p`. -/
structure Enters (puppies : PuppyId → List (Option JString) × StringTable) (t : Tid) (p : PuppyId)
    (h : History Label Event) (s : State) : Prop where
  last : ∃ h₀ s₀ l os, h = h₀ ++ [(l, os)] ∧ machine.Run (.init puppies) h₀ s₀ ∧
    machine.step s₀ l = some (s, os) ∧ l.thread? = some t ∧
    ∀ call, s₀.calls t = some call → call.pc ≠ .create
  call : ∃ call, s.calls t = some call ∧ call.puppy = p ∧ call.pc = .create

/-! ### One step -/

theorem step_readsAs (hC : LeftAlone s l) (hcopy : Copying s p) (hs : Step s l s' os) :
    (s'.puppies p).ReadsAs (s.puppies p) := by
  cases step_puppy hs p with
  | same h => exact h ▸ .refl _
  | @set x hl h =>
      rw [h]
      refine DoryProcess.apply_readsAs (Bool.eq_false_iff.mpr fun hx => ?_)
      exact hC.setter p x hl hx hcopy
  | @timeout t mem now call timeout hl hc hp hpc =>
      exact absurd (hp ▸ hcopy) (hC.timeout t mem now call timeout hl hc hpc)
  | pid _ _ _ _ h | startedAt h =>
      rw [h]
      exact DoryProcess.write_readsAs nofun
  | @exit now f e w pc _ _ hw _ _ h =>
      rw [h]
      refine DoryProcess.write_readsAs fun timeout hw' => ?_
      unfold Frame.write? at hw
      split at hw <;> cases hw <;> cases hw'

/-- A call that stays at its copy takes no step. -/
theorem create_stays {call : Call} (hs : Step s l s' os) (hc : s.calls t = some call)
    (hpc : call.pc = .create) (hc' : s'.calls t = some call) : l.thread? ≠ some t := by
  cases hs with
  | call hnone =>
      rintro ⟨⟩
      rw [hnone] at hc
      cases hc
  | create =>
      rintro ⟨⟩
      dsimp only at hc'
      rw [update_self] at hc'
      cases hc'
      cases hpc
  | setTimeout hc₁ hpc₁ | nativePut hc₁ hpc₁ | spawnFailed hc₁ hpc₁ | javaThrow hc₁ hpc₁
  | javaPut hc₁ hpc₁ | setPid hc₁ hpc₁ | setStartedAt hc₁ hpc₁ | killDeref hc₁ hpc₁
  | nullDeref hc₁ hpc₁ | spawn hc₁ hpc₁ =>
      rintro ⟨⟩
      cases hc.symm.trans hc₁
      rw [hpc] at hpc₁
      cases hpc₁
  | killMove hc₁ hm =>
      rintro ⟨⟩
      cases hc.symm.trans hc₁
      rw [hpc] at hm
      cases hm
  | _ => nofun

/-! ### Whole runs -/

section
variable {puppies : PuppyId → List (Option JString) × StringTable} {h : History Label Event}

/-- A call at its copy has been there since it entered `puppySpawn`, and all along its `DoryProcess`
has held the same. -/
def Waiting (puppies : PuppyId → List (Option JString) × StringTable) (h : History Label Event)
    (s : State) : Prop :=
  ∀ t call, s.calls t = some call → call.pc = .create → ∃ h₁ s₁ k, h = h₁ ++ k ∧
    Enters puppies t call.puppy h₁ s₁ ∧
    machine.RunWhere (Waits t call.puppy (s₁.puppies call.puppy)) s₁ k s ∧
    (s.puppies call.puppy).ReadsAs (s₁.puppies call.puppy)

theorem step_waiting (r : machine.Run (.init puppies) h s) (g : Waiting puppies h s)
    (hC : LeftAlone s l) (hs : machine.step s l = some (s', os)) :
    Waiting puppies (h ++ [(l, os)]) s' := by
  intro t call hc hpc
  have hstep := (step_inv hs).2
  -- the thread has just entered
  have enters (hl : l.thread? = some t) (hnot : ∀ call, s.calls t = some call → call.pc ≠ .create) :
      ∃ h₁ s₁ k, h ++ [(l, os)] = h₁ ++ k ∧ Enters puppies t call.puppy h₁ s₁ ∧
        machine.RunWhere (Waits t call.puppy (s₁.puppies call.puppy)) s₁ k s' ∧
        (s'.puppies call.puppy).ReadsAs (s₁.puppies call.puppy) :=
    ⟨_, s', [], (List.append_nil _).symm, ⟨⟨h, s, l, os, rfl, r, hs, hl, hnot⟩, call, hc, rfl, hpc⟩,
      .nil, .refl _⟩
  rcases call_back hstep hc with hc₀ | ⟨p, api, rfl, hnone, -⟩ | ⟨mem, now, call₀, rfl, hc₀, -, hm⟩
  · obtain ⟨h₁, s₁, k, rfl, he, rk, hreads⟩ := g t call hc₀ hpc
    have hstay := create_stays hstep hc₀ hpc hc
    have hsame := step_readsAs hC ⟨t, call, hc₀, rfl, hpc⟩ hstep
    exact ⟨h₁, s₁, _, List.append_assoc .., he, rk.snoc ⟨hreads, hstay⟩ hs, hsame.trans hreads⟩
  · refine enters rfl fun call hc₁ => ?_
    rw [hnone] at hc₁
    cases hc₁
  · refine enters rfl fun call hc₁ hpc₁ => ?_
    cases hc₀.symm.trans hc₁
    rw [hpc, hpc₁] at hm
    cases hm

theorem run_waiting (r : machine.RunWhere LeftAlone (.init puppies) h s) : Waiting puppies h s :=
  r.inv (Waiting puppies) (fun t call hc => by cases hc) fun r hC hs g =>
    step_waiting r.run g hC hs

/-- **Left alone, a `DoryProcess` is handed over as it was.**  In every run in which nobody changes
what a call is copying, each native object goes back to a call that entered `puppySpawn`.  From then
until the object was made the command, the environment, the timeout and the directory of its
`DoryProcess` were the same at every moment; the arguments, the directory and the environment the
object gives to `uv_spawn`, and the timeout it gives to `uv_timer_start`, are these, whatever is
changed later. -/
theorem made_as_held (r : machine.RunWhere LeftAlone (.init puppies) h s) {sp : Spawn}
    (hsp : s.objs c = some sp) :
    ∃ t h₁ s₁ k s₂ mem now h₂ q, h = h₁ ++ (k ++ (.step t mem now, []) :: h₂) ∧
      Enters puppies t sp.puppy h₁ s₁ ∧ s₁.puppies sp.puppy = q ∧
      machine.RunWhere (Waits t sp.puppy q) s₁ k s₂ ∧
      (s₂.puppies sp.puppy).ReadsAs q ∧ s₂.objs c = none ∧ none ∉ q.command ∧
      (∀ o, .act c (.uv (.spawn o)) ∈ h.outputs →
        o.args = q.command.map (Option.map getStringUTFChars) ++ [none] ∧
        o.cwd = q.directory.map getStringUTFChars ∧
        o.env = if q.environment.entries = [] then none
          else some (q.envArray.map (fun s => some (getStringUTFChars s)) ++ [none])) ∧
      (∀ n, .act c (.uv (.timerStart n)) ∈ h.outputs →
        n = q.timeout.toUInt64 ∧ 0 < q.timeout.toUInt64) := by
  obtain ⟨h₁, s₁, l, s₂, setup, h₂, e, o, r₂⟩ := run_origin r hsp
  obtain ⟨k, rk, -, hk⟩ := o.child r₂.run hsp
  obtain ⟨-, -, t, mem, now, call, _, rfl, hc, hpc, -, hnew⟩ :=
    step_makes (run_inv o.before) o.absent (step_inv o.makes).2 o.made
  have hp : call.puppy = sp.puppy := (congrArg Spawn.puppy hnew).symm
  -- the call has waited at its copy, with nothing changed
  have w : Waiting puppies h₁ s₁ := run_waiting (o.before_where (e ▸ r))
  obtain ⟨h₀, s₀, w₀, rfl, enters, rw₀, reads⟩ := w t call hc hpc
  rw [hp] at enters rw₀ reads
  -- what it copied is what there was to read
  obtain ⟨mem', hsetup⟩ := o.copied
  obtain ⟨hnull, hargs, hcwd, henv⟩ := DoryProcess.setup_eq hsetup
  have htime := DoryProcess.setup_timeout hsetup
  rw [reads.command] at hnull hargs
  rw [reads.directory] at hcwd
  rw [reads.environment, reads.envArray_eq] at henv
  rw [reads.timeout] at htime
  have did {a : Act JniCallback} (hlate : isLate a = false) (ha : .act c a ∈ h.outputs) :
      a ∈ k.outputs := (mem_of_early hlate hk).mpr (e ▸ ha)
  refine ⟨t, h₀, s₀, w₀, s₁, mem, now, h₂, _, ?_, enters, rfl, rw₀, reads, o.absent, hnull,
    fun x hx => ?_, fun n hn => ?_⟩
  · rw [e, List.append_assoc]
  · rw [(Child.run_spawn rk).2 x (did rfl hx)]
    exact ⟨hargs, hcwd, henv⟩
  · rw [← htime]
    exact Child.run_arms_for rk n (did rfl hn)

/-- The one thread that calls is not at its copy when a setter changes what the copy reads. -/
def aside (t : Tid) (s : State) (l : Label) : Bool :=
  l.thread?.all (· = t) && match l with
    | .set p x => !x.isRead || (s.calls t).all fun call => call.puppy ≠ p || call.pc ≠ .create
    | _ => true

theorem leftAlone_of_one
    (r : machine.RunWhere (fun s l => aside t s l = true) (.init puppies) h s) :
    machine.RunWhere LeftAlone (.init puppies) h s := by
  refine r.imp fun {h s l} r hC => ?_
  have r₁ := r.mono fun s l h => ((Bool.and_eq_true _ _).mp h).1
  refine ⟨?_, ?_⟩
  · rintro p x rfl hx ⟨t', call, hc, hp, hpc⟩
    obtain rfl := thread_of_one r₁ hc
    simp [aside, hx, hc, hp, hpc] at hC
  · rintro t₁ mem now call timeout - hc hpc ⟨t₂, call', hc', -, hpc'⟩
    obtain rfl := thread_of_one r₁ hc
    obtain rfl := thread_of_one r₁ hc'
    cases hc.symm.trans hc'
    rw [hpc] at hpc'
    cases hpc'

/-- A listener is set while the call is at its copy, and the directory after it. -/
theorem made_as_held_example : ∃ h s sp q o, machine.RunWhere LeftAlone (.init examplePuppies) h s ∧
    s.objs 0 = some sp ∧ (s.puppies 0).directory = some [0x2F] ∧
    .act 0 (.uv (.spawn o)) ∈ h.outputs ∧ o.cwd = none ∧
    o.args = (DoryProcess.command q).map (Option.map getStringUTFChars) ++ [none] ∧
    o.cwd = q.directory.map getStringUTFChars := by
  have r := leftAlone_of_one (Machine.execWhere_run (M := machine) (C := aside (.caller 0))
    (s := .init examplePuppies)
    [.call (.caller 0) 0 (.start 0), go (.caller 0), .set 0 (.listener .exit none),
      go (.caller 0), .set 0 (.directory (some [0x2F])), .spawn (.caller 0) .enter,
      .spawn (.caller 0) (.uvSpawn (.ok 7))] rfl)
  obtain ⟨-, -, -, -, -, -, -, -, q, -, -, -, -, -, -, -, hmade, -⟩ := made_as_held (c := 0) r rfl
  have hspawn := hmade _ (.head _)
  exact ⟨_, _, _, q, _, r, rfl, rfl, .head _, rfl, hspawn.1, hspawn.2.1⟩

end

end Manager

end Dorypuppy
