import Dorypuppy.Manager.Signals

/-!
# Manager — one call of `start()`

A call of `start` with nothing of the program beside it: its own steps, among them the steps of
`spawn()` with every result of libuv, while processes of others come and go.

`start_iff`: such a call always comes to its end, with a pid that is a key of both maps for the
`DoryProcess`, or with an exception that leaves the `DoryProcess` and the maps as they were; and the
native code is given what it asks for, strings that are not null and a file; if and only if the
command has an element and none of its elements is null.  Nothing on the way looks at the command.
The directory and the environment may be null, and the native `spawn` tests these two
(`cwd == nullptr`, `envArray == nullptr`).
-/

namespace Dorypuppy

/-- What `uv_spawn` asks of its options: a file, and arguments that end with `NULL`. -/
structure UvProcessOptions.Valid (o : UvProcessOptions) : Prop where
  file : o.file ≠ none
  args : ∃ argv : List CString, o.args = argv.map some ++ [none]

end Dorypuppy

namespace Dorypuppy.Manager

open Support (Machine History)
open Function (update update_self)

variable {s₀ s₁ s s' : State} {l : Label} {os : List Event} {h : History Label Event}
  {t : Tid} {p : PuppyId}

/-! ### The call -/

/-- A step of the call of a thread. -/
def Label.own (t : Tid) : Label → Bool
  | .step t' _ _ | .spawn t' _ => t' = t
  | _ => false

/-- A process of somebody else starts or ends. -/
def Label.outside : Label → Bool
  | .otherStarts _ | .otherEnds _ => true
  | _ => false

/-- The call of a thread runs undisturbed. -/
def undisturbed (t : Tid) (_ : State) (l : Label) : Bool := l.own t || l.outside

abbrev Undisturbed (t : Tid) (s : State) (l : Label) : Prop := undisturbed t s l = true

/-- The end of a call. -/
def Event.isEnd : Event → Bool
  | .returned _ _ _ | .threw _ _ _ => true
  | _ => false

/-- The `DoryProcess` and the two maps are as they were. -/
structure Unchanged (s₀ s : State) (p : PuppyId) : Prop where
  pid : (s.puppies p).pid = (s₀.puppies p).pid
  startedAt : (s.puppies p).startedAt = (s₀.puppies p).startedAt
  exitedAt : (s.puppies p).exitedAt = (s₀.puppies p).exitedAt
  code : (s.puppies p).code = (s₀.puppies p).code
  signal : (s.puppies p).signal = (s₀.puppies p).signal
  native : s.nativeList = s₀.nativeList
  java : s.javaList = s₀.javaList

/-- The pid is a key of both maps, of the native one for a child of the `DoryProcess`. -/
structure Enrolled (s : State) (p : PuppyId) (pid : Int) : Prop where
  pos : 0 < pid
  native : ∃ e sp, s.nativeList pid = some (some e) ∧ s.objs e.child = some sp ∧ sp.puppy = p
  java : ∃ e, s.javaList pid = some e ∧ e.puppy = p

/-- The call under way takes its next step, or `spawn()` takes whatever libuv gives it, where the
pid that `uv_spawn` gives is free. -/
def GoesOn (s : State) (t : Tid) (call : Call) : Prop :=
  (∀ mem now, (s.step (.step t mem now)).isSome) ∨
    ∃ c sp, call.pc = .spawning c ∧ s.objs c = some sp ∧ (∀ r, sp.child.pc ≠ .returned r) ∧
      ∀ i, sp.child.pc.takes i → (∀ pid, i.writesPid = some pid → s.os pid = none) →
        (s.step (.spawn t i)).isSome

/-- What a call of `start` by the thread `t` that began in `s₀` has done, and does next: no null
string goes to `GetStringUTFChars`, and `uv_spawn` gets options it can use; it goes on, for no more
than 13 steps; and when it is over it has returned a pid under which the `DoryProcess` is in both
maps, or has thrown and left no trace. -/
structure Sound (s₀ : State) (t : Tid) (p : PuppyId) (h : History Label Event) (s : State) :
    Prop where
  strings : ∀ call, s.calls t = some call → call.pc = .create →
    none ∉ (s.puppies call.puppy).utfStrings
  options : ∀ c o, .act c (.uv (.spawn o)) ∈ h.outputs → o.Valid
  goesOn : ∀ call, s.calls t = some call → GoesOn s t call
  bound : h.inputs.countP (Label.own t) ≤ 13
  ends : s.calls t = none →
    (∃ pid, h.outputs.filter Event.isEnd = [.returned t p pid] ∧ Enrolled s p pid) ∨
      ∃ r, h.outputs.filter Event.isEnd = [.threw t p r] ∧ Unchanged s₀ s p

/-! ### Where the call is -/

/-- As they were, and the command too. -/
structure Untouched (s₀ s : State) (p : PuppyId) : Prop extends Unchanged s₀ s p where
  command : (s.puppies p).command = (s₀.puppies p).command

theorem Unchanged.congr (u : Unchanged s₀ s p) (hp : s'.puppies = s.puppies)
    (hn : s'.nativeList = s.nativeList) (hj : s'.javaList = s.javaList) : Unchanged s₀ s' p := by
  constructor
  · rw [hp, u.pid]
  · rw [hp, u.startedAt]
  · rw [hp, u.exitedAt]
  · rw [hp, u.code]
  · rw [hp, u.signal]
  · rw [hn, u.native]
  · rw [hj, u.java]

theorem Untouched.congr (u : Untouched s₀ s p) (hp : s'.puppies = s.puppies)
    (hn : s'.nativeList = s.nativeList) (hj : s'.javaList = s.javaList) : Untouched s₀ s' p :=
  ⟨u.toUnchanged.congr hp hn hj, by rw [hp, u.command]⟩

/-- `this.timeout = timeout`. -/
theorem Untouched.setTimeout {timeout : Int64} (u : Untouched s₀ s p)
    (hp : s'.puppies p = (s.puppies p).write (.timeout timeout))
    (hn : s'.nativeList = s.nativeList) (hj : s'.javaList = s.javaList) : Untouched s₀ s' p := by
  constructor
  · constructor
    · rw [hp, ← u.pid]; rfl
    · rw [hp, ← u.startedAt]; rfl
    · rw [hp, ← u.exitedAt]; rfl
    · rw [hp, ← u.code]; rfl
    · rw [hp, ← u.signal]; rfl
    · rw [hn, u.native]
    · rw [hj, u.java]
  · rw [hp, ← u.command]; rfl

/-- The place of a call of `start` on `p`, with what it has changed by then. -/
inductive Place (s₀ s : State) (p : PuppyId) : CallPc → Prop where
  | setTimeout {x} : Untouched s₀ s p → Place s₀ s p (.setTimeout x)
  | create : Untouched s₀ s p → Place s₀ s p .create
  | spawning {c sp} : Untouched s₀ s p → s.objs c = some sp → sp.child.obj.options.Valid →
      Place s₀ s p (.spawning c)
  | failed {c r} : Untouched s₀ s p → (s.objs c).isSome → r ≤ 0 → Place s₀ s p (.javaPut c r)
  | native {c e sp pid} : s.nativeList pid = some (some e) → e.child = c → s.objs c = some sp →
      sp.puppy = p → 0 < pid → Place s₀ s p (.javaPut c pid)
  | setPid {pid} : Enrolled s p pid → Place s₀ s p (.setPid pid)
  | setStartedAt {pid} : Enrolled s p pid → (s.puppies p).pid = pid →
      Place s₀ s p (.setStartedAt pid)

/-- How far a call has come. -/
def State.progress (s : State) : CallPc → Nat
  | .setTimeout _ => 0
  | .create => 1
  | .spawning c => ((s.objs c).map fun sp => 2 + sp.child.pc.rank).getD 2
  | .javaPut _ _ => 10
  | .setPid _ => 11
  | .setStartedAt _ | .killCheck _ | .killRead _ | .killCount _ _ | .killDeref _ _ => 12

theorem State.progress_le (s : State) (pc : CallPc) : s.progress pc ≤ 12 := by
  cases pc with
  | spawning c =>
      simp only [State.progress]
      cases s.objs c with
      | none => decide
      | some sp => cases hpc : sp.child.pc <;> simp [hpc, SpawnPc.rank]
  | _ => simp [State.progress]

/-- A call of `start`, under way or over. -/
inductive Going (s₀ : State) (t : Tid) (p : PuppyId) (h : History Label Event) (s : State) :
    Prop where
  | under {call} : s.calls t = some call → call.puppy = p → call.inStart = true →
      Place s₀ s p call.pc → h.outputs.filter Event.isEnd = [] →
      h.inputs.countP (Label.own t) ≤ s.progress call.pc → Going s₀ t p h s
  | returned {pid} : s.calls t = none → h.outputs.filter Event.isEnd = [.returned t p pid] →
      Enrolled s p pid → h.inputs.countP (Label.own t) ≤ 13 → Going s₀ t p h s
  | threw {r} : s.calls t = none → h.outputs.filter Event.isEnd = [.threw t p r] →
      Unchanged s₀ s p → h.inputs.countP (Label.own t) ≤ 13 → Going s₀ t p h s

/-! ### One step -/

theorem Enrolled.congr {pid : Int} (e : Enrolled s p pid) (hn : s'.nativeList = s.nativeList)
    (hj : s'.javaList = s.javaList) (ho : s'.objs = s.objs) : Enrolled s' p pid := by
  refine ⟨e.pos, ?_, ?_⟩
  · rw [hn, ho]
    exact e.native
  · rw [hj]
    exact e.java

theorem Place.congr {pc : CallPc} (pl : Place s₀ s p pc) (hp : s'.puppies = s.puppies)
    (hn : s'.nativeList = s.nativeList) (hj : s'.javaList = s.javaList) (ho : s'.objs = s.objs) :
    Place s₀ s' p pc := by
  cases pl with
  | setTimeout u => exact .setTimeout (u.congr hp hn hj)
  | create u => exact .create (u.congr hp hn hj)
  | spawning u hsp hv => exact .spawning (u.congr hp hn hj) (ho ▸ hsp) hv
  | failed u hsp hr => exact .failed (u.congr hp hn hj) (ho ▸ hsp) hr
  | native he hc hsp hpu hpos => exact .native (hn ▸ he) hc (ho ▸ hsp) hpu hpos
  | setPid e => exact .setPid (e.congr hn hj ho)
  | setStartedAt e hpid => exact .setStartedAt (e.congr hn hj ho) (hp ▸ hpid)

/-- The options made from a command with an element are ones `uv_spawn` can use. -/
theorem options_valid {x : DoryProcess} {mem : Uninit} {setup : Setup JniCallback}
    (hx : x.command ≠ []) (h : x.setup mem uvLoop = some setup) :
    (Child.start setup).obj.options.Valid := by
  obtain ⟨hnone, hargs, -⟩ := DoryProcess.setup_eq h
  obtain ⟨b, hb⟩ := exists_strings hnone
  rw [← hb, List.map_map] at hargs
  refine ⟨?_, b.map getStringUTFChars, ?_⟩
  · change setup.args.head?.join ≠ none
    cases b with
    | nil => exact absurd hb.symm hx
    | cons c b => simp [hargs]
  · change setup.args = _
    rw [hargs, List.map_map]
    rfl

/-- A step that is no step of the call, and changes the pid table only. -/
theorem Going.outside (g : Going s₀ t p h s) (hl : l.own t = false)
    (hp : s'.puppies = s.puppies) (hn : s'.nativeList = s.nativeList)
    (hj : s'.javaList = s.javaList) (ho : s'.objs = s.objs) (hc : s'.calls = s.calls) :
    Going s₀ t p (h ++ [(l, [])]) s' := by
  have hout : (h ++ [(l, ([] : List Event))]).outputs = h.outputs := by simp
  have hcount : (h ++ [(l, ([] : List Event))]).inputs.countP (Label.own t) =
      h.inputs.countP (Label.own t) := by simp [hl]
  cases g with
  | under hcall hpu hin pl hend hle =>
      have hprog (pc : CallPc) : s'.progress pc = s.progress pc := by
        cases pc <;> simp only [State.progress, ho]
      exact .under (hc ▸ hcall) hpu hin (pl.congr hp hn hj ho) (hout ▸ hend)
        (by rw [hcount, hprog]; exact hle)
  | returned hcall hend e hle =>
      exact .returned (hc ▸ hcall) (hout ▸ hend) (e.congr hn hj ho) (hcount ▸ hle)
  | threw hcall hend u hle =>
      exact .threw (hc ▸ hcall) (hout ▸ hend) (u.congr hp hn hj) (hcount ▸ hle)

theorem own_count (h : History Label Event) (os : List Event) (hl : l.own t = true) :
    (h ++ [(l, os)]).inputs.countP (Label.own t) = h.inputs.countP (Label.own t) + 1 := by
  simp [hl]

/-- A step of the call that does not end it. -/
theorem Going.next {call call' : Call} (hend : h.outputs.filter Event.isEnd = [])
    (hle : h.inputs.countP (Label.own t) ≤ s.progress call.pc) (hl : l.own t = true)
    (hc : s'.calls t = some call') (hpu : call'.puppy = p) (hin : call'.inStart = true)
    (pl : Place s₀ s' p call'.pc) (hos : os.filter Event.isEnd = [])
    (hlt : s.progress call.pc < s'.progress call'.pc) : Going s₀ t p (h ++ [(l, os)]) s' := by
  refine .under hc hpu hin pl ?_ ?_
  · simp [hend, hos]
  · rw [own_count h os hl]
    omega

/-- A step without effects gives `uv_spawn` nothing. -/
theorem spawn_none (c : ObjId) (o : UvProcessOptions)
    (ho : .act c (.uv (.spawn o)) ∈ ([] : List Event)) : o.Valid := by
  cases ho

theorem act_isEnd {c : ObjId} (as : List (Act JniCallback)) :
    (as.map (Event.act c)).filter Event.isEnd = [] := by
  simp [List.filter_map, Function.comp_def, Event.isEnd]

/-- `uv_spawn` gets the options of the object. -/
theorem spawn_valid {c : ObjId} {o : DoryProcessSpawn JniCallback} {pc : SpawnPc} {i : Input}
    {ch : Child JniCallback} {as : List (Act JniCallback)}
    (hst : Child.spawnStep o pc i = some (ch, as)) (hv : o.options.Valid) (c' : ObjId)
    (o' : UvProcessOptions) (ho : .act c' (.uv (.spawn o')) ∈ as.map (Event.act c)) :
    o'.Valid := by
  obtain ⟨a, ha, he⟩ := List.mem_map.mp ho
  cases he
  have hstep : Child.step ⟨o, pc⟩ i = some (ch, as) := Child.spawnStep_step hst
  rw [Child.step_spawn hstep o' (List.mem_filterMap.mpr ⟨_, ha, rfl⟩)]
  exact hv

/-- A step of the thread of a call of `start`. -/
theorem step_own {call : Call} (v : Inv s) (hcmd : (s₀.puppies p).command ≠ [])
    (hc : s.calls t = some call) (hpu : call.puppy = p) (hin : call.inStart = true)
    (pl : Place s₀ s p call.pc) (hend : h.outputs.filter Event.isEnd = [])
    (hle : h.inputs.countP (Label.own t) ≤ s.progress call.pc) (hl : l.own t = true)
    (hs : Step s l s' os) :
    Going s₀ t p (h ++ [(l, os)]) s' ∧ s'.crashed = s.crashed ∧
      ∀ c o, .act c (.uv (.spawn o)) ∈ os → o.Valid := by
  obtain ⟨p', inStart, pc⟩ := call
  obtain rfl : p' = p := hpu
  obtain rfl : inStart = true := hin
  have hlast {e : Event} (he : e.isEnd = true) :
      (h ++ [(l, [e])]).outputs.filter Event.isEnd = [e] := by simp [hend, he]
  have hcount {os : List Event} (hn : h.inputs.countP (Label.own t) ≤ 12) :
      (h ++ [(l, os)]).inputs.countP (Label.own t) ≤ 13 := by
    rw [own_count h os hl]
    omega
  cases hs with
  | @setTimeout t' mem now call' timeout hc' hpc =>
      obtain rfl : t' = t := of_decide_eq_true hl
      cases hc.symm.trans hc'
      obtain rfl : pc = .setTimeout timeout := hpc
      cases pl with
      | setTimeout u =>
          refine ⟨.next hend hle hl (update_self ..) rfl rfl (.create ?_) rfl ?_, rfl, spawn_none⟩
          · exact u.setTimeout (update_self ..) rfl rfl
          · simp [State.progress]
  | @create t' mem now call' setup hc' hpc hset =>
      obtain rfl : t' = t := of_decide_eq_true hl
      cases hc.symm.trans hc'
      obtain rfl : pc = .create := hpc
      cases pl with
      | create u =>
          refine ⟨.next hend hle hl (update_self ..) rfl rfl (.spawning (u.congr rfl rfl rfl)
            (update_self ..) (options_valid ?_ hset)) rfl ?_, rfl, spawn_none⟩
          · rw [u.command]
            exact hcmd
          · simp [State.progress, Child.start, SpawnPc.rank]
  | @nativePut t' mem now call' c sp hc' hpc hsp hret =>
      obtain rfl : t' = t := of_decide_eq_true hl
      cases hc.symm.trans hc'
      have hpu := (v.calls.spawning hc hpc hsp).1
      obtain rfl : pc = .spawning c := hpc
      have hr := (v.objects.reached c sp hsp).1
      obtain ⟨hb, hpid⟩ := hr.started hret
      have hpos := hr.pid_pos hb
      rw [← hpid] at hpos
      refine ⟨.next hend hle hl (update_self ..) rfl rfl (.native (update_self ..) rfl
        (update_self ..) hpu hpos) rfl ?_, rfl, spawn_none⟩
      simp [State.progress, hsp, hret, SpawnPc.rank]
  | @spawnFailed t' mem now call' c sp r hc' hpc hsp hret hne =>
      obtain rfl : t' = t := of_decide_eq_true hl
      cases hc.symm.trans hc'
      obtain rfl : pc = .spawning c := hpc
      have hr := (v.objects.reached c sp hsp).1.code hret
      cases pl with
      | spawning u _ _ =>
          refine ⟨.next hend hle hl (update_self ..) rfl rfl (.failed (u.congr rfl rfl rfl)
            (by simp [hsp]) hr) rfl ?_, rfl, spawn_none⟩
          simp [State.progress, hsp, hret, SpawnPc.rank]
  | @javaThrow t' mem now call' c pid hc' hpc hneg =>
      obtain rfl : t' = t := of_decide_eq_true hl
      cases hc.symm.trans hc'
      obtain rfl : pc = .javaPut c pid := hpc
      cases pl with
      | failed u _ _ =>
          refine ⟨.threw (update_self ..) (hlast rfl) (u.toUnchanged.congr rfl rfl rfl) ?_, rfl,
            by simp⟩
          exact hcount (hle.trans (s.progress_le _))
      | native _ _ _ _ hpos => omega
  | @javaPut t' mem now call' c pid sp hc' hpc hsp hpos =>
      obtain rfl : t' = t := of_decide_eq_true hl
      cases hc.symm.trans hc'
      obtain rfl : pc = .javaPut c pid := hpc
      cases pl with
      | failed _ _ hneg => omega
      | @native c e sp' pid hn he hsp' hpu _ =>
          refine ⟨.next hend hle hl (update_self ..) rfl rfl (.setPid ⟨hpos, ?_, ?_⟩) rfl ?_, rfl,
            spawn_none⟩
          · cases hsp.symm.trans hsp'
            subst he
            exact ⟨e, _, hn, update_self .., hpu⟩
          · exact ⟨_, update_self .., rfl⟩
          · simp [State.progress]
  | @setPid t' mem now call' pid hc' hpc =>
      obtain rfl : t' = t := of_decide_eq_true hl
      cases hc.symm.trans hc'
      obtain rfl : pc = .setPid pid := hpc
      cases pl with
      | setPid e =>
          have hpid : (update s.puppies p'
              ((s.puppies p').write (.pid pid)) p').pid = pid := by
            rw [update_self]
            rfl
          refine ⟨.next hend hle hl (update_self ..) rfl rfl
            (.setStartedAt (e.congr rfl rfl rfl) hpid) rfl ?_, rfl, spawn_none⟩
          simp [State.progress]
  | @setStartedAt t' mem now call' pid hc' hpc =>
      obtain rfl : t' = t := of_decide_eq_true hl
      cases hc.symm.trans hc'
      obtain rfl : pc = .setStartedAt pid := hpc
      cases pl with
      | setStartedAt e hpid =>
          -- `return pid` reads what `start` has written
          subst hpid
          refine ⟨.returned (update_self ..) (hlast rfl) (e.congr rfl rfl rfl) ?_, rfl, by simp⟩
          exact hcount (hle.trans (s.progress_le _))
  | @killMove t' mem now call' pc' hc' hm =>
      obtain rfl : t' = t := of_decide_eq_true hl
      cases hc.symm.trans hc'
      cases pl <;> cases hm
  | @killDeref t' mem now call' pid g e hc' hpc | @nullDeref t' mem now call' pid g hc' hpc =>
      obtain rfl : t' = t := of_decide_eq_true hl
      cases hc.symm.trans hc'
      obtain rfl : pc = .killDeref pid g := hpc
      cases pl
  | @spawn t' i call' c sp child as hc' hpc hsp hst hfree =>
      obtain rfl : t' = t := of_decide_eq_true hl
      cases hc.symm.trans hc'
      obtain rfl : pc = .spawning c := hpc
      have hstep := Child.spawnStep_step hst
      cases pl with
      | @spawning c sp' u hsp' hv =>
          cases hsp.symm.trans hsp'
          have hv' : child.obj.options.Valid := by
            rw [Child.step_options hstep]
            exact hv
          refine ⟨.next hend hle hl hc rfl rfl
            (.spawning (u.congr rfl rfl rfl) (update_self ..) hv') (act_isEnd as) ?_, rfl,
            spawn_valid hst hv⟩
          have hrank := Child.spawnStep_rank hst
          simp only [State.progress, State.withChild, update_self, hsp, Option.map_some,
            Option.getD_some]
          omega
  | _ => cases hl

/-- One step of a call of `start` that has a command, or of somebody else's process. -/
theorem step_going (v : Inv s) (hcmd : (s₀.puppies p).command ≠ []) (g : Going s₀ t p h s)
    (hl : Undisturbed t s l) (hs : Step s l s' os) :
    Going s₀ t p (h ++ [(l, os)]) s' ∧ s'.crashed = s.crashed ∧
      ∀ c o, .act c (.uv (.spawn o)) ∈ os → o.Valid := by
  rcases Bool.or_eq_true_iff.mp hl with hl | hl
  · cases g with
    | under hc hpu hin pl hend hle => exact step_own v hcmd hc hpu hin pl hend hle hl hs
    | returned hc | threw hc =>
        -- the call is over
        cases hs with
        | setTimeout hc' | create hc' | nativePut hc' | spawnFailed hc' | javaThrow hc'
        | javaPut hc' | setPid hc' | setStartedAt hc' | killMove hc' | killDeref hc' | nullDeref hc'
        | spawn hc' =>
            obtain rfl := of_decide_eq_true hl
            rw [hc] at hc'
            cases hc'
        | _ => cases hl
  · cases hs with
    | otherStarts | otherEnds =>
        exact ⟨g.outside rfl rfl rfl rfl rfl rfl, rfl, fun c o ho => by cases ho⟩
    | _ => cases hl

/-- A call that has begun. -/
theorem call_begins {timeout : Int64}
    (hs : s₀.step (.call t p (.start timeout)) = some (s₁, os)) :
    s₁.crashed = false ∧ s₁.calls t = some ⟨p, true, .setTimeout timeout⟩ ∧
      Untouched s₀ s₁ p := by
  obtain ⟨hcr, hs⟩ := step_inv hs
  cases hs with
  | call hnone =>
      exact ⟨hcr, update_self .., ⟨⟨rfl, rfl, rfl, rfl, rfl, rfl, rfl⟩, rfl⟩⟩

/-- What a run of a call of `start` that has a command keeps. -/
theorem run_going {timeout : Int64} (v : Inv s₁) (hcmd : (s₀.puppies p).command ≠ [])
    (hs : s₀.step (.call t p (.start timeout)) = some (s₁, os))
    (r : machine.RunWhere (Undisturbed t) s₁ h s) : Inv s ∧ s.crashed = false ∧ Going s₀ t p h s ∧
      ∀ c o, .act c (.uv (.spawn o)) ∈ h.outputs → o.Valid := by
  obtain ⟨hcr, hcall, u⟩ := call_begins hs
  refine r.inv (fun h s => Inv s ∧ s.crashed = false ∧ Going s₀ t p h s ∧
    ∀ c o, .act c (.uv (.spawn o)) ∈ h.outputs → o.Valid) ?_ ?_
  · exact ⟨v, hcr, .under hcall rfl rfl (.setTimeout u) rfl le_rfl, nofun⟩
  · rintro h s s' l os - hl hs ⟨v, hcr, g, hv⟩
    have hstep := (step_inv hs).2
    obtain ⟨g', hcr', hv'⟩ := step_going v hcmd g hl hstep
    refine ⟨step_keeps_inv v hs, hcr'.trans hcr, g', fun c o ho => ?_⟩
    simp only [History.outputs_append, History.outputs_cons, History.outputs_nil,
      List.append_nil, List.mem_append] at ho
    exact ho.elim (hv c o) (hv' c o)

/-! ### The next step -/

/-- A call of `start` is never stuck, when no string of the command is null. -/
theorem Place.goesOn {call : Call} (hcr : s.crashed = false) (hc : s.calls t = some call)
    (hpu : call.puppy = p) (hnull : none ∉ (s₀.puppies p).command)
    (pl : Place s₀ s p call.pc) : GoesOn s t call := by
  subst hpu
  generalize hpc : call.pc = pc at pl
  cases pl with
  | create u =>
      refine .inl fun mem now => ?_
      rw [← u.command, ← DoryProcess.none_mem_utfStrings] at hnull
      have hsome : ((s.puppies call.puppy).setup mem uvLoop).isSome :=
        DoryProcess.setup_isSome.mpr hnull
      obtain ⟨setup, hset⟩ := Option.isSome_iff_exists.mp hsome
      simp [call_goes hcr hc, State.stepCall, hpc, hset]
  | @spawning c sp u hsp hv =>
      by_cases hret : ∃ r, sp.child.pc = .returned r
      · obtain ⟨r, hret⟩ := hret
        refine .inl fun mem now => ?_
        by_cases hr : r = 0 <;> simp [call_goes hcr hc, State.stepCall, hpc, hsp, hret, hr]
      · refine .inr ⟨c, sp, hpc, hsp, fun r hr => hret ⟨r, hr⟩, fun i hi hfree => ?_⟩
        rw [← Child.spawnStep_takes sp.child.obj] at hi
        obtain ⟨⟨ch, as⟩, hst⟩ := Option.isSome_iff_exists.mp hi
        rw [spawn_goes hcr hc hpc hsp hst hfree]
        rfl
  | failed u hsp hr =>
      refine .inl fun mem now => ?_
      obtain ⟨sp, hsp⟩ := Option.isSome_iff_exists.mp hsp
      simp [call_goes hcr hc, State.stepCall, hpc, hsp, hr]
  | @native c e sp pid hn he hsp hp hpos =>
      refine .inl fun mem now => ?_
      have hle : ¬ pid ≤ 0 := by omega
      by_cases hst : call.inStart <;>
        simp [call_goes hcr hc, State.stepCall, hpc, hsp, hle, hst]
  | setTimeout | setPid | setStartedAt =>
      exact .inl fun mem now => by simp [call_goes hcr hc, State.stepCall, hpc]

/-- A call of `start` that has a command without null is sound. -/
theorem Going.sound (hcr : s.crashed = false) (hnull : none ∉ (s₀.puppies p).command)
    (hv : ∀ c o, .act c (.uv (.spawn o)) ∈ h.outputs → o.Valid) (g : Going s₀ t p h s) :
    Sound s₀ t p h s := by
  cases g with
  | @under call hc hpu hin pl hend hle =>
      refine ⟨fun call' hc' hpc => ?_, hv, fun call' hc' => ?_, ?_, fun hnone => ?_⟩
      · cases hc.symm.trans hc'
        rw [hpc] at pl
        cases pl with
        | create u => rwa [DoryProcess.none_mem_utfStrings, hpu, u.command]
      · cases hc.symm.trans hc'
        exact pl.goesOn hcr hc hpu hnull
      · exact (hle.trans (s.progress_le _)).trans (by decide)
      · rw [hc] at hnone
        cases hnone
  | returned hc hend e hle =>
      refine ⟨fun call hc' => ?_, hv, fun call hc' => ?_, hle, fun _ => .inl ⟨_, hend, e⟩⟩ <;>
      · rw [hc] at hc'
        cases hc'
  | threw hc hend u hle =>
      refine ⟨fun call hc' => ?_, hv, fun call hc' => ?_, hle, fun _ => .inr ⟨_, hend, u⟩⟩ <;>
      · rw [hc] at hc'
        cases hc'

/-! ### What goes wrong -/

/-- In some run of the call `uv_spawn` gets the options `o`. -/
def Gives (t : Tid) (o : UvProcessOptions) (s : State) : Prop :=
  ∃ c h s', machine.RunWhere (Undisturbed t) s h s' ∧ .act c (.uv (.spawn o)) ∈ h.outputs

theorem Gives.before {o : UvProcessOptions} (g : Gives t o s') (hl : Undisturbed t s l)
    (hs : s.step l = some (s', os)) : Gives t o s := by
  obtain ⟨c, h, s'', r, hmem⟩ := g
  have one : machine.RunWhere (Undisturbed t) s [(l, os)] s' :=
    Machine.RunWhere.snoc (h := []) .nil hl hs
  exact ⟨c, _, s'', one.trans r, by simp [hmem]⟩

theorem undisturbed_spawn (i : Input) : Undisturbed t s (.spawn t i) := by
  simp [Undisturbed, undisturbed, Label.own]

theorem undisturbed_step (mem : Uninit) (now : Date) : Undisturbed t s (.step t mem now) := by
  simp [Undisturbed, undisturbed, Label.own]

section

variable {call : Call} {c : ObjId} {sp : Spawn} (hcr : s.crashed = false)
  (hc : s.calls t = some call) (hpc : call.pc = .spawning c) (hsp : s.objs c = some sp)

include hcr hc hpc hsp

theorem uvSpawn_gives (hat : sp.child.pc = .uvSpawn) : Gives t sp.child.obj.options s := by
  let r : UvError := ⟨-1, by decide⟩
  obtain ⟨ch, hst⟩ : ∃ ch, Child.spawnStep sp.child.obj sp.child.pc (.uvSpawn (.forkFailed r)) =
      some (ch, [.uv (.spawn sp.child.obj.options)]) := by
    rw [hat]
    exact ⟨_, rfl⟩
  have hs := spawn_goes hcr hc hpc hsp hst nofun
  exact ⟨c, _, _, Machine.RunWhere.snoc (h := []) .nil (undisturbed_spawn _) hs, by simp⟩

theorem timerStart_gives (hat : sp.child.pc = .timerStart) : Gives t sp.child.obj.options s := by
  obtain ⟨ch, as, hst, hat', ho⟩ : ∃ ch as, Child.spawnStep sp.child.obj sp.child.pc .timerStart =
      some (ch, as) ∧ ch.pc = .uvSpawn ∧ ch.obj.options = sp.child.obj.options := by
    rw [hat]
    exact ⟨_, _, rfl, rfl, rfl⟩
  have g := uvSpawn_gives (s := s.withChild c sp .timerStart ch) hcr hc hpc (update_self ..) hat'
  rw [← ho]
  exact g.before (undisturbed_spawn _) (spawn_goes hcr hc hpc hsp hst nofun)

/-- A call that enters `spawn()` comes to `uv_spawn`, with the options of its object. -/
theorem enter_gives (hat : sp.child.pc = .enter) : Gives t sp.child.obj.options s := by
  by_cases htime : 0 < sp.child.obj.timeout
  · obtain ⟨ch, as, hst, hat', ho⟩ : ∃ ch as, Child.spawnStep sp.child.obj sp.child.pc .enter =
        some (ch, as) ∧ ch.pc = .timerStart ∧ ch.obj.options = sp.child.obj.options := by
      rw [hat]
      exact ⟨_, _, if_pos htime, rfl, rfl⟩
    have g := timerStart_gives (s := s.withChild c sp .enter ch) hcr hc hpc (update_self ..) hat'
    rw [← ho]
    exact g.before (undisturbed_spawn _) (spawn_goes hcr hc hpc hsp hst nofun)
  · obtain ⟨as, hst⟩ : ∃ as, Child.spawnStep sp.child.obj sp.child.pc .enter =
        some (⟨sp.child.obj, .uvSpawn⟩, as) := by
      rw [hat]
      exact ⟨_, if_neg htime⟩
    have g := uvSpawn_gives (s := s.withChild c sp .enter ⟨sp.child.obj, .uvSpawn⟩) hcr hc hpc
      (update_self ..) rfl
    exact g.before (undisturbed_spawn _) (spawn_goes hcr hc hpc hsp hst nofun)

end

/-- Without an element in the command there is no file. -/
theorem options_file {x : DoryProcess} {mem : Uninit} {setup : Setup JniCallback}
    (hx : x.command = []) (h : x.setup mem uvLoop = some setup) :
    (Child.start setup).obj.options.file = none := by
  obtain ⟨-, hargs, -⟩ := DoryProcess.setup_eq h
  change setup.args.head?.join = none
  rw [hargs, hx]
  rfl

/-- A call about to make the object of an empty command gives `uv_spawn` no file. -/
theorem create_gives {call : Call} (hcr : s.crashed = false) (hc : s.calls t = some call)
    (hpc : call.pc = .create) (hempty : (s.puppies call.puppy).command = []) :
    ∃ o, Gives t o s ∧ o.file = none := by
  have hnull : none ∉ (s.puppies call.puppy).utfStrings := by
    rw [DoryProcess.none_mem_utfStrings, hempty]
    simp
  have hsome : ((s.puppies call.puppy).setup (Setup.example 0).mem uvLoop).isSome :=
    DoryProcess.setup_isSome.mpr hnull
  obtain ⟨setup, hset⟩ := Option.isSome_iff_exists.mp hsome
  obtain ⟨s', hs, hcr', hc', hsp⟩ : ∃ s', s.step (.step t (Setup.example 0).mem 0) = some (s', []) ∧
      s'.crashed = false ∧ s'.calls t = some { call with pc := .spawning s.next } ∧
      s'.objs s.next = some ⟨Child.start setup, call.puppy, .new⟩ := by
    rw [call_goes hcr hc, State.stepCall, hpc]
    simp only [hset]
    exact ⟨_, rfl, hcr, update_self .., update_self ..⟩
  exact ⟨_, (enter_gives hcr' hc' rfl hsp rfl).before (undisturbed_step _ _) hs,
    options_file hempty hset⟩

/-- The first step of a call of `start`. -/
theorem setTimeout_goes {timeout : Int64} (hcr : s.crashed = false)
    (hc : s.calls t = some ⟨p, true, .setTimeout timeout⟩) (mem : Uninit) (now : Date) :
    ∃ s', s.step (.step t mem now) = some (s', []) ∧ s'.crashed = false ∧
      s'.calls t = some ⟨p, true, .create⟩ ∧
      (s'.puppies p).command = (s.puppies p).command := by
  rw [call_goes hcr hc]
  refine ⟨_, rfl, hcr, update_self .., ?_⟩
  simp [DoryProcess.write]

/-- **`start` succeeds or leaves no trace.**  A call of `start` that runs undisturbed is sound in
every run if and only if the command has an element and none of its elements is null. -/
theorem start_iff {puppies : PuppyId → List (Option JString) × StringTable}
    {h₀ : History Label Event} {timeout : Int64} (r₀ : machine.Run (.init puppies) h₀ s₀)
    (hs : s₀.step (.call t p (.start timeout)) = some (s₁, os)) :
    (∀ h s, machine.RunWhere (Undisturbed t) s₁ h s → Sound s₀ t p h s) ↔
      (s₀.puppies p).command ≠ [] ∧ none ∉ (s₀.puppies p).command := by
  obtain ⟨hcr, hcall, u⟩ := call_begins hs
  constructor
  · intro hsound
    obtain ⟨s₂, hs₂, hcr₂, hcall₂, hcmd⟩ :=
      setTimeout_goes hcr hcall (Setup.example 0).mem 0
    have r₂ := Machine.RunWhere.snoc (M := machine) (h := []) .nil (undisturbed_step _ _) hs₂
    rw [u.command] at hcmd
    constructor
    · intro hempty
      obtain ⟨o, g, hfile⟩ := create_gives hcr₂ hcall₂ rfl (hcmd.trans hempty)
      obtain ⟨c, h, s, r, hmem⟩ := g.before (undisturbed_step _ _) hs₂
      exact ((hsound h s r).options c o hmem).file hfile
    · rw [← hcmd, ← DoryProcess.none_mem_utfStrings]
      exact (hsound _ _ r₂).strings _ hcall₂ rfl
  · rintro ⟨hcmd, hnull⟩ h s r
    have v : Inv s₁ := step_keeps_inv (run_inv r₀) hs
    obtain ⟨-, hcr', g, hv⟩ := run_going v hcmd hs r
    exact g.sound hcr' hnull hv

theorem start_iff_example : ∃ s₁ os,
    (State.init examplePuppies).step (.call (.caller 0) 0 (.start 0)) = some (s₁, os) ∧
    ∀ h s, machine.RunWhere (Undisturbed (.caller 0)) s₁ h s →
      Sound (.init examplePuppies) (.caller 0) 0 h s := by
  have hs : (State.init examplePuppies).step (.call (.caller 0) 0 (.start 0)) = some (_, _) := rfl
  exact ⟨_, _, hs, (start_iff .nil hs).mpr ⟨by decide, by decide⟩⟩

/-- One `DoryProcess` of a command, with an empty environment, as often as needed. -/
def ofCommand (command : List (Option JString)) :
    PuppyId → List (Option JString) × StringTable :=
  fun _ => (command, ⟨[], List.nodup_nil⟩)

/-- **The command is not looked at.**  `new DoryProcess()` makes an empty one, for which `uv_spawn`
gets no file; `new DoryProcess("ls", null)` makes one with a null, which goes to
`GetStringUTFChars`. -/
theorem start_unsound :
    (∃ s₁ os h s o,
      (State.init (ofCommand [])).step (.call (.caller 0) 0 (.start 0)) = some (s₁, os) ∧
      machine.RunWhere (Undisturbed (.caller 0)) s₁ h s ∧
      .act 0 (.uv (.spawn o)) ∈ h.outputs ∧ o.file = none) ∧
    ∃ s₁ os h s call,
      (State.init (ofCommand [some [0x6C, 0x73], none])).step (.call (.caller 0) 0 (.start 0)) =
        some (s₁, os) ∧
      machine.RunWhere (Undisturbed (.caller 0)) s₁ h s ∧
      s.calls (.caller 0) = some call ∧ call.pc = .create ∧
      none ∈ (s.puppies call.puppy).utfStrings := by
  constructor
  · refine ⟨_, _, _, _, _, rfl, Machine.execWhere_run (M := machine) (C := undisturbed (.caller 0))
      [go (.caller 0), go (.caller 0), .spawn (.caller 0) .enter,
        .spawn (.caller 0) (.uvSpawn (.forkFailed ⟨-1, by decide⟩))] rfl, .head _, rfl⟩
  · exact ⟨_, _, _, _, _, rfl, Machine.execWhere_run (M := machine) (C := undisturbed (.caller 0))
      [go (.caller 0)] rfl, rfl, rfl, by decide⟩

end Dorypuppy.Manager
